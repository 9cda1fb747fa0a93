/-
  Uaii.Lib.Codec — readers of a sequence of symbols, and what they read back of what was
  written.

  `Reads r s x`: where `s` stands, `r` takes it and gives `x`. The rules follow how
  readers are put together (`Reads.bind`, `Reads.many`); words are little-endian
  (`leBytes_reads`). `Echoes` is the converse: what `r` gives tells what it took.
-/

import Mathlib.Data.Nat.Bitwise

namespace Codec

/-- A reader takes symbols from the front of what is left. -/
abbrev Reader (σ ε α : Type) := StateT (List σ) (Except ε) α

variable {σ ε α β : Type}

/-- `r` takes `s` and gives `x`, whatever follows. -/
def Reads (r : Reader σ ε α) (s : List σ) (x : α) : Prop := ∀ rest, r.run (s ++ rest) = .ok (x, rest)

/-- `n` symbols. -/
def take (eof : ε) (n : Nat) : Reader σ ε (List σ) := fun s =>
  if s.length < n then .error eof else .ok (s.take n, s.drop n)

/-- `r`, `n` times. -/
def many (r : Reader σ ε α) : Nat → Reader σ ε (List α)
  | 0 => pure []
  | n + 1 => do
    let x ← r
    let xs ← many r n
    pure (x :: xs)

namespace Reads

theorem run {r : Reader σ ε α} {s : List σ} {x : α} (h : Reads r s x) : r.run s = .ok (x, []) := by
  have hs := h []
  rwa [List.append_nil] at hs

theorem pure (x : α) : Reads (Pure.pure x : Reader σ ε α) [] x := fun _ => rfl

theorem bind {r : Reader σ ε α} {f : α → Reader σ ε β} {s t : List σ} {x : α} {y : β} (h : Reads r s x)
    (hf : Reads (f x) t y) : Reads (r >>= f) (s ++ t) y := by
  intro rest
  rw [StateT.run_bind, List.append_assoc, h (t ++ rest)]
  exact hf rest

/-- One chunk after the other. -/
theorem chunk {r : Reader σ ε α} {f : α → Reader σ ε β} {s : List σ} {ts : List (List σ)} {x : α} {y : β} (h : Reads r s x)
    (hf : Reads (f x) ts.flatten y) : Reads (r >>= f) (s :: ts).flatten y := h.bind hf

/-- What is computed from what was read. -/
theorem ret {r : Reader σ ε α} {f : α → Reader σ ε β} {s : List σ} {x : α} {y : β} (h : Reads r s x)
    (hf : f x = Pure.pure y) : Reads (r >>= f) s y := by
  intro rest
  rw [StateT.run_bind, h rest]
  show (f x).run rest = _
  rw [hf]
  rfl

/-- The last chunk. -/
theorem last {r : Reader σ ε α} {f : α → Reader σ ε β} {s : List σ} {x : α} {y : β} (h : Reads r s x)
    (hf : f x = Pure.pure y) : Reads (r >>= f) [s].flatten y := by
  rw [List.flatten_singleton]
  exact h.ret hf

theorem take (eof : ε) (s : List σ) : Reads (Codec.take eof s.length) s s := by
  intro rest
  show (if (s ++ rest).length < s.length then _ else Except.ok ((s ++ rest).take s.length, (s ++ rest).drop s.length)) = _
  rw [if_neg (by rw [List.length_append]; omega), List.take_left, List.drop_left]

theorem many {r : Reader σ ε β} {w : α → List σ} {f : α → β} :
    ∀ {xs : List α}, (∀ x ∈ xs, Reads r (w x) (f x)) → Reads (Codec.many r xs.length) (xs.flatMap w) (xs.map f)
  | [], _ => pure []
  | x :: xs, h =>
    have hx := h x List.mem_cons_self
    have hxs : Reads (Codec.many r xs.length) (xs.flatMap w) (xs.map f) := many fun y hy => h y (List.mem_cons_of_mem _ hy)
    hx.bind (hxs.ret rfl)

end Reads

/-! ## What every value read satisfies -/

def Gives (r : Reader σ ε α) (P : α → Prop) : Prop := ∀ s x rest, r.run s = .ok (x, rest) → P x

namespace Gives

variable {r : Reader σ ε α} {P : α → Prop} {Q : β → Prop}

theorem any (r : Reader σ ε α) : Gives r fun _ => True := fun _ _ _ _ => trivial

theorem pure {x : α} (h : P x) : Gives (Pure.pure x : Reader σ ε α) P := by
  intro s y rest hrun
  cases hrun
  exact h

theorem throw (e : ε) : Gives (MonadExcept.throw e : Reader σ ε α) P := by
  intro s x rest hrun
  cases hrun

theorem bind {f : α → Reader σ ε β} (h : Gives r P) (hf : ∀ x, P x → Gives (f x) Q) : Gives (r >>= f) Q := by
  intro s y rest hrun
  rw [StateT.run_bind] at hrun
  cases hr : r.run s with
  | error e => rw [hr] at hrun; cases hrun
  | ok xs =>
    obtain ⟨x, s'⟩ := xs
    rw [hr] at hrun
    exact hf x (h s x s' hr) s' y rest hrun

theorem many (h : Gives r P) : ∀ n, Gives (Codec.many r n) fun xs => ∀ x ∈ xs, P x
  | 0 => pure (by simp)
  | n + 1 => h.bind fun x hx => (many h n).bind fun xs hxs => pure (List.forall_mem_cons.mpr ⟨hx, hxs⟩)

end Gives

/-! ## What was taken -/

/-- A step that succeeds, and what is done with it. -/
theorem bind_taken {r : Reader σ ε α} {f : α → Reader σ ε β} {s rest : List σ} {y : β} (h : (r >>= f).run s = .ok (y, rest)) :
    ∃ x s', r.run s = .ok (x, s') ∧ (f x).run s' = .ok (y, rest) := by
  rw [StateT.run_bind] at h
  cases hr : r.run s with
  | error e => rw [hr] at h; cases h
  | ok p => exact ⟨p.1, p.2, rfl, by rwa [hr] at h⟩

theorem take_taken {eof : ε} {n : Nat} {s x rest : List σ} (h : (take eof n : Reader σ ε (List σ)).run s = .ok (x, rest)) :
    s = x ++ rest ∧ x.length = n := by
  change (if s.length < n then Except.error eof else Except.ok (s.take n, s.drop n)) = _ at h
  split at h
  · cases h
  · cases h
    exact ⟨(List.take_append_drop n s).symm, by rw [List.length_take]; omega⟩

/-- Where `r` gives a value that is `clean`, it took what is written for its image, which
    has `P`. -/
def Echoes (r : Reader σ ε α) (clean : α → Prop) (f : α → β) (w : β → List σ) (P : β → Prop) : Prop :=
  ∀ s x rest, r.run s = .ok (x, rest) → clean x → s = w (f x) ++ rest ∧ P (f x)

theorem Echoes.many {r : Reader σ ε α} {clean : α → Prop} {f : α → β} {w : β → List σ} {P : β → Prop}
    (h : Echoes r clean f w P) : ∀ n, Echoes (Codec.many r n) (fun xs => ∀ x ∈ xs, clean x) (List.map f) (List.flatMap w)
      fun ys => ys.length = n ∧ ∀ y ∈ ys, P y
  | 0 => fun s xs rest hrun _ => by
    cases hrun
    exact ⟨rfl, rfl, by simp⟩
  | n + 1 => fun s xs rest hrun hclean => by
    obtain ⟨x, s', hx, hrun⟩ := bind_taken hrun
    obtain ⟨xs', s'', hxs, hrun⟩ := bind_taken hrun
    cases hrun
    obtain ⟨rfl, hPx⟩ := h s x s' hx (hclean x List.mem_cons_self)
    obtain ⟨rfl, hlen, hPxs⟩ := many h n s' xs' rest hxs fun y hy => hclean y (List.mem_cons_of_mem _ hy)
    refine ⟨?_, ?_, ?_⟩
    · rw [List.map_cons, List.flatMap_cons, List.append_assoc]
    · rw [List.map_cons, List.length_cons, hlen]
    · rw [List.map_cons]
      exact List.forall_mem_cons.mpr ⟨hPx, hPxs⟩

/-! ## Before what may follow, and failing -/

/-- Before what `D` allows, `r` takes `s` and gives the value, or fails when there is none. -/
def Parses (D : List σ → Prop) (r : Reader σ ε α) (s : List σ) (o : Option α) : Prop :=
  ∀ rest, D rest → match o with
    | some x => r.run (s ++ rest) = .ok (x, rest)
    | none => ∃ e, r.run (s ++ rest) = .error e

namespace Parses

variable {D D' : List σ → Prop} {r : Reader σ ε α} {s t : List σ} {o : Option α}

theorem some_run {x : α} (h : Parses D r s (some x)) {rest : List σ} (hD : D rest) : r.run (s ++ rest) = .ok (x, rest) :=
  h rest hD

theorem none_run (h : Parses D r s none) {rest : List σ} (hD : D rest) : ∃ e, r.run (s ++ rest) = .error e := h rest hD

/-- One after the other: the first one's failure is the failure of both. -/
theorem bind {f : α → Reader σ ε β} {k : α → Option β} (h : Parses D' r s o) (hD : ∀ rest, D rest → D' (t ++ rest))
    (hf : ∀ x, o = some x → Parses D (f x) t (k x)) : Parses D (r >>= f) (s ++ t) (o.bind k) := by
  intro rest hrest
  cases ho : o with
  | none =>
    rw [ho] at h
    rcases h.none_run (hD rest hrest) with ⟨e, he⟩
    refine ⟨e, ?_⟩
    rw [StateT.run_bind, List.append_assoc, he]
    rfl
  | some x =>
    rw [ho] at h
    have hr := h.some_run (hD rest hrest)
    have hnext := hf x ho rest hrest
    rw [StateT.run_bind, List.append_assoc, hr]
    exact hnext

end Parses

/-! ## Little-endian words -/

/-- The low `k` bytes of `n`. -/
def leBytes : Nat → Nat → List UInt8
  | 0, _ => []
  | k + 1, n => .ofNat (n % 256) :: leBytes k (n / 256)

def leValue : List UInt8 → Nat
  | [] => 0
  | b :: bs => b.toNat + 256 * leValue bs

def word (eof : ε) (k : Nat) : Reader UInt8 ε Nat := do
  let bs ← take eof k
  pure (leValue bs)

@[simp] theorem leBytes_length (k n : Nat) : (leBytes k n).length = k := by
  induction k generalizing n with
  | zero => rfl
  | succ k ih => rw [leBytes, List.length_cons, ih]

theorem leValue_lt (b : List UInt8) : leValue b < 256 ^ b.length := by
  induction b with
  | nil => decide
  | cons x b ih =>
    have hx := x.toNat_lt
    rw [leValue, List.length_cons, Nat.pow_succ]
    omega

/-- A word keeps its low `8 * k` bits. -/
theorem leValue_leBytes (k n : Nat) : leValue (leBytes k n) = n % 256 ^ k := by
  induction k generalizing n with
  | zero => simp [leBytes, leValue, Nat.mod_one]
  | succ k ih =>
    have hbyte : (UInt8.ofNat (n % 256)).toNat = n % 256 := by
      rw [UInt8.toNat_ofNat']
      omega
    rw [leBytes, leValue, hbyte, ih, Nat.pow_succ, Nat.mul_comm (256 ^ k), Nat.mod_mul]

theorem leBytes_reads (eof : ε) {k n : Nat} (h : n < 256 ^ k) : Reads (word eof k) (leBytes k n) n := by
  have htake := Reads.take eof (leBytes k n)
  rw [leBytes_length] at htake
  refine htake.ret ?_
  rw [leValue_leBytes, Nat.mod_eq_of_lt h]

theorem leBytes_leValue (bs : List UInt8) : leBytes bs.length (leValue bs) = bs := by
  induction bs with
  | nil => rfl
  | cons b bs ih =>
    have hb := b.toNat_lt
    have hlow : (b.toNat + 256 * leValue bs) % 256 = b.toNat := by omega
    have hhigh : (b.toNat + 256 * leValue bs) / 256 = leValue bs := by omega
    rw [leValue, List.length_cons, leBytes, hlow, hhigh, ih, UInt8.ofNat_toNat]

theorem word_echoes (eof : ε) (k : Nat) : Echoes (word eof k) (fun _ => True) id (leBytes k) (· < 256 ^ k) := by
  intro s x rest hrun _
  obtain ⟨bs, s', htake, hrun⟩ := bind_taken hrun
  cases hrun
  obtain ⟨rfl, rfl⟩ := take_taken htake
  exact ⟨by rw [id, leBytes_leValue], leValue_lt bs⟩

/-! ## Text, a byte a character -/

def textOf (bytes : List UInt8) : List Char := bytes.map fun b => Char.ofNat b.toNat

def bytesOf (text : List Char) : List UInt8 := text.map fun c => .ofNat c.toNat

/-- The characters are bytes. -/
def ByteText (text : List Char) : Prop := ∀ c ∈ text, c.toNat < 256

instance (text : List Char) : Decidable (ByteText text) := List.decidableBAll _ text

section ByteText

variable {s t : List Char} {c : Char}

theorem ByteText.nil : ByteText [] := by simp [ByteText]

theorem ByteText.cons (hc : c.toNat < 256) (ht : ByteText t) : ByteText (c :: t) := List.forall_mem_cons.mpr ⟨hc, ht⟩

theorem ByteText.append (hs : ByteText s) (ht : ByteText t) : ByteText (s ++ t) := by
  intro c hc
  rcases List.mem_append.mp hc with hc | hc
  · exact hs c hc
  · exact ht c hc

end ByteText

theorem textOf_bytesOf {text : List Char} (h : ByteText text) : textOf (bytesOf text) = text := by
  rw [textOf, bytesOf, List.map_map]
  have hchar : ∀ c ∈ text, ((fun b : UInt8 => Char.ofNat b.toNat) ∘ fun c => UInt8.ofNat c.toNat) c = c := by
    intro c hc
    have hlt := h c hc
    show Char.ofNat (UInt8.ofNat c.toNat).toNat = c
    rw [UInt8.toNat_ofNat', Nat.mod_eq_of_lt hlt, Char.ofNat_toNat]
  rw [List.map_congr_left hchar, List.map_id']

end Codec
