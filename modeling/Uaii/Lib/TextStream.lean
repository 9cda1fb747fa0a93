/-
  Uaii.Lib.TextStream — lines and numbers read from a text (`std::istream`).

  An extraction passes over white space, takes a sign and digits, and leaves what follows.
  `space` is the locale's white space. Past the end every reader fails but `get`, which
  takes one character if there is one.

  Rules: a line without a line break is read as it stands (`Reads.line`), and a number up
  to the first character that is no digit (`Reads.unsigned`, `Reads.signed`, `numbers_run`).
-/

import Uaii.Lib.Codec
import Uaii.Lib.Decimal

namespace TextStream

open Codec Decimal

/-! ## Scanning -/

/-- What follows does not go on with `p`. -/
def Ends (p : Char → Bool) (rest : List Char) : Prop := ∀ c, rest.head? = some c → p c = false

theorem scan_while {p : Char → Bool} {ds rest : List Char} (hds : ∀ c ∈ ds, p c = true) (hrest : Ends p rest) :
    (ds ++ rest).takeWhile p = ds ∧ (ds ++ rest).dropWhile p = rest := by
  have htake : rest.takeWhile p = [] ∧ rest.dropWhile p = rest := by
    cases rest with
    | nil => exact ⟨rfl, rfl⟩
    | cons c rest =>
      have hc := hrest c rfl
      simp [hc]
  rw [List.takeWhile_append_of_pos hds, List.dropWhile_append_of_pos hds, htake.1, htake.2]
  simp

theorem Ends.append {p : Char → Bool} {s rest : List Char} (hs : Ends p s) (hrest : Ends p rest) : Ends p (s ++ rest) := by
  cases s with
  | nil => exact hrest
  | cons c s => exact fun d hd => hs d hd

theorem Ends.mono {p q : Char → Bool} {rest : List Char} (h : Ends q rest) (hpq : ∀ c, p c = true → q c = true) :
    Ends p rest := by
  intro c hc
  have hq := h c hc
  cases hp : p c with
  | false => rfl
  | true => rw [hpq c hp] at hq; cases hq

/-! ## Readers -/

abbrev Stream (α : Type) := Reader Char Unit α

/-- `std::getline`. -/
def getline : Stream (List Char) := fun s =>
  if s = [] then .error () else .ok (s.takeWhile (· != '\n'), (s.dropWhile (· != '\n')).tail)

/-- `in.get()`. -/
def get : Stream Unit := fun s => .ok ((), s.tail)

/-- White space, a sign and digits. -/
def extract (space : Char → Bool) : Stream (Bool × Nat) := fun s =>
  let s := s.dropWhile space
  let neg := s.head? = some '-'
  let s := if s.head? = some '-' ∨ s.head? = some '+' then s.tail else s
  if s.takeWhile Char.isDigit = [] then .error ()
  else .ok ((neg, digits (s.takeWhile Char.isDigit)), s.dropWhile Char.isDigit)

/-- `in >> n`, of an unsigned type of `w` bits: a negative number is taken modulo `2 ^ w`. -/
def unsigned (space : Char → Bool) (w : Nat) : Stream Nat := do
  let (neg, n) ← extract space
  if n < 2 ^ w then pure (if neg then (2 ^ w - n) % 2 ^ w else n) else throw ()

/-- `in >> n`, of a signed type of `w` bits. -/
def signed (space : Char → Bool) (w : Nat) : Stream Int := do
  let (neg, n) ← extract space
  if neg then (if n ≤ 2 ^ (w - 1) then pure (-n) else throw ()) else (if n < 2 ^ (w - 1) then pure n else throw ())

/-! ## What they read -/

/-- A line. -/
def line (cs : List Char) : List Char := cs ++ ['\n']

def decimal (n : Nat) : List Char := Nat.toDigits 10 n

def integer (i : Int) : List Char := (if i < 0 then ['-'] else []) ++ decimal i.natAbs

theorem getline_no_newline {s cs rest : List Char} (h : getline s = .ok (cs, rest)) : '\n' ∉ cs := by
  unfold getline at h
  split at h
  · cases h
  · cases h
    intro hmem
    have hne := List.mem_takeWhile_imp hmem
    simp at hne

section Rules

variable {space : Char → Bool} {β : Type} {t : List Char} {y : β}

theorem getline_run {cs : List Char} (h : '\n' ∉ cs) (rest : List Char) : getline (line cs ++ rest) = .ok (cs, rest) := by
  have hcs : ∀ c ∈ cs, (c != '\n') = true := fun c hc => by
    have hne : c ≠ '\n' := fun he => h (he ▸ hc)
    simpa using hne
  have hrest : Ends (· != '\n') ('\n' :: rest) := fun c hc => by
    obtain rfl := Option.some.inj hc
    rfl
  obtain ⟨htake, hdrop⟩ := scan_while hcs hrest
  have hline : line cs ++ rest = cs ++ '\n' :: rest := by simp [line]
  rw [hline, getline, if_neg (by simp), htake, hdrop]
  rfl

theorem Reads.line {f : List Char → Stream β} {cs : List Char} (h : '\n' ∉ cs) (hf : Reads (f cs) t y) :
    Reads (getline >>= f) (TextStream.line cs ++ t) y := by
  have hcs : Reads getline (TextStream.line cs) cs := getline_run h
  exact hcs.bind hf

theorem Reads.get {f : Unit → Stream β} (c : Char) (hf : Reads (f ()) t y) : Reads (TextStream.get >>= f) (c :: t) y := by
  have hc : Reads TextStream.get [c] () := fun rest => rfl
  exact hc.bind hf

/-- White space is not taken for part of a number. -/
def Spaces (space : Char → Bool) : Prop := ∀ c, space c = true → c.isDigit = false ∧ c ≠ '-' ∧ c ≠ '+'

theorem decimal_head (n : Nat) : ∃ d ds, decimal n = d :: ds ∧ d.isDigit = true := by
  cases hn : decimal n with
  | nil => exact absurd hn Nat.toDigits_ne_nil
  | cons d ds => exact ⟨d, ds, rfl, toDigits_isDigit (hn ▸ List.mem_cons_self)⟩

theorem extract_run (hs : Spaces space) {ws rest : List Char} (hws : ∀ c ∈ ws, space c = true) (i : Int)
    (hrest : Ends Char.isDigit rest) :
    extract space (ws ++ (integer i ++ rest)) = .ok ((decide (i < 0), i.natAbs), rest) := by
  obtain ⟨d, ds, hn, hd⟩ := decimal_head i.natAbs
  have hdigits : ∀ c ∈ decimal i.natAbs, c.isDigit = true := fun c hc => toDigits_isDigit hc
  obtain ⟨htake, hdrop⟩ := scan_while hdigits hrest
  have hvalue : digits (decimal i.natAbs) = i.natAbs := digits_toDigits _
  have hne : decimal i.natAbs ≠ [] := by simp [hn]
  have hspace : ∀ c, c.isDigit = true ∨ c = '-' → space c = false := by
    intro c hc
    by_contra hsp
    obtain ⟨hdig, hminus, -⟩ := hs c (by simpa using hsp)
    rcases hc with hc | hc
    · rw [hdig] at hc
      cases hc
    · exact hminus hc
  have hstart : Ends space (integer i ++ rest) := by
    intro c hc
    refine hspace c ?_
    unfold integer at hc
    split at hc
    · obtain rfl := Option.some.inj hc
      exact .inr rfl
    · rw [hn] at hc
      obtain rfl := Option.some.inj hc
      exact .inl hd
  have hskip := (scan_while hws hstart).2
  unfold extract
  rw [hskip]
  by_cases hneg : i < 0
  · simp [integer, hneg, htake, hdrop, hne, hvalue]
  · have hsign : ∀ c, c.isDigit = false → ¬ (decimal i.natAbs ++ rest).head? = some c := by
      intro c hc he
      rw [hn] at he
      obtain rfl := Option.some.inj he
      rw [hd] at hc
      cases hc
    have hminus := hsign '-' rfl
    have hplus := hsign '+' rfl
    have htext : integer i = decimal i.natAbs := by simp [integer, hneg]
    simp only [htext, hminus, hplus, or_self, if_false, htake, hdrop, hvalue, if_neg hne, decide_eq_false hneg, decide_false]

theorem unsigned_run (hs : Spaces space) {ws rest : List Char} (hws : ∀ c ∈ ws, space c = true) {w n : Nat} (hn : n < 2 ^ w)
    (hrest : Ends Char.isDigit rest) : unsigned space w (ws ++ (decimal n ++ rest)) = .ok (n, rest) := by
  have hrun := extract_run hs hws n hrest
  have htext : integer (n : Int) = decimal n := by simp [integer]
  rw [htext] at hrun
  show (extract space >>= _).run _ = _
  rw [StateT.run_bind, show (extract space).run _ = _ from hrun]
  show StateT.run (if (n : Int).natAbs < 2 ^ w then _ else _) rest = _
  rw [if_pos (by simpa using hn)]
  simp
  rfl

theorem signed_run (hs : Spaces space) {ws rest : List Char} (hws : ∀ c ∈ ws, space c = true) {w : Nat} {i : Int}
    (hlo : -2 ^ (w - 1) ≤ i) (hhi : i < 2 ^ (w - 1)) (hrest : Ends Char.isDigit rest) :
    signed space w (ws ++ (integer i ++ rest)) = .ok (i, rest) := by
  have hrun := extract_run hs hws i hrest
  have hpow : ((2 ^ (w - 1) : Nat) : Int) = 2 ^ (w - 1) := by push_cast; rfl
  show (extract space >>= _).run _ = _
  rw [StateT.run_bind, show (extract space).run _ = _ from hrun]
  by_cases hneg : i < 0
  · have hfits : i.natAbs ≤ 2 ^ (w - 1) := by omega
    have hback : -((i.natAbs : Nat) : Int) = i := by omega
    show StateT.run (if decide (i < 0) = true then _ else _) rest = _
    rw [if_pos (by simpa using hneg), if_pos hfits, hback]
    rfl
  · have hfits : i.natAbs < 2 ^ (w - 1) := by omega
    have hback : ((i.natAbs : Nat) : Int) = i := by omega
    show StateT.run (if decide (i < 0) = true then _ else _) rest = _
    rw [if_neg (by simpa using hneg), if_pos hfits, hback]
    rfl

/-- After a number comes what is no digit. -/
theorem ends_cons {c : Char} (hc : c.isDigit = false) (rest : List Char) : Ends Char.isDigit (c :: rest) := by
  intro d hd
  obtain rfl := Option.some.inj hd
  exact hc

theorem no_space : ∀ c ∈ ([] : List Char), space c = true := by simp

theorem Reads.unsigned (hs : Spaces space) {f : Nat → Stream β} {w n : Nat} (hn : n < 2 ^ w) {c : Char}
    (hc : c.isDigit = false) (hf : Reads (f n) (c :: t) y) :
    Reads (TextStream.unsigned space w >>= f) (decimal n ++ c :: t) y := by
  intro rest
  have hrun : TextStream.unsigned space w (decimal n ++ (c :: t ++ rest)) = .ok (n, c :: t ++ rest) :=
    unsigned_run hs no_space hn (ends_cons hc _)
  rw [StateT.run_bind, List.append_assoc, show (TextStream.unsigned space w).run _ = _ from hrun]
  exact hf rest

/-- A number after one space. -/
theorem Reads.unsigned_space (hs : Spaces space) {f : Nat → Stream β} {s : Char} (hsp : space s = true) {w n : Nat}
    (hn : n < 2 ^ w) {c : Char} (hc : c.isDigit = false) (hf : Reads (f n) (c :: t) y) :
    Reads (TextStream.unsigned space w >>= f) (s :: (decimal n ++ c :: t)) y := by
  intro rest
  have hrun : TextStream.unsigned space w ([s] ++ (decimal n ++ (c :: t ++ rest))) = .ok (n, c :: t ++ rest) :=
    unsigned_run hs (by simpa using hsp) hn (ends_cons hc _)
  have htext : s :: (decimal n ++ c :: t) ++ rest = [s] ++ (decimal n ++ (c :: t ++ rest)) := by simp
  rw [StateT.run_bind, htext, show (TextStream.unsigned space w).run _ = _ from hrun]
  exact hf rest

theorem Reads.signed (hs : Spaces space) {f : Int → Stream β} {w : Nat} {i : Int} (hlo : -2 ^ (w - 1) ≤ i)
    (hhi : i < 2 ^ (w - 1)) {c : Char} (hc : c.isDigit = false) (hf : Reads (f i) (c :: t) y) :
    Reads (TextStream.signed space w >>= f) (integer i ++ c :: t) y := by
  intro rest
  have hrun : TextStream.signed space w (integer i ++ (c :: t ++ rest)) = .ok (i, c :: t ++ rest) :=
    signed_run hs no_space hlo hhi (ends_cons hc _)
  rw [StateT.run_bind, List.append_assoc, show (TextStream.signed space w).run _ = _ from hrun]
  exact hf rest

theorem Reads.signed_space (hs : Spaces space) {f : Int → Stream β} {s : Char} (hsp : space s = true) {w : Nat} {i : Int}
    (hlo : -2 ^ (w - 1) ≤ i) (hhi : i < 2 ^ (w - 1)) {c : Char} (hc : c.isDigit = false) (hf : Reads (f i) (c :: t) y) :
    Reads (TextStream.signed space w >>= f) (s :: (integer i ++ c :: t)) y := by
  intro rest
  have hrun : TextStream.signed space w ([s] ++ (integer i ++ (c :: t ++ rest))) = .ok (i, c :: t ++ rest) :=
    signed_run hs (by simpa using hsp) hlo hhi (ends_cons hc _)
  have htext : s :: (integer i ++ c :: t) ++ rest = [s] ++ (integer i ++ (c :: t ++ rest)) := by simp
  rw [StateT.run_bind, htext, show (TextStream.signed space w).run _ = _ from hrun]
  exact hf rest

/-- Numbers with a space before each, to the end of the text. -/
theorem numbers_run (hs : Spaces space) {s : Char} (hsp : space s = true) {w : Nat} {ns : List Nat} (hns : ∀ n ∈ ns, n < 2 ^ w) :
    many (unsigned space w) ns.length (ns.flatMap fun n => s :: decimal n) = .ok (ns, []) := by
  have hdigit : s.isDigit = false := (hs s hsp).1
  induction ns with
  | nil => rfl
  | cons n ns ih =>
    have hrest : Ends Char.isDigit (ns.flatMap fun n => s :: decimal n) := by
      cases ns with
      | nil => exact fun c hc => by cases hc
      | cons m ns => exact ends_cons hdigit _
    have hfirst : unsigned space w ([s] ++ (decimal n ++ ns.flatMap fun n => s :: decimal n)) = .ok (n, _) :=
      unsigned_run hs (by simpa using hsp) (hns n List.mem_cons_self) hrest
    have hothers := ih fun m hm => hns m (List.mem_cons_of_mem _ hm)
    show (unsigned space w >>= fun x => many (unsigned space w) ns.length >>= fun xs => pure (x :: xs)).run _ = _
    have htext : (n :: ns).flatMap (fun n => s :: decimal n) = [s] ++ (decimal n ++ ns.flatMap fun n => s :: decimal n) := by simp
    rw [StateT.run_bind, htext, show (unsigned space w).run _ = _ from hfirst]
    show (many (unsigned space w) ns.length >>= fun xs => pure (n :: xs)).run _ = _
    rw [StateT.run_bind, show (many (unsigned space w) ns.length).run _ = _ from hothers]
    rfl

end Rules

end TextStream
