/-
  Uaii.Tokenizers.SimpleTokenizer — `SimpleTokenizer`
  (`libs/uaii-tokenizers/src/simple_tokenizer.cpp`) and the three tokenizers behind
  `ITokenizer` (`include/uaii/interfaces/tokenizer.hpp`).

  `encode` and `decode` fail on null outputs alone, so they are total here. What `encode`
  writes is a beginning and an end that do not depend on the text, and its `content`.
-/

import Uaii.Tokenizers.ChatTemplate
import Uaii.Tokenizers.Spm

namespace Uaii.Tokenizers

structure SimpleTokenizer where
  tokenToId : List (Bytes × Int)
  idToToken : List Bytes
  unkId : Int
  bosId : Int
  eosId : Int

namespace SimpleTokenizer

def idOf (T : SimpleTokenizer) (token : Bytes) : Option Int := (T.tokenToId.find? (·.1 == token)).map (·.2)

/-- `load_from_token_list`; a token that comes twice has its last place. -/
def loadFromTokenList (tokens : List Bytes) : Result SimpleTokenizer :=
  if tokens = [] then fail .invalidArgument "empty token list"
  else
    let tokenToId := (tokens.zipIdx.map fun e => (e.1, (e.2 : Int))).reverse
    let idOf := fun s : String => (tokenToId.find? (·.1 == rawBytes s)).map (·.2)
    let unkId := (idOf "<unk>").getD 0
    .ok ⟨tokenToId, tokens, unkId, (idOf "<bos>").getD unkId, (idOf "<eos>").getD unkId⟩

/-- `std::isspace` in the C locale. -/
def isSpace (c : UInt8) : Bool := c == 0x20 || (0x09 ≤ c && c ≤ 0x0D)

/-- The loop of `encode`, with `token` the word that is being read. -/
def words : Bytes → Bytes → List Bytes
  | token, [] => if token = [] then [] else [token]
  | token, c :: text =>
    if isSpace c then (if token = [] then [] else [token]) ++ words [] text else words (token ++ lowerAscii [c]) text

def content (T : SimpleTokenizer) (text : Bytes) : List Int := (words [] text).map fun token => (T.idOf token).getD T.unkId

def encode (T : SimpleTokenizer) (text : Bytes) : List Int := T.bosId :: T.content text ++ [T.eosId]

/-- A token that `decode` writes. -/
def shown (T : SimpleTokenizer) (id : Int) : Bool := id ≠ T.bosId ∧ id ≠ T.eosId

def piece (T : SimpleTokenizer) (id : Int) : Bytes := if 0 ≤ id then T.idToToken.getD id.toNat (rawBytes "<unk>") else rawBytes "<unk>"

def decode (T : SimpleTokenizer) (tokens : List Int) : Bytes := [0x20].intercalate ((tokens.filter T.shown).map T.piece)

end SimpleTokenizer

inductive ITokenizer where
  | simple (T : SimpleTokenizer)
  | bpe (T : BpeTokenizer)
  | spm (T : SpmTokenizer)

namespace ITokenizer

def encode : ITokenizer → Bytes → List Int
  | .simple T => T.encode
  | .bpe T => T.encode
  | .spm T => T.encode

def decode : ITokenizer → List Int → Bytes
  | .simple T => T.decode
  | .bpe T => T.decode
  | .spm T => T.decode

/-- The encoding without the tokens that begin and end every text. -/
def content : ITokenizer → Bytes → List Int
  | .simple T => T.content
  | .bpe T => fun text => (T.encode text).drop T.bosIds.length
  | .spm T => fun text => (T.cut text).map (·.2)

/-- What every text begins with. -/
def opening : ITokenizer → List Int
  | .simple T => [T.bosId]
  | .bpe T => T.bosIds
  | .spm T => if T.addBos && 0 ≤ T.bosId then [T.bosId] else []

def closing : ITokenizer → List Int
  | .simple T => [T.eosId]
  | .bpe _ => []
  | .spm T => if T.addEos && 0 ≤ T.eosId then [T.eosId] else []

theorem encode_eq (tok : ITokenizer) (text : Bytes) : tok.encode text = tok.opening ++ tok.content text ++ tok.closing := by
  cases tok with
  | simple T => rfl
  | spm T => rfl
  | bpe T =>
    obtain ⟨rest, hrest⟩ : ∃ rest, T.encode text = T.bosIds ++ rest := ⟨_, rfl⟩
    simp only [encode, opening, content, closing, hrest, List.drop_left, List.append_nil]

end ITokenizer

end Uaii.Tokenizers
