import VocabVeto.Core.Crates

/-! `matcher/normalize.rs`: NFKC and case folding of one source codepoint at a
time, with a byte-level map back to the caller's text. -/
namespace VocabVeto

/-- `MAX_NORMALIZED_BYTES`. -/
def maxNormalizedBytes : Nat := 192 * 1024

structure Normalized where
  text : Str
  offsetMap : List Nat
  deriving DecidableEq, Repr

inductive NormalizeError where
  | tooLarge
  deriving DecidableEq, Repr

/-- `byte_offset as u32`. -/
def asU32 (n : Nat) : Nat := n % 2 ^ 32

/-- The inner loop: push each folded character, one map entry for every byte
it added, and check the cap after it. -/
def pushFolded (start : Nat) : List Char → Normalized → Except NormalizeError Normalized
  | [], acc => .ok acc
  | nch :: folded, acc =>
    let next : Normalized :=
      ⟨acc.text ++ [nch], acc.offsetMap ++ List.replicate nch.utf8Size start⟩
    if Str.len next.text > maxNormalizedBytes then .error .tooLarge
    else pushFolded start folded next

/-- The outer loop over the remaining `(byte_offset, ch)` pairs. -/
def normalizeLoop (crates : Crates) : List (Nat × Char) → Normalized → Except NormalizeError Normalized
  | [], acc => .ok acc
  | (byteOffset, ch) :: rest, acc =>
    match pushFolded (asU32 byteOffset) (crates.fold ch) acc with
    | .error e => .error e
    | .ok next => normalizeLoop crates rest next

/-- `normalize`. -/
def normalize (crates : Crates) (input : Str) : Except NormalizeError Normalized :=
  normalizeLoop crates (Str.charIndices input) ⟨[], []⟩

end VocabVeto
