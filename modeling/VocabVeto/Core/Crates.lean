import VocabVeto.Core.Text
import VocabVeto.Library.LeftmostLongest

/-! The third-party functions the matcher calls. Their code is not part of the
repository: they are parameters here, and each property of their documentation
that a result relies on is a named hypothesis of that result. -/
namespace VocabVeto
open LeftmostLongest

structure Crates where
  /-- `unicode_normalization`'s `nfkc` over a whole character stream. -/
  nfkc : Str → Str
  /-- `caseless`'s `default_case_fold`, which maps each character on its own. -/
  defaultCaseFold : Char → Str
  /-- `unicode_segmentation`'s `split_word_bound_indices`: the UAX #29 segments
  with their start bytes. -/
  splitWordBoundIndices : Str → List (Nat × Str)
  /-- `find_iter` of an `aho_corasick` automaton built from these patterns with
  `MatchKind::LeftmostLongest`. It works on bytes. -/
  findIter : List (List UInt8) → List UInt8 → List Hit

namespace Crates
variable (crates : Crates)

/-- `std::iter::once(ch).nfkc().default_case_fold()`. -/
def fold (ch : Char) : Str := (crates.nfkc [ch]).flatMap crates.defaultCaseFold

/-- The folded form of a text, one source codepoint at a time. -/
def foldText (text : Str) : Str := text.flatMap crates.fold

/-- No codepoint normalizes and folds to nothing. -/
def FoldsNonempty : Prop := ∀ ch, crates.fold ch ≠ []

/-- A reported range really spells the pattern it names. -/
def ReportsOccurrences : Prop :=
  ∀ patterns haystack hit, hit ∈ crates.findIter patterns haystack → hit.Sound patterns haystack

/-- On nonempty patterns the hits do not overlap, and come in order. -/
def FindsDisjoint : Prop :=
  ∀ patterns haystack, (∀ pattern ∈ patterns, pattern ≠ []) →
    (crates.findIter patterns haystack).Pairwise fun first second => first.stop ≤ second.start

/-- On nonempty patterns the hits are leftmost, longest and non-overlapping. -/
def FindsLeftmostLongest : Prop :=
  ∀ patterns haystack, (∀ pattern ∈ patterns, pattern ≠ []) →
    Greedy patterns haystack 0 (crates.findIter patterns haystack)

/-- The word boundaries of a text: its two ends, and wherever a segment starts. -/
def WordBoundary (text : Str) (offset : Nat) : Prop :=
  offset = 0 ∨ offset = Str.len text ∨ offset ∈ (crates.splitWordBoundIndices text).map Prod.fst

/-- UAX #29 breaks on both sides of a line feed, unless a carriage return is
before it, so either side has the word boundaries it has on its own. -/
def BreaksAtNewline : Prop :=
  ∀ before after, before.getLast? ≠ some '\r' →
    (∀ offset ≤ Str.len before,
      crates.WordBoundary (before ++ '\n' :: after) offset ↔ crates.WordBoundary before offset) ∧
    ∀ offset, crates.WordBoundary (before ++ '\n' :: after) (offset + (Str.len before + 1)) ↔
      crates.WordBoundary after offset

@[simp] theorem foldText_nil : crates.foldText [] = [] := rfl

@[simp] theorem foldText_cons (ch : Char) (text : Str) :
    crates.foldText (ch :: text) = crates.fold ch ++ crates.foldText text := rfl

@[simp] theorem foldText_append (left right : Str) :
    crates.foldText (left ++ right) = crates.foldText left ++ crates.foldText right :=
  List.flatMap_append

end Crates

end VocabVeto
