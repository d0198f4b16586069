import VocabVeto.Core.Normalize
import VocabVeto.Library.Expansion

/-! What the normalization loops compute: the folded text, and for every one of
its bytes the start of the source codepoint that produced it. The narrowing of
offsets to 32 bits loses nothing, because the size cap stops the loop long
before a source offset could exceed them. -/
namespace VocabVeto.NormalizeProofs
open Expansion

/-- The normalized bytes contributed by one source codepoint. -/
def contribution (crates : Crates) (ch : Char) : List UInt8 := Utf8.bytes (crates.fold ch)

/-- The exact map: the source start byte behind every normalized byte. -/
def sourceStarts (crates : Crates) (input : Str) : List Nat :=
  origins Char.utf8Size (contribution crates) 0 input

theorem bytes_foldText (crates : Crates) (input : Str) :
    Utf8.bytes (crates.foldText input) = input.flatMap (contribution crates) := by
  induction input with
  | nil => rfl
  | cons ch input ih => simp [ih, contribution]

@[simp] theorem length_contribution (crates : Crates) (ch : Char) :
    (contribution crates ch).length = Str.len (crates.fold ch) := Utf8.length_bytes _

theorem length_flatMap_contribution (crates : Crates) (input : Str) :
    (input.flatMap (contribution crates)).length = Str.len (crates.foldText input) := by
  rw [← bytes_foldText]
  exact Utf8.length_bytes _

/-- The inner loop appends the whole expansion, unless that exceeds the cap. -/
theorem pushFolded_eq (start : Nat) (folded : List Char) (acc : Normalized)
    (fits : Str.len acc.text ≤ maxNormalizedBytes) :
    pushFolded start folded acc =
      if Str.len acc.text + Str.len folded ≤ maxNormalizedBytes then
        .ok ⟨acc.text ++ folded, acc.offsetMap ++ List.replicate (Str.len folded) start⟩
      else .error .tooLarge := by
  induction folded generalizing acc with
  | nil => simp [pushFolded, fits]
  | cons nch folded ih =>
    simp only [pushFolded, Str.len_append, Str.len_cons, Str.len_nil, Nat.add_zero]
    by_cases within : Str.len acc.text + nch.utf8Size ≤ maxNormalizedBytes
    · rw [if_neg (by omega), ih _ (by simpa using within)]
      simp [Nat.add_assoc, List.replicate_append_replicate]
    · rw [if_pos (by omega), if_neg (by omega)]

/-- The outer loop computes the folded text and its map, unless the total
exceeds the cap. -/
theorem normalizeLoop_eq (crates : Crates) (input : Str) (offset : Nat) (acc : Normalized)
    (fits : Str.len acc.text ≤ maxNormalizedBytes) :
    normalizeLoop crates (Str.charIndicesFrom offset input) acc =
      if Str.len acc.text + Str.len (crates.foldText input) ≤ maxNormalizedBytes then
        .ok ⟨acc.text ++ crates.foldText input, acc.offsetMap ++
          (origins Char.utf8Size (contribution crates) offset input).map asU32⟩
      else .error .tooLarge := by
  induction input generalizing offset acc with
  | nil => simp [Str.charIndicesFrom, normalizeLoop, origins, fits]
  | cons ch input ih =>
    simp only [Str.charIndicesFrom, normalizeLoop, pushFolded_eq _ _ _ fits, Crates.foldText_cons,
      Str.len_append]
    by_cases within : Str.len acc.text + Str.len (crates.fold ch) ≤ maxNormalizedBytes
    · rw [if_pos within]
      dsimp only
      rw [ih _ _ (by simpa using within)]
      simp [origins, Nat.add_assoc]
    · rw [if_neg within, if_neg (by omega)]

/-- `normalize` in one equation: the size error is exact, and the result is the
folded text with the narrowed source starts. -/
theorem normalize_eq (crates : Crates) (input : Str) :
    normalize crates input =
      if Str.len (crates.foldText input) ≤ maxNormalizedBytes then
        .ok ⟨crates.foldText input, (sourceStarts crates input).map asU32⟩
      else .error .tooLarge := by
  simpa [normalize, Str.charIndices, sourceStarts] using
    normalizeLoop_eq crates input 0 ⟨[], []⟩ (Nat.zero_le _)

/-- Each source codepoint leaves at least one byte in the folded text. -/
theorem length_le_foldText {crates : Crates} (folds : crates.FoldsNonempty) (input : Str) :
    input.length ≤ Str.len (crates.foldText input) := by
  induction input with
  | nil => simp
  | cons ch input ih =>
    have positive := Str.len_pos (folds ch)
    simp only [List.length_cons, Crates.foldText_cons, Str.len_append]
    omega

/-- The map sends a normalized byte to the start of the source codepoint whose
expansion contains it. -/
theorem sourceStarts_getElem {crates : Crates} {input : Str} (split : input = before ++ ch :: after)
    (within : Within (contribution crates) before ch position) :
    (sourceStarts crates input)[position]? = some (Str.len before) := by
  have located : (sourceStarts crates input)[position]? = some (0 + Str.len before) :=
    origins_getElem split within
  rwa [Nat.zero_add] at located

theorem length_sourceStarts (crates : Crates) (input : Str) :
    (sourceStarts crates input).length = Str.len (crates.foldText input) := by
  rw [sourceStarts, length_origins, length_flatMap_contribution]

/-- Every normalized byte belongs to a source codepoint. -/
theorem owner_exists {crates : Crates} {input : Str}
    (bound : position < Str.len (crates.foldText input)) :
    ∃ before ch after, input = before ++ ch :: after ∧
      Within (contribution crates) before ch position :=
  within_exists (by rwa [length_flatMap_contribution])

/-- Every nonempty range inside the folded text has a source range. -/
theorem range_exists {crates : Crates} {input : Str} (ordered : start < stop)
    (bound : stop ≤ Str.len (crates.foldText input)) :
    ∃ low high, Widened Char.utf8Size (contribution crates) input start stop low high :=
  widened_exists ordered (by rwa [length_flatMap_contribution])

/-- Under the cap, every source offset the map records fits in 32 bits: the
codepoints before it left a byte each, and are at most four bytes wide. -/
theorem sourceStarts_narrow {crates : Crates} (folds : crates.FoldsNonempty) {input : Str}
    (fits : Str.len (crates.foldText input) ≤ maxNormalizedBytes) :
    (sourceStarts crates input).map asU32 = sourceStarts crates input := by
  refine (List.map_congr_left fun offset member => ?_).trans (List.map_id _)
  obtain ⟨position, recorded⟩ := List.mem_iff_getElem?.mp member
  have bound := (List.getElem?_eq_some_iff.mp recorded).1
  rw [length_sourceStarts] at bound
  obtain ⟨before, ch, after, split, within⟩ := owner_exists bound
  rw [sourceStarts_getElem split within, Option.some.injEq] at recorded
  have shorter : before.length ≤ input.length := by simp [split]
  have counted := length_le_foldText folds input
  have width : Str.len before ≤ 4 * before.length := Utf8.size_le_four_mul before
  have cap : maxNormalizedBytes = 196608 := rfl
  exact Nat.mod_eq_of_lt (by omega)

/-- What a successful normalization is: the folded text, small enough, with the
exact source start of every byte. -/
theorem normalize_ok_iff {crates : Crates} (folds : crates.FoldsNonempty) {input : Str}
    {norm : Normalized} : normalize crates input = .ok norm ↔
      Str.len (crates.foldText input) ≤ maxNormalizedBytes ∧
        norm = ⟨crates.foldText input, sourceStarts crates input⟩ := by
  rw [normalize_eq]
  by_cases fits : Str.len (crates.foldText input) ≤ maxNormalizedBytes
  · rw [if_pos fits, sourceStarts_narrow folds fits]
    simp [fits, eq_comm]
  · simp [fits]

end VocabVeto.NormalizeProofs
