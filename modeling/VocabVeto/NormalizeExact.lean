import VocabVeto.AsciiCrates
import VocabVeto.NormalizeProofs

/-! Normalization as a decomposition of the input: one block of the result for
each source codepoint, a map that finds it again, and a size error that is
exact. What the loops have built when they give up is at most one character
over the cap. -/
namespace VocabVeto.NormalizeExact
open Expansion NormalizeProofs

/-- The result is the folded input, and its map sends the bytes of each block,
and no others, to the start of the codepoint that was folded to it. -/
structure ExactMap (crates : Crates) (input : Str) (norm : Normalized) : Prop where
  text : norm.text = crates.foldText input
  length : norm.offsetMap.length = Str.len norm.text
  sorted : norm.offsetMap.Pairwise (· ≤ ·)
  owned : ∀ i < norm.offsetMap.length, ∃ before ch after, input = before ++ ch :: after ∧
    norm.offsetMap[i]? = some (Str.len before)
  block : ∀ before ch after, input = before ++ ch :: after → ∀ i,
    norm.offsetMap[i]? = some (Str.len before) ↔
      Str.len (crates.foldText before) ≤ i ∧
        i < Str.len (crates.foldText before) + Str.len (crates.fold ch)

/-! ### The loops with their unfinished result -/

/-- `pushFolded`, returning what it has built also when it stops. -/
def pushFoldedKept (start : Nat) : List Char → Normalized → Except Normalized Normalized
  | [], acc => .ok acc
  | nch :: folded, acc =>
    let next : Normalized := ⟨acc.text ++ [nch], acc.offsetMap ++ List.replicate nch.utf8Size start⟩
    if Str.len next.text > maxNormalizedBytes then .error next else pushFoldedKept start folded next

/-- `normalizeLoop`, likewise. -/
def normalizeLoopKept (crates : Crates) : List (Nat × Char) → Normalized → Except Normalized Normalized
  | [], acc => .ok acc
  | (byteOffset, ch) :: rest, acc =>
    match pushFoldedKept (asU32 byteOffset) (crates.fold ch) acc with
    | .error built => .error built
    | .ok next => normalizeLoopKept crates rest next

/-- `normalize`, likewise. -/
def normalizeKept (crates : Crates) (input : Str) : Except Normalized Normalized :=
  normalizeLoopKept crates (Str.charIndices input) ⟨[], []⟩

private theorem pushFolded_kept (start : Nat) (folded : List Char) (acc : Normalized) :
    pushFolded start folded acc = (pushFoldedKept start folded acc).mapError fun _ => .tooLarge := by
  induction folded generalizing acc with
  | nil => rfl
  | cons nch folded ih =>
    simp only [pushFolded, pushFoldedKept]
    split
    · rfl
    · exact ih _

private theorem normalizeLoop_kept (crates : Crates) (rest : List (Nat × Char)) (acc : Normalized) :
    normalizeLoop crates rest acc = (normalizeLoopKept crates rest acc).mapError fun _ => .tooLarge := by
  induction rest generalizing acc with
  | nil => rfl
  | cons entry rest ih =>
    simp only [normalizeLoop, normalizeLoopKept, pushFolded_kept]
    cases pushFoldedKept (asU32 entry.1) (crates.fold entry.2) acc with
    | error built => rfl
    | ok next => exact ih next

/-- Forgetting what was built gives `normalize` back. -/
theorem normalize_kept (crates : Crates) (input : Str) :
    normalize crates input = (normalizeKept crates input).mapError fun _ => .tooLarge :=
  normalizeLoop_kept crates _ _

/-- A text on which the loops stop: over the cap, by one character at most. -/
structure JustOver (text : Str) : Prop where
  large : maxNormalizedBytes < Str.len text
  close : Str.len text ≤ maxNormalizedBytes + 4

private theorem pushFoldedKept_ok (folded : List Char) (acc : Normalized)
    (fits : Str.len acc.text ≤ maxNormalizedBytes) (ran : pushFoldedKept start folded acc = .ok next) :
    next.text = acc.text ++ folded ∧ Str.len next.text ≤ maxNormalizedBytes := by
  induction folded generalizing acc with
  | nil =>
    obtain rfl := Except.ok.inj ran
    exact ⟨(List.append_nil _).symm, fits⟩
  | cons nch folded ih =>
    simp only [pushFoldedKept] at ran
    split at ran
    · cases ran
    · rename_i within
      obtain ⟨spelled, bounded⟩ := ih _ (Nat.le_of_not_gt within) ran
      exact ⟨by rw [spelled, List.append_assoc]; rfl, bounded⟩

private theorem pushFoldedKept_stopped (folded : List Char) (acc : Normalized)
    (fits : Str.len acc.text ≤ maxNormalizedBytes) (ran : pushFoldedKept start folded acc = .error built) :
    built.text <+: acc.text ++ folded ∧ JustOver built.text := by
  induction folded generalizing acc with
  | nil => cases ran
  | cons nch folded ih =>
    simp only [pushFoldedKept] at ran
    split at ran
    · rename_i large
      obtain rfl := Except.error.inj ran
      refine ⟨⟨folded, by simp⟩, large, ?_⟩
      have narrow := nch.utf8Size_le_four
      simp only [Str.len_append, Str.len_cons, Str.len_nil]
      omega
    · rename_i within
      obtain ⟨leads, stopped⟩ := ih _ (Nat.le_of_not_gt within) ran
      exact ⟨by simpa using leads, stopped⟩

private theorem normalizeLoopKept_stopped (crates : Crates) (input : Str) (offset : Nat) (acc : Normalized)
    (fits : Str.len acc.text ≤ maxNormalizedBytes)
    (ran : normalizeLoopKept crates (Str.charIndicesFrom offset input) acc = .error built) :
    built.text <+: acc.text ++ crates.foldText input ∧ JustOver built.text := by
  induction input generalizing offset acc with
  | nil => cases ran
  | cons ch input ih =>
    rw [Str.charIndicesFrom, normalizeLoopKept] at ran
    cases pushed : pushFoldedKept (asU32 offset) (crates.fold ch) acc with
    | error unfinished =>
      rw [pushed] at ran
      obtain rfl := Except.error.inj ran
      obtain ⟨⟨rest, spelled⟩, stopped⟩ := pushFoldedKept_stopped _ _ fits pushed
      refine ⟨⟨rest ++ crates.foldText input, ?_⟩, stopped⟩
      rw [← List.append_assoc, spelled, Crates.foldText_cons, List.append_assoc]
    | ok next =>
      rw [pushed] at ran
      obtain ⟨spelled, bounded⟩ := pushFoldedKept_ok _ _ fits pushed
      obtain ⟨leads, stopped⟩ := ih _ _ bounded ran
      refine ⟨?_, stopped⟩
      rwa [spelled, List.append_assoc] at leads

/-! ### Exactness -/

/-- The map of source starts has its blocks in order, each owned by one codepoint. -/
theorem exactMap_sourceStarts (crates : Crates) (input : Str) :
    ExactMap crates input ⟨crates.foldText input, sourceStarts crates input⟩ where
  text := rfl
  length := length_sourceStarts crates input
  sorted := origins_sorted 0 input
  owned := by
    intro i bound
    rw [length_sourceStarts] at bound
    obtain ⟨before, ch, after, split, within⟩ := owner_exists bound
    exact ⟨before, ch, after, split, sourceStarts_getElem split within⟩
  block := by
    intro before ch after split i
    have run : (sourceStarts crates input)[i]? = some (0 + Str.len before) ↔
        Within (contribution crates) before ch i := origins_block Char.utf8Size_pos split
    rw [Nat.zero_add] at run
    rw [run, Within, length_flatMap_contribution, length_contribution]

theorem len_foldText (crates : Crates) (input : Str) :
    Str.len (crates.foldText input) = (input.map fun ch => Str.len (crates.fold ch)).sum := by
  induction input with
  | nil => rfl
  | cons ch input ih => simp [ih]

/-- `normalize` fails exactly on inputs whose folded codepoints exceed the cap in
total, having built at most four bytes more than it; and otherwise it returns
the folded codepoints in order with the exact map. -/
theorem normalize_exact {crates : Crates} (folds : crates.FoldsNonempty) (input : Str) :
    (normalize crates input = .error .tooLarge ↔
        maxNormalizedBytes < (input.map fun ch => Str.len (crates.fold ch)).sum) ∧
      (∀ result, normalize crates input = .ok result → ExactMap crates input result) ∧
      (normalize crates input = (normalizeKept crates input).mapError fun _ => .tooLarge) ∧
      ∀ built, normalizeKept crates input = .error built →
        built.text <+: crates.foldText input ∧ JustOver built.text := by
  refine ⟨?_, ?_, normalize_kept crates input, ?_⟩
  · rw [normalize_eq, ← len_foldText]
    split
    · rename_i fits
      exact ⟨nofun, fun large => absurd fits (Nat.not_le_of_lt large)⟩
    · rename_i large
      exact ⟨fun _ => Nat.lt_of_not_le large, fun _ => rfl⟩
  · intro result accepted
    obtain ⟨_, rfl⟩ := (normalize_ok_iff folds).mp accepted
    exact exactMap_sourceStarts crates input
  · intro built stopped
    exact normalizeLoopKept_stopped crates input 0 ⟨[], []⟩ (Nat.zero_le _) stopped

theorem normalize_exact_ligature :
    ExactMap AsciiCrates.crates "xﬁb".toList ⟨"xfib".toList, [0, 1, 1, 4]⟩ :=
  (normalize_exact AsciiCrates.foldsNonempty "xﬁb".toList).2.1 _ (by decide +kernel)

end VocabVeto.NormalizeExact
