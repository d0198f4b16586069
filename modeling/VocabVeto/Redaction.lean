import VocabVeto.Detection

/-! Redacting by the reported spans. Masking every codepoint inside a span leaves
no occurrence of any requested term: one that survived would lie between two
masks, stand in the original text too, and be covered by a reported span. -/
namespace VocabVeto.Redaction
open Expansion LeftmostLongest NormalizeProofs SpanProofs Detection

/-- The byte lies in some reported span. -/
def covered (found : List Match) (offset : Nat) : Bool :=
  found.any fun m => m.start ≤ offset && offset < m.stop

/-- One codepoint of the redacted text. -/
def maskEntry (mask : Char) (found : List Match) (entry : Nat × Char) : Char :=
  if covered found entry.1 then mask else entry.2

/-- Replace every codepoint lying in a reported span by the mask. -/
def redact (mask : Char) (found : List Match) (text : Str) : Str :=
  (Str.charIndices text).map (maskEntry mask found)

theorem map_charIndicesFrom (offset : Nat) (text : Str) :
    (Str.charIndicesFrom offset text).map Prod.snd = text := by
  induction text generalizing offset with
  | nil => rfl
  | cons c text ih => simp [Str.charIndicesFrom, ih]

theorem length_charIndicesFrom (offset : Nat) (text : Str) :
    (Str.charIndicesFrom offset text).length = text.length := by
  rw [← List.length_map Prod.snd, map_charIndicesFrom]

/-- The entries of a middle stretch are indexed from where it begins. -/
theorem charIndices_middle {indexFront indexMiddle indexBack : List (Nat × Char)}
    (splits : Str.charIndices text = indexFront ++ (indexMiddle ++ indexBack)) :
    indexMiddle = Str.charIndicesFrom (Str.len (indexFront.map Prod.snd)) (indexMiddle.map Prod.snd) := by
  have spelled : text = indexFront.map Prod.snd ++ (indexMiddle.map Prod.snd ++ indexBack.map Prod.snd) := by
    rw [← List.map_append, ← List.map_append, ← splits]
    exact (map_charIndicesFrom 0 text).symm
  rw [spelled, Str.charIndices, Str.charIndicesFrom_append, Str.charIndicesFrom_append, Nat.zero_add] at splits
  have rest := (List.append_inj splits (by rw [length_charIndicesFrom, List.length_map])).2
  exact (List.append_inj rest (by rw [length_charIndicesFrom, List.length_map])).1.symm

/-- A stretch of redacted text without a mask stands unchanged in the original,
outside every span. -/
theorem redact_cut (cut : redact mask found text = before ++ (middle ++ after)) (clean : mask ∉ middle) :
    ∃ front back, text = front ++ (middle ++ back) ∧ ∀ left ch right, middle = left ++ ch :: right →
      covered found (Str.len front + Str.len left) = false := by
  obtain ⟨indexFront, rest, splits, _, mapped⟩ := List.map_eq_append_iff.mp cut
  obtain ⟨indexMiddle, indexBack, rfl, middleMapped, _⟩ := List.map_eq_append_iff.mp mapped
  have untouched : ∀ entry ∈ indexMiddle, covered found entry.1 = false := by
    intro entry member
    have kept : maskEntry mask found entry ∈ middle := middleMapped ▸ List.mem_map_of_mem member
    by_contra inside
    rw [maskEntry, if_pos (Bool.eq_true_of_not_eq_false inside)] at kept
    exact clean kept
  have same : indexMiddle.map Prod.snd = middle := by
    rw [← middleMapped]
    exact List.map_congr_left fun entry member => by simp [maskEntry, untouched entry member]
  have indexed := charIndices_middle splits
  rw [same] at indexed
  refine ⟨indexFront.map Prod.snd, indexBack.map Prod.snd, ?_, ?_⟩
  · rw [← map_charIndicesFrom 0 text, ← same, ← List.map_append, ← List.map_append]
    exact congrArg _ splits
  · rintro left ch right rfl
    refine untouched (_, ch) ?_
    rw [indexed, Str.charIndicesFrom_append]
    exact List.mem_append_right _ List.mem_cons_self

section
variable {crates : Crates} {engine : Engine} {text : Str}

/-- Every term occurrence of the original text has a codepoint inside a span an
untruncated substring scan reports. -/
theorem occurrence_covered (folds : crates.FoldsNonempty) (leftmost : crates.FindsLeftmostLongest)
    (nonempty : engine.TermsNonempty)
    (ran : engine.scan crates text langs (some .substring) = .ok (.ok result))
    (whole : result.truncated = false) (requested : lang ∈ langs)
    (loaded : engine.terms lang = some patterns) (member : term ∈ patterns)
    (cut : text = front ++ (middle ++ back)) (spelled : term <:+: crates.foldText middle) :
    ∃ left ch right, middle = left ++ ch :: right ∧
      covered result.found (Str.len front + Str.len left) = true := by
  obtain ⟨left, ch, right, i, split, occurs, within⟩ :=
    occurrence_in_middle (nonempty lang patterns loaded term member) front back spelled
  rw [← cut] at occurs
  obtain ⟨hit, among, _, _, _, own, before, inner, after, placed, low, high⟩ :=
    covering_hit leftmost nonempty loaded member occurs
      (show text = (front ++ left) ++ ch :: (right ++ back) by simp [cut, split]) within
  have reported : Reported crates engine text (some .substring) lang (entry lang own before inner) :=
    ⟨patterns, hit, own, before, inner, after, loaded, among, placed, nofun, rfl⟩
  have listed := scan_complete folds nonempty (soundOn_of_leftmost leftmost nonempty _) ran whole
    requested reported
  have positive := ch.utf8Size_pos
  rw [Str.len_append] at low high
  refine ⟨left, ch, right, split, List.any_eq_true.mpr ⟨_, listed, Bool.and_eq_true_iff.mpr ⟨?_, ?_⟩⟩⟩
  · exact decide_eq_true low
  · exact decide_eq_true (show Str.len front + Str.len left < Str.len before + Str.len inner by omega)

/-- Redacting never lengthens the folded text. -/
theorem len_redact_le (folds : crates.FoldsNonempty) (ascii : mask.utf8Size = 1)
    (fixed : crates.fold mask = [mask]) (found : List Match) (text : Str) :
    Str.len (crates.foldText (redact mask found text)) ≤ Str.len (crates.foldText text) := by
  have each : ∀ index : List (Nat × Char), Str.len (crates.foldText (index.map (maskEntry mask found))) ≤
      Str.len (crates.foldText (index.map Prod.snd)) := by
    intro index
    induction index with
    | nil => simp
    | cons entry index ih =>
      have shorter : Str.len (crates.fold (maskEntry mask found entry)) ≤ Str.len (crates.fold entry.2) := by
        unfold maskEntry
        split
        · rw [fixed, Str.len_cons, Str.len_nil, ascii]
          exact Str.len_pos (folds entry.2)
        · exact Nat.le_refl _
      simp only [List.map_cons, Crates.foldText_cons, Str.len_append]
      omega
  have bound := each (Str.charIndices text)
  rwa [show (Str.charIndices text).map Prod.snd = text from map_charIndicesFrom 0 text] at bound

/-- After redaction no term of any requested language occurs any more. -/
theorem redaction_complete (folds : crates.FoldsNonempty) (leftmost : crates.FindsLeftmostLongest)
    (nonempty : engine.TermsNonempty)
    (ran : engine.scan crates text langs (some .substring) = .ok (.ok result))
    (whole : result.truncated = false) (ascii : mask.utf8Size = 1) (fixed : crates.fold mask = [mask])
    (absent : ∀ lang patterns, engine.terms lang = some patterns → ∀ term ∈ patterns, mask ∉ term) :
    ∃ norm, normalize crates (redact mask result.found text) = .ok norm ∧
      ∀ lang ∈ langs, ∀ patterns, engine.terms lang = some patterns → ∀ term ∈ patterns,
        ¬ term <:+: norm.text := by
  have fits := (len_redact_le folds ascii fixed result.found text).trans (scan_fits ran)
  refine ⟨_, (normalize_ok_iff folds).mpr ⟨fits, rfl⟩, ?_⟩
  intro lang requested patterns loaded term member spelled
  obtain ⟨before, middle, after, cut, clean, within⟩ :=
    infix_flatMap_avoids fixed (absent lang patterns loaded term member) _ spelled
  obtain ⟨front, back, original, outside⟩ := redact_cut cut clean
  obtain ⟨left, ch, right, split, inside⟩ :=
    occurrence_covered folds leftmost nonempty ran whole requested loaded member original within
  rw [outside left ch right split] at inside
  cases inside

end

/-- Overlapping terms of a ligature, redacted. -/
theorem redaction_complete_ligature :
    redact '*' [⟨"en".toList, "fir".toList, "ﬁr".toList, 2, 6⟩] "a ﬁre".toList = "a **e".toList ∧
    ∃ norm, normalize AsciiCrates.crates (redact '*' [⟨"en".toList, "fir".toList, "ﬁr".toList, 2, 6⟩]
        "a ﬁre".toList) = .ok norm ∧
      ∀ lang ∈ ["en".toList], ∀ patterns,
        (AsciiCrates.engine "en" ["fir", "ire"]).terms lang = some patterns →
          ∀ term ∈ patterns, ¬ term <:+: norm.text := by
  have ran : (AsciiCrates.engine "en" ["fir", "ire"]).scan AsciiCrates.crates "a ﬁre".toList ["en".toList]
      (some .substring) = .ok (.ok ⟨[("en".toList, .substring)],
        [⟨"en".toList, "fir".toList, "ﬁr".toList, 2, 6⟩], false⟩) := by decide +kernel
  exact ⟨by decide +kernel, redaction_complete AsciiCrates.foldsNonempty AsciiCrates.findsLeftmostLongest
    (AsciiCrates.engine_nonempty "en" (by decide)) ran rfl (by decide) (by decide)
    (AsciiCrates.engine_terms "en" (by decide))⟩

end VocabVeto.Redaction
