import VocabVeto.AsciiCrates
import VocabVeto.SpanProofs

/-! What a scan returns is right: it never panics, every span is the exact
source range of a term found in it, and the list is a prefix of the reference,
cut off at the cap and nowhere else. -/
namespace VocabVeto.ScanSoundness
open Expansion LeftmostLongest NormalizeProofs ScanReference SpanProofs

/-- The source codepoint starting at this byte contributes a byte to the hit. -/
def StartsTouched (crates : Crates) (text : Str) (hit : Hit) (offset : Nat) : Prop :=
  ∃ before ch after, text = before ++ ch :: after ∧
    Touched (contribution crates) hit.start hit.stop before ch ∧ offset = Str.len before

/-- The source codepoint ending at this byte contributes a byte to the hit. -/
def EndsTouched (crates : Crates) (text : Str) (hit : Hit) (offset : Nat) : Prop :=
  ∃ before ch after, text = before ++ ch :: after ∧
    Touched (contribution crates) hit.start hit.stop before ch ∧ offset = Str.len before + ch.utf8Size

/-- A reported match is a nonempty slice of the text at character boundaries
that folds to a text containing the term, and runs exactly from the first to the
last codepoint behind one hit of that term. -/
structure SpanSound (crates : Crates) (engine : Engine) (text : Str) (m : Match) : Prop where
  nonempty : m.start < m.stop
  bounded : m.stop ≤ Str.len text
  startBoundary : Str.IsCharBoundary text m.start
  stopBoundary : Str.IsCharBoundary text m.stop
  sliced : Str.slice text m.start m.stop = .ok m.matchedText
  spelled : ∃ norm, normalize crates m.matchedText = .ok norm ∧ m.term <:+: norm.text
  exact : ∃ patterns hit, engine.terms m.lang = some patterns ∧ hit ∈ hitsOf crates text patterns ∧
    patterns[hit.pattern]? = some m.term ∧
    OccursAt (Utf8.bytes m.term) (Utf8.bytes (crates.foldText text)) hit.start ∧
    hit.stop = hit.start + Str.len m.term ∧
    IsLeast {offset | StartsTouched crates text hit offset} m.start ∧
    IsGreatest {offset | EndsTouched crates text hit offset} m.stop

section
variable {crates : Crates} {text : Str} {patterns : List Str} {hit : Hit} {term before middle after : Str}

theorem widened_nonempty {text : Str}
    (range : Widened Char.utf8Size (contribution crates) text start stop low high) : low < high := by
  obtain ⟨left, ch, right, split, touched, rfl⟩ := range.low_touched
  have inside := (range.contains split touched).2
  have positive := ch.utf8Size_pos
  omega

theorem widened_least (range : Widened Char.utf8Size (contribution crates) text hit.start hit.stop low high) :
    IsLeast {offset | StartsTouched crates text hit offset} low := by
  constructor
  · exact range.low_touched
  · rintro offset ⟨left, ch, right, split, touched, rfl⟩
    exact (range.contains split touched).1

theorem widened_greatest (range : Widened Char.utf8Size (contribution crates) text hit.start hit.stop low high) :
    IsGreatest {offset | EndsTouched crates text hit offset} high := by
  constructor
  · exact range.high_touched
  · rintro offset ⟨left, ch, right, split, touched, rfl⟩
    exact (range.contains split touched).2

/-- The folded form of a placed span contains its term. -/
theorem placed_spelled (placed : Placed crates text patterns hit term before middle after) :
    term <:+: crates.foldText middle := by
  have occurs := placed.occurs
  have high := placed.high
  rw [placed.cut, Crates.foldText_append, Crates.foldText_append, Utf8.bytes_append, Utf8.bytes_append] at occurs
  rw [placed.width] at high
  rw [← Utf8.bytes_infix_iff]
  refine occursAt_inside occurs ?_ ?_
  · rw [Utf8.length_bytes]
    exact placed.low
  · rw [Utf8.length_bytes, Utf8.length_bytes, Utf8.length_bytes]
    exact high

theorem len_foldText_middle (cut : text = before ++ (middle ++ after)) :
    Str.len (crates.foldText middle) ≤ Str.len (crates.foldText text) := by
  simp only [cut, Crates.foldText_append, Str.len_append]
  omega

end

section
variable {crates : Crates} {engine : Engine} {text : Str}

theorem spanSound_of_reported (folds : crates.FoldsNonempty)
    (fits : Str.len (crates.foldText text) ≤ maxNormalizedBytes)
    (reported : Reported crates engine text mode lang m) : SpanSound crates engine text m := by
  obtain ⟨patterns, hit, term, before, middle, after, loaded, member, placed, _, rfl⟩ := reported
  have cut := placed.cut
  refine ⟨widened_nonempty placed.range, ?_, ⟨before, middle ++ after, cut, rfl⟩,
    ⟨before ++ middle, after, by rw [cut, List.append_assoc], Str.len_append before middle⟩, ?_, ?_, ?_⟩
  · simp only [entry, cut, Str.len_append]
    omega
  · rw [cut]
    exact Str.slice_append before middle after
  · exact ⟨_, (normalize_ok_iff folds).mpr ⟨(len_foldText_middle cut).trans fits, rfl⟩,
      placed_spelled placed⟩
  · exact ⟨patterns, hit, loaded, member, placed.selected, placed.occurs, placed.width,
      widened_least placed.range, widened_greatest placed.range⟩

/-- With nonempty terms no scan panics, on any text, language list and mode, and
every match it returns is sound. -/
theorem scan_spans_sound (folds : crates.FoldsNonempty) (reports : crates.ReportsOccurrences)
    (nonempty : engine.TermsNonempty) (text : Str) (langs : List Lang) (mode : Option Mode) :
    ∃ outcome, engine.scan crates text langs mode = .ok outcome ∧
      ∀ result, outcome = .ok result → ∀ m ∈ result.found, SpanSound crates engine text m := by
  have sound := soundOn_of_reports reports engine text
  obtain ⟨outcome, ran⟩ := scan_returns folds nonempty sound langs mode
  refine ⟨outcome, ran, ?_⟩
  rintro result rfl m member
  obtain ⟨lang, _, reported⟩ := reported_of_scan folds nonempty sound ran member
  exact spanSound_of_reported folds (scan_fits ran) reported

end

theorem scan_spans_sound_darn :
    (AsciiCrates.engine "en" ["darn"]).scan AsciiCrates.crates "oh Darn".toList ["en".toList] none =
        .ok (.ok ⟨[("en".toList, .strict)], [⟨"en".toList, "darn".toList, "Darn".toList, 3, 7⟩], false⟩) ∧
      ∃ outcome, (AsciiCrates.engine "en" ["darn"]).scan AsciiCrates.crates "oh Darn".toList
          ["en".toList] none = .ok outcome ∧
        ∀ result, outcome = .ok result → ∀ m ∈ result.found,
          SpanSound AsciiCrates.crates (AsciiCrates.engine "en" ["darn"]) "oh Darn".toList m :=
  ⟨by decide +kernel, scan_spans_sound AsciiCrates.foldsNonempty AsciiCrates.reportsOccurrences
    (AsciiCrates.engine_nonempty "en" (by decide)) _ _ _⟩

/-- Whenever the reference is defined, the scan returns its first 256 entries
and flags exactly a longer one; and with nonempty terms it is defined on every
text, each language contributing a list of its own. -/
theorem scan_prefix_of_reference (crates : Crates) (engine : Engine) (text : Str) (norm : Normalized)
    (accepted : normalize crates text = .ok norm) (langs : List Lang) (mode : Option Mode) :
    (∀ reference, fullLangs crates engine text norm mode langs = .ok reference →
      ∃ result, engine.scan crates text langs mode = .ok (.ok result) ∧
        result.found = reference.take maxMatches ∧
        (result.truncated = true ↔ maxMatches < reference.length)) ∧
    (crates.FoldsNonempty → crates.ReportsOccurrences → engine.TermsNonempty →
      ∃ each : Lang → List Match, (∀ lang, full crates engine text norm mode lang = .ok (each lang)) ∧
        fullLangs crates engine text norm mode langs = .ok (langs.flatMap each)) := by
  constructor
  · intro reference defined
    obtain ⟨used, ran⟩ := scanLangs_capped crates engine text norm mode langs defined [] [] (Nat.zero_le _)
    refine ⟨⟨used, reference.take maxMatches, decide (maxMatches < reference.length)⟩, ?_, rfl,
      decide_eq_true_iff⟩
    rw [Engine.scan, accepted]
    simp only [ran, Fallible.ok_bind, List.nil_append]
    rfl
  · intro folds reports nonempty
    obtain ⟨-, rfl⟩ := (normalize_ok_iff folds).mp accepted
    choose each defined _ using full_defined nonempty (soundOn_of_reports reports engine text) mode
    exact ⟨each, defined, fullLangs_eq_flatten fun lang _ => defined lang⟩

/-- English finds both letters of a ligature, German only the second one. -/
def lettered : Engine :=
  Engine.new (AList.insert "de".toList ["i".toList] (AList.insert "en".toList ["f".toList, "i".toList] ∅))

def ligatures : Str := List.replicate 86 'ﬁ'

/-- What English and German find in the ligatures: two matches more than a report
holds. -/
def lettersFound : List Match :=
  (List.range 86).flatMap (fun i => [⟨"en".toList, "f".toList, "ﬁ".toList, 3 * i, 3 * i + 3⟩,
    ⟨"en".toList, "i".toList, "ﬁ".toList, 3 * i, 3 * i + 3⟩]) ++
  (List.range 86).map fun i => ⟨"de".toList, "i".toList, "ﬁ".toList, 3 * i, 3 * i + 3⟩

theorem scan_prefix_of_reference_ligatures :
    ∃ result, lettered.scan AsciiCrates.crates ligatures ["en".toList, "xx".toList, "de".toList] (some .substring) =
        .ok (.ok result) ∧ result.found = lettersFound.take 256 ∧ result.truncated = true := by
  have fits : Str.len (AsciiCrates.crates.foldText ligatures) ≤ maxNormalizedBytes := by decide +kernel
  have defined : fullLangs AsciiCrates.crates lettered ligatures
      ⟨AsciiCrates.crates.foldText ligatures, sourceStarts AsciiCrates.crates ligatures⟩ (some .substring)
      ["en".toList, "xx".toList, "de".toList] = .ok lettersFound := by decide +kernel
  obtain ⟨result, ran, found, cut⟩ := (scan_prefix_of_reference AsciiCrates.crates lettered ligatures _
    ((normalize_ok_iff AsciiCrates.foldsNonempty).mpr ⟨fits, rfl⟩) _ _).1 _ defined
  exact ⟨result, ran, found, cut.mpr (by decide +kernel)⟩

end VocabVeto.ScanSoundness
