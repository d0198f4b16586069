import VocabVeto.AsciiCrates
import VocabVeto.SpanProofs

/-! The two modes. Strict mode looks at the hits that substring mode looks at and
keeps those whose spans lie between word boundaries, so where substring mode
reports everything, any other choice of modes reports a part of that, in order. -/
namespace VocabVeto.ModeFilter
open LeftmostLongest NormalizeProofs ScanReference SpanProofs

section
variable {crates : Crates} {engine : Engine} {text : Str}

/-- The match stays when its language is scanned in the mode that is asked for. -/
def keeps (crates : Crates) (text : Str) (mode : Option Mode) (m : Match) : Bool :=
  decide (Accepts crates (effectiveMode mode m.lang) text m.start m.stop)

/-- The hits of one language, in any mode: those that substring mode reports, as
far as the mode accepts them. -/
theorem fullHits_keeps {patterns : List Str} (nonempty : ∀ term ∈ patterns, term ≠ []) (lang : Lang) (mode : Option Mode)
    (hits : List Hit) (sound : ∀ hit ∈ hits, hit.Sound (patterns.map Utf8.bytes) (Utf8.bytes (crates.foldText text)))
    (loose : fullHits crates ⟨text, ⟨crates.foldText text, sourceStarts crates text⟩, lang, .substring, patterns⟩ hits =
      .ok accepted) :
    fullHits crates ⟨text, ⟨crates.foldText text, sourceStarts crates text⟩, lang, effectiveMode mode lang, patterns⟩ hits =
      .ok (accepted.filter (keeps crates text mode)) := by
  induction hits generalizing accepted with
  | nil =>
    obtain rfl := Except.ok.inj loose
    rfl
  | cons hit hits ih =>
    obtain ⟨own, rest, contributed, later, rfl⟩ := fullHits_cons.mp loose
    obtain ⟨term, before, middle, after, placed⟩ := placed_exists nonempty (sound hit List.mem_cons_self)
    rw [contributes_placed placed, if_pos accepts_substring] at contributed
    obtain rfl := Except.ok.inj contributed
    have others := ih (fun other member => sound other (List.mem_cons_of_mem _ member)) later
    refine fullHits_cons.mpr ⟨_, _, contributes_placed placed lang (effectiveMode mode lang), others, ?_⟩
    rw [Option.toList_some, List.singleton_append, List.filter_cons]
    by_cases accepted : Accepts crates (effectiveMode mode lang) text (Str.len before) (Str.len before + Str.len middle)
    · rw [if_pos accepted, if_pos (show keeps crates text mode _ = true from decide_eq_true accepted)]
      rfl
    · rw [if_neg accepted, if_neg (show ¬ keeps crates text mode _ = true by simpa [keeps] using accepted)]
      rfl

theorem full_keeps (nonempty : engine.TermsNonempty) (sound : SoundOn crates engine text) (lang : Lang) (mode : Option Mode)
    (loose : full crates engine text ⟨crates.foldText text, sourceStarts crates text⟩ (some .substring) lang = .ok accepted) :
    full crates engine text ⟨crates.foldText text, sourceStarts crates text⟩ mode lang =
      .ok (accepted.filter (keeps crates text mode)) := by
  rw [full_eq] at loose ⊢
  cases loaded : engine.terms lang with
  | none =>
    rw [loaded] at loose
    obtain rfl := Except.ok.inj loose
    rfl
  | some patterns =>
    rw [loaded] at loose
    exact fullHits_keeps (nonempty lang patterns loaded) lang mode _ (sound lang patterns loaded) loose

/-- Where a substring scan is not cut off, a scan of the same languages in any
other choice of modes is not either, and reports exactly the matches that their
modes accept, in the same order. -/
theorem modes_filter (folds : crates.FoldsNonempty) (reports : crates.ReportsOccurrences) (nonempty : engine.TermsNonempty)
    (loose : engine.scan crates text langs (some .substring) = .ok (.ok result)) (whole : result.truncated = false)
    (mode : Option Mode) : ∃ own, engine.scan crates text langs mode = .ok (.ok own) ∧ own.truncated = false ∧
      own.found = result.found.filter (keeps crates text mode) := by
  have sound := soundOn_of_reports reports engine text
  obtain ⟨each, defined, -, used, ran⟩ := scan_each folds nonempty sound (scan_fits loose) langs (some .substring)
  rw [ran] at loose
  cases loose
  have short : (langs.flatMap each).length ≤ maxMatches := by simpa using whole
  have filtered : (langs.flatMap fun lang => (each lang).filter (keeps crates text mode)) =
      (langs.flatMap each).filter (keeps crates text mode) := (List.filter_flatMap).symm
  have fewer := (List.length_filter_le (keeps crates text mode) (langs.flatMap each)).trans short
  obtain ⟨modeUsed, scanned⟩ := scanLangs_capped crates engine text _ mode langs
    (fullLangs_eq_flatten fun lang _ => full_keeps nonempty sound lang mode (defined lang)) [] [] (Nat.zero_le _)
  rw [filtered, List.nil_append, List.take_of_length_le fewer, decide_eq_false (Nat.not_lt.mpr fewer)] at scanned
  rw [show ScanResult.found _ = langs.flatMap each from List.take_of_length_le short]
  refine ⟨⟨modeUsed, (langs.flatMap each).filter (keeps crates text mode), false⟩, ?_, rfl, rfl⟩
  rw [Engine.scan, (normalize_ok_iff folds).mpr ⟨scan_fits ran, rfl⟩]
  exact bind_eq_ok.mpr ⟨_, scanned, rfl⟩

end

/-- A word inside another, and one that stands alone. -/
theorem modes_filter_darn : ∃ own, (AsciiCrates.engine "en" ["darn"]).scan AsciiCrates.crates "undarned Darn".toList
    ["en".toList] none = .ok (.ok own) ∧ own.truncated = false ∧
      own.found = [⟨"en".toList, "darn".toList, "Darn".toList, 9, 13⟩] := by
  have loose : (AsciiCrates.engine "en" ["darn"]).scan AsciiCrates.crates "undarned Darn".toList ["en".toList]
      (some .substring) = .ok (.ok ⟨[("en".toList, .substring)], [⟨"en".toList, "darn".toList, "darn".toList, 2, 6⟩,
        ⟨"en".toList, "darn".toList, "Darn".toList, 9, 13⟩], false⟩) := by decide +kernel
  obtain ⟨own, ran, whole, found⟩ := modes_filter AsciiCrates.foldsNonempty AsciiCrates.reportsOccurrences
    (AsciiCrates.engine_nonempty "en" (by decide)) loose rfl none
  exact ⟨own, ran, whole, found.trans (by decide +kernel)⟩

end VocabVeto.ModeFilter
