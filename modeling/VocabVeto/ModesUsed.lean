import VocabVeto.AsciiCrates
import VocabVeto.Core.Check
import VocabVeto.SpanProofs

/-! Which languages a report names. The entries of `mode_used` are pushed by the
loop that the cap on matches breaks out of, so a language after the break is
requested and never named. -/
namespace VocabVeto.ModesUsed
open LeftmostLongest NormalizeProofs ScanReference SpanProofs

/-- The entry a requested language should get. -/
def modeEntry (mode : Option Mode) (lang : Lang) : Lang × Mode := (lang, effectiveMode mode lang)

/-- Every requested language is named once, in order, with the mode it was to be
scanned in, and the map built from these entries has it as a key. -/
structure ModesComplete (langs : List Lang) (mode : Option Mode) (result : ScanResult) : Prop where
  entries : result.modeUsed = langs.map (modeEntry mode)
  keys : ∀ lang ∈ langs,
    (modeUsedMap result.modeUsed).lookup lang = some (effectiveMode mode lang).asWireStr

/-- The languages before the last one have at most as many matches as a report
can hold. -/
def EarlierFit (crates : Crates) (engine : Engine) (text : Str) (langs : List Lang) (mode : Option Mode) :
    Prop :=
  ∃ norm accepted, normalize crates text = .ok norm ∧
    fullLangs crates engine text norm mode langs.dropLast = .ok accepted ∧ accepted.length ≤ maxMatches

section
variable {crates : Crates} {engine : Engine} {text : Str} {norm : Normalized} {mode : Option Mode}

/-- An inner loop that the cap did not end has gone through all its hits. -/
theorem scanHits_complete {pass : Pass} (hits : List Hit)
    (ran : scanHits crates pass hits found = .ok (out, false)) (room : found.length ≤ maxMatches) :
    ∃ accepted, fullHits crates pass hits = .ok accepted ∧ out = found ++ accepted ∧
      out.length ≤ maxMatches := by
  induction hits generalizing found with
  | nil =>
    obtain ⟨rfl, -⟩ := Prod.mk.inj (Except.ok.inj ran)
    exact ⟨[], rfl, by simp, room⟩
  | cons hit hits ih =>
    obtain ⟨outcome, examined, continued⟩ := bind_eq_ok.mp ran
    cases outcome with
    | none =>
      obtain ⟨accepted, reference, made, bound⟩ := ih continued room
      exact ⟨accepted, fullHits_cons.mpr ⟨none, accepted, contributes_dropped examined, reference, rfl⟩,
        made, bound⟩
    | some kept =>
      obtain ⟨term, low, high⟩ := kept
      dsimp only at continued
      by_cases full : found.length = maxMatches
      · rw [if_pos full] at continued
        cases continued
      · rw [if_neg full] at continued
        obtain ⟨entry, reported, rest⟩ := bind_eq_ok.mp continued
        have roomier : (found ++ [entry]).length ≤ maxMatches := by
          simp only [List.length_append, List.length_singleton]
          omega
        obtain ⟨accepted, reference, rfl, bound⟩ := ih rest roomier
        have contributed := contributes_kept examined reported
        exact ⟨entry :: accepted, fullHits_cons.mpr ⟨some entry, accepted, contributed, reference, rfl⟩,
          by simp, bound⟩

/-- Without a boundary filter every hit is reported. -/
theorem length_fullHits {crates : Crates} {pass : Pass} (substring : pass.mode = .substring) (hits : List Hit)
    (reference : fullHits crates pass hits = .ok accepted) : accepted.length = hits.length := by
  induction hits generalizing accepted with
  | nil => exact Except.ok.inj reference ▸ rfl
  | cons hit hits ih =>
    obtain ⟨first, rest, contributed, later, rfl⟩ := fullHits_cons.mp reference
    obtain ⟨examined, rfl⟩ | ⟨_, _, _, entry, -, -, -, -, rfl⟩ := contributes_cases contributed
    · obtain ⟨_, _, _, -, -, kept⟩ := examine_ok examined
      rw [substring, if_pos accepts_substring] at kept
      cases kept
    · simp [ih later]

/-- An inner loop that the cap ended had more accepted hits than fit. -/
theorem scanHits_stopped {pass : Pass} (reference : fullHits crates pass hits = .ok accepted)
    (ran : scanHits crates pass hits found = .ok (out, true)) (room : found.length ≤ maxMatches) :
    maxMatches < found.length + accepted.length := by
  rw [scanHits_capped crates pass hits reference found room] at ran
  have cut : decide (maxMatches < (found ++ accepted).length) = true := (Prod.mk.inj (Except.ok.inj ran)).2
  rwa [decide_eq_true_eq, List.length_append] at cut

/-- The last language is named whether or not the cap ends its loop. -/
theorem scanLangs_last (ran : scanLangs crates engine text norm mode [last] used found = .ok result) :
    result.modeUsed = used ++ [modeEntry mode last] := by
  simp only [scanLangs] at ran
  cases held : engine.automata.lookup last with
  | none =>
    rw [held] at ran
    rw [← Except.ok.inj ran]
    rfl
  | some stored =>
    rw [held] at ran
    obtain ⟨⟨out, capped⟩, _, continued⟩ := bind_eq_ok.mp ran
    cases capped with
    | true => exact Except.ok.inj continued ▸ rfl
    | false => exact Except.ok.inj continued ▸ rfl

/-- The loop names all its languages exactly when it gets to the last one. -/
theorem scanLangs_modes (init : List Lang) (last : Lang)
    (ran : scanLangs crates engine text norm mode (init ++ [last]) used found = .ok result)
    (room : found.length ≤ maxMatches) :
    result.modeUsed = used ++ (init ++ [last]).map (modeEntry mode) ↔
      ∃ accepted, fullLangs crates engine text norm mode init = .ok accepted ∧
        found.length + accepted.length ≤ maxMatches := by
  induction init generalizing used found with
  | nil => exact ⟨fun _ => ⟨[], rfl, room⟩, fun _ => scanLangs_last ran⟩
  | cons lang init ih =>
    simp only [List.cons_append, scanLangs] at ran
    cases held : engine.automata.lookup lang with
    | none =>
      rw [held] at ran
      have absent : full crates engine text norm mode lang = .ok [] := by rw [full, held]
      have later := ih ran room
      simp only [List.append_assoc] at later
      refine later.trans ?_
      rw [fullLangs, absent, Fallible.ok_bind]
      simp [bind_eq_ok, pure, Except.pure]
    | some stored =>
      obtain ⟨ac, patterns⟩ := stored
      rw [held] at ran
      obtain ⟨⟨out, capped⟩, searched, continued⟩ := bind_eq_ok.mp ran
      cases capped with
      | true =>
        obtain rfl := Except.ok.inj continued
        constructor
        · intro named
          have sizes := congrArg List.length named
          simp at sizes
        · rintro ⟨accepted, reference, bound⟩
          obtain ⟨first, rest, contributed, -, rfl⟩ := fullLangs_cons reference
          rw [full, held] at contributed
          have more := scanHits_stopped contributed searched room
          rw [List.length_append] at bound
          omega
      | false =>
        obtain ⟨first, contributed, rfl, bound⟩ := scanHits_complete _ searched room
        have whole : full crates engine text norm mode lang = .ok first := by
          rw [full, held]
          exact contributed
        have later := ih continued bound
        simp only [List.append_assoc] at later
        refine later.trans ⟨?_, ?_⟩
        · rintro ⟨rest, reference, short⟩
          refine ⟨first ++ rest, ?_, by simpa [Nat.add_assoc] using short⟩
          rw [fullLangs, whole, reference]
          rfl
        · rintro ⟨accepted, reference, short⟩
          obtain ⟨own, rest, again, later, rfl⟩ := fullLangs_cons reference
          obtain rfl := Except.ok.inj (whole.symm.trans again)
          exact ⟨rest, later, by simpa [Nat.add_assoc] using short⟩

private theorem lookup_foldl_entries (langs : List Lang) (map : BTreeMap Str) (lang : Lang) :
    ((langs.map (modeEntry mode)).foldl
        (fun map entry => BTreeMap.insert entry.1 entry.2.asWireStr map) map).lookup lang =
      if lang ∈ langs then some (effectiveMode mode lang).asWireStr else map.lookup lang := by
  induction langs generalizing map with
  | nil => simp
  | cons first langs ih =>
    rw [List.map_cons, List.foldl_cons, ih, BTreeMap.lookup_insert]
    by_cases later : lang ∈ langs
    · simp [later]
    · by_cases here : lang = first
      · subst here
        simp [later, modeEntry]
      · simp [later, here, modeEntry]

/-- A map built by inserting entries that give each language its own mode holds
that mode for every language among them, however often it is requested. -/
theorem lookup_modeUsedMap (langs : List Lang) (member : lang ∈ langs) :
    (modeUsedMap (langs.map (modeEntry mode))).lookup lang = some (effectiveMode mode lang).asWireStr := by
  rw [modeUsedMap, lookup_foldl_entries, if_pos member]

/-- `mode_used` is complete exactly when the languages before the last requested
one do not fill the report. -/
theorem modes_complete_iff (requested : langs ≠ [])
    (ran : engine.scan crates text langs mode = .ok (.ok result)) :
    ModesComplete langs mode result ↔ EarlierFit crates engine text langs mode := by
  cases accepted : normalize crates text with
  | error e =>
    rw [Engine.scan, accepted] at ran
    cases ran
  | ok norm =>
    rw [Engine.scan, accepted] at ran
    obtain ⟨own, walked, made⟩ := bind_eq_ok.mp ran
    obtain rfl := Except.ok.inj (Except.ok.inj made)
    have split := List.dropLast_append_getLast requested
    rw [← split] at walked
    have named := scanLangs_modes _ _ walked (Nat.zero_le _)
    rw [split, List.nil_append, List.length_nil] at named
    simp only [Nat.zero_add] at named
    constructor
    · intro complete
      obtain ⟨matched, reference, bound⟩ := named.mp complete.entries
      exact ⟨norm, matched, accepted, reference, bound⟩
    · rintro ⟨norm', matched, same, reference, bound⟩
      obtain rfl := Except.ok.inj (accepted.symm.trans same)
      have entries := named.mpr ⟨matched, reference, bound⟩
      exact ⟨entries, fun lang member => entries ▸ lookup_modeUsedMap langs member⟩

end

/-- English and French, with one term each. -/
def bilingual : Engine :=
  Engine.new (AList.insert "fr".toList ["b".toList] (AList.insert "en".toList ["a".toList] ∅))

theorem modes_complete_iff_bilingual :
    ModesComplete ["en".toList, "fr".toList] (some .substring)
        ⟨[("en".toList, .substring), ("fr".toList, .substring)], [⟨"en".toList, "a".toList, "A".toList, 0, 1⟩,
          ⟨"en".toList, "a".toList, "a".toList, 2, 3⟩, ⟨"fr".toList, "b".toList, "b".toList, 1, 2⟩], false⟩ ↔
      EarlierFit AsciiCrates.crates bilingual "Aba".toList ["en".toList, "fr".toList] (some .substring) :=
  modes_complete_iff (by decide) (by decide +kernel)

/-- One English match more than a report holds. -/
def crowded : Str := List.replicate 257 'a'

/-- The cap trips in the first language, and the second one is never named. -/
theorem french_unnamed :
    (∀ lang ∈ ["en".toList, "fr".toList], bilingual.hasLanguage lang = true) ∧
      ∃ result, bilingual.scan AsciiCrates.crates crowded ["en".toList, "fr".toList] (some .substring) =
          .ok (.ok result) ∧
        ¬ ModesComplete ["en".toList, "fr".toList] (some .substring) result := by
  have folds := AsciiCrates.foldsNonempty
  have nonempty : bilingual.TermsNonempty := Engine.new_nonempty (by decide)
  have sound := soundOn_of_reports AsciiCrates.reportsOccurrences bilingual crowded
  have folded : AsciiCrates.crates.foldText crowded = crowded := by decide +kernel
  have fits : Str.len (AsciiCrates.crates.foldText crowded) ≤ maxNormalizedBytes := by
    rw [folded]
    decide +kernel
  have accepted := (normalize_ok_iff folds).mpr ⟨fits, rfl⟩
  obtain ⟨each, _, used, ran⟩ := scan_eq folds nonempty sound fits ["en".toList, "fr".toList] (some .substring)
  refine ⟨by decide, _, ran, fun complete => ?_⟩
  rw [Engine.scan, accepted] at ran
  obtain ⟨result, walked, made⟩ := bind_eq_ok.mp ran
  obtain rfl := Except.ok.inj (Except.ok.inj made)
  obtain ⟨matched, reference, bound⟩ :=
    (scanLangs_modes ["en".toList] "fr".toList walked (Nat.zero_le _)).mp complete.entries
  obtain ⟨own, rest, contributed, later, rfl⟩ := fullLangs_cons reference
  rw [folded] at contributed
  have counted : own.length = (hitsOf AsciiCrates.crates crowded ["a".toList]).length :=
    (length_fullHits rfl _ contributed).trans (by rw [hitsOf, folded])
  have hits : (hitsOf AsciiCrates.crates crowded ["a".toList]).length = 257 := by
    rw [hitsOf, folded]
    decide +kernel
  rw [List.length_append, List.length_nil] at bound
  have cap : maxMatches = 256 := rfl
  omega

end VocabVeto.ModesUsed
