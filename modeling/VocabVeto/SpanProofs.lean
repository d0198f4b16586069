import VocabVeto.NormalizeProofs
import VocabVeto.ScanReference

/-! Where hits land in the caller's text. A hit is a byte range of the
normalized text; its span is the run of source codepoints whose expansions it
touches, so the lookups and slices on the way to it cannot fail. -/
namespace VocabVeto.SpanProofs
open Expansion LeftmostLongest NormalizeProofs ScanReference

/-- A hit placed in the text it was found in: the term it spells, and the cut
of the source text its span makes. -/
structure Placed (crates : Crates) (text : Str) (patterns : List Str) (hit : Hit)
    (term before middle after : Str) : Prop where
  selected : patterns[hit.pattern]? = some term
  occurs : OccursAt (Utf8.bytes term) (Utf8.bytes (crates.foldText text)) hit.start
  width : hit.stop = hit.start + Str.len term
  cut : text = before ++ (middle ++ after)
  range : Widened Char.utf8Size (contribution crates) text hit.start hit.stop
    (Str.len before) (Str.len before + Str.len middle)
  low : Str.len (crates.foldText before) ≤ hit.start
  high : hit.stop ≤ Str.len (crates.foldText before) + Str.len (crates.foldText middle)

/-- Every reported occurrence of a nonempty term can be placed. -/
theorem placed_exists {crates : Crates} {text : Str} {patterns : List Str} {hit : Hit}
    (nonempty : ∀ term ∈ patterns, term ≠ [])
    (sound : hit.Sound (patterns.map Utf8.bytes) (Utf8.bytes (crates.foldText text))) :
    ∃ term before middle after, Placed crates text patterns hit term before middle after := by
  obtain ⟨encoded, selected, occurs, width, bound⟩ := sound
  rw [List.getElem?_map, Option.map_eq_some_iff] at selected
  obtain ⟨term, chosen, rfl⟩ := selected
  have filled := Str.len_pos (nonempty term (List.mem_of_getElem? chosen))
  rw [Utf8.length_bytes] at width bound
  have ordered : hit.start < hit.stop := width ▸ Nat.lt_add_of_pos_right filled
  obtain ⟨low, high, range⟩ := range_exists ordered bound
  obtain ⟨before, middle, after, cut, _, rfl, rfl, lower, upper⟩ := range.cut
  rw [length_flatMap_contribution] at lower upper
  rw [length_flatMap_contribution] at upper
  exact ⟨term, before, middle, after, chosen, occurs, width, cut, range, lower, upper⟩

section
variable {crates : Crates} {text : Str} {patterns : List Str} {hit : Hit} {term before middle after : Str}

/-- `widen_to_source` neither indexes out of range nor slices off a boundary on
a nonempty range, and returns exactly the widened range. -/
theorem widenToSource_eq (range : Widened Char.utf8Size (contribution crates) text start stop low high) :
    widenToSource (sourceStarts crates text) text start stop = .ok (low, high) := by
  obtain ⟨first, x, behind, splitFirst, withinFirst, rfl⟩ := range.first
  obtain ⟨last, y, rest, splitLast, withinLast, rfl⟩ := range.last
  obtain ⟨final, rfl⟩ : ∃ final, stop = final + 1 := ⟨stop - 1, by have := range.nonempty; omega⟩
  have sliced : Str.sliceFrom text (Str.len last) = .ok (y :: rest) := by
    rw [splitLast]
    exact Str.sliceFrom_append last (y :: rest)
  simp only [widenToSource, index, indexPred, sourceStarts_getElem splitFirst withinFirst,
    sourceStarts_getElem splitLast (show Within _ last y final from withinLast), Fallible.ok_bind, sliced]
  rfl

/-- The reported entry of a placed hit, or nothing when strict mode drops it. -/
theorem contributes_placed (placed : Placed crates text patterns hit term before middle after)
    (lang : Lang) (mode : Mode) :
    contributes crates ⟨text, ⟨crates.foldText text, sourceStarts crates text⟩, lang, mode, patterns⟩ hit =
      .ok (if Accepts crates mode text (Str.len before) (Str.len before + Str.len middle) then
        some ⟨lang, term, middle, Str.len before, Str.len before + Str.len middle⟩ else none) := by
  have sliced : Str.slice text (Str.len before) (Str.len before + Str.len middle) = .ok middle := by
    rw [placed.cut]
    exact Str.slice_append before middle after
  rw [contributes_eq (by exact placed.selected) (by exact widenToSource_eq placed.range)]
  by_cases accepted : Accepts crates mode text (Str.len before) (Str.len before + Str.len middle)
  · rw [if_pos accepted, if_pos accepted, sliced]
    rfl
  · rw [if_neg accepted, if_neg accepted]

/-- Even an empty range inside the folded text has a source span to slice:
nothing, or a codepoint whose expansion it lies within. -/
private theorem empty_range_widens (folds : crates.FoldsNonempty)
    (inside : i + 1 < Str.len (crates.foldText text)) :
    ∃ low high matched, widenToSource (sourceStarts crates text) text (i + 1) (i + 1) = .ok (low, high) ∧
      Str.slice text low high = .ok matched ∧ ∀ ch ∈ matched, 1 < (contribution crates ch).length := by
  obtain ⟨before, x, after, split, within⟩ := owner_exists inside
  obtain ⟨prior, y, rest, splitPrior, withinPrior⟩ :=
    owner_exists (show i < Str.len (crates.foldText text) by omega)
  have sliced : Str.sliceFrom text (Str.len prior) = .ok (y :: rest) := by
    rw [splitPrior]
    exact Str.sliceFrom_append prior (y :: rest)
  have widened : widenToSource (sourceStarts crates text) text (i + 1) (i + 1) =
      .ok (Str.len before, Str.len prior + y.utf8Size) := by
    simp only [widenToSource, index, indexPred, sourceStarts_getElem split within,
      sourceStarts_getElem splitPrior withinPrior, Fallible.ok_bind, sliced]
  have filled : ∀ ch, contribution crates ch ≠ [] := fun ch => Utf8.bytes_ne_nil (folds ch)
  rcases within_next filled (splitPrior.symm.trans split) withinPrior within with ⟨rfl, rfl⟩ | rfl
  · refine ⟨_, _, [y], widened, ?_, ?_⟩
    · rw [split]
      simpa using Str.slice_append prior [y] after
    · have low := withinPrior.1
      have high := within.2
      rw [List.forall_mem_singleton]
      omega
  · refine ⟨_, _, [], widened, ?_, List.forall_mem_nil _⟩
    rw [split]
    simpa using Str.slice_append (prior ++ [y]) [] (x :: after)

/-- A range that is neither at the very start nor past the end of the folded
text has a source span to slice; an empty one spans nothing that folds to a
single byte. -/
theorem range_widens (folds : crates.FoldsNonempty) (ordered : start ≤ stop) (positive : 0 < stop)
    (inside : start < Str.len (crates.foldText text)) (bound : stop ≤ Str.len (crates.foldText text)) :
    ∃ low high matched, widenToSource (sourceStarts crates text) text start stop = .ok (low, high) ∧
      Str.slice text low high = .ok matched ∧
      (start = stop → ∀ ch ∈ matched, 1 < (contribution crates ch).length) := by
  by_cases empty : start = stop
  · obtain ⟨i, rfl⟩ : ∃ i, stop = i + 1 := ⟨stop - 1, by omega⟩
    subst empty
    obtain ⟨low, high, matched, widened, sliced, wide⟩ := empty_range_widens folds inside
    exact ⟨low, high, matched, widened, sliced, fun _ => wide⟩
  · obtain ⟨low, high, range⟩ := range_exists (show start < stop by omega) bound
    obtain ⟨before, middle, after, cut, _, rfl, rfl, _⟩ := range.cut
    refine ⟨_, _, middle, widenToSource_eq range, ?_, fun same => absurd same empty⟩
    rw [cut]
    exact Str.slice_append before middle after

/-- Widening succeeds only on such ranges. -/
theorem range_of_widens
    (widened : widenToSource (sourceStarts crates text) text start stop = .ok (low, high)) :
    0 < stop ∧ start < Str.len (crates.foldText text) := by
  obtain ⟨first, starts, continued⟩ := bind_eq_ok.mp widened
  obtain ⟨last, ends, _⟩ := bind_eq_ok.mp continued
  constructor
  · cases stop with
    | zero => cases ends
    | succ stop => exact Nat.succ_pos stop
  · rw [← length_sourceStarts]
    exact (List.getElem?_eq_some_iff.mp (index_ok.mp starts)).1

/-- A match is contributed by a known term and the slice of its span. -/
theorem contributes_ok {pass : Pass} (contributed : contributes crates pass hit = .ok (some m)) :
    ∃ low high, pass.patterns[hit.pattern]? = some m.term ∧
      widenToSource pass.norm.offsetMap pass.text hit.start hit.stop = .ok (low, high) ∧
      Str.slice pass.text low high = .ok m.matchedText ∧ m.lang = pass.lang := by
  obtain ⟨-, ⟨⟩⟩ | ⟨term, low, high, own, selected, widened, -, reported, same⟩ := contributes_cases contributed
  obtain rfl := Option.some.inj same
  obtain ⟨matched, sliced, made⟩ := bind_eq_ok.mp reported
  obtain rfl := Except.ok.inj made
  exact ⟨low, high, selected, widened, sliced, rfl⟩

end

/-! ### The report of a language -/

/-- The hits of these patterns in the normalized form of a text. -/
def hitsOf (crates : Crates) (text : Str) (patterns : List Str) : List Hit :=
  (AhoCorasick.build patterns).findIter crates (crates.foldText text)

/-- The entry a placed hit becomes. -/
def entry (lang : Lang) (term before middle : Str) : Match :=
  ⟨lang, term, middle, Str.len before, Str.len before + Str.len middle⟩

/-- The mode a language is scanned in. -/
def effectiveMode (mode : Option Mode) (lang : Lang) : Mode := mode.getD (resolveDefaultMode lang)

/-- The matches a language contributes, independently of the loops: its placed
hits whose spans the mode accepts. -/
def Reported (crates : Crates) (engine : Engine) (text : Str) (mode : Option Mode) (lang : Lang)
    (m : Match) : Prop :=
  ∃ patterns hit term before middle after, engine.terms lang = some patterns ∧
    hit ∈ hitsOf crates text patterns ∧ Placed crates text patterns hit term before middle after ∧
    Accepts crates (effectiveMode mode lang) text (Str.len before) (Str.len before + Str.len middle) ∧
    m = entry lang term before middle

/-- The hits the engine's automata report in this text are real occurrences. -/
def SoundOn (crates : Crates) (engine : Engine) (text : Str) : Prop :=
  ∀ lang patterns, engine.terms lang = some patterns → ∀ hit ∈ hitsOf crates text patterns,
    hit.Sound (patterns.map Utf8.bytes) (Utf8.bytes (crates.foldText text))

theorem soundOn_of_reports {crates : Crates} (reports : crates.ReportsOccurrences) (engine : Engine)
    (text : Str) : SoundOn crates engine text := fun _ _ _ hit member => reports _ _ hit member

theorem encoded_nonempty {patterns : List Str} (nonempty : ∀ term ∈ patterns, term ≠ []) :
    ∀ encoded ∈ patterns.map Utf8.bytes, encoded ≠ [] := by
  intro encoded member
  obtain ⟨term, listed, rfl⟩ := List.mem_map.mp member
  exact Utf8.bytes_ne_nil (nonempty term listed)

theorem soundOn_of_leftmost {crates : Crates} (leftmost : crates.FindsLeftmostLongest)
    {engine : Engine} (nonempty : engine.TermsNonempty) (text : Str) : SoundOn crates engine text := by
  intro lang patterns loaded hit member
  have filled := encoded_nonempty (nonempty lang patterns loaded)
  exact (leftmost _ _ filled).sound filled member

/-- The automaton stored for a language searches for exactly its terms. -/
theorem terms_of_lookup {engine : Engine} (held : engine.automata.lookup lang = some (ac, patterns)) :
    engine.terms lang = some patterns ∧ ac = AhoCorasick.build patterns :=
  ⟨by rw [Engine.terms, held]; rfl, engine.built lang ac patterns held⟩

/-- The reference report of a language, by its terms. -/
theorem full_eq (crates : Crates) (engine : Engine) (text : Str) (mode : Option Mode) (lang : Lang) :
    full crates engine text ⟨crates.foldText text, sourceStarts crates text⟩ mode lang =
      match engine.terms lang with
      | none => .ok []
      | some patterns => fullHits crates ⟨text, ⟨crates.foldText text, sourceStarts crates text⟩, lang,
          effectiveMode mode lang, patterns⟩ (hitsOf crates text patterns) := by
  rw [full, Engine.terms]
  cases held : engine.automata.lookup lang with
  | none => rfl
  | some stored =>
    obtain ⟨ac, patterns⟩ := stored
    obtain ⟨_, rfl⟩ := terms_of_lookup held
    rfl

section
variable {crates : Crates} {engine : Engine} {text : Str}

/-- One language's hits are all placed, so its reference report is defined and
holds exactly the accepted ones. -/
theorem fullHits_defined {patterns : List Str} (nonempty : ∀ term ∈ patterns, term ≠ [])
    (lang : Lang) (mode : Mode) (hits : List Hit) (sound : ∀ hit ∈ hits,
      hit.Sound (patterns.map Utf8.bytes) (Utf8.bytes (crates.foldText text))) :
    ∃ accepted, fullHits crates ⟨text, ⟨crates.foldText text, sourceStarts crates text⟩, lang, mode,
        patterns⟩ hits = .ok accepted ∧
      ∀ m, m ∈ accepted ↔ ∃ hit term before middle after, hit ∈ hits ∧
        Placed crates text patterns hit term before middle after ∧
        Accepts crates mode text (Str.len before) (Str.len before + Str.len middle) ∧
        m = entry lang term before middle := by
  induction hits with
  | nil => exact ⟨[], rfl, by simp⟩
  | cons hit hits ih =>
    obtain ⟨rest, later, members⟩ := ih fun other member => sound other (List.mem_cons_of_mem _ member)
    obtain ⟨term, before, middle, after, placed⟩ := placed_exists nonempty (sound hit (by simp))
    simp only [fullHits, contributes_placed placed, later, Fallible.ok_bind]
    refine ⟨_, rfl, fun m => ?_⟩
    rw [List.mem_append, members]
    constructor
    · rintro (first | ⟨other, found⟩)
      · split at first
        · rename_i accepted
          simp only [Option.toList_some, List.mem_singleton] at first
          exact ⟨hit, term, before, middle, after, by simp, placed, accepted, first⟩
        · simp at first
      · obtain ⟨term, before, middle, after, member, rest⟩ := found
        exact ⟨other, term, before, middle, after, List.mem_cons_of_mem _ member, rest⟩
    · rintro ⟨other, found, left, kept, right, member, fits, accepted, rfl⟩
      rcases List.mem_cons.mp member with rfl | member
      · have same := (contributes_placed fits lang mode).symm.trans (contributes_placed placed lang mode)
        rw [if_pos accepted, Except.ok.injEq] at same
        exact .inl (by simp [← same, entry])
      · exact .inr ⟨other, found, left, kept, right, member, fits, accepted, rfl⟩

/-- The reference report of a language is defined, and is what `Reported` says. -/
theorem full_defined (nonempty : engine.TermsNonempty) (sound : SoundOn crates engine text)
    (mode : Option Mode) (lang : Lang) :
    ∃ accepted, full crates engine text ⟨crates.foldText text, sourceStarts crates text⟩ mode lang =
        .ok accepted ∧ ∀ m, m ∈ accepted ↔ Reported crates engine text mode lang m := by
  rw [full_eq]
  cases loaded : engine.terms lang with
  | none =>
    refine ⟨[], rfl, fun m => ⟨by simp, ?_⟩⟩
    rintro ⟨patterns, _, _, _, _, _, again, _⟩
    rw [loaded] at again
    cases again
  | some patterns =>
    obtain ⟨accepted, reference, members⟩ := fullHits_defined (nonempty lang patterns loaded) lang
      (effectiveMode mode lang) _ (sound lang patterns loaded)
    refine ⟨accepted, reference, fun m => (members m).trans ?_⟩
    constructor
    · rintro ⟨hit, term, before, middle, after, member, placed, rest⟩
      exact ⟨patterns, hit, term, before, middle, after, loaded, member, placed, rest⟩
    · rintro ⟨own, hit, term, before, middle, after, again, member, placed, rest⟩
      obtain rfl := Option.some.inj (loaded.symm.trans again)
      exact ⟨hit, term, before, middle, after, member, placed, rest⟩

/-- Beyond the cap on normalized bytes, the scan is the size error. -/
theorem scan_too_large (large : maxNormalizedBytes < Str.len (crates.foldText text)) (langs : List Lang)
    (mode : Option Mode) : engine.scan crates text langs mode = .ok (.error .tooLarge) := by
  simp [Engine.scan, normalize_eq, Nat.not_le.mpr large]

/-- Below it, the scan returns the capped concatenation of the languages'
reference reports. -/
theorem scan_each (folds : crates.FoldsNonempty) (nonempty : engine.TermsNonempty)
    (sound : SoundOn crates engine text) (fits : Str.len (crates.foldText text) ≤ maxNormalizedBytes)
    (langs : List Lang) (mode : Option Mode) :
    ∃ each : Lang → List Match,
      (∀ lang, full crates engine text ⟨crates.foldText text, sourceStarts crates text⟩ mode lang =
        .ok (each lang)) ∧
      (∀ lang m, m ∈ each lang ↔ Reported crates engine text mode lang m) ∧
      ∃ used, engine.scan crates text langs mode = .ok (.ok ⟨used, (langs.flatMap each).take maxMatches,
        decide (maxMatches < (langs.flatMap each).length)⟩) := by
  choose each defined members using full_defined nonempty sound mode
  obtain ⟨used, ran⟩ := scanLangs_capped crates engine text _ mode langs
    (fullLangs_eq_flatten fun lang _ => defined lang) [] [] (Nat.zero_le _)
  refine ⟨each, defined, members, used, ?_⟩
  rw [Engine.scan, (normalize_ok_iff folds).mpr ⟨fits, rfl⟩]
  simp only [ran, Fallible.ok_bind, List.nil_append]
  rfl

/-- What a scan returns, by the matches its languages report. -/
theorem scan_eq (folds : crates.FoldsNonempty) (nonempty : engine.TermsNonempty)
    (sound : SoundOn crates engine text) (fits : Str.len (crates.foldText text) ≤ maxNormalizedBytes)
    (langs : List Lang) (mode : Option Mode) :
    ∃ each : Lang → List Match, (∀ lang m, m ∈ each lang ↔ Reported crates engine text mode lang m) ∧
      ∃ used, engine.scan crates text langs mode = .ok (.ok ⟨used, (langs.flatMap each).take maxMatches,
        decide (maxMatches < (langs.flatMap each).length)⟩) := by
  obtain ⟨each, _, members, used, ran⟩ := scan_each folds nonempty sound fits langs mode
  exact ⟨each, members, used, ran⟩

/-- The scan never panics. -/
theorem scan_returns (folds : crates.FoldsNonempty) (nonempty : engine.TermsNonempty)
    (sound : SoundOn crates engine text) (langs : List Lang) (mode : Option Mode) :
    ∃ outcome, engine.scan crates text langs mode = .ok outcome := by
  by_cases fits : Str.len (crates.foldText text) ≤ maxNormalizedBytes
  · obtain ⟨_, _, used, ran⟩ := scan_eq folds nonempty sound fits langs mode
    exact ⟨_, ran⟩
  · exact ⟨_, scan_too_large (Nat.lt_of_not_le fits) langs mode⟩

/-- A scan that returns a result normalized its text. -/
theorem scan_fits (ran : engine.scan crates text langs mode = .ok (.ok result)) :
    Str.len (crates.foldText text) ≤ maxNormalizedBytes := by
  by_contra large
  rw [scan_too_large (Nat.lt_of_not_le large)] at ran
  cases ran

/-- Everything a scan returns was reported by one of the requested languages. -/
theorem reported_of_scan (folds : crates.FoldsNonempty) (nonempty : engine.TermsNonempty)
    (sound : SoundOn crates engine text) (ran : engine.scan crates text langs mode = .ok (.ok result))
    (member : m ∈ result.found) : ∃ lang ∈ langs, Reported crates engine text mode lang m := by
  obtain ⟨each, members, used, exact⟩ := scan_eq folds nonempty sound (scan_fits ran) langs mode
  rw [exact] at ran
  cases ran
  obtain ⟨lang, requested, listed⟩ := List.mem_flatMap.mp (List.mem_of_mem_take member)
  exact ⟨lang, requested, (members lang m).mp listed⟩

/-- A scan that was not truncated returns everything its languages report. -/
theorem scan_complete (folds : crates.FoldsNonempty) (nonempty : engine.TermsNonempty)
    (sound : SoundOn crates engine text) (ran : engine.scan crates text langs mode = .ok (.ok result))
    (whole : result.truncated = false) (requested : lang ∈ langs)
    (reported : Reported crates engine text mode lang m) : m ∈ result.found := by
  obtain ⟨each, members, used, exact⟩ := scan_eq folds nonempty sound (scan_fits ran) langs mode
  rw [exact] at ran
  cases ran
  have short : (langs.flatMap each).length ≤ maxMatches := by simpa using whole
  rw [List.take_of_length_le short]
  exact List.mem_flatMap.mpr ⟨lang, requested, (members lang m).mpr reported⟩

end

end VocabVeto.SpanProofs
