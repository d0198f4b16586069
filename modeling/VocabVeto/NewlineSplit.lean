import VocabVeto.AsciiCrates
import VocabVeto.SpanProofs

/-! Scans split at newlines. No term reaches across one, so the search starts
afresh behind it, and the folded text, its map to the source and the word
boundaries are those of the two sides. Callers rely on this when they cut a
document into pieces. -/
namespace VocabVeto.NewlineSplit
open Expansion LeftmostLongest NormalizeProofs ScanReference SpanProofs

/-- The match in a text that has this many bytes put before it. -/
def moved (offset : Nat) (m : Match) : Match := { m with start := m.start + offset, stop := m.stop + offset }

/-- No loaded term contains a newline: the build cuts its lists into lines. -/
def SingleLine (engine : Engine) : Prop :=
  ∀ lang terms, engine.terms lang = some terms → ∀ term ∈ terms, '\n' ∉ term

/-- What scanning a text reports, language by language: the groups follow the
request, and each is what a scan for its language alone reports. -/
structure ReportsEach (crates : Crates) (engine : Engine) (text : Str) (langs : List Lang) (mode : Option Mode)
    (each : Lang → List Match) : Prop where
  together : ∃ used, engine.scan crates text langs mode = .ok (.ok ⟨used, langs.flatMap each, false⟩)
  alone : ∀ lang ∈ langs, ∃ used, engine.scan crates text [lang] mode = .ok (.ok ⟨used, each lang, false⟩)

section
variable {crates : Crates} {engine : Engine} {text : Str} {patterns : List Str}

/-- A language's group is what its own scan finds. -/
theorem ReportsEach.alone_found {each : Lang → List Match} (reports : ReportsEach crates engine text langs mode each)
    (requested : lang ∈ langs) (ran : engine.scan crates text [lang] mode = .ok (.ok result)) :
    each lang = result.found := by
  obtain ⟨used, own⟩ := reports.alone lang requested
  obtain rfl := Except.ok.inj (Except.ok.inj (own.symm.trans ran))
  rfl

/-- What each language contributes to the scan of a text that can be normalized
and has no more matches than a report holds. -/
structure GroupsOf (crates : Crates) (engine : Engine) (text : Str) (langs : List Lang) (mode : Option Mode)
    (each : Lang → List Match) : Prop where
  fits : Str.len (crates.foldText text) ≤ maxNormalizedBytes
  defined : ∀ lang, full crates engine text ⟨crates.foldText text, sourceStarts crates text⟩ mode lang = .ok (each lang)
  short : (langs.flatMap each).length ≤ maxMatches

/-- Below the cap, a scan reports what its languages contribute. -/
theorem reportsEach_of_groups {each : Lang → List Match} (folds : crates.FoldsNonempty) (nonempty : engine.TermsNonempty)
    (sound : SoundOn crates engine text) (groups : GroupsOf crates engine text langs mode each) :
    ReportsEach crates engine text langs mode each := by
  have scanned : ∀ asked : List Lang, (asked.flatMap each).length ≤ maxMatches →
      ∃ used, engine.scan crates text asked mode = .ok (.ok ⟨used, asked.flatMap each, false⟩) := by
    intro asked few
    obtain ⟨each', defined', _, used, ran⟩ := scan_each folds nonempty sound groups.fits asked mode
    obtain rfl : each' = each := funext fun lang => Except.ok.inj ((defined' lang).symm.trans (groups.defined lang))
    rw [List.take_of_length_le few, decide_eq_false (Nat.not_lt.mpr few)] at ran
    exact ⟨used, ran⟩
  refine ⟨scanned langs groups.short, fun lang requested => ?_⟩
  have fewer : (each lang).length ≤ (langs.flatMap each).length :=
    (List.sublist_flatten_of_mem (List.mem_map_of_mem requested)).length_le
  simpa using scanned [lang] (by simpa using fewer.trans groups.short)

/-! ### A placed hit in a larger text -/

theorem placed_inside (placed : Placed crates text patterns hit term before middle after) (front back : Str) :
    Placed crates (front ++ (text ++ back)) patterns (hit.shift (Str.len (crates.foldText front))) term
      (front ++ before) middle (after ++ back) where
  selected := placed.selected
  occurs := by
    have inside := placed.occurs.embed (Utf8.bytes (crates.foldText front)) (Utf8.bytes (crates.foldText back))
    rw [Utf8.length_bytes, ← Utf8.bytes_append, ← Utf8.bytes_append, ← Crates.foldText_append,
      ← Crates.foldText_append] at inside
    exact inside
  width := by
    simp only [Hit.shift, placed.width]
    omega
  cut := by simp [placed.cut]
  range := by
    have inside := placed.range.embed front back
    rw [length_flatMap_contribution] at inside
    rw [Str.len_append, Nat.add_comm (Str.len front), Nat.add_right_comm]
    exact inside
  low := by
    have := placed.low
    simp only [Crates.foldText_append, Str.len_append, Hit.shift]
    omega
  high := by
    have := placed.high
    simp only [Crates.foldText_append, Str.len_append, Hit.shift]
    omega

/-- A hit contributes to the scan of a larger text what it contributes to its
own, moved, when the larger text breaks into words at the same places there. -/
theorem contributes_inside (front back : Str) (nonempty : ∀ term ∈ patterns, term ≠ [])
    (sound : hit.Sound (patterns.map Utf8.bytes) (Utf8.bytes (crates.foldText text)))
    (spelled : whole = front ++ (text ++ back))
    (breaks : ∀ offset ≤ Str.len text,
      crates.WordBoundary whole (offset + Str.len front) ↔ crates.WordBoundary text offset)
    (contributed : contributes crates ⟨text, ⟨crates.foldText text, sourceStarts crates text⟩, lang, mode,
      patterns⟩ hit = .ok outcome) :
    contributes crates ⟨whole, ⟨crates.foldText whole, sourceStarts crates whole⟩, lang, mode, patterns⟩
      (hit.shift (Str.len (crates.foldText front))) = .ok (outcome.map (moved (Str.len front))) := by
  subst spelled
  obtain ⟨term, before, middle, after, placed⟩ := placed_exists nonempty sound
  rw [contributes_placed placed, Except.ok.injEq] at contributed
  have bound : Str.len before + Str.len middle ≤ Str.len text := by
    rw [placed.cut, Str.len_append, Str.len_append]
    omega
  have accepts : Accepts crates mode (front ++ (text ++ back)) (Str.len before + Str.len front)
        (Str.len before + Str.len middle + Str.len front) ↔
      Accepts crates mode text (Str.len before) (Str.len before + Str.len middle) := by
    simp only [Accepts, isWordBoundary_iff, breaks _ bound, breaks _ (Nat.le_of_add_right_le bound)]
  rw [contributes_placed (placed_inside placed front back), Str.len_append, Nat.add_comm (Str.len front),
    Nat.add_right_comm, if_congr accepts rfl rfl, ← contributed]
  split
  · rfl
  · rfl

/-! ### Both sides of a newline -/

/-- The hits in a text cut at a newline are those of the two sides. -/
theorem hitsOf_split (leftmost : crates.FindsLeftmostLongest) (newline : crates.fold '\n' = ['\n'])
    (nonempty : ∀ term ∈ patterns, term ≠ []) (single : ∀ term ∈ patterns, '\n' ∉ term) (a b : Str) :
    (hitsOf crates (a ++ '\n' :: b) patterns).map (Hit.reading patterns) =
      (hitsOf crates a patterns ++ (hitsOf crates b patterns).map
        (Hit.shift (Str.len (crates.foldText a) + 1))).map (Hit.reading patterns) := by
  have filled := encoded_nonempty nonempty
  have absent : ∀ encoded ∈ patterns.map Utf8.bytes, UInt8.ofNat '\n'.toNat ∉ encoded := by
    intro encoded member
    obtain ⟨term, listed, rfl⟩ := List.mem_map.mp member
    exact fun among => single term listed ((Utf8.mem_bytes_ascii (by decide)).mp among)
  have cut : Utf8.bytes (crates.foldText (a ++ '\n' :: b)) = Utf8.bytes (crates.foldText a) ++
      UInt8.ofNat '\n'.toNat :: Utf8.bytes (crates.foldText b) := by
    rw [Crates.foldText_append, Crates.foldText_cons, newline, Utf8.bytes_append, Utf8.bytes_append]
    rfl
  have searched := leftmost _ (Utf8.bytes (crates.foldText (a ++ '\n' :: b))) filled
  have joined := (leftmost _ (Utf8.bytes (crates.foldText a)) filled).join filled absent
    (leftmost _ (Utf8.bytes (crates.foldText b)) filled)
  rw [Utf8.length_bytes, ← cut] at joined
  exact readings_decode (fun _ _ => Utf8.bytes_injective) (searched.unique joined)

/-- One language reports on a text cut at a newline what it reports on the two
sides, the second part moved behind the newline. -/
theorem full_split (leftmost : crates.FindsLeftmostLongest) (newline : crates.fold '\n' = ['\n'])
    (breaks : crates.BreaksAtNewline) (nonempty : engine.TermsNonempty) (single : SingleLine engine)
    (ending : a.getLast? ≠ some '\r')
    (onA : full crates engine a ⟨crates.foldText a, sourceStarts crates a⟩ mode lang = .ok accepted)
    (onB : full crates engine b ⟨crates.foldText b, sourceStarts crates b⟩ mode lang = .ok accepted') :
    full crates engine (a ++ '\n' :: b)
        ⟨crates.foldText (a ++ '\n' :: b), sourceStarts crates (a ++ '\n' :: b)⟩ mode lang =
      .ok (accepted ++ accepted'.map (moved (Str.len a + 1))) := by
  rw [full_eq] at onA onB ⊢
  cases loaded : engine.terms lang with
  | none =>
    rw [loaded] at onA onB
    obtain rfl := Except.ok.inj onA
    obtain rfl := Except.ok.inj onB
    rfl
  | some patterns =>
    rw [loaded] at onA onB
    have filled := nonempty lang patterns loaded
    have lead : Str.len (a ++ ['\n']) = Str.len a + 1 := Str.len_append a ['\n']
    have folded : Str.len (crates.foldText (a ++ ['\n'])) = Str.len (crates.foldText a) + 1 := by
      rw [Crates.foldText_append, Crates.foldText_cons, newline]
      exact Str.len_append _ ['\n']
    obtain ⟨before, behind⟩ := breaks a b ending
    rw [← lead] at behind ⊢
    -- The first side has nothing before it, the second one `a` and the newline.
    have first := fullHits_map (Hit.shift 0) (moved 0) (fun hit member outcome contributed =>
      contributes_inside [] _ filled
        (soundOn_of_leftmost leftmost nonempty a lang patterns loaded hit member) rfl before contributed) onA
    have second := fullHits_map (Hit.shift (Str.len (crates.foldText (a ++ ['\n'])))) (moved (Str.len (a ++ ['\n'])))
      (fun hit member outcome contributed => contributes_inside _ [] filled
        (soundOn_of_leftmost leftmost nonempty b lang patterns loaded hit member) (by simp)
        (fun offset _ => behind offset) contributed) onB
    have joined := fullHits_append first second
    rw [show Hit.shift 0 = id from rfl, show moved 0 = id from rfl, List.map_id, List.map_id] at joined
    have hits := hitsOf_split leftmost newline filled (single lang patterns loaded) a b
    rw [← folded] at hits
    exact (fullHits_readings hits).trans joined

/-- The groups of two texts joined by a newline are those of the first one,
followed by those of the second one, moved behind the newline. -/
theorem groups_split (folds : crates.FoldsNonempty) (leftmost : crates.FindsLeftmostLongest)
    (newline : crates.fold '\n' = ['\n']) (breaks : crates.BreaksAtNewline) (nonempty : engine.TermsNonempty)
    (single : SingleLine engine) (ending : a.getLast? ≠ some '\r')
    (ran : engine.scan crates (a ++ '\n' :: b) langs mode = .ok (.ok result)) (whole : result.truncated = false) :
    ∃ onA onB, GroupsOf crates engine a langs mode onA ∧ GroupsOf crates engine b langs mode onB ∧
      GroupsOf crates engine (a ++ '\n' :: b) langs mode fun lang => onA lang ++ (onB lang).map (moved (Str.len a + 1)) := by
  have sound := soundOn_of_leftmost leftmost nonempty
  choose onA definedA _ using full_defined nonempty (sound a) mode
  choose onB definedB _ using full_defined nonempty (sound b) mode
  have defined := fun lang =>
    full_split leftmost newline breaks nonempty single ending (definedA lang) (definedB lang)
  have fits := scan_fits ran
  obtain ⟨each, known, _, used, exact⟩ := scan_each folds nonempty (sound (a ++ '\n' :: b)) fits langs mode
  obtain rfl := funext fun lang => Except.ok.inj ((known lang).symm.trans (defined lang))
  rw [exact] at ran
  cases ran
  have short := Nat.not_lt.mp (of_decide_eq_false whole)
  have parts := short
  have sides := fits
  rw [Crates.foldText_append, Str.len_append, Crates.foldText_cons, Str.len_append] at sides
  simp only [List.length_flatMap, List.length_append, List.length_map, List.sum_map_add] at parts
  refine ⟨onA, onB, ⟨by omega, definedA, ?_⟩, ⟨by omega, definedB, ?_⟩, ⟨fits, defined, short⟩⟩
  · rw [List.length_flatMap]
    omega
  · rw [List.length_flatMap]
    omega

/-- Scanning two texts joined by a newline reports, for each requested language,
what scanning the first one reports, followed by what scanning the second one
reports, moved behind the newline. -/
theorem scan_splits_at_newline (folds : crates.FoldsNonempty) (leftmost : crates.FindsLeftmostLongest)
    (newline : crates.fold '\n' = ['\n']) (breaks : crates.BreaksAtNewline) (nonempty : engine.TermsNonempty)
    (single : SingleLine engine) (ending : a.getLast? ≠ some '\r')
    (ran : engine.scan crates (a ++ '\n' :: b) langs mode = .ok (.ok result)) (whole : result.truncated = false) :
    ∃ onA onB, ReportsEach crates engine a langs mode onA ∧ ReportsEach crates engine b langs mode onB ∧
      ReportsEach crates engine (a ++ '\n' :: b) langs mode
        fun lang => onA lang ++ (onB lang).map (moved (Str.len a + 1)) := by
  have sound := soundOn_of_leftmost leftmost nonempty
  obtain ⟨onA, onB, first, second, joined⟩ :=
    groups_split folds leftmost newline breaks nonempty single ending ran whole
  exact ⟨onA, onB, reportsEach_of_groups folds nonempty (sound a) first,
    reportsEach_of_groups folds nonempty (sound b) second, reportsEach_of_groups folds nonempty (sound _) joined⟩

end

theorem scan_splits_at_newline_darn :
    ∃ onA onB, ReportsEach AsciiCrates.crates (AsciiCrates.engine "en" ["darn"]) "Darn it".toList ["en".toList] none onA ∧
      ReportsEach AsciiCrates.crates (AsciiCrates.engine "en" ["darn"]) "oh darn".toList ["en".toList] none onB ∧
      (ReportsEach AsciiCrates.crates (AsciiCrates.engine "en" ["darn"]) "Darn it\noh darn".toList ["en".toList] none
        fun lang => onA lang ++ (onB lang).map (moved 8)) ∧
      onA "en".toList = [⟨"en".toList, "darn".toList, "Darn".toList, 0, 4⟩] ∧
      onB "en".toList = [⟨"en".toList, "darn".toList, "darn".toList, 3, 7⟩] := by
  have single : SingleLine (AsciiCrates.engine "en" ["darn"]) := AsciiCrates.engine_terms "en" (by decide)
  have ran : (AsciiCrates.engine "en" ["darn"]).scan AsciiCrates.crates ("Darn it".toList ++ '\n' :: "oh darn".toList)
      ["en".toList] none = .ok (.ok ⟨[("en".toList, .strict)], [⟨"en".toList, "darn".toList, "Darn".toList, 0, 4⟩,
        ⟨"en".toList, "darn".toList, "darn".toList, 11, 15⟩], false⟩) := by
    decide +kernel
  obtain ⟨onA, onB, first, second, joined⟩ := scan_splits_at_newline AsciiCrates.foldsNonempty
    AsciiCrates.findsLeftmostLongest (by decide +kernel) AsciiCrates.breaksAtNewline
    (AsciiCrates.engine_nonempty "en" (by decide)) single (by decide) ran rfl
  have ranA : (AsciiCrates.engine "en" ["darn"]).scan AsciiCrates.crates "Darn it".toList ["en".toList] none =
      .ok (.ok ⟨[("en".toList, .strict)], [⟨"en".toList, "darn".toList, "Darn".toList, 0, 4⟩], false⟩) := by
    decide +kernel
  have ranB : (AsciiCrates.engine "en" ["darn"]).scan AsciiCrates.crates "oh darn".toList ["en".toList] none =
      .ok (.ok ⟨[("en".toList, .strict)], [⟨"en".toList, "darn".toList, "darn".toList, 3, 7⟩], false⟩) := by
    decide +kernel
  refine ⟨onA, onB, first, second, joined, first.alone_found (by decide) ranA, second.alone_found (by decide) ranB⟩

end VocabVeto.NewlineSplit
