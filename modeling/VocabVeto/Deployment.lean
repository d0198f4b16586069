import VocabVeto.BuildProofs
import VocabVeto.Core.Main
import VocabVeto.Detection
import VocabVeto.EnvValues
import VocabVeto.ScanSoundness
import VocabVeto.ServiceAnswers

/-! From the vendored files to the answers of a server. What the build wrote, the
compiler read, `main` loaded and a request was answered with comes down to two
things a client can check: a reported match is a word of its list, spelled where
the report says; and a report that was not cut off leaves no word of a list that
is scanned by substring unmarked. -/
namespace VocabVeto.Deployment
open Build BuildProofs Detection LeftmostLongest Runs ScanSoundness Service ServiceAnswers ServiceMetrics ServiceProofs
  SpanProofs Tasks TermsProofs

/-! ### What a report says -/

/-- The languages that a request is scanned for. -/
def scanned (loaded : List Lang) (call : CheckRequest) : List Lang :=
  (call.langs.map fun langs => langs.map Str.toAsciiLowercase).getD loaded

/-- The request scans this language by substring: it says so, or says nothing
and that is the language's default. -/
def BySubstring (call : CheckRequest) (lang : Lang) : Prop :=
  call.mode = some "substring".toList ∨ call.mode = none ∧ lang ∈ unspaced

/-- A word of a vendored file: one of its lines, trimmed, and not blank. -/
def IsWord (file : Str) (word : Str) : Prop := word ≠ [] ∧ ∃ line ∈ lines file, trim line = word

/-- A match is a word of its list, and its slice of the text spells it when folded. -/
structure Traced (crates : Crates) (files : Lang → Str) (text : Str) (m : MatchDto) : Prop where
  word : IsWord (files m.lang) m.term
  nonempty : m.start < m.stop
  sliced : Str.slice text m.start m.stop = .ok m.matchedText
  spelled : m.term <:+: crates.foldText m.matchedText

/-- What a report means, to someone who knows the files and the request only. -/
structure Traceable (crates : Crates) (files : Lang → Str) (version : Str) (loaded : List Lang) (call : CheckRequest)
    (report : CheckResponse) : Prop where
  version : report.listVersion = version
  capped : report.found.length ≤ maxMatches ∧ (report.truncated = true → report.found.length = maxMatches)
  served : ∀ lang ∈ scanned loaded call, lang ∈ loaded
  traced : ∀ m ∈ report.found, m.lang ∈ scanned loaded call ∧ Traced crates files call.text m
  /-- No stretch of the text that spells a word is without a match that overlaps it. -/
  complete : report.truncated = false → ∀ lang ∈ scanned loaded call, BySubstring call lang →
    ∀ word, IsWord (files lang) word → ∀ front middle back, call.text = front ++ (middle ++ back) →
      word <:+: crates.foldText middle → ∃ m ∈ report.found, m.lang = lang ∧
        m.start < Str.len front + Str.len middle ∧ Str.len front < m.stop

/-! ### What is deployed -/

/-- A server that a build of these files and some configuration started. -/
inductive Deployed (files : Lang → Str) (version : Str) : ServerState → List Lang → Prop where
  | started {F : Type} (floats : Config.Floats F) (figment : Config.Figment) (builder : Main.PrometheusBuilder F)
      (process : Config.Process) (shown : Char → Bool) (vendor : List (Option DirEntry))
      (vendored : Lang → Except Str Str) (readable : ∀ code ∈ allowlist, vendored code = .ok (files code))
      (plain : ∀ c ∈ version, IsPlain c) (built : Build.main shown version vendor vendored = .ok text)
      (read : readGenerated text = some (included, entries))
      (served : Main.main floats figment builder process (emitTerms entries) included = .ok (.ok (state, loaded))) :
      Deployed files version state loaded

/-- The engine of a server holds the words of its files, for the languages loaded. -/
structure Holds (files : Lang → Str) (version : Str) (state : ServerState) (loaded : List Lang) : Prop where
  version : state.listVersion = version
  compiled : ∀ lang ∈ loaded, lang ∈ allowlist
  terms : ∀ lang, state.engine.terms lang = if lang ∈ loaded then some (wordsOf (files lang)) else none
  languages : ∀ lang, lang ∈ state.engine.languages ↔ lang ∈ loaded

theorem table_of_build {vendored : Lang → Except Str Str} (readable : ∀ code ∈ allowlist, vendored code = .ok (files code))
    (plain : ∀ c ∈ version, IsPlain c) (built : Build.main shown version vendor vendored = .ok text)
    (read : readGenerated text = some (included, entries)) : included = version ∧ loadTerms files = .ok entries := by
  obtain ⟨complete, rfl⟩ := main_ok.mp built
  rw [readGenerated_emit shown plain (entries_plain _)] at read
  obtain ⟨rfl, rfl⟩ := Prod.mk.inj (Option.some.inj read)
  refine ⟨rfl, (loadTermsFrom_readable readable).mp (loadTermsFrom_ok.mpr ⟨fun code listed => ?_, rfl⟩)⟩
  obtain ⟨raw, made, filled⟩ := complete.filled code listed
  exact ⟨raw, made, wordsOf_filled.mpr filled⟩

/-- What a start that succeeds has done. -/
theorem main_served {floats : Config.Floats F} {terms : HashMap Lang (List Str)}
    (served : Main.main floats figment builder process terms version = .ok (.ok (state, loaded))) :
    ∃ cfg patterns, Config.load floats figment process = .ok cfg ∧ resolveLoadedLangs terms cfg.langs = .ok loaded ∧
      gatherPatterns terms loaded ∅ = .ok patterns ∧
      state = ⟨⟨Engine.new patterns, version⟩, cfg.apiKeys, cfg.maxInflight, true⟩ := by
  unfold Main.main at served
  split at served
  · cases served
  rename_i cfg loads
  split at served
  · cases served
  split at served
  · cases served
  rename_i codes resolved
  obtain ⟨patterns, gathered, made⟩ := bind_eq_ok.mp served
  cases made
  exact ⟨cfg, patterns, loads, resolved, gathered, rfl⟩

theorem holds_of_main {floats : Config.Floats F} (built : loadTerms files = .ok entries)
    (served : Main.main floats figment builder process (emitTerms entries) version = .ok (.ok (state, loaded))) :
    Holds files version state loaded := by
  obtain ⟨cfg, patterns, -, resolved, gathered, rfl⟩ := main_served served
  obtain ⟨starts, stops⟩ := resolve_table built cfg.langs
  have known : ∀ code ∈ cfg.langs.getD allowlist, code ∈ allowlist := by
    by_contra unknown
    push Not at unknown
    rw [stops unknown] at resolved
    cases resolved
  obtain ⟨own, again, same⟩ := starts known
  obtain rfl := Except.ok.inj (resolved.symm.trans again)
  have compiled : ∀ code ∈ loaded, code ∈ allowlist := fun code member => known code ((same code).mp member)
  obtain ⟨words, found, held⟩ := gathered_words built compiled
  obtain rfl := Except.ok.inj (gathered.symm.trans found)
  exact ⟨rfl, compiled, terms_of_patterns held, languages_of_patterns held⟩

theorem deployed_holds (deployed : Deployed files version state loaded) : Holds files version state loaded := by
  cases deployed with
  | started floats figment builder process shown vendor vendored readable plain built read served =>
    obtain ⟨rfl, tables⟩ := table_of_build readable plain built read
    exact holds_of_main tables served

/-! ### Reports -/

/-- A report is made of a scan of the request that its body parses to. -/
theorem check_ok {state : AppState} {report : CheckResponse} :
    Check.check crates fromSlice state bytes = .ok (.ok report) ↔
      ∃ call mode langs result, fromSlice bytes = .ok call ∧ call.text ≠ [] ∧ Check.resolveMode call.mode = .ok mode ∧
        Check.scanLangs state.engine call.langs = .ok langs ∧
        state.engine.scan crates call.text langs mode = .ok (.ok result) ∧
        report = ⟨state.listVersion, modeUsedMap result.modeUsed, matchDtos result.found, result.truncated⟩ := by
  constructor
  · intro made
    unfold Check.check at made
    split at made
    · cases made
    rename_i call parsed
    split at made
    · cases made
    rename_i some
    split at made
    · cases made
    rename_i mode resolved
    split at made
    · cases made
    rename_i langs listed
    obtain ⟨outcome, scanned, shown⟩ := bind_eq_ok.mp made
    cases outcome with
    | error e => cases shown
    | ok result =>
      exact ⟨call, mode, langs, result, parsed, by simpa using some, resolved, listed, scanned,
        (Except.ok.inj (Except.ok.inj shown)).symm⟩
  · rintro ⟨call, mode, langs, result, parsed, some, resolved, listed, scanned, rfl⟩
    have filled : call.text.isEmpty = false := List.isEmpty_eq_false_iff.mpr some
    simp only [Check.check, parsed, filled, Bool.false_eq_true, ↓reduceIte, resolved, listed, scanned, Fallible.ok_bind]
    rfl

theorem lowerKnown_ok (made : lowerKnown known refuse list out = .ok langs) :
    langs = out ++ list.map Str.toAsciiLowercase ∧ ∀ lang ∈ list.map Str.toAsciiLowercase, known lang = true := by
  induction list generalizing out with
  | nil => exact ⟨by rw [List.map_nil, List.append_nil]; exact (Except.ok.inj made).symm, List.forall_mem_nil _⟩
  | cons raw list ih =>
    simp only [lowerKnown] at made
    split at made
    · cases made
    · rename_i passed
      obtain ⟨rfl, others⟩ := ih made
      refine ⟨List.append_assoc .., ?_⟩
      rw [List.map_cons, List.forall_mem_cons]
      exact ⟨by simpa using passed, others⟩

section
variable {crates : Crates} {files : Lang → Str} {state : ServerState} {loaded : List Lang} {call : CheckRequest}

theorem scanned_served (holds : Holds files version state loaded) (listed : Check.scanLangs state.engine call.langs = .ok langs) :
    (∀ lang, lang ∈ langs ↔ lang ∈ scanned loaded call) ∧ ∀ lang ∈ scanned loaded call, lang ∈ loaded := by
  unfold scanned
  cases requested : call.langs with
  | none =>
    rw [requested] at listed
    obtain rfl := Except.ok.inj listed
    exact ⟨fun lang => mem_sort.trans (holds.languages lang), fun _ member => member⟩
  | some v =>
    rw [requested, Check.scanLangs] at listed
    split at listed
    · cases listed
    · obtain ⟨rfl, known⟩ := lowerKnown_ok listed
      refine ⟨fun _ => Iff.rfl, fun lang member => (holds.languages lang).mp ?_⟩
      exact AList.mem_keys.mp (AList.lookup_isSome.mp (known lang member))

theorem terms_nonempty (holds : Holds files version state loaded) : state.engine.TermsNonempty := by
  intro lang terms held word member
  rw [holds.terms] at held
  split at held
  · obtain rfl := Option.some.inj held
    exact (((wordsOf_exact (files lang)).exact word).mp member).1
  · cases held

theorem scanned_by_substring (substring : BySubstring call lang) (compiled : lang ∈ allowlist)
    (resolved : Check.resolveMode call.mode = .ok mode) : effectiveMode mode lang = .substring := by
  obtain explicit | ⟨silent, unseparated⟩ := substring
  · rw [explicit] at resolved
    obtain rfl := Except.ok.inj resolved
    rfl
  · rw [silent] at resolved
    obtain rfl := Except.ok.inj resolved
    change resolveDefaultMode lang = .substring
    rw [mode_default lang compiled, if_pos unseparated]

theorem traced_of_reported (holds : Holds files version state loaded)
    (reported : Reported crates state.engine text mode lang m) :
    Traced crates files text ⟨m.lang, m.term, m.matchedText, m.start, m.stop⟩ := by
  obtain ⟨patterns, hit, term, before, middle, after, held, -, placed, -, rfl⟩ := reported
  rw [holds.terms] at held
  split at held
  · obtain rfl := Option.some.inj held
    refine ⟨((wordsOf_exact (files lang)).exact term).mp (List.mem_of_getElem? placed.selected),
      widened_nonempty placed.range, ?_, placed_spelled placed⟩
    change Str.slice text (Str.len before) (Str.len before + Str.len middle) = .ok middle
    rw [placed.cut]
    exact Str.slice_append before middle after
  · cases held

/-- Where a loaded word is spelled, its language's hits reach into that stretch. -/
theorem spelled_reported {engine : Engine} (leftmost : crates.FindsLeftmostLongest) (nonempty : engine.TermsNonempty)
    (substring : effectiveMode mode lang = .substring) (held : engine.terms lang = some patterns)
    (member : word ∈ patterns) (spelled : word <:+: crates.foldText middle) :
    ∃ m, Reported crates engine (front ++ (middle ++ back)) mode lang m ∧ m.lang = lang ∧
      m.start < Str.len front + Str.len middle ∧ Str.len front < m.stop := by
  obtain ⟨left, ch, right, i, split, occurs, within⟩ :=
    occurrence_in_middle (nonempty lang patterns held word member) front back spelled
  obtain ⟨hit, among, -, -, -, own, before, inside, after, placed, low, high⟩ :=
    covering_hit leftmost nonempty held member occurs
      (show front ++ (middle ++ back) = (front ++ left) ++ ch :: (right ++ back) by simp [split]) within
  refine ⟨entry lang own before inside, ⟨patterns, hit, own, before, inside, after, held, among, placed, ?_, rfl⟩, rfl, ?_⟩
  · intro strict
    rw [substring] at strict
    cases strict
  · have positive := ch.utf8Size_pos
    have width : Str.len middle = Str.len left + (ch.utf8Size + Str.len right) := by
      rw [split, Str.len_append, Str.len_cons]
    rw [Str.len_append] at low high
    simp only [entry]
    omega

theorem report_traceable (folds : crates.FoldsNonempty) (leftmost : crates.FindsLeftmostLongest)
    (holds : Holds files version state loaded) {report : CheckResponse}
    (made : Check.check crates fromSlice state.toAppState bytes = .ok (.ok report)) :
    ∃ call, fromSlice bytes = .ok call ∧ Traceable crates files version loaded call report := by
  obtain ⟨call, mode, langs, result, parsed, -, resolved, listed, ran, rfl⟩ := check_ok.mp made
  obtain ⟨same, served⟩ := scanned_served holds listed
  have nonempty := terms_nonempty holds
  have sound := soundOn_of_leftmost leftmost nonempty call.text
  refine ⟨call, parsed, holds.version, ?_, served, fun m member => ?_, fun whole lang asked substring word isWord front middle
    back cut spelled => ?_⟩
  · obtain ⟨each, -, used, exact⟩ := scan_eq folds nonempty sound (scan_fits ran) langs mode
    rw [exact] at ran
    cases ran
    constructor
    · simp [matchDtos]
    · intro beyond
      simpa [matchDtos] using Nat.le_of_lt (of_decide_eq_true beyond)
  · obtain ⟨entry, found, rfl⟩ := List.mem_map.mp member
    obtain ⟨lang, asked, reported⟩ := reported_of_scan folds nonempty sound ran found
    refine ⟨(same _).mp ?_, traced_of_reported holds reported⟩
    obtain ⟨_, _, _, _, _, _, _, _, _, _, rfl⟩ := reported
    exact asked
  · have held := holds.terms lang
    rw [if_pos (served lang asked)] at held
    obtain ⟨m, reported, own, starts, stops⟩ := spelled_reported leftmost nonempty
      (scanned_by_substring substring (holds.compiled lang (served lang asked)) resolved) held
      (((wordsOf_exact (files lang)).exact word).mpr isWord) spelled
    rw [← cut] at reported
    exact ⟨_, List.mem_map_of_mem (scan_complete folds nonempty sound ran whole ((same lang).mpr asked) reported),
      own, starts, stops⟩

end

/-- A call is answered with the outcome of its check, unless its body is too large. -/
theorem rendered_outcome {state : ServerState}
    (made : (Check.limitedCheck crates fromSlice state.toAppState bytes).map (rendered state) = .ok resp) :
    Check.rawBodyLimitBytes < bytes.length ∧ resp = rendered state (.error .payloadTooLarge) ∨
      bytes.length ≤ Check.rawBodyLimitBytes ∧ ∃ outcome,
        Check.check crates fromSlice state.toAppState bytes = .ok outcome ∧ resp = rendered state outcome := by
  unfold Check.limitedCheck at made
  split at made
  · rename_i large
    exact .inl ⟨large, (Except.ok.inj made).symm⟩
  · rename_i small
    cases checked : Check.check crates fromSlice state.toAppState bytes with
    | error panic =>
      rw [checked] at made
      cases made
    | ok outcome =>
      rw [checked] at made
      exact .inr ⟨Nat.not_lt.mp small, outcome, rfl, (Except.ok.inj made).symm⟩

theorem outcome_success {state : ServerState} {outcome : Except ApiError CheckResponse}
    (success : (rendered state outcome).status = 200) : ∃ report, outcome = .ok report := by
  cases outcome with
  | ok report => exact ⟨report, rfl⟩
  | error e =>
    have failed : e.parts.1 = 200 := (status_parts e).symm.trans success
    cases e <;> cases failed

/-- A call that succeeds was small enough, and answered with a report of its check. -/
theorem rendered_report {state : ServerState}
    (made : (Check.limitedCheck crates fromSlice state.toAppState bytes).map (rendered state) = .ok resp)
    (success : resp.status = 200) : bytes.length ≤ Check.rawBodyLimitBytes ∧ ∃ report,
      Check.check crates fromSlice state.toAppState bytes = .ok (.ok report) ∧ resp = rendered state (.ok report) := by
  obtain ⟨-, rfl⟩ | ⟨small, outcome, checked, rfl⟩ := rendered_outcome made
  · cases success
  · obtain ⟨report, rfl⟩ := outcome_success success
    exact ⟨small, report, checked, rfl⟩

/-- A call that the gate lets through is answered with the outcome of its check. -/
theorem call_answer {crates : Crates} {http : HttpCrates} (limits : http.LimitsBodies)
    (run : Serves crates http fromSlice state loaded log pool) (calls : Calls state request)
    (given : (request, resp) ∈ answers pool) (entered : resp.status ≠ 503) :
    (Check.limitedCheck crates fromSlice state.toAppState request.body).map (rendered state) = .ok resp := by
  obtain made | ⟨-, rfl⟩ := answer_given run given
  · rwa [answer_calls limits calls] at made
  · exact absurd (ServiceCourses.sent_status _ _) entered

/-- In every run of a deployed server, a call of `/v1/check` that succeeds was
answered with a report that can be traced to the vendored files. -/
theorem reports_traceable {crates : Crates} {http : HttpCrates} (folds : crates.FoldsNonempty)
    (leftmost : crates.FindsLeftmostLongest) (limits : http.LimitsBodies)
    (deployed : Deployed files version state loaded) (run : Serves crates http fromSlice state loaded log pool)
    (calls : Calls state request) (given : (request, resp) ∈ answers pool) (success : resp.status = 200) :
    ∃ call report, fromSlice request.body = .ok call ∧ resp.body = .check report ∧
      Traceable crates files version loaded call report := by
  have made := call_answer limits run calls given (by rw [success]; decide)
  obtain ⟨-, report, checked, rfl⟩ := rendered_report made success
  obtain ⟨call, parsed, traceable⟩ := report_traceable folds leftmost (deployed_holds deployed) checked
  exact ⟨call, report, parsed, rfl, traceable⟩

/-! ### A server of one language -/

/-- The environment that makes the narrow server. -/
def configured : Config.Process where
  vars := [("VV_API_KEYS".toList, "key".toList), ("VV_LANGS".toList, "EN".toList),
    ("VV_MAX_INFLIGHT".toList, "1".toList)]
  pathExists _ := false

/-- Whatever the files look like, this is the server of their one word. -/
theorem narrow_deployed (words : wordsOf file = ["foo".toList]) :
    Deployed (fun _ => file) "1f".toList narrow ["en".toList] := by
  have filled : ∃ line ∈ lines file, trim line ≠ [] := wordsOf_filled.mp (by rw [words]; decide)
  have plain : ∀ c ∈ "1f".toList, IsPlain c := plain_of_all rfl
  have built : Build.main (fun _ => true) "1f".toList bare (fun _ => .ok file) = .ok _ :=
    main_ok.mpr ⟨bare_complete filled, rfl⟩
  have read := readGenerated_emit (fun _ => true) plain (entries_plain fun _ => wordsOf file)
  have readable : ∀ code ∈ allowlist, (.ok file : Except Str Str) = .ok ((fun _ => file : Lang → Str) code) := fun _ _ => rfl
  obtain ⟨-, tables⟩ := table_of_build readable plain built read
  refine .started EnvValues.wholeFloats EnvValues.plainFigment ⟨fun _ _ => .ok (), .ok ()⟩ configured (fun _ => true) bare
    (fun _ => .ok file) readable plain built read ?_
  have loads : Config.load EnvValues.wholeFloats EnvValues.plainFigment configured =
      .ok ⟨Config.defaultListenAddr, [Utf8.bytes "key".toList], some ["en".toList], 1, none⟩ := by decide +kernel
  have held : (emitTerms (allowlist.map fun code => (code, wordsOf file))).lookup "en".toList = some ["foo".toList] := by
    rw [lookup_table tables, if_pos (by decide), words]
  have resolved : resolveLoadedLangs (emitTerms (allowlist.map fun code => (code, wordsOf file)))
      (some ["en".toList]) = .ok ["en".toList] := by
    simp only [resolveLoadedLangs, List.filter, held]
    rfl
  simp only [Main.main, loads, Main.installRecorder, resolved, gatherPatterns, held]
  rfl

/-- The body of one request, parsed. -/
def greeting : FromSlice := fun _ => .ok ⟨"oh Foo".toList, some ["EN".toList], some "substring".toList⟩

/-- What the narrow server answers to it. -/
theorem narrow_greeted : ∃ log pool, Serves AsciiCrates.crates AsciiCrates.http greeting narrow ["en".toList] log pool ∧
    answers pool = [(keyed, rendered narrow (.ok ⟨"1f".toList, [("en".toList, "substring".toList)],
      [⟨"en".toList, "foo".toList, "Foo".toList, 3, 6⟩], false⟩))] := by
  have played : (play (system AsciiCrates.crates AsciiCrates.http greeting narrow).step ⟨startup narrow ["en".toList], []⟩
      (.spawn keyed :: List.replicate 8 (.advance 0))).map (fun reached => answers reached.2) =
    some [(keyed, rendered narrow (.ok ⟨"1f".toList, [("en".toList, "substring".toList)],
      [⟨"en".toList, "foo".toList, "Foo".toList, 3, 6⟩], false⟩))] := by decide +kernel
  exact serves_of_play played

theorem narrow_calls (bytes : List UInt8) : Calls narrow { keyed with body := bytes } :=
  ⟨rfl, rfl, ⟨_, rfl⟩, nofun, rfl⟩

theorem reports_traceable_foo : ∃ resp : Response, resp.status = 200 ∧ ∃ call report, greeting [] = .ok call ∧
    resp.body = .check report ∧ Traceable AsciiCrates.crates (fun _ => "foo\n".toList) "1f".toList ["en".toList] call report := by
  obtain ⟨log, pool, run, answered⟩ := narrow_greeted
  refine ⟨_, rfl, reports_traceable AsciiCrates.foldsNonempty AsciiCrates.findsLeftmostLongest AsciiCrates.http_limitsBodies
    (narrow_deployed (by decide)) run (narrow_calls []) (by rw [answered]; exact List.mem_singleton_self _) rfl⟩

end VocabVeto.Deployment
