import VocabVeto.Core.Command
import VocabVeto.Parity
import VocabVeto.ServiceAnswers
import VocabVeto.SpanProofs

/-! The command line beyond one body: its flags mean what the body means that
they spell, `--verbose` explains a check and changes nothing else, and the other
two commands print what the server answers. -/
namespace VocabVeto.CommandLine
open Cli Parity Runs ScanReference Service ServiceAnswers ServiceCourses ServiceMetrics ServiceProofs Tasks TermsProofs
open SpanProofs (contributes_ok)

/-! ### Flags -/

section
variable {terms : HashMap Lang (List Str)} {fromSlice : FromSlice} {host : Host} {args : CheckArgs}

/-- The request that the flags spell: no `--lang` is no list, and every entry is trimmed. -/
def spelled (args : CheckArgs) (text : Str) : CheckRequest :=
  ⟨text, if args.lang.isEmpty then none else some (args.lang.map trim), args.mode⟩

theorem argvLangs_spelled (text : Str) : argvLangs terms args.lang = bodyLangs terms (spelled args text).langs := by
  unfold argvLangs spelled
  cases args.lang with
  | nil => rfl
  | cons first rest => rfl

/-- The same check, with the flags written out as a body. -/
structure Spells (fromSlice : FromSlice) (host : Host) (args : CheckArgs) (host' : Host) (args' : CheckArgs) : Prop where
  flags : args.jsonInput = none
  body : ∃ text path bytes, readTextArgv host args = .ok text ∧ args'.jsonInput = some path ∧
    host'.readBytes path = .ok bytes ∧ fromSlice bytes = .ok (spelled args text)
  output : args'.output = args.output
  verbose : args'.verbose = args.verbose
  write : host'.write = host.write

theorem inputs_spelled (spells : Spells fromSlice host args host' args') :
    resolveCheckInputs terms fromSlice host args = resolveCheckInputs terms fromSlice host' args' := by
  obtain ⟨text, path, bytes, read, input, held, parsed⟩ := spells.body
  simp only [resolveCheckInputs, spells.flags, input, held, read, argvLangs_spelled text, Except.mapError, bind, Except.bind,
    parsed]
  rfl

/-- Flags and a `--json-input` body that says the same give the same check: what
is printed on either stream, and how the command exits. -/
theorem flags_mean_body (crates : Crates) (terms : HashMap Lang (List Str)) (listVersion : Str)
    (spells : Spells fromSlice host args host' args') :
    runCheck crates fromSlice terms listVersion host args = runCheck crates fromSlice terms listVersion host' args' := by
  simp only [runCheck, inputs_spelled spells, spells.output, spells.verbose, spells.write]

end

/-- The flags of the body that the parity example is piped. -/
def darnFlags : CheckArgs := ⟨some "oh Darn".toList, none, false, none, ["DE".toList, " EN".toList], none, .json, false⟩

theorem flags_mean_body_darn : runCheck AsciiCrates.crates darnSlice darnTerms "5faf2ba".toList darnHost darnFlags =
    runCheck AsciiCrates.crates darnSlice darnTerms "5faf2ba".toList darnHost darnArgs :=
  flags_mean_body AsciiCrates.crates darnTerms "5faf2ba".toList
    ⟨rfl, ⟨"oh Darn".toList, "-".toList, darnBody, rfl, rfl, rfl, by decide +kernel⟩, rfl, rfl, rfl⟩

/-! ### Tallies -/

/-- A tally of the matches of a result: one entry for each language that was
scanned, in that order, and each match counted once, for the first entry of its language. -/
structure Tallies (result : ScanResult) (tally : List (Lang × Nat)) : Prop where
  order : tally.map Prod.fst = result.modeUsed.map Prod.fst
  counts : ∀ lang ∈ result.modeUsed.map Prod.fst,
    tally.lookup lang = some (result.found.countP fun m => m.lang == lang)
  total : (tally.map Prod.snd).sum = result.found.length

theorem bumpFirst_keys (lang : Lang) (tally : List (Lang × Nat)) :
    (bumpFirst lang tally).map Prod.fst = tally.map Prod.fst := by
  induction tally with
  | nil => rfl
  | cons entry tally ih =>
    obtain ⟨first, n⟩ := entry
    unfold bumpFirst
    split
    · rfl
    · exact congrArg (List.cons first) ih

theorem bumpFirst_lookup (lang : Lang) (tally : List (Lang × Nat)) (asked : Lang) :
    (bumpFirst lang tally).lookup asked = (tally.lookup asked).map fun n => n + if lang = asked then 1 else 0 := by
  induction tally with
  | nil => rfl
  | cons entry tally ih =>
    obtain ⟨first, n⟩ := entry
    unfold bumpFirst
    by_cases same : first = lang
    · subst same
      rw [if_pos rfl, List.lookup_cons, List.lookup_cons]
      by_cases own : asked = first
      · simp [own]
      · have other : ¬ first = asked := fun named => own named.symm
        simp [beq_eq_false_iff_ne.mpr own, other]
    · rw [if_neg same, List.lookup_cons, List.lookup_cons, ih]
      by_cases own : asked = first
      · subst own
        simp [Ne.symm same]
      · simp [beq_eq_false_iff_ne.mpr own]

theorem bumpFirst_total (named : lang ∈ tally.map Prod.fst) :
    ((bumpFirst lang tally).map Prod.snd).sum = (tally.map Prod.snd).sum + 1 := by
  induction tally with
  | nil => cases named
  | cons entry tally ih =>
    obtain ⟨first, n⟩ := entry
    unfold bumpFirst
    split
    · simp
      omega
    · rename_i other
      have later : lang ∈ tally.map Prod.fst := (List.mem_cons.mp named).resolve_left (Ne.symm other)
      simp only [List.map_cons, List.sum_cons, ih later]
      omega

/-- The loop counts every match at its language. -/
theorem tally_found (found : List Match) (tally : List (Lang × Nat)) (named : ∀ m ∈ found, m.lang ∈ tally.map Prod.fst) :
    let counted := found.foldl (fun tally m => bumpFirst m.lang tally) tally
    counted.map Prod.fst = tally.map Prod.fst ∧
      (∀ lang, counted.lookup lang = (tally.lookup lang).map fun n => n + found.countP fun m => m.lang == lang) ∧
      (counted.map Prod.snd).sum = (tally.map Prod.snd).sum + found.length := by
  induction found generalizing tally with
  | nil => simp
  | cons m found ih =>
    obtain ⟨own, others⟩ := List.forall_mem_cons.mp named
    rw [← bumpFirst_keys m.lang tally] at others
    obtain ⟨keys, counts, total⟩ := ih (bumpFirst m.lang tally) others
    refine ⟨keys.trans (bumpFirst_keys _ _), fun lang => ?_, ?_⟩
    · rw [List.foldl_cons, counts, bumpFirst_lookup, Option.map_map]
      congr 1
      funext n
      simp only [Function.comp_apply, List.countP_cons, beq_iff_eq]
      omega
    · rw [List.foldl_cons, total, bumpFirst_total own, List.length_cons]
      omega

/-- A match is reported for a language that was scanned by then. -/
theorem scanLangs_named {engine : Engine} {norm : Normalized} (langs : List Lang) (known : ∀ m ∈ found, m.lang ∈ used.map Prod.fst)
    (ran : scanLangs crates engine text norm mode langs used found = .ok result) :
    ∀ m ∈ result.found, m.lang ∈ result.modeUsed.map Prod.fst := by
  induction langs generalizing used found with
  | nil =>
    obtain rfl := Except.ok.inj ran
    exact known
  | cons lang langs ih =>
    have grown : ∀ m ∈ found, m.lang ∈ (used ++ [(lang, mode.getD (resolveDefaultMode lang))]).map Prod.fst := by
      intro m member
      rw [List.map_append]
      exact List.mem_append_left _ (known m member)
    simp only [scanLangs] at ran
    cases held : engine.automata.lookup lang with
    | none =>
      rw [held] at ran
      exact ih grown ran
    | some stored =>
      obtain ⟨ac, patterns⟩ := stored
      rw [held] at ran
      obtain ⟨⟨out, capped⟩, searched, continued⟩ := bind_eq_ok.mp ran
      have named : ∀ m ∈ out, m.lang ∈ (used ++ [(lang, mode.getD (resolveDefaultMode lang))]).map Prod.fst := by
        intro m member
        obtain earlier | ⟨hit, -, contributed⟩ := scanHits_members _ searched member
        · exact grown m earlier
        · obtain ⟨_, _, _, _, _, own⟩ := contributes_ok contributed
          rw [own, List.map_append]
          exact List.mem_append_right _ List.mem_cons_self
      cases capped with
      | true =>
        obtain rfl := Except.ok.inj continued
        exact named
      | false => exact ih named continued

theorem scan_named {engine : Engine} (ran : engine.scan crates text langs mode = .ok (.ok result)) :
    ∀ m ∈ result.found, m.lang ∈ result.modeUsed.map Prod.fst := by
  unfold Engine.scan at ran
  split at ran
  · cases ran
  · obtain ⟨own, walked, made⟩ := bind_eq_ok.mp ran
    obtain rfl := Except.ok.inj (Except.ok.inj made)
    exact scanLangs_named langs (List.forall_mem_nil _) walked

theorem lookup_zero {used : List (Lang × Mode)} (member : lang ∈ used.map Prod.fst) :
    (used.map fun entry => (entry.1, 0)).lookup lang = some 0 := by
  induction used with
  | nil => cases member
  | cons entry used ih =>
    rw [List.map_cons, List.lookup_cons]
    by_cases own : lang = entry.1
    · simp [own]
    · rw [beq_eq_false_iff_ne.mpr own]
      exact ih ((List.mem_cons.mp member).resolve_left own)

/-- The line of one entry of a tally. -/
def tallyLine (entry : Lang × Nat) : Str := "vv: ".toList ++ entry.1 ++ " matches=".toList ++ decimal entry.2

theorem tallyLines_exact {engine : Engine} (ran : engine.scan crates text langs mode = .ok (.ok result)) :
    ∃ tally, Tallies result tally ∧ tallyLines result = tally.map tallyLine ++
      if result.truncated then ["vv: truncated at 256".toList] else [] := by
  have zero : (result.modeUsed.map fun entry => (entry.1, 0)).map Prod.fst = result.modeUsed.map Prod.fst := by
    rw [List.map_map]
    rfl
  obtain ⟨keys, counts, total⟩ := tally_found result.found (result.modeUsed.map fun entry => (entry.1, 0))
    (by rw [zero]; exact scan_named ran)
  refine ⟨_, ⟨keys.trans zero, fun lang member => ?_, ?_⟩, rfl⟩
  · rw [counts, lookup_zero member, Option.map_some, Nat.zero_add]
  · rw [total, List.map_map]
    simp [Function.comp_def]

/-- A check that says more, and does the same. -/
structure Explains (lines : List Str) (quiet loud : Printed × Fallible ExitKind) : Prop where
  stdout : loud.1.stdout = quiet.1.stdout
  exits : loud.2 = quiet.2
  stderr : loud.1.stderr = lines ++ quiet.1.stderr

/-- `--verbose` changes neither what is printed nor how the command exits. It puts
lines before the other diagnostics: what is scanned, then an exact tally of the matches. -/
theorem verbose_explains (crates : Crates) (fromSlice : FromSlice) (terms : HashMap Lang (List Str)) (listVersion : Str)
    (host : Host) (args : CheckArgs) :
    ∃ lines, Explains lines (runCheck crates fromSlice terms listVersion host { args with verbose := false })
        (runCheck crates fromSlice terms listVersion host { args with verbose := true }) ∧
      ∀ text langs mode, resolveCheckInputs terms fromSlice host args = .ok (text, langs, mode) →
        ∃ after, lines = inputLine text langs mode :: after ∧
          ∀ result, (buildEngine terms).scan crates text langs mode = .ok (.ok result) → ∃ tally, Tallies result tally ∧
            after = tally.map tallyLine ++ if result.truncated then ["vv: truncated at 256".toList] else [] := by
  have inputs : ∀ verbose, resolveCheckInputs terms fromSlice host { args with verbose := verbose } =
      resolveCheckInputs terms fromSlice host args := fun _ => rfl
  simp only [runCheck, inputs]
  cases resolveCheckInputs terms fromSlice host args with
  | error e =>
    refine ⟨[], ?_, fun _ _ _ resolved => by cases resolved⟩
    cases e <;> exact ⟨rfl, rfl, rfl⟩
  | ok resolved =>
    obtain ⟨text, langs, mode⟩ := resolved
    dsimp only
    cases ran : (buildEngine terms).scan crates text langs mode with
    | error panic =>
      refine ⟨[inputLine text langs mode], ⟨rfl, rfl, rfl⟩, ?_⟩
      rintro _ _ _ ⟨⟩
      exact ⟨[], rfl, fun result other => by rw [ran] at other; cases other⟩
    | ok outcome =>
      cases outcome with
      | error e =>
        cases e
        refine ⟨[inputLine text langs mode], ⟨rfl, rfl, rfl⟩, ?_⟩
        rintro _ _ _ ⟨⟩
        exact ⟨[], rfl, fun result other => by rw [ran] at other; cases other⟩
      | ok result =>
        refine ⟨inputLine text langs mode :: tallyLines result, ?_, ?_⟩
        · cases written : host.write (render listVersion result args.output) with
          | mk reached failed =>
            cases failed with
            | none => exact ⟨by simp [written], by simp [written], by simp [written]⟩
            | some e => exact ⟨by simp [written], by simp [written], by simp [written]⟩
        · rintro _ _ _ ⟨⟩
          refine ⟨_, rfl, fun other same => ?_⟩
          obtain rfl := Except.ok.inj (Except.ok.inj (ran.symm.trans same))
          exact tallyLines_exact ran

/-! ### The other commands -/

/-- What the two commands print of these tables and of this version. -/
structure Mirrors (terms : HashMap Lang (List Str)) (listVersion : Str) (request : HttpRequest) (body : Body) : Prop where
  languages : request.path = "/v1/languages".toList → ∃ entries, body = .languages entries ∧ ∀ stdout,
    runLanguages terms stdout .json = leave stdout [.json entries] ∧
      runLanguages terms stdout .plain = leave stdout (entries.map fun entry => .row (languageRow entry))
  version : request.path = "/readyz".toList → ∃ count, body = .ready ⟨true, some listVersion, some count⟩ ∧
    ∀ crateVersion stdout,
      runVersion terms crateVersion listVersion stdout .json = leave stdout [.json ⟨crateVersion, listVersion, count⟩] ∧
      runVersion terms crateVersion listVersion stdout .plain =
        leave stdout [.row (versionRow ⟨crateVersion, listVersion, count⟩)]

theorem length_languages {engine : Engine} (loads : LoadsAll terms engine) : engine.languages.length = terms.keys.length :=
  (keys_perm fun lang => by rw [loads, Option.isSome_map]).length_eq

section
variable {crates : Crates} {http : HttpCrates} {fromSlice : FromSlice} {state : ServerState} {request : HttpRequest}
  {resp : Response}

/-- What is refused before its handler is a failure. -/
theorem entry_fails (limits : http.LimitsBodies) (refused : entry http state request = .error (resp, samples)) :
    resp.status ≠ 200 := by
  simp only [entry] at refused
  split at refused
  · obtain ⟨rfl, -⟩ := Prod.mk.inj (Except.error.inj refused)
    exact fun success => by cases success
  · cases limited : http.bodyLimit Check.rawBodyLimitBytes request with
    | ok body =>
      rw [limited] at refused
      cases refused
    | error own =>
      rw [limited] at refused
      obtain ⟨rfl, -⟩ := Prod.mk.inj (Except.error.inj refused)
      rw [remapped, if_pos (limits.own _ _ _ limited)]
      exact fun success => by cases success

theorem remapped_success (success : (remapped resp).status = 200) : remapped resp = resp := by
  unfold remapped at success ⊢
  split
  · rename_i large
    rw [if_pos large] at success
    cases success
  · rfl

/-- A success of a route for reading is what the route answers. -/
theorem got_success (plain : http.AnswersPlainly) (success : (got http request resp).status = 200) :
    got http request resp = resp := by
  unfold got at success ⊢
  split
  · rfl
  · rename_i other
    rw [if_neg other, (plain.methodNotAllowed request).status] at success
    cases success

theorem route_mirrors (plain : http.AnswersPlainly) (limits : http.LimitsBodies) (loads : LoadsAll terms state.engine)
    (own : routeAnswer crates http fromSlice state true request = .ok resp) (success : resp.status = 200) :
    Mirrors terms state.listVersion request resp.body := by
  constructor
  · intro path
    refine ⟨(compiledLangs terms).map fun code => ⟨code, (resolveDefaultMode code).asWireStr⟩, ?_, fun stdout => ⟨rfl, ?_⟩⟩
    · have other : "/v1/languages".toList ≠ "/v1/check".toList := by decide
      rw [routeAnswer, path, if_neg other, if_pos rfl] at own
      split at own
      · rename_i refused entered
        obtain ⟨inner, samples⟩ := refused
        obtain rfl := Except.ok.inj own
        exact absurd (show inner.status = 200 from success) (entry_fails limits entered)
      · obtain rfl := Except.ok.inj own
        have kept := remapped_success (show (remapped _).status = 200 from success)
        have reads : (got http request (Service.languages state.engine)).status = 200 := kept ▸ success
        rw [kept, got_success plain reads, ← sort_languages loads]
        rfl
    · rw [runLanguages, List.map_map]
      rfl
  · intro path
    have apart : "/readyz".toList ≠ "/v1/check".toList ∧ "/readyz".toList ≠ "/v1/languages".toList ∧
        "/readyz".toList ≠ "/healthz".toList := by decide
    rw [routeAnswer, path, if_neg apart.1, if_neg apart.2.1, if_neg apart.2.2, if_pos rfl] at own
    obtain rfl := Except.ok.inj own
    rw [got_success plain success]
    refine ⟨terms.keys.length, ?_, fun crateVersion stdout => ⟨rfl, rfl⟩⟩
    rw [← length_languages loads]
    rfl

/-- In every run of a server that holds every compiled language, what it answers to
`GET` about its languages and its readiness is what `vv languages` and
`vv version` print. -/
theorem commands_mirror_answers (plain : http.AnswersPlainly) (limits : http.LimitsBodies)
    (run : Serves crates http fromSlice state loaded log pool) (loads : LoadsAll terms state.engine)
    (given : (request, resp) ∈ answers pool) (getting : request.method = .get) (success : resp.status = 200) :
    Mirrors terms state.listVersion request resp.body := by
  obtain made | ⟨-, rfl⟩ := answer_given run given
  · obtain ⟨inner, below, rfl⟩ := answer_sent made
    rw [sent_body (by rw [getting]; decide)] at success ⊢
    exact route_mirrors plain limits loads below success
  · rw [overloadedAnswer, sent_status] at success
    cases success

end

theorem commands_mirror_answers_foo : ∃ resp : Response, resp.status = 200 ∧
    Mirrors (AList.insert "en".toList ["foo".toList] ∅) "1f".toList listing resp.body := by
  have run := run_of_play (show play (system AsciiCrates.crates AsciiCrates.http unparsed narrow).step
    ⟨startup narrow ["en".toList], []⟩ [.spawn listing, .advance 0, .advance 0] = some _ from rfl)
  have loads : LoadsAll (AList.insert "en".toList ["foo".toList] ∅) narrow.engine := new_loadsAll fun _ => rfl
  exact ⟨_, rfl, commands_mirror_answers AsciiCrates.http_answersPlainly AsciiCrates.http_limitsBodies run loads
    List.mem_cons_self rfl rfl⟩

end VocabVeto.CommandLine
