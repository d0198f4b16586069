import VocabVeto.ServiceProofs

/-! The metrics of `observability.rs` against what the server really answered.
Every request contributes the samples of its own course, whatever the order in
which they reach the recorder; so once all requests are over, each counter is the
number of answers it stands for. -/
namespace VocabVeto.ServiceMetrics
open Runs Tasks Service ServiceCourses ServiceProofs

/-! ### What a response tells -/

@[simp] theorem insert_status (resp : Response) (name value : Str) : (resp.insert name value).status = resp.status := rfl

@[simp] theorem insert_body (resp : Response) (name value : Str) : (resp.insert name value).body = resp.body := rfl

/-- The report in a response. -/
def reportOf (resp : Response) : Option CheckResponse :=
  match resp.body with
  | .check report => some report
  | _ => none

/-- The routes that need authentication. -/
def IsV1 (path : Str) : Prop := path = "/v1/check".toList ∨ path = "/v1/languages".toList

instance : DecidablePred IsV1 := fun _ => inferInstanceAs (Decidable (_ ∨ _))

/-- Why a request is refused its authentication, when it is. -/
def refusalOf (state : ServerState) (request : HttpRequest) : Option UnauthorizedReason :=
  if IsV1 request.path then
    match Auth.check state.apiKeys request.headers with
    | .error reason => some reason
    | .ok _ => none
  else none

theorem reportOf_intoResponse (e : ApiError) : reportOf e.intoResponse = none := by
  cases e <;> rfl

theorem reportOf_versioned (state : ServerState) (resp : Response) : reportOf (versioned state resp) = reportOf resp :=
  rfl

theorem reportOf_sent (request : HttpRequest) (silent : reportOf resp = none) : reportOf (sent request resp) = none := by
  unfold sent
  split
  · rfl
  · exact silent

theorem sent_body {request : HttpRequest} (other : request.method ≠ .head) (resp : Response) : sent request resp = resp :=
  if_neg other

theorem reportOf_remapped (resp : Response) (kept : resp.status ≠ 413) : reportOf (remapped resp) = reportOf resp := by
  rw [remapped, if_neg kept]

/-- An answer, and what the metrics below the RED layer say about it. -/
inductive Tells (state : ServerState) (request : HttpRequest) : List Sample → Response → Prop where
  | refused {reason : UnauthorizedReason} {resp : Response} (refusal : refusalOf state request = some reason)
      (silent : reportOf resp = none) : Tells state request [.authFailuresTotal reason.asStr] resp
  | unreported {samples : List Sample} {resp : Response} (entered : refusalOf state request = none)
      (early : ∀ sample ∈ samples, IsEarly sample) (silent : reportOf resp = none) : Tells state request samples resp
  | reported {early : List Sample} {resp : Response} {report : CheckResponse} (entered : refusalOf state request = none)
      (before : ∀ sample ∈ early, IsEarly sample) (shown : reportOf resp = some report) :
      Tells state request (early ++ .matchesPerRequest report.found.length ::
        if report.truncated then [.truncatedTotal] else []) resp

section
variable {crates : Crates} {http : HttpCrates} {fromSlice : FromSlice} {state : ServerState}
  {request : HttpRequest}

/-- A report is made with the metrics of its matches; any other outcome leaves
only what was recorded before. -/
theorem handled_samples {body : Except AxumError (List UInt8)}
    (made : handled crates fromSlice state.toAppState body = .ok given) :
    (∃ e, given = .error e ∧ ∀ sample ∈ handledSamples crates fromSlice state.engine body, IsEarly sample) ∨
      ∃ report early, given = .ok report ∧ (∀ sample ∈ early, IsEarly sample) ∧
        handledSamples crates fromSlice state.engine body = early ++ .matchesPerRequest report.found.length ::
          if report.truncated then [.truncatedTotal] else [] := by
  cases body with
  | error e => exact .inl ⟨_, (Except.ok.inj made).symm, List.forall_mem_nil _⟩
  | ok bytes =>
    simp only [handled, Check.check] at made
    simp only [handledSamples, bodySamples]
    cases parsed : fromSlice bytes with
    | error e =>
      rw [parsed] at made
      exact .inl ⟨_, (Except.ok.inj made).symm, List.forall_mem_nil _⟩
    | ok posted =>
      simp only [parsed] at made
      simp only [requestSamples]
      have sized : IsEarly (.inputBytes (Str.len posted.text)) := .inr ⟨_, rfl⟩
      split at made
      · rename_i empty
        rw [if_pos empty]
        exact .inl ⟨_, (Except.ok.inj made).symm, List.forall_mem_nil _⟩
      rename_i some
      rw [if_neg some]
      cases resolved : Check.resolveMode posted.mode with
      | error e =>
        rw [resolved] at made
        exact .inl ⟨_, (Except.ok.inj made).symm, List.forall_mem_singleton.mpr sized⟩
      | ok mode =>
        simp only [resolved] at made
        cases asked : Check.scanLangs state.engine posted.langs with
        | error e =>
          rw [asked] at made
          exact .inl ⟨_, (Except.ok.inj made).symm, List.forall_mem_singleton.mpr sized⟩
        | ok langs =>
          simp only [asked] at made
          cases ran : state.engine.scan crates posted.text langs mode with
          | error panic =>
            rw [ran] at made
            cases made
          | ok outcome =>
            rw [ran] at made
            cases outcome with
            | error e =>
              simp only [ran]
              exact .inl ⟨_, (Except.ok.inj made).symm, List.forall_mem_singleton.mpr sized⟩
            | ok result =>
              simp only [ran]
              refine .inr ⟨_, .inputBytes (Str.len posted.text) :: durations state.engine result.modeUsed,
                (Except.ok.inj made).symm, List.forall_mem_cons.mpr ⟨sized, ?_⟩, ?_⟩
              · intro sample member
                obtain ⟨entry, -, rfl⟩ := List.mem_map.mp member
                exact .inl ⟨_, _, rfl⟩
              · simp [matchDtos]

theorem entry_refused (limits : http.LimitsBodies) (v1 : IsV1 request.path)
    (refused : entry http state request = .error (resp, samples)) :
    Tells state request samples (sent request (versioned state resp)) := by
  simp only [entry] at refused
  split at refused
  · rename_i reason rejected
    obtain ⟨rfl, rfl⟩ := Prod.mk.inj (Except.error.inj refused)
    refine .refused ?_ (reportOf_sent _ ((reportOf_versioned _ _).trans (reportOf_intoResponse _)))
    rw [refusalOf, if_pos v1, rejected]
  · rename_i token accepted
    have entered : refusalOf state request = none := by rw [refusalOf, if_pos v1, accepted]
    cases limited : http.bodyLimit Check.rawBodyLimitBytes request with
    | ok body =>
      rw [limited] at refused
      cases refused
    | error own =>
      rw [limited] at refused
      obtain ⟨rfl, rfl⟩ := Prod.mk.inj (Except.error.inj refused)
      refine .unreported entered (List.forall_mem_nil _) (reportOf_sent _ ?_)
      rw [reportOf_versioned, remapped, if_pos (limits.own _ _ _ limited)]
      exact reportOf_intoResponse _

theorem entry_entered (entered : entry http state request = .ok body) : refusalOf state request = none := by
  simp only [entry] at entered
  split at entered
  · cases entered
  · rename_i token accepted
    rw [refusalOf, accepted]
    exact ite_self none

theorem got_silent (plain : http.AnswersPlainly) (silent : reportOf resp = none) :
    reportOf (got http request resp) = none := by
  unfold got
  split
  · exact silent
  · rw [reportOf, (plain.methodNotAllowed request).body]

theorem route_tells (plain : http.AnswersPlainly) (limits : http.LimitsBodies)
    (own : routeAnswer crates http fromSlice state ready request = .ok resp) :
    Tells state request (innerSamples crates http fromSlice state request) (sent request resp) := by
  have outside : reportOf resp = none → ¬ IsV1 request.path → Tells state request [] (sent request resp) :=
    fun silent unversioned => .unreported (if_neg unversioned) (List.forall_mem_nil _) (reportOf_sent _ silent)
  by_cases check : request.path = "/v1/check".toList
  · simp only [routeAnswer, if_pos check] at own
    simp only [innerSamples, if_pos check]
    cases entered : entry http state request with
    | error given =>
      rw [entered] at own
      rw [← Except.ok.inj own]
      exact entry_refused limits (.inl check) entered
    | ok body =>
      simp only [entered, posted] at own
      have known := entry_entered entered
      by_cases posting : request.method = .post
      · simp only [if_pos posting] at own ⊢
        rw [sent_body (by rw [posting]; decide)]
        cases made : handled crates fromSlice state.toAppState body with
        | error panic =>
          rw [made] at own
          cases own
        | ok given =>
          rw [made] at own
          obtain rfl := Except.ok.inj own
          obtain ⟨e, rfl, early⟩ | ⟨report, early, rfl, before, same⟩ := handled_samples made
          · refine .unreported known early ?_
            rw [reportOf_versioned]
            cases e <;> rfl
          · rw [same]
            exact .reported known before rfl
      · simp only [if_neg posting] at own ⊢
        rw [← Except.ok.inj own]
        refine .unreported known (List.forall_mem_nil _) (reportOf_sent _ ?_)
        have refused := plain.methodNotAllowed request
        rw [reportOf_versioned, reportOf_remapped _ (by rw [refused.status]; decide), reportOf, refused.body]
  simp only [routeAnswer, if_neg check] at own
  simp only [innerSamples, if_neg check]
  by_cases languages : request.path = "/v1/languages".toList
  · simp only [if_pos languages] at own ⊢
    cases entered : entry http state request with
    | error given =>
      rw [entered] at own
      rw [← Except.ok.inj own]
      exact entry_refused limits (.inr languages) entered
    | ok body =>
      rw [entered] at own
      rw [← Except.ok.inj own]
      refine .unreported (entry_entered entered) (List.forall_mem_nil _) (reportOf_sent _ ?_)
      have kept : (got http request (Service.languages state.engine)).status ≠ 413 := by
        unfold got
        split
        · exact fun same => by cases same
        · rw [(plain.methodNotAllowed request).status]
          decide
      rw [reportOf_versioned, reportOf_remapped _ kept]
      exact got_silent plain rfl
  simp only [if_neg languages] at own ⊢
  refine outside ?_ (not_or.mpr ⟨check, languages⟩)
  split at own
  · rw [← Except.ok.inj own]
    exact got_silent plain rfl
  split at own
  · rw [← Except.ok.inj own]
    refine got_silent plain ?_
    cases ready <;> rfl
  split at own
  · rw [← Except.ok.inj own]
    refine got_silent plain ?_
    unfold exposed
    split <;> rfl
  · rw [← Except.ok.inj own, reportOf, (plain.fallback request).body]

theorem answer_sent (own : answer crates http fromSlice state ready request = .ok resp) :
    ∃ inner, routeAnswer crates http fromSlice state ready request = .ok inner ∧ resp = sent request inner := by
  unfold answer at own
  cases made : routeAnswer crates http fromSlice state ready request with
  | error panic =>
    rw [made] at own
    cases own
  | ok inner =>
    rw [made] at own
    exact ⟨inner, rfl, (Except.ok.inj own).symm⟩

/-- Every answer is told by the metrics recorded on the way to it. -/
theorem answer_tells (plain : http.AnswersPlainly) (limits : http.LimitsBodies)
    (own : answer crates http fromSlice state ready request = .ok resp) :
    Tells state request (innerSamples crates http fromSlice state request) resp := by
  obtain ⟨inner, made, rfl⟩ := answer_sent own
  exact route_tells plain limits made

/-- A request that is over was told by the metrics of its course, or ended
without an answer before anything but its scan was recorded. -/
theorem ends_tell (plain : http.AnswersPlainly) (limits : http.LimitsBodies)
    (ends : Ends crates http fromSlice state droppable request log ending) :
    (ending = none ∧ ∀ sample ∈ samplesIn log, IsEarly sample) ∨
      ∃ resp inner, ending = some resp ∧ samplesIn log = inner ++ redSamples request resp ∧
        Tells state request inner resp := by
  cases ends with
  | @answered resp own samples =>
    have read : ∃ ready, ∀ value ∈ readingsIn log, value = ready := by
      have once := own.once
      generalize readingsIn log = readings at once
      match readings with
      | [] => exact ⟨true, List.forall_mem_nil _⟩
      | [value] => exact ⟨value, List.forall_mem_singleton.mpr rfl⟩
    obtain ⟨ready, lucid⟩ := read
    exact .inr ⟨resp, _, rfl, samples, answer_tells plain limits (own.made ready lucid)⟩
  | overloaded gated _ _ samples =>
    obtain ⟨-, body, entered⟩ := gated
    exact .inr ⟨_, [], rfl, samples,
      .unreported (entry_entered entered) (List.forall_mem_nil _) (reportOf_sent _ rfl)⟩
  | dropped _ _ _ samples =>
    obtain ⟨-, none⟩ | ⟨-, early⟩ := samples
    · exact .inl ⟨rfl, none ▸ List.forall_mem_nil _⟩
    · exact .inl ⟨rfl, early⟩

/-! ### Counting -/

/-- The metric of a refusal. -/
def refusalSamples : Option UnauthorizedReason → List Sample
  | some reason => [.authFailuresTotal reason.asStr]
  | none => []

/-- The metrics of a report. -/
def reportSamples : Option CheckResponse → List Sample
  | some report => .matchesPerRequest report.found.length :: if report.truncated then [.truncatedTotal] else []
  | none => []

/-- The metrics an answer stands for. Those of its size and its scan are left out,
which are recorded without an answer too. -/
def told (state : ServerState) (given : HttpRequest × Response) : List Sample :=
  refusalSamples (refusalOf state given.1) ++ (reportSamples (reportOf given.2) ++ redSamples given.1 given.2)

theorem count_early {early : List Sample} (before : ∀ sample ∈ early, IsEarly sample) (late : ¬ IsEarly sample) :
    early.count sample = 0 := List.count_eq_zero.mpr fun member => late (before sample member)

theorem tells_count {inner : List Sample} (tells : Tells state request inner resp) (late : ¬ IsEarly sample) :
    (inner ++ redSamples request resp).count sample = (told state (request, resp)).count sample := by
  unfold told
  cases tells with
  | refused refusal silent =>
    rw [refusal, silent]
    rfl
  | unreported entered early silent =>
    rw [entered, silent, List.count_append, count_early early late, Nat.zero_add]
    rfl
  | reported entered before shown =>
    rw [entered, shown, List.append_assoc, List.count_append, count_early before late, Nat.zero_add]
    rfl

/-- The answers that were given. -/
def answers (pool : Requests) : List (HttpRequest × Response) :=
  pool.tasks.filterMap fun entry =>
    match entry.2.ended with
    | some (some resp) => some (entry.1, resp)
    | _ => none

theorem exec_samples (o : Op) (shared : Shared) :
    (o.exec shared).2.recorder.samples = shared.recorder.samples ++ samplesIn [⟨o, (o.exec shared).1⟩] := by
  cases o with
  | record sample => rfl
  | fetchAdd =>
    rw [Op.exec, Shared.setCounter_recorder]
    exact (List.append_nil _).symm
  | fetchSub =>
    rw [Op.exec, Shared.setCounter_recorder]
    exact (List.append_nil _).symm
  | _ => exact (List.append_nil _).symm

/-- The recorder holds what the requests recorded, in some order. -/
theorem samples_gathered (run : Serves crates http fromSlice state loaded log pool) :
    pool.shared.recorder.samples.Perm
      (((system crates http fromSlice state).tracks log pool).flatMap fun track => samplesIn track.2) := by
  have gathered := System.gathered (fun shared : Shared => shared.recorder.samples)
    (fun event : Step => samplesIn [event]) exec_samples run
  have same : ∀ history : List Step, (history.flatMap fun event => samplesIn [event]) = samplesIn history := by
    intro history
    induction history with
    | nil => rfl
    | cons event history ih => rw [List.flatMap_cons, ih, ← samplesIn_append, List.singleton_append]
  simp only [same] at gathered
  exact gathered

/-- Once all requests are over, every metric but those of sizes and scans is the
sum of what the answers stand for. -/
theorem samples_told (plain : http.AnswersPlainly) (limits : http.LimitsBodies)
    (run : Serves crates http fromSlice state loaded log pool)
    (settled : ∀ entry ∈ pool.tasks, entry.2.ended ≠ none) (late : ¬ IsEarly sample) :
    pool.shared.recorder.samples.count sample = ((answers pool).flatMap (told state)).count sample := by
  rw [(samples_gathered run).count_eq, answers, List.filterMap_eq_flatMap_toList, List.flatMap_assoc,
    List.count_flatMap, List.count_flatMap]
  congr 1
  apply List.ext_getElem?
  intro i
  cases held : pool.tasks[i]? with
  | none => simp [System.tracks, held]
  | some entry =>
    obtain ⟨request, task⟩ := entry
    obtain ⟨ending, finished⟩ := Option.ne_none_iff_exists'.mp (settled _ (List.mem_of_getElem? held))
    have tells := ends_tell plain limits (ends_of_run run held finished true fun _ => rfl)
    simp only [List.getElem?_map, System.tracks, List.getElem?_mapIdx, held, Option.map_some, Function.comp_apply,
      finished, Option.some.injEq]
    obtain ⟨rfl, early⟩ | ⟨resp, inner, rfl, samples, tells⟩ := tells
    · exact count_early early late
    · change (samplesIn (done crates http fromSlice state log i)).count sample = _
      rw [samples, tells_count tells late]
      simp

theorem count_flatMap_kind (given : List (HttpRequest × Response)) (kind : HttpRequest × Response → Bool)
    (each : ∀ a, (told state a).count sample = (kind a).toNat) :
    (given.flatMap (told state)).count sample = given.countP kind := by
  induction given with
  | nil => rfl
  | cons a given ih =>
    rw [List.flatMap_cons, List.count_append, ih, each, List.countP_cons]
    cases kind a <;> simp [Nat.add_comm]

/-- The metrics of a server, against the answers it gave. -/
structure Accounted (state : ServerState) (samples : List Sample) (given : List (HttpRequest × Response)) : Prop where
  requests : ∀ status, samples.count (.requestsTotal status) =
    given.countP fun a => classifyStatus a.2.status = status
  durations : ∀ status endpoint, samples.count (.requestDuration status endpoint) =
    given.countP fun a => classifyStatus a.2.status = status ∧ classifyEndpoint a.1.path = endpoint
  refusals : ∀ reason : UnauthorizedReason, samples.count (.authFailuresTotal reason.asStr) =
    given.countP fun a => refusalOf state a.1 = some reason
  reports : ∀ n, samples.count (.matchesPerRequest n) =
    given.countP fun a => (reportOf a.2).map (fun report => report.found.length) = some n
  truncations : samples.count .truncatedTotal =
    given.countP fun a => (reportOf a.2).map (fun report => report.truncated) = some true

theorem asStr_inj {first second : UnauthorizedReason} : first.asStr = second.asStr ↔ first = second := by
  cases first <;> cases second <;> decide

theorem told_count (state : ServerState) (a : HttpRequest × Response) (sample : Sample) :
    (told state a).count sample = (refusalSamples (refusalOf state a.1)).count sample +
      ((reportSamples (reportOf a.2)).count sample + (redSamples a.1 a.2).count sample) := by
  rw [told, List.count_append, List.count_append]

theorem count_refusal {sample : Sample} (other : ∀ reason : UnauthorizedReason, sample ≠ .authFailuresTotal reason.asStr)
    (refusal : Option UnauthorizedReason) : (refusalSamples refusal).count sample = 0 := by
  cases refusal with
  | none => rfl
  | some reason => exact List.count_eq_zero.mpr fun member => other reason (List.mem_singleton.mp member)

theorem count_report {sample : Sample} (unreported : ∀ n, sample ≠ .matchesPerRequest n) (uncut : sample ≠ .truncatedTotal)
    (report : Option CheckResponse) : (reportSamples report).count sample = 0 := by
  cases report with
  | none => rfl
  | some report =>
    refine List.count_eq_zero.mpr fun member => ?_
    rcases List.mem_cons.mp member with rfl | rest
    · exact unreported _ rfl
    · split at rest
      · exact uncut (List.mem_singleton.mp rest)
      · cases rest

theorem count_red {sample : Sample} (unclassified : ∀ status, sample ≠ .requestsTotal status)
    (untimed : ∀ status endpoint, sample ≠ .requestDuration status endpoint) (request : HttpRequest) (resp : Response) :
    (redSamples request resp).count sample = 0 := by
  refine List.count_eq_zero.mpr fun member => ?_
  rcases List.mem_cons.mp member with rfl | rest
  · exact unclassified _ rfl
  · exact untimed _ _ (List.mem_singleton.mp rest)

/-- Once all requests are over, whatever order they ran in, the counters and the
histograms agree with the answers that were given. -/
theorem metrics_accounted (plain : http.AnswersPlainly) (limits : http.LimitsBodies)
    (run : Serves crates http fromSlice state loaded log pool)
    (settled : ∀ entry ∈ pool.tasks, entry.2.ended ≠ none) :
    Accounted state pool.shared.recorder.samples (answers pool) := by
  have counted : ∀ (sample : Sample) kind, ¬ IsEarly sample → (∀ a, (told state a).count sample = (kind a).toNat) →
      pool.shared.recorder.samples.count sample = (answers pool).countP kind := by
    intro sample kind late each
    rw [samples_told plain limits run settled late, count_flatMap_kind _ kind each]
  refine ⟨fun status => counted _ _ ?_ fun a => ?_, fun status endpoint => counted _ _ ?_ fun a => ?_,
    fun reason => counted _ _ ?_ fun a => ?_, fun n => counted _ _ ?_ fun a => ?_, counted _ _ ?_ fun a => ?_⟩
  · rintro (⟨_, _, ⟨⟩⟩ | ⟨_, ⟨⟩⟩)
  · rw [told_count, count_refusal (fun _ => by rintro ⟨⟩), count_report (fun _ => by rintro ⟨⟩) (by rintro ⟨⟩)]
    by_cases same : classifyStatus a.2.status = status <;> simp [redSamples, same]
  · rintro (⟨_, _, ⟨⟩⟩ | ⟨_, ⟨⟩⟩)
  · rw [told_count, count_refusal (fun _ => by rintro ⟨⟩), count_report (fun _ => by rintro ⟨⟩) (by rintro ⟨⟩)]
    by_cases same : classifyStatus a.2.status = status ∧ classifyEndpoint a.1.path = endpoint <;>
      simp [redSamples, same]
  · rintro (⟨_, _, ⟨⟩⟩ | ⟨_, ⟨⟩⟩)
  · rw [told_count, count_report (fun _ => by rintro ⟨⟩) (by rintro ⟨⟩), count_red (fun _ => by rintro ⟨⟩)
      (fun _ _ => by rintro ⟨⟩)]
    cases refusalOf state a.1 with
    | none => rfl
    | some given => by_cases same : given = reason <;> simp [refusalSamples, asStr_inj, same]
  · rintro (⟨_, _, ⟨⟩⟩ | ⟨_, ⟨⟩⟩)
  · rw [told_count, count_refusal (fun _ => by rintro ⟨⟩), count_red (fun _ => by rintro ⟨⟩)
      (fun _ _ => by rintro ⟨⟩)]
    cases reportOf a.2 with
    | none => rfl
    | some report =>
      by_cases same : report.found.length = n <;> by_cases cut : report.truncated = true <;>
        simp [reportSamples, same, cut]
  · rintro (⟨_, _, ⟨⟩⟩ | ⟨_, ⟨⟩⟩)
  · rw [told_count, count_refusal (fun _ => by rintro ⟨⟩), count_red (fun _ => by rintro ⟨⟩)
      (fun _ _ => by rintro ⟨⟩)]
    cases reportOf a.2 with
    | none => rfl
    | some report => by_cases cut : report.truncated = true <;> simp [reportSamples, cut]

/-- One request without a key, one that is refused its place by another, and that one. -/
theorem metrics_accounted_crowded : ∃ samples given, samples.length = 7 ∧ given.length = 3 ∧
    Accounted narrow samples given := by
  have run := run_of_play (show play (system AsciiCrates.crates AsciiCrates.http unparsed narrow).step
    ⟨startup narrow ["en".toList], []⟩ [.spawn keyed, .spawn { keyed with headers := [] }, .spawn keyed,
      .advance 0, .advance 1, .advance 2, .advance 2, .advance 1, .advance 1, .advance 2, .advance 2,
      .advance 0, .advance 0, .advance 0, .advance 0] = some _ from rfl)
  exact ⟨_, _, rfl, rfl, metrics_accounted AsciiCrates.http_answersPlainly AsciiCrates.http_limitsBodies run (by decide)⟩

theorem mem_answers (given : (request, resp) ∈ answers pool) :
    ∃ (i : Nat) (task : Code Response), pool.tasks[i]? = some (request, task) ∧ task.ended = some (some resp) := by
  obtain ⟨⟨key, task⟩, member, shown⟩ := List.mem_filterMap.mp given
  obtain ⟨i, held⟩ := List.getElem?_of_mem member
  dsimp only at shown
  split at shown
  · rename_i own finished
    obtain ⟨rfl, rfl⟩ := Prod.mk.inj (Option.some.inj shown)
    exact ⟨i, task, held, finished⟩
  · cases shown

/-- Actions that the server can take one after the other make a run of it. -/
theorem serves_of_play {seen : List (HttpRequest × Response)}
    (played : (play (system crates http fromSlice state).step ⟨startup state loaded, []⟩ actions).map
      (fun reached => answers reached.2) = some seen) :
    ∃ log pool, Serves crates http fromSlice state loaded log pool ∧ answers pool = seen := by
  obtain ⟨⟨log, pool⟩, ran, answered⟩ := Option.map_eq_some_iff.mp played
  exact ⟨log, pool, run_of_play ran, answered⟩

/-- An answer in a run is the request's own, or the gate's refusal. -/
theorem answer_given (run : Serves crates http fromSlice state loaded log pool) (given : (request, resp) ∈ answers pool) :
    answer crates http fromSlice state true request = .ok resp ∨
      Gated http state request ∧ resp = overloadedAnswer state request := by
  obtain ⟨i, task, held, finished⟩ := mem_answers given
  generalize ended : some resp = ending at finished
  cases ends_of_run run held finished true fun _ => rfl with
  | answered own _ =>
    obtain rfl := Option.some.inj ended
    exact .inl (own_answer run own)
  | overloaded gated _ _ _ => exact .inr ⟨gated, Option.some.inj ended⟩
  | dropped => cases ended

end

end VocabVeto.ServiceMetrics
