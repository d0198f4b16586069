import VocabVeto.Core.Service
import VocabVeto.ScanReference

/-! What one request does on its own, whatever the operations it performs result
in: how it ends, what it does to the in-flight counter, and which metrics it
records. Each middleware has one rule, and the router's is assembled from them. -/
namespace VocabVeto.ServiceCourses
open Tasks Service

/-- An operation of a request, with its result. -/
abbrev Step := Event Op Op.Result

/-- Whether an operation waits, for a client that may give its request up or not. -/
def waits (droppable : Bool) : Op → Bool
  | .readBody => droppable
  | _ => false

/-- The metrics recorded in a course. -/
def samplesIn (log : List Step) : List Sample :=
  log.filterMap fun
    | ⟨.record sample, _⟩ => some sample
    | _ => none

/-- What a request does to the in-flight counter. -/
inductive Count where
  | added (prev : Nat)
  | subtracted
  deriving DecidableEq, Repr

/-- What is done to the in-flight counter in a course. -/
def countsIn (log : List Step) : List Count :=
  log.filterMap fun
    | ⟨.fetchAdd, prev⟩ => some (.added prev)
    | ⟨.fetchSub, _⟩ => some .subtracted
    | _ => none

/-- The readings of `ready` in a course. -/
def readingsIn (log : List Step) : List Bool :=
  log.filterMap fun
    | ⟨.loadReady, value⟩ => some value
    | _ => none

@[simp] theorem samplesIn_append (first second : List Step) :
    samplesIn (first ++ second) = samplesIn first ++ samplesIn second := List.filterMap_append

@[simp] theorem countsIn_append (first second : List Step) :
    countsIn (first ++ second) = countsIn first ++ countsIn second := List.filterMap_append

@[simp] theorem readingsIn_append (first second : List Step) :
    readingsIn (first ++ second) = readingsIn first ++ readingsIn second := List.filterMap_append

/-- The course that only records these metrics. -/
def recorded (samples : List Sample) : List Step := samples.map fun sample => ⟨.record sample, ()⟩

@[simp] theorem samplesIn_recorded (samples : List Sample) : samplesIn (recorded samples) = samples := by
  induction samples with
  | nil => rfl
  | cons sample samples ih => exact congrArg (sample :: ·) ih

@[simp] theorem countsIn_recorded (samples : List Sample) : countsIn (recorded samples) = [] := by
  induction samples with
  | nil => rfl
  | cons sample samples ih => exact ih

@[simp] theorem readingsIn_recorded (samples : List Sample) : readingsIn (recorded samples) = [] := by
  induction samples with
  | nil => rfl
  | cons sample samples ih => exact ih

theorem recorded_append (first second : List Sample) :
    recorded (first ++ second) = recorded first ++ recorded second := List.map_append

/-! ### Code that only records -/

/-- The code takes a single course: it records these metrics, and ends like this. -/
def Records (code : Code α) (samples : List Sample) (outcome : Option α) : Prop :=
  ∀ droppable log ending, Course (waits droppable) code log ending ↔ log = recorded samples ∧ ending = outcome

theorem records_return (value : α) : Records (return value) [] (some value) := fun _ _ _ => course_done

theorem records_record (sample : Sample) : Records (record sample) [sample] (some ()) := by
  intro droppable log ending
  refine course_perform.trans ?_
  constructor
  · rintro (⟨⟨⟩, rfl, rfl⟩ | ⟨waits, -⟩)
    · exact ⟨rfl, rfl⟩
    · cases waits
  · rintro ⟨rfl, rfl⟩
    exact .inl ⟨(), rfl, rfl⟩

theorem records_bind {code : Code α} {rest : α → Code β} (first : Records code samples (some value))
    (second : Records (rest value) more outcome) : Records (code >>= rest) (samples ++ more) outcome := by
  intro droppable log ending
  rw [course_bind, recorded_append]
  simp only [first _ _ _, Option.some.injEq, reduceCtorEq, and_false, or_false]
  constructor
  · rintro ⟨_, _, _, rfl, ⟨rfl, rfl⟩, course⟩
    obtain ⟨rfl, rfl⟩ := (second _ _ _).mp course
    exact ⟨rfl, rfl⟩
  · rintro ⟨rfl, rfl⟩
    exact ⟨_, _, _, rfl, ⟨rfl, rfl⟩, (second _ _ _).mpr ⟨rfl, rfl⟩⟩

/-- A panic ends the whole sequence. -/
theorem records_bind_none {code : Code α} {rest : α → Code β} (first : Records code samples none) :
    Records (code >>= rest) samples none := by
  intro droppable log ending
  rw [course_bind]
  simp only [first _ _ _, reduceCtorEq, and_false, false_and, exists_false, false_or, and_true]
  exact and_comm

theorem records_panic : Records (.fail [] : Code α) [] none := by
  intro droppable log ending
  rw [course_fail, List.map_eq_nil_iff]
  rfl

/-- The value of a computation, when it does not panic. -/
def valueOf : Fallible α → Option α
  | .ok value => some value
  | .error _ => none

theorem records_pureCode (result : Fallible α) : Records (pureCode result) [] (valueOf result) := by
  cases result with
  | ok value => exact records_return value
  | error panic => exact records_panic

/-! ### The handler of `/v1/check` -/

/-- The scan durations that belong to these languages; one without an automaton
is not timed. -/
def durations (engine : Engine) (modeUsed : List (Lang × Mode)) : List Sample :=
  (modeUsed.filter fun entry => engine.hasLanguage entry.1).map fun entry =>
    .matchDuration entry.1 entry.2.asWireStr

theorem durations_append (engine : Engine) (first second : List (Lang × Mode)) :
    durations engine (first ++ second) = durations engine first ++ durations engine second := by
  rw [durations, List.filter_append, List.map_append]
  rfl

def IsDuration (sample : Sample) : Prop := ∃ lang mode, sample = .matchDuration lang mode

section
variable {crates : Crates} {fromSlice : FromSlice} {engine : Engine} {state : AppState} {text : Str}

/-- The loop with its metrics computes what it computes without, and times every
language it goes through. -/
theorem scanLangs_records (crates : Crates) (engine : Engine) (text : Str) (norm : Normalized) (mode : Option Mode)
    (langs : List Lang) (used : List (Lang × Mode)) (found : List Match) :
    ∃ samples, Records (Service.scanLangs crates engine text norm mode langs used found) samples
        (valueOf (VocabVeto.scanLangs crates engine text norm mode langs used found)) ∧
      (∀ sample ∈ samples, IsDuration sample) ∧
      ∀ result, VocabVeto.scanLangs crates engine text norm mode langs used found = .ok result →
        durations engine result.modeUsed = durations engine used ++ samples := by
  induction langs generalizing used found with
  | nil =>
    refine ⟨[], records_return _, List.forall_mem_nil _, ?_⟩
    rintro result ran
    rw [← Except.ok.inj ran, List.append_nil]
  | cons lang langs ih =>
    simp only [Service.scanLangs, VocabVeto.scanLangs]
    cases held : engine.automata.lookup lang with
    | none =>
      obtain ⟨samples, records, timed, complete⟩ := ih (used ++ [(lang, mode.getD (resolveDefaultMode lang))]) found
      refine ⟨samples, records, timed, fun result ran => ?_⟩
      rw [complete result ran, durations_append]
      simp [durations, Engine.hasLanguage, held]
    | some stored =>
      obtain ⟨ac, patterns⟩ := stored
      dsimp only
      have loaded : durations engine [(lang, mode.getD (resolveDefaultMode lang))] =
          [.matchDuration lang (mode.getD (resolveDefaultMode lang)).asWireStr] := by
        simp [durations, Engine.hasLanguage, held]
      have searched := records_pureCode (scanHits crates ⟨text, norm, lang, mode.getD (resolveDefaultMode lang),
        patterns⟩ (ac.findIter crates norm.text) found)
      cases hits : scanHits crates ⟨text, norm, lang, mode.getD (resolveDefaultMode lang), patterns⟩
          (ac.findIter crates norm.text) found with
      | error panic =>
        rw [hits] at searched
        exact ⟨[], records_bind_none searched, List.forall_mem_nil _, fun _ ran => by cases ran⟩
      | ok outcome =>
        obtain ⟨out, capped⟩ := outcome
        rw [hits] at searched
        cases capped with
        | true =>
          refine ⟨_, records_bind searched (records_bind (records_record _) (records_return _)), ?_, ?_⟩
          · rintro sample member
            exact ⟨_, _, List.mem_singleton.mp member⟩
          · rintro result ran
            rw [← Except.ok.inj ran, durations_append, loaded]
            rfl
        | false =>
          obtain ⟨samples, records, timed, complete⟩ :=
            ih (used ++ [(lang, mode.getD (resolveDefaultMode lang))]) out
          refine ⟨_, records_bind searched (records_bind (records_record _) records), ?_, ?_⟩
          · rintro sample member
            rcases List.mem_cons.mp member with rfl | later
            · exact ⟨_, _, rfl⟩
            · exact timed sample later
          · rintro result ran
            rw [complete result ran, durations_append, loaded, List.append_assoc]
            rfl

/-- A scan with its metrics computes what it computes without, and times every
language with an automaton that it goes through. -/
theorem scan_records (crates : Crates) (engine : Engine) (text : Str) (langs : List Lang) (mode : Option Mode) :
    ∃ samples, Records (Service.scan crates engine text langs mode) samples
        (valueOf (engine.scan crates text langs mode)) ∧
      (∀ sample ∈ samples, IsDuration sample) ∧
      (∀ e, engine.scan crates text langs mode = .ok (.error e) → samples = []) ∧
      ∀ result, engine.scan crates text langs mode = .ok (.ok result) → samples = durations engine result.modeUsed := by
  unfold Service.scan Engine.scan
  cases normalize crates text with
  | error e => exact ⟨[], records_return _, List.forall_mem_nil _, fun _ _ => rfl, fun _ ran => by cases ran⟩
  | ok norm =>
    obtain ⟨samples, records, timed, complete⟩ :=
      scanLangs_records crates engine text norm mode langs [] []
    dsimp only
    cases ran : VocabVeto.scanLangs crates engine text norm mode langs [] [] with
    | error panic =>
      rw [ran] at records
      refine ⟨samples, records_bind_none records, timed, ?_, ?_⟩
      · rintro e ⟨⟩
      · rintro result ⟨⟩
    | ok result =>
      rw [ran] at records
      refine ⟨samples, ?_, timed, ?_, ?_⟩
      · rw [← List.append_nil samples]
        exact records_bind records (records_return _)
      · rintro e ⟨⟩
      · rintro final made
        rw [← Except.ok.inj (Except.ok.inj made), complete result ran]
        rfl

/-- The metrics of a parsed request: its size once the text is there, the scan
durations, and the number of matches with whether the report was cut. -/
def requestSamples (crates : Crates) (engine : Engine) (request : CheckRequest) : List Sample :=
  if request.text.isEmpty then []
  else .inputBytes (Str.len request.text) ::
    match Check.resolveMode request.mode, Check.scanLangs engine request.langs with
    | .ok mode, .ok langs =>
      match engine.scan crates request.text langs mode with
      | .ok (.ok result) =>
        durations engine result.modeUsed ++ .matchesPerRequest result.found.length ::
          if result.truncated then [.truncatedTotal] else []
      | _ => []
    | _, _ => []

/-- The metrics of a request body that was read. -/
def bodySamples (crates : Crates) (fromSlice : FromSlice) (engine : Engine) (bytes : List UInt8) : List Sample :=
  match fromSlice bytes with
  | .error _ => []
  | .ok request => requestSamples crates engine request

/-- A metric that is recorded before a scan is over. -/
def IsEarly (sample : Sample) : Prop := IsDuration sample ∨ ∃ bytes, sample = .inputBytes bytes

/-- What the handler does with a request it has parsed. -/
def judged (crates : Crates) (state : AppState) (request : CheckRequest) :
    Fallible (Except ApiError CheckResponse) :=
  Check.check crates (fun _ => .ok request) state []

private theorem records_cut (cut : Bool) (value : α) :
    Records (if cut = true then do
        record .truncatedTotal
        return value
      else return value) (if cut = true then [.truncatedTotal] else []) (some value) := by
  cases cut with
  | true => exact records_bind (records_record _) (records_return value)
  | false => exact records_return value

/-- The handler answers as it does without its metrics, and records those of its
request; a panic leaves only those recorded before the scan is over. -/
theorem checkRequest_records (crates : Crates) (state : AppState) (request : CheckRequest) :
    ∃ samples, Records (checkRequest crates state request) samples (valueOf (judged crates state request)) ∧
      (∀ answer, judged crates state request = .ok answer → samples = requestSamples crates state.engine request) ∧
      (valueOf (judged crates state request) = none → ∀ sample ∈ samples, IsEarly sample) := by
  unfold judged Check.check checkRequest requestSamples
  dsimp only
  cases request.text.isEmpty with
  | true =>
    refine ⟨[], records_return _, fun _ _ => rfl, fun ended => ?_⟩
    cases ended
  | false =>
    simp only [Bool.false_eq_true, ↓reduceIte]
    have sized := records_record (.inputBytes (Str.len request.text))
    cases Check.resolveMode request.mode with
    | error e =>
      refine ⟨_, records_bind sized (records_return _), fun _ _ => rfl, fun ended => ?_⟩
      cases ended
    | ok mode =>
      cases Check.scanLangs state.engine request.langs with
      | error e =>
        refine ⟨_, records_bind sized (records_return _), fun _ _ => rfl, fun ended => ?_⟩
        cases ended
      | ok langs =>
        dsimp only
        obtain ⟨samples, scanned, timed, refused, complete⟩ :=
          scan_records crates state.engine request.text langs mode
        cases ran : state.engine.scan crates request.text langs mode with
        | error panic =>
          rw [ran] at scanned
          refine ⟨_, records_bind sized (records_bind_none scanned), fun _ made => ?_, fun _ sample member => ?_⟩
          · cases made
          · rcases List.mem_cons.mp member with rfl | among
            · exact .inr ⟨_, rfl⟩
            · exact .inl (timed sample among)
        | ok outcome =>
          rw [ran] at scanned
          cases outcome with
          | error e =>
            refine ⟨_, records_bind sized (records_bind scanned (records_return _)), fun _ _ => ?_, fun ended => ?_⟩
            · rw [refused e ran]
              rfl
            · cases ended
          | ok result =>
            have counted := records_record (.matchesPerRequest (matchDtos result.found).length)
            rw [complete result ran] at scanned
            refine ⟨_, records_bind sized (records_bind scanned (records_bind counted
              (records_cut result.truncated _))), fun _ _ => ?_, fun ended => ?_⟩
            · simp [matchDtos]
            · cases ended

/-- What the handler makes of the body it is handed. -/
def handled (crates : Crates) (fromSlice : FromSlice) (state : AppState) :
    Except AxumError (List UInt8) → Fallible (Except ApiError CheckResponse)
  | .error e => .ok (.error (if isLengthLimitError e then .payloadTooLarge else .badRequest (unreadableBody e)))
  | .ok bytes => Check.check crates fromSlice state bytes

/-- The metrics of the handler on the body it is handed. -/
def handledSamples (crates : Crates) (fromSlice : FromSlice) (engine : Engine) :
    Except AxumError (List UInt8) → List Sample
  | .error _ => []
  | .ok bytes => bodySamples crates fromSlice engine bytes

/-- How the handler ends on a body, once it is read. -/
structure Handles (crates : Crates) (fromSlice : FromSlice) (state : AppState)
    (body : Except AxumError (List UInt8)) (samples : List Sample) : Prop where
  records : Records (checkBody crates fromSlice state body) samples (valueOf (handled crates fromSlice state body))
  complete : ∀ answer, handled crates fromSlice state body = .ok answer →
    samples = handledSamples crates fromSlice state.engine body
  early : valueOf (handled crates fromSlice state body) = none → ∀ sample ∈ samples, IsEarly sample

theorem checkBody_handles (crates : Crates) (fromSlice : FromSlice) (state : AppState)
    (body : Except AxumError (List UInt8)) :
    ∃ samples, Handles crates fromSlice state body samples := by
  cases body with
  | error e =>
    refine ⟨[], ?_, fun _ _ => rfl, fun _ => List.forall_mem_nil _⟩
    simp only [checkBody, handled]
    split
    · exact records_return _
    · exact records_return _
  | ok bytes =>
    cases parsed : fromSlice bytes with
    | error e =>
      refine ⟨[], ?_, fun _ _ => ?_, fun _ => List.forall_mem_nil _⟩
      · simp only [checkBody, handled, Check.check, parsed]
        exact records_return _
      · simp only [handledSamples, bodySamples, parsed]
    | ok request =>
      have same : handled crates fromSlice state (.ok bytes) = judged crates state request := by
        simp only [handled, judged, Check.check, parsed]
      obtain ⟨samples, records, complete, early⟩ :=
        checkRequest_records crates state request
      refine ⟨samples, ?_, fun answer made => ?_, fun ended => early (same ▸ ended)⟩
      · rw [same]
        simpa only [checkBody, parsed] using records
      · simp only [handledSamples, bodySamples, parsed]
        exact complete answer (same ▸ made)

/-- The handler can be dropped while it waits for the body. Once the body is read
it is not interrupted any more. -/
theorem check_course {body : Except AxumError (List UInt8)}
    (course : Course (waits droppable) (check crates fromSlice state body) log ending) :
    droppable = true ∧ log = [] ∧ ending = none ∨
      ∃ samples, Handles crates fromSlice state body samples ∧ log = ⟨.readBody, ()⟩ :: recorded samples ∧
        ending = valueOf (handled crates fromSlice state body) := by
  obtain ⟨value, first, second, rfl, waited, rest⟩ | ⟨rfl, dropped⟩ := course_bind.mp course
  · obtain ⟨⟨⟩, rfl, -⟩ | ⟨-, ⟨⟩, -⟩ := course_perform.mp waited
    obtain ⟨samples, handles⟩ := checkBody_handles crates fromSlice state body
    obtain ⟨rfl, ended⟩ := (handles.records _ _ _).mp rest
    exact .inr ⟨samples, handles, rfl, ended⟩
  · obtain ⟨_, -, ⟨⟩⟩ | ⟨given, -, rfl⟩ := course_perform.mp dropped
    exact .inl ⟨given, rfl, rfl⟩

end

/-! ### The middleware -/

section
variable {http : HttpCrates} {state : ServerState} {request : HttpRequest} {next : Code Response}

/-- What `remap_413` makes of a response. -/
def remapped (resp : Response) : Response :=
  if resp.status = 413 then ApiError.payloadTooLarge.intoResponse else resp

theorem course_remap413 : Course (waits droppable) (remap413 next) log ending ↔
    ∃ inner, ending = inner.map remapped ∧ Course (waits droppable) next log inner := by
  have same : remap413 next = next >>= fun resp => pure (remapped resp) := by
    unfold remap413 remapped
    congr 1
    funext resp
    split <;> rfl
  rw [same]
  exact course_map remapped

/-- What a request does that the gate lets in: this, between the two operations of
the gate. -/
def within (prev : Nat) (inside : List Step) : List Step := ⟨.fetchAdd, prev⟩ :: (inside ++ [⟨.fetchSub, ()⟩])

theorem countsIn_within (prev : Nat) {inside : List Step} (quiet : countsIn inside = []) :
    countsIn (within prev inside) = [.added prev, .subtracted] := by
  rw [within, ← List.singleton_append, countsIn_append, countsIn_append, quiet]
  rfl

@[simp] theorem samplesIn_within (prev : Nat) (inside : List Step) :
    samplesIn (within prev inside) = samplesIn inside := by
  rw [within, ← List.singleton_append, samplesIn_append, samplesIn_append]
  exact List.append_nil _

@[simp] theorem readingsIn_within (prev : Nat) (inside : List Step) :
    readingsIn (within prev inside) = readingsIn inside := by
  rw [within, ← List.singleton_append, readingsIn_append, readingsIn_append]
  exact List.append_nil _

theorem course_gate : Course (waits droppable) (gate maxInflight next) log ending ↔
    (∃ prev, maxInflight ≤ prev ∧ log = [⟨.fetchAdd, prev⟩, ⟨.fetchSub, ()⟩] ∧
      ending = some ApiError.overloaded.intoResponse) ∨
    ∃ prev inside, prev < maxInflight ∧ log = within prev inside ∧ Course (waits droppable) next inside ending := by
  refine (course_perform_bind rfl).trans ?_
  constructor
  · rintro ⟨prev, more, rfl, course⟩
    split at course
    · rename_i full
      obtain ⟨⟨⟩, rest, rfl, answered⟩ := (course_perform_bind rfl).mp course
      obtain ⟨rfl, rfl⟩ := course_done.mp answered
      exact .inl ⟨prev, full, rfl, rfl⟩
    · rename_i room
      obtain ⟨first, ⟨⟩, rfl, inside⟩ := (course_guarded rfl).mp course
      exact .inr ⟨prev, first, Nat.lt_of_not_le room, rfl, inside⟩
  · rintro (⟨prev, full, rfl, rfl⟩ | ⟨prev, first, room, rfl, course⟩)
    · refine ⟨prev, _, rfl, ?_⟩
      rw [if_pos full]
      exact (course_perform_bind rfl).mpr ⟨(), [], rfl, .done _⟩
    · refine ⟨prev, _, rfl, ?_⟩
      rw [if_neg (Nat.not_le.mpr room)]
      exact (course_guarded rfl).mpr ⟨first, (), rfl, course⟩

/-- What every response under `/v1` carries. -/
def versioned (state : ServerState) (resp : Response) : Response := resp.insert xListVersion state.listVersion

/-- What a request under `/v1` is handed on with, or how it is refused before,
with the metrics of the refusal. -/
def entry (http : HttpCrates) (state : ServerState) (request : HttpRequest) :
    Except (Response × List Sample) (Except AxumError (List UInt8)) :=
  match Auth.check state.apiKeys request.headers with
  | .error reason => .error ((ApiError.unauthorized reason).intoResponse, [.authFailuresTotal reason.asStr])
  | .ok _ => (http.bodyLimit Check.rawBodyLimitBytes request).mapError fun resp => (remapped resp, [])

theorem v1_refused {route : Except AxumError (List UInt8) → Code Response}
    (refused : entry http state request = .error (resp, samples)) :
    Records (v1 http state request route) samples (some (versioned state resp)) := by
  have finish : ∀ {code : Code Response}, Records code samples (some resp) →
      Records (setResponseHeader xListVersion state.listVersion code) samples (some (versioned state resp)) := by
    intro code records
    rw [← List.append_nil samples]
    exact records_bind records (records_return _)
  apply finish
  simp only [entry] at refused
  unfold requireBearer
  split at refused
  · rename_i reason rejected
    obtain ⟨rfl, rfl⟩ := Prod.mk.inj (Except.error.inj refused)
    simp only [rejected]
    exact records_bind (records_record _) (records_return _)
  · rename_i token accepted
    simp only [accepted]
    unfold requestBodyLimit
    cases limited : http.bodyLimit Check.rawBodyLimitBytes request with
    | ok body =>
      rw [limited] at refused
      cases refused
    | error own =>
      rw [limited] at refused
      obtain ⟨rfl, rfl⟩ := Prod.mk.inj (Except.error.inj refused)
      intro droppable log ending
      simp only [course_remap413, records_return own _ _ _]
      constructor
      · rintro ⟨_, rfl, rfl, rfl⟩
        exact ⟨rfl, rfl⟩
      · rintro ⟨rfl, rfl⟩
        exact ⟨_, rfl, rfl, rfl⟩

theorem course_v1 {route : Except AxumError (List UInt8) → Code Response}
    (entered : entry http state request = .ok body) :
    Course (waits droppable) (v1 http state request route) log ending ↔
      ∃ inner, ending = inner.map (fun resp => versioned state (remapped resp)) ∧
        Course (waits droppable) (route body) log inner := by
  simp only [entry] at entered
  split at entered
  · cases entered
  · rename_i token accepted
    cases limited : http.bodyLimit Check.rawBodyLimitBytes request with
    | error own =>
      rw [limited] at entered
      cases entered
    | ok read =>
      rw [limited] at entered
      obtain rfl := Except.ok.inj entered
      refine (course_map (versioned state)).trans ?_
      simp only [requireBearer, accepted, requestBodyLimit, limited, course_remap413]
      constructor
      · rintro ⟨_, rfl, inner, rfl, course⟩
        exact ⟨inner, Option.map_map _ _ _, course⟩
      · rintro ⟨inner, rfl, course⟩
        exact ⟨inner.map remapped, by cases inner <;> rfl, inner, rfl, course⟩

theorem course_redLayer : Course (waits droppable) (redLayer request next) log ending ↔
    (∃ resp first, ending = some resp ∧ log = first ++ recorded [.requestsTotal (classifyStatus resp.status),
        .requestDuration (classifyStatus resp.status) (classifyEndpoint request.path)] ∧
      Course (waits droppable) next first (some resp)) ∨
    ending = none ∧ Course (waits droppable) next log none := by
  have finish : ∀ resp : Response, Records (do
        record (.requestsTotal (classifyStatus resp.status))
        record (.requestDuration (classifyStatus resp.status) (classifyEndpoint request.path))
        return resp)
      [.requestsTotal (classifyStatus resp.status),
        .requestDuration (classifyStatus resp.status) (classifyEndpoint request.path)] (some resp) :=
    fun resp => records_bind (records_record _) (records_bind (records_record _) (records_return _))
  refine course_bind.trans ?_
  constructor
  · rintro (⟨resp, first, second, rfl, course, rest⟩ | dropped)
    · obtain ⟨rfl, rfl⟩ := (finish resp _ _ _).mp rest
      exact .inl ⟨resp, first, rfl, rfl, course⟩
    · exact .inr dropped
  · rintro (⟨resp, first, rfl, rfl, course⟩ | dropped)
    · exact .inl ⟨resp, first, _, rfl, course, (finish resp _ _ _).mpr ⟨rfl, rfl⟩⟩
    · exact .inr dropped

end

/-! ### The answer to a request -/

section
variable (crates : Crates) (http : HttpCrates) (fromSlice : FromSlice) (state : ServerState)

/-- What the route of `/v1/check` answers to a body it is handed, once it is let in. -/
def posted (request : HttpRequest) (body : Except AxumError (List UInt8)) : Fallible Response :=
  if request.method = .post then (handled crates fromSlice state.toAppState body).map checkResponse
  else .ok (http.methodNotAllowed request)

/-- What a route answers to `GET`. -/
def got (request : HttpRequest) (resp : Response) : Response :=
  if request.method = .get ∨ request.method = .head then resp else http.methodNotAllowed request

/-- What `readyz` answers. -/
def readiness (ready : Bool) : Response :=
  if ready then json 200 (.ready ⟨true, some state.listVersion, some state.engine.languages.length⟩)
  else json 503 (.ready ⟨false, none, none⟩)

/-- What `metrics` answers. -/
def exposed : Response :=
  if state.metrics then ⟨200, [("content-type".toList, "text/plain; version=0.0.4".toList)], .exposition⟩
  else ⟨503, [("content-type".toList, "text/plain; charset=utf-8".toList)],
    .text "metrics recorder not installed\n".toList⟩

/-- What the route of a request answers that meets no other one: a function of the
request and of the state that never changes, and of what it reads of `ready`. -/
def routeAnswer (ready : Bool) (request : HttpRequest) : Fallible Response :=
  if request.path = "/v1/check".toList then
    match entry http state request with
    | .error refused => .ok (versioned state refused.1)
    | .ok body => (posted crates http fromSlice state request body).map fun resp => versioned state (remapped resp)
  else if request.path = "/v1/languages".toList then
    match entry http state request with
    | .error refused => .ok (versioned state refused.1)
    | .ok _ => .ok (versioned state (remapped (got http request (languages state.engine))))
  else if request.path = "/healthz".toList then .ok (got http request healthz)
  else if request.path = "/readyz".toList then .ok (got http request (readiness state ready))
  else if request.path = "/metrics".toList then .ok (got http request (exposed state))
  else .ok (http.fallback request)

/-- The answer to a request that meets no other one. -/
def answer (ready : Bool) (request : HttpRequest) : Fallible Response :=
  (routeAnswer crates http fromSlice state ready request).map (sent request)

/-- The metrics recorded on the way to that answer, below the RED layer. -/
def innerSamples (request : HttpRequest) : List Sample :=
  if request.path = "/v1/check".toList then
    match entry http state request with
    | .error refused => refused.2
    | .ok body => if request.method = .post then handledSamples crates fromSlice state.engine body else []
  else if request.path = "/v1/languages".toList then
    match entry http state request with
    | .error refused => refused.2
    | .ok _ => []
  else []

/-- The metrics the RED layer records for a response. -/
def redSamples (request : HttpRequest) (resp : Response) : List Sample :=
  [.requestsTotal (classifyStatus resp.status),
    .requestDuration (classifyStatus resp.status) (classifyEndpoint request.path)]

/-- The request gets to the in-flight gate. -/
def Gated (request : HttpRequest) : Prop :=
  request.path = "/v1/check".toList ∧ ∃ body, entry http state request = .ok body

/-- The answer to a request that the gate turns away. -/
def overloadedAnswer (request : HttpRequest) : Response := sent request (versioned state ApiError.overloaded.intoResponse)

/-- A request was given its own answer. What it read of the shared state is all
that the answer depends on besides the request, and the gate was passed with room
to spare if it was passed at all. -/
structure Answered (request : HttpRequest) (log : List Step) (resp : Response) : Prop where
  once : (readingsIn log).length ≤ 1
  made : ∀ ready, (∀ value ∈ readingsIn log, value = ready) → answer crates http fromSlice state ready request = .ok resp
  counts : ¬ Gated http state request ∧ countsIn log = [] ∨
    Gated http state request ∧ ∃ prev < state.maxInflight, countsIn log = [.added prev, .subtracted]

/-- How a request ends, after this course. -/
inductive Ends (droppable : Bool) (request : HttpRequest) (log : List Step) : Option Response → Prop where
  | answered {resp : Response} (own : Answered crates http fromSlice state request log resp)
      (samples : samplesIn log = innerSamples crates http fromSlice state request ++ redSamples request resp) :
      Ends droppable request log (some resp)
  | overloaded {prev : Nat} (gated : Gated http state request) (full : state.maxInflight ≤ prev)
      (counts : countsIn log = [.added prev, .subtracted])
      (samples : samplesIn log = redSamples request (overloadedAnswer state request)) :
      Ends droppable request log (some (overloadedAnswer state request))
  /-- Given up by its client while it waits for its body, or ended by a panic in its scan. -/
  | dropped {prev : Nat} (gated : Gated http state request) (room : prev < state.maxInflight)
      (counts : countsIn log = [.added prev, .subtracted])
      (samples : droppable = true ∧ samplesIn log = [] ∨
        (∀ ready resp, answer crates http fromSlice state ready request ≠ .ok resp) ∧
          ∀ sample ∈ samplesIn log, IsEarly sample) :
      Ends droppable request log none

end

section
variable {crates : Crates} {http : HttpCrates} {fromSlice : FromSlice} {state : ServerState}
  {request : HttpRequest} {log : List Step}

theorem answer_ok {ready : Bool} (made : routeAnswer crates http fromSlice state ready request = .ok resp) :
    answer crates http fromSlice state ready request = .ok (sent request resp) := by
  rw [answer, made]
  rfl

@[simp] theorem sent_status (request : HttpRequest) (resp : Response) : (sent request resp).status = resp.status := by
  unfold sent
  split <;> rfl

theorem redSamples_sent (request : HttpRequest) (resp : Response) :
    redSamples request (sent request resp) = redSamples request resp := by
  rw [redSamples, redSamples, sent_status]

/-- Below the RED layer, the route of `/v1/check`. -/
theorem check_route_course (routed : request.path = "/v1/check".toList)
    (course : Course (waits droppable) (route crates http fromSlice state request) log ending) :
    (∃ resp, ending = some resp ∧ Answered crates http fromSlice state request log (sent request resp) ∧
      samplesIn log = innerSamples crates http fromSlice state request) ∨
    (∃ prev, ending = some (versioned state ApiError.overloaded.intoResponse) ∧ Gated http state request ∧
      state.maxInflight ≤ prev ∧ countsIn log = [.added prev, .subtracted] ∧ samplesIn log = []) ∨
    ending = none ∧ Ends crates http fromSlice state droppable request log none := by
  simp only [route, if_pos routed] at course
  cases entered : entry http state request with
  | error refused =>
    obtain ⟨resp, samples⟩ := refused
    obtain ⟨rfl, rfl⟩ := (v1_refused entered _ _ _).mp course
    refine .inl ⟨_, rfl, ⟨by simp, fun _ _ => answer_ok ?_, .inl ⟨?_, countsIn_recorded _⟩⟩, ?_⟩
    · simp only [routeAnswer, if_pos routed, entered]
    · rintro ⟨-, body, entered'⟩
      rw [entered] at entered'
      cases entered'
    · simp only [innerSamples, if_pos routed, entered, samplesIn_recorded]
  | ok body =>
    have gated : Gated http state request := ⟨routed, body, entered⟩
    obtain ⟨inner, rfl, through⟩ := (course_v1 entered).mp course
    obtain ⟨prev, full, rfl, rfl⟩ | ⟨prev, inside, room, rfl, running⟩ := course_gate.mp through
    · exact .inr (.inl ⟨prev, rfl, gated, full, rfl, rfl⟩)
    by_cases posting : request.method = .post
    · simp only [post, if_pos posting] at running
      obtain ⟨result, rfl, handling⟩ := (course_map checkResponse).mp running
      obtain ⟨given, rfl, rfl⟩ | ⟨made, handles, rfl, rfl⟩ := check_course handling
      · exact .inr (.inr ⟨rfl, .dropped gated room (countsIn_within prev rfl)
          (.inl ⟨given, samplesIn_within prev []⟩)⟩)
      · have quiet : countsIn (⟨.readBody, ()⟩ :: recorded made) = [] := countsIn_recorded made
        have noted : samplesIn (⟨.readBody, ()⟩ :: recorded made) = made := samplesIn_recorded made
        have blind : readingsIn (⟨.readBody, ()⟩ :: recorded made) = [] := readingsIn_recorded made
        have answers : ∀ ready, routeAnswer crates http fromSlice state ready request =
            ((handled crates fromSlice state.toAppState body).map checkResponse).map
              fun resp => versioned state (remapped resp) := by
          intro ready
          simp only [routeAnswer, if_pos routed, entered, posted, if_pos posting]
        cases outcome : handled crates fromSlice state.toAppState body with
        | error panic =>
          refine .inr (.inr ⟨rfl, .dropped gated room (countsIn_within prev quiet) (.inr ⟨?_, ?_⟩)⟩)
          · intro ready resp
            rw [answer, answers, outcome]
            rintro ⟨⟩
          · rw [samplesIn_within, noted]
            exact handles.early (by rw [outcome]; rfl)
        | ok given =>
          refine .inl ⟨_, rfl, ⟨?_, ?_, .inr ⟨gated, prev, room, countsIn_within prev quiet⟩⟩, ?_⟩
          · rw [readingsIn_within, blind]
            exact Nat.zero_le 1
          · intro ready _
            apply answer_ok
            rw [answers, outcome]
            rfl
          · rw [samplesIn_within, noted, handles.complete given outcome]
            simp only [innerSamples, if_pos routed, entered, if_pos posting]
    · simp only [post, if_neg posting] at running
      obtain ⟨rfl, rfl⟩ := course_done.mp running
      refine .inl ⟨_, rfl, ⟨?_, ?_, .inr ⟨gated, prev, room, countsIn_within prev rfl⟩⟩, ?_⟩
      · rw [readingsIn_within]
        exact Nat.zero_le 1
      · intro ready _
        apply answer_ok
        simp only [routeAnswer, if_pos routed, entered, posted, if_neg posting]
        rfl
      · rw [samplesIn_within]
        simp only [innerSamples, if_pos routed, entered, if_neg posting]
        rfl

theorem get_return (resp : Response) :
    Service.get http request (return resp) = (return got http request resp) := by
  unfold Service.get got
  split <;> rfl

theorem readyz_course (course : Course (waits droppable) (readyz state.toAppState) log ending) :
    ∃ ready, log = [⟨.loadReady, ready⟩] ∧ ending = some (readiness state ready) := by
  obtain ⟨ready, more, rfl, rest⟩ := (course_perform_bind rfl).mp course
  refine ⟨ready, ?_⟩
  cases ready with
  | true =>
    obtain ⟨rfl, rfl⟩ := course_done.mp rest
    exact ⟨rfl, rfl⟩
  | false =>
    obtain ⟨rfl, rfl⟩ := course_done.mp rest
    exact ⟨rfl, rfl⟩

/-- A scrape copies the counter to its gauge before anything is rendered. -/
theorem metrics_course (course : Course (waits droppable) (metrics state.metrics) log ending) :
    ending = some (exposed state) ∧ ∃ inflight, log = [⟨.loadInflight, inflight⟩, ⟨.setInflight inflight, ()⟩] ++
      if state.metrics then [⟨.render, ()⟩] else [] := by
  obtain ⟨⟨⟩, first, second, rfl, taken, rest⟩ | ⟨rfl, dropped⟩ := course_bind.mp course
  · obtain ⟨inflight, _, rfl, stored⟩ := (course_perform_bind rfl).mp taken
    obtain ⟨⟨⟩, rfl, -⟩ | ⟨⟨⟩, -⟩ := course_perform.mp stored
    unfold exposed
    cases installed : state.metrics with
    | true =>
      simp only [installed, ↓reduceIte] at rest
      obtain ⟨⟨⟩, _, rfl, done⟩ := (course_perform_bind rfl).mp rest
      obtain ⟨rfl, rfl⟩ := course_done.mp done
      exact ⟨rfl, inflight, rfl⟩
    | false =>
      simp only [installed, Bool.false_eq_true, ↓reduceIte] at rest
      obtain ⟨rfl, rfl⟩ := course_done.mp rest
      exact ⟨rfl, inflight, rfl⟩
  · obtain ⟨inflight, _, rfl, stored⟩ := (course_perform_bind rfl).mp dropped
    obtain ⟨_, -, ⟨⟩⟩ | ⟨⟨⟩, -⟩ := course_perform.mp stored

/-- A route that does not pass the gate gives every request its own answer. -/
theorem other_route_course (routed : request.path ≠ "/v1/check".toList)
    (course : Course (waits droppable) (route crates http fromSlice state request) log ending) :
    ∃ resp, ending = some resp ∧ Answered crates http fromSlice state request log (sent request resp) ∧
      samplesIn log = innerSamples crates http fromSlice state request := by
  have ungated : ¬ Gated http state request := fun gated => routed gated.1
  simp only [route, if_neg routed] at course
  by_cases languages : request.path = "/v1/languages".toList
  · rw [if_pos languages] at course
    cases entered : entry http state request with
    | error refused =>
      obtain ⟨resp, samples⟩ := refused
      obtain ⟨rfl, rfl⟩ := (v1_refused entered _ _ _).mp course
      refine ⟨_, rfl, ⟨by simp, fun _ _ => answer_ok ?_, .inl ⟨ungated, countsIn_recorded _⟩⟩, ?_⟩
      · simp only [routeAnswer, if_neg routed, if_pos languages, entered]
      · simp only [innerSamples, if_neg routed, if_pos languages, entered, samplesIn_recorded]
    | ok body =>
      obtain ⟨inner, rfl, through⟩ := (course_v1 entered).mp course
      rw [get_return] at through
      obtain ⟨rfl, rfl⟩ := course_done.mp through
      refine ⟨_, rfl, ⟨Nat.zero_le 1, fun _ _ => answer_ok ?_, .inl ⟨ungated, rfl⟩⟩, ?_⟩
      · simp only [routeAnswer, if_neg routed, if_pos languages, entered]
      · simp only [innerSamples, if_neg routed, if_pos languages, entered]
        rfl
  rw [if_neg languages] at course
  have silent : innerSamples crates http fromSlice state request = [] := by
    simp only [innerSamples, if_neg routed, if_neg languages]
  rw [silent]
  by_cases healthz : request.path = "/healthz".toList
  · rw [if_pos healthz, get_return] at course
    obtain ⟨rfl, rfl⟩ := course_done.mp course
    refine ⟨_, rfl, ⟨Nat.zero_le 1, fun _ _ => answer_ok ?_, .inl ⟨ungated, rfl⟩⟩, rfl⟩
    simp only [routeAnswer, if_neg routed, if_neg languages, if_pos healthz]
  rw [if_neg healthz] at course
  by_cases readyz : request.path = "/readyz".toList
  · rw [if_pos readyz] at course
    have answers : ∀ ready, routeAnswer crates http fromSlice state ready request =
        .ok (got http request (readiness state ready)) := by
      intro ready
      simp only [routeAnswer, if_neg routed, if_neg languages, if_neg healthz, if_pos readyz]
    by_cases getting : request.method = .get ∨ request.method = .head
    · rw [Service.get, if_pos getting] at course
      obtain ⟨value, rfl, rfl⟩ := readyz_course course
      refine ⟨_, rfl, ⟨Nat.le_refl 1, fun ready read => answer_ok ?_, .inl ⟨ungated, rfl⟩⟩, rfl⟩
      obtain rfl : value = ready := read value (List.mem_singleton_self _)
      rw [answers, got, if_pos getting]
    · rw [Service.get, if_neg getting] at course
      obtain ⟨rfl, rfl⟩ := course_done.mp course
      refine ⟨_, rfl, ⟨Nat.zero_le 1, fun _ _ => answer_ok ?_, .inl ⟨ungated, rfl⟩⟩, rfl⟩
      rw [answers, got, if_neg getting]
  rw [if_neg readyz] at course
  by_cases metrics : request.path = "/metrics".toList
  · rw [if_pos metrics] at course
    have answers : ∀ ready, routeAnswer crates http fromSlice state ready request =
        .ok (got http request (exposed state)) := by
      intro ready
      simp only [routeAnswer, if_neg routed, if_neg languages, if_neg healthz, if_neg readyz, if_pos metrics]
    by_cases getting : request.method = .get ∨ request.method = .head
    · rw [Service.get, if_pos getting] at course
      obtain ⟨rfl, inflight, rfl⟩ := metrics_course course
      refine ⟨_, rfl, ⟨?_, fun ready _ => answer_ok ?_, .inl ⟨ungated, ?_⟩⟩, ?_⟩
      · split <;> exact Nat.zero_le 1
      · rw [answers, got, if_pos getting]
      · split <;> rfl
      · split <;> rfl
    · rw [Service.get, if_neg getting] at course
      obtain ⟨rfl, rfl⟩ := course_done.mp course
      refine ⟨_, rfl, ⟨Nat.zero_le 1, fun _ _ => answer_ok ?_, .inl ⟨ungated, rfl⟩⟩, rfl⟩
      rw [answers, got, if_neg getting]
  · rw [if_neg metrics] at course
    obtain ⟨rfl, rfl⟩ := course_done.mp course
    refine ⟨_, rfl, ⟨Nat.zero_le 1, fun _ _ => answer_ok ?_, .inl ⟨ungated, rfl⟩⟩, rfl⟩
    simp only [routeAnswer, if_neg routed, if_neg languages, if_neg healthz, if_neg readyz, if_neg metrics]

theorem Answered.red {first : List Step} (own : Answered crates http fromSlice state request first resp)
    (samples : List Sample) : Answered crates http fromSlice state request (first ++ recorded samples) resp where
  once := by simpa using own.once
  made := by simpa using own.made
  counts := by simpa using own.counts

/-- Every course of a request ends in one of three ways. -/
theorem router_ends (course : Course (waits droppable) (router crates http fromSlice state request) log ending) :
    Ends crates http fromSlice state droppable request log ending := by
  have own : ∀ {first resp}, Answered crates http fromSlice state request first (sent request resp) →
      samplesIn first = innerSamples crates http fromSlice state request →
      Ends crates http fromSlice state droppable request (first ++ recorded (redSamples request resp))
        (some (sent request resp)) := by
    intro first resp answered samples
    refine .answered (answered.red _) ?_
    rw [samplesIn_append, samples, samplesIn_recorded, redSamples_sent]
  obtain ⟨inner, rfl, through⟩ := (course_map (sent request)).mp course
  by_cases routed : request.path = "/v1/check".toList
  · obtain ⟨resp, first, rfl, rfl, below⟩ | ⟨rfl, below⟩ := course_redLayer.mp through
    · obtain ⟨_, ⟨⟩, answered, samples⟩ | ⟨prev, ⟨⟩, gated, full, counts, samples⟩ | ⟨⟨⟩, -⟩ :=
        check_route_course routed below
      · exact own answered samples
      · refine .overloaded gated full ?_ ?_
        · rw [countsIn_append, counts, countsIn_recorded]
          rfl
        · rw [samplesIn_append, samples, samplesIn_recorded, overloadedAnswer, redSamples_sent]
          rfl
    · obtain ⟨_, ⟨⟩, -⟩ | ⟨_, ⟨⟩, -⟩ | ⟨-, dropped⟩ := check_route_course routed below
      exact dropped
  · obtain ⟨resp, first, rfl, rfl, below⟩ | ⟨rfl, below⟩ := course_redLayer.mp through
    · obtain ⟨_, ⟨⟩, answered, samples⟩ := other_route_course routed below
      exact own answered samples
    · obtain ⟨_, ⟨⟩, -⟩ := other_route_course routed below

end

end VocabVeto.ServiceCourses
