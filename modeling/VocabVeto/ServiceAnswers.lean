import VocabVeto.ServiceMetrics

/-! What a client can rely on in the answers of a server, in every run: the
statuses, the headers and the error table, and that a call of `/v1/check` gets
what the handler makes of its body, whichever way an oversize one is caught. -/
namespace VocabVeto.ServiceAnswers
open Runs Tasks Service ServiceCourses ServiceProofs ServiceMetrics

section
variable {crates : Crates} {http : HttpCrates} {fromSlice : FromSlice} {state : ServerState}
  {request : HttpRequest} {resp : Response}

/-! ### The shape of an answer -/

def wwwAuthenticate : Str := "www-authenticate".toList

/-- The response carries a challenge. -/
def Challenges (resp : Response) : Prop := ∃ value, (wwwAuthenticate, value) ∈ resp.headers

/-- What a request can be answered with. -/
inductive Shape (http : HttpCrates) (state : ServerState) (request : HttpRequest) : Response → Prop where
  | notFound (outside : ¬ IsV1 request.path) : Shape http state request (http.fallback request)
  | wrongMethod (outside : ¬ IsV1 request.path) : Shape http state request (http.methodNotAllowed request)
  | served {resp : Response} (outside : ¬ IsV1 request.path) (status : resp.status = 200 ∨ resp.status = 503)
      (unchallenged : ¬ Challenges resp) : Shape http state request resp
  | reported {resp : Response} (entered : refusalOf state request = none) (v1 : IsV1 request.path)
      (success : resp.status = 200) (unchallenged : ¬ Challenges resp) :
      Shape http state request (versioned state resp)
  | v1WrongMethod (entered : refusalOf state request = none) (v1 : IsV1 request.path) :
      Shape http state request (versioned state (http.methodNotAllowed request))
  | failed {e : ApiError} (v1 : IsV1 request.path) (shown : e ≠ .internal)
      (refusal : ∀ reason, e = .unauthorized reason ↔ refusalOf state request = some reason) :
      Shape http state request (versioned state e.intoResponse)

/-- A response that only says what its body is. -/
theorem unchallenged (headers : resp.headers = [("content-type".toList, kind)]) : ¬ Challenges resp := by
  rintro ⟨value, member⟩
  rw [headers] at member
  have same : wwwAuthenticate = "content-type".toList := congrArg Prod.fst (List.mem_singleton.mp member)
  exact absurd same (by decide)

theorem remapped_checkResponse (outcome : Except ApiError CheckResponse) :
    remapped (checkResponse outcome) = checkResponse outcome := by
  unfold remapped
  split
  · rename_i large
    cases outcome with
    | ok report => cases large
    | error e => cases e <;> first | rfl | cases large
  · rfl

theorem remapped_of_ne (kept : resp.status ≠ 413) : remapped resp = resp := if_neg kept

theorem parseMode_refuses {refuse : Str → ε} (refused : parseMode refuse mode = .error e) : ∃ other, e = refuse other := by
  unfold parseMode at refused
  split at refused
  · cases refused
  · rename_i other
    split at refused
    · cases refused
    · split at refused
      · cases refused
      · exact ⟨other, (Except.error.inj refused).symm⟩

theorem lowerKnown_refuses {refuse : Lang → ε} (refused : lowerKnown known refuse list out = .error e) :
    ∃ lower, known lower = false ∧ e = refuse lower := by
  induction list generalizing out with
  | nil => cases refused
  | cons raw list ih =>
    simp only [lowerKnown] at refused
    split at refused
    · rename_i unknown
      exact ⟨_, by simpa using unknown, (Except.error.inj refused).symm⟩
    · exact ih refused

theorem scanLangs_refuses {engine : Engine} (refused : Check.scanLangs engine langs = .error e) :
    e = .emptyLangs ∨ ∃ lower, engine.hasLanguage lower = false ∧ e = .unknownLanguage lower := by
  unfold Check.scanLangs at refused
  split at refused
  · split at refused
    · exact .inl (Except.error.inj refused).symm
    · exact .inr (lowerKnown_refuses refused)
  · cases refused

/-- The errors the handler answers with: never one of another layer. -/
theorem handled_error {body : Except AxumError (List UInt8)}
    (made : handled crates fromSlice state.toAppState body = .ok (.error e)) :
    e ≠ .internal ∧ ∀ reason, e ≠ .unauthorized reason := by
  have settle : ∀ {own : ApiError}, (.ok (.error own) : Fallible (Except ApiError CheckResponse)) = .ok (.error e) →
      own ≠ .internal ∧ (∀ reason, own ≠ .unauthorized reason) → e ≠ .internal ∧ ∀ reason, e ≠ .unauthorized reason := by
    rintro own ⟨⟩ shown
    exact shown
  cases body with
  | error failure =>
    refine settle made ?_
    split
    · simp
    · simp
  | ok bytes =>
    simp only [handled, Check.check] at made
    split at made
    · exact settle made (by simp)
    split at made
    · exact settle made (by simp)
    split at made
    · rename_i refused
      obtain ⟨_, rfl⟩ := parseMode_refuses refused
      exact settle made (by simp)
    split at made
    · rename_i refused
      obtain rfl | ⟨_, -, rfl⟩ := scanLangs_refuses refused
      · exact settle made (by simp)
      · exact settle made (by simp)
    rename_i langs _
    cases ran : state.engine.scan crates _ langs _ with
    | error panic =>
      rw [ran] at made
      cases made
    | ok outcome =>
      rw [ran] at made
      cases outcome with
      | error large => exact settle made (by simp)
      | ok result => cases made

theorem entry_shape (limits : http.LimitsBodies) (v1 : IsV1 request.path)
    (refused : entry http state request = .error (resp, samples)) : Shape http state request (versioned state resp) := by
  simp only [entry] at refused
  split at refused
  · rename_i reason rejected
    obtain ⟨rfl, -⟩ := Prod.mk.inj (Except.error.inj refused)
    refine .failed v1 (by simp) fun other => ?_
    rw [refusalOf, if_pos v1, rejected]
    simp
  · rename_i token accepted
    cases limited : http.bodyLimit Check.rawBodyLimitBytes request with
    | ok body =>
      rw [limited] at refused
      cases refused
    | error own =>
      rw [limited] at refused
      obtain ⟨rfl, -⟩ := Prod.mk.inj (Except.error.inj refused)
      rw [remapped, if_pos (limits.own _ _ _ limited)]
      refine .failed v1 (by simp) fun other => ?_
      rw [refusalOf, if_pos v1, accepted]
      simp

theorem got_shape (outside : ¬ IsV1 request.path) (status : resp.status = 200 ∨ resp.status = 503)
    (unchallenged : ¬ Challenges resp) : Shape http state request (got http request resp) := by
  unfold got
  split
  · exact .served outside status unchallenged
  · exact .wrongMethod outside

theorem route_shape (plain : http.AnswersPlainly) (limits : http.LimitsBodies)
    (own : routeAnswer crates http fromSlice state ready request = .ok resp) : Shape http state request resp := by
  have refusesMethod : remapped (http.methodNotAllowed request) = http.methodNotAllowed request := by
    apply remapped_of_ne
    rw [(plain.methodNotAllowed request).status]
    decide
  unfold routeAnswer at own
  split at own
  · rename_i check
    split at own
    · rename_i refused entered
      rw [← Except.ok.inj own]
      exact entry_shape limits (.inl check) entered
    · rename_i body entered
      have known := entry_entered entered
      unfold posted at own
      split at own
      · cases made : handled crates fromSlice state.toAppState body with
        | error panic =>
          rw [made] at own
          cases own
        | ok given =>
          rw [made] at own
          obtain rfl := Except.ok.inj own
          change Shape http state request (versioned state (remapped (checkResponse given)))
          rw [remapped_checkResponse]
          cases given with
          | ok report => exact .reported known (.inl check) rfl (unchallenged rfl)
          | error e =>
            obtain ⟨shown, authenticated⟩ := handled_error made
            refine .failed (.inl check) shown fun reason => ?_
            rw [known]
            simp [authenticated]
      · rw [← Except.ok.inj own]
        change Shape http state request (versioned state (remapped (http.methodNotAllowed request)))
        rw [refusesMethod]
        exact .v1WrongMethod known (.inl check)
  split at own
  · rename_i languages
    split at own
    · rename_i refused entered
      rw [← Except.ok.inj own]
      exact entry_shape limits (.inr languages) entered
    · rename_i body entered
      have known := entry_entered entered
      rw [← Except.ok.inj own]
      unfold got
      split
      · have success : (Service.languages state.engine).status ≠ 413 := fun same => by cases same
        rw [remapped_of_ne success]
        exact .reported known (.inr languages) rfl (unchallenged rfl)
      · rw [refusesMethod]
        exact .v1WrongMethod known (.inr languages)
  rename_i check languages
  have outside : ¬ IsV1 request.path := not_or.mpr ⟨check, languages⟩
  split at own
  · rw [← Except.ok.inj own]
    exact got_shape outside (.inl rfl) (by simp [Challenges, healthz])
  split at own
  · rw [← Except.ok.inj own]
    cases ready with
    | true => exact got_shape outside (.inl rfl) (unchallenged rfl)
    | false => exact got_shape outside (.inr rfl) (unchallenged rfl)
  split at own
  · rw [← Except.ok.inj own]
    unfold exposed
    split
    · exact got_shape outside (.inl rfl) (unchallenged rfl)
    · exact got_shape outside (.inr rfl) (unchallenged rfl)
  · rw [← Except.ok.inj own]
    exact .notFound outside

/-! ### The contract -/

/-- What a client can rely on in an answer. -/
structure Contract (state : ServerState) (request : HttpRequest) (resp : Response) : Prop where
  /-- No other status ever occurs; the other classes of `classify_status` stay empty. -/
  statuses : resp.status ∈ [200, 400, 401, 404, 405, 413, 422, 503]
  authenticated : resp.status = 401 ↔ refusalOf state request ≠ none
  challenged : Challenges resp ↔ resp.status = 401
  /-- Every answer of a route that needs authentication names the list version, once. -/
  version : IsV1 request.path →
    resp.headers.filter (fun header => header.1 == xListVersion) = [(xListVersion, state.listVersion)]
  /-- Every failure of such a route, a wrong method apart, is a row of the error
  table, with its code and message for every method that has a body. -/
  canonical : IsV1 request.path → 400 ≤ resp.status → resp.status ≠ 405 → ∃ e : ApiError, resp.status = e.parts.1 ∧
    resp.body = if request.method = .head then .empty else .error e.parts.2.1 e.parts.2.2

theorem insert_once (resp : Response) (name value : Str) :
    (resp.insert name value).headers.filter (fun header => header.1 == name) = [(name, value)] := by
  rw [Response.insert, List.filter_append, List.filter_filter]
  simp

theorem challenges_versioned : Challenges (versioned state resp) ↔ Challenges resp := by
  have other : wwwAuthenticate ≠ xListVersion := by decide
  simp [Challenges, versioned, Response.insert, other]

theorem status_parts (e : ApiError) : e.intoResponse.status = e.parts.1 := by
  cases e <;> rfl

theorem challenges_error (e : ApiError) : Challenges e.intoResponse ↔ e.parts.1 = 401 := by
  cases e with
  | unauthorized reason =>
    refine iff_of_true ⟨"Bearer".toList, ?_⟩ rfl
    exact List.mem_append_right _ List.mem_cons_self
  | _ => exact iff_of_false (unchallenged rfl) nofun

theorem refusalOf_outside (outside : ¬ IsV1 request.path) : refusalOf state request = none := if_neg outside

theorem status_shown {e : ApiError} (shown : e ≠ .internal) : e.parts.1 ∈ [200, 400, 401, 404, 405, 413, 422, 503] := by
  cases e with
  | internal => exact absurd rfl shown
  | _ => simp [ApiError.parts]

theorem unauthorized_status {e : ApiError}
    (refusal : ∀ reason, e = .unauthorized reason ↔ refusalOf state request = some reason) :
    e.parts.1 = 401 ↔ refusalOf state request ≠ none := by
  cases e with
  | unauthorized reason =>
    have refused := (refusal reason).mp rfl
    rw [refused]
    exact iff_of_true rfl nofun
  | _ =>
    refine iff_of_false nofun fun refused => ?_
    obtain ⟨reason, same⟩ := Option.ne_none_iff_exists'.mp refused
    cases (refusal reason).mpr same

theorem sent_headers (request : HttpRequest) (resp : Response) : (sent request resp).headers = resp.headers := by
  unfold sent
  split <;> rfl

theorem challenges_sent : Challenges (sent request resp) ↔ Challenges resp := by
  rw [Challenges, sent_headers]
  rfl

/-- On the other routes nothing is promised of the version, nor of the error table. -/
private theorem contract_outside (outside : ¬ IsV1 request.path) (statuses : resp.status ∈ [200, 404, 405, 503])
    (unchallenged : ¬ Challenges resp) : Contract state request (sent request resp) := by
  have granted : resp.status ≠ 401 := by
    rintro refused
    rw [refused] at statuses
    simp at statuses
  refine ⟨?_, ?_, ?_, fun v1 => absurd v1 outside, fun v1 => absurd v1 outside⟩
  · simp only [sent_status, List.mem_cons, List.not_mem_nil, or_false] at statuses ⊢
    omega
  · rw [sent_status, refusalOf_outside outside]
    exact iff_of_false granted (not_not_intro rfl)
  · rw [sent_status, challenges_sent]
    exact iff_of_false unchallenged granted

theorem version_sent (resp : Response) :
    (sent request (versioned state resp)).headers.filter (fun header => header.1 == xListVersion) =
      [(xListVersion, state.listVersion)] := by
  rw [sent_headers]
  exact insert_once _ _ _

theorem contract_of_shape (plain : http.AnswersPlainly) (shape : Shape http state request resp) :
    Contract state request (sent request resp) := by
  cases shape with
  | notFound outside =>
    have bare := plain.fallback request
    exact contract_outside outside (by simp [bare.status]) fun ⟨value, member⟩ => bare.unchallenged value member
  | wrongMethod outside =>
    have bare := plain.methodNotAllowed request
    exact contract_outside outside (by simp [bare.status]) fun ⟨value, member⟩ => bare.unchallenged value member
  | served outside status unchallenged =>
    exact contract_outside outside (by rcases status with status | status <;> simp [status]) unchallenged
  | @reported inner entered v1 success unchallenged =>
    have status : (sent request (versioned state inner)).status = 200 := (sent_status _ _).trans success
    refine ⟨by rw [status]; simp, ?_, ?_, fun _ => version_sent _, fun _ failure => ?_⟩
    · rw [status, entered]
      exact iff_of_false nofun (not_not_intro rfl)
    · rw [challenges_sent, challenges_versioned, status]
      exact iff_of_false unchallenged nofun
    · rw [status] at failure
      omega
  | v1WrongMethod entered v1 =>
    have bare := plain.methodNotAllowed request
    have status : (sent request (versioned state (http.methodNotAllowed request))).status = 405 :=
      (sent_status _ _).trans bare.status
    refine ⟨by rw [status]; simp, ?_, ?_, fun _ => version_sent _, fun _ _ allowed => absurd status allowed⟩
    · rw [status, entered]
      exact iff_of_false nofun (not_not_intro rfl)
    · rw [challenges_sent, challenges_versioned, status]
      exact iff_of_false (fun ⟨value, member⟩ => bare.unchallenged value member) nofun
  | @failed e v1 shown refusal =>
    have status : (sent request (versioned state e.intoResponse)).status = e.parts.1 :=
      (sent_status _ _).trans (status_parts e)
    have body : e.intoResponse.body = .error e.parts.2.1 e.parts.2.2 := by cases e <;> rfl
    refine ⟨?_, ?_, ?_, fun _ => version_sent _, fun _ _ _ => ⟨e, status, ?_⟩⟩
    · rw [status]
      exact status_shown shown
    · rw [status]
      exact unauthorized_status refusal
    · rw [challenges_sent, challenges_versioned, status]
      exact challenges_error e
    · unfold sent
      split
      · rfl
      · exact body

/-- Every answer of a server keeps the contract, in every run. -/
theorem answers_conform (plain : http.AnswersPlainly) (limits : http.LimitsBodies)
    (run : Serves crates http fromSlice state loaded log pool) (given : (request, resp) ∈ answers pool) :
    Contract state request resp := by
  obtain made | ⟨⟨check, body, entered⟩, rfl⟩ := answer_given run given
  · obtain ⟨inner, below, rfl⟩ := answer_sent made
    exact contract_of_shape plain (route_shape plain limits below)
  · refine contract_of_shape plain (.failed (.inl check) nofun fun reason => ?_)
    rw [entry_entered entered]
    exact iff_of_false nofun nofun

theorem answers_conform_crowded : ∃ resp, resp.status = 503 ∧ Contract narrow keyed resp := by
  have run := run_of_play (show play (system AsciiCrates.crates AsciiCrates.http unparsed narrow).step
    ⟨startup narrow ["en".toList], []⟩ [.spawn keyed, .spawn keyed, .advance 0, .advance 1, .advance 1,
      .advance 1, .advance 1] = some _ from rfl)
  exact ⟨_, rfl, answers_conform AsciiCrates.http_answersPlainly AsciiCrates.http_limitsBodies run List.mem_cons_self⟩

/-! ### Calls of `/v1/check` -/

/-- An authenticated call of `/v1/check` whose body arrives whole. -/
structure Calls (state : ServerState) (request : HttpRequest) : Prop where
  path : request.path = "/v1/check".toList
  method : request.method = .post
  authenticated : ∃ token, Auth.check state.apiKeys request.headers = .ok token
  framed : request.WellFramed
  arrived : request.broken = none

/-- What a call is answered with, when its body has this outcome. -/
def rendered (state : ServerState) (outcome : Except ApiError CheckResponse) : Response :=
  versioned state (checkResponse outcome)

private theorem entry_calls (calls : Calls state request) :
    entry http state request =
      (http.bodyLimit Check.rawBodyLimitBytes request).mapError fun resp => (remapped resp, []) := by
  obtain ⟨token, accepted⟩ := calls.authenticated
  rw [entry, accepted]

/-- The layers around the handler make of a call what `limited_check` does: an
oversize body is refused alike, whether its length was declared or not. -/
theorem answer_calls (limits : http.LimitsBodies) (calls : Calls state request) (ready : Bool) :
    answer crates http fromSlice state ready request =
      (Check.limitedCheck crates fromSlice state.toAppState request.body).map (rendered state) := by
  have posts : ∀ body, posted crates http fromSlice state request body =
      (handled crates fromSlice state.toAppState body).map checkResponse := fun body => if_pos calls.method
  have unstripped : sent request = id := funext fun resp => sent_body (by rw [calls.method]; decide) resp
  have whole : answer crates http fromSlice state ready request = routeAnswer crates http fromSlice state ready request := by
    rw [answer, unstripped]
    cases routeAnswer crates http fromSlice state ready request <;> rfl
  rw [whole, routeAnswer, if_pos calls.path, entry_calls calls]
  by_cases large : Check.rawBodyLimitBytes < request.body.length
  · rw [Check.limitedCheck, if_pos large]
    cases length : request.declared with
    | some n =>
      have whole := (calls.framed n length).2 calls.arrived
      obtain ⟨own, refused⟩ := limits.declared _ request n length (whole ▸ large)
      rw [refused]
      change Except.ok (versioned state (remapped own)) = _
      rw [remapped, if_pos (limits.own _ _ _ refused)]
      rfl
    | none =>
      obtain ⟨e, stopped, tripped⟩ := limits.streamed _ request (fun n declared => by
        rw [length] at declared
        cases declared) large
      rw [stopped]
      simp only [Except.mapError, posts, handled, tripped, if_true]
      change Except.ok (versioned state (remapped (checkResponse (.error .payloadTooLarge)))) = _
      rw [remapped_checkResponse]
      rfl
  · have within : ¬ request.Exceeds Check.rawBodyLimitBytes := by
      rintro (⟨n, length, beyond⟩ | beyond)
      · exact large ((calls.framed n length).2 calls.arrived ▸ beyond)
      · exact large beyond
    rw [limits.whole _ request calls.framed within calls.arrived, Check.limitedCheck, if_neg large]
    simp only [Except.mapError, posts, handled]
    cases Check.check crates fromSlice state.toAppState request.body with
    | error panic => rfl
    | ok outcome => exact congrArg (fun resp => Except.ok (versioned state resp)) (remapped_checkResponse outcome)

/-- What becomes of a call: it is answered with what `limited_check` makes of its
body, or turned away by the gate because as many requests were counted as it has
places in the very step that added it, or ended without an answer, by its client
or by a panic. -/
inductive CallEnds (crates : Crates) (http : HttpCrates) (fromSlice : FromSlice) (state : ServerState) (log : Log)
    (i : Nat) (body : List UInt8) : Option Response → Prop where
  | answered {outcome : Except ApiError CheckResponse}
      (made : Check.limitedCheck crates fromSlice state.toAppState body = .ok outcome) :
      CallEnds crates http fromSlice state log i body (some (rendered state outcome))
  | overloaded {prev : Nat} (full : state.maxInflight ≤ prev)
      (added : ReadAsAdded crates http fromSlice state log i prev) :
      CallEnds crates http fromSlice state log i body (some (rendered state (.error .overloaded)))
  | dropped (given : GivenUp log i ∨
      ∃ panic, Check.limitedCheck crates fromSlice state.toAppState body = .error panic) :
      CallEnds crates http fromSlice state log i body none

/-- In every run, an authenticated call of `/v1/check` is answered with the outcome
of its own body alone: no other request, no order of steps and no way of sending
an oversize body makes a difference, the gate's own refusal apart. -/
theorem calls_answered (limits : http.LimitsBodies) (run : Serves crates http fromSlice state loaded log pool)
    (calls : Calls state request) (held : pool.tasks[i]? = some (request, task)) (finished : task.ended = some ending) :
    CallEnds crates http fromSlice state log i request.body ending := by
  classical
  cases ends_of_run run held finished (decide (GivenUp log i)) (fun given => decide_eq_true given) with
  | answered own _ =>
    have made := own_answer run own
    rw [answer_calls limits calls] at made
    cases outcome : Check.limitedCheck crates fromSlice state.toAppState request.body with
    | error panic =>
      rw [outcome] at made
      cases made
    | ok given =>
      rw [outcome] at made
      obtain rfl := Except.ok.inj made
      exact .answered outcome
  | overloaded gated full counts _ =>
    rw [overloadedAnswer, sent_body (by rw [calls.method]; decide)]
    exact .overloaded full (read_as_added counts)
  | dropped gated _ _ samples =>
    refine .dropped ?_
    obtain ⟨given, -⟩ | ⟨panics, -⟩ := samples
    · exact .inl (of_decide_eq_true given)
    · cases outcome : Check.limitedCheck crates fromSlice state.toAppState request.body with
      | error panic => exact .inr ⟨panic, rfl⟩
      | ok made =>
        refine absurd ?_ (panics true (rendered state made))
        rw [answer_calls limits calls, outcome]
        rfl

theorem calls_answered_crowded : ∃ log, CallEnds AsciiCrates.crates AsciiCrates.http unparsed narrow log 1 []
    (some (rendered narrow (.error .overloaded))) := by
  have run := run_of_play (show play (system AsciiCrates.crates AsciiCrates.http unparsed narrow).step
    ⟨startup narrow ["en".toList], []⟩ [.spawn keyed, .spawn keyed, .advance 0, .advance 1, .advance 1,
      .advance 1, .advance 1] = some _ from rfl)
  have calls : Calls narrow keyed := ⟨rfl, rfl, ⟨_, rfl⟩, nofun, rfl⟩
  exact ⟨_, calls_answered AsciiCrates.http_limitsBodies run calls (i := 1) rfl rfl⟩

end

end VocabVeto.ServiceAnswers
