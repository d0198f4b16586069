import VocabVeto.Core.Auth
import VocabVeto.Core.Limits
import VocabVeto.Library.Tasks

/-! `routes/`, `observability.rs` and the middleware of `auth.rs` and `limits.rs`:
what the server does with one request. Requests share the counters of `AppState`
and the metrics recorder, and nothing else; whatever they do to these is an
operation of its own, so that any number of them can interleave. -/
namespace VocabVeto
open Tasks Auth

/-! ### Requests and responses -/

inductive Method where
  | get
  | head
  | post
  | other (name : Str)
  deriving DecidableEq, Repr

/-- An error and what it displays. -/
structure DynError where
  display : Str
  /-- `e.is::<http_body_util::LengthLimitError>()`. -/
  isLengthLimit : Bool
  deriving DecidableEq, Repr

/-- `axum::Error`, with the errors on its source chain. -/
structure AxumError where
  outer : DynError
  sources : List DynError
  deriving DecidableEq, Repr

structure HttpRequest where
  method : Method
  path : Str
  headers : HeaderMap
  /-- The length its `Content-Length` header declares, if it has one. -/
  declared : Option Nat
  body : List UInt8
  /-- The error that ends the transfer of the body, if it does not arrive whole. -/
  broken : Option AxumError
  deriving DecidableEq, Repr

structure LanguagesEntry where
  code : Lang
  defaultMode : Str
  deriving DecidableEq, Repr

structure ReadyResponse where
  ready : Bool
  listVersion : Option Str
  languages : Option Nat
  deriving DecidableEq, Repr

/-- An operation on a metric, as the recorder receives it. Durations are left out. -/
inductive Sample where
  /-- `vv_requests_total`. -/
  | requestsTotal (status : Str)
  /-- `vv_request_duration_seconds`. -/
  | requestDuration (status endpoint : Str)
  /-- `vv_auth_failures_total`. -/
  | authFailuresTotal (reason : Str)
  /-- `vv_input_bytes`. -/
  | inputBytes (bytes : Nat)
  /-- `vv_match_duration_seconds`. -/
  | matchDuration (lang mode : Str)
  /-- `vv_matches_per_request`. -/
  | matchesPerRequest (count : Nat)
  /-- `vv_truncated_total`. -/
  | truncatedTotal
  deriving DecidableEq, Repr

/-- What the Prometheus recorder was told: the samples of the counters and
histograms, and the gauges. What it makes of them is not modelled. -/
structure Recorder where
  samples : List Sample
  /-- `vv_list_version_info`. -/
  listVersionInfo : Str
  /-- `vv_languages_loaded`. -/
  languagesLoaded : Nat
  /-- `vv_inflight`. -/
  inflight : Nat
  /-- `vv_max_inflight`. -/
  maxInflight : Nat
  deriving DecidableEq, Repr

/-- A response body, before it is serialized. -/
inductive Body where
  | empty
  | check (response : CheckResponse)
  | languages (entries : List LanguagesEntry)
  | ready (response : ReadyResponse)
  | error (code message : Str)
  | text (line : Str)
  /-- The text that the Prometheus handle renders. -/
  | exposition
  deriving DecidableEq, Repr

structure Response where
  status : Nat
  headers : List (Str × Str)
  body : Body
  deriving DecidableEq, Repr

/-- `headers_mut().insert(name, value)`, which replaces the header. -/
def Response.insert (resp : Response) (name value : Str) : Response :=
  { resp with headers := resp.headers.filter (fun header => header.1 != name) ++ [(name, value)] }

/-- `(status, Json(body)).into_response()`. -/
def json (status : Nat) (body : Body) : Response :=
  ⟨status, [("content-type".toList, "application/json".toList)], body⟩

/-- `ApiError::into_response`. -/
def ApiError.intoResponse (e : ApiError) : Response :=
  let (status, code, msg) := e.parts
  let resp := json status (.error code msg)
  if status = 401 then resp.insert "www-authenticate".toList "Bearer".toList else resp

/-- `UnauthorizedReason::as_str`. -/
def UnauthorizedReason.asStr : UnauthorizedReason → Str
  | .missing => "missing".toList
  | .invalid => "invalid".toList

/-! ### What requests share -/

/-- The parts of `AppState` that never change. -/
structure ServerState extends AppState where
  apiKeys : List (List UInt8)
  maxInflight : Nat
  /-- Whether a Prometheus handle is installed. -/
  metrics : Bool

structure Shared where
  inflight : Nat
  ready : Bool
  recorder : Recorder
  deriving DecidableEq, Repr

namespace Shared

def setCounter (shared : Shared) (value : Nat) : Shared := { shared with inflight := value }

def setRecorder (shared : Shared) (value : Recorder) : Shared := { shared with recorder := value }

@[simp] theorem setCounter_inflight (shared : Shared) (value : Nat) : (shared.setCounter value).inflight = value := rfl

@[simp] theorem setCounter_ready (shared : Shared) (value : Nat) : (shared.setCounter value).ready = shared.ready := rfl

@[simp] theorem setCounter_recorder (shared : Shared) (value : Nat) :
    (shared.setCounter value).recorder = shared.recorder := rfl

@[simp] theorem setRecorder_inflight (shared : Shared) (value : Recorder) :
    (shared.setRecorder value).inflight = shared.inflight := rfl

@[simp] theorem setRecorder_ready (shared : Shared) (value : Recorder) :
    (shared.setRecorder value).ready = shared.ready := rfl

@[simp] theorem setRecorder_recorder (shared : Shared) (value : Recorder) :
    (shared.setRecorder value).recorder = value := rfl

end Shared

inductive Op where
  /-- `inflight.fetch_add(1)`. -/
  | fetchAdd
  /-- `inflight.fetch_sub(1)`. -/
  | fetchSub
  /-- `inflight.load()`. -/
  | loadInflight
  | setInflight (value : Nat)
  /-- `ready.load()`. -/
  | loadReady
  | record (sample : Sample)
  /-- `handle.render()`. -/
  | render
  /-- `to_bytes(..).await`. -/
  | readBody
  deriving DecidableEq, Repr

abbrev Op.Result : Op → Type
  | .fetchAdd => Nat
  | .loadInflight => Nat
  | .loadReady => Bool
  | _ => Unit

/-- The only operation that waits, and where a request that its client gives up
can be dropped. -/
def Op.suspends : Op → Bool
  | .readBody => true
  | _ => false

def Op.exec : (o : Op) → Shared → o.Result × Shared
  | .fetchAdd, shared => (shared.inflight, shared.setCounter (VocabVeto.fetchAdd shared.inflight))
  | .fetchSub, shared => ((), shared.setCounter (VocabVeto.fetchSub shared.inflight))
  | .loadInflight, shared => (shared.inflight, shared)
  | .setInflight value, shared => ((), shared.setRecorder { shared.recorder with inflight := value })
  | .loadReady, shared => (shared.ready, shared)
  | .record sample, shared =>
    ((), shared.setRecorder { shared.recorder with samples := shared.recorder.samples ++ [sample] })
  | .render, shared => ((), shared)
  | .readBody, shared => ((), shared)

/-- The code of a request, up to a value it computes. -/
abbrev Code (α : Type) := Task Op Op.Result α

/-- `axum` and `tower_http`, as far as the routes rely on them. -/
structure HttpCrates where
  /-- The answer to a path without a route. -/
  fallback : HttpRequest → Response
  /-- The answer of a route to another method than its own. -/
  methodNotAllowed : HttpRequest → Response
  /-- `RequestBodyLimitLayer::new(limit)`: its own answer, or what the body it
  hands on can be read as. -/
  bodyLimit : Nat → HttpRequest → Except Response (Except AxumError (List UInt8))

namespace Service

/-- A computation that shares nothing; a panic in it unwinds. -/
def pureCode : Fallible α → Code α
  | .ok value => .done value
  | .error _ => .fail []

def perform (o : Op) : Code o.Result := Task.perform o

def record (sample : Sample) : Code Unit := perform (.record sample)

/-! ### `POST /v1/check` -/

/-- The loop of `is_length_limit_error` along the source chain. -/
def anyLengthLimit : List DynError → Bool
  | [] => false
  | e :: sources => if e.isLengthLimit then true else anyLengthLimit sources

/-- `is_length_limit_error`. -/
def isLengthLimitError (err : AxumError) : Bool := anyLengthLimit (err.outer :: err.sources)

/-- `record_lang_scan`. -/
def recordLangScan (lang : Lang) (mode : Mode) : Code Unit := record (.matchDuration lang mode.asWireStr)

/-- The loop of `Engine::scan` over the languages, with the metrics it records. -/
def scanLangs (crates : Crates) (engine : Engine) (text : Str) (norm : Normalized) (mode : Option Mode) :
    List Lang → List (Lang × Mode) → List Match → Code ScanResult
  | [], modeUsed, found => return ⟨modeUsed, found, false⟩
  | lang :: langs, modeUsed, found => do
    let m := mode.getD (resolveDefaultMode lang)
    let modeUsed := modeUsed ++ [(lang, m)]
    match engine.automata.lookup lang with
    | none => scanLangs crates engine text norm mode langs modeUsed found
    | some (ac, patterns) =>
      match ← pureCode (scanHits crates ⟨text, norm, lang, m, patterns⟩ (ac.findIter crates norm.text) found) with
      | (found, true) => do
        recordLangScan lang m
        return ⟨modeUsed, found, true⟩
      | (found, false) => do
        recordLangScan lang m
        scanLangs crates engine text norm mode langs modeUsed found

/-- `Engine::scan`, with the metrics it records. -/
def scan (crates : Crates) (engine : Engine) (text : Str) (langs : List Lang) (mode : Option Mode) :
    Code (Except NormalizeError ScanResult) :=
  match normalize crates text with
  | .error e => return .error e
  | .ok norm => do
    let result ← scanLangs crates engine text norm mode langs [] []
    return .ok result

/-- The handler `check` on a request it has parsed. -/
def checkRequest (crates : Crates) (state : AppState) (request : CheckRequest) :
    Code (Except ApiError CheckResponse) :=
  if request.text.isEmpty then return .error .emptyText
  else do
    record (.inputBytes (Str.len request.text))
    match Check.resolveMode request.mode with
    | .error e => return .error e
    | .ok mode =>
      match Check.scanLangs state.engine request.langs with
      | .error e => return .error e
      | .ok langs =>
        match ← scan crates state.engine request.text langs mode with
        | .error .tooLarge => return .error .payloadTooLarge
        | .ok result => do
          let resp := ⟨state.listVersion, modeUsedMap result.modeUsed, matchDtos result.found, result.truncated⟩
          record (.matchesPerRequest (matchDtos result.found).length)
          if result.truncated then do
            record .truncatedTotal
            return .ok resp
          else return .ok resp

/-- The message of a body that cannot be read. -/
def unreadableBody (e : AxumError) : Str := "failed to read body: ".toList ++ e.outer.display

/-- The handler `check` on what its body was read as. -/
def checkBody (crates : Crates) (fromSlice : FromSlice) (state : AppState) :
    Except AxumError (List UInt8) → Code (Except ApiError CheckResponse)
  | .error e =>
    if isLengthLimitError e then return .error .payloadTooLarge
    else return .error (.badRequest (unreadableBody e))
  | .ok bytes =>
    match fromSlice bytes with
    | .error e => return .error (.badRequest (Check.malformedJson e))
    | .ok request => checkRequest crates state request

/-- The handler `check`. -/
def check (crates : Crates) (fromSlice : FromSlice) (state : AppState)
    (body : Except AxumError (List UInt8)) : Code (Except ApiError CheckResponse) := do
  perform .readBody
  checkBody crates fromSlice state body

/-- `IntoResponse` of the result of `check`. -/
def checkResponse : Except ApiError CheckResponse → Response
  | .ok resp => json 200 (.check resp)
  | .error e => e.intoResponse

/-! ### The other handlers -/

/-- The handler `languages`. -/
def languages (engine : Engine) : Response :=
  json 200 (.languages ((sort engine.languages).map fun code => ⟨code, (resolveDefaultMode code).asWireStr⟩))

/-- The handler `healthz`. -/
def healthz : Response := ⟨200, [], .empty⟩

/-- The handler `readyz`. -/
def readyz (state : AppState) : Code Response := do
  let ready ← perform .loadReady
  if ready then return json 200 (.ready ⟨true, some state.listVersion, some state.engine.languages.length⟩)
  else return json 503 (.ready ⟨false, none, none⟩)

/-- `snapshot_inflight`. -/
def snapshotInflight : Code Unit := do
  let inflight ← perform .loadInflight
  perform (.setInflight inflight)

/-- The handler `metrics`. -/
def metrics (installed : Bool) : Code Response := do
  snapshotInflight
  if installed then do
    perform .render
    return ⟨200, [("content-type".toList, "text/plain; version=0.0.4".toList)], .exposition⟩
  else return ⟨503, [("content-type".toList, "text/plain; charset=utf-8".toList)],
    .text "metrics recorder not installed\n".toList⟩

/-! ### Middleware -/

/-- `gate`. -/
def gate (maxInflight : Nat) (next : Code Response) : Code Response := do
  let prev ← perform .fetchAdd
  if prev ≥ maxInflight then do
    perform .fetchSub
    return ApiError.overloaded.intoResponse
  else next.guarded .fetchSub

/-- `require_bearer`. -/
def requireBearer (apiKeys : List (List UInt8)) (request : HttpRequest) (next : Code Response) : Code Response :=
  match Auth.check apiKeys request.headers with
  | .ok _ => next
  | .error reason => do
    record (.authFailuresTotal reason.asStr)
    return (ApiError.unauthorized reason).intoResponse

/-- `remap_413`. -/
def remap413 (next : Code Response) : Code Response := do
  let resp ← next
  if resp.status = 413 then return ApiError.payloadTooLarge.intoResponse else return resp

/-- `RequestBodyLimitLayer`, around a service that reads the body it is given. -/
def requestBodyLimit (http : HttpCrates) (request : HttpRequest)
    (next : Except AxumError (List UInt8) → Code Response) : Code Response :=
  match http.bodyLimit Check.rawBodyLimitBytes request with
  | .error resp => return resp
  | .ok body => next body

/-- `SetResponseHeaderLayer::overriding`. -/
def setResponseHeader (name value : Str) (next : Code Response) : Code Response := do
  let resp ← next
  return resp.insert name value

/-- `classify_endpoint`. -/
def classifyEndpoint (path : Str) : Str :=
  if path = "/v1/check".toList then "/v1/check".toList
  else if path = "/v1/languages".toList then "/v1/languages".toList
  else if path = "/healthz".toList then "/healthz".toList
  else if path = "/readyz".toList then "/readyz".toList
  else if path = "/metrics".toList then "/metrics".toList
  else "other".toList

/-- `classify_status`. -/
def classifyStatus (code : Nat) : Str :=
  if 200 ≤ code ∧ code ≤ 299 then "2xx".toList
  else if 400 ≤ code ∧ code ≤ 499 then "4xx".toList
  else if 500 ≤ code ∧ code ≤ 599 then "5xx".toList
  else "other".toList

/-- `red_layer`. -/
def redLayer (request : HttpRequest) (next : Code Response) : Code Response := do
  let endpoint := classifyEndpoint request.path
  let resp ← next
  let statusClass := classifyStatus resp.status
  record (.requestsTotal statusClass)
  record (.requestDuration statusClass endpoint)
  return resp

/-! ### The router -/

/-- `x_list_version`. -/
def xListVersion : Str := "x-list-version".toList

/-- `post(handler)`. -/
def post (http : HttpCrates) (request : HttpRequest) (handler : Code Response) : Code Response :=
  if request.method = .post then handler else return http.methodNotAllowed request

/-- `get(handler)`, which serves `HEAD` too. -/
def get (http : HttpCrates) (request : HttpRequest) (handler : Code Response) : Code Response :=
  if request.method = .get ∨ request.method = .head then handler else return http.methodNotAllowed request

/-- The layers that both routes under `/v1` share, in the order a request passes them. -/
def v1 (http : HttpCrates) (state : ServerState) (request : HttpRequest)
    (route : Except AxumError (List UInt8) → Code Response) : Code Response :=
  setResponseHeader xListVersion state.listVersion
    (requireBearer state.apiKeys request (remap413 (requestBodyLimit http request route)))

/-- The route a request takes in `build_router`. -/
def route (crates : Crates) (http : HttpCrates) (fromSlice : FromSlice) (state : ServerState)
    (request : HttpRequest) : Code Response :=
  if request.path = "/v1/check".toList then
    v1 http state request fun body => gate state.maxInflight (post http request do
      let result ← check crates fromSlice state.toAppState body
      return checkResponse result)
  else if request.path = "/v1/languages".toList then
    v1 http state request fun _ => get http request (return languages state.engine)
  else if request.path = "/healthz".toList then get http request (return healthz)
  else if request.path = "/readyz".toList then get http request (readyz state.toAppState)
  else if request.path = "/metrics".toList then get http request (metrics state.metrics)
  else return http.fallback request

/-- What `axum` sends of a response: to `HEAD`, not the body. -/
def sent (request : HttpRequest) (resp : Response) : Response :=
  if request.method = .head then { resp with body := .empty } else resp

/-- The router of `build_router`. -/
def router (crates : Crates) (http : HttpCrates) (fromSlice : FromSlice) (state : ServerState)
    (request : HttpRequest) : Code Response := do
  let resp ← redLayer request (route crates http fromSlice state request)
  return sent request resp

/-- A server: any number of requests, each at its own place in the router. -/
def system (crates : Crates) (http : HttpCrates) (fromSlice : FromSlice) (state : ServerState) :
    System HttpRequest Shared Op Op.Result Response where
  program := router crates http fromSlice state
  suspends := Op.suspends
  exec := Op.exec

/-- `record_startup`, on a recorder that was just installed. -/
def recordStartup (listVersion : Str) (languagesLoaded maxInflight : Nat) : Recorder :=
  ⟨[], listVersion, languagesLoaded, 0, maxInflight⟩

/-- What `main` shares with the requests when it starts to serve. -/
def startup (state : ServerState) (loaded : List Lang) : Shared :=
  ⟨0, true, recordStartup state.listVersion loaded.length state.maxInflight⟩

end Service

/-! ### What the third-party layers answer -/

/-- A body arrives as its `Content-Length` says, or is cut short by an error. -/
def HttpRequest.WellFramed (request : HttpRequest) : Prop :=
  ∀ n, request.declared = some n → request.body.length ≤ n ∧ (request.broken = none → n = request.body.length)

/-- The request declares or sends more than this many bytes. -/
def HttpRequest.Exceeds (limit : Nat) (request : HttpRequest) : Prop :=
  (∃ n, request.declared = some n ∧ limit < n) ∨ limit < request.body.length

namespace HttpCrates

/-- The response has this status, neither a body nor a challenge, and whatever
other headers. -/
structure Bare (status : Nat) (resp : Response) : Prop where
  status : resp.status = status
  body : resp.body = .empty
  unchallenged : ∀ value, ("www-authenticate".toList, value) ∉ resp.headers

/-- A path without a route is not found, and a route refuses other methods. -/
structure AnswersPlainly (http : HttpCrates) : Prop where
  fallback : ∀ request, Bare 404 (http.fallback request)
  methodNotAllowed : ∀ request, Bare 405 (http.methodNotAllowed request)

/-- The layer refuses a body that is declared too long, and stops one that turns
out to be; any other body it hands on as it arrives. -/
structure LimitsBodies (http : HttpCrates) : Prop where
  own : ∀ limit request resp, http.bodyLimit limit request = .error resp → resp.status = 413
  declared : ∀ limit request n, request.declared = some n → limit < n →
    ∃ resp, http.bodyLimit limit request = .error resp
  streamed : ∀ limit request, (∀ n, request.declared = some n → n ≤ limit) → limit < request.body.length →
    ∃ e, http.bodyLimit limit request = .ok (.error e) ∧ Service.isLengthLimitError e = true
  broken : ∀ limit request e, request.WellFramed → ¬ request.Exceeds limit → request.broken = some e →
    http.bodyLimit limit request = .ok (.error e)
  whole : ∀ limit request, request.WellFramed → ¬ request.Exceeds limit → request.broken = none →
    http.bodyLimit limit request = .ok (.ok request.body)

end HttpCrates

end VocabVeto
