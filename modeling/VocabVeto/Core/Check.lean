import VocabVeto.Core.Terms

/-! `model.rs`, `error.rs` and `routes/check.rs`: the request and response
bodies, the error table, and the handler behind authentication and the gate. -/
namespace VocabVeto

structure CheckRequest where
  text : Str
  langs : Option (List Str)
  mode : Option Str
  deriving DecidableEq, Repr

structure MatchDto where
  lang : Str
  term : Str
  matchedText : Str
  start : Nat
  stop : Nat
  deriving DecidableEq, Repr

structure CheckResponse where
  listVersion : Str
  modeUsed : BTreeMap Str
  found : List MatchDto
  truncated : Bool
  deriving DecidableEq, Repr

/-- `serde_json::from_slice::<CheckRequest>`, with its error already formatted. -/
abbrev FromSlice := List UInt8 → Except Str CheckRequest

inductive UnauthorizedReason where
  | missing
  | invalid
  deriving DecidableEq, Repr

inductive ApiError where
  | badRequest (message : Str)
  | unauthorized (reason : UnauthorizedReason)
  | payloadTooLarge
  | emptyText
  | emptyLangs
  | unknownLanguage (code : Str)
  | invalidMode
  | overloaded
  | internal
  deriving DecidableEq, Repr

/-- `ApiError::parts`: status, error code and message. -/
def ApiError.parts : ApiError → Nat × Str × Str
  | .badRequest message => (400, "bad_request".toList, message)
  | .unauthorized _ => (401, "unauthorized".toList, "authentication required".toList)
  | .payloadTooLarge => (413, "payload_too_large".toList, "request body exceeds limit".toList)
  | .emptyText => (422, "empty_text".toList, "text must be non-empty".toList)
  | .emptyLangs => (422, "empty_langs".toList, "langs must be non-empty when provided".toList)
  | .unknownLanguage code => (422, "unknown_language".toList, "unknown language: ".toList ++ code)
  | .invalidMode => (422, "invalid_mode".toList, "mode must be \"strict\" or \"substring\"".toList)
  | .overloaded => (503, "overloaded".toList, "too many in-flight requests".toList)
  | .internal => (500, "internal".toList, "internal server error".toList)

/-- The status of an answer. -/
def status : Except ApiError CheckResponse → Nat
  | .ok _ => 200
  | .error e => e.parts.1

/-- The part of `AppState` the handler reads. -/
structure AppState where
  engine : Engine
  listVersion : Str

/-- The loop that fills `mode_used`. -/
def modeUsedMap (modeUsed : List (Lang × Mode)) : BTreeMap Str :=
  modeUsed.foldl (fun map entry => BTreeMap.insert entry.1 entry.2.asWireStr map) []

/-- `matches.into_iter().map(..)`. -/
def matchDtos (found : List Match) : List MatchDto :=
  found.map fun m => ⟨m.lang, m.term, m.matchedText, m.start, m.stop⟩

/-- The `match` on the requested mode, which the handler and the command each have. -/
def parseMode (refuse : Str → ε) : Option Str → Except ε (Option Mode)
  | none => .ok none
  | some mode =>
    if mode = "strict".toList then .ok (some .strict)
    else if mode = "substring".toList then .ok (some .substring)
    else .error (refuse mode)

/-- The loop over the requested languages, which they each have too: lowercase
every code, and stop at the first that is not known. -/
def lowerKnown (known : Lang → Bool) (refuse : Lang → ε) : List Str → List Lang → Except ε (List Lang)
  | [], out => .ok out
  | raw :: list, out =>
    let lower := Str.toAsciiLowercase raw
    if !known lower then .error (refuse lower) else lowerKnown known refuse list (out ++ [lower])

namespace Check

/-- The message of a body that does not parse. -/
def malformedJson (e : Str) : Str := "malformed JSON: ".toList ++ e

/-- `mode_resolved`. -/
def resolveMode : Option Str → Except ApiError (Option Mode) := parseMode fun _ => .invalidMode

/-- The loop of the handler. -/
def requestedLangs (engine : Engine) (v : List Str) : Except ApiError (List Lang) :=
  lowerKnown engine.hasLanguage .unknownLanguage v []

/-- `scan_langs`. -/
def scanLangs (engine : Engine) : Option (List Str) → Except ApiError (List Lang)
  | some v => if v.isEmpty then .error .emptyLangs else requestedLangs engine v
  | none => .ok (sort engine.languages)

/-- The handler `check` on a body it has read. -/
def check (crates : Crates) (fromSlice : FromSlice) (state : AppState) (bytes : List UInt8) :
    Fallible (Except ApiError CheckResponse) :=
  match fromSlice bytes with
  | .error e => .ok (.error (.badRequest (malformedJson e)))
  | .ok request =>
    if request.text.isEmpty then .ok (.error .emptyText)
    else match resolveMode request.mode with
      | .error e => .ok (.error e)
      | .ok mode =>
        match Check.scanLangs state.engine request.langs with
        | .error e => .ok (.error e)
        | .ok langs => do
          match ← state.engine.scan crates request.text langs mode with
          | .error .tooLarge => return .error .payloadTooLarge
          | .ok result =>
            return .ok ⟨state.listVersion, modeUsedMap result.modeUsed, matchDtos result.found, result.truncated⟩

/-- `RAW_BODY_LIMIT_BYTES`. -/
def rawBodyLimitBytes : Nat := 64 * 1024

/-- The handler behind `RequestBodyLimitLayer` and `remap_413`. -/
def limitedCheck (crates : Crates) (fromSlice : FromSlice) (state : AppState) (bytes : List UInt8) :
    Fallible (Except ApiError CheckResponse) :=
  if bytes.length > rawBodyLimitBytes then .ok (.error .payloadTooLarge)
  else check crates fromSlice state bytes

end Check

end VocabVeto
