import VocabVeto.Core.Config
import VocabVeto.Core.Service

/-! `main.rs` and `install_recorder`: from the configuration to the state that
requests share. Binding the listener comes after. -/
namespace VocabVeto.Main
open Config Service

/-- `PrometheusBuilder`, with its errors already formatted. -/
structure PrometheusBuilder (F : Type) where
  setBucketsForMetric : Str → List F → Except Str Unit
  installRecorder : Except Str Unit

/-- `M_REQUEST_DURATION`. -/
def requestDuration : Str := "vv_request_duration_seconds".toList

/-- `M_MATCH_DURATION`. -/
def matchDuration : Str := "vv_match_duration_seconds".toList

/-- `install_recorder`. -/
def installRecorder (builder : PrometheusBuilder F) : Option (List F) → Except Str Unit
  | none => builder.installRecorder
  | some b => do
    builder.setBucketsForMetric requestDuration b
    builder.setBucketsForMetric matchDuration b
    builder.installRecorder

/-- Why a server does not start. -/
inductive StartError where
  | config (e : ConfigError)
  | recorder (message : Str)
  | unknownLangs (e : UnknownLangsError)
  deriving DecidableEq, Repr

/-- `main`: the state it serves with, and the languages it loaded. -/
def main (floats : Floats F) (figment : Figment) (builder : PrometheusBuilder F) (process : Process)
    (terms : HashMap Lang (List Str)) (listVersion : Str) : Fallible (Except StartError (ServerState × List Lang)) :=
  match load floats figment process with
  | .error e => .ok (.error (.config e))
  | .ok cfg =>
    match installRecorder builder cfg.histogramBuckets with
    | .error e => .ok (.error (.recorder e))
    | .ok () =>
      match resolveLoadedLangs terms cfg.langs with
      | .error e => .ok (.error (.unknownLangs e))
      | .ok loaded => do
        let patterns ← gatherPatterns terms loaded ∅
        return .ok (⟨⟨Engine.new patterns, listVersion⟩, cfg.apiKeys, cfg.maxInflight, true⟩, loaded)

end VocabVeto.Main
