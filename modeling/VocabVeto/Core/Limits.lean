import VocabVeto.Library.Runs

/-! `limits.rs`: the in-flight gate around `/v1/check`. Any number of requests
pass it concurrently. Each atomic operation on the shared counter is a step of
its own, and so are the comparison and the end of the handler, so a run is one
interleaving of all of them. -/
namespace VocabVeto

/-- `counter.fetch_add(1)` on a `usize`. -/
def fetchAdd (n : Nat) : Nat := (n + 1) % 2 ^ 64

/-- `counter.fetch_sub(1)` on a `usize`. -/
def fetchSub (n : Nat) : Nat := (n + (2 ^ 64 - 1)) % 2 ^ 64

/-- How the handler of an admitted request ends. -/
inductive Ending where
  | returned
  /-- The future is dropped while it awaits `next.run`. -/
  | cancelled
  /-- A panic unwinds through the gate. -/
  | panicked
  deriving DecidableEq, Repr

/-- Where a request stands in `gate`. -/
inductive Phase where
  | arriving
  /-- Past `fetch_add`, which returned this value. -/
  | counted (prev : Nat)
  /-- Past the comparison on the rejecting branch, before its `fetch_sub`. -/
  | rejecting
  /-- Answered 503 `overloaded`. -/
  | overloaded
  /-- Holding the guard, with the handler running. -/
  | holding
  /-- The handler is over and the guard is about to be dropped. -/
  | closing (ending : Ending)
  | finished (ending : Ending)
  deriving DecidableEq, Repr

/-- The counter of `AppState` and the requests that have reached the gate. -/
structure Gate where
  inflight : Nat
  requests : List Phase
  deriving DecidableEq, Repr

inductive GateAction where
  | arrive
  | fetchAdd (request : Nat)
  | compare (request : Nat)
  | fetchSub (request : Nat)
  | endHandler (request : Nat) (ending : Ending)
  | dropGuard (request : Nat)
  deriving DecidableEq, Repr

namespace Gate

/-- The state of a freshly started server. -/
def initial : Gate := ⟨0, []⟩

/-- Record the next phase of a request. -/
def move (gate : Gate) (request : Nat) (phase : Phase) : Gate :=
  { gate with requests := gate.requests.set request phase }

/-- One atomic step of one request, when it is possible. -/
def step (maxInflight : Nat) (gate : Gate) : GateAction → Option Gate
  | .arrive => some { gate with requests := gate.requests ++ [.arriving] }
  | .fetchAdd i =>
    match gate.requests[i]? with
    | some .arriving => some { gate.move i (.counted gate.inflight) with inflight := VocabVeto.fetchAdd gate.inflight }
    | _ => none
  | .compare i =>
    match gate.requests[i]? with
    | some (.counted prev) => some (gate.move i (if prev ≥ maxInflight then .rejecting else .holding))
    | _ => none
  | .fetchSub i =>
    match gate.requests[i]? with
    | some .rejecting => some { gate.move i .overloaded with inflight := VocabVeto.fetchSub gate.inflight }
    | _ => none
  | .endHandler i ending =>
    match gate.requests[i]? with
    | some .holding => some (gate.move i (.closing ending))
    | _ => none
  | .dropGuard i =>
    match gate.requests[i]? with
    | some (.closing ending) =>
      some { gate.move i (.finished ending) with inflight := VocabVeto.fetchSub gate.inflight }
    | _ => none

end Gate

end VocabVeto
