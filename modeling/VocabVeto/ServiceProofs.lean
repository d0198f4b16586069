import VocabVeto.AsciiCrates
import VocabVeto.GateProofs
import VocabVeto.ServiceCourses
import VocabVeto.SpanProofs

/-! Whole runs of the server, with any number of requests in any interleaving.
Requests do not disturb each other: each one gets the answer it has on its own,
unless the gate turns it away, and the server's gate is the one of `limits.rs`. -/
namespace VocabVeto.ServiceProofs
open Runs Tasks Service ServiceCourses SpanProofs

instance : ∀ o : Op, Nonempty o.Result
  | .fetchAdd => ⟨(0 : Nat)⟩
  | .fetchSub => ⟨()⟩
  | .loadInflight => ⟨(0 : Nat)⟩
  | .setInflight _ => ⟨()⟩
  | .loadReady => ⟨true⟩
  | .record _ => ⟨()⟩
  | .render => ⟨()⟩
  | .readBody => ⟨()⟩

/-- The pool of a server's requests. -/
abbrev Requests := Pool HttpRequest Shared Op Op.Result Response

abbrev Log := List (Requests × Action HttpRequest)

section
variable {crates : Crates} {http : HttpCrates} {fromSlice : FromSlice} {state : ServerState}
  {loaded : List Lang} {log : Log} {pool : Requests}

/-- A run of the server from its startup. -/
def Serves (crates : Crates) (http : HttpCrates) (fromSlice : FromSlice) (state : ServerState)
    (loaded : List Lang) (log : Log) (pool : Requests) : Prop :=
  Run (system crates http fromSlice state).step ⟨startup state loaded, []⟩ log pool

/-- What request `i` has done in a run. -/
def done (crates : Crates) (http : HttpCrates) (fromSlice : FromSlice) (state : ServerState) (log : Log)
    (i : Nat) : List Step := (system crates http fromSlice state).history log i

/-- The client of request `i` gave it up while its body was awaited. -/
def GivenUp (log : Log) (i : Nat) : Prop := ∃ before, (before, .abandon i) ∈ log

/-- A finished request is at the end of one of its courses, and was dropped only
if its client gave it up. -/
theorem ends_of_run (run : Serves crates http fromSlice state loaded log pool)
    (held : pool.tasks[i]? = some (request, task)) (finished : task.ended = some ending) (droppable : Bool)
    (given : GivenUp log i → droppable = true) :
    Ends crates http fromSlice state droppable request (done crates http fromSlice state log i) ending := by
  have allowed : ∀ before, (before, .abandon i) ∈ log → ∀ o, Op.suspends o = true → waits droppable o = true := by
    intro before logged o suspends
    cases o with
    | readBody => exact given ⟨before, logged⟩
    | _ => cases suspends
  have whole := System.course_of_history (waits droppable) run allowed held (course_ended finished)
  rw [List.append_nil] at whole
  exact router_ends whole

/-! ### What requests read -/

theorem exec_ready (o : Op) (shared : Shared) : (o.exec shared).2.ready = shared.ready := by
  cases o with
  | fetchAdd => exact Shared.setCounter_ready shared _
  | fetchSub => exact Shared.setCounter_ready shared _
  | _ => rfl

theorem ready_kept (run : Serves crates http fromSlice state loaded log pool) : pool.shared.ready = true := by
  apply System.tracks_invariant (fun shared _ => shared.ready = true) rfl _ _ run
  · exact fun _ _ _ ready => ready
  · intro shared _ _ _ _ o ready _ _
    exact (exec_ready o shared).trans ready

/-- Every request reads that the server is ready. -/
theorem readings_ready (run : Serves crates http fromSlice state loaded log pool) (i : Nat) :
    ∀ value ∈ readingsIn (done crates http fromSlice state log i), value = true := by
  intro value member
  obtain ⟨⟨o, result⟩, among, made⟩ := List.mem_filterMap.mp member
  cases o with
  | loadReady =>
    obtain rfl := Option.some.inj made
    obtain ⟨before, logged, -, rfl⟩ := System.mem_history among
    obtain ⟨front, back, -, leads⟩ := Run.earlier run logged
    exact ready_kept leads
  | _ => cases made

/-! ### The gate of the server -/

/-- The phase in the gate that a request is in which has done this to the counter. -/
def Stands (maxInflight : Nat) (counts : List Count) : Phase → Prop
  | .arriving => counts = []
  | .rejecting => ∃ prev, maxInflight ≤ prev ∧ counts = [.added prev]
  | .overloaded => ∃ prev, maxInflight ≤ prev ∧ counts = [.added prev, .subtracted]
  | .holding => ∃ prev < maxInflight, counts = [.added prev]
  | .finished _ => ∃ prev < maxInflight, counts = [.added prev, .subtracted]
  | _ => False

/-- A run of the gate alone that leads to the same counter, with every request
in the phase that it is in. -/
def Mirrors (maxInflight : Nat) (shared : Shared) (tracks : List (HttpRequest × List Step)) : Prop :=
  ∃ log gate, Run (Gate.step maxInflight) .initial log gate ∧ gate.inflight = shared.inflight ∧
    List.Forall₂ (fun track phase => Stands maxInflight (countsIn track.2) phase) tracks gate.requests

/-- All that a request ever does to the counter. -/
theorem counts_of_course
    (course : Course (waits droppable) (router crates http fromSlice state request) log' ending) :
    countsIn log' = [] ∨ Gated http state request ∧ ∃ prev, countsIn log' = [.added prev, .subtracted] := by
  cases router_ends course with
  | answered own _ =>
    obtain ⟨-, none⟩ | ⟨gated, prev, -, both⟩ := own.counts
    · exact .inl none
    · exact .inr ⟨gated, prev, both⟩
  | overloaded gated _ counts _ => exact .inr ⟨gated, _, counts⟩
  | dropped gated _ counts _ => exact .inr ⟨gated, _, counts⟩

/-- What it does around one of its operations. -/
private theorem counts_around {event : Step}
    (course : Course (waits droppable) (router crates http fromSlice state request) (past ++ event :: more) ending) :
    countsIn past ++ countsIn [event] ++ countsIn more = [] ∨
      Gated http state request ∧
        ∃ prev, countsIn past ++ countsIn [event] ++ countsIn more = [.added prev, .subtracted] := by
  have split : countsIn past ++ countsIn [event] ++ countsIn more = countsIn (past ++ event :: more) := by
    rw [← countsIn_append, ← countsIn_append, List.append_assoc]
    rfl
  rw [split]
  exact counts_of_course course

theorem counts_before_add {prev : Nat}
    (course : Course (waits droppable) (router crates http fromSlice state request)
      (past ++ (⟨.fetchAdd, prev⟩ : Step) :: more) ending) :
    countsIn past = [] ∧ Gated http state request := by
  obtain none | ⟨gated, first, both⟩ := counts_around course
  · simp [countsIn] at none
  · refine ⟨?_, gated⟩
    generalize countsIn past = before at both
    match before with
    | [] => rfl
    | [_] => simp [countsIn] at both
    | _ :: _ :: _ => simp [countsIn] at both

theorem counts_before_sub
    (course : Course (waits droppable) (router crates http fromSlice state request)
      (past ++ (⟨.fetchSub, ()⟩ : Step) :: more) ending) :
    ∃ prev, countsIn past = [.added prev] := by
  obtain none | ⟨-, first, both⟩ := counts_around course
  · simp [countsIn] at none
  · generalize countsIn past = before at both
    match before with
    | [] => simp [countsIn] at both
    | [count] =>
      simp [countsIn] at both
      exact ⟨first, by rw [both.1]⟩
    | _ :: _ :: _ => simp [countsIn] at both

/-- A request whose counter was added to has been let in or refused by what it read. -/
private theorem gate_added {gate : Gate} (run : Run (Gate.step maxInflight) .initial log' gate)
    (standing : gate.requests[i]? = some .arriving) :
    ∃ log phase, Stands maxInflight [.added gate.inflight] phase ∧
      Run (Gate.step maxInflight) .initial log ⟨fetchAdd gate.inflight, gate.requests.set i phase⟩ := by
  have inside := (List.getElem?_eq_some_iff.mp standing).1
  have counted : gate.step maxInflight (.fetchAdd i) =
      some ⟨fetchAdd gate.inflight, gate.requests.set i (.counted gate.inflight)⟩ := by
    simp only [Gate.step, standing, Gate.move]
  have held : (gate.requests.set i (.counted gate.inflight))[i]? = some (.counted gate.inflight) :=
    List.getElem?_set_self inside
  by_cases full : gate.inflight ≥ maxInflight
  · have compared : Gate.step maxInflight ⟨fetchAdd gate.inflight, gate.requests.set i (.counted gate.inflight)⟩
        (.compare i) = some ⟨fetchAdd gate.inflight, gate.requests.set i .rejecting⟩ := by
      simp only [Gate.step, held, Gate.move, if_pos full, List.set_set]
    exact ⟨_, .rejecting, ⟨gate.inflight, full, rfl⟩, (run.next counted).next compared⟩
  · have compared : Gate.step maxInflight ⟨fetchAdd gate.inflight, gate.requests.set i (.counted gate.inflight)⟩
        (.compare i) = some ⟨fetchAdd gate.inflight, gate.requests.set i .holding⟩ := by
      simp only [Gate.step, held, Gate.move, if_neg full, List.set_set]
    exact ⟨_, .holding, ⟨gate.inflight, Nat.lt_of_not_le full, rfl⟩, (run.next counted).next compared⟩

/-- A request that subtracts again leaves the gate. -/
private theorem gate_subtracted {gate : Gate} (run : Run (Gate.step maxInflight) .initial log' gate)
    (standing : gate.requests[i]? = some phase) (stands : Stands maxInflight [.added prev] phase) :
    ∃ log phase, Stands maxInflight [.added prev, .subtracted] phase ∧
      Run (Gate.step maxInflight) .initial log ⟨fetchSub gate.inflight, gate.requests.set i phase⟩ := by
  have inside := (List.getElem?_eq_some_iff.mp standing).1
  cases phase with
  | rejecting =>
    obtain ⟨_, full, ⟨⟩⟩ := stands
    have undone : gate.step maxInflight (.fetchSub i) =
        some ⟨fetchSub gate.inflight, gate.requests.set i .overloaded⟩ := by
      simp only [Gate.step, standing, Gate.move]
    exact ⟨_, .overloaded, ⟨prev, full, rfl⟩, run.next undone⟩
  | holding =>
    obtain ⟨_, room, ⟨⟩⟩ := stands
    have ended : gate.step maxInflight (.endHandler i .returned) =
        some ⟨gate.inflight, gate.requests.set i (.closing .returned)⟩ := by
      simp only [Gate.step, standing, Gate.move]
    have held : (gate.requests.set i (.closing .returned))[i]? = some (.closing .returned) :=
      List.getElem?_set_self inside
    have dropped : Gate.step maxInflight ⟨gate.inflight, gate.requests.set i (.closing .returned)⟩ (.dropGuard i) =
        some ⟨fetchSub gate.inflight, gate.requests.set i (.finished .returned)⟩ := by
      simp only [Gate.step, held, Gate.move, List.set_set]
    exact ⟨_, .finished .returned, ⟨prev, room, rfl⟩, (run.next ended).next dropped⟩
  | arriving => cases stands
  | counted _ => cases stands
  | overloaded =>
    obtain ⟨_, -, ⟨⟩⟩ := stands
  | closing _ => cases stands
  | finished _ =>
    obtain ⟨_, -, ⟨⟩⟩ := stands

/-- An operation that leaves the counter alone leaves the mirror as it is. -/
private theorem mirrors_still {after : Shared} {event : Step} (mirrors : Mirrors maxInflight shared tracks)
    (same : after.inflight = shared.inflight) (quiet : countsIn [event] = [])
    (held : tracks[i]? = some (key, past)) : Mirrors maxInflight after (tracks.set i (key, past ++ [event])) := by
  obtain ⟨log, gate, run, counter, related⟩ := mirrors
  obtain ⟨phase, standing, stands⟩ := counterpart related held
  have kept : Stands maxInflight (countsIn (past ++ [event])) phase := by
    rwa [countsIn_append, quiet, List.append_nil]
  have moved := related_set related (show Stands _ (countsIn (key, past ++ [event]).2) phase from kept) i
  obtain ⟨inside, here⟩ := List.getElem?_eq_some_iff.mp standing
  rw [← here, List.set_getElem_self] at moved
  exact ⟨log, gate, run, counter.trans same.symm, moved⟩

private theorem mirrors_step {shared : Shared} (mirrors : Mirrors state.maxInflight shared tracks)
    (held : tracks[i]? = some (key, past)) (o : Op)
    (course : Course (waits droppable) (router crates http fromSlice state key)
      (past ++ (⟨o, (o.exec shared).1⟩ : Step) :: more) ending) :
    Mirrors state.maxInflight (o.exec shared).2 (tracks.set i (key, past ++ [⟨o, (o.exec shared).1⟩])) := by
  cases o with
  | fetchAdd =>
    have fresh := (counts_before_add course).1
    obtain ⟨log, gate, run, counter, related⟩ := mirrors
    obtain ⟨phase, standing, stands⟩ := counterpart related held
    have arriving : phase = .arriving := by
      rw [fresh] at stands
      cases phase with
      | arriving => rfl
      | counted _ => cases stands
      | closing _ => cases stands
      | _ => obtain ⟨_, -, ⟨⟩⟩ := stands
    subst arriving
    obtain ⟨longer, phase, stands', run'⟩ := gate_added run standing
    refine ⟨longer, _, run', ?_, related_set related ?_ i⟩
    · rw [Op.exec, Shared.setCounter_inflight, counter]
    · rw [countsIn_append, fresh, counter] at *
      exact stands'
  | fetchSub =>
    obtain ⟨prev, once⟩ := counts_before_sub course
    obtain ⟨log, gate, run, counter, related⟩ := mirrors
    obtain ⟨phase, standing, stands⟩ := counterpart related held
    rw [once] at stands
    obtain ⟨longer, phase, stands', run'⟩ := gate_subtracted run standing stands
    refine ⟨longer, _, run', ?_, related_set related ?_ i⟩
    · rw [Op.exec, Shared.setCounter_inflight, counter]
    · rw [countsIn_append, once]
      exact stands'
  | loadInflight => exact mirrors_still mirrors rfl rfl held
  | setInflight value => exact mirrors_still mirrors rfl rfl held
  | loadReady => exact mirrors_still mirrors rfl rfl held
  | record sample => exact mirrors_still mirrors rfl rfl held
  | render => exact mirrors_still mirrors rfl rfl held
  | readBody => exact mirrors_still mirrors rfl rfl held

/-- Every run of the server, with all its routes and layers, is a run of the gate
as far as the in-flight counter can tell. -/
theorem serves_gate (run : Serves crates http fromSlice state loaded log pool) :
    Mirrors state.maxInflight pool.shared ((system crates http fromSlice state).tracks log pool) := by
  apply System.tracks_invariant (Mirrors state.maxInflight) _ _ _ run
  · exact ⟨[], .initial, .start, rfl, .nil⟩
  · rintro shared tracks key ⟨log, gate, run, counter, related⟩
    have arrived : Stands state.maxInflight (countsIn []) .arriving := rfl
    exact ⟨_, _, run.next (show gate.step state.maxInflight .arrive = _ from rfl), counter,
      List.rel_append related (.cons arrived .nil)⟩
  · rintro shared tracks i key past o mirrors held ⟨more, ending, course⟩
    exact mirrors_step mirrors held o course

/-- Past its `fetch_add` and not through the gate yet. -/
def inGate (counts : List Count) : Bool := counts matches [.added _]

/-- In the gate, and let in by what its own `fetch_add` read. -/
def letIn (maxInflight : Nat) : List Count → Bool
  | [.added prev] => prev < maxInflight
  | _ => false

private theorem stands_counts (track : HttpRequest × List Step) (phase : Phase)
    (stands : Stands maxInflight (countsIn track.2) phase) :
    inGate (countsIn track.2) = GateProofs.isOutstanding phase ∧
      letIn maxInflight (countsIn track.2) = (phase == .holding) := by
  generalize countsIn track.2 = counts at stands
  cases phase with
  | arriving =>
    obtain rfl := stands
    exact ⟨rfl, rfl⟩
  | rejecting =>
    obtain ⟨prev, full, rfl⟩ := stands
    exact ⟨rfl, decide_eq_false (Nat.not_lt.mpr full)⟩
  | overloaded =>
    obtain ⟨prev, -, rfl⟩ := stands
    exact ⟨rfl, rfl⟩
  | holding =>
    obtain ⟨prev, room, rfl⟩ := stands
    exact ⟨rfl, decide_eq_true room⟩
  | finished ending =>
    obtain ⟨prev, -, rfl⟩ := stands
    exact ⟨rfl, rfl⟩
  | counted _ => cases stands
  | closing _ => cases stands

/-- The gate never held more requests than there are now. -/
private theorem gate_grows {gate : Gate} (run : Run (Gate.step maxInflight) .initial log' gate) :
    ∀ event ∈ log', event.1.requests.length ≤ gate.requests.length := by
  induction run with
  | start => exact List.forall_mem_nil _
  | @next log before after action run taken ih =>
    have grown : before.requests.length ≤ after.requests.length := by
      rcases GateProofs.step_cases taken with ⟨-, rfl⟩ | ⟨i, old, new, n, -, -, rfl⟩
      · simp
      · simp
    rw [List.forall_mem_append]
    exact ⟨fun event member => Nat.le_trans (ih event member) grown,
      List.forall_mem_singleton.mpr grown⟩

/-- What a request has done is the beginning of one of its courses. -/
theorem course_of_held (run : Serves crates http fromSlice state loaded log pool)
    (held : pool.tasks[i]? = some (request, task)) :
    ∃ more ending, Course (waits true) (router crates http fromSlice state request)
      (done crates http fromSlice state log i ++ more) ending := by
  obtain ⟨more, ending, rest⟩ := course_exists (waits true) task
  refine ⟨more, ending, System.course_of_history (waits true) run (fun _ _ o suspends => ?_) held rest⟩
  cases o with
  | readBody => rfl
  | _ => cases suspends

/-- Safety of a server in one state of a run, `tracks` being what its requests
have done so far. -/
structure ServerSafe (http : HttpCrates) (state : ServerState) (shared : Shared)
    (tracks : List (HttpRequest × List Step)) : Prop where
  /-- The run is one of the gate of `limits.rs`. -/
  refines : Mirrors state.maxInflight shared tracks
  /-- No more handlers than places. -/
  capacity : tracks.countP (fun track => letIn state.maxInflight (countsIn track.2)) ≤ state.maxInflight
  counter : shared.inflight = tracks.countP fun track => inGate (countsIn track.2)
  /-- Only requests that authenticate, and whose body is not refused, take a place. -/
  gated : ∀ track ∈ tracks, countsIn track.2 ≠ [] → Gated http state track.1
  /-- The counter is only ever lowered by a request that raised it before. -/
  paired : ∀ track ∈ tracks, ∃ prev, countsIn track.2 <+: [.added prev, .subtracted]

/-- The server is safe in every state of every run, whatever its requests do and
however they interleave, be they given up by their clients or ended by a panic. -/
theorem server_safe (run : Serves crates http fromSlice state loaded log pool) (few : pool.tasks.length < 2 ^ 64) :
    ServerSafe http state pool.shared ((system crates http fromSlice state).tracks log pool) := by
  have mirrors := serves_gate run
  obtain ⟨gateLog, gate, gateRun, counter, related⟩ := mirrors
  have size : gate.requests.length = pool.tasks.length := by
    rw [← related.length_eq, System.tracks, List.length_mapIdx]
  have fits : ∀ past : Gate, past.requests.length ≤ gate.requests.length → GateProofs.outstanding past < 2 ^ 64 :=
    fun past grown => Nat.lt_of_le_of_lt (Nat.le_trans List.countP_le_length grown) (size ▸ few)
  have exact := (GateProofs.tallied_run gateRun).exact (fits gate (Nat.le_refl _))
  have capacity := GateProofs.capacity_run gateRun (fun event member => fits event.1 (gate_grows gateRun event member))
    (fits gate (Nat.le_refl _))
  have inside := countP_related related fun track phase stands => (stands_counts track phase stands).1
  have running := countP_related related fun track phase stands => (stands_counts track phase stands).2
  have counted : ∀ track ∈ (system crates http fromSlice state).tracks log pool,
      (countsIn track.2 ≠ [] → Gated http state track.1) ∧
        ∃ prev, countsIn track.2 <+: [.added prev, .subtracted] := by
    intro track member
    obtain ⟨i, bound, rfl⟩ := List.mem_mapIdx.mp member
    obtain ⟨more, ending, course⟩ := course_of_held run (List.getElem?_eq_getElem bound)
    obtain none | ⟨gated, prev, both⟩ := counts_of_course course
    · rw [countsIn_append] at none
      have quiet := (List.append_eq_nil_iff.mp none).1
      exact ⟨fun some => absurd quiet some, 0, quiet ▸ List.nil_prefix⟩
    · rw [countsIn_append] at both
      exact ⟨fun _ => gated, prev, both ▸ List.prefix_append _ _⟩
  refine ⟨⟨gateLog, gate, gateRun, counter, related⟩, ?_, ?_, fun track member => (counted track member).1,
    fun track member => (counted track member).2⟩
  · rw [running]
    exact Nat.le_trans (GateProofs.handlers_le_admitted state.maxInflight gate) capacity
  · rw [← counter, inside, exact]
    rfl

/-- A server with one place and one key. -/
def narrow : ServerState where
  engine := AsciiCrates.engine "en" ["foo"]
  listVersion := "1f".toList
  apiKeys := [Utf8.bytes "key".toList]
  maxInflight := 1
  metrics := true

/-- A request of a client that knows the key. -/
def keyed : HttpRequest where
  method := .post
  path := "/v1/check".toList
  headers := [(Auth.authorization, Utf8.bytes "Bearer key".toList)]
  declared := none
  body := []
  broken := none

/-- A request for the languages. -/
def listing : HttpRequest := { keyed with method := .get, path := "/v1/languages".toList }

def unparsed : FromSlice := fun _ => .error "no JSON".toList

theorem server_safe_crowded : ∃ log pool, pool.shared.inflight = 2 ∧ ServerSafe AsciiCrates.http narrow pool.shared
    ((system AsciiCrates.crates AsciiCrates.http unparsed narrow).tracks log pool) := by
  have run := run_of_play (show play (system AsciiCrates.crates AsciiCrates.http unparsed narrow).step
    ⟨startup narrow ["en".toList], []⟩ [.spawn keyed, .spawn keyed, .advance 0, .advance 1] = some _ from rfl)
  exact ⟨_, _, rfl, server_safe run (by decide)⟩

/-! ### Every request is served -/

/-- With nonempty terms, the handler never panics. -/
theorem handled_returns (folds : crates.FoldsNonempty) (reports : crates.ReportsOccurrences)
    (nonempty : state.engine.TermsNonempty) (fromSlice : FromSlice) (body : Except AxumError (List UInt8)) :
    ∃ given, handled crates fromSlice state.toAppState body = .ok given := by
  cases body with
  | error e => exact ⟨_, rfl⟩
  | ok bytes =>
    simp only [handled, Check.check]
    split
    · exact ⟨_, rfl⟩
    rename_i request _
    split
    · exact ⟨_, rfl⟩
    split
    · exact ⟨_, rfl⟩
    rename_i mode _
    split
    · exact ⟨_, rfl⟩
    rename_i langs _
    obtain ⟨outcome, ran⟩ :=
      scan_returns folds nonempty (soundOn_of_reports reports state.engine request.text) langs mode
    rw [ran]
    cases outcome with
    | error e => exact ⟨_, rfl⟩
    | ok result => exact ⟨_, rfl⟩

/-- With nonempty terms, every request has an answer of its own. -/
theorem answer_returns (folds : crates.FoldsNonempty) (reports : crates.ReportsOccurrences)
    (nonempty : state.engine.TermsNonempty) (http : HttpCrates) (fromSlice : FromSlice) (ready : Bool)
    (request : HttpRequest) : ∃ resp, answer crates http fromSlice state ready request = .ok resp := by
  have routes : ∃ resp, routeAnswer crates http fromSlice state ready request = .ok resp := by
    unfold routeAnswer
    split
    · split
      · exact ⟨_, rfl⟩
      · rename_i body _
        unfold posted
        split
        · obtain ⟨given, made⟩ := handled_returns folds reports nonempty fromSlice body
          rw [made]
          exact ⟨_, rfl⟩
        · exact ⟨_, rfl⟩
    all_goals repeat' split
    all_goals exact ⟨_, rfl⟩
  obtain ⟨resp, made⟩ := routes
  exact ⟨_, answer_ok made⟩

/-- What request `i` read as it added to the counter: the counter of that very step. -/
def ReadAsAdded (crates : Crates) (http : HttpCrates) (fromSlice : FromSlice) (state : ServerState) (log : Log)
    (i prev : Nat) : Prop :=
  ∃ before, (before, .advance i) ∈ log ∧ before.shared.inflight = prev ∧
    (system crates http fromSlice state).performed i before (.advance i) = some ⟨.fetchAdd, prev⟩

/-- What became of a finished request: the answer it has on its own, where the
gate let it in if it came there; or 503, when the counter was at its limit as the
request added to it; or nothing, when its client gave it up. -/
inductive Served (crates : Crates) (http : HttpCrates) (fromSlice : FromSlice) (state : ServerState) (log : Log)
    (i : Nat) (request : HttpRequest) : Option Response → Prop where
  | answered {resp : Response} (own : answer crates http fromSlice state true request = .ok resp)
      (room : Gated http state request → ∃ prev < state.maxInflight, ReadAsAdded crates http fromSlice state log i prev) :
      Served crates http fromSlice state log i request (some resp)
  | overloaded {prev : Nat} (gated : Gated http state request) (full : state.maxInflight ≤ prev)
      (added : ReadAsAdded crates http fromSlice state log i prev) :
      Served crates http fromSlice state log i request (some (overloadedAnswer state request))
  | givenUp (gated : Gated http state request) (given : GivenUp log i) :
      Served crates http fromSlice state log i request none

theorem mem_added {counted : List Step} (counts : countsIn counted = [.added prev, .subtracted]) :
    (⟨.fetchAdd, prev⟩ : Step) ∈ counted := by
  have member : Count.added prev ∈ countsIn counted := by
    rw [counts]
    exact List.mem_cons_self
  obtain ⟨⟨o, result⟩, among, made⟩ := List.mem_filterMap.mp member
  cases o with
  | fetchAdd =>
    cases made
    exact among
  | _ => cases made

theorem read_as_added (counts : countsIn (done crates http fromSlice state log i) = [.added prev, .subtracted]) :
    ReadAsAdded crates http fromSlice state log i prev := by
  obtain ⟨before, logged, performed, rfl⟩ := System.mem_history (mem_added counts)
  exact ⟨before, logged, rfl, performed⟩

/-- An answer is the request's own. -/
theorem own_answer (run : Serves crates http fromSlice state loaded log pool)
    (own : Answered crates http fromSlice state request (done crates http fromSlice state log i) resp) :
    answer crates http fromSlice state true request = .ok resp := own.made true (readings_ready run i)

/-- Requests do not disturb each other. In every run, however many there are and
however they interleave, each request that is finished was served. -/
theorem requests_served (folds : crates.FoldsNonempty) (reports : crates.ReportsOccurrences)
    (nonempty : state.engine.TermsNonempty) (run : Serves crates http fromSlice state loaded log pool)
    (held : pool.tasks[i]? = some (request, task)) (finished : task.ended = some ending) :
    Served crates http fromSlice state log i request ending := by
  classical
  cases ends_of_run run held finished (decide (GivenUp log i)) (fun given => decide_eq_true given) with
  | answered own _ =>
    refine .answered (own_answer run own) fun gated => ?_
    obtain ⟨ungated, -⟩ | ⟨-, prev, room, counts⟩ := own.counts
    · exact absurd gated ungated
    · exact ⟨prev, room, read_as_added counts⟩
  | overloaded gated full counts _ => exact .overloaded gated full (read_as_added counts)
  | dropped gated _ _ samples =>
    obtain ⟨given, -⟩ | ⟨panics, -⟩ := samples
    · exact .givenUp gated (of_decide_eq_true given)
    · obtain ⟨resp, own⟩ := answer_returns folds reports nonempty http fromSlice true request
      exact absurd own (panics _ resp)

theorem requests_served_crowded : ∃ log,
    Served AsciiCrates.crates AsciiCrates.http unparsed narrow log 1 keyed (some (overloadedAnswer narrow keyed)) := by
  have run := run_of_play (show play (system AsciiCrates.crates AsciiCrates.http unparsed narrow).step
    ⟨startup narrow ["en".toList], []⟩ [.spawn keyed, .spawn keyed, .advance 0, .advance 1, .advance 1,
      .advance 1, .advance 1] = some _ from rfl)
  exact ⟨_, requests_served AsciiCrates.foldsNonempty AsciiCrates.reportsOccurrences
    (AsciiCrates.engine_nonempty "en" (by decide)) run (i := 1) rfl rfl⟩

/-! ### When no more requests come -/

end

end VocabVeto.ServiceProofs
