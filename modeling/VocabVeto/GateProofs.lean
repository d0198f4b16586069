import VocabVeto.Core.Limits

/-! The in-flight gate under every interleaving. The counter is the number of
admitted requests plus the number of refused ones that have not yet undone their
own increment: enough for safety, and the reason why a refused request can cost
another one its place. -/
namespace VocabVeto.GateProofs
open Runs

/-- Let in by its own `fetch_add`, with its guard not dropped yet. -/
def isAdmitted (maxInflight : Nat) : Phase → Bool
  | .counted prev => prev < maxInflight
  | .holding => true
  | .closing _ => true
  | _ => false

/-- Turned away by its own `fetch_add`, which it has not undone yet. -/
def isRefused (maxInflight : Nat) : Phase → Bool
  | .counted prev => maxInflight ≤ prev
  | .rejecting => true
  | _ => false

/-- Past its `fetch_add` and not through the gate yet. -/
def isOutstanding : Phase → Bool
  | .counted _ => true
  | .rejecting => true
  | .holding => true
  | .closing _ => true
  | _ => false

def admitted (maxInflight : Nat) (gate : Gate) : Nat := gate.requests.countP (isAdmitted maxInflight)

def refused (maxInflight : Nat) (gate : Gate) : Nat := gate.requests.countP (isRefused maxInflight)

def outstanding (gate : Gate) : Nat := gate.requests.countP isOutstanding

/-- Requests whose handler is running. -/
def handlers (gate : Gate) : Nat := gate.requests.countP (· == .holding)

/-- Requests that hold an `InFlightGuard`. -/
def guards (gate : Gate) : Nat := gate.requests.countP fun phase => phase matches .holding | .closing _

/-- Requests between their comparison and their compensating `fetch_sub`. -/
def rejecting (gate : Gate) : Nat := gate.requests.countP (· == .rejecting)

theorem outstanding_eq (maxInflight : Nat) (gate : Gate) :
    outstanding gate = admitted maxInflight gate + refused maxInflight gate := by
  unfold outstanding admitted refused
  induction gate.requests with
  | nil => rfl
  | cons phase rest ih =>
    rw [List.countP_cons, List.countP_cons, List.countP_cons, ih]
    cases phase with
    | counted prev =>
      by_cases low : prev < maxInflight
      · simp [isOutstanding, isAdmitted, isRefused, low, Nat.not_le.mpr low]
        omega
      · simp [isOutstanding, isAdmitted, isRefused, low, Nat.le_of_not_lt low]
        omega
    | _ => simp [isOutstanding, isAdmitted, isRefused] <;> omega

theorem handlers_le_admitted (maxInflight : Nat) (gate : Gate) :
    handlers gate ≤ admitted maxInflight gate := by
  apply List.countP_mono_left
  intro phase _ holds
  obtain rfl := eq_of_beq holds
  rfl

/-! ### What a step can do -/

/-- A step that moves one request between phases, and what it leaves in the counter. -/
inductive Moves (maxInflight n i : Nat) : GateAction → Phase → Phase → Nat → Prop where
  | fetchAdd : Moves maxInflight n i (.fetchAdd i) .arriving (.counted n) (fetchAdd n)
  | letIn {prev : Nat} (low : prev < maxInflight) : Moves maxInflight n i (.compare i) (.counted prev) .holding n
  | turnAway {prev : Nat} (high : maxInflight ≤ prev) :
      Moves maxInflight n i (.compare i) (.counted prev) .rejecting n
  | fetchSub : Moves maxInflight n i (.fetchSub i) .rejecting .overloaded (fetchSub n)
  | endHandler {ending : Ending} :
      Moves maxInflight n i (.endHandler i ending) .holding (.closing ending) n
  | dropGuard {ending : Ending} :
      Moves maxInflight n i (.dropGuard i) (.closing ending) (.finished ending) (fetchSub n)

section
variable {maxInflight : Nat} {gate after : Gate} {action : GateAction}

theorem step_cases (taken : gate.step maxInflight action = some after) :
    action = .arrive ∧ after = ⟨gate.inflight, gate.requests ++ [.arriving]⟩ ∨
      ∃ i old new n, gate.requests[i]? = some old ∧ Moves maxInflight gate.inflight i action old new n ∧
        after = ⟨n, gate.requests.set i new⟩ := by
  cases action with
  | arrive => exact .inl ⟨rfl, (Option.some.inj taken).symm⟩
  | fetchAdd i =>
    simp only [Gate.step] at taken
    split at taken
    · rename_i held
      exact .inr ⟨i, _, _, _, held, .fetchAdd, (Option.some.inj taken).symm⟩
    · cases taken
  | compare i =>
    simp only [Gate.step] at taken
    split at taken
    · rename_i prev held
      obtain rfl := Option.some.inj taken
      by_cases high : prev ≥ maxInflight
      · rw [if_pos high]
        exact .inr ⟨i, _, _, _, held, .turnAway high, rfl⟩
      · rw [if_neg high]
        exact .inr ⟨i, _, _, _, held, .letIn (Nat.lt_of_not_le high), rfl⟩
    · cases taken
  | fetchSub i =>
    simp only [Gate.step] at taken
    split at taken
    · rename_i held
      exact .inr ⟨i, _, _, _, held, .fetchSub, (Option.some.inj taken).symm⟩
    · cases taken
  | endHandler i ending =>
    simp only [Gate.step] at taken
    split at taken
    · rename_i held
      exact .inr ⟨i, _, _, _, held, .endHandler, (Option.some.inj taken).symm⟩
    · cases taken
  | dropGuard i =>
    simp only [Gate.step] at taken
    split at taken
    · rename_i held
      exact .inr ⟨i, _, _, _, held, .dropGuard, (Option.some.inj taken).symm⟩
    · cases taken

/-! ### Safety -/

/-- What every reachable state satisfies: the counter is the number of requests
in the gate, up to the width of a machine word. -/
def Tallied (gate : Gate) : Prop := gate.inflight = outstanding gate % 2 ^ 64

/-- A request that has only arrived is in none of the counts. -/
private theorem count_arrival {p : Phase → Bool} (idle : p .arriving = false) :
    (gate.requests ++ [Phase.arriving]).countP p = gate.requests.countP p := by
  simp [List.countP_append, idle]

private theorem fetchAdd_mod (n : Nat) : fetchAdd (n % 2 ^ 64) = (n + 1) % 2 ^ 64 := by
  unfold fetchAdd
  omega

private theorem fetchSub_mod (n : Nat) : fetchSub ((n + 1) % 2 ^ 64) = n % 2 ^ 64 := by
  unfold fetchSub
  omega

private theorem tallied_move (tallied : Tallied gate) (held : gate.requests[i]? = some old)
    (moves : Moves maxInflight gate.inflight i action old new n) :
    Tallied ⟨n, gate.requests.set i new⟩ := by
  have crossing := countP_move held isOutstanding new
  unfold Tallied outstanding at tallied ⊢
  dsimp only
  generalize (gate.requests.set i new).countP isOutstanding = count at crossing ⊢
  cases moves with
  | fetchAdd =>
    have grown : count = gate.requests.countP isOutstanding + 1 := crossing
    rw [tallied, fetchAdd_mod, grown]
  | fetchSub =>
    have shrunk : count + 1 = gate.requests.countP isOutstanding := crossing
    rw [tallied, ← shrunk, fetchSub_mod]
  | dropGuard =>
    have shrunk : count + 1 = gate.requests.countP isOutstanding := crossing
    rw [tallied, ← shrunk, fetchSub_mod]
  | _ =>
    have same : count = gate.requests.countP isOutstanding := Nat.add_right_cancel crossing
    rw [tallied, same]

theorem tallied_step (tallied : Tallied gate) (taken : gate.step maxInflight action = some after) :
    Tallied after := by
  rcases step_cases taken with ⟨-, rfl⟩ | ⟨i, old, new, n, held, moves, rfl⟩
  · unfold Tallied outstanding
    rw [count_arrival rfl]
    exact tallied
  · exact tallied_move tallied held moves

/-- Every run keeps the tally, however many requests it holds. -/
theorem tallied_run (run : Run (Gate.step maxInflight) .initial log gate) : Tallied gate :=
  run.invariant (fun _ => True) (fun _ gate => Tallied gate) rfl
    (fun _ _ _ _ _ _ tallied taken => tallied_step tallied taken) (fun _ _ => trivial) trivial

theorem Tallied.exact (tallied : Tallied gate) (few : outstanding gate < 2 ^ 64) :
    gate.inflight = outstanding gate := Eq.trans tallied (Nat.mod_eq_of_lt few)

/-- Only `fetch_add` can let a request in, and only below capacity: the value it
reads counts everybody let in before. -/
private theorem capacity_move (exact : gate.inflight = outstanding gate)
    (capacity : admitted maxInflight gate ≤ maxInflight) (held : gate.requests[i]? = some old)
    (moves : Moves maxInflight gate.inflight i action old new n) :
    admitted maxInflight ⟨n, gate.requests.set i new⟩ ≤ maxInflight := by
  have entering := countP_move held (isAdmitted maxInflight) new
  change admitted maxInflight ⟨n, gate.requests.set i new⟩ + _ = admitted maxInflight gate + _ at entering
  rw [outstanding_eq maxInflight] at exact
  cases moves with
  | fetchAdd =>
    by_cases room : gate.inflight < maxInflight
    · simp only [isAdmitted, room, decide_true, Bool.toNat_true, Bool.toNat_false] at entering
      omega
    · simp only [isAdmitted, room, decide_false, Bool.toNat_false] at entering
      omega
  | letIn low =>
    simp only [isAdmitted, low, decide_true, Bool.toNat_true] at entering
    omega
  | _ =>
    simp only [isAdmitted, Bool.toNat_true, Bool.toNat_false] at entering
    omega

theorem capacity_step (exact : gate.inflight = outstanding gate)
    (capacity : admitted maxInflight gate ≤ maxInflight)
    (taken : gate.step maxInflight action = some after) : admitted maxInflight after ≤ maxInflight := by
  rcases step_cases taken with ⟨-, rfl⟩ | ⟨i, old, new, n, held, moves, rfl⟩
  · unfold admitted
    rw [count_arrival rfl]
    exact capacity
  · exact capacity_move exact capacity held moves

/-- While the counter cannot wrap, admissions stay within capacity. -/
theorem capacity_run (run : Run (Gate.step maxInflight) .initial log gate)
    (few : ∀ event ∈ log, outstanding event.1 < 2 ^ 64) (few' : outstanding gate < 2 ^ 64) :
    admitted maxInflight gate ≤ maxInflight := by
  have kept : Tallied gate ∧ admitted maxInflight gate ≤ maxInflight := by
    apply run.invariant (outstanding · < 2 ^ 64)
      (fun _ gate => Tallied gate ∧ admitted maxInflight gate ≤ maxInflight) _ _ few few'
    · exact ⟨rfl, Nat.zero_le _⟩
    · rintro _ before action after few _ ⟨tallied, capacity⟩ taken
      exact ⟨tallied_step tallied taken, capacity_step (tallied.exact few) capacity taken⟩
  exact kept.2

/-- The actions that subtract from the counter. -/
def Subtracts : GateAction → Prop
  | .fetchSub _ => True
  | .dropGuard _ => True
  | _ => False

/-- Every request that subtracts is still counted. -/
theorem subtracts_counted (exact : gate.inflight = outstanding gate)
    (taken : gate.step maxInflight action = some after) (subtracts : Subtracts action) : 0 < gate.inflight := by
  rw [exact]
  rcases step_cases taken with ⟨rfl, -⟩ | ⟨i, old, new, n, held, moves, -⟩
  · cases subtracts
  · cases moves with
    | fetchSub => exact countP_pos held rfl
    | dropGuard => exact countP_pos held rfl
    | _ => cases subtracts

/-- When no verdict is pending, the admitted requests hold guards and the refused
ones are past their comparison. -/
theorem settled_counts (maxInflight : Nat) (settled : ∀ prev, Phase.counted prev ∉ gate.requests) :
    admitted maxInflight gate = guards gate ∧ refused maxInflight gate = rejecting gate := by
  constructor
  · apply List.countP_congr
    intro phase member
    cases phase with
    | counted prev => exact absurd member (settled prev)
    | _ => simp [isAdmitted]
  · apply List.countP_congr
    intro phase member
    cases phase with
    | counted prev => exact absurd member (settled prev)
    | _ => simp [isRefused]

/-- Safety of the gate in one state: handlers within capacity, an exact counter,
no subtraction from zero, and nothing left over once everybody is through. -/
structure GateSafe (maxInflight : Nat) (gate : Gate) : Prop where
  capacity : handlers gate ≤ maxInflight
  counter : gate.inflight = admitted maxInflight gate + refused maxInflight gate
  settled : (∀ prev, Phase.counted prev ∉ gate.requests) → gate.inflight = guards gate + rejecting gate
  noUnderflow : ∀ action after, gate.step maxInflight action = some after → Subtracts action → 0 < gate.inflight
  idle : outstanding gate = 0 → gate.inflight = 0

/-- The gate is safe in every state of every run, whatever its capacity and
however its requests interleave, be their handlers cancelled or panicking. -/
theorem gate_safe (run : Run (Gate.step maxInflight) .initial log gate)
    (few : ∀ event ∈ log, outstanding event.1 < 2 ^ 64) (few' : outstanding gate < 2 ^ 64) :
    GateSafe maxInflight gate := by
  have exact := (tallied_run run).exact few'
  have counter := exact.trans (outstanding_eq maxInflight gate)
  have capacity := capacity_run run few few'
  refine ⟨Nat.le_trans (handlers_le_admitted maxInflight gate) capacity, counter, ?_, ?_, ?_⟩
  · intro settled
    obtain ⟨holders, undoing⟩ := settled_counts maxInflight settled
    rw [counter, holders, undoing]
  · intro action after taken subtracts
    exact subtracts_counted exact taken subtracts
  · exact exact.trans

end

theorem gate_safe_overlap : GateSafe 1 ⟨1, [.finished .cancelled, .rejecting]⟩ :=
  gate_safe (run_of_play (show play (Gate.step 1) .initial [.arrive, .arrive, .fetchAdd 0, .fetchAdd 1, .compare 0,
    .compare 1, .endHandler 0 .cancelled, .dropGuard 0] = _ from rfl)) (by decide) (by decide)

/-! ### Overload answers -/

/-- What a request's phase says about the counter its own `fetch_add` read. -/
def Saw (maxInflight n : Nat) : Phase → Prop
  | .arriving => False
  | .counted prev => prev = n
  | .rejecting => maxInflight ≤ n
  | .overloaded => maxInflight ≤ n
  | .holding => n < maxInflight
  | .closing _ => n < maxInflight
  | .finished _ => n < maxInflight

/-- The log holds every request's own `fetch_add`, and its phase remembers it. -/
structure Recorded (maxInflight : Nat) (log : List (Gate × GateAction)) (gate : Gate) : Prop where
  kept : ∀ before i, (before, .fetchAdd i) ∈ log →
    ∃ phase, gate.requests[i]? = some phase ∧ Saw maxInflight before.inflight phase
  logged : ∀ i phase, gate.requests[i]? = some phase → phase ≠ .arriving →
    ∃ before, (before, .fetchAdd i) ∈ log

section
variable {maxInflight : Nat} {gate after : Gate} {action : GateAction} {log : List (Gate × GateAction)}

/-- A move other than `fetch_add` keeps what its request saw. -/
private theorem saw_move (moves : Moves maxInflight n i action old new m) (saw : Saw maxInflight k old) :
    Saw maxInflight k new := by
  cases moves with
  | fetchAdd => cases saw
  | letIn low => exact saw ▸ low
  | turnAway high => exact saw ▸ high
  | fetchSub => exact saw
  | endHandler => exact saw
  | dropGuard => exact saw

private theorem recorded_move (ready : Recorded maxInflight log gate) (held : gate.requests[i]? = some old)
    (moves : Moves maxInflight gate.inflight i action old new n) :
    Recorded maxInflight (log ++ [(gate, action)]) ⟨n, gate.requests.set i new⟩ := by
  have inside := (List.getElem?_eq_some_iff.mp held).1
  constructor
  · intro before j member
    rcases List.mem_append.mp member with earlier | last
    · obtain ⟨phase, phaseHeld, saw⟩ := ready.kept before j earlier
      by_cases same : i = j
      · subst same
        obtain rfl := Option.some.inj (held.symm.trans phaseHeld)
        exact ⟨new, List.getElem?_set_self inside, saw_move moves saw⟩
      · exact ⟨phase, (List.getElem?_set_ne same).trans phaseHeld, saw⟩
    · obtain ⟨rfl, rfl⟩ := Prod.mk.inj (List.mem_singleton.mp last)
      cases moves with
      | fetchAdd => exact ⟨_, List.getElem?_set_self inside, rfl⟩
  · intro j phase phaseHeld past
    by_cases same : i = j
    · subst same
      by_cases first : old = .arriving
      · subst first
        cases moves with
        | fetchAdd => exact ⟨gate, by simp⟩
      · obtain ⟨before, earlier⟩ := ready.logged i old held first
        exact ⟨before, List.mem_append_left _ earlier⟩
    · obtain ⟨before, earlier⟩ := ready.logged j phase ((List.getElem?_set_ne same).symm.trans phaseHeld) past
      exact ⟨before, List.mem_append_left _ earlier⟩

theorem recorded_step (ready : Recorded maxInflight log gate)
    (taken : gate.step maxInflight action = some after) :
    Recorded maxInflight (log ++ [(gate, action)]) after := by
  rcases step_cases taken with ⟨rfl, rfl⟩ | ⟨i, old, new, n, held, moves, rfl⟩
  · constructor
    · intro before j member
      obtain ⟨phase, phaseHeld, saw⟩ := ready.kept before j (by simpa using member)
      have inside := (List.getElem?_eq_some_iff.mp phaseHeld).1
      exact ⟨phase, (List.getElem?_append_left inside).trans phaseHeld, saw⟩
    · intro j phase phaseHeld past
      rcases Nat.lt_or_ge j gate.requests.length with inside | outside
      · obtain ⟨before, earlier⟩ :=
          ready.logged j phase ((List.getElem?_append_left inside).symm.trans phaseHeld) past
        exact ⟨before, List.mem_append_left _ earlier⟩
      · have arrived := List.mem_of_getElem? ((List.getElem?_append_right outside).symm.trans phaseHeld)
        exact absurd (List.mem_singleton.mp arrived) past
  · exact recorded_move ready held moves

theorem recorded_run (run : Run (Gate.step maxInflight) .initial log gate) : Recorded maxInflight log gate :=
  run.invariant (fun _ => True) (Recorded maxInflight) ⟨nofun, nofun⟩
    (fun _ _ _ _ _ _ ready taken => recorded_step ready taken) (fun _ _ => trivial) trivial

/-- A request answered 503 made its own `fetch_add` at a moment when as many
requests were live as the gate lets in. -/
def NoSpurious (live : Gate → Nat) (maxInflight : Nat) (log : List (Gate × GateAction)) (gate : Gate) : Prop :=
  ∀ i, gate.requests[i]? = some .overloaded → (∃ before, (before, .fetchAdd i) ∈ log) ∧
    ∀ before, (before, .fetchAdd i) ∈ log → maxInflight ≤ live before

/-- Requests in the gate that are not live do not use up what the live ones leave free. -/
def LeavesRoom (live : Gate → Nat) (maxInflight : Nat) (gate : Gate) : Prop :=
  live gate < maxInflight → outstanding gate < maxInflight

private theorem no_spurious_of_room (run : Run (Gate.step maxInflight) .initial log gate) (live : Gate → Nat)
    (room : ∀ before i, (before, .fetchAdd i) ∈ log → LeavesRoom live maxInflight before) :
    NoSpurious live maxInflight log gate := by
  have recorded := recorded_run run
  intro i answered
  refine ⟨recorded.logged i _ answered nofun, ?_⟩
  intro before member
  obtain ⟨phase, held, saw⟩ := recorded.kept before i member
  obtain rfl := Option.some.inj (answered.symm.trans held)
  obtain ⟨front, back, rfl, leads⟩ := run.earlier member
  have tallied := tallied_run leads
  have counted : before.inflight ≤ outstanding before := tallied ▸ Nat.mod_le _ _
  have full : maxInflight ≤ before.inflight := saw
  by_contra spare
  have short := room before i member (Nat.lt_of_not_le spare)
  omega

/-- In a run whose `fetch_add`s all leave room beside the guards, every 503 is
answered to a request that found as many guards held as the capacity. The same
holds when a request counts as live already from its own successful `fetch_add`. -/
theorem no_spurious_overload (run : Run (Gate.step maxInflight) .initial log gate) :
    ((∀ before i, (before, .fetchAdd i) ∈ log → LeavesRoom guards maxInflight before) →
      NoSpurious guards maxInflight log gate) ∧
    ((∀ before i, (before, .fetchAdd i) ∈ log → LeavesRoom (admitted maxInflight) maxInflight before) →
      NoSpurious (admitted maxInflight) maxInflight log gate) :=
  ⟨no_spurious_of_room run guards, no_spurious_of_room run (admitted maxInflight)⟩

end

/-- With one place, a request arriving while another is being refused is refused
too, although nobody holds the place or is about to. -/
theorem refused_take_room : ¬ ∀ log gate, Run (Gate.step 1) .initial log gate →
    NoSpurious guards 1 log gate ∨ NoSpurious (admitted 1) 1 log gate := by
  intro never
  have run := run_of_play (show play (Gate.step 1) .initial [.arrive, .arrive, .arrive, .fetchAdd 0, .compare 0,
    .fetchAdd 1, .endHandler 0 .returned, .dropGuard 0, .fetchAdd 2, .compare 2, .fetchSub 2] =
      some (_, ⟨1, [.finished .returned, .counted 1, .overloaded]⟩) from rfl)
  rcases never _ _ run with holders | entered
  · have full := (holders 2 rfl).2 ⟨1, [.finished .returned, .counted 1, .arriving]⟩ (by decide)
    cases full
  · have full := (entered 2 rfl).2 ⟨1, [.finished .returned, .counted 1, .arriving]⟩ (by decide)
    cases full

theorem no_spurious_overload_full : ∃ log, (∃ before, (before, .fetchAdd 1) ∈ log) ∧
    NoSpurious guards 1 log ⟨1, [.holding, .overloaded]⟩ ∧
    NoSpurious (admitted 1) 1 log ⟨1, [.holding, .overloaded]⟩ := by
  have run := run_of_play (show play (Gate.step 1) .initial [.arrive, .arrive, .fetchAdd 0, .compare 0,
    .fetchAdd 1, .compare 1, .fetchSub 1] = some (_, ⟨1, [.holding, .overloaded]⟩) from rfl)
  obtain ⟨holders, entered⟩ := no_spurious_overload run
  refine ⟨_, ⟨⟨1, [.holding, .arriving]⟩, ?_⟩, holders ?_, entered ?_⟩
  · decide
  all_goals
    intro before i member
    simp at member
    rcases member with ⟨rfl, rfl⟩ | ⟨rfl, rfl⟩
  · exact fun _ => by decide
  · exact fun spare => absurd spare (by decide)
  · exact fun _ => by decide
  · exact fun spare => absurd spare (by decide)

end VocabVeto.GateProofs
