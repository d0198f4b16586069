import VocabVeto.Library.Runs

/-! Programs that share a state. A program is the tree of the operations it
performs on what it shares, each followed by what it does with the result. Where
it waits it can be dropped, and then performs only what its guards still owe. A
pool holds any number of programs and performs one operation at a time, of
whichever program comes next. -/
namespace Tasks
open Runs

/-- A program whose operations have these results, and which returns an `α`. -/
inductive Task (Op : Type) (Result : Op → Type) (α : Type) where
  | done (value : α)
  /-- Unwinding, with these operations of its guards left to perform. -/
  | fail (drops : List Op)
  /-- Perform an operation and go on with its result. Dropped at this point, the
  program performs `drops` instead. -/
  | op (o : Op) (drops : List Op) (next : Result o → Task Op Result α)

/-- An operation that was performed, with its result. -/
abbrev Event (Op : Type) (Result : Op → Type) := Sigma Result

section
variable {Op : Type} {Result : Op → Type} {α β : Type}

namespace Task

/-- Run one program and then another on its value. -/
def bind : Task Op Result α → (α → Task Op Result β) → Task Op Result β
  | done value, rest => rest value
  | fail drops, _ => fail drops
  | op o drops next, rest => op o drops fun result => (next result).bind rest

instance : Monad (Task Op Result) where
  pure := done
  bind := bind

/-- A single operation. -/
def perform (o : Op) : Task Op Result (Result o) := op o [] done

/-- Run a program under a guard, whose drop is performed when the program is over,
however it ends. -/
def guarded (drop : Op) : Task Op Result α → Task Op Result α
  | done value => op drop [] fun _ => done value
  | fail drops => fail (drops ++ [drop])
  | op o drops next => op o (drops ++ [drop]) fun result => (next result).guarded drop

/-- How a program ended, when no operation is left: with a value, or dropped. -/
def ended : Task Op Result α → Option (Option α)
  | done value => some (some value)
  | fail [] => some none
  | _ => none

theorem bind_done (value : α) (rest : α → Task Op Result β) : (done value >>= rest) = rest value := rfl

theorem bind_op (o : Op) (drops : List Op) (next : Result o → Task Op Result α) (rest : α → Task Op Result β) :
    (op o drops next >>= rest) = op o drops fun result => next result >>= rest := rfl

end Task

/-! ### One program on its own -/

section
variable {suspends : Op → Bool}

/-- A complete course of a program, whatever its operations result in: what it
performs, and the value it returns unless it is dropped. It can only be dropped
at an operation that waits. -/
inductive Course (suspends : Op → Bool) : Task Op Result α → List (Event Op Result) → Option α → Prop where
  | done (value : α) : Course suspends (.done value) [] (some value)
  | unwound : Course suspends (.fail []) [] none
  | drop {d : Op} {drops : List Op} {log : List (Event Op Result)} (result : Result d)
      (rest : Course suspends (.fail drops) log none) :
      Course suspends (.fail (d :: drops)) (⟨d, result⟩ :: log) none
  | op {o : Op} {drops : List Op} {next : Result o → Task Op Result α} {log : List (Event Op Result)}
      {outcome : Option α} (result : Result o) (rest : Course suspends (next result) log outcome) :
      Course suspends (.op o drops next) (⟨o, result⟩ :: log) outcome
  | abandoned {o : Op} {drops : List Op} {next : Result o → Task Op Result α} {log : List (Event Op Result)}
      (waits : suspends o = true) (rest : Course suspends (.fail drops) log none) :
      Course suspends (.op o drops next) log none

theorem course_done {value : α} :
    Course suspends (.done value : Task Op Result α) log outcome ↔ log = [] ∧ outcome = some value := by
  constructor
  · rintro ⟨⟩
    exact ⟨rfl, rfl⟩
  · rintro ⟨rfl, rfl⟩
    exact .done value

theorem course_op {next : Result o → Task Op Result α} :
    Course suspends (.op o drops next) log outcome ↔
      (∃ result rest, log = ⟨o, result⟩ :: rest ∧ Course suspends (next result) rest outcome) ∨
        suspends o = true ∧ outcome = none ∧ Course suspends (.fail drops : Task Op Result α) log none := by
  constructor
  · intro course
    cases course with
    | op result rest => exact .inl ⟨result, _, rfl, rest⟩
    | abandoned waits rest => exact .inr ⟨waits, rfl, rest⟩
  · rintro (⟨result, rest, rfl, course⟩ | ⟨waits, rfl, rest⟩)
    · exact .op result course
    · exact .abandoned waits rest

/-- A program that unwinds performs what its guards owe, and returns nothing. -/
theorem course_fail {drops : List Op} :
    Course suspends (.fail drops : Task Op Result α) log outcome ↔
      log.map Sigma.fst = drops ∧ outcome = none := by
  constructor
  · intro course
    generalize same : (Task.fail drops : Task Op Result α) = task at course
    induction course generalizing drops with
    | unwound =>
      obtain rfl := Task.fail.inj same
      exact ⟨rfl, rfl⟩
    | drop result rest ih =>
      obtain rfl := Task.fail.inj same
      exact ⟨congrArg _ (ih rfl).1, rfl⟩
    | _ => cases same
  · rintro ⟨rfl, rfl⟩
    induction log with
    | nil => exact .unwound
    | cons event log ih => exact .drop event.2 ih

/-- A program that ended has nothing more to do. -/
theorem course_ended {task : Task Op Result α} (finished : task.ended = some outcome) :
    Course suspends task [] outcome := by
  match task with
  | .done value =>
    obtain rfl := Option.some.inj finished
    exact .done value
  | .fail [] =>
    obtain rfl := Option.some.inj finished
    exact .unwound

/-- Dropping a program leaves the same work to do in every larger one. -/
private theorem course_fail_congr (course : Course suspends (.fail drops : Task Op Result α) log none) :
    Course suspends (.fail drops : Task Op Result β) log none :=
  course_fail.mpr ⟨(course_fail.mp course).1, rfl⟩

/-- A sequence takes a course of its first program and then one of the second,
unless the first is dropped. -/
theorem course_bind {task : Task Op Result α} {rest : α → Task Op Result β} :
    Course suspends (task >>= rest) log outcome ↔
      (∃ value first second, log = first ++ second ∧ Course suspends task first (some value) ∧
          Course suspends (rest value) second outcome) ∨
        outcome = none ∧ Course suspends task log none := by
  constructor
  · intro course
    induction task generalizing log with
    | done value => exact .inl ⟨value, [], log, rfl, .done value, course⟩
    | fail drops =>
      obtain ⟨performed, rfl⟩ := course_fail.mp course
      exact .inr ⟨rfl, course_fail.mpr ⟨performed, rfl⟩⟩
    | op o drops next ih =>
      rw [Task.bind_op, course_op] at course
      obtain ⟨result, more, rfl, course⟩ | ⟨waits, rfl, course⟩ := course
      · obtain ⟨value, first, second, rfl, before, after⟩ | ⟨rfl, dropped⟩ := ih result course
        · exact .inl ⟨value, ⟨o, result⟩ :: first, second, rfl, .op result before, after⟩
        · exact .inr ⟨rfl, .op result dropped⟩
      · exact .inr ⟨rfl, .abandoned waits (course_fail_congr course)⟩
  · rintro (⟨value, first, second, rfl, before, after⟩ | ⟨rfl, dropped⟩)
    · generalize ending : some value = last at before
      induction before with
      | done returned =>
        obtain rfl := Option.some.inj ending
        exact after
      | op result _ ih => exact .op result (ih ending)
      | _ => cases ending
    · generalize ending : (none : Option α) = last at dropped
      induction dropped with
      | done returned => cases ending
      | unwound => exact .unwound
      | drop result _ ih => exact .drop result (ih ending)
      | op result _ ih => exact .op result (ih ending)
      | abandoned waits rest => exact .abandoned waits (course_fail_congr rest)

private theorem course_unwinding :
    Course suspends (.fail (drops ++ [drop]) : Task Op Result β) log outcome ↔
      ∃ first result, log = first ++ [⟨drop, result⟩] ∧
        Course suspends (.fail drops : Task Op Result α) first none ∧ outcome = none := by
  rw [course_fail]
  constructor
  · rintro ⟨performed, rfl⟩
    obtain ⟨first, last, rfl, same, single⟩ := List.map_eq_append_iff.mp performed
    obtain ⟨⟨o, result⟩, rfl, rfl⟩ := List.map_eq_singleton_iff.mp single
    exact ⟨first, result, rfl, course_fail.mpr ⟨same, rfl⟩, rfl⟩
  · rintro ⟨first, result, rfl, course, rfl⟩
    obtain ⟨rfl, -⟩ := course_fail.mp course
    exact ⟨List.map_append, rfl⟩

/-- Converting the value of a program changes nothing about its courses. -/
theorem course_map {task : Task Op Result α} (convert : α → β) :
    Course suspends (task >>= fun value => pure (convert value)) log outcome ↔
      ∃ inner, outcome = inner.map convert ∧ Course suspends task log inner := by
  rw [course_bind]
  constructor
  · rintro (⟨value, first, second, rfl, course, returned⟩ | ⟨rfl, course⟩)
    · obtain ⟨rfl, rfl⟩ := course_done.mp returned
      exact ⟨some value, rfl, by rwa [List.append_nil]⟩
    · exact ⟨none, rfl, course⟩
  · rintro ⟨inner, rfl, course⟩
    cases inner with
    | none => exact .inr ⟨rfl, course⟩
    | some value => exact .inl ⟨value, log, [], (List.append_nil log).symm, course, .done _⟩

/-- Under a guard a program takes the courses it takes without, and the guard's
drop is performed once, after everything else. -/
theorem course_guarded (prompt : suspends drop = false) {task : Task Op Result α} :
    Course suspends (task.guarded drop) log outcome ↔
      ∃ first result, log = first ++ [⟨drop, result⟩] ∧ Course suspends task first outcome := by
  induction task generalizing log with
  | done value =>
    rw [Task.guarded, course_op, prompt]
    simp only [course_done, Bool.false_eq_true, false_and, or_false]
    constructor
    · rintro ⟨result, rest, rfl, rfl, rfl⟩
      exact ⟨[], result, rfl, rfl, rfl⟩
    · rintro ⟨first, result, rfl, rfl, rfl⟩
      exact ⟨result, [], rfl, rfl, rfl⟩
  | fail drops =>
    rw [Task.guarded, course_unwinding (α := α)]
    constructor
    · rintro ⟨first, result, rfl, course, rfl⟩
      exact ⟨first, result, rfl, course⟩
    · rintro ⟨first, result, rfl, course⟩
      obtain ⟨-, rfl⟩ := course_fail.mp course
      exact ⟨first, result, rfl, course, rfl⟩
  | op o drops next ih =>
    rw [Task.guarded, course_op, course_unwinding (α := α)]
    simp only [ih, course_op]
    constructor
    · rintro (⟨result, rest, rfl, first, last, rfl, course⟩ | ⟨waits, rfl, first, last, rfl, course, -⟩)
      · exact ⟨⟨o, result⟩ :: first, last, rfl, .inl ⟨result, first, rfl, course⟩⟩
      · exact ⟨first, last, rfl, .inr ⟨waits, rfl, course⟩⟩
    · rintro ⟨first, last, rfl, ⟨result, rest, rfl, course⟩ | ⟨waits, rfl, course⟩⟩
      · exact .inl ⟨result, rest ++ [⟨drop, last⟩], rfl, rest, last, rfl, course⟩
      · exact .inr ⟨waits, rfl, first, last, rfl, course, trivial⟩

theorem course_perform {o : Op} {outcome : Option (Result o)} :
    Course suspends (Task.perform o : Task Op Result (Result o)) log outcome ↔
      (∃ result, log = [⟨o, result⟩] ∧ outcome = some result) ∨ suspends o = true ∧ outcome = none ∧ log = [] := by
  rw [Task.perform, course_op]
  simp only [course_done, course_fail, List.map_eq_nil_iff, and_true]
  constructor
  · rintro (⟨result, rest, rfl, rfl, rfl⟩ | dropped)
    · exact .inl ⟨result, rfl, rfl⟩
    · exact .inr dropped
  · rintro (⟨result, rfl, rfl⟩ | dropped)
    · exact .inl ⟨result, [], rfl, rfl, rfl⟩
    · exact .inr dropped

/-- An operation that does not wait is performed before the rest. -/
theorem course_perform_bind {o : Op} (prompt : suspends o = false) {rest : Result o → Task Op Result α} :
    Course suspends (Task.perform o >>= rest) log outcome ↔
      ∃ result more, log = ⟨o, result⟩ :: more ∧ Course suspends (rest result) more outcome := by
  rw [Task.perform, Task.bind_op, course_op, prompt]
  simp only [Task.bind_done, Bool.false_eq_true, false_and, or_false]

/-- Every program can run to its end. -/
theorem course_exists [∀ o, Nonempty (Result o)] (suspends : Op → Bool) (task : Task Op Result α) :
    ∃ log outcome, Course suspends task log outcome := by
  induction task with
  | done value => exact ⟨[], some value, .done value⟩
  | fail drops =>
    let results : ∀ d, Result d := fun d => Classical.choice inferInstance
    refine ⟨drops.map fun d => ⟨d, results d⟩, none, course_fail.mpr ⟨?_, rfl⟩⟩
    rw [List.map_map]
    exact List.map_id drops
  | op o drops next ih =>
    obtain ⟨result⟩ : Nonempty (Result o) := inferInstance
    obtain ⟨log, outcome, course⟩ := ih result
    exact ⟨⟨o, result⟩ :: log, outcome, .op result course⟩

end

/-! ### A pool of programs -/

section
variable {κ σ : Type}

/-- Programs that were started for these keys, as far as they have come, and the
state they share. -/
structure Pool (κ σ Op : Type) (Result : Op → Type) (α : Type) where
  shared : σ
  tasks : List (κ × Task Op Result α)

inductive Action (κ : Type) where
  | spawn (key : κ)
  /-- Perform the next operation of a program. -/
  | advance (i : Nat)
  /-- Drop a program where it waits. -/
  | abandon (i : Nat)
  deriving DecidableEq, Repr

/-- A system of programs: which one a key starts, where it can be dropped, and
what its operations do. -/
structure System (κ σ Op : Type) (Result : Op → Type) (α : Type) where
  program : κ → Task Op Result α
  suspends : Op → Bool
  exec : (o : Op) → σ → Result o × σ

namespace System
variable (system : System κ σ Op Result α)

def step (pool : Pool κ σ Op Result α) : Action κ → Option (Pool κ σ Op Result α)
  | .spawn key => some { pool with tasks := pool.tasks ++ [(key, system.program key)] }
  | .advance i =>
    match pool.tasks[i]? with
    | some (key, .op o _ next) =>
      let (result, shared) := system.exec o pool.shared
      some ⟨shared, pool.tasks.set i (key, next result)⟩
    | some (key, .fail (d :: drops)) => some ⟨(system.exec d pool.shared).2, pool.tasks.set i (key, .fail drops)⟩
    | _ => none
  | .abandon i =>
    match pool.tasks[i]? with
    | some (key, .op o drops _) =>
      if system.suspends o then some { pool with tasks := pool.tasks.set i (key, .fail drops) } else none
    | _ => none

/-- The operation an action performs, if it performs one of this program's. -/
def performed (i : Nat) (pool : Pool κ σ Op Result α) : Action κ → Option (Event Op Result)
  | .advance j =>
    if j = i then
      match pool.tasks[i]? with
      | some (_, .op o _ _) => some ⟨o, (system.exec o pool.shared).1⟩
      | some (_, .fail (d :: _)) => some ⟨d, (system.exec d pool.shared).1⟩
      | _ => none
    else none
  | _ => none

/-- What a program has performed so far, in a run that logged these actions. -/
def history (log : List (Pool κ σ Op Result α × Action κ)) (i : Nat) : List (Event Op Result) :=
  log.filterMap fun entry => system.performed i entry.1 entry.2

/-- What every program has performed so far, next to its key. -/
def tracks (log : List (Pool κ σ Op Result α × Action κ)) (pool : Pool κ σ Op Result α) :
    List (κ × List (Event Op Result)) :=
  pool.tasks.mapIdx fun i entry => (entry.1, system.history log i)

end System

/-- The next operation of a program, and what the program is after it. -/
inductive Advances : Task Op Result α → (o : Op) → (Result o → Task Op Result α) → Prop where
  | op {o : Op} {drops : List Op} {next : Result o → Task Op Result α} : Advances (.op o drops next) o next
  | drop {d : Op} {drops : List Op} : Advances (.fail (d :: drops)) d fun _ => .fail drops

theorem Advances.course {suspends : Op → Bool} {task : Task Op Result α} (advances : Advances task o next)
    (result : Result o) (rest : Course suspends (next result) log outcome) :
    Course suspends task (⟨o, result⟩ :: log) outcome := by
  cases advances with
  | op => exact .op result rest
  | drop =>
    obtain ⟨-, rfl⟩ := course_fail.mp rest
    exact .drop result rest

namespace System
variable {system : System κ σ Op Result α} {pool after : Pool κ σ Op Result α} {action : Action κ}

theorem step_cases (taken : system.step pool action = some after) :
    (∃ key, action = .spawn key ∧ after = ⟨pool.shared, pool.tasks ++ [(key, system.program key)]⟩) ∨
      (∃ i key task o next, pool.tasks[i]? = some (key, task) ∧ Advances task o next ∧ action = .advance i ∧
        after = ⟨(system.exec o pool.shared).2, pool.tasks.set i (key, next (system.exec o pool.shared).1)⟩) ∨
      ∃ i key o drops next, pool.tasks[i]? = some (key, .op o drops next) ∧ system.suspends o = true ∧
        action = .abandon i ∧ after = ⟨pool.shared, pool.tasks.set i (key, .fail drops)⟩ := by
  cases action with
  | spawn key => exact .inl ⟨key, rfl, (Option.some.inj taken).symm⟩
  | advance i =>
    simp only [step] at taken
    split at taken
    · rename_i key o drops next held
      exact .inr (.inl ⟨i, key, _, o, next, held, .op, rfl, (Option.some.inj taken).symm⟩)
    · rename_i key d drops held
      exact .inr (.inl ⟨i, key, _, d, _, held, .drop, rfl, (Option.some.inj taken).symm⟩)
    · cases taken
  | abandon i =>
    simp only [step] at taken
    split at taken
    · rename_i key o drops next held
      split at taken
      · rename_i waits
        exact .inr (.inr ⟨i, key, o, drops, next, held, waits, rfl, (Option.some.inj taken).symm⟩)
      · cases taken
    · cases taken

theorem history_append (log : List (Pool κ σ Op Result α × Action κ)) (i : Nat) :
    system.history (log ++ [(pool, action)]) i =
      system.history log i ++ (system.performed i pool action).toList := by
  rw [history, List.filterMap_append, history]
  cases done : system.performed i pool action <;> simp [done]

theorem performed_advance (held : pool.tasks[i]? = some (key, task)) (advances : Advances task o next) :
    system.performed i pool (.advance i) = some ⟨o, (system.exec o pool.shared).1⟩ := by
  cases advances <;> simp [performed, held]

theorem performed_other (different : j ≠ i) : system.performed i pool (.advance j) = none := by
  rw [performed, if_neg different]

/-- A program that is not there yet performs nothing. -/
theorem performed_absent (absent : pool.tasks[i]? = none) : system.performed i pool action = none := by
  cases action with
  | advance j => simp [performed, absent]
  | _ => rfl

theorem history_spawn (log : List (Pool κ σ Op Result α × Action κ)) (key : κ) (i : Nat) :
    system.history (log ++ [(pool, .spawn key)]) i = system.history log i := by
  rw [history_append]
  exact List.append_nil _

theorem history_abandon (log : List (Pool κ σ Op Result α × Action κ)) (i j : Nat) :
    system.history (log ++ [(pool, .abandon j)]) i = system.history log i := by
  rw [history_append]
  exact List.append_nil _

/-- An operation in a history was performed by a step of the log, and resulted in
what the state of then made it. -/
theorem mem_history {log : List (Pool κ σ Op Result α × Action κ)} {result : Result o}
    (member : ⟨o, result⟩ ∈ system.history log i) :
    ∃ before, (before, .advance i) ∈ log ∧ system.performed i before (.advance i) = some ⟨o, result⟩ ∧
      result = (system.exec o before.shared).1 := by
  obtain ⟨⟨before, action⟩, logged, done⟩ := List.mem_filterMap.mp member
  dsimp only at done
  cases action with
  | advance j =>
    by_cases same : j = i
    · subst same
      refine ⟨before, logged, done, ?_⟩
      simp only [performed, if_true] at done
      split at done
      · cases done
        rfl
      · cases done
        rfl
      · cases done
    · rw [performed_other same] at done
      cases done
  | _ => cases done

theorem history_absent (run : Run system.step ⟨shared, []⟩ log pool) (absent : pool.tasks[i]? = none) :
    system.history log i = [] := by
  induction run with
  | start => rfl
  | @next log before after action run taken ih =>
    have earlier : before.tasks[i]? = none := by
      rw [List.getElem?_eq_none_iff] at absent ⊢
      obtain ⟨key, -, rfl⟩ | ⟨j, key, task, o, next, -, -, -, rfl⟩ | ⟨j, key, o, drops, next, -, -, -, rfl⟩ :=
        step_cases taken
      · exact Nat.le_of_succ_le (by simpa using absent)
      · simpa using absent
      · simpa using absent
    rw [history_append, ih earlier, performed_absent earlier]
    rfl

private theorem concat_some {l : List ρ} {i : Nat} (held : (l ++ [a])[i]? = some b) :
    l[i]? = some b ∨ l[i]? = none ∧ b = a := by
  rcases Nat.lt_or_ge i l.length with inside | outside
  · exact .inl ((List.getElem?_append_left inside).symm.trans held)
  · have last := List.mem_of_getElem? ((List.getElem?_append_right outside).symm.trans held)
    exact .inr ⟨List.getElem?_eq_none_iff.mpr outside, List.mem_singleton.mp last⟩

private theorem set_some {l : List ρ} {i j : Nat} (standing : l[j]? = some old) (held : (l.set j a)[i]? = some b) :
    j = i ∧ b = a ∨ j ≠ i ∧ l[i]? = some b := by
  by_cases same : j = i
  · subst same
    rw [List.getElem?_set_self (List.getElem?_eq_some_iff.mp standing).1] at held
    exact .inl ⟨rfl, (Option.some.inj held).symm⟩
  · exact .inr ⟨same, (List.getElem?_set_ne same).symm.trans held⟩

/-- A program in a pool is on one of its own courses: whatever it can still do
completes what it has done. It was dropped on the way only if the log says so. -/
theorem course_of_history (allowed : Op → Bool) (run : Run system.step ⟨shared, []⟩ log pool)
    (abandoned : ∀ before, (before, .abandon i) ∈ log → ∀ o, system.suspends o = true → allowed o = true)
    (held : pool.tasks[i]? = some (key, task)) (rest : Course allowed task more outcome) :
    Course allowed (system.program key) (system.history log i ++ more) outcome := by
  induction run generalizing i key task more outcome with
  | start => cases held
  | @next log before after action run taken ih =>
    have earlier := fun state member => abandoned state (List.mem_append_left _ member)
    obtain ⟨started, rfl, rfl⟩ | ⟨j, other, old, o, next, standing, advances, rfl, rfl⟩ |
      ⟨j, other, o, drops, next, standing, waits, rfl, rfl⟩ := step_cases taken
    · rw [history_spawn]
      obtain inside | ⟨absent, last⟩ := concat_some held
      · exact ih earlier inside rest
      · obtain ⟨rfl, rfl⟩ := Prod.mk.inj last
        rwa [history_absent run absent]
    · rw [history_append]
      obtain ⟨rfl, last⟩ | ⟨different, inside⟩ := set_some standing held
      · obtain ⟨rfl, rfl⟩ := Prod.mk.inj last
        rw [performed_advance standing advances, List.append_assoc]
        exact ih earlier standing (advances.course _ rest)
      · rw [performed_other different, Option.toList_none, List.append_nil]
        exact ih earlier inside rest
    · rw [history_abandon]
      obtain ⟨rfl, last⟩ | ⟨-, inside⟩ := set_some standing held
      · obtain ⟨rfl, rfl⟩ := Prod.mk.inj last
        obtain ⟨-, rfl⟩ := course_fail.mp rest
        have given := abandoned before (List.mem_append_right _ (List.mem_singleton_self _)) o waits
        exact ih earlier standing (.abandoned given rest)
      · exact ih earlier inside rest

private theorem tracks_set (standing : pool.tasks[i]? = some (key, old))
    (same : ∀ j, j ≠ i → system.history longer j = system.history log j) :
    system.tracks longer ⟨shared, pool.tasks.set i (key, task)⟩ =
      (system.tracks log pool).set i (key, system.history longer i) := by
  apply List.ext_getElem?
  intro j
  have inside := (List.getElem?_eq_some_iff.mp standing).1
  by_cases here : i = j
  · subst here
    simp [tracks, inside]
  · simp [tracks, here, same j (Ne.symm here)]

/-- What every operation that a program can perform next preserves holds of the
shared state and of all the histories together, in every run. -/
theorem tracks_invariant [∀ o, Nonempty (Result o)] (Inv : σ → List (κ × List (Event Op Result)) → Prop)
    (initial : Inv shared [])
    (spawned : ∀ state tracks key, Inv state tracks → Inv state (tracks ++ [(key, [])]))
    (performed : ∀ state tracks i key history o, Inv state tracks → tracks[i]? = some (key, history) →
      (∃ more outcome, Course system.suspends (system.program key)
        (history ++ ⟨o, (system.exec o state).1⟩ :: more) outcome) →
      Inv (system.exec o state).2 (tracks.set i (key, history ++ [⟨o, (system.exec o state).1⟩])))
    (run : Run system.step ⟨shared, []⟩ log pool) : Inv pool.shared (system.tracks log pool) := by
  induction run with
  | start => exact initial
  | @next log before after action run taken ih =>
    obtain ⟨started, rfl, rfl⟩ | ⟨i, key, old, o, next, standing, advances, rfl, rfl⟩ |
      ⟨i, key, o, drops, next, standing, waits, rfl, rfl⟩ := step_cases taken
    · have fresh := history_absent run (List.getElem?_eq_none_iff.mpr (Nat.le_refl before.tasks.length))
      have grown : system.tracks (log ++ [(before, .spawn started)])
          ⟨before.shared, before.tasks ++ [(started, system.program started)]⟩ =
          system.tracks log before ++ [(started, [])] := by
        simp only [tracks, List.mapIdx_concat, history_spawn, fresh]
      rw [grown]
      exact spawned _ _ _ ih
    · obtain ⟨more, outcome, course⟩ := course_exists system.suspends (next (system.exec o before.shared).1)
      have whole := course_of_history system.suspends run (fun _ _ _ waits => waits) standing (advances.course _ course)
      have tracked : (system.tracks log before)[i]? = some (key, system.history log i) := by
        simp [tracks, standing]
      have others : ∀ j, j ≠ i → system.history (log ++ [(before, .advance i)]) j = system.history log j := by
        intro j different
        rw [history_append, performed_other (Ne.symm different)]
        exact List.append_nil _
      rw [tracks_set standing others, history_append, performed_advance standing advances]
      exact performed _ _ i key _ o ih tracked ⟨more, outcome, whole⟩
    · have same : system.tracks (log ++ [(before, .abandon i)])
          ⟨before.shared, before.tasks.set i (key, .fail drops)⟩ = system.tracks log before := by
        rw [tracks_set standing fun j _ => history_abandon log j i, history_abandon]
        obtain ⟨inside, here⟩ := List.getElem?_eq_some_iff.mp
          (show (system.tracks log before)[i]? = some (key, system.history log i) by simp [tracks, standing])
        rw [← here, List.set_getElem_self]
      rw [same]
      exact ih

/-- What the operations emit into the shared state is there in some order: what
was there before, and what each program has emitted. -/
theorem gathered [∀ o, Nonempty (Result o)] (gather : σ → List β) (emit : Event Op Result → List β)
    (emits : ∀ o state, gather (system.exec o state).2 = gather state ++ emit ⟨o, (system.exec o state).1⟩)
    (run : Run system.step ⟨shared, []⟩ log pool) :
    (gather pool.shared).Perm
      (gather shared ++ (system.tracks log pool).flatMap fun track => track.2.flatMap emit) := by
  apply tracks_invariant (fun state tracks => (gather state).Perm
    (gather shared ++ tracks.flatMap fun track => track.2.flatMap emit)) _ _ _ run
  · rw [List.flatMap_nil, List.append_nil]
  · intro state tracks key kept
    rwa [List.flatMap_append, List.flatMap_singleton, List.flatMap_nil, List.append_nil]
  · intro state tracks i key history o kept held _
    have exchanged := (set_perm held (key, history ++ [⟨o, (system.exec o state).1⟩])).flatMap_right
      fun track => track.2.flatMap emit
    simp only [List.flatMap_cons, List.flatMap_append, List.flatMap_nil, List.append_nil,
      List.append_assoc] at exchanged
    have grown := (List.perm_append_left_iff _).mp exchanged
    rw [emits]
    refine (kept.append_right _).trans ?_
    rw [List.append_assoc]
    exact (List.perm_append_comm.trans grown.symm).append_left _

/-! #### Running dry -/

end System
end
end

end Tasks
