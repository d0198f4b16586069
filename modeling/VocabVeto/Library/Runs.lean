import Mathlib

/-! Runs of a system that takes one action at a time, with the log of what was
done and in which state. What one step preserves, a whole run preserves; and the
log lets a later state be traced back to the steps that led to it. -/
namespace Runs

section
variable {σ : Type u} {α : Type v} {step : σ → α → Option σ}

/-- A run from one state to another, logging each action and the state it was
taken in. -/
inductive Run (step : σ → α → Option σ) (origin : σ) : List (σ × α) → σ → Prop where
  | start : Run step origin [] origin
  | next {log : List (σ × α)} {before after : σ} {action : α} (run : Run step origin log before)
      (taken : step before action = some after) : Run step origin (log ++ [(before, action)]) after

/-- An invariant of the log and the state holds after every run whose states all
meet an assumption: it holds at the start, and every step between such states
preserves it. -/
theorem Run.invariant (run : Run step origin log s) (Assumed : σ → Prop) (Inv : List (σ × α) → σ → Prop)
    (initial : Inv [] origin)
    (preserved : ∀ log before action after, Assumed before → Assumed after → Inv log before →
      step before action = some after → Inv (log ++ [(before, action)]) after)
    (assumed : ∀ event ∈ log, Assumed event.1) (final : Assumed s) : Inv log s := by
  induction run with
  | start => exact initial
  | next run taken ih =>
    have earlier := fun event member => assumed event (List.mem_append_left _ member)
    have current := assumed _ (List.mem_append_right _ List.mem_cons_self)
    exact preserved _ _ _ _ current final (ih earlier current) taken

/-- Every logged step was taken in a state that an earlier part of the log leads to. -/
theorem Run.earlier (run : Run step origin log s) (member : (before, action) ∈ log) :
    ∃ front back, log = front ++ (before, action) :: back ∧ Run step origin front before := by
  induction run with
  | start => cases member
  | next run taken ih =>
    rcases List.mem_append.mp member with inside | last
    · obtain ⟨front, back, rfl, leads⟩ := ih inside
      exact ⟨front, back ++ [_], by rw [List.append_assoc, List.cons_append], leads⟩
    · obtain ⟨rfl, rfl⟩ := Prod.mk.inj (List.mem_singleton.mp last)
      exact ⟨_, [], rfl, run⟩

/-- A run can be continued by another one. -/
theorem Run.append (run : Run step origin log middle) (more : Run step middle rest s) :
    Run step origin (log ++ rest) s := by
  induction more with
  | start => rwa [List.append_nil]
  | next _ taken ih =>
    rw [← List.append_assoc]
    exact ih.next taken

/-- Take these actions in order, logging them; nothing when one is not possible. -/
def play (step : σ → α → Option σ) : σ → List α → Option (List (σ × α) × σ)
  | s, [] => some ([], s)
  | s, action :: actions =>
    match step s action with
    | none => none
    | some after => (play step after actions).map fun (log, last) => ((s, action) :: log, last)

private theorem play_extends (run : Run step origin log s)
    (played : play step s actions = some (more, last)) : Run step origin (log ++ more) last := by
  induction actions generalizing log s more with
  | nil =>
    obtain ⟨rfl, rfl⟩ := Prod.mk.inj (Option.some.inj played)
    simpa using run
  | cons action actions ih =>
    simp only [play] at played
    split at played
    · cases played
    · rename_i after taken
      obtain ⟨⟨rest, final⟩, continued, same⟩ := Option.map_eq_some_iff.mp played
      obtain ⟨rfl, rfl⟩ := Prod.mk.inj same
      simpa using ih (run.next taken) continued

theorem run_of_play (played : play step origin actions = some (log, s)) : Run step origin log s := by
  simpa using play_extends .start played

end

/-! ### Populations

A system of many parties is a list of their phases, and a step moves one of them. -/

/-- Moving one party between phases changes each head count by what leaves and
what enters. -/
theorem countP_move {phases : List ρ} (held : phases[i]? = some old) (p : ρ → Bool) (new : ρ) :
    (phases.set i new).countP p + (p old).toNat = phases.countP p + (p new).toNat := by
  obtain ⟨inside, rfl⟩ := List.getElem?_eq_some_iff.mp held
  have counted := List.countP_set (p := p) (a := new) inside
  have positive : p phases[i] = true → 0 < phases.countP p := fun counts =>
    List.countP_pos_iff.mpr ⟨_, List.getElem_mem inside, counts⟩
  cases leaves : p phases[i] <;> cases enters : p new <;> simp_all

/-- Exchanging one party for another exchanges one member of the population. -/
theorem set_perm {phases : List ρ} (held : phases[i]? = some old) (new : ρ) :
    (old :: phases.set i new).Perm (new :: phases) := by
  have exchanged := phases.getD_set_perm_cons i new
  rwa [held, Option.getD_some] at exchanged

/-- In two populations that are related member by member, a party has a counterpart. -/
theorem counterpart {R : ρ → τ → Prop} {i : Nat} (related : List.Forall₂ R phases others)
    (held : phases[i]? = some old) :
    ∃ other, others[i]? = some other ∧ R old other := by
  obtain ⟨inside, rfl⟩ := List.getElem?_eq_some_iff.mp held
  have inside' := related.length_eq ▸ inside
  exact ⟨others[i], List.getElem?_eq_getElem inside', related.get inside inside'⟩

/-- Both parties move, and stay related. -/
theorem related_set {R : ρ → τ → Prop} (related : List.Forall₂ R phases others) (moved : R new other) (i : Nat) :
    List.Forall₂ R (phases.set i new) (others.set i other) := by
  induction related generalizing i with
  | nil => exact .nil
  | cons first rest ih =>
    cases i with
    | zero => exact .cons moved rest
    | succ i => exact .cons first (ih i)

theorem countP_related {R : ρ → τ → Prop} (related : List.Forall₂ R phases others) {p : ρ → Bool} {q : τ → Bool}
    (same : ∀ phase other, R phase other → p phase = q other) : phases.countP p = others.countP q := by
  induction related with
  | nil => rfl
  | cons first _ ih => rw [List.countP_cons, List.countP_cons, ih, same _ _ first]

theorem countP_pos {phases : List ρ} {i : Nat} {phase : ρ} (held : phases[i]? = some phase) {p : ρ → Bool}
    (counts : p phase = true) : 0 < phases.countP p :=
  List.countP_pos_iff.mpr ⟨phase, List.mem_of_getElem? held, counts⟩

end Runs
