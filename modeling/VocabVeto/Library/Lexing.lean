import Mathlib.Data.List.Basic

/-! Machines that read a sequence one symbol at a time and put out what they have
recognized. What two parts of a text are read as, the whole text is read as. -/
namespace Lexing

section
variable {σ α τ : Type} {step : σ → α → Option (List τ × σ)}

/-- Read a whole sequence; nothing when a symbol does not fit. -/
def feed (step : σ → α → Option (List τ × σ)) : σ → List α → Option (List τ × σ)
  | s, [] => some ([], s)
  | s, a :: rest =>
    match step s a with
    | none => none
    | some (out, next) =>
      match feed step next rest with
      | none => none
      | some (more, last) => some (out ++ more, last)

/-- From one place to another, this text is read as this output. -/
def Reads (step : σ → α → Option (List τ × σ)) (before : σ) (text : List α) (out : List τ) (after : σ) : Prop :=
  feed step before text = some (out, after)

instance [DecidableEq σ] [DecidableEq τ] {before after : σ} {text : List α} {out : List τ} :
    Decidable (Reads step before text out after) := inferInstanceAs (Decidable (_ = _))

theorem reads_nil (s : σ) : Reads step s [] [] s := rfl

theorem Reads.cons (first : step before a = some (out, middle)) (rest : Reads step middle text more after) :
    Reads step before (a :: text) (out ++ more) after := by
  unfold Reads at rest ⊢
  simp only [feed, first, rest]

/-- A symbol that puts out nothing. -/
theorem Reads.skip (first : step before a = some ([], middle)) (rest : Reads step middle text out after) :
    Reads step before (a :: text) out after := rest.cons first

theorem Reads.single (first : step before a = some (out, after)) : Reads step before [a] out after := by
  have read := (reads_nil after).cons first
  rwa [List.append_nil] at read

theorem Reads.append (first : Reads step before text out middle) (second : Reads step middle rest more after) :
    Reads step before (text ++ rest) (out ++ more) after := by
  induction text generalizing before out with
  | nil =>
    obtain ⟨rfl, rfl⟩ := Prod.mk.inj (Option.some.inj first)
    exact second
  | cons a text ih =>
    simp only [Reads, feed] at first
    split at first
    · cases first
    rename_i own next stepped
    split at first
    · cases first
    rename_i later last continued
    obtain ⟨rfl, rfl⟩ := Prod.mk.inj (Option.some.inj first)
    rw [List.append_assoc]
    exact Reads.cons stepped (ih continued)

/-- Pieces that each lead back to where they began can be put in a row. -/
theorem Reads.flatMap {write : β → List α} {put : β → List τ} {place : σ} (items : List β)
    (each : ∀ item ∈ items, Reads step place (write item) (put item) place) :
    Reads step place (items.flatMap write) (items.flatMap put) place := by
  induction items with
  | nil => exact reads_nil place
  | cons item items ih =>
    rw [List.flatMap_cons, List.flatMap_cons]
    exact (each item List.mem_cons_self).append (ih fun other member => each other (List.mem_cons_of_mem _ member))

end

end Lexing
