import VocabVeto.Library.Utf8

/-! Rust strings as the matcher uses them: sequences of Unicode scalar values
that are indexed by byte, where indexing off a character boundary panics. -/
namespace VocabVeto

/-- A Rust `str` or `String`; `Char` is exactly the type of Unicode scalar values. -/
abbrev Str := List Char

/-- The ways the code below can panic instead of returning. -/
inductive Panic where
  /-- `v[i]` with `i` out of range, `i - 1` at zero included. -/
  | indexOutOfBounds
  /-- `.expect` on an absent value. -/
  | expectFailed
  /-- `s[i..]` or `s[i..j]` off a character boundary, or with `j < i`. -/
  | sliceOffBoundary
  /-- `assert!` on a false condition. -/
  | assertionFailed
  deriving DecidableEq, Repr

/-- A computation of the program that returns a value or panics. -/
abbrev Fallible (α : Type u) := Except Panic α

@[simp] theorem Fallible.ok_bind (a : α) (next : α → Fallible β) : (.ok a >>= next) = next a := rfl

@[simp] theorem Fallible.error_bind (panic : Panic) (next : α → Fallible β) :
    ((.error panic : Fallible α) >>= next) = .error panic := rfl

/-- A sequence returns exactly when its first part does and the rest does from there. -/
theorem bind_eq_ok {first : Except ε α} {next : α → Except ε β} :
    first >>= next = .ok b ↔ ∃ a, first = .ok a ∧ next a = .ok b := by
  cases first <;> simp [bind, Except.bind]

namespace Str

/-- `str::len`, in bytes. -/
def len (text : Str) : Nat := Utf8.size text

/-- `str::char_indices`, counted from this byte offset. -/
def charIndicesFrom : Nat → Str → List (Nat × Char)
  | _, [] => []
  | offset, c :: text => (offset, c) :: charIndicesFrom (offset + c.utf8Size) text

/-- `str::char_indices`. -/
def charIndices (text : Str) : List (Nat × Char) := charIndicesFrom 0 text

/-- The parts before and after a byte offset, when it is a character boundary. -/
def splitAtByte : Str → Nat → Option (Str × Str)
  | [], offset => if offset = 0 then some ([], []) else none
  | c :: text, offset =>
    if offset = 0 then some ([], c :: text)
    else if c.utf8Size ≤ offset then
      (splitAtByte text (offset - c.utf8Size)).map fun parts => (c :: parts.1, parts.2)
    else none

/-- `&text[start..]`. -/
def sliceFrom (text : Str) (start : Nat) : Fallible Str :=
  match splitAtByte text start with
  | some parts => .ok parts.2
  | none => .error .sliceOffBoundary

/-- `&text[start..stop]`. -/
def slice (text : Str) (start stop : Nat) : Fallible Str :=
  if stop < start then .error .sliceOffBoundary
  else match splitAtByte text start with
    | none => .error .sliceOffBoundary
    | some (_, tail) =>
      match splitAtByte tail (stop - start) with
      | none => .error .sliceOffBoundary
      | some (middle, _) => .ok middle

/-- `str::to_ascii_lowercase`. -/
def toAsciiLowercase (text : Str) : Str := text.map Char.toLower

/-- The byte offset separates two characters, or is an end of the text. -/
def IsCharBoundary (text : Str) (offset : Nat) : Prop :=
  ∃ before after, text = before ++ after ∧ len before = offset

@[simp] theorem len_nil : len [] = 0 := rfl

@[simp] theorem len_cons (c : Char) (text : Str) : len (c :: text) = c.utf8Size + len text :=
  Utf8.size_cons c text

@[simp] theorem len_append (left right : Str) : len (left ++ right) = len left + len right :=
  Utf8.size_append left right

theorem len_pos {text : Str} (nonempty : text ≠ []) : 0 < len text := Utf8.size_pos nonempty

theorem splitAtByte_append (before after : Str) :
    splitAtByte (before ++ after) (len before) = some (before, after) := by
  induction before with
  | nil => cases after <;> simp [splitAtByte]
  | cons c before ih =>
    have positive : c.utf8Size ≠ 0 := Nat.pos_iff_ne_zero.mp c.utf8Size_pos
    simp [splitAtByte, ih, positive]

/-- Taking a slice at the boundaries that cut a text in three never panics. -/
theorem slice_append (before middle after : Str) :
    slice (before ++ (middle ++ after)) (len before) (len before + len middle) = .ok middle := by
  simp [slice, splitAtByte_append]

theorem sliceFrom_append (before after : Str) :
    sliceFrom (before ++ after) (len before) = .ok after := by
  simp [sliceFrom, splitAtByte_append]

theorem splitAtByte_some {text before after : Str} (cut : splitAtByte text offset = some (before, after)) :
    text = before ++ after ∧ len before = offset := by
  induction text generalizing offset before with
  | nil =>
    simp only [splitAtByte] at cut
    split at cut
    · cases cut
      exact ⟨rfl, by simp [*]⟩
    · cases cut
  | cons c text ih =>
    simp only [splitAtByte] at cut
    split at cut
    · cases cut
      exact ⟨rfl, by simp [*]⟩
    · split at cut
      · obtain ⟨⟨front, back⟩, within, made⟩ := Option.map_eq_some_iff.mp cut
        cases made
        obtain ⟨rfl, rest⟩ := ih within
        refine ⟨rfl, ?_⟩
        change len (c :: front) = offset
        rw [len_cons]
        omega
      · cases cut

/-- A slice that is taken cuts its text in three. -/
theorem slice_ok {text middle : Str} (sliced : slice text start stop = .ok middle) :
    ∃ before after, text = before ++ (middle ++ after) ∧ len before = start ∧ start + len middle = stop := by
  unfold slice at sliced
  split at sliced
  · cases sliced
  · rename_i ordered
    split at sliced
    · cases sliced
    · rename_i before tail first
      split at sliced
      · cases sliced
      · rename_i own after second
        obtain rfl := Except.ok.inj sliced
        obtain ⟨rfl, rfl⟩ := splitAtByte_some first
        obtain ⟨rfl, width⟩ := splitAtByte_some second
        exact ⟨before, after, rfl, rfl, by omega⟩

theorem charIndicesFrom_append (offset : Nat) (left right : Str) :
    charIndicesFrom offset (left ++ right) =
      charIndicesFrom offset left ++ charIndicesFrom (offset + len left) right := by
  induction left generalizing offset with
  | nil => simp [charIndicesFrom]
  | cons c left ih => simp [charIndicesFrom, ih, Nat.add_assoc]

end Str

end VocabVeto
