import Mathlib

/-! A text whose symbols are each replaced by a run of output, together with a
map from every output position back to the place of the symbol that produced
it. Ranges of the output are widened to whole symbols through that map. -/
namespace Expansion

section
variable {α : Type u} {β : Type v} {expand : α → List β} {width : α → Nat}

/-- The extent of a text whose symbols have these widths. -/
def extent (width : α → Nat) (text : List α) : Nat := (text.map width).sum

@[simp] theorem extent_nil : extent width [] = 0 := rfl

@[simp] theorem extent_cons (x : α) (text : List α) :
    extent width (x :: text) = width x + extent width text := by simp [extent]

@[simp] theorem extent_append (left right : List α) :
    extent width (left ++ right) = extent width left + extent width right := by simp [extent]

/-- For every output position, where the symbol that produced it begins. -/
def origins (width : α → Nat) (expand : α → List β) : Nat → List α → List Nat
  | _, [] => []
  | base, x :: text =>
    List.replicate (expand x).length base ++ origins width expand (base + width x) text

@[simp] theorem length_origins (base : Nat) (text : List α) :
    (origins width expand base text).length = (text.flatMap expand).length := by
  induction text generalizing base with
  | nil => rfl
  | cons x text ih => simp [origins, ih]

theorem origins_append (base : Nat) (left right : List α) :
    origins width expand base (left ++ right) =
      origins width expand base left ++ origins width expand (base + extent width left) right := by
  induction left generalizing base with
  | nil => simp [origins]
  | cons x left ih => simp [origins, ih, Nat.add_assoc]

/-- The output position belongs to the run of the symbol that follows this
prefix of the text. -/
def Within (expand : α → List β) (before : List α) (x : α) (position : Nat) : Prop :=
  (before.flatMap expand).length ≤ position ∧
    position < (before.flatMap expand).length + (expand x).length

/-- Every output position was produced by some symbol. -/
theorem within_exists {text : List α} (bound : position < (text.flatMap expand).length) :
    ∃ before x after, text = before ++ x :: after ∧ Within expand before x position := by
  induction text generalizing position with
  | nil => simp at bound
  | cons x text ih =>
    by_cases first : position < (expand x).length
    · exact ⟨[], x, text, rfl, by simp [Within, first]⟩
    · simp only [List.flatMap_cons, List.length_append] at bound
      obtain ⟨before, y, after, rfl, low, high⟩ := ih (show position - (expand x).length < _ by omega)
      refine ⟨x :: before, y, after, rfl, ?_⟩
      simp only [Within, List.flatMap_cons, List.length_append]
      omega

/-- The map sends a position to the start of the symbol it belongs to. -/
theorem origins_getElem {text : List α} (split : text = before ++ x :: after)
    (within : Within expand before x position) :
    (origins width expand base text)[position]? = some (base + extent width before) := by
  subst split
  obtain ⟨low, high⟩ := within
  rw [origins_append, List.getElem?_append_right (by simpa using low), length_origins, origins,
    List.getElem?_append_left (by rw [List.length_replicate]; omega), List.getElem?_replicate,
    if_pos (by omega)]

/-- No output position comes from before the base. -/
theorem base_le_origins (base : Nat) (text : List α) : ∀ origin ∈ origins width expand base text, base ≤ origin := by
  induction text generalizing base with
  | nil => simp [origins]
  | cons x text ih =>
    intro origin member
    rw [origins, List.mem_append, List.mem_replicate] at member
    obtain ⟨_, rfl⟩ | later := member
    · exact Nat.le_refl _
    · have := ih _ origin later
      omega

/-- The map never goes back. -/
theorem origins_sorted (base : Nat) (text : List α) : (origins width expand base text).Pairwise (· ≤ ·) := by
  induction text generalizing base with
  | nil => exact .nil
  | cons x text ih =>
    rw [origins, List.pairwise_append]
    refine ⟨List.pairwise_replicate.mpr (.inr (Nat.le_refl _)), ih _, ?_⟩
    intro first here second later
    obtain rfl := List.eq_of_mem_replicate here
    have := base_le_origins _ _ second later
    omega

/-- Two ways of singling out a symbol of one text name the same symbol, or one
of them lies wholly before the other. -/
theorem split_cases {before before' after after' : List α} {x x' : α}
    (same : before ++ x :: after = before' ++ x' :: after') :
    (before = before' ∧ x = x' ∧ after = after') ∨
      (∃ between, before' = before ++ x :: between ∧ after = between ++ x' :: after') ∨
      (∃ between, before = before' ++ x' :: between ∧ after' = between ++ x :: after) := by
  rcases List.append_eq_append_iff.mp same with ⟨gap, left, right⟩ | ⟨gap, left, right⟩
  · cases gap with
    | nil =>
      obtain ⟨rfl, rfl⟩ := List.cons.inj right
      exact .inl ⟨by simpa using left.symm, rfl, rfl⟩
    | cons y gap =>
      obtain ⟨rfl, rfl⟩ := List.cons.inj right
      exact .inr (.inl ⟨gap, left, rfl⟩)
  · cases gap with
    | nil =>
      obtain ⟨rfl, rfl⟩ := List.cons.inj right
      exact .inl ⟨by simpa using left, rfl, rfl⟩
    | cons y gap =>
      obtain ⟨rfl, rfl⟩ := List.cons.inj right
      exact .inr (.inr ⟨gap, left, rfl⟩)

/-- The positions that map to the start of a symbol are exactly its run. -/
theorem origins_block {text : List α} (solid : ∀ x, 0 < width x) (split : text = before ++ x :: after) :
    (origins width expand base text)[i]? = some (base + extent width before) ↔ Within expand before x i := by
  constructor
  · intro recorded
    have bound := (List.getElem?_eq_some_iff.mp recorded).1
    rw [length_origins] at bound
    obtain ⟨before', x', after', split', within⟩ := within_exists bound
    rw [origins_getElem split' within, Option.some.injEq] at recorded
    obtain ⟨rfl, rfl, _⟩ | ⟨between, rfl, _⟩ | ⟨between, rfl, _⟩ := split_cases (split.symm.trans split')
    · exact within
    · have positive := solid x
      simp only [extent_append, extent_cons] at recorded
      omega
    · have positive := solid x'
      simp only [extent_append, extent_cons] at recorded
      omega
  · exact origins_getElem split

/-- A later output position belongs to the same symbol or to a later one. -/
theorem within_mono {before before' after after' : List α} {x x' : α}
    (same : before ++ x :: after = before' ++ x' :: after')
    (first : Within expand before x i) (second : Within expand before' x' j) (le : i ≤ j) :
    before <+: before' ∧ before ++ [x] <+: before' ++ [x'] := by
  rcases split_cases same with ⟨rfl, rfl, _⟩ | ⟨between, rfl, _⟩ | ⟨between, rfl, _⟩
  · exact ⟨List.prefix_refl _, List.prefix_refl _⟩
  · exact ⟨List.prefix_append _ _, ⟨between ++ [x'], by simp⟩⟩
  · exfalso
    obtain ⟨low, _⟩ := first
    have high := second.2
    simp only [List.flatMap_append, List.flatMap_cons, List.length_append] at low
    omega

/-- When no symbol vanishes, neighbouring output positions belong to the same
symbol or to neighbouring ones. -/
theorem within_next {before before' after after' : List α} {x x' : α} (filled : ∀ x, expand x ≠ [])
    (same : before ++ x :: after = before' ++ x' :: after')
    (first : Within expand before x i) (second : Within expand before' x' (i + 1)) :
    before = before' ∧ x = x' ∨ before' = before ++ [x] := by
  obtain ⟨low, high⟩ := first
  obtain ⟨low', high'⟩ := second
  rcases split_cases same with ⟨rfl, rfl, _⟩ | ⟨between, rfl, _⟩ | ⟨between, rfl, _⟩
  · exact .inl ⟨rfl, rfl⟩
  · cases between with
    | nil => exact .inr rfl
    | cons y between =>
      have positive := List.length_pos_iff.mpr (filled y)
      simp only [List.flatMap_append, List.flatMap_cons, List.length_append] at low'
      omega
  · simp only [List.flatMap_append, List.flatMap_cons, List.length_append] at low
    omega

theorem extent_mono {before before' : List α} (leads : before <+: before') :
    extent width before ≤ extent width before' := by
  obtain ⟨rest, rfl⟩ := leads
  simp

/-! ### Widening a range of the output -/

/-- Some output position of the range was produced by this symbol. -/
def Touched (expand : α → List β) (start stop : Nat) (before : List α) (x : α) : Prop :=
  ∃ position, start ≤ position ∧ position < stop ∧ Within expand before x position

/-- The whole-symbol range of a nonempty range of the output: it runs from the
start of the symbol holding its first position to the end of the symbol holding
its last one. -/
structure Widened (width : α → Nat) (expand : α → List β) (text : List α) (start stop : Nat)
    (low high : Nat) : Prop where
  first : ∃ before x after, text = before ++ x :: after ∧ Within expand before x start ∧
    low = extent width before
  last : ∃ before x after, text = before ++ x :: after ∧ Within expand before x (stop - 1) ∧
    high = extent width before + width x
  nonempty : start < stop

theorem widened_exists {text : List α} (nonempty : start < stop)
    (bound : stop ≤ (text.flatMap expand).length) :
    ∃ low high, Widened width expand text start stop low high := by
  obtain ⟨before, x, after, split, within⟩ :=
    within_exists (show start < (text.flatMap expand).length by omega)
  obtain ⟨before', x', after', split', within'⟩ :=
    within_exists (show stop - 1 < (text.flatMap expand).length by omega)
  exact ⟨_, _, ⟨before, x, after, split, within, rfl⟩, ⟨before', x', after', split', within', rfl⟩, nonempty⟩

variable {text : List α} {start stop low high : Nat}

/-- Inside a larger text the widened range is the same one, moved. -/
theorem Widened.embed (range : Widened width expand text start stop low high) (front back : List α) :
    Widened width expand (front ++ (text ++ back)) (start + (front.flatMap expand).length)
      (stop + (front.flatMap expand).length) (low + extent width front) (high + extent width front) := by
  have moved : ∀ {before x i}, Within expand before x i →
      Within expand (front ++ before) x (i + (front.flatMap expand).length) := by
    rintro before x i ⟨above, below⟩
    simp only [Within, List.flatMap_append, List.length_append]
    omega
  have ordered := range.nonempty
  refine ⟨?_, ?_, Nat.add_lt_add_right ordered _⟩
  · obtain ⟨before, x, after, rfl, within, rfl⟩ := range.first
    exact ⟨front ++ before, x, after ++ back, by simp, moved within, by simp [Nat.add_comm]⟩
  · obtain ⟨before, x, after, rfl, within, rfl⟩ := range.last
    refine ⟨front ++ before, x, after ++ back, by simp, ?_, by simp [Nat.add_comm, Nat.add_left_comm]⟩
    rw [show stop + (front.flatMap expand).length - 1 = stop - 1 + (front.flatMap expand).length by omega]
    exact moved within

/-- Every touched symbol lies inside the widened range. -/
theorem Widened.contains (range : Widened width expand text start stop low high)
    (split : text = before ++ x :: after) (touched : Touched expand start stop before x) :
    low ≤ extent width before ∧ extent width before + width x ≤ high := by
  obtain ⟨first, y, behind, splitFirst, withinFirst, rfl⟩ := range.first
  obtain ⟨last, z, rest, splitLast, withinLast, rfl⟩ := range.last
  obtain ⟨position, above, below, within⟩ := touched
  refine ⟨extent_mono (within_mono (splitFirst.symm.trans split) withinFirst within above).1, ?_⟩
  have later : extent width (before ++ [x]) ≤ extent width (last ++ [z]) :=
    extent_mono (within_mono (split.symm.trans splitLast) within withinLast (by omega)).2
  simpa using later

/-- Every symbol inside the widened range that did not vanish is touched. -/
theorem Widened.touches (range : Widened width expand text start stop low high) (solid : ∀ x, 0 < width x)
    (filled : expand x ≠ []) (split : text = before ++ x :: after) (above : low ≤ extent width before)
    (below : extent width before + width x ≤ high) : Touched expand start stop before x := by
  obtain ⟨first, y, behind, splitFirst, withinFirst, rfl⟩ := range.first
  obtain ⟨last, z, rest, splitLast, withinLast, rfl⟩ := range.last
  have ordered := range.nonempty
  have positive := solid x
  obtain ⟨rfl, rfl, _⟩ | ⟨between, rfl, _⟩ | ⟨between, rfl, _⟩ := split_cases (splitFirst.symm.trans split)
  · exact ⟨start, Nat.le_refl _, ordered, withinFirst⟩
  · obtain ⟨same, rfl, _⟩ | ⟨gap, spelled, _⟩ | ⟨gap, spelled, _⟩ := split_cases (splitLast.symm.trans split)
    · exact ⟨stop - 1, by omega, by omega, same ▸ withinLast⟩
    · rw [spelled] at below
      simp only [extent_append, extent_cons] at below
      omega
    · have begun := withinFirst.2
      have ends := withinLast.1
      have run := List.length_pos_iff.mpr filled
      rw [spelled] at ends
      simp only [List.flatMap_append, List.flatMap_cons, List.length_append] at ends
      refine ⟨_, ?_, ?_, Nat.le_refl _, Nat.lt_add_of_pos_right run⟩
      · simp only [List.flatMap_append, List.flatMap_cons, List.length_append]
        omega
      · simp only [List.flatMap_append, List.flatMap_cons, List.length_append]
        omega
  · simp only [extent_append, extent_cons] at above
    omega

/-- The widened range begins with a touched symbol. -/
theorem Widened.low_touched (range : Widened width expand text start stop low high) :
    ∃ before x after, text = before ++ x :: after ∧ Touched expand start stop before x ∧
      low = extent width before := by
  obtain ⟨before, x, after, split, within, rfl⟩ := range.first
  exact ⟨before, x, after, split, ⟨start, Nat.le_refl _, range.nonempty, within⟩, rfl⟩

/-- The widened range ends with a touched symbol. -/
theorem Widened.high_touched (range : Widened width expand text start stop low high) :
    ∃ before x after, text = before ++ x :: after ∧ Touched expand start stop before x ∧
      high = extent width before + width x := by
  obtain ⟨before, x, after, split, within, rfl⟩ := range.last
  have := range.nonempty
  exact ⟨before, x, after, split, ⟨stop - 1, by omega, by omega, within⟩, rfl⟩

/-- Disjoint ranges widen to ranges in the same order, which are disjoint too
unless both touch one symbol: the last of the first range and the first of the
second. -/
theorem Widened.follows (range : Widened width expand text start stop low high)
    (next : Widened width expand text start' stop' low' high') (apart : stop ≤ start') :
    low ≤ low' ∧ high ≤ high' ∧ (high ≤ low' ∨ ∃ before x after, text = before ++ x :: after ∧
      Within expand before x (stop - 1) ∧ Within expand before x start' ∧
      low' = extent width before ∧ high = extent width before + width x) := by
  obtain ⟨first, x, _, splitFirst, withinFirst, rfl⟩ := range.first
  obtain ⟨last, y, after, splitLast, withinLast, rfl⟩ := range.last
  obtain ⟨first', x', _, splitFirst', withinFirst', rfl⟩ := next.first
  obtain ⟨last', y', _, splitLast', withinLast', rfl⟩ := next.last
  have filled := range.nonempty
  have filled' := next.nonempty
  have ends : extent width (last ++ [y]) ≤ extent width (last' ++ [y']) :=
    extent_mono (within_mono (splitLast.symm.trans splitLast') withinLast withinLast' (by omega)).2
  refine ⟨extent_mono (within_mono (splitFirst.symm.trans splitFirst') withinFirst withinFirst' (by omega)).1,
    by simpa using ends, ?_⟩
  obtain ⟨rfl, rfl, rfl⟩ | ⟨between, rfl, _⟩ | ⟨between, rfl, _⟩ := split_cases (splitLast.symm.trans splitFirst')
  · exact .inr ⟨last, y, after, splitLast, withinLast, withinFirst', rfl, rfl⟩
  · left
    simp only [extent_append, extent_cons]
    omega
  · exfalso
    obtain ⟨low, _⟩ := withinLast
    have high := withinFirst'.2
    simp only [List.flatMap_append, List.flatMap_cons, List.length_append] at low
    omega

/-- The widened range cuts the text at symbol boundaries, and the runs of the
symbols it keeps contain the whole range of the output. -/
theorem Widened.cut (range : Widened width expand text start stop low high) :
    ∃ before middle after, text = before ++ (middle ++ after) ∧ middle ≠ [] ∧
      low = extent width before ∧ high = extent width before + extent width middle ∧
      (before.flatMap expand).length ≤ start ∧
      stop ≤ (before.flatMap expand).length + (middle.flatMap expand).length := by
  obtain ⟨before, x, behind, splitFirst, withinFirst, rfl⟩ := range.first
  obtain ⟨last, y, after, splitLast, withinLast, rfl⟩ := range.last
  have ordered := range.nonempty
  obtain ⟨gap, rfl⟩ := (within_mono (splitFirst.symm.trans splitLast) withinFirst withinLast (by omega)).1
  have ending := withinLast.2
  simp only [List.flatMap_append, List.length_append] at ending
  refine ⟨before, gap ++ [y], after, by simp [splitLast], by simp, rfl, by simp [Nat.add_assoc],
    withinFirst.1, ?_⟩
  simp only [List.flatMap_append, List.flatMap_singleton, List.length_append]
  omega

/-- The output of a whole stretch of text widens to exactly that stretch. -/
theorem widened_of_cut (before middle after : List α) (nonempty : middle ≠ [])
    (filled : ∀ x ∈ middle, expand x ≠ []) :
    Widened width expand (before ++ (middle ++ after)) (before.flatMap expand).length
      ((before.flatMap expand).length + (middle.flatMap expand).length)
      (extent width before) (extent width before + extent width middle) := by
  obtain ⟨x, rest, first⟩ := List.exists_cons_of_ne_nil nonempty
  obtain ⟨front, y, last⟩ := (List.eq_nil_or_concat' middle).resolve_left nonempty
  have positive := List.length_pos_iff.mpr (filled x (by simp [first]))
  have positive' := List.length_pos_iff.mpr (filled y (by simp [last]))
  refine ⟨⟨before, x, rest ++ after, by simp [first], ⟨Nat.le_refl _, by omega⟩, rfl⟩,
    ⟨before ++ front, y, after, by simp [last], ?_, by simp [last, Nat.add_assoc]⟩, ?_⟩
  · simp only [Within, last, List.flatMap_append, List.flatMap_singleton, List.length_append]
    omega
  · simp only [first, List.flatMap_cons, List.length_append]
    omega

/-! ### Symbols that expand to themselves -/

/-- A pattern without a separator lies on one side of it. -/
theorem infix_beside {pattern left right : List β} (absent : mark ∉ pattern)
    (found : pattern <:+: left ++ mark :: right) : pattern <:+: left ∨ pattern <:+: right := by
  have starts : ∀ part, part <+: mark :: right → mark ∉ part → part = [] := by
    rintro part ⟨rest, spelled⟩ missing
    cases part with
    | nil => rfl
    | cons first part =>
      obtain ⟨rfl, _⟩ := List.cons.inj spelled
      simp at missing
  rcases List.infix_append_iff_ne_nil.mp found with inLeft | inRight | ⟨front, back, _, filled, rfl, _, leads⟩
  · exact .inl inLeft
  · rcases List.infix_cons_iff.mp inRight with leads | inside
    · rw [starts pattern leads absent]
      exact .inl (List.nil_infix)
    · exact .inr inside
  · exact absurd (starts back leads fun among => absent (by simp [among])) filled

/-- A pattern that avoids the expansion of some symbol is found in the
expansion of a stretch of text without that symbol. -/
theorem infix_flatMap_avoids {x : α} {pattern : List β} (fixed : expand x = [mark])
    (absent : mark ∉ pattern) (text : List α) (found : pattern <:+: text.flatMap expand) :
    ∃ before middle after, text = before ++ (middle ++ after) ∧ x ∉ middle ∧
      pattern <:+: middle.flatMap expand := by
  by_cases member : x ∈ text
  · obtain ⟨front, back, rfl, missing⟩ := List.eq_append_cons_of_mem member
    rw [List.flatMap_append, List.flatMap_cons, fixed, List.singleton_append] at found
    rcases infix_beside absent found with inFront | inBack
    · exact ⟨[], front, x :: back, rfl, missing, inFront⟩
    · obtain ⟨before, middle, after, rfl, clean, within⟩ := infix_flatMap_avoids fixed absent back inBack
      exact ⟨front ++ x :: before, middle, after, by simp, clean, within⟩
  · exact ⟨[], text, [], by simp, member, found⟩
termination_by text.length
decreasing_by simp_all; omega

end

end Expansion
