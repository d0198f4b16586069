import Mathlib

/-! Searching a text for many patterns at once, keeping the leftmost match and,
among those starting there, the longest, then resuming after it. `Greedy` says
which lists of hits such a search may return; what callers need from it is that
no occurrence of any pattern escapes being covered. -/
namespace LeftmostLongest

/-- One reported match: which pattern, and the half-open range it fills. -/
structure Hit where
  pattern : Nat
  start : Nat
  stop : Nat
  deriving DecidableEq, Repr

/-- The hit in a text that has this much put before it. -/
def Hit.shift (offset : Nat) (hit : Hit) : Hit := ⟨hit.pattern, hit.start + offset, hit.stop + offset⟩

/-- What a hit says about the text: the pattern it names, wherever that is
listed, and its range. -/
def Hit.reading (patterns : List (List α)) (hit : Hit) : Option (List α) × Nat × Nat :=
  (patterns[hit.pattern]?, hit.start, hit.stop)

/-- The pattern stands in the text at this position. -/
def OccursAt (pattern text : List α) (position : Nat) : Prop := pattern <+: text.drop position

instance [DecidableEq α] (pattern text : List α) (position : Nat) :
    Decidable (OccursAt pattern text position) := inferInstanceAs (Decidable (_ <+: _))

/-- The range of a hit really spells the pattern it names. -/
def Hit.Sound (patterns : List (List α)) (text : List α) (hit : Hit) : Prop :=
  ∃ pattern, patterns[hit.pattern]? = some pattern ∧ OccursAt pattern text hit.start ∧
    hit.stop = hit.start + pattern.length ∧ hit.stop ≤ text.length

/-- From this position on, the text holds exactly these leftmost, longest and
non-overlapping matches, in order. -/
inductive Greedy (patterns : List (List α)) (text : List α) : Nat → List Hit → Prop where
  | done {origin : Nat} (clear : ∀ i pattern, origin ≤ i → pattern ∈ patterns → ¬ OccursAt pattern text i) :
      Greedy patterns text origin []
  | next {origin : Nat} {hit : Hit} {hits : List Hit} {pattern : List α}
      (selected : patterns[hit.pattern]? = some pattern) (after : origin ≤ hit.start)
      (occurs : OccursAt pattern text hit.start) (width : hit.stop = hit.start + pattern.length)
      (leftmost : ∀ i other, origin ≤ i → i < hit.start → other ∈ patterns → ¬ OccursAt other text i)
      (longest : ∀ other ∈ patterns, OccursAt other text hit.start → other.length ≤ pattern.length)
      (rest : Greedy patterns text hit.stop hits) : Greedy patterns text origin (hit :: hits)

theorem occursAt_bound {pattern text : List α} (nonempty : pattern ≠ [])
    (occurs : OccursAt pattern text i) : i + pattern.length ≤ text.length := by
  have fits := occurs.length_le
  have positive := List.length_pos_iff.mpr nonempty
  rw [List.length_drop] at fits
  omega

/-- An occurrence that lies within the middle of a text occurs in that middle. -/
theorem occursAt_inside {pattern before middle after : List α}
    (occurs : OccursAt pattern (before ++ (middle ++ after)) i) (low : before.length ≤ i)
    (high : i + pattern.length ≤ before.length + middle.length) : pattern <:+: middle := by
  rw [OccursAt, List.drop_append, List.drop_eq_nil_of_le low, List.nil_append, List.drop_append] at occurs
  have fits : pattern.length ≤ (middle.drop (i - before.length)).length := by
    rw [List.length_drop]
    omega
  exact (List.prefix_of_prefix_length_le occurs (List.prefix_append _ _) fits).isInfix.trans
    (List.drop_suffix _ _).isInfix

/-- What occurs in a text occurs in every text around it. -/
theorem OccursAt.embed {pattern text : List α} (occurs : OccursAt pattern text i) (front back : List α) :
    OccursAt pattern (front ++ (text ++ back)) (i + front.length) := by
  rw [OccursAt, Nat.add_comm, List.drop_length_add_append]
  exact occurs.trans ((List.prefix_append text back).drop i)

/-- Behind a lead, a pattern occurs exactly where it did. -/
theorem occursAt_behind {pattern text : List α} (lead : List α) :
    OccursAt pattern (lead ++ text) (i + lead.length) ↔ OccursAt pattern text i := by
  rw [OccursAt, OccursAt, Nat.add_comm, List.drop_length_add_append]

/-- Up to a mark it does not contain, a pattern occurs exactly where it does
in the text before the mark. -/
theorem occursAt_before_mark {pattern before after : List α} (absent : mark ∉ pattern)
    (low : i ≤ before.length) :
    OccursAt pattern (before ++ mark :: after) i ↔ OccursAt pattern before i := by
  rw [OccursAt, OccursAt, List.drop_append_of_le_length low]
  refine ⟨fun occurs => ?_, fun occurs => occurs.trans (List.prefix_append _ _)⟩
  by_cases fits : pattern.length ≤ (before.drop i).length
  · exact List.prefix_of_prefix_length_le occurs (List.prefix_append _ _) fits
  · have reaches : before.drop i ++ [mark] <+: pattern := by
      refine List.prefix_of_prefix_length_le ⟨after, by simp⟩ occurs ?_
      rw [List.length_append, List.length_singleton]
      omega
    exact absurd (reaches.subset (by simp)) absent

/-- Positions holding no match can be prepended to the searched range. -/
theorem Greedy.skip (forward : origin ≤ target)
    (clear : ∀ i pattern, origin ≤ i → i < target → pattern ∈ patterns → ¬ OccursAt pattern text i)
    (rest : Greedy patterns text target hits) : Greedy patterns text origin hits := by
  cases rest with
  | done later =>
    apply Greedy.done
    intro i pattern low member
    by_cases high : target ≤ i
    · exact later i pattern high member
    · exact clear i pattern low (by omega) member
  | next selected after occurs width leftmost longest rest =>
    refine .next selected (by omega) occurs width (fun i other low below member => ?_) longest rest
    by_cases high : target ≤ i
    · exact leftmost i other high below member
    · exact clear i other low (by omega) member

/-- Every hit of a greedy search spells the pattern it names. -/
theorem Greedy.sound {patterns : List (List α)} (nonempty : ∀ pattern ∈ patterns, pattern ≠ [])
    (search : Greedy patterns text origin hits) (member : hit ∈ hits) : hit.Sound patterns text := by
  induction search with
  | done => simp at member
  | next selected _ occurs width _ _ _ ih =>
    rcases List.mem_cons.mp member with rfl | member
    · have fits := occursAt_bound (nonempty _ (List.mem_of_getElem? selected)) occurs
      exact ⟨_, selected, occurs, width, by omega⟩
    · exact ih member

/-- The hits of a greedy search lie one after the other, behind its origin. -/
theorem Greedy.disjoint {patterns : List (List α)} (search : Greedy patterns text origin hits) :
    hits.Pairwise (fun first second => first.stop ≤ second.start) ∧ ∀ hit ∈ hits, origin ≤ hit.start := by
  induction search with
  | done => exact ⟨.nil, nofun⟩
  | next _ after _ width _ _ _ ih =>
    refine ⟨List.pairwise_cons.mpr ⟨ih.2, ih.1⟩, fun hit member => ?_⟩
    rcases List.mem_cons.mp member with rfl | member
    · exact after
    · have later := ih.2 hit member
      omega

/-- The covering property: the first position of every occurrence lies inside
some hit, whichever patterns overlap it, and a hit that starts there is no
shorter. -/
theorem Greedy.covers {patterns : List (List α)} (search : Greedy patterns text origin hits)
    (member : pattern ∈ patterns) (occurs : OccursAt pattern text i) (low : origin ≤ i) :
    ∃ hit ∈ hits, hit.start ≤ i ∧ i < hit.stop ∧ (hit.start = i → i + pattern.length ≤ hit.stop) := by
  induction search with
  | done clear => exact absurd occurs (clear i pattern low member)
  | @next origin hit hits _ _ _ _ width leftmost longest _ ih =>
    by_cases before : i < hit.start
    · exact absurd occurs (leftmost i pattern low before member)
    · by_cases inside : i < hit.stop
      · refine ⟨hit, by simp, by omega, inside, fun same => ?_⟩
        have shorter := longest pattern member (same ▸ occurs)
        omega
      · obtain ⟨later, among, covered⟩ := ih (by omega)
        exact ⟨later, List.mem_cons_of_mem _ among, covered⟩

/-- The text and the patterns determine what a greedy search finds. -/
theorem Greedy.unique {patterns : List (List α)} (first : Greedy patterns text origin hits)
    (second : Greedy patterns text origin hits') :
    hits.map (Hit.reading patterns) = hits'.map (Hit.reading patterns) := by
  induction first generalizing hits' with
  | done clear =>
    cases second with
    | done => rfl
    | next selected after occurs => exact absurd occurs (clear _ _ after (List.mem_of_getElem? selected))
  | @next origin hit hits pattern selected after occurs width leftmost longest _ ih =>
    cases second with
    | done clear => exact absurd occurs (clear _ _ after (List.mem_of_getElem? selected))
    | @next _ hit' hits' pattern' selected' after' occurs' width' leftmost' longest' rest' =>
      have listed := List.mem_of_getElem? selected
      have listed' := List.mem_of_getElem? selected'
      have starts : hit.start = hit'.start := by
        rcases Nat.lt_trichotomy hit.start hit'.start with before | same | behind
        · exact absurd occurs (leftmost' _ _ after before listed)
        · exact same
        · exact absurd occurs' (leftmost _ _ after' behind listed')
      rw [← starts] at occurs' longest' width'
      obtain rfl : pattern = pattern' := by
        have shorter := longest' pattern listed occurs
        exact (List.prefix_of_prefix_length_le occurs occurs' shorter).eq_of_length_le
          (longest pattern' listed' occurs')
      have stops : hit.stop = hit'.stop := width.trans width'.symm
      rw [← stops] at rest'
      simp only [List.map_cons, ih rest', Hit.reading, selected, selected', starts, stops]

/-- Hits that read the same over encoded patterns read the same over the patterns. -/
theorem readings_decode {encode : List α → List β} (injective : Function.Injective encode)
    {patterns : List (List α)} {hits hits' : List Hit} (same : hits.map (Hit.reading (patterns.map encode)) =
      hits'.map (Hit.reading (patterns.map encode))) :
    hits.map (Hit.reading patterns) = hits'.map (Hit.reading patterns) := by
  have encoded : Hit.reading (patterns.map encode) = Prod.map (Option.map encode) id ∘ Hit.reading patterns := by
    funext hit
    simp [Hit.reading]
  rw [encoded, ← List.map_map, ← List.map_map] at same
  exact List.map_injective_iff.mpr ((Option.map_injective injective).prodMap Function.injective_id) same

/-- Behind a lead, a search finds the same hits shifted. -/
theorem Greedy.behind {patterns : List (List α)} (search : Greedy patterns text origin hits) (lead : List α) :
    Greedy patterns (lead ++ text) (origin + lead.length) (hits.map (Hit.shift lead.length)) := by
  induction search with
  | done clear =>
    apply Greedy.done
    intro i pattern low member occurs
    obtain ⟨j, rfl⟩ : ∃ j, i = j + lead.length := ⟨i - lead.length, by omega⟩
    exact clear j pattern (by omega) member ((occursAt_behind lead).mp occurs)
  | @next _ hit _ _ selected after occurs width leftmost longest _ ih =>
    refine .next selected (Nat.add_le_add_right after _) ((occursAt_behind lead).mpr occurs) ?_
      (fun i other low below member occurs => ?_)
      (fun other member occurs => longest other member ((occursAt_behind lead).mp occurs)) ih
    · simp only [Hit.shift, width]
      omega
    · obtain ⟨j, rfl⟩ : ∃ j, i = j + lead.length := ⟨i - lead.length, by omega⟩
      exact leftmost j other (by omega) (Nat.lt_of_add_lt_add_right below) member
        ((occursAt_behind lead).mp occurs)

/-- Up to a mark that no pattern contains, a search finds what it finds in the
text before the mark. -/
theorem Greedy.resume {patterns : List (List α)} (nonempty : ∀ pattern ∈ patterns, pattern ≠ [])
    (absent : ∀ pattern ∈ patterns, mark ∉ pattern) (left : Greedy patterns before origin hits)
    (inside : origin ≤ before.length)
    (right : Greedy patterns (before ++ mark :: after) (before.length + 1) hits') :
    Greedy patterns (before ++ mark :: after) origin (hits ++ hits') := by
  induction left with
  | done clear =>
    refine right.skip (by omega) fun i pattern low high member occurs => ?_
    exact clear i pattern low member ((occursAt_before_mark (absent pattern member) (by omega)).mp occurs)
  | next selected behind occurs width leftmost longest _ ih =>
    have listed := List.mem_of_getElem? selected
    have fits := occursAt_bound (nonempty _ listed) occurs
    refine .next selected behind ((occursAt_before_mark (absent _ listed) (by omega)).mpr occurs) width
      (fun i other low below member occurs => ?_) (fun other member occurs => ?_) (ih (by omega))
    · exact leftmost i other low below member
        ((occursAt_before_mark (absent other member) (by omega)).mp occurs)
    · exact longest other member ((occursAt_before_mark (absent other member) (by omega)).mp occurs)

/-- A search resynchronizes at a mark that no pattern contains: it finds what it
finds on either side. -/
theorem Greedy.join {patterns : List (List α)} (nonempty : ∀ pattern ∈ patterns, pattern ≠ [])
    (absent : ∀ pattern ∈ patterns, mark ∉ pattern) (left : Greedy patterns before 0 hits)
    (right : Greedy patterns after 0 hits') :
    Greedy patterns (before ++ mark :: after) 0 (hits ++ hits'.map (Hit.shift (before.length + 1))) := by
  have later := right.behind (before ++ [mark])
  rw [List.length_append, List.length_singleton, Nat.zero_add, List.append_assoc] at later
  exact left.resume nonempty absent (Nat.zero_le _) later

/-! ### An executable search -/

/-- The longest pattern the text begins with, the earliest listed on a tie, as
its index and length. -/
def longestAt [DecidableEq α] (text : List α) : Nat → List (List α) → Option (Nat × Nat)
  | _, [] => none
  | index, pattern :: patterns =>
    match longestAt text (index + 1) patterns with
    | none => if pattern.isPrefixOf text then some (index, pattern.length) else none
    | some best =>
      if pattern.isPrefixOf text ∧ best.2 ≤ pattern.length then some (index, pattern.length)
      else some best

/-- Walk the text once, passing over the bytes of a match already reported. -/
def sweep [DecidableEq α] (patterns : List (List α)) : Nat → Nat → List α → List Hit
  | _, _, [] => []
  | position, passing + 1, _ :: text => sweep patterns (position + 1) passing text
  | position, 0, symbol :: text =>
    match longestAt (symbol :: text) 0 patterns with
    | none => sweep patterns (position + 1) 0 text
    | some (index, length) =>
      ⟨index, position, position + length⟩ :: sweep patterns (position + 1) (length - 1) text

/-- All leftmost-longest hits of a text. -/
def search [DecidableEq α] (patterns : List (List α)) (text : List α) : List Hit :=
  sweep patterns 0 0 text

private theorem longestAt_none [DecidableEq α] {text : List α} {patterns : List (List α)}
    (missing : longestAt text index patterns = none) : ∀ pattern ∈ patterns, ¬ pattern <+: text := by
  induction patterns generalizing index with
  | nil => simp
  | cons head patterns ih =>
    simp only [longestAt] at missing
    split at missing
    · rename_i none
      split at missing
      · cases missing
      · rename_i absent
        rw [List.isPrefixOf_iff_prefix] at absent
        simpa [absent] using ih none
    · split at missing <;> cases missing

private theorem longestAt_some [DecidableEq α] {text : List α} {patterns : List (List α)}
    (found : longestAt text index patterns = some (position, length)) :
    ∃ pattern, index ≤ position ∧ patterns[position - index]? = some pattern ∧ pattern <+: text ∧
      length = pattern.length ∧ ∀ other ∈ patterns, other <+: text → other.length ≤ pattern.length := by
  induction patterns generalizing index position length with
  | nil => simp [longestAt] at found
  | cons head patterns ih =>
    simp only [longestAt] at found
    split at found
    · rename_i none
      split at found
      · rename_i leads
        cases found
        rw [List.isPrefixOf_iff_prefix] at leads
        refine ⟨head, Nat.le_refl _, by simp, leads, rfl, fun other member other_leads => ?_⟩
        rcases List.mem_cons.mp member with rfl | member
        · exact Nat.le_refl _
        · exact absurd other_leads (longestAt_none none other member)
      · rename_i absent
        cases found
    · rename_i best among
      obtain ⟨champion, above, selected, leads, width, longest⟩ := @ih (index + 1) best.1 best.2 among
      split at found
      · rename_i better
        cases found
        rw [List.isPrefixOf_iff_prefix] at better
        refine ⟨head, Nat.le_refl _, by simp, better.1, rfl, fun other member other_leads => ?_⟩
        rcases List.mem_cons.mp member with rfl | member
        · exact Nat.le_refl _
        · exact (longest other member other_leads).trans (width ▸ better.2)
      · rename_i worse
        cases found
        rw [List.isPrefixOf_iff_prefix] at worse
        refine ⟨champion, by omega, ?_, leads, width, fun other member other_leads => ?_⟩
        · rw [show position - index = (position - (index + 1)) + 1 by omega]
          simpa using selected
        · rcases List.mem_cons.mp member with rfl | member
          · simp only [other_leads, true_and] at worse
            omega
          · exact longest other member other_leads

private theorem sweep_greedy [DecidableEq α] {patterns : List (List α)} {text rest : List α}
    (nonempty : ∀ pattern ∈ patterns, pattern ≠ []) (position passing : Nat)
    (remaining : text.drop position = rest) (fits : passing ≤ rest.length) :
    Greedy patterns text (position + passing) (sweep patterns position passing rest) := by
  induction rest generalizing position passing with
  | nil =>
    apply Greedy.done
    intro i pattern low member occurs
    have bound := occursAt_bound (nonempty pattern member) occurs
    have positive := List.length_pos_iff.mpr (nonempty pattern member)
    have ended := congrArg List.length remaining
    simp only [List.length_drop, List.length_nil] at ended
    omega
  | cons symbol rest ih =>
    have tail : text.drop (position + 1) = rest := by
      rw [← List.drop_drop, remaining, List.drop_one, List.tail_cons]
    cases passing with
    | succ passing =>
      simp only [List.length_cons] at fits
      simpa only [sweep, Nat.add_right_comm, Nat.add_assoc] using ih (position + 1) passing tail (by omega)
    | zero =>
      simp only [sweep, Nat.add_zero]
      split
      · rename_i missing
        refine Greedy.skip (Nat.le_succ position) ?_ (ih (position + 1) 0 tail (by omega))
        intro i pattern low high member occurs
        obtain rfl : i = position := by omega
        rw [OccursAt, remaining] at occurs
        exact longestAt_none missing pattern member occurs
      · rename_i index length found
        obtain ⟨pattern, _, selected, leads, width, longest⟩ := longestAt_some found
        have positive := List.length_pos_iff.mpr (nonempty pattern (List.mem_of_getElem? selected))
        have bound := leads.length_le
        simp only [List.length_cons] at bound
        refine .next selected (Nat.le_refl _) (by rwa [OccursAt, remaining])
          (by simp [width]) (fun i other low below => absurd below (Nat.not_lt.mpr low)) (fun other member occurs => ?_) ?_
        · rw [OccursAt, remaining] at occurs
          exact longest other member occurs
        · have later := ih (position + 1) (length - 1) tail (by omega)
          rwa [show position + 1 + (length - 1) = position + length by omega] at later

private theorem sweep_sound [DecidableEq α] {patterns : List (List α)} {text rest : List α}
    (position passing : Nat) (remaining : text.drop position = rest)
    (member : hit ∈ sweep patterns position passing rest) : hit.Sound patterns text := by
  induction rest generalizing position passing with
  | nil => simp [sweep] at member
  | cons symbol rest ih =>
    have tail : text.drop (position + 1) = rest := by
      rw [← List.drop_drop, remaining, List.drop_one, List.tail_cons]
    cases passing with
    | succ passing => exact ih (position + 1) passing tail member
    | zero =>
      simp only [sweep] at member
      split at member
      · exact ih (position + 1) 0 tail member
      · rename_i index length found
        rcases List.mem_cons.mp member with rfl | member
        · obtain ⟨pattern, _, selected, leads, rfl, _⟩ := longestAt_some found
          have fits := leads.length_le
          rw [← remaining, List.length_drop] at fits
          have inside : position < text.length := by
            by_contra outside
            rw [List.drop_eq_nil_of_le (Nat.le_of_not_lt outside)] at remaining
            cases remaining
          exact ⟨pattern, selected, by rwa [OccursAt, remaining], rfl, by dsimp only; omega⟩
        · exact ih (position + 1) (length - 1) tail member

/-- Whatever the patterns, the executable search reports only occurrences. -/
theorem search_sound [DecidableEq α] {patterns : List (List α)} {text : List α}
    (member : hit ∈ search patterns text) : hit.Sound patterns text := sweep_sound 0 0 rfl member

/-- The executable search is leftmost, longest and non-overlapping. -/
theorem search_greedy [DecidableEq α] {patterns : List (List α)} (text : List α)
    (nonempty : ∀ pattern ∈ patterns, pattern ≠ []) : Greedy patterns text 0 (search patterns text) :=
  sweep_greedy nonempty 0 0 rfl (Nat.zero_le _)

end LeftmostLongest
