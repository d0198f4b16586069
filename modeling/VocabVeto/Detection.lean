import VocabVeto.AsciiCrates
import VocabVeto.SpanProofs

/-! What a scan cannot miss. Some hit covers the first byte of every occurrence,
so whatever keeps a term from being reported is visible in the inputs: the
pattern is not spelled the way text is folded, or strict mode drops the hit that
was chosen over it. -/
namespace VocabVeto.Detection
open Expansion LeftmostLongest NormalizeProofs SpanProofs

section
variable {crates : Crates} {engine : Engine} {lang : Lang} {patterns : List Str} {text : Str}

/-- The leftmost-longest hit over the first byte of an occurrence is placed, and
its span holds the codepoint that byte comes from. -/
theorem covering_hit (leftmost : crates.FindsLeftmostLongest) (nonempty : engine.TermsNonempty)
    (loaded : engine.terms lang = some patterns) (member : term ∈ patterns)
    (occurs : OccursAt (Utf8.bytes term) (Utf8.bytes (crates.foldText text)) i)
    (split : text = before ++ ch :: after) (within : Within (contribution crates) before ch i) :
    ∃ hit ∈ hitsOf crates text patterns, hit.start ≤ i ∧ i < hit.stop ∧
      (hit.start = i → i + Str.len term ≤ hit.stop) ∧
      ∃ own left middle right, Placed crates text patterns hit own left middle right ∧
        Str.len left ≤ Str.len before ∧ Str.len before + ch.utf8Size ≤ Str.len left + Str.len middle := by
  have filled := encoded_nonempty (nonempty lang patterns loaded)
  have search := leftmost _ (Utf8.bytes (crates.foldText text)) filled
  obtain ⟨hit, among, low, high, longer⟩ :=
    search.covers (List.mem_map_of_mem member) occurs (Nat.zero_le i)
  rw [Utf8.length_bytes] at longer
  obtain ⟨own, left, middle, right, placed⟩ :=
    placed_exists (nonempty lang patterns loaded) (search.sound filled among)
  obtain ⟨lower, upper⟩ := placed.range.contains split ⟨i, low, high, within⟩
  exact ⟨hit, among, low, high, longer, own, left, middle, right, placed, lower, upper⟩

/-- A term spelled by a stretch of folded text occurs at a byte of that stretch. -/
theorem occurrence_in_middle (nonempty : term ≠ []) (before after : Str)
    (spelled : term <:+: crates.foldText middle) :
    ∃ left ch right i, middle = left ++ ch :: right ∧
      OccursAt (Utf8.bytes term) (Utf8.bytes (crates.foldText (before ++ (middle ++ after)))) i ∧
      Within (contribution crates) (before ++ left) ch i := by
  obtain ⟨front, back, spelling⟩ := spelled
  have filled := Str.len_pos nonempty
  have bound : Str.len front < Str.len (crates.foldText middle) := by
    simp only [← spelling, Str.len_append]
    omega
  obtain ⟨left, ch, right, split, low, high⟩ := owner_exists bound
  refine ⟨left, ch, right, Str.len (crates.foldText before) + Str.len front, split, ?_, ?_⟩
  · have sized : (Utf8.bytes (crates.foldText before ++ front)).length =
        Str.len (crates.foldText before) + Str.len front := by
      rw [Utf8.length_bytes]
      exact Str.len_append _ _
    have cut : crates.foldText (before ++ (middle ++ after)) =
        (crates.foldText before ++ front) ++ (term ++ (back ++ crates.foldText after)) := by
      simp only [Crates.foldText_append, ← spelling, List.append_assoc]
    rw [OccursAt, cut, Utf8.bytes_append, ← sized, List.drop_left, Utf8.bytes_append]
    exact List.prefix_append _ _
  · rw [Within, List.flatMap_append, List.length_append, length_flatMap_contribution]
    omega

end

/-! ### Loaded terms -/

/-- Every untruncated substring scan of every text around this term reports a
match that touches it. -/
def Detectable (crates : Crates) (engine : Engine) (lang : Lang) (w : Str) : Prop :=
  ∀ a b norm result, normalize crates (a ++ (w ++ b)) = .ok norm →
    engine.scan crates (a ++ (w ++ b)) [lang] (some .substring) = .ok (.ok result) →
    result.truncated = false →
    ∃ m ∈ result.found, m.start < Str.len a + Str.len w ∧ Str.len a < m.stop

section
variable {crates : Crates} {engine : Engine} {lang : Lang} {patterns : List Str} {w : Str}

private theorem detectable_of_spelled (folds : crates.FoldsNonempty)
    (leftmost : crates.FindsLeftmostLongest) (nonempty : engine.TermsNonempty)
    (loaded : engine.terms lang = some patterns) (member : v ∈ patterns)
    (spelled : v <:+: crates.foldText w) : Detectable crates engine lang w := by
  intro a b norm result _ ran whole
  obtain ⟨left, ch, right, i, split, occurs, within⟩ :=
    occurrence_in_middle (nonempty lang patterns loaded v member) a b spelled
  obtain ⟨hit, among, _, _, _, own, before, middle, after, placed, low, high⟩ :=
    covering_hit leftmost nonempty loaded member occurs
      (show a ++ (w ++ b) = (a ++ left) ++ ch :: (right ++ b) by simp [split]) within
  have reported : Reported crates engine (a ++ (w ++ b)) (some .substring) lang
      (entry lang own before middle) :=
    ⟨patterns, hit, own, before, middle, after, loaded, among, placed, nofun, rfl⟩
  refine ⟨_, scan_complete folds nonempty (soundOn_of_leftmost leftmost nonempty _) ran whole
    (by simp) reported, ?_⟩
  have positive := ch.utf8Size_pos
  simp only [entry, split, Str.len_append, Str.len_cons] at low high ⊢
  omega

/-- A report in the bare term spells some loaded term inside its folded form. -/
private theorem spelled_of_detectable (folds : crates.FoldsNonempty)
    (leftmost : crates.FindsLeftmostLongest) (nonempty : engine.TermsNonempty)
    (loaded : engine.terms lang = some patterns)
    (fits : Str.len (crates.foldText w) ≤ maxNormalizedBytes)
    (detectable : Detectable crates engine lang w) : ∃ v ∈ patterns, v <:+: crates.foldText w := by
  have sound := soundOn_of_leftmost leftmost nonempty w
  by_contra unspelled
  have silent : ∀ m, ¬ Reported crates engine w (some .substring) lang m := by
    rintro m ⟨own, hit, term, before, middle, after, again, _, placed, _, _⟩
    obtain rfl := Option.some.inj (loaded.symm.trans again)
    have occurs : Utf8.bytes term <:+: Utf8.bytes (crates.foldText w) :=
      placed.occurs.isInfix.trans (List.drop_suffix _ _).isInfix
    exact unspelled ⟨term, List.mem_of_getElem? placed.selected, Utf8.bytes_infix_iff.mp occurs⟩
  obtain ⟨each, members, used, ran⟩ := scan_eq folds nonempty sound fits [lang] (some .substring)
  have none : each lang = [] :=
    List.eq_nil_iff_forall_not_mem.mpr fun m listed => silent m ((members lang m).mp listed)
  simp only [List.flatMap_cons, List.flatMap_nil, none, List.append_nil, List.take_nil,
    List.length_nil] at ran
  have around : [] ++ (w ++ []) = w := by simp
  obtain ⟨m, listed, _⟩ := detectable [] [] _ _
    (by rw [around]; exact (normalize_ok_iff folds).mpr ⟨fits, rfl⟩) (by rw [around]; exact ran) rfl
  simp at listed

/-- A loaded term is detectable exactly when its folded form contains a loaded
term of its language, or is too large to be scanned at all: patterns are built
from the terms as they are listed, while text is folded. -/
theorem detectable_iff (folds : crates.FoldsNonempty) (leftmost : crates.FindsLeftmostLongest)
    (nonempty : engine.TermsNonempty) (loaded : engine.terms lang = some patterns) :
    Detectable crates engine lang w ↔
      maxNormalizedBytes < Str.len (crates.foldText w) ∨ ∃ v ∈ patterns, v <:+: crates.foldText w := by
  constructor
  · intro detectable
    by_cases fits : Str.len (crates.foldText w) ≤ maxNormalizedBytes
    · exact .inr (spelled_of_detectable folds leftmost nonempty loaded fits detectable)
    · exact .inl (Nat.lt_of_not_le fits)
  · rintro (large | ⟨v, member, spelled⟩)
    · intro a b norm result normalized
      have fits := ((normalize_ok_iff folds).mp normalized).1
      simp only [Crates.foldText_append, Str.len_append] at fits
      omega
    · exact detectable_of_spelled folds leftmost nonempty loaded member spelled

end

/-- A capitalized term is missed even on its own. -/
theorem capitalized_term_missed :
    (AsciiCrates.engine "de" ["Arsch"]).terms "de".toList = some ["Arsch".toList] ∧
      ¬ Detectable AsciiCrates.crates (AsciiCrates.engine "de" ["Arsch"]) "de".toList "Arsch".toList := by
  refine ⟨by decide +kernel, fun detectable => ?_⟩
  obtain ⟨m, listed, _⟩ := detectable [] [] ⟨"arsch".toList, List.range 5⟩
    ⟨[("de".toList, .substring)], [], false⟩ (by decide +kernel) (by decide +kernel) rfl
  cases listed

theorem detectable_iff_lowercase :
    Detectable AsciiCrates.crates (AsciiCrates.engine "de" ["arsch", "Arschloch"]) "de".toList
        "Arschloch".toList ↔
      maxNormalizedBytes < Str.len (AsciiCrates.crates.foldText "Arschloch".toList) ∨
        ∃ v ∈ ["arsch", "Arschloch"].map String.toList,
          v <:+: AsciiCrates.crates.foldText "Arschloch".toList :=
  detectable_iff AsciiCrates.foldsNonempty AsciiCrates.findsLeftmostLongest
    (AsciiCrates.engine_nonempty "de" (by decide)) (by rw [AsciiCrates.terms_engine, if_pos rfl])

/-! ### Whole words in strict mode -/

/-- Every whole-word occurrence of a loaded term in an accepted text is touched
by some match of an untruncated strict scan. -/
def StrictComplete (crates : Crates) (engine : Engine) (lang : Lang) (text : Str) : Prop :=
  ∀ norm patterns term i low high result, normalize crates text = .ok norm →
    engine.terms lang = some patterns → term ∈ patterns →
    OccursAt (Utf8.bytes term) (Utf8.bytes norm.text) i →
    widenToSource norm.offsetMap text i (i + Str.len term) = .ok (low, high) →
    isWordBoundary crates text low = true → isWordBoundary crates text high = true →
    engine.scan crates text [lang] (some .strict) = .ok (.ok result) → result.truncated = false →
    ∃ m ∈ result.found, m.start < high ∧ low < m.stop

/-- The chosen hit that stands over the first byte of an occurrence is another
one, and strict mode drops it at one of its own widened edges. -/
def Displaced (crates : Crates) (text : Str) (norm : Normalized) (patterns : List Str)
    (i j low high : Nat) : Prop :=
  ∃ hit ∈ hitsOf crates text patterns, hit.start ≤ i ∧ i < hit.stop ∧
    (hit.start < i ∨ hit.start = i ∧ j < hit.stop) ∧
    ∃ start stop, widenToSource norm.offsetMap text hit.start hit.stop = .ok (start, stop) ∧
      start < high ∧ low < stop ∧
      (isWordBoundary crates text start = false ∨ isWordBoundary crates text stop = false)

/-- A longer hit chosen first and then dropped hides the whole word under it. -/
theorem strict_incomplete :
    ¬ StrictComplete AsciiCrates.crates (AsciiCrates.engine "en" ["rot", "rot gut"]) "en".toList
      "rot guts".toList := by
  intro complete
  obtain ⟨m, listed, _⟩ := complete ⟨"rot guts".toList, List.range 8⟩ (["rot", "rot gut"].map String.toList)
    "rot".toList 0 0 3 ⟨[("en".toList, .strict)], [], false⟩ (by decide +kernel) (by decide +kernel)
    (by decide) (by decide +kernel) (by decide +kernel) (by decide +kernel) (by decide +kernel)
    (by decide +kernel) rfl
  cases listed

/-- Strict mode reports a match over every whole-word occurrence, unless a hit
that starts earlier, or there and is longer, was chosen and then dropped. -/
theorem strict_complete_unless_displaced {crates : Crates} {engine : Engine} {text : Str} {norm : Normalized}
    (folds : crates.FoldsNonempty) (leftmost : crates.FindsLeftmostLongest)
    (nonempty : engine.TermsNonempty) (accepted : normalize crates text = .ok norm)
    (loaded : engine.terms lang = some patterns) (member : term ∈ patterns)
    (occurs : OccursAt (Utf8.bytes term) (Utf8.bytes norm.text) i)
    (widened : widenToSource norm.offsetMap text i (i + Str.len term) = .ok (low, high))
    (left : isWordBoundary crates text low = true) (right : isWordBoundary crates text high = true)
    (ran : engine.scan crates text [lang] (some .strict) = .ok (.ok result))
    (whole : result.truncated = false) :
    (∃ m ∈ result.found, m.start < high ∧ low < m.stop) ∨
      Displaced crates text norm patterns i (i + Str.len term) low high := by
  obtain ⟨-, rfl⟩ := (normalize_ok_iff folds).mp accepted
  have filled := Str.len_pos (nonempty lang patterns loaded term member)
  have bound : i + Str.len term ≤ Str.len (crates.foldText text) := by
    have fits := occursAt_bound (Utf8.bytes_ne_nil (nonempty lang patterns loaded term member)) occurs
    rwa [Utf8.length_bytes, Utf8.length_bytes] at fits
  obtain ⟨before, ch, after, split, within⟩ := owner_exists (show i < Str.len (crates.foldText text) by omega)
  obtain ⟨hit, among, starts, ends, longer, own, prior, middle, rest, placed, lower, upper⟩ :=
    covering_hit leftmost nonempty loaded member occurs split within
  -- the codepoint behind the first byte lies in both spans
  obtain ⟨low', high', range⟩ := range_exists (show i < i + Str.len term by omega) bound
  obtain ⟨rfl, rfl⟩ := Prod.mk.inj (Except.ok.inj ((widenToSource_eq range).symm.trans widened))
  obtain ⟨inLow, inHigh⟩ := range.contains split ⟨i, Nat.le_refl i, by omega, within⟩
  have positive := ch.utf8Size_pos
  change low' ≤ Str.len before at inLow
  change Str.len before + ch.utf8Size ≤ high' at inHigh
  by_cases kept : isWordBoundary crates text (Str.len prior) = true ∧
      isWordBoundary crates text (Str.len prior + Str.len middle) = true
  · have reported : Reported crates engine text (some .strict) lang (entry lang own prior middle) :=
      ⟨patterns, hit, own, prior, middle, rest, loaded, among, placed, fun _ => kept, rfl⟩
    refine .inl ⟨_, scan_complete folds nonempty (soundOn_of_leftmost leftmost nonempty _) ran whole
      (by simp) reported, ?_⟩
    simp only [entry]
    omega
  · refine .inr ⟨hit, among, starts, ends, ?_, _, _, widenToSource_eq placed.range, by omega, by omega, ?_⟩
    · by_contra same
      obtain ⟨begins, finishes⟩ : hit.start = i ∧ hit.stop = i + Str.len term := by omega
      have alike := widenToSource_eq placed.range
      rw [begins, finishes] at alike
      obtain ⟨rfl, rfl⟩ := Prod.mk.inj (Except.ok.inj (widened.symm.trans alike))
      exact kept ⟨left, right⟩
    · by_cases early : isWordBoundary crates text (Str.len prior) = true
      · exact .inr (Bool.eq_false_of_not_eq_true fun late => kept ⟨early, late⟩)
      · exact .inl (Bool.eq_false_of_not_eq_true early)

theorem strict_complete_unless_displaced_rot :
    (∃ m ∈ [(⟨"en".toList, "rot".toList, "Rot".toList, 0, 3⟩ : Match)], m.start < 3 ∧ 0 < m.stop) ∨
      Displaced AsciiCrates.crates "Rot guts".toList ⟨"rot guts".toList, List.range 8⟩
        (["rot", "gut"].map String.toList) 0 3 0 3 := by
  have accepted : normalize AsciiCrates.crates "Rot guts".toList = .ok ⟨"rot guts".toList, List.range 8⟩ := by
    decide +kernel
  have loaded : (AsciiCrates.engine "en" ["rot", "gut"]).terms "en".toList =
      some (["rot", "gut"].map String.toList) := by decide +kernel
  have widened : widenToSource (List.range 8) "Rot guts".toList 0 (0 + Str.len "rot".toList) = .ok (0, 3) := by
    decide +kernel
  have ran : (AsciiCrates.engine "en" ["rot", "gut"]).scan AsciiCrates.crates "Rot guts".toList ["en".toList]
      (some .strict) = .ok (.ok ⟨[("en".toList, .strict)],
        [⟨"en".toList, "rot".toList, "Rot".toList, 0, 3⟩], false⟩) := by decide +kernel
  exact strict_complete_unless_displaced AsciiCrates.foldsNonempty AsciiCrates.findsLeftmostLongest
    (AsciiCrates.engine_nonempty "en" (by decide)) accepted loaded (show "rot".toList ∈ _ by decide)
    (by decide +kernel) widened (by decide +kernel) (by decide +kernel) ran rfl

end VocabVeto.Detection
