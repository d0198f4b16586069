import VocabVeto.AsciiCrates
import VocabVeto.SpanProofs

/-! The order of a report. The hits of a language lie apart in the normalized
text, and widening keeps their order; two spans meet in one codepoint at most,
and only where two terms were found within its expansion. -/
namespace VocabVeto.SpanOrder
open Expansion LeftmostLongest NormalizeProofs ScanReference SpanProofs

/-- The last codepoint of a match is the first of another one, and folds to more
than one character. -/
def SharesCodepoint (crates : Crates) (text : Str) (first second : Match) : Prop :=
  ∃ before ch after, text = before ++ ch :: after ∧ 2 ≤ (crates.fold ch).length ∧
    second.start = Str.len before ∧ first.stop = Str.len before + ch.utf8Size

/-- A match and a later one of the same report: neither edge goes back, and they
are disjoint unless they share a codepoint, which then is all they share. -/
structure Follows (crates : Crates) (text : Str) (first second : Match) : Prop where
  starts : first.start ≤ second.start
  stops : first.stop ≤ second.stop
  apart : first.stop ≤ second.start ∨ SharesCodepoint crates text first second

section
variable {crates : Crates} {text : Str} {patterns : List Str}

/-- A hit of a nonempty term ends between two characters of the folded text. -/
theorem placed_boundary (placed : Placed crates text patterns hit term before middle after)
    (nonempty : term ≠ []) :
    ∃ front back, crates.foldText text = front ++ back ∧ Str.len front = hit.stop := by
  obtain ⟨front, back, spelled, sized, rest, rfl⟩ := Utf8.occurrence_aligned nonempty placed.occurs
  refine ⟨front ++ term, rest, by rw [spelled, List.append_assoc], ?_⟩
  rw [Str.len_append, placed.width, ← sized]
  rfl

/-- A codepoint whose expansion is cut strictly inside folds to more than one
character. -/
theorem two_of_cut {front back : Str} (split : text = before ++ ch :: after)
    (cut : crates.foldText text = front ++ back) (low : Str.len (crates.foldText before) < Str.len front)
    (high : Str.len front < Str.len (crates.foldText before) + Str.len (crates.fold ch)) :
    2 ≤ (crates.fold ch).length := by
  rw [split, Crates.foldText_append, Crates.foldText_cons] at cut
  obtain ⟨gap, rfl, rest⟩ | ⟨gap, spelled, _⟩ := List.append_eq_append_iff.mp cut
  · rw [Str.len_append] at low high
    obtain ⟨inner, rfl, _⟩ | ⟨inner, spelled, _⟩ := List.append_eq_append_iff.mp rest
    · rw [Str.len_append] at high
      omega
    · rw [spelled, Str.len_append] at high
      have filled : gap ≠ [] := by
        rintro rfl
        simp at low
      have filled' : inner ≠ [] := by
        rintro rfl
        simp at high
      have positive := List.length_pos_iff.mpr filled
      have positive' := List.length_pos_iff.mpr filled'
      rw [spelled, List.length_append]
      omega
  · rw [spelled, Str.len_append] at low
    omega

/-- Hits that lie apart are reported in order. -/
theorem follows_placed (placed : Placed crates text patterns hit term before middle after)
    (next : Placed crates text patterns hit' term' before' middle' after') (nonempty : term ≠ [])
    (apart : hit.stop ≤ hit'.start) (lang : Lang) :
    Follows crates text (entry lang term before middle) (entry lang term' before' middle') := by
  obtain ⟨starts, stops, meets⟩ := placed.range.follows next.range apart
  refine ⟨starts, stops, ?_⟩
  obtain disjoint | ⟨lead, ch, tail, split, ends, begins, low, high⟩ := meets
  · exact .inl disjoint
  · obtain ⟨front, back, cut, sized⟩ := placed_boundary placed nonempty
    have filled := placed.range.nonempty
    have above := ends.1
    have below := begins.2
    rw [length_flatMap_contribution] at above below
    rw [length_contribution] at below
    have wide := two_of_cut split cut (by omega) (by omega)
    exact .inr ⟨lead, ch, tail, split, wide, low, high⟩

/-- The reference report of hits that lie apart is in order. -/
theorem fullHits_ordered (nonempty : ∀ term ∈ patterns, term ≠ []) (lang : Lang) (mode : Mode) (hits : List Hit)
    (sound : ∀ hit ∈ hits, hit.Sound (patterns.map Utf8.bytes) (Utf8.bytes (crates.foldText text)))
    (disjoint : hits.Pairwise fun first second => first.stop ≤ second.start)
    (reference : fullHits crates ⟨text, ⟨crates.foldText text, sourceStarts crates text⟩, lang, mode, patterns⟩
      hits = .ok accepted) : accepted.Pairwise (Follows crates text) := by
  induction hits generalizing accepted with
  | nil =>
    obtain rfl := Except.ok.inj reference
    exact .nil
  | cons hit hits ih =>
    obtain ⟨first, rest, contributed, later, rfl⟩ := fullHits_cons.mp reference
    obtain ⟨behind, disjoint⟩ := List.pairwise_cons.mp disjoint
    have sound' := fun other member => sound other (List.mem_cons_of_mem hit member)
    obtain ⟨known, again, members⟩ := fullHits_defined nonempty lang mode hits sound'
    obtain rfl := Except.ok.inj (again.symm.trans later)
    obtain ⟨term, before, middle, after, placed⟩ := placed_exists nonempty (sound hit (by simp))
    have filled := nonempty term (List.mem_of_getElem? placed.selected)
    rw [contributes_placed placed] at contributed
    rw [← Except.ok.inj contributed]
    refine List.pairwise_append.mpr ⟨?_, ih sound' disjoint later, ?_⟩
    · split <;> simp
    · intro m here m' there
      obtain ⟨other, term', before', middle', after', among, next, _, rfl⟩ := (members m').mp there
      split at here
      · obtain rfl := List.mem_singleton.mp here
        exact follows_placed placed next filled (behind other among) lang
      · cases here

end

/-! ### The groups of a report -/

/-- A cut list of contributions is a list of cut contributions. -/
theorem take_flatMap (each : α → List β) (list : List α) (n : Nat) :
    ∃ groups, (list.flatMap each).take n = groups.flatten ∧
      List.Forall₂ (fun a group => group <+: each a) list groups := by
  induction list generalizing n with
  | nil => exact ⟨[], by simp, .nil⟩
  | cons a list ih =>
    obtain ⟨groups, spelled, parts⟩ := ih (n - (each a).length)
    refine ⟨(each a).take n :: groups, ?_, .cons (List.take_prefix _ _) parts⟩
    rw [List.flatMap_cons, List.take_append, spelled, List.flatten_cons]

/-- The part of a report that one requested entry contributes: the beginning of
what its language reports, in order. -/
structure Group (crates : Crates) (engine : Engine) (text : Str) (mode : Option Mode) (lang : Lang)
    (group : List Match) : Prop where
  reported : ∃ whole, full crates engine text ⟨crates.foldText text, sourceStarts crates text⟩ mode lang =
    .ok whole ∧ group <+: whole
  ordered : group.Pairwise (Follows crates text)

/-- A report is one group for each requested entry, in the order of the request,
and the spans of a group are in increasing order and disjoint, except that two
may share the codepoint one ends and the other begins with. -/
theorem scan_groups_ordered {crates : Crates} {engine : Engine} {text : Str} (folds : crates.FoldsNonempty)
    (reports : crates.ReportsOccurrences) (disjoint : crates.FindsDisjoint) (nonempty : engine.TermsNonempty)
    (ran : engine.scan crates text langs mode = .ok (.ok result)) :
    ∃ groups, result.found = groups.flatten ∧ List.Forall₂ (Group crates engine text mode) langs groups := by
  have sound := soundOn_of_reports reports engine text
  obtain ⟨each, defined, _, used, exact⟩ := scan_each folds nonempty sound (scan_fits ran) langs mode
  rw [exact] at ran
  cases ran
  obtain ⟨groups, spelled, parts⟩ := take_flatMap each langs maxMatches
  refine ⟨groups, spelled, parts.imp fun lang group leads => ⟨⟨_, defined lang, leads⟩, ?_⟩⟩
  have ordered : (each lang).Pairwise (Follows crates text) := by
    have reference := defined lang
    rw [full_eq] at reference
    cases loaded : engine.terms lang with
    | none =>
      rw [loaded] at reference
      rw [← Except.ok.inj reference]
      exact .nil
    | some patterns =>
      rw [loaded] at reference
      have filled := nonempty lang patterns loaded
      exact fullHits_ordered filled lang _ _ (sound lang patterns loaded)
        (disjoint _ _ (encoded_nonempty filled)) reference
  exact ordered.sublist leads.sublist

theorem scan_groups_ordered_ligature :
    ∃ groups, [⟨"en".toList, "f".toList, "ﬁ".toList, 0, 3⟩, ⟨"en".toList, "i".toList, "ﬁ".toList, 0, 3⟩,
        ⟨"en".toList, "f".toList, "f".toList, 3, 4⟩] = groups.flatten ∧
      List.Forall₂ (Group AsciiCrates.crates (AsciiCrates.engine "en" ["f", "i"]) "ﬁf".toList (some .substring))
        ["en".toList] groups := by
  have ran : (AsciiCrates.engine "en" ["f", "i"]).scan AsciiCrates.crates "ﬁf".toList ["en".toList]
      (some .substring) = .ok (.ok ⟨[("en".toList, .substring)], [⟨"en".toList, "f".toList, "ﬁ".toList, 0, 3⟩,
        ⟨"en".toList, "i".toList, "ﬁ".toList, 0, 3⟩, ⟨"en".toList, "f".toList, "f".toList, 3, 4⟩], false⟩) := by
    decide +kernel
  exact scan_groups_ordered AsciiCrates.foldsNonempty AsciiCrates.reportsOccurrences
    AsciiCrates.findsDisjoint (AsciiCrates.engine_nonempty "en" (by decide)) ran

/-- Two terms that a ligature spells out are both reported on all of it. -/
theorem ligature_reported_twice :
    ∃ result, (AsciiCrates.engine "en" ["f", "i"]).scan AsciiCrates.crates "ﬁ".toList ["en".toList]
        (some .substring) = .ok (.ok result) ∧
      ¬ result.found.Pairwise fun first second => first.stop ≤ second.start :=
  ⟨⟨[("en".toList, .substring)], [⟨"en".toList, "f".toList, "ﬁ".toList, 0, 3⟩,
    ⟨"en".toList, "i".toList, "ﬁ".toList, 0, 3⟩], false⟩, by decide +kernel, by decide⟩

end VocabVeto.SpanOrder
