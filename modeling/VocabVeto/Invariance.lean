import VocabVeto.AsciiCrates
import VocabVeto.ScanLockstep
import VocabVeto.SpanProofs

/-! Which respellings of a text leave its report alone. Substring mode sees only
the folded form, one codepoint at a time; strict mode also looks at the word
boundaries of the text as it was typed. -/
namespace VocabVeto.Invariance
open Expansion LeftmostLongest NormalizeProofs ScanReference SpanProofs ScanLockstep

/-! ### Normal forms -/

/-- Substring scans of two accepted texts of one NFKC form report the same terms
in the same order, and are truncated together. -/
def NormalFormInvariant (crates : Crates) (engine : Engine) (langs : List Lang) (s t : Str) : Prop :=
  ∀ norm norm' result result', normalize crates s = .ok norm → normalize crates t = .ok norm' →
    crates.nfkc s = crates.nfkc t →
    engine.scan crates s langs (some .substring) = .ok (.ok result) →
    engine.scan crates t langs (some .substring) = .ok (.ok result') →
    labels result.found = labels result'.found ∧ result.truncated = result'.truncated

/-- A letter and its combining mark are not composed before the search. -/
theorem composition_noticed : ¬ NormalFormInvariant AsciiCrates.crates
    (AsciiCrates.engine "fr" ["café"]) ["fr".toList] "café".toList "cafe\u0301".toList := by
  intro invariant
  have same := invariant ⟨"café".toList, [0, 1, 2, 3, 3]⟩ ⟨"cafe\u0301".toList, [0, 1, 2, 3, 4, 4]⟩
    ⟨[("fr".toList, .substring)], [⟨"fr".toList, "café".toList, "café".toList, 0, 5⟩], false⟩
    ⟨[("fr".toList, .substring)], [], false⟩ (by decide +kernel) (by decide +kernel) (by decide +kernel)
    (by decide +kernel) (by decide +kernel)
  cases same.1

section
variable {crates : Crates} {engine : Engine} {s t : Str}

/-- Substring mode treats a hit alike in two texts that fold alike. -/
private theorem follows_alike (folds : crates.FoldsNonempty) (alike : crates.foldText s = crates.foldText t)
    (sound : hit.Sound (patterns.map Utf8.bytes) (Utf8.bytes (crates.foldText s))) :
    Follows crates ⟨s, ⟨crates.foldText s, sourceStarts crates s⟩, lang, .substring, patterns⟩
      ⟨t, ⟨crates.foldText t, sourceStarts crates t⟩, lang, .substring, patterns⟩ hit := by
  obtain ⟨term, _, _, width, bound⟩ := sound
  rw [Utf8.length_bytes] at bound
  constructor
  · intro examined
    obtain ⟨_, low, high, _, _, dropped⟩ := examine_ok examined
    rw [if_pos accepts_substring] at dropped
    cases dropped
  · intro term low high examined
    obtain ⟨own, low, high, selected, widened, kept⟩ := examine_ok examined
    obtain ⟨positive, inside⟩ := range_of_widens widened
    have bound' : hit.stop ≤ Str.len (crates.foldText t) := alike ▸ bound
    have inside' : hit.start < Str.len (crates.foldText t) := alike ▸ inside
    obtain ⟨low', high', matched, widened', sliced, _⟩ :=
      range_widens folds (show hit.start ≤ hit.stop by omega) positive inside' bound'
    rw [if_pos accepts_substring] at kept
    obtain ⟨rfl, -⟩ := Prod.mk.inj (Option.some.inj kept)
    refine ⟨low', high', matched, ?_, sliced⟩
    rw [examine_eq (by exact selected) (by exact widened'), if_pos accepts_substring]

/-- A substring scan for one term alone reports something exactly when the folded
text spells that term. -/
private theorem sole_term_found (folds : crates.FoldsNonempty) (leftmost : crates.FindsLeftmostLongest)
    (filled : term ≠ []) (lang : Lang) (fits : Str.len (crates.foldText s) ≤ maxNormalizedBytes) :
    ∃ result, (Engine.new (AList.singleton lang [term])).scan crates s [lang] (some .substring) = .ok (.ok result) ∧
      (result.found ≠ [] ↔ term <:+: crates.foldText s) := by
  have loaded : (Engine.new (AList.singleton lang [term])).terms lang = some [term] := by
    rw [Engine.terms_new]
    exact AList.lookup_insert ∅
  have alone : ∀ other ∈ [term], other ≠ [] := List.forall_mem_singleton.mpr filled
  have nonempty : (Engine.new (AList.singleton lang [term])).TermsNonempty :=
    Engine.new_nonempty (List.forall_mem_singleton.mpr alone)
  have encoded := encoded_nonempty alone
  have search := leftmost _ (Utf8.bytes (crates.foldText s)) encoded
  obtain ⟨each, members, used, ran⟩ :=
    scan_eq folds nonempty (soundOn_of_leftmost leftmost nonempty s) fits [lang] (some .substring)
  refine ⟨_, ran, ?_⟩
  rw [List.flatMap_singleton, ne_eq, List.take_eq_nil_iff, or_iff_right (by decide)]
  constructor
  · intro some
    obtain ⟨m, listed⟩ := List.exists_mem_of_ne_nil _ some
    obtain ⟨own, hit, other, before, middle, after, again, _, placed, _, _⟩ := (members lang m).mp listed
    obtain rfl := Option.some.inj (loaded.symm.trans again)
    obtain rfl := List.mem_singleton.mp (List.mem_of_getElem? placed.selected)
    exact Utf8.bytes_infix_iff.mp (placed.occurs.isInfix.trans (List.drop_suffix _ _).isInfix)
  · rintro ⟨front, back, spelled⟩
    have occurs : OccursAt (Utf8.bytes term) (Utf8.bytes (crates.foldText s)) (Utf8.bytes front).length := by
      rw [OccursAt, ← spelled, List.append_assoc, Utf8.bytes_append, List.drop_left, Utf8.bytes_append]
      exact List.prefix_append _ _
    obtain ⟨hit, among, _⟩ := search.covers (List.mem_singleton.mpr rfl) occurs (Nat.zero_le _)
    obtain ⟨own, before, middle, after, placed⟩ := placed_exists alone (search.sound encoded among)
    exact List.ne_nil_of_mem ((members lang _).mpr
      ⟨[term], hit, own, before, middle, after, loaded, among, placed, accepts_substring, rfl⟩)

/-- Of two texts that fold differently, one has a folded form that the other does
not spell: an engine with that term alone tells them apart. -/
private theorem told_apart (folds : crates.FoldsNonempty) (leftmost : crates.FindsLeftmostLongest)
    (fits : Str.len (crates.foldText s) ≤ maxNormalizedBytes)
    (fits' : Str.len (crates.foldText t) ≤ maxNormalizedBytes)
    (longer : (crates.foldText t).length ≤ (crates.foldText s).length)
    (differ : crates.foldText s ≠ crates.foldText t) :
    ∃ (engine : Engine) (lang : Lang) (result result' : ScanResult),
      engine.scan crates s [lang] (some .substring) = .ok (.ok result) ∧
      engine.scan crates t [lang] (some .substring) = .ok (.ok result') ∧
      result.found ≠ [] ∧ result'.found = [] := by
  have filled : crates.foldText s ≠ [] := by
    intro empty
    rw [empty, List.length_nil, Nat.le_zero, List.length_eq_zero_iff] at longer
    exact differ (empty.trans longer.symm)
  have absent : ¬ crates.foldText s <:+: crates.foldText t := fun spelled =>
    differ (spelled.eq_of_length_le longer)
  obtain ⟨result, ran, found⟩ := sole_term_found folds leftmost filled [] fits
  obtain ⟨result', ran', found'⟩ := sole_term_found folds leftmost filled [] fits'
  exact ⟨_, [], result, result', ran, ran', found.mpr List.infix_rfl, not_not.mp (mt found'.mp absent)⟩

/-- Two accepted texts get the same substring report from every engine exactly
when they fold to the same text, one codepoint at a time. -/
theorem substring_ignores_spelling {norm norm' : Normalized} (folds : crates.FoldsNonempty)
    (reports : crates.ReportsOccurrences) (leftmost : crates.FindsLeftmostLongest)
    (accepted : normalize crates s = .ok norm) (accepted' : normalize crates t = .ok norm') :
    norm.text = norm'.text ↔ ∀ (engine : Engine) langs result,
      engine.scan crates s langs (some .substring) = .ok (.ok result) →
      ∃ result', engine.scan crates t langs (some .substring) = .ok (.ok result') ∧
        SameReport result result' := by
  obtain ⟨fits, rfl⟩ := (normalize_ok_iff folds).mp accepted
  obtain ⟨fits', rfl⟩ := (normalize_ok_iff folds).mp accepted'
  constructor
  · intro alike engine langs result ran
    refine scan_lockstep accepted accepted' alike (fun lang _ ac patterns held => ?_) ran
    obtain ⟨-, rfl⟩ := terms_of_lookup held
    exact fun hit member => follows_alike folds alike (reports _ _ hit member)
  · intro agree
    by_contra differ
    rcases Nat.le_total (crates.foldText t).length (crates.foldText s).length with longer | longer
    · obtain ⟨engine, lang, result, result', ran, ran', some, none⟩ :=
        told_apart folds leftmost fits fits' longer differ
      obtain ⟨other, again, same⟩ := agree engine [lang] result ran
      obtain rfl := Except.ok.inj (Except.ok.inj (ran'.symm.trans again))
      exact some (same.found_nil.mpr none)
    · obtain ⟨engine, lang, result', result, ran', ran, some, none⟩ :=
        told_apart folds leftmost fits' fits longer (Ne.symm differ)
      obtain ⟨other, again, same⟩ := agree engine [lang] result ran
      obtain rfl := Except.ok.inj (Except.ok.inj (ran'.symm.trans again))
      exact some (same.found_nil.mp none)

end

/-- The two spellings of a dotted `I` fold alike and are matched alike; those of an
acute `e` are told apart. -/
theorem substring_ignores_spelling_dotted :
    (∃ result', (AsciiCrates.engine "tr" ["i\u0307t"]).scan AsciiCrates.crates "I\u0307T".toList ["tr".toList]
        (some .substring) = .ok (.ok result') ∧
      SameReport ⟨[("tr".toList, .substring)], [⟨"tr".toList, "i\u0307t".toList, "İT".toList, 0, 3⟩], false⟩
        result') ∧
    ¬ ∀ (engine : Engine) langs result,
      engine.scan AsciiCrates.crates "café".toList langs (some .substring) = .ok (.ok result) →
      ∃ result', engine.scan AsciiCrates.crates "cafe\u0301".toList langs (some .substring) = .ok (.ok result') ∧
        SameReport result result' := by
  have precomposed : normalize AsciiCrates.crates "İT".toList = .ok ⟨"i\u0307t".toList, [0, 0, 0, 2]⟩ := by
    decide +kernel
  have decomposed : normalize AsciiCrates.crates "I\u0307T".toList = .ok ⟨"i\u0307t".toList, [0, 1, 1, 3]⟩ := by
    decide +kernel
  have acute : normalize AsciiCrates.crates "café".toList = .ok ⟨"café".toList, [0, 1, 2, 3, 3]⟩ := by
    decide +kernel
  have marked : normalize AsciiCrates.crates "cafe\u0301".toList =
      .ok ⟨"cafe\u0301".toList, [0, 1, 2, 3, 4, 4]⟩ := by decide +kernel
  refine ⟨(substring_ignores_spelling AsciiCrates.foldsNonempty AsciiCrates.reportsOccurrences
    AsciiCrates.findsLeftmostLongest precomposed decomposed).mp rfl _ _ _ (by decide +kernel), fun agree => ?_⟩
  have same := (substring_ignores_spelling AsciiCrates.foldsNonempty AsciiCrates.reportsOccurrences
    AsciiCrates.findsLeftmostLongest acute marked).mpr agree
  cases same

/-! ### Compatibility spellings -/

/-- Strict scans of an accepted text and of its folded form, when that folds to
itself, report the same terms in the same order. -/
def SpellingInvariant (crates : Crates) (engine : Engine) (langs : List Lang) (text : Str) : Prop :=
  ∀ norm result result', normalize crates text = .ok norm → (∀ ch ∈ norm.text, crates.fold ch = [ch]) →
    engine.scan crates text langs (some .strict) = .ok (.ok result) →
    engine.scan crates norm.text langs (some .strict) = .ok (.ok result') →
    labels result.found = labels result'.found

/-- A ligature at the edge of a word hides that a term begins inside it. -/
theorem ligature_noticed : ¬ SpellingInvariant AsciiCrates.crates (AsciiCrates.engine "en" ["ire"])
    ["en".toList] "ﬁre".toList := by
  intro invariant
  have same := invariant ⟨"fire".toList, [0, 0, 3, 4]⟩
    ⟨[("en".toList, .strict)], [⟨"en".toList, "ire".toList, "ﬁre".toList, 0, 5⟩], false⟩
    ⟨[("en".toList, .strict)], [], false⟩ (by decide +kernel) (AsciiCrates.fixed_of_all (by decide +kernel))
    (by decide +kernel) (by decide +kernel)
  cases same

/-- The byte of the folded text where some codepoint's expansion begins, or the end. -/
def AtEdge (crates : Crates) (text : Str) (i : Nat) : Prop :=
  ∃ before after, text = before ++ after ∧ Str.len (crates.foldText before) = i

/-- No hit of a requested language begins or ends strictly inside the expansion of
a codepoint. -/
def HitsAtEdges (crates : Crates) (engine : Engine) (langs : List Lang) (text : Str) : Prop :=
  ∀ lang ∈ langs, ∀ patterns, engine.terms lang = some patterns → ∀ hit ∈ hitsOf crates text patterns,
    AtEdge crates text hit.start ∧ AtEdge crates text hit.stop

/-- UAX #29 breaks a text between two of its codepoints exactly where it breaks the
folded text between their expansions. -/
def BreaksAlike (crates : Crates) (text : Str) : Prop :=
  ∀ before after, before ≠ [] → after ≠ [] → text = before ++ after →
    (crates.WordBoundary text (Str.len before) ↔
      crates.WordBoundary (crates.foldText text) (Str.len (crates.foldText before)))

section
variable {crates : Crates} {engine : Engine} {text : Str}

theorem foldText_fixed (fixed : ∀ ch ∈ text, crates.fold ch = [ch]) : crates.foldText text = text := by
  induction text with
  | nil => rfl
  | cons ch text ih =>
    rw [Crates.foldText_cons, fixed ch List.mem_cons_self,
      ih fun other member => fixed other (List.mem_cons_of_mem _ member), List.singleton_append]

/-- In a text that folds to itself, a term keeps its own edges. -/
theorem widened_fixed (fixed : ∀ ch ∈ text, crates.fold ch = [ch]) (nonempty : term ≠ [])
    (occurs : OccursAt (Utf8.bytes term) (Utf8.bytes text) i) :
    Widened Char.utf8Size (contribution crates) text i (i + Str.len term) i (i + Str.len term) := by
  obtain ⟨before, behind, rfl, rfl, after, rfl⟩ := Utf8.occurrence_aligned nonempty occurs
  have spelled : ∀ part, (∀ ch ∈ part, ch ∈ before ++ (term ++ after)) →
      (part.flatMap (contribution crates)).length = Str.len part := by
    intro part inside
    rw [length_flatMap_contribution, foldText_fixed fun ch member => fixed ch (inside ch member)]
  have filled : ∀ ch ∈ term, contribution crates ch ≠ [] := by
    intro ch member
    rw [contribution, fixed ch (by simp [member])]
    exact Utf8.bytes_ne_nil (List.cons_ne_nil ch [])
  have range : Widened Char.utf8Size (contribution crates) (before ++ (term ++ after)) _ _ _ _ :=
    widened_of_cut before term after nonempty filled
  rwa [spelled before (by simp +contextual), spelled term (by simp +contextual)] at range

/-- The ends of a text are boundaries in both spellings. -/
theorem boundary_iff (breaks : BreaksAlike crates text) (cut : text = before ++ after) :
    crates.WordBoundary text (Str.len before) ↔
      crates.WordBoundary (crates.foldText text) (Str.len (crates.foldText before)) := by
  by_cases first : before = []
  · subst first
    exact ⟨fun _ => .inl rfl, fun _ => .inl rfl⟩
  · by_cases last : after = []
    · subst last
      rw [List.append_nil] at cut
      subst cut
      exact ⟨fun _ => .inr (.inl rfl), fun _ => .inr (.inl rfl)⟩
    · exact breaks before after first last cut

/-- A range between codepoint edges of the folded text widens to the codepoints
between them. -/
theorem widened_at_edges (folds : crates.FoldsNonempty) (starts : AtEdge crates text i) (stops : AtEdge crates text j)
    (ordered : i < j) :
    ∃ before middle after, text = before ++ (middle ++ after) ∧ Str.len (crates.foldText before) = i ∧
      Str.len (crates.foldText (before ++ middle)) = j ∧
      Widened Char.utf8Size (contribution crates) text i j (Str.len before) (Str.len before + Str.len middle) := by
  obtain ⟨before, behind, rfl, rfl⟩ := starts
  obtain ⟨until', after, cut, rfl⟩ := stops
  obtain ⟨middle, rfl, rfl⟩ : ∃ middle, until' = before ++ middle ∧ behind = middle ++ after := by
    rcases List.append_eq_append_iff.mp cut with ⟨gap, shorter, rest⟩ | ⟨gap, shorter, rest⟩
    · exact ⟨gap, shorter, rest⟩
    · rw [shorter, Crates.foldText_append, Str.len_append] at ordered
      omega
  have nonempty : middle ≠ [] := by
    rintro rfl
    rw [List.append_nil] at ordered
    exact Nat.lt_irrefl _ ordered
  have filled : ∀ ch ∈ middle, contribution crates ch ≠ [] := fun ch _ => Utf8.bytes_ne_nil (folds ch)
  have range : Widened Char.utf8Size (contribution crates) (before ++ (middle ++ after)) _ _ _ _ :=
    widened_of_cut before middle after nonempty filled
  rw [length_flatMap_contribution, length_flatMap_contribution] at range
  refine ⟨before, middle, after, rfl, rfl, rfl, ?_⟩
  rw [Crates.foldText_append, Str.len_append]
  exact range

/-- A hit between codepoint edges follows from a text to its folded spelling. -/
private theorem follows_folded (folds : crates.FoldsNonempty)
    (fixed : ∀ ch ∈ crates.foldText text, crates.fold ch = [ch]) (nonempty : ∀ term ∈ patterns, term ≠ [])
    (sound : hit.Sound (patterns.map Utf8.bytes) (Utf8.bytes (crates.foldText text)))
    (edges : AtEdge crates text hit.start ∧ AtEdge crates text hit.stop) (breaks : BreaksAlike crates text) :
    Follows crates ⟨text, ⟨crates.foldText text, sourceStarts crates text⟩, lang, .strict, patterns⟩
      ⟨crates.foldText text, ⟨crates.foldText text, sourceStarts crates (crates.foldText text)⟩, lang,
        .strict, patterns⟩ hit := by
  obtain ⟨term, _, _, _, placed⟩ := placed_exists nonempty sound
  have filled := nonempty term (List.mem_of_getElem? placed.selected)
  have ordered : hit.start < hit.stop := placed.width ▸ Nat.lt_add_of_pos_right (Str.len_pos filled)
  obtain ⟨before, middle, after, cut, starts, stops, range⟩ := widened_at_edges folds edges.1 edges.2 ordered
  have widened' : widenToSource (sourceStarts crates (crates.foldText text)) (crates.foldText text)
      hit.start hit.stop = .ok (hit.start, hit.stop) := by
    rw [placed.width]
    exact widenToSource_eq (widened_fixed fixed filled placed.occurs)
  have sliced : ∃ matched, Str.slice (crates.foldText text) hit.start hit.stop = .ok matched := by
    obtain ⟨front, behind, spelled, sized, back, rfl⟩ := Utf8.occurrence_aligned filled placed.occurs
    refine ⟨term, ?_⟩
    rw [placed.width, spelled, ← sized]
    exact Str.slice_append front term back
  -- each edge is a boundary in both spellings or in neither
  have low := boundary_iff breaks cut
  have high := boundary_iff breaks (cut.trans (List.append_assoc ..).symm)
  rw [starts] at low
  rw [stops, Str.len_append] at high
  have agree : Accepts crates .strict text (Str.len before) (Str.len before + Str.len middle) ↔
      Accepts crates .strict (crates.foldText text) hit.start hit.stop := by
    simp only [Accepts, isWordBoundary_iff, low, high]
  constructor
  · intro examined
    rw [examine_eq (by exact placed.selected) (by exact widenToSource_eq range)] at examined
    rw [examine_eq (by exact placed.selected) (by exact widened')]
    split at examined
    · cases examined
    · rename_i rejected
      rw [if_neg (mt agree.mpr rejected)]
  · intro own low high examined
    rw [examine_eq (by exact placed.selected) (by exact widenToSource_eq range)] at examined
    rw [examine_eq (by exact placed.selected) (by exact widened')]
    split at examined
    · rename_i accepted
      obtain ⟨rfl, -⟩ := Prod.mk.inj (Option.some.inj (Except.ok.inj examined))
      obtain ⟨matched, sliced⟩ := sliced
      exact ⟨_, _, matched, by rw [if_pos (agree.mp accepted)], sliced⟩
    · cases examined

/-- The strict report of a text is that of its folded spelling, as long as no hit
has an edge inside an expansion and folding moves no word boundary. -/
theorem strict_respects_spelling {norm : Normalized} (folds : crates.FoldsNonempty)
    (reports : crates.ReportsOccurrences) (nonempty : engine.TermsNonempty)
    (accepted : normalize crates text = .ok norm) (fixed : ∀ ch ∈ norm.text, crates.fold ch = [ch])
    (edges : HitsAtEdges crates engine langs text) (breaks : BreaksAlike crates text) :
    ∃ result result', engine.scan crates text langs (some .strict) = .ok (.ok result) ∧
      engine.scan crates norm.text langs (some .strict) = .ok (.ok result') ∧ SameReport result result' := by
  obtain ⟨fits, rfl⟩ := (normalize_ok_iff folds).mp accepted
  have alike := foldText_fixed fixed
  have accepted' : normalize crates (crates.foldText text) =
      .ok ⟨crates.foldText text, sourceStarts crates (crates.foldText text)⟩ :=
    (normalize_ok_iff folds).mpr ⟨alike.symm ▸ fits, by rw [alike]⟩
  have sound := soundOn_of_reports reports engine text
  obtain ⟨_, _, used, ran⟩ := scan_eq folds nonempty sound fits langs (some .strict)
  obtain ⟨result', ran', same⟩ := scan_lockstep accepted accepted' rfl (fun lang requested ac patterns held => by
    obtain ⟨loaded, rfl⟩ := terms_of_lookup held
    intro hit member
    exact follows_folded folds fixed (nonempty lang patterns loaded) (sound lang patterns loaded hit member)
      (edges lang requested patterns loaded hit member) breaks) ran
  exact ⟨_, result', ran, ran', same⟩

end

theorem strict_respects_spelling_ligature :
    ∃ result result', (AsciiCrates.engine "en" ["fire"]).scan AsciiCrates.crates "a ﬁre".toList ["en".toList]
        (some .strict) = .ok (.ok result) ∧
      (AsciiCrates.engine "en" ["fire"]).scan AsciiCrates.crates "a fire".toList ["en".toList]
        (some .strict) = .ok (.ok result') ∧ SameReport result result' := by
  have accepted : normalize AsciiCrates.crates "a ﬁre".toList =
      .ok ⟨"a fire".toList, [0, 1, 2, 2, 5, 6]⟩ := by decide +kernel
  have edges : HitsAtEdges AsciiCrates.crates (AsciiCrates.engine "en" ["fire"]) ["en".toList] "a ﬁre".toList := by
    intro lang requested patterns loaded hit member
    obtain rfl := List.mem_singleton.mp requested
    rw [AsciiCrates.terms_engine, if_pos rfl] at loaded
    cases loaded
    have only : hitsOf AsciiCrates.crates "a ﬁre".toList (["fire"].map String.toList) = [⟨0, 2, 6⟩] := by
      decide +kernel
    obtain rfl := List.mem_singleton.mp (only ▸ member)
    exact ⟨⟨"a ".toList, "ﬁre".toList, rfl, by decide +kernel⟩, ⟨"a ﬁre".toList, [], rfl, by decide +kernel⟩⟩
  have breaks : BreaksAlike AsciiCrates.crates "a ﬁre".toList := by
    intro before after _ _ cut
    have each : ∀ n ≤ 5, isWordBoundary AsciiCrates.crates "a ﬁre".toList (Str.len ("a ﬁre".toList.take n)) =
        isWordBoundary AsciiCrates.crates (AsciiCrates.crates.foldText "a ﬁre".toList)
          (Str.len (AsciiCrates.crates.foldText ("a ﬁre".toList.take n))) := by decide +kernel
    have short : before.length ≤ 5 := by
      have := congrArg List.length cut
      simp at this
      omega
    have here := each before.length short
    rw [show "a ﬁre".toList.take before.length = before by rw [cut, List.take_left]] at here
    rw [← isWordBoundary_iff, ← isWordBoundary_iff, here]
  exact strict_respects_spelling AsciiCrates.foldsNonempty AsciiCrates.reportsOccurrences
    (AsciiCrates.engine_nonempty "en" (by decide)) accepted (AsciiCrates.fixed_of_all (by decide +kernel)) edges breaks

end VocabVeto.Invariance
