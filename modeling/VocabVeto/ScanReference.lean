import VocabVeto.Core.Scan

/-! The scan against its reference: for each language in turn, every hit of its
automaton, widened, filtered and reported, with no cap. The nested loop with its
early exit returns a prefix of that list, and says so. -/
namespace VocabVeto.ScanReference
open LeftmostLongest

/-- Strict mode keeps a span only between word boundaries of the source text. -/
def Accepts (crates : Crates) (mode : Mode) (text : Str) (low high : Nat) : Prop :=
  mode = .strict → isWordBoundary crates text low = true ∧ isWordBoundary crates text high = true

instance : Decidable (Accepts crates mode text low high) := inferInstanceAs (Decidable (_ → _))

theorem accepts_substring : Accepts crates .substring text low high := nofun

/-- What one hit adds to the report of its language: its term, at the source range
of the hit, if the mode accepts that range. -/
def contributes (crates : Crates) (pass : Pass) (hit : Hit) : Fallible (Option Match) := do
  let term ← index pass.patterns hit.pattern
  let (low, high) ← widenToSource pass.norm.offsetMap pass.text hit.start hit.stop
  if Accepts crates pass.mode pass.text low high then
    let matchedText ← Str.slice pass.text low high
    return some ⟨pass.lang, term, matchedText, low, high⟩
  else return none

/-- All accepted hits of one language, in order. -/
def fullHits (crates : Crates) (pass : Pass) : List Hit → Fallible (List Match)
  | [] => .ok []
  | hit :: hits => do
    let first ← contributes crates pass hit
    let rest ← fullHits crates pass hits
    return first.toList ++ rest

/-- The complete contribution of one requested language; empty when the engine
lacks it. -/
def full (crates : Crates) (engine : Engine) (text : Str) (norm : Normalized) (mode : Option Mode)
    (lang : Lang) : Fallible (List Match) :=
  match engine.automata.lookup lang with
  | none => .ok []
  | some (ac, patterns) =>
    fullHits crates ⟨text, norm, lang, mode.getD (resolveDefaultMode lang), patterns⟩
      (ac.findIter crates norm.text)

/-- The contributions of the requested languages, concatenated in request order. -/
def fullLangs (crates : Crates) (engine : Engine) (text : Str) (norm : Normalized)
    (mode : Option Mode) : List Lang → Fallible (List Match)
  | [] => .ok []
  | lang :: langs => do
    let first ← full crates engine text norm mode lang
    let rest ← fullLangs crates engine text norm mode langs
    return first ++ rest

theorem fullLangs_cons {crates : Crates} {engine : Engine} {text : Str} {norm : Normalized}
    {mode : Option Mode} {lang : Lang} {langs : List Lang}
    (reference : fullLangs crates engine text norm mode (lang :: langs) = .ok accepted) :
    ∃ first rest, full crates engine text norm mode lang = .ok first ∧
      fullLangs crates engine text norm mode langs = .ok rest ∧ first ++ rest = accepted := by
  obtain ⟨first, contributed, continued⟩ := bind_eq_ok.mp reference
  obtain ⟨rest, later, made⟩ := bind_eq_ok.mp continued
  exact ⟨first, rest, contributed, later, Except.ok.inj made⟩

theorem fullHits_cons {pass : Pass} : fullHits crates pass (hit :: hits) = .ok accepted ↔
    ∃ first rest, contributes crates pass hit = .ok first ∧ fullHits crates pass hits = .ok rest ∧
      first.toList ++ rest = accepted := by
  simp only [fullHits, bind_eq_ok, pure, Except.pure, Except.ok.injEq, exists_and_left]

theorem index_ok {v : List α} : index v i = .ok a ↔ v[i]? = some a := by
  unfold index
  cases v[i]? <;> simp

section
variable {crates : Crates} {pass : Pass} {hit : Hit} {term : Str}

/-- A hit with a known term and span is dropped exactly when its mode does not
accept the span. -/
theorem examine_eq {pass : Pass} (selected : pass.patterns[hit.pattern]? = some term)
    (widened : widenToSource pass.norm.offsetMap pass.text hit.start hit.stop = .ok (low, high)) :
    examine crates pass hit =
      .ok (if Accepts crates pass.mode pass.text low high then some (term, low, high) else none) := by
  simp only [examine, index, selected, Fallible.ok_bind, widened]
  by_cases accepted : Accepts crates pass.mode pass.text low high
  · have kept : ¬ (pass.mode = .strict ∧ (!isWordBoundary crates pass.text low ||
        !isWordBoundary crates pass.text high) = true) := by
      rintro ⟨strict, rejected⟩
      obtain ⟨left, right⟩ := accepted strict
      simp [left, right] at rejected
    rw [if_pos accepted, if_neg kept]
    rfl
  · have dropped : pass.mode = .strict ∧ (!isWordBoundary crates pass.text low ||
        !isWordBoundary crates pass.text high) = true := by
      obtain ⟨strict, rejected⟩ := Classical.not_imp.mp accepted
      refine ⟨strict, ?_⟩
      by_cases left : isWordBoundary crates pass.text low = true
      · simp [left] at rejected
        simp [rejected]
      · simp [left]
    rw [if_neg accepted, if_pos dropped]
    rfl

theorem examine_ok (examined : examine crates pass hit = .ok outcome) :
    ∃ term low high, pass.patterns[hit.pattern]? = some term ∧
      widenToSource pass.norm.offsetMap pass.text hit.start hit.stop = .ok (low, high) ∧
      outcome = if Accepts crates pass.mode pass.text low high then some (term, low, high) else none := by
  obtain ⟨term, selected, continued⟩ := bind_eq_ok.mp examined
  obtain ⟨⟨low, high⟩, widened, _⟩ := bind_eq_ok.mp continued
  have listed := index_ok.mp selected
  rw [examine_eq listed widened, Except.ok.injEq] at examined
  exact ⟨term, low, high, listed, widened, examined.symm⟩

theorem contributes_eq (selected : pass.patterns[hit.pattern]? = some term)
    (widened : widenToSource pass.norm.offsetMap pass.text hit.start hit.stop = .ok (low, high)) :
    contributes crates pass hit = if Accepts crates pass.mode pass.text low high then
      (Str.slice pass.text low high).map fun matchedText => some ⟨pass.lang, term, matchedText, low, high⟩
    else .ok none := by
  simp only [contributes, index, selected, widened, Fallible.ok_bind]
  split
  · cases Str.slice pass.text low high <;> rfl
  · rfl

theorem contributes_dropped (examined : examine crates pass hit = .ok none) :
    contributes crates pass hit = .ok none := by
  obtain ⟨term, low, high, selected, widened, outcome⟩ := examine_ok examined
  rw [contributes_eq selected widened]
  split at outcome
  · cases outcome
  · rename_i refused
    rw [if_neg refused]

theorem contributes_kept (examined : examine crates pass hit = .ok (some (term, start, stop)))
    (reported : report pass term start stop = .ok m) : contributes crates pass hit = .ok (some m) := by
  obtain ⟨own, low, high, selected, widened, outcome⟩ := examine_ok examined
  rw [contributes_eq selected widened]
  split at outcome
  · rename_i accepted
    obtain ⟨rfl, rfl, rfl⟩ : term = own ∧ start = low ∧ stop = high := by simpa using outcome
    obtain ⟨matched, sliced, made⟩ := bind_eq_ok.mp reported
    obtain rfl := Except.ok.inj made
    rw [if_pos accepted, sliced]
    rfl
  · cases outcome

/-- The loop examines a hit to what the reference says of it, and reports it alike. -/
theorem contributes_cases (contributed : contributes crates pass hit = .ok outcome) :
    examine crates pass hit = .ok none ∧ outcome = none ∨
      ∃ term low high m, pass.patterns[hit.pattern]? = some term ∧
        widenToSource pass.norm.offsetMap pass.text hit.start hit.stop = .ok (low, high) ∧
        examine crates pass hit = .ok (some (term, low, high)) ∧ report pass term low high = .ok m ∧ outcome = some m := by
  obtain ⟨term, selected, continued⟩ := bind_eq_ok.mp contributed
  obtain ⟨⟨low, high⟩, widened, continued⟩ := bind_eq_ok.mp continued
  have listed := index_ok.mp selected
  rw [examine_eq listed widened]
  dsimp only at continued
  split at continued
  · rename_i accepted
    obtain ⟨matched, sliced, made⟩ := bind_eq_ok.mp continued
    refine .inr ⟨term, low, high, _, listed, widened, by rw [if_pos accepted], ?_, (Except.ok.inj made).symm⟩
    rw [report, sliced]
    rfl
  · rename_i refused
    exact .inl ⟨by rw [if_neg refused], (Except.ok.inj continued).symm⟩

end

/-- A language's report depends on the terms its hits name, not on where those
are listed. -/
theorem fullHits_readings {pass : Pass}
    (same : hits.map (Hit.reading pass.patterns) = hits'.map (Hit.reading pass.patterns)) :
    fullHits crates pass hits = fullHits crates pass hits' := by
  induction hits generalizing hits' with
  | nil =>
    obtain rfl : hits' = [] := List.map_eq_nil_iff.mp same.symm
    rfl
  | cons hit hits ih =>
    obtain ⟨hit', rest, rfl, alike, later⟩ := List.map_eq_cons_iff.mp same.symm
    simp only [Hit.reading, Prod.mk.injEq] at alike
    obtain ⟨selected, starts, stops⟩ := alike
    rw [fullHits, fullHits, ih later.symm]
    simp only [contributes, index, selected, starts, stops]

/-- The hits of a concatenation contribute in order. -/
theorem fullHits_append {pass : Pass} (first : fullHits crates pass hits = .ok accepted)
    (second : fullHits crates pass hits' = .ok accepted') :
    fullHits crates pass (hits ++ hits') = .ok (accepted ++ accepted') := by
  induction hits generalizing accepted with
  | nil =>
    obtain rfl := Except.ok.inj first
    exact second
  | cons hit hits ih =>
    obtain ⟨own, rest, contributed, later, rfl⟩ := fullHits_cons.mp first
    exact fullHits_cons.mpr ⟨own, rest ++ accepted', contributed, ih later, (List.append_assoc ..).symm⟩

/-- Hits that contribute in one scan what others contribute in another, up to a
change of the match, make the other report up to that change. -/
theorem fullHits_map {pass pass' : Pass} (move : Hit → Hit) (change : Match → Match)
    (alike : ∀ hit ∈ hits, ∀ outcome, contributes crates pass hit = .ok outcome →
      contributes crates pass' (move hit) = .ok (outcome.map change))
    (reference : fullHits crates pass hits = .ok accepted) :
    fullHits crates pass' (hits.map move) = .ok (accepted.map change) := by
  induction hits generalizing accepted with
  | nil =>
    obtain rfl := Except.ok.inj reference
    rfl
  | cons hit hits ih =>
    obtain ⟨own, rest, contributed, later, rfl⟩ := fullHits_cons.mp reference
    have others := ih (fun other member => alike other (List.mem_cons_of_mem _ member)) later
    refine fullHits_cons.mpr ⟨_, _, alike hit (by simp) own contributed, others, ?_⟩
    rw [List.map_append, Option.toList_map]

/-- The inner loop appends the accepted hits until the cap, and reports whether
one more accepted hit was found after it. -/
theorem scanHits_capped (crates : Crates) (pass : Pass) (hits : List Hit) {accepted : List Match}
    (reference : fullHits crates pass hits = .ok accepted) (found : List Match)
    (room : found.length ≤ maxMatches) :
    scanHits crates pass hits found =
      .ok ((found ++ accepted).take maxMatches, decide (maxMatches < (found ++ accepted).length)) := by
  induction hits generalizing found accepted with
  | nil =>
    obtain rfl : [] = accepted := Except.ok.inj reference
    simp [scanHits, List.take_of_length_le room, room]
  | cons hit hits ih =>
    obtain ⟨first, rest, contributed, later, rfl⟩ := fullHits_cons.mp reference
    obtain ⟨examined, rfl⟩ | ⟨term, start, stop, entry, -, -, examined, sliced, rfl⟩ := contributes_cases contributed
    · rw [scanHits, examined]
      exact ih later found room
    · rw [scanHits, examined, Fallible.ok_bind]
      by_cases capped : found.length = maxMatches
      · simp [capped, pure, Except.pure]
      · simp only [capped, ↓reduceIte, sliced, Fallible.ok_bind]
        rw [ih later _ (by simp only [List.length_append, List.length_singleton]; omega)]
        simp

/-- The inner loop adds nothing but what its hits contribute. -/
theorem scanHits_members {crates : Crates} {pass : Pass} (hits : List Hit)
    (ran : scanHits crates pass hits found = .ok (out, capped)) (member : m ∈ out) :
    m ∈ found ∨ ∃ hit ∈ hits, contributes crates pass hit = .ok (some m) := by
  induction hits generalizing found with
  | nil =>
    obtain ⟨rfl, -⟩ := Prod.mk.inj (Except.ok.inj ran)
    exact .inl member
  | cons hit hits ih =>
    have later : ∀ found', scanHits crates pass hits found' = .ok (out, capped) →
        (m ∈ found' → m ∈ found ∨ contributes crates pass hit = .ok (some m)) →
        m ∈ found ∨ ∃ other ∈ hit :: hits, contributes crates pass other = .ok (some m) := by
      intro found' continued origin
      obtain known | ⟨other, among, contributed⟩ := ih continued
      · exact (origin known).imp_right fun contributed => ⟨hit, List.mem_cons_self, contributed⟩
      · exact .inr ⟨other, List.mem_cons_of_mem _ among, contributed⟩
    obtain ⟨outcome, examined, continued⟩ := bind_eq_ok.mp ran
    cases outcome with
    | none => exact later _ continued .inl
    | some kept =>
      obtain ⟨term, start, stop⟩ := kept
      dsimp only at continued
      split at continued
      · obtain ⟨rfl, -⟩ := Prod.mk.inj (Except.ok.inj continued)
        exact .inl member
      · obtain ⟨entry, reported, continued⟩ := bind_eq_ok.mp continued
        refine later _ continued fun among => ?_
        rw [List.mem_append, List.mem_singleton] at among
        refine among.imp_right fun same => ?_
        rw [same]
        exact contributes_kept examined reported

/-- A hit of a language the engine holds, examined and reported, gives this match. -/
def Contributed (crates : Crates) (engine : Engine) (text : Str) (norm : Normalized) (mode : Option Mode)
    (lang : Lang) (m : Match) : Prop :=
  ∃ ac patterns, engine.automata.lookup lang = some (ac, patterns) ∧ ∃ hit ∈ ac.findIter crates norm.text,
    contributes crates ⟨text, norm, lang, mode.getD (resolveDefaultMode lang), patterns⟩ hit = .ok (some m)

/-- The outer loop adds nothing but what the hits of its languages contribute. -/
theorem scanLangs_members {crates : Crates} {engine : Engine} {text : Str} {norm : Normalized}
    {mode : Option Mode} (langs : List Lang)
    (ran : scanLangs crates engine text norm mode langs used found = .ok result) (member : m ∈ result.found) :
    m ∈ found ∨ ∃ lang ∈ langs, Contributed crates engine text norm mode lang m := by
  induction langs generalizing used found with
  | nil =>
    obtain rfl := Except.ok.inj ran
    exact .inl member
  | cons lang langs ih =>
    rw [List.exists_mem_cons_iff]
    simp only [scanLangs] at ran
    cases held : engine.automata.lookup lang with
    | none =>
      rw [held] at ran
      exact (ih ran).imp_right .inr
    | some stored =>
      obtain ⟨ac, patterns⟩ := stored
      rw [held] at ran
      obtain ⟨⟨out, capped⟩, searched, continued⟩ := bind_eq_ok.mp ran
      have here : m ∈ out → m ∈ found ∨ Contributed crates engine text norm mode lang m := fun among =>
        (scanHits_members _ searched among).imp_right fun contributed => ⟨ac, patterns, held, contributed⟩
      cases capped with
      | true =>
        obtain rfl := Except.ok.inj continued
        exact (here member).imp_right .inl
      | false =>
        obtain known | later := ih continued
        · exact (here known).imp_right .inl
        · exact .inr (.inr later)

/-- Every match of a report was contributed by one of the requested languages. -/
theorem scan_members {crates : Crates} {engine : Engine} {text : Str} {norm : Normalized}
    {mode : Option Mode} {langs : List Lang} (accepted : normalize crates text = .ok norm)
    (ran : engine.scan crates text langs mode = .ok (.ok result)) (member : m ∈ result.found) :
    ∃ lang ∈ langs, Contributed crates engine text norm mode lang m := by
  rw [Engine.scan, accepted] at ran
  obtain ⟨own, walked, made⟩ := bind_eq_ok.mp ran
  obtain rfl := Except.ok.inj (Except.ok.inj made)
  exact (scanLangs_members langs walked member).resolve_left nofun

/-- The outer loop returns the capped concatenation of the contributions. -/
theorem scanLangs_capped (crates : Crates) (engine : Engine) (text : Str) (norm : Normalized)
    (mode : Option Mode) (langs : List Lang) {accepted : List Match}
    (reference : fullLangs crates engine text norm mode langs = .ok accepted)
    (modeUsed : List (Lang × Mode)) (found : List Match) (room : found.length ≤ maxMatches) :
    ∃ used, scanLangs crates engine text norm mode langs modeUsed found =
      .ok ⟨used, (found ++ accepted).take maxMatches,
        decide (maxMatches < (found ++ accepted).length)⟩ := by
  induction langs generalizing modeUsed found accepted with
  | nil =>
    obtain rfl : [] = accepted := Except.ok.inj reference
    exact ⟨modeUsed, by simp [scanLangs, List.take_of_length_le room, room]⟩
  | cons lang langs ih =>
    obtain ⟨first, rest, contributed, later, rfl⟩ := fullLangs_cons reference
    unfold full at contributed
    unfold scanLangs
    cases loaded : engine.automata.lookup lang with
    | none =>
      rw [loaded] at contributed
      obtain rfl : [] = first := Except.ok.inj contributed
      simpa using ih later _ found room
    | some held =>
      obtain ⟨ac, patterns⟩ := held
      rw [loaded] at contributed
      simp only [scanHits_capped crates _ _ contributed found room, Fallible.ok_bind]
      by_cases large : maxMatches < (found ++ first).length
      · refine ⟨modeUsed ++ [(lang, mode.getD (resolveDefaultMode lang))], ?_⟩
        simp only [large, decide_true, pure, Except.pure]
        rw [← List.append_assoc, List.take_append_of_le_length (Nat.le_of_lt large)]
        rw [decide_eq_true (show maxMatches < (found ++ first ++ rest).length by
          rw [List.length_append]; omega)]
      · simp only [large, decide_false]
        obtain ⟨used, ran⟩ := ih later (modeUsed ++ [(lang, mode.getD (resolveDefaultMode lang))])
          ((found ++ first).take maxMatches) (List.length_take_le _ _)
        rw [List.take_of_length_le (Nat.le_of_not_lt large), List.append_assoc] at ran
        exact ⟨used, by rw [List.take_of_length_le (Nat.le_of_not_lt large)]; exact ran⟩

/-- Each language contributes a fixed list, and the request concatenates them. -/
theorem fullLangs_eq_flatten {crates : Crates} {engine : Engine} {text : Str} {norm : Normalized}
    {mode : Option Mode} {langs : List Lang} {each : Lang → List Match}
    (contributions : ∀ lang ∈ langs, full crates engine text norm mode lang = .ok (each lang)) :
    fullLangs crates engine text norm mode langs = .ok (langs.flatMap each) := by
  induction langs with
  | nil => rfl
  | cons lang langs ih =>
    rw [fullLangs, contributions lang (by simp), Fallible.ok_bind,
      ih fun other member => contributions other (List.mem_cons_of_mem _ member)]
    rfl

end VocabVeto.ScanReference
