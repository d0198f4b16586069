import VocabVeto.Core.Scan

/-! Two scans that search the same normalized text run in lockstep. If every hit
meets the same verdict in both passes, the loops drop, report and stop together,
whatever spans they report. -/
namespace VocabVeto.ScanLockstep
open LeftmostLongest

/-- The languages and terms of a report, in order. -/
def labels (found : List Match) : List (Lang × Str) := found.map fun m => (m.lang, m.term)

theorem length_labels (found : List Match) : (labels found).length = found.length := List.length_map _

/-- Whatever the first pass does with this hit, the second does too. -/
structure Follows (crates : Crates) (first second : Pass) (hit : Hit) : Prop where
  dropped : examine crates first hit = .ok none → examine crates second hit = .ok none
  kept : ∀ term low high, examine crates first hit = .ok (some (term, low, high)) →
    ∃ low' high' matchedText, examine crates second hit = .ok (some (term, low', high')) ∧
      Str.slice second.text low' high' = .ok matchedText

/-- Two results that report the same terms and stop for the same reason. -/
structure SameReport (first second : ScanResult) : Prop where
  modes : first.modeUsed = second.modeUsed
  terms : labels first.found = labels second.found
  truncated : first.truncated = second.truncated

theorem SameReport.found_nil (same : SameReport first second) : first.found = [] ↔ second.found = [] := by
  rw [← List.length_eq_zero_iff, ← List.length_eq_zero_iff, ← length_labels, same.terms, length_labels]

section
variable {crates : Crates}

theorem scanHits_lockstep {first second : Pass} (sameLang : first.lang = second.lang) (hits : List Hit)
    (follows : ∀ hit ∈ hits, Follows crates first second hit)
    (ran : scanHits crates first hits found = .ok (out, capped)) (same : labels found = labels found') :
    ∃ out', scanHits crates second hits found' = .ok (out', capped) ∧ labels out = labels out' := by
  induction hits generalizing found found' with
  | nil =>
    obtain ⟨rfl, rfl⟩ := Prod.mk.inj (Except.ok.inj ran)
    exact ⟨found', rfl, same⟩
  | cons hit hits ih =>
    have later : ∀ other ∈ hits, Follows crates first second other := fun other member =>
      follows other (List.mem_cons_of_mem _ member)
    have verdict := follows hit List.mem_cons_self
    have counted : found.length = found'.length := by
      rw [← length_labels found, same, length_labels]
    obtain ⟨outcome, examined, continued⟩ := bind_eq_ok.mp ran
    cases outcome with
    | none =>
      obtain ⟨out', ran', same'⟩ := ih later continued same
      exact ⟨out', by rw [scanHits, verdict.dropped examined]; exact ran', same'⟩
    | some kept =>
      obtain ⟨term, low, high⟩ := kept
      obtain ⟨low', high', matchedText, examined', sliced⟩ := verdict.kept term low high examined
      rw [scanHits, examined']
      simp only [Fallible.ok_bind, ← counted]
      dsimp only at continued
      by_cases full : found.length = maxMatches
      · rw [if_pos full] at continued ⊢
        obtain ⟨rfl, rfl⟩ := Prod.mk.inj (Except.ok.inj continued)
        exact ⟨found', rfl, same⟩
      · rw [if_neg full] at continued ⊢
        obtain ⟨entry, reported, rest⟩ := bind_eq_ok.mp continued
        obtain ⟨spelled, _, made⟩ := bind_eq_ok.mp reported
        obtain rfl := Except.ok.inj made
        simp only [report, sliced, Fallible.ok_bind]
        exact ih later rest (by simpa [labels, sameLang] using same)

theorem scanLangs_lockstep {engine : Engine} {text text' : Str} {norm norm' : Normalized}
    {mode : Option Mode} (sameText : norm.text = norm'.text) (langs : List Lang)
    (follows : ∀ lang ∈ langs, ∀ ac patterns, engine.automata.lookup lang = some (ac, patterns) →
      ∀ hit ∈ ac.findIter crates norm.text, Follows crates
        ⟨text, norm, lang, mode.getD (resolveDefaultMode lang), patterns⟩
        ⟨text', norm', lang, mode.getD (resolveDefaultMode lang), patterns⟩ hit)
    (ran : scanLangs crates engine text norm mode langs modeUsed found = .ok result)
    (same : labels found = labels found') :
    ∃ result', scanLangs crates engine text' norm' mode langs modeUsed found' = .ok result' ∧
      SameReport result result' := by
  induction langs generalizing modeUsed found found' with
  | nil =>
    obtain rfl := Except.ok.inj ran
    exact ⟨_, rfl, rfl, same, rfl⟩
  | cons lang langs ih =>
    have later := fun other member => follows other (List.mem_cons_of_mem lang member)
    simp only [scanLangs] at ran ⊢
    cases held : engine.automata.lookup lang with
    | none =>
      rw [held] at ran
      exact ih later ran same
    | some stored =>
      obtain ⟨ac, patterns⟩ := stored
      rw [held] at ran
      obtain ⟨⟨out, capped⟩, searched, continued⟩ := bind_eq_ok.mp ran
      obtain ⟨out', searched', same'⟩ := scanHits_lockstep (by rfl) _
        (follows lang List.mem_cons_self ac patterns held) searched same
      simp only [← sameText, searched', Fallible.ok_bind]
      cases capped with
      | true =>
        obtain rfl := Except.ok.inj continued
        exact ⟨_, rfl, rfl, same', rfl⟩
      | false => exact ih later continued same'

/-- Two texts with the same normalized form, whose hits meet the same verdicts,
have the same report. -/
theorem scan_lockstep {engine : Engine} {text text' : Str} {norm norm' : Normalized}
    {mode : Option Mode} {langs : List Lang} (accepted : normalize crates text = .ok norm)
    (accepted' : normalize crates text' = .ok norm') (sameText : norm.text = norm'.text)
    (follows : ∀ lang ∈ langs, ∀ ac patterns, engine.automata.lookup lang = some (ac, patterns) →
      ∀ hit ∈ ac.findIter crates norm.text, Follows crates
        ⟨text, norm, lang, mode.getD (resolveDefaultMode lang), patterns⟩
        ⟨text', norm', lang, mode.getD (resolveDefaultMode lang), patterns⟩ hit)
    (ran : engine.scan crates text langs mode = .ok (.ok result)) :
    ∃ result', engine.scan crates text' langs mode = .ok (.ok result') ∧ SameReport result result' := by
  rw [Engine.scan, accepted] at ran
  obtain ⟨result, searched, made⟩ := bind_eq_ok.mp ran
  obtain rfl := Except.ok.inj (Except.ok.inj made)
  obtain ⟨result', searched', same⟩ := scanLangs_lockstep sameText langs follows searched rfl
  refine ⟨result', ?_, same⟩
  simp only [Engine.scan, accepted', searched', Fallible.ok_bind]
  rfl

end

end VocabVeto.ScanLockstep
