import VocabVeto.Core.Terms

/-! The steps by which the build makes term lists of lines, and what a server
started on the lists holds: every compiled language. -/
namespace VocabVeto.TermsProofs

/-- No whitespace at either end. -/
def Trimmed (s : Str) : Prop :=
  (∀ c ∈ s.head?, isWhitespace c = false) ∧ ∀ c ∈ s.getLast?, isWhitespace c = false

theorem lines_no_newline (current text : Str) (clean : '\n' ∉ current) :
    ∀ line ∈ linesFrom current text, '\n' ∉ line := by
  induction text generalizing current with
  | nil =>
    intro line member
    simp only [linesFrom] at member
    split at member
    · cases member
    · rwa [List.mem_singleton.mp member]
  | cons c text ih =>
    simp only [linesFrom]
    split
    · rintro line (_ | ⟨_, member⟩)
      · unfold stripReturn
        split
        · exact fun among => clean (List.mem_of_mem_dropLast among)
        · exact clean
      · exact ih [] (by simp) line member
    · rename_i other
      exact ih (current ++ [c]) (by simp [clean, Ne.symm other])

theorem trim_within (text : Str) : trim text <:+: text :=
  (List.rdropWhile_prefix _ _).isInfix.trans (List.dropWhile_suffix _).isInfix

theorem trim_trimmed (text : Str) : Trimmed (trim text) := by
  constructor
  · intro c first
    obtain ⟨rest, spelled⟩ := List.rdropWhile_prefix isWhitespace (text.dropWhile isWhitespace)
    have head : (text.dropWhile isWhitespace).head? = some c := by
      rw [← spelled, List.head?_append]
      exact Option.or_eq_some_iff.mpr (.inl first)
    have stopped := List.head?_dropWhile_not isWhitespace text
    rwa [head] at stopped
  · intro c last
    have filled : trim text ≠ [] := by
      intro empty
      rw [empty] at last
      cases last
    have stopped := List.rdropWhile_last_not isWhitespace (text.dropWhile isWhitespace) filled
    rw [← Option.some.inj ((List.getLast?_eq_some_getLast filled).symm.trans last)]
    exact Bool.eq_false_of_not_eq_true stopped

theorem mem_dedup {v : List Str} : s ∈ dedup v ↔ s ∈ v := by
  induction v using dedup.induct with
  | case1 => rfl
  | case2 => rfl
  | case3 t v ih =>
    rw [dedup, if_pos rfl, ih]
    simp
  | case4 s t v differ ih =>
    rw [dedup, if_neg differ, List.mem_cons, List.mem_cons, ih]

/-- After sorting, `dedup` leaves each string once, in ascending order. -/
theorem dedup_sorted {v : List Str} (sorted : v.Pairwise (· ≤ ·)) : (dedup v).Pairwise (· < ·) := by
  induction v using dedup.induct with
  | case1 => exact .nil
  | case2 s => exact List.pairwise_singleton _ _
  | case3 t v ih =>
    rw [dedup, if_pos rfl]
    exact ih sorted.of_cons
  | case4 s t v differ ih =>
    rw [dedup, if_neg differ]
    apply List.Pairwise.cons _ (ih sorted.of_cons)
    intro u member
    obtain ⟨least, rest⟩ := List.pairwise_cons.mp sorted
    have first : s < t := lt_of_le_of_ne (least t List.mem_cons_self) differ
    rcases List.mem_cons.mp (mem_dedup.mp member) with rfl | later
    · exact first
    · exact lt_of_lt_of_le first ((List.pairwise_cons.mp rest).1 u later)

/-! ### The engine of a server -/

/-- The engine holds exactly the languages of the table, with their terms. -/
def LoadsAll (terms : HashMap Lang (List Str)) (engine : Engine) : Prop :=
  ∀ lang, engine.automata.lookup lang =
    (terms.lookup lang).map fun patterns => (AhoCorasick.build patterns, patterns)

theorem new_loadsAll {terms patterns : HashMap Lang (List Str)}
    (same : ∀ lang, patterns.lookup lang = terms.lookup lang) : LoadsAll terms (Engine.new patterns) := by
  intro lang
  rw [Engine.new, lookup_buildAutomata, same]

theorem gatherPatterns_ok {terms : HashMap Lang (List Str)} (loaded : List Lang)
    (compiled : ∀ lang ∈ loaded, lang ∈ terms) (acc : HashMap Lang (List Str)) :
    ∃ patterns, gatherPatterns terms loaded acc = .ok patterns ∧ ∀ lang,
      patterns.lookup lang = if lang ∈ loaded then terms.lookup lang else acc.lookup lang := by
  induction loaded generalizing acc with
  | nil => exact ⟨acc, rfl, fun lang => by simp⟩
  | cons code loaded ih =>
    obtain ⟨list, held⟩ := Option.isSome_iff_exists.mp
      (AList.lookup_isSome.mpr (compiled code List.mem_cons_self))
    obtain ⟨patterns, gathered, lookups⟩ :=
      ih (fun lang member => compiled lang (List.mem_cons_of_mem _ member)) (acc.insert code list)
    refine ⟨patterns, by rw [gatherPatterns, held]; exact gathered, fun lang => ?_⟩
    rw [lookups]
    by_cases same : lang = code
    · subst same
      simp [held, AList.lookup_insert]
    · simp [same, AList.lookup_insert_ne same]

/-- With `VV_LANGS` unset the server starts, holding every compiled language. -/
theorem startEngine_loadsAll (terms : HashMap Lang (List Str)) :
    ∃ engine, startEngine terms none = .ok (.ok engine) ∧ LoadsAll terms engine := by
  have compiled : ∀ lang ∈ compiledLangs terms, lang ∈ terms := fun lang member =>
    AList.mem_keys.mpr (mem_sort.mp member)
  obtain ⟨patterns, gathered, lookups⟩ := gatherPatterns_ok (compiledLangs terms) compiled ∅
  refine ⟨Engine.new patterns, ?_, new_loadsAll fun lang => ?_⟩
  · simp only [startEngine, resolveLoadedLangs, gathered, Fallible.ok_bind]
    rfl
  · rw [lookups]
    by_cases held : lang ∈ compiledLangs terms
    · rw [if_pos held]
    · rw [if_neg held, AList.lookup_empty]
      exact (AList.lookup_eq_none.mpr fun among => held (mem_sort.mpr (AList.mem_keys.mp among))).symm

end VocabVeto.TermsProofs
