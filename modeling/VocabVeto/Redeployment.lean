import VocabVeto.Deployment
import VocabVeto.Parity

/-! Deploying again. A server is a function of the words of its files and of its
settings: two servers with the same words cannot be told apart, whatever their
files look like otherwise and wherever their settings came from. And a list only
gains by growing: what a report marked before, a later one still marks. -/
namespace VocabVeto.Redeployment
open Build BuildProofs Deployment Runs Service ServiceAnswers ServiceMetrics ServiceProofs SpanProofs Tasks TermsProofs

/-! ### The same words -/

/-- Two states that hold the same automata under the same settings. -/
structure Alike (first second : ServerState) : Prop where
  automata : ∀ lang, first.engine.automata.lookup lang = second.engine.automata.lookup lang
  listVersion : first.listVersion = second.listVersion
  apiKeys : first.apiKeys = second.apiKeys
  maxInflight : first.maxInflight = second.maxInflight
  metrics : first.metrics = second.metrics

section
variable {crates : Crates} {http : HttpCrates} {fromSlice : FromSlice} {first second : ServerState}

theorem languages_alike (alike : Alike first second) : first.engine.languages.Perm second.engine.languages :=
  keys_perm fun lang => by rw [alike.automata]

theorem requested_alike (alike : Alike first second) (langs : Option (List Str)) :
    Check.scanLangs first.engine langs = Check.scanLangs second.engine langs := by
  have known : first.engine.hasLanguage = second.engine.hasLanguage := by
    funext lang
    rw [Engine.hasLanguage, alike.automata, Engine.hasLanguage]
  cases langs with
  | none => rw [Check.scanLangs, Check.scanLangs, sort_perm (languages_alike alike)]
  | some v => simp only [Check.scanLangs, Check.requestedLangs, known]

theorem scan_alike (alike : Alike first second) (text : Str) (langs : List Lang) (mode : Option Mode) :
    Service.scan crates first.engine text langs mode = Service.scan crates second.engine text langs mode := by
  have walk : ∀ norm modeUsed found, Service.scanLangs crates first.engine text norm mode langs modeUsed found =
      Service.scanLangs crates second.engine text norm mode langs modeUsed found := by
    intro norm
    induction langs with
    | nil => exact fun _ _ => rfl
    | cons lang langs ih =>
      intro modeUsed found
      simp only [Service.scanLangs, alike.automata, ih]
  simp only [Service.scan, walk]

theorem check_alike (alike : Alike first second) (body : Except AxumError (List UInt8)) :
    Service.check crates fromSlice first.toAppState body = Service.check crates fromSlice second.toAppState body := by
  have parsed : ∀ request, checkRequest crates first.toAppState request = checkRequest crates second.toAppState request := by
    intro request
    simp only [checkRequest, requested_alike alike, scan_alike alike, alike.listVersion]
  cases body with
  | error e => rfl
  | ok bytes => simp only [Service.check, checkBody, parsed]

/-- Their routers are one program. -/
theorem router_alike (alike : Alike first second) (request : HttpRequest) :
    router crates http fromSlice first request = router crates http fromSlice second request := by
  have listed : Service.languages first.engine = Service.languages second.engine := by
    rw [Service.languages, sort_perm (languages_alike alike), Service.languages]
  have ready : readyz first.toAppState = readyz second.toAppState := by
    simp only [readyz, alike.listVersion, (languages_alike alike).length_eq]
  simp only [router, route, v1, check_alike alike, listed, ready, alike.listVersion, alike.apiKeys, alike.maxInflight,
    alike.metrics]

theorem system_alike (alike : Alike first second) :
    system crates http fromSlice first = system crates http fromSlice second := by
  simp only [system, funext (router_alike alike)]

end

theorem wordsOf_same (same : ∀ word, IsWord file word ↔ IsWord file' word) : wordsOf file = wordsOf file' :=
  words_unique ⟨(wordsOf_exact file).ascending, fun word => ((wordsOf_exact file).exact word).trans (same word)⟩
    (wordsOf_exact file')

theorem automata_of_holds (holds : Holds files version state loaded) (lang : Lang) :
    state.engine.automata.lookup lang =
      if lang ∈ loaded then some (AhoCorasick.build (wordsOf (files lang)), wordsOf (files lang)) else none := by
  have own := holds.terms lang
  rw [Engine.terms] at own
  cases held : state.engine.automata.lookup lang with
  | none =>
    rw [held] at own
    split
    · rename_i member
      rw [if_pos member] at own
      cases own
    · rfl
  | some entry =>
    obtain ⟨ac, patterns⟩ := entry
    rw [held, Option.map_some] at own
    split
    · rename_i member
      rw [if_pos member] at own
      obtain rfl := Option.some.inj own
      rw [state.engine.built lang ac _ held]
    · rename_i other
      rw [if_neg other] at own
      cases own

/-- Two servers of one version that hold the same words, for the same languages and
under the same settings, cannot be told apart: whatever is asked of them and in
whatever order they work on it, what one does the other does. The files may differ
in the order of their lines, in repeated and blank ones and in the blanks around
words, and the hash maps may list their entries in any order. -/
theorem words_decide {crates : Crates} {http : HttpCrates} {fromSlice : FromSlice}
    (holds : Holds files version state loaded) (holds' : Holds files' version state' loaded')
    (languages : loaded.Perm loaded')
    (words : ∀ lang ∈ loaded, ∀ word, IsWord (files lang) word ↔ IsWord (files' lang) word)
    (apiKeys : state.apiKeys = state'.apiKeys) (maxInflight : state.maxInflight = state'.maxInflight)
    (metrics : state.metrics = state'.metrics) :
    Serves crates http fromSlice state loaded log pool ↔ Serves crates http fromSlice state' loaded' log pool := by
  have versions : state.listVersion = state'.listVersion := holds.version.trans holds'.version.symm
  have alike : Alike state state' := by
    refine ⟨fun lang => ?_, versions, apiKeys, maxInflight, metrics⟩
    rw [automata_of_holds holds, automata_of_holds holds', if_congr languages.mem_iff.symm rfl rfl]
    split
    · rename_i member
      rw [wordsOf_same (words lang member)]
    · rfl
  have starts : startup state loaded = startup state' loaded' := by
    rw [startup, startup, versions, maxInflight, languages.length_eq]
  rw [Serves, Serves, system_alike alike, starts]

/-- A server of these languages, in this order of its map. -/
def holding (files : Lang → Str) (codes : List Lang) : ServerState :=
  { narrow with engine := Engine.new (codes.map fun code => ⟨code, wordsOf (files code)⟩).toAList }

theorem holding_holds (compiled : ∀ lang ∈ codes, lang ∈ allowlist) :
    Holds files "1f".toList (holding files codes) codes := by
  have held : ∀ lang, (codes.map fun code => (⟨code, wordsOf (files code)⟩ : Sigma fun _ : Lang => List Str)).toAList.lookup
      lang = if lang ∈ codes then some (wordsOf (files lang)) else none := fun lang =>
    (AList.lookup_to_alist _).trans (dlookup_map (fun code => wordsOf (files code)) codes lang)
  exact ⟨rfl, compiled, terms_of_patterns held, languages_of_patterns held⟩

/-- Two files of the same words. -/
def tidy : Str := "bar\nfoo\n".toList

def untidy : Str := "\n foo \r\nbar\nfoo".toList

/-- A server answers as one does whose files and whose map are in another order. -/
theorem words_decide_shuffled : ∃ log pool, (answers pool).map (fun answer => answer.2.body) =
      [.languages [⟨"de".toList, "strict".toList⟩, ⟨"ja".toList, "substring".toList⟩]] ∧
    Serves AsciiCrates.crates AsciiCrates.http unparsed (holding (fun _ => untidy) ["ja".toList, "de".toList])
      ["ja".toList, "de".toList] log pool := by
  have same : wordsOf tidy = wordsOf untidy := by decide
  have words : ∀ word, IsWord tidy word ↔ IsWord untidy word := fun word =>
    ((wordsOf_exact tidy).exact word).symm.trans (same ▸ (wordsOf_exact untidy).exact word)
  have played : (play (system AsciiCrates.crates AsciiCrates.http unparsed (holding (fun _ => tidy)
      ["de".toList, "ja".toList])).step ⟨startup (holding (fun _ => tidy) ["de".toList, "ja".toList])
      ["de".toList, "ja".toList], []⟩ [.spawn listing, .advance 0, .advance 0]).map
        (fun reached => (answers reached.2).map fun answer => answer.2.body) =
      some [.languages [⟨"de".toList, "strict".toList⟩, ⟨"ja".toList, "substring".toList⟩]] := by decide +kernel
  obtain ⟨⟨log, pool⟩, ran, answered⟩ := Option.map_eq_some_iff.mp played
  have alike : Serves AsciiCrates.crates AsciiCrates.http unparsed (holding (fun _ => tidy) ["de".toList, "ja".toList])
      ["de".toList, "ja".toList] log pool ↔ Serves AsciiCrates.crates AsciiCrates.http unparsed
        (holding (fun _ => untidy) ["ja".toList, "de".toList]) ["ja".toList, "de".toList] log pool :=
    words_decide (holding_holds (by decide)) (holding_holds (by decide)) (.swap ..) (fun _ _ => words) rfl rfl rfl
  exact ⟨log, pool, answered, alike.mp (run_of_play ran)⟩

/-! ### More words -/

/-- The second server has all the languages and words of the first. -/
structure Grown (files files' : Lang → Str) (loaded loaded' : List Lang) : Prop where
  languages : loaded ⊆ loaded'
  words : ∀ lang ∈ loaded, ∀ word, IsWord (files lang) word → IsWord (files' lang) word

section
variable {crates : Crates} {files files' : Lang → Str} {state state' : ServerState} {loaded loaded' : List Lang}

theorem scanned_grown (grown : loaded ⊆ loaded') (call : CheckRequest) : scanned loaded call ⊆ scanned loaded' call := by
  unfold scanned
  cases call.langs with
  | none => exact grown
  | some v => exact List.Subset.refl _

theorem lowerKnown_grown {known known' : Lang → Bool} (more : ∀ lang, known lang = true → known' lang = true)
    (made : lowerKnown known refuse list out = .ok langs) : lowerKnown known' refuse list out = .ok langs := by
  induction list generalizing out with
  | nil => exact made
  | cons raw list ih =>
    simp only [lowerKnown] at made ⊢
    split at made
    · cases made
    · rename_i passed
      rw [Bool.not_eq_true, Bool.not_eq_false'] at passed
      rw [more _ passed]
      exact ih made

theorem requested_grown (holds : Holds files version state loaded) (holds' : Holds files' version' state' loaded')
    (languages : loaded ⊆ loaded') (requested : Check.scanLangs state.engine langs = .ok asked) :
    ∃ asked', Check.scanLangs state'.engine langs = .ok asked' := by
  have more : ∀ lang, state.engine.hasLanguage lang = true → state'.engine.hasLanguage lang = true := by
    intro lang known
    have held := (holds.languages lang).mp (AList.mem_keys.mp (AList.lookup_isSome.mp known))
    exact AList.lookup_isSome.mpr (AList.mem_keys.mpr ((holds'.languages lang).mpr (languages held)))
  cases langs with
  | none => exact ⟨_, rfl⟩
  | some v =>
    rw [Check.scanLangs] at requested ⊢
    split at requested
    · cases requested
    · rename_i filled
      rw [if_neg filled]
      exact ⟨asked, lowerKnown_grown more requested⟩

/-- A body that the first server answers with a report is answered with one by the second. -/
theorem check_grown (folds : crates.FoldsNonempty) (leftmost : crates.FindsLeftmostLongest)
    (holds : Holds files version state loaded) (holds' : Holds files' version' state' loaded')
    (languages : loaded ⊆ loaded') {report : CheckResponse}
    (made : Check.check crates fromSlice state.toAppState bytes = .ok (.ok report)) :
    ∃ report', Check.check crates fromSlice state'.toAppState bytes = .ok (.ok report') := by
  obtain ⟨call, mode, langs, result, parsed, filled, resolved, listed, ran, rfl⟩ := check_ok.mp made
  obtain ⟨langs', listed'⟩ := requested_grown holds holds' languages listed
  have nonempty := terms_nonempty holds'
  obtain ⟨each, -, used, ran'⟩ := scan_eq folds nonempty (soundOn_of_leftmost leftmost nonempty call.text) (scan_fits ran)
    langs' mode
  exact ⟨_, check_ok.mpr ⟨call, mode, langs', _, parsed, filled, resolved, listed', ran', rfl⟩⟩

/-- A match of a language scanned by substring is overlapped in every whole report
of a server with more words. -/
theorem marked_again {report report' : CheckResponse} (grown : Grown files files' loaded loaded')
    (traceable : Traceable crates files version loaded call report)
    (traceable' : Traceable crates files' version' loaded' call report') (whole : report'.truncated = false)
    (member : m ∈ report.found) (substring : BySubstring call m.lang) :
    ∃ m' ∈ report'.found, m'.lang = m.lang ∧ m'.start < m.stop ∧ m.start < m'.stop := by
  obtain ⟨asked, word, -, sliced, spelled⟩ := traceable.traced m member
  obtain ⟨before, after, cut, starts, stops⟩ := Str.slice_ok sliced
  have again := grown.words m.lang (traceable.served m.lang asked) m.term word
  obtain ⟨m', found, same, low, high⟩ := traceable'.complete whole m.lang (scanned_grown grown.languages call asked)
    substring m.term again before m.matchedText after cut spelled
  exact ⟨m', found, same, by omega, by omega⟩

end

/-- The list only gains by growing. A call that one server answers with a report is
answered with one by every server that has its languages and words and more,
unless that turns it away; and where a language is scanned by substring, what the
first report marked is marked in the second one, if that was not cut off. -/
theorem marks_survive {crates : Crates} {http : HttpCrates} (folds : crates.FoldsNonempty)
    (leftmost : crates.FindsLeftmostLongest) (limits : http.LimitsBodies)
    (holds : Holds files version state loaded) (holds' : Holds files' version' state' loaded')
    (grown : Grown files files' loaded loaded')
    (run : Serves crates http fromSlice state loaded log pool) (run' : Serves crates http fromSlice state' loaded' log' pool')
    (calls : Calls state request) (calls' : Calls state' request)
    (given : (request, resp) ∈ answers pool) (given' : (request, resp') ∈ answers pool')
    (success : resp.status = 200) (entered : resp'.status ≠ 503) :
    ∃ call report report', fromSlice request.body = .ok call ∧ resp.body = .check report ∧
      resp'.status = 200 ∧ resp'.body = .check report' ∧ (report'.truncated = false →
        ∀ m ∈ report.found, BySubstring call m.lang →
          ∃ m' ∈ report'.found, m'.lang = m.lang ∧ m'.start < m.stop ∧ m.start < m'.stop) := by
  have made := call_answer limits run calls given (by rw [success]; decide)
  have made' := call_answer limits run' calls' given' entered
  obtain ⟨small, report, checked, rfl⟩ := rendered_report made success
  obtain ⟨report', checked'⟩ := check_grown folds leftmost holds holds' grown.languages checked
  obtain ⟨call, parsed, traceable⟩ := report_traceable folds leftmost holds checked
  obtain ⟨again, parsed', traceable'⟩ := report_traceable folds leftmost holds' checked'
  obtain rfl := Except.ok.inj (parsed'.symm.trans parsed)
  obtain ⟨large, -⟩ | ⟨-, outcome, own, rfl⟩ := rendered_outcome made'
  · exact absurd large (Nat.not_lt.mpr small)
  · obtain rfl := Except.ok.inj (checked'.symm.trans own)
    exact ⟨again, report, report', parsed, rfl, rfl, rfl, fun whole m member substring =>
      marked_again grown traceable traceable' whole member substring⟩

/-- A file with one word more, which hides the other one in some texts. -/
def richer : Str := "oh f\nfoo\n".toList

/-- The word `foo` is no longer reported, but the stretch it was found in is still marked. -/
theorem marks_survive_richer :
    ∃ m' ∈ [(⟨"en".toList, "oh f".toList, "oh F".toList, 0, 4⟩ : MatchDto)], m'.lang = "en".toList ∧
      m'.start < 6 ∧ 3 < m'.stop := by
  obtain ⟨log, pool, run, answered⟩ := narrow_greeted
  have played : (play (system AsciiCrates.crates AsciiCrates.http greeting (holding (fun _ => richer) ["en".toList])).step
      ⟨startup (holding (fun _ => richer) ["en".toList]) ["en".toList], []⟩
      (.spawn keyed :: List.replicate 8 (.advance 0))).map (fun reached => answers reached.2) =
    some [(keyed, rendered narrow (.ok ⟨"1f".toList, [("en".toList, "substring".toList)],
      [⟨"en".toList, "oh f".toList, "oh F".toList, 0, 4⟩], false⟩))] := by decide +kernel
  obtain ⟨log', pool', run', answered'⟩ := serves_of_play played
  have holds : Holds (fun _ => "foo\n".toList) "1f".toList narrow ["en".toList] :=
    deployed_holds (narrow_deployed (by decide))
  have words : wordsOf "foo\n".toList = ["foo".toList] ∧ "foo".toList ∈ wordsOf richer := by decide
  have grown : Grown (fun _ => "foo\n".toList) (fun _ => richer) ["en".toList] ["en".toList] := by
    refine ⟨List.Subset.refl _, fun _ _ word isWord => ((wordsOf_exact richer).exact word).mp ?_⟩
    have listed := ((wordsOf_exact "foo\n".toList).exact word).mpr isWord
    rw [words.1, List.mem_singleton] at listed
    exact listed ▸ words.2
  have calls : Calls (holding (fun _ => richer) ["en".toList]) keyed := ⟨rfl, rfl, ⟨_, rfl⟩, nofun, rfl⟩
  obtain ⟨call, report, report', parsed, first, -, second, marked⟩ :=
    marks_survive AsciiCrates.foldsNonempty AsciiCrates.findsLeftmostLongest AsciiCrates.http_limitsBodies holds
      (holding_holds (by decide)) grown run run' (narrow_calls []) calls
      (answered ▸ List.mem_singleton_self _) (answered' ▸ List.mem_singleton_self _) rfl (by decide)
  cases parsed
  cases first
  cases second
  exact marked rfl _ (List.mem_singleton_self _) (.inl rfl)

end VocabVeto.Redeployment
