import VocabVeto.Deployment
import VocabVeto.NewlineSplit

/-! Checking a document in pieces. A client may cut a text at a newline and send
the two sides as calls of their own: the matches it gets back, put together
language by language, are those it would get for the whole. -/
namespace VocabVeto.Chunks
open BuildProofs Deployment NewlineSplit Runs Service ServiceAnswers ServiceMetrics ServiceProofs SpanProofs Tasks
  TermsProofs

/-- Two requests for the sides of a newline in the text of a third, alike otherwise. -/
structure Cut (first second whole : CheckRequest) : Prop where
  text : whole.text = first.text ++ '\n' :: second.text
  filled : first.text ≠ [] ∧ second.text ≠ []
  ending : first.text.getLast? ≠ some '\r'
  langs : first.langs = whole.langs ∧ second.langs = whole.langs
  mode : first.mode = whole.mode ∧ second.mode = whole.mode

/-- A call whose body parses to this request, and is not too large, was let through
the gate and answered so. -/
def Answered (fromSlice : FromSlice) (state : ServerState) (pool : Requests) (call : CheckRequest)
    (resp : Response) : Prop :=
  ∃ request, Calls state request ∧ request.body.length ≤ Check.rawBodyLimitBytes ∧
    fromSlice request.body = .ok call ∧ (request, resp) ∈ answers pool ∧ resp.status ≠ 503

/-- What the languages report on the pieces, and how that makes up three reports. -/
structure Pieces (asked : List Lang) (offset : Nat) (onA onB : Lang → List Match)
    (partA partB report : CheckResponse) : Prop where
  own : ∀ lang, ∀ m ∈ onA lang ++ onB lang, m.lang = lang
  first : partA.found = matchDtos (asked.flatMap onA) ∧ partA.truncated = false
  second : partB.found = matchDtos (asked.flatMap onB) ∧ partB.truncated = false
  whole : report.found = matchDtos (asked.flatMap fun lang => onA lang ++ (onB lang).map (moved offset))

/-- The build cuts its lists into lines, so no word of a server spans two. -/
theorem singleLine_of_holds (holds : Holds files version state loaded) : SingleLine state.engine := by
  intro lang terms held word member
  rw [holds.terms] at held
  split at held
  · obtain rfl := Option.some.inj held
    obtain ⟨-, line, among, rfl⟩ := ((wordsOf_exact (files lang)).exact word).mp member
    exact fun newline => lines_no_newline [] (files lang) List.not_mem_nil line among ((trim_within line).subset newline)
  · cases held

section
variable {crates : Crates} {http : HttpCrates} {fromSlice : FromSlice} {state : ServerState}

/-- An answered call was answered with the outcome of its check. -/
theorem check_of_answered (limits : http.LimitsBodies) (run : Serves crates http fromSlice state loaded log pool)
    (answered : Answered fromSlice state pool call resp) :
    ∃ bytes outcome, fromSlice bytes = .ok call ∧ Check.check crates fromSlice state.toAppState bytes = .ok outcome ∧
      resp = rendered state outcome := by
  obtain ⟨request, calls, small, parsed, given, entered⟩ := answered
  obtain ⟨large, -⟩ | ⟨-, outcome, checked, made⟩ := rendered_outcome (call_answer limits run calls given entered)
  · exact absurd large (Nat.not_lt.mpr small)
  · exact ⟨request.body, outcome, parsed, checked, made⟩

/-- A call is answered with the report that its scan makes. -/
theorem answered_report (limits : http.LimitsBodies) (run : Serves crates http fromSlice state loaded log pool)
    (answered : Answered fromSlice state pool call resp) (filled : call.text ≠ [])
    (resolved : Check.resolveMode call.mode = .ok mode) (listed : Check.scanLangs state.engine call.langs = .ok langs)
    (ran : state.engine.scan crates call.text langs mode = .ok (.ok result)) :
    resp = rendered state
      (.ok ⟨state.listVersion, modeUsedMap result.modeUsed, matchDtos result.found, result.truncated⟩) := by
  obtain ⟨bytes, outcome, parsed, checked, rfl⟩ := check_of_answered limits run answered
  have made := check_ok.mpr ⟨call, mode, langs, result, parsed, filled, resolved, listed, ran, rfl⟩
  rw [Except.ok.inj (checked.symm.trans made)]

theorem group_own {engine : Engine} (nonempty : engine.TermsNonempty) (sound : SoundOn crates engine text)
    (groups : GroupsOf crates engine text langs mode each) : ∀ m ∈ each lang, m.lang = lang := by
  intro m member
  obtain ⟨accepted, defined, members⟩ := full_defined nonempty sound mode lang
  obtain rfl := Except.ok.inj ((groups.defined lang).symm.trans defined)
  obtain ⟨_, _, _, _, _, _, _, _, _, _, rfl⟩ := (members m).mp member
  rfl

end

/-- A client that cuts a document at a newline loses nothing: if the whole of it
is answered with a report that was not cut off, so are the pieces, and their
matches are, language by language, the ones of the whole. -/
theorem pieces_suffice {crates : Crates} {http : HttpCrates} {report : CheckResponse} (folds : crates.FoldsNonempty)
    (leftmost : crates.FindsLeftmostLongest) (newline : crates.fold '\n' = ['\n']) (breaks : crates.BreaksAtNewline)
    (limits : http.LimitsBodies) (holds : Holds files version state loaded)
    (run : Serves crates http fromSlice state loaded log pool) (cut : Cut first second whole)
    (one : Answered fromSlice state pool first resp) (two : Answered fromSlice state pool second resp')
    (joined : Answered fromSlice state pool whole answer) (reported : answer.body = .check report)
    (uncut : report.truncated = false) :
    ∃ partA partB asked onA onB, resp = rendered state (.ok partA) ∧ resp' = rendered state (.ok partB) ∧
      (∀ lang, lang ∈ asked ↔ lang ∈ scanned loaded whole) ∧
      Pieces asked (Str.len first.text + 1) onA onB partA partB report := by
  obtain ⟨bytes, outcome, parsed, checked, rfl⟩ := check_of_answered limits run joined
  cases outcome with
  | error e => cases e <;> cases reported
  | ok own =>
    obtain rfl := Body.check.inj reported
    obtain ⟨call, mode, asked, result, parsed', filled, resolved, listed, ran, rfl⟩ := check_ok.mp checked
    obtain rfl := Except.ok.inj (parsed.symm.trans parsed')
    have nonempty := terms_nonempty holds
    have sound := soundOn_of_leftmost leftmost nonempty
    rw [cut.text] at ran
    obtain ⟨onA, onB, groupsA, groupsB, groups⟩ := groups_split folds leftmost newline breaks nonempty
      (singleLine_of_holds holds) cut.ending ran uncut
    obtain ⟨usedA, ranA⟩ := (reportsEach_of_groups folds nonempty (sound _) groupsA).together
    obtain ⟨usedB, ranB⟩ := (reportsEach_of_groups folds nonempty (sound _) groupsB).together
    obtain ⟨used, again⟩ := (reportsEach_of_groups folds nonempty (sound _) groups).together
    obtain rfl := Except.ok.inj (Except.ok.inj (ran.symm.trans again))
    have answeredA := answered_report limits run one cut.filled.1 (by rw [cut.mode.1]; exact resolved)
      (by rw [cut.langs.1]; exact listed) ranA
    have answeredB := answered_report limits run two cut.filled.2 (by rw [cut.mode.2]; exact resolved)
      (by rw [cut.langs.2]; exact listed) ranB
    have own : ∀ lang, ∀ m ∈ onA lang ++ onB lang, m.lang = lang := by
      intro lang m member
      rcases List.mem_append.mp member with inA | inB
      · exact group_own nonempty (sound _) groupsA m inA
      · exact group_own nonempty (sound _) groupsB m inB
    exact ⟨_, _, asked, onA, onB, answeredA, answeredB, (scanned_served holds listed).1,
      { own, first := ⟨rfl, rfl⟩, second := ⟨rfl, rfl⟩, whole := rfl }⟩

/-- A request to look for `foo`. -/
def asking (text : String) : CheckRequest := ⟨text.toList, some ["EN".toList], some "substring".toList⟩

/-- The bodies of three requests, parsed: the two lines of a document, and all of it. -/
def document : FromSlice := fun bytes =>
  .ok (asking (if bytes = [1] then "Foo" else if bytes = [2] then "a foo" else "Foo\na foo"))

def numbered (n : UInt8) : HttpRequest := { keyed with body := [n] }

/-- A report of these spellings of `foo`, each three bytes long. -/
def foos (found : List (String × Nat)) : CheckResponse :=
  ⟨"1f".toList, [("en".toList, "substring".toList)],
    found.map fun place => ⟨"en".toList, "foo".toList, place.1.toList, place.2, place.2 + 3⟩, false⟩

/-- The lines and the document are checked one after the other. -/
theorem pieces_suffice_foo : ∃ asked onA onB, (∀ lang, lang ∈ asked ↔ lang ∈ ["en".toList]) ∧
    Pieces asked 4 onA onB (foos [("Foo", 0)]) (foos [("foo", 2)]) (foos [("Foo", 0), ("foo", 6)]) := by
  have played : (play (system AsciiCrates.crates AsciiCrates.http document narrow).step ⟨startup narrow ["en".toList], []⟩
      ((List.range 3).flatMap fun i => .spawn (numbered (.ofNat (i + 1))) :: List.replicate 8 (.advance i))).map
        (fun reached => answers reached.2) =
    some [(numbered 1, rendered narrow (.ok (foos [("Foo", 0)]))), (numbered 2, rendered narrow (.ok (foos [("foo", 2)]))),
      (numbered 3, rendered narrow (.ok (foos [("Foo", 0), ("foo", 6)])))] := by decide +kernel
  obtain ⟨log, pool, run, answered⟩ := serves_of_play played
  have cut : Cut (asking "Foo") (asking "a foo") (asking "Foo\na foo") :=
    ⟨rfl, by decide, by decide, ⟨rfl, rfl⟩, ⟨rfl, rfl⟩⟩
  have holds : Holds (fun _ => "foo\n".toList) "1f".toList narrow ["en".toList] :=
    deployed_holds (narrow_deployed (by decide))
  obtain ⟨partA, partB, asked, onA, onB, first, second, scanned, pieces⟩ := pieces_suffice AsciiCrates.foldsNonempty
    AsciiCrates.findsLeftmostLongest (by decide +kernel) AsciiCrates.breaksAtNewline AsciiCrates.http_limitsBodies holds
    run cut ⟨_, narrow_calls [1], by decide, rfl, by rw [answered]; exact .head _, by decide⟩
    ⟨_, narrow_calls [2], by decide, rfl, by rw [answered]; exact .tail _ (.head _), by decide⟩
    ⟨_, narrow_calls [3], by decide, rfl, by rw [answered]; exact .tail _ (.tail _ (.head _)), by decide⟩ rfl rfl
  cases first
  cases second
  exact ⟨asked, onA, onB, scanned, pieces⟩

end VocabVeto.Chunks
