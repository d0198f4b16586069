import VocabVeto.AsciiCrates
import VocabVeto.Core.Cli
import VocabVeto.TermsProofs

/-! The server and the command line agree on every request body. Both are
transports of one verdict on the body: which rule refuses it, or what the scan
returns. Each renders that verdict in its own way, and the renderings can be
told apart. -/
namespace VocabVeto.Parity
open TermsProofs

/-! ### The verdict -/

/-- Why a well-formed request is refused, in the order the rules are tried. -/
inductive Refusal where
  | emptyText
  | invalidMode (mode : Str)
  | emptyLangs
  | unknownLanguage (code : Lang)
  deriving DecidableEq, Repr

inductive Verdict where
  | malformed (message : Str)
  | refused (why : Refusal)
  | tooLarge
  | answered (result : ScanResult)
  deriving DecidableEq, Repr

/-- The languages a request means: those it lists, lowercased, or every compiled
one in order. The first unknown code refuses it. -/
def requestedLangs (terms : HashMap Lang (List Str)) : Option (List Str) → Except Refusal (List Lang)
  | none => .ok (compiledLangs terms)
  | some [] => .error .emptyLangs
  | some list =>
    let lowered := list.map Str.toAsciiLowercase
    match lowered.find? fun code => !(terms.lookup code).isSome with
    | some code => .error (.unknownLanguage code)
    | none => .ok lowered

/-- What a request asks to be scanned for. -/
def resolve (terms : HashMap Lang (List Str)) (request : CheckRequest) :
    Except Refusal (List Lang × Option Mode) :=
  if request.text.isEmpty then .error .emptyText
  else do
    let mode ← parseMode .invalidMode request.mode
    let langs ← requestedLangs terms request.langs
    return (langs, mode)

/-- What a request body amounts to, whichever way it came in. -/
def judge (crates : Crates) (fromSlice : FromSlice) (terms : HashMap Lang (List Str)) (bytes : List UInt8) :
    Fallible Verdict :=
  match fromSlice bytes with
  | .error e => .ok (.malformed e)
  | .ok request =>
    match resolve terms request with
    | .error why => .ok (.refused why)
    | .ok (langs, mode) => do
      match ← (Cli.buildEngine terms).scan crates request.text langs mode with
      | .error .tooLarge => return .tooLarge
      | .ok result => return .answered result

/-! ### The server -/

def Refusal.apiError : Refusal → ApiError
  | .emptyText => .emptyText
  | .invalidMode _ => .invalidMode
  | .emptyLangs => .emptyLangs
  | .unknownLanguage code => .unknownLanguage code

/-- The response to a scan that was carried out. -/
def response (listVersion : Str) (result : ScanResult) : CheckResponse :=
  ⟨listVersion, modeUsedMap result.modeUsed, matchDtos result.found, result.truncated⟩

def Verdict.answer (listVersion : Str) : Verdict → Except ApiError CheckResponse
  | .malformed e => .error (.badRequest (Check.malformedJson e))
  | .refused why => .error why.apiError
  | .tooLarge => .error .payloadTooLarge
  | .answered result => .ok (response listVersion result)

theorem lowerKnown_eq (known : Lang → Bool) (refuse : Lang → ε) (list out : List Str) :
    lowerKnown known refuse list out =
      match (list.map Str.toAsciiLowercase).find? fun code => !known code with
      | some code => .error (refuse code)
      | none => .ok (out ++ list.map Str.toAsciiLowercase) := by
  induction list generalizing out with
  | nil => simp [lowerKnown]
  | cons raw list ih =>
    rw [lowerKnown, List.map_cons, List.find?_cons]
    cases known (Str.toAsciiLowercase raw) with
    | false => rfl
    | true => simpa using ih (out ++ [Str.toAsciiLowercase raw])

theorem parseMode_map (refuse : Str → ε) (convert : ε → ρ) (mode : Option Str) :
    parseMode (convert ∘ refuse) mode = (parseMode refuse mode).mapError convert := by
  cases mode with
  | none => rfl
  | some mode =>
    simp only [parseMode]
    split
    · rfl
    · split <;> rfl

theorem lowerKnown_map (known : Lang → Bool) (refuse : Lang → ε) (convert : ε → ρ) (list out : List Str) :
    lowerKnown known (convert ∘ refuse) list out = (lowerKnown known refuse list out).mapError convert := by
  rw [lowerKnown_eq, lowerKnown_eq]
  split <;> rfl

theorem requestedLangs_cons (terms : HashMap Lang (List Str)) (first : Str) (rest : List Str) :
    requestedLangs terms (some (first :: rest)) =
      lowerKnown (fun code => (terms.lookup code).isSome) .unknownLanguage (first :: rest) [] := by
  rw [lowerKnown_eq]
  rfl

/-- Engines that hold the same automata give the same scans. -/
theorem scan_congr {first second : Engine}
    (same : ∀ lang, first.automata.lookup lang = second.automata.lookup lang) (crates : Crates)
    (text : Str) (langs : List Lang) (mode : Option Mode) :
    first.scan crates text langs mode = second.scan crates text langs mode := by
  have walk : ∀ norm modeUsed found, scanLangs crates first text norm mode langs modeUsed found =
      scanLangs crates second text norm mode langs modeUsed found := by
    intro norm
    induction langs with
    | nil => exact fun _ _ => rfl
    | cons lang langs ih =>
      intro modeUsed found
      simp only [scanLangs, same, ih]
  simp only [Engine.scan, walk]

section
variable {crates : Crates} {fromSlice : FromSlice} {terms : HashMap Lang (List Str)} {engine : Engine}

theorem buildEngine_loadsAll (terms : HashMap Lang (List Str)) : LoadsAll terms (Cli.buildEngine terms) :=
  new_loadsAll fun lang => by rw [lookup_collect, Option.map_id_fun, id]

theorem hasLanguage_eq (loads : LoadsAll terms engine) (lang : Lang) :
    engine.hasLanguage lang = (terms.lookup lang).isSome := by
  rw [Engine.hasLanguage, loads, Option.isSome_map]

theorem sort_languages (loads : LoadsAll terms engine) : sort engine.languages = compiledLangs terms :=
  sort_perm (keys_perm fun lang => by rw [loads, Option.isSome_map])

theorem check_scanLangs (loads : LoadsAll terms engine) (langs : Option (List Str)) :
    Check.scanLangs engine langs = (requestedLangs terms langs).mapError Refusal.apiError := by
  match langs with
  | none =>
    rw [Check.scanLangs, sort_languages loads]
    rfl
  | some [] => rfl
  | some (first :: rest) =>
    rw [requestedLangs_cons, ← lowerKnown_map, ← funext (hasLanguage_eq loads)]
    rfl

/-- The handler answers the verdict on its body. -/
theorem check_judged (loads : LoadsAll terms engine) (listVersion : Str) (bytes : List UInt8) :
    Check.check crates fromSlice ⟨engine, listVersion⟩ bytes =
      (judge crates fromSlice terms bytes).map (Verdict.answer listVersion) := by
  unfold Check.check judge
  cases fromSlice bytes with
  | error e => rfl
  | ok request =>
    dsimp only
    have modes : Check.resolveMode request.mode =
        (parseMode .invalidMode request.mode).mapError Refusal.apiError :=
      parseMode_map Refusal.invalidMode Refusal.apiError request.mode
    rw [resolve, modes, check_scanLangs loads]
    split
    · rfl
    · cases parseMode Refusal.invalidMode request.mode with
      | error why => rfl
      | ok mode =>
        cases requestedLangs terms request.langs with
        | error why => rfl
        | ok langs =>
          have same := scan_congr (fun lang => (loads lang).trans (buildEngine_loadsAll terms lang).symm)
            crates request.text langs mode
          dsimp only [bind, Except.bind, pure, Except.pure, Except.mapError]
          rw [same]
          cases (Cli.buildEngine terms).scan crates request.text langs mode with
          | error panic => rfl
          | ok outcome =>
            cases outcome with
            | error e => cases e; rfl
            | ok result => rfl

end

/-! ### The command line -/

/-- What `vv check` says about a refused request. -/
def Refusal.message (terms : HashMap Lang (List Str)) : Refusal → Str
  | .emptyText => Cli.emptyText
  | .invalidMode mode => Cli.invalidMode mode
  | .emptyLangs => Cli.emptyLangs
  | .unknownLanguage code => Cli.unknownLanguage terms code

/-- What `vv check --json-input` shows for a verdict. -/
def Verdict.Shown (listVersion : Str) (terms : HashMap Lang (List Str)) : Verdict → Cli.Printed × Nat → Prop
  | .malformed e, shown => shown = (⟨[], [Cli.invalidJson e]⟩, 2)
  | .refused why, shown => shown = (⟨[], [why.message terms]⟩, 2)
  | .tooLarge, shown => shown.1.stdout = [] ∧ shown.2 = 3
  | .answered result, shown => shown.1.stdout = [.json (response listVersion result)] ∧
      shown.2 = if result.found ≠ [] ∨ result.truncated = true then 1 else 0

section
variable {crates : Crates} {fromSlice : FromSlice} {terms : HashMap Lang (List Str)} {host : Cli.Host}
  {args : Cli.CheckArgs} {bytes : List UInt8}

theorem cli_bodyLangs (langs : Option (List Str)) :
    Cli.bodyLangs terms langs =
      (requestedLangs terms langs).mapError fun why => .usage (why.message terms) := by
  match langs with
  | none => rfl
  | some [] => rfl
  | some (first :: rest) =>
    rw [requestedLangs_cons, ← lowerKnown_map]
    rfl

theorem inputs_resolved (input : args.jsonInput = some path) (read : host.readBytes path = .ok bytes) :
    Cli.resolveCheckInputs terms fromSlice host args =
      match fromSlice bytes with
      | .error e => .error (.usage (Cli.invalidJson e))
      | .ok request =>
        match resolve terms request with
        | .error why => .error (.usage (why.message terms))
        | .ok (langs, mode) => .ok (request.text, langs, mode) := by
  have modes : ∀ mode, Cli.resolveMode mode = (parseMode Refusal.invalidMode mode).mapError
      fun why => Cli.CliError.usage (why.message terms) :=
    parseMode_map Refusal.invalidMode fun why => Cli.CliError.usage (why.message terms)
  simp only [Cli.resolveCheckInputs, input, read, modes, cli_bodyLangs, resolve, Except.mapError, bind,
    Except.bind]
  cases fromSlice bytes with
  | error e => rfl
  | ok request =>
    dsimp only
    split
    · rfl
    · cases parseMode Refusal.invalidMode request.mode with
      | error why => rfl
      | ok mode =>
        cases requestedLangs terms request.langs with
        | error why => rfl
        | ok langs => rfl

/-- The command shows the verdict on the body it reads, or exits as after a panic. -/
theorem check_shown (crates : Crates) (fromSlice : FromSlice) (terms : HashMap Lang (List Str))
    (listVersion : Str) (input : args.jsonInput = some path) (read : host.readBytes path = .ok bytes)
    (json : args.output = .json) (writes : ∀ rows, host.write rows = (rows, none)) :
    match judge crates fromSlice terms bytes with
    | .ok verdict =>
      verdict.Shown listVersion terms (Cli.run (Cli.runCheck crates fromSlice terms listVersion host args))
    | .error _ =>
      (Cli.run (Cli.runCheck crates fromSlice terms listVersion host args)).1.stdout = [] ∧
        (Cli.run (Cli.runCheck crates fromSlice terms listVersion host args)).2 = 70 := by
  simp only [Cli.runCheck, inputs_resolved input read, judge]
  cases fromSlice bytes with
  | error e => rfl
  | ok request =>
    dsimp only
    cases resolve terms request with
    | error why => rfl
    | ok resolved =>
      obtain ⟨langs, mode⟩ := resolved
      dsimp only
      cases (Cli.buildEngine terms).scan crates request.text langs mode with
      | error panic => exact ⟨rfl, rfl⟩
      | ok outcome =>
        cases outcome with
        | error e => cases e; exact ⟨rfl, rfl⟩
        | ok result =>
          simp only [writes, json]
          refine ⟨rfl, ?_⟩
          by_cases hits : result.found ≠ [] ∨ result.truncated = true
          · have flagged : (!result.found.isEmpty || result.truncated) = true := by simpa using hits
            rw [if_pos hits, flagged]
            rfl
          · have clean : (!result.found.isEmpty || result.truncated) = false := by simpa using hits
            rw [if_neg hits, clean]
            rfl

end

/-! ### Telling the outcomes apart -/

section
variable {terms : HashMap Lang (List Str)} {why : Refusal}

/-- The character that tells the usage messages apart, whatever they quote. -/
def Refusal.mark : Refusal → Char
  | .emptyText => 'x'
  | .invalidMode _ => 'm'
  | .emptyLangs => 'n'
  | .unknownLanguage _ => 'l'

private theorem mark_of_message (same : why.message terms = s) : s[8]? = some why.mark := by
  subst same
  cases why with
  | emptyText => rfl
  | invalidMode mode => rfl
  | emptyLangs => rfl
  | unknownLanguage code => rfl

theorem message_ne_json (terms : HashMap Lang (List Str)) (why : Refusal) (e : Str) :
    why.message terms ≠ Cli.invalidJson e := by
  intro same
  have mark : some 'J' = some why.mark := mark_of_message same
  cases why <;> simp [Refusal.mark] at mark

theorem message_emptyText : why.message terms = Cli.emptyText ↔ why = .emptyText := by
  refine ⟨fun same => ?_, fun same => same ▸ rfl⟩
  have mark : some 'x' = some why.mark := mark_of_message same
  cases why with
  | emptyText => rfl
  | _ => simp [Refusal.mark] at mark

theorem message_emptyLangs : why.message terms = Cli.emptyLangs ↔ why = .emptyLangs := by
  refine ⟨fun same => ?_, fun same => same ▸ rfl⟩
  have mark : some 'n' = some why.mark := mark_of_message same
  cases why with
  | emptyLangs => rfl
  | _ => simp [Refusal.mark] at mark

theorem message_invalidMode {mode : Str} :
    why.message terms = Cli.invalidMode mode ↔ why = .invalidMode mode := by
  refine ⟨fun same => ?_, fun same => same ▸ rfl⟩
  have mark : some 'm' = some why.mark := mark_of_message same
  cases why with
  | invalidMode other => rw [List.append_cancel_left (List.append_cancel_right same)]
  | _ => simp [Refusal.mark] at mark

theorem message_unknownLanguage {code : Lang} :
    why.message terms = Cli.unknownLanguage terms code ↔ why = .unknownLanguage code := by
  refine ⟨fun same => ?_, fun same => same ▸ rfl⟩
  have mark : some 'l' = some why.mark := mark_of_message same
  cases why with
  | unknownLanguage other =>
    have listed := List.append_cancel_right (List.append_cancel_right (List.append_cancel_right same))
    rw [List.append_cancel_left listed]
  | _ => simp [Refusal.mark] at mark

end

/-! ### Agreement -/

/-- The server's outcome and what the command shows correspond, outcome by outcome. -/
structure Agreement (terms : HashMap Lang (List Str)) (served : Fallible (Except ApiError CheckResponse))
    (shown : Cli.Printed × Nat) : Prop where
  answered : ∀ response, served = .ok (.ok response) ↔ shown.1.stdout = [.json response] ∧
    shown.2 = if response.found ≠ [] ∨ response.truncated = true then 1 else 0
  tooLarge : (∃ answer, served = .ok answer ∧ status answer = 413) ↔ shown.2 = 3
  badRequest : (∃ answer, served = .ok answer ∧ status answer = 400) ↔
    shown.2 = 2 ∧ ∃ e, shown.1.stderr = [Cli.invalidJson e]
  malformed : ∀ e, served = .ok (.error (.badRequest (Check.malformedJson e))) ↔
    shown.2 = 2 ∧ shown.1.stderr = [Cli.invalidJson e]
  emptyText : served = .ok (.error .emptyText) ↔ shown.2 = 2 ∧ shown.1.stderr = [Cli.emptyText]
  invalidMode : served = .ok (.error .invalidMode) ↔ shown.2 = 2 ∧ ∃ mode,
    shown.1.stderr = [Cli.invalidMode mode]
  emptyLangs : served = .ok (.error .emptyLangs) ↔ shown.2 = 2 ∧ shown.1.stderr = [Cli.emptyLangs]
  unknownLanguage : ∀ code, served = .ok (.error (.unknownLanguage code)) ↔
    shown.2 = 2 ∧ shown.1.stderr = [Cli.unknownLanguage terms code]

section
variable {terms : HashMap Lang (List Str)} {listVersion : Str}

private theorem invalidJson_inj {e e' : Str} : Cli.invalidJson e = Cli.invalidJson e' ↔ e = e' :=
  ⟨fun same => List.append_cancel_left same, fun same => same ▸ rfl⟩

private theorem malformedJson_inj {e e' : Str} : Check.malformedJson e = Check.malformedJson e' ↔ e = e' :=
  ⟨fun same => List.append_cancel_left same, fun same => same ▸ rfl⟩

private theorem agreement_malformed (e : Str) :
    Agreement terms (.ok ((Verdict.malformed e).answer listVersion)) (⟨[], [Cli.invalidJson e]⟩, 2) where
  answered _ := by simp [Verdict.answer]
  tooLarge := by simp [Verdict.answer, status, ApiError.parts]
  badRequest := by simp [Verdict.answer, status, ApiError.parts]
  malformed e' := by simp [Verdict.answer, invalidJson_inj, malformedJson_inj]
  emptyText := by
    have other : Cli.invalidJson e ≠ Cli.emptyText := (message_ne_json terms .emptyText e).symm
    simp [Verdict.answer, other]
  invalidMode := by
    have other : ∀ mode, Cli.invalidJson e ≠ Cli.invalidMode mode := fun mode =>
      (message_ne_json terms (.invalidMode mode) e).symm
    simp [Verdict.answer, other]
  emptyLangs := by
    have other : Cli.invalidJson e ≠ Cli.emptyLangs := (message_ne_json terms .emptyLangs e).symm
    simp [Verdict.answer, other]
  unknownLanguage code := by
    have other : Cli.invalidJson e ≠ Cli.unknownLanguage terms code :=
      (message_ne_json terms (.unknownLanguage code) e).symm
    simp [Verdict.answer, other]

private theorem agreement_refused (why : Refusal) :
    Agreement terms (.ok ((Verdict.refused why).answer listVersion)) (⟨[], [why.message terms]⟩, 2) where
  answered _ := by simp [Verdict.answer]
  tooLarge := by cases why <;> simp [Verdict.answer, Refusal.apiError, status, ApiError.parts]
  badRequest := by
    cases why <;> simp [Verdict.answer, Refusal.apiError, status, ApiError.parts, message_ne_json]
  malformed e := by cases why <;> simp [Verdict.answer, Refusal.apiError, message_ne_json]
  emptyText := by
    simp only [message_emptyText, List.cons.injEq, and_true, true_and, Verdict.answer]
    cases why <;> simp [Refusal.apiError]
  invalidMode := by
    simp only [message_invalidMode, List.cons.injEq, and_true, true_and, Verdict.answer]
    cases why <;> simp [Refusal.apiError]
  emptyLangs := by
    simp only [message_emptyLangs, List.cons.injEq, and_true, true_and, Verdict.answer]
    cases why <;> simp [Refusal.apiError]
  unknownLanguage code := by
    simp only [message_unknownLanguage, List.cons.injEq, and_true, true_and, Verdict.answer]
    cases why <;> simp [Refusal.apiError]

private theorem agreement_tooLarge (printed : Cli.Printed) (silent : printed.stdout = []) :
    Agreement terms (.ok (Verdict.tooLarge.answer listVersion)) (printed, 3) := by
  constructor <;> simp [Verdict.answer, status, ApiError.parts, silent]

private theorem agreement_answered (result : ScanResult) (printed : Cli.Printed)
    (shown : printed.stdout = [.json (response listVersion result)]) :
    Agreement terms (.ok ((Verdict.answered result).answer listVersion))
      (printed, if result.found ≠ [] ∨ result.truncated = true then 1 else 0) := by
  have code : ∀ n, 1 < n → (if result.found ≠ [] ∨ result.truncated = true then 1 else 0) ≠ n := by
    intro n large
    split <;> omega
  constructor
  · intro other
    rw [shown]
    constructor
    · intro same
      obtain rfl := Except.ok.inj (Except.ok.inj same)
      exact ⟨rfl, by simp [response, matchDtos]⟩
    · rintro ⟨same, _⟩
      rw [List.cons.injEq, Cli.Written.json.injEq] at same
      rw [← same.1]
      rfl
  all_goals simp [Verdict.answer, status, code]

private theorem agreement_panic (panic : Panic) (printed : Cli.Printed) (silent : printed.stdout = []) :
    Agreement terms (.error panic) (printed, 70) := by
  constructor <;> simp [silent]

theorem agreement_of_shown {verdict : Verdict} {shown : Cli.Printed × Nat}
    (same : verdict.Shown listVersion terms shown) :
    Agreement terms (.ok (verdict.answer listVersion)) shown := by
  obtain ⟨printed, code⟩ := shown
  cases verdict with
  | malformed e =>
    obtain ⟨rfl, rfl⟩ := Prod.mk.inj same
    exact agreement_malformed e
  | refused why =>
    obtain ⟨rfl, rfl⟩ := Prod.mk.inj same
    exact agreement_refused why
  | tooLarge =>
    obtain ⟨silent, rfl⟩ := same
    exact agreement_tooLarge printed silent
  | answered result =>
    obtain ⟨written, rfl⟩ := same
    exact agreement_answered result printed written

/-- The command line and the server agree on every request body that the
server's size limit lets through. -/
theorem cli_agrees_with_server {engine : Engine} {host : Cli.Host} {args : Cli.CheckArgs}
    {bytes : List UInt8} (loads : LoadsAll terms engine) (small : bytes.length ≤ 64 * 1024)
    (input : args.jsonInput = some path) (read : host.readBytes path = .ok bytes)
    (json : args.output = .json) (writes : ∀ rows, host.write rows = (rows, none))
    (crates : Crates) (fromSlice : FromSlice) (listVersion : Str) :
    Agreement terms (Check.limitedCheck crates fromSlice ⟨engine, listVersion⟩ bytes)
      (Cli.run (Cli.runCheck crates fromSlice terms listVersion host args)) := by
  have within : ¬ bytes.length > Check.rawBodyLimitBytes := Nat.not_lt.mpr small
  rw [Check.limitedCheck, if_neg within, check_judged loads]
  have shown := check_shown crates fromSlice terms listVersion input read json writes
  cases judged : judge crates fromSlice terms bytes with
  | ok verdict =>
    rw [judged] at shown
    exact agreement_of_shown shown
  | error panic =>
    rw [judged] at shown
    obtain ⟨silent, code⟩ := shown
    have exits : Cli.run (Cli.runCheck crates fromSlice terms listVersion host args) = (_, 70) :=
      Prod.ext rfl code
    rw [exits]
    exact agreement_panic panic _ silent

end

/-! ### One body -/

def darnTerms : HashMap Lang (List Str) :=
  AList.insert "en".toList ["darn".toList] (AList.insert "de".toList ["mist".toList] ∅)

def darnBody : List UInt8 := Utf8.bytes "\x7b\"text\":\"oh Darn\",\"langs\":[\"DE\",\"EN\"]\x7d".toList

def darnSlice : FromSlice := fun bytes =>
  if bytes = darnBody then .ok ⟨"oh Darn".toList, some ["DE".toList, "EN".toList], none⟩
  else .error "expected value at line 1 column 1".toList

/-- A command that is piped the body, and can print. -/
def darnHost : Cli.Host where
  readBytes path := if path = "-".toList then .ok darnBody else .error "No such file or directory".toList
  readString _ := .error "No such file or directory".toList
  stdinString := .ok []
  stdinIsTerminal := false
  write rows := (rows, none)

def darnArgs : Cli.CheckArgs := ⟨none, none, false, some "-".toList, [], none, .json, false⟩

/-- What both of them answer. -/
def darnResponse : CheckResponse where
  listVersion := "5faf2ba".toList
  modeUsed := [("de".toList, "strict".toList), ("en".toList, "strict".toList)]
  found := [⟨"en".toList, "darn".toList, "Darn".toList, 3, 7⟩]
  truncated := false

theorem cli_agrees_with_server_darn : ∃ engine, startEngine darnTerms none = .ok (.ok engine) ∧
    Check.limitedCheck AsciiCrates.crates darnSlice ⟨engine, "5faf2ba".toList⟩ darnBody = .ok (.ok darnResponse) ∧
    Cli.run (Cli.runCheck AsciiCrates.crates darnSlice darnTerms "5faf2ba".toList darnHost darnArgs) =
      (⟨[.json darnResponse], []⟩, 1) := by
  obtain ⟨engine, started, loads⟩ := startEngine_loadsAll darnTerms
  have read : darnHost.readBytes "-".toList = .ok darnBody := rfl
  have shown : Cli.run (Cli.runCheck AsciiCrates.crates darnSlice darnTerms "5faf2ba".toList darnHost darnArgs) =
      (⟨[.json darnResponse], []⟩, 1) := by decide +kernel
  have agree : Agreement darnTerms (Check.limitedCheck AsciiCrates.crates darnSlice ⟨engine, "5faf2ba".toList⟩ darnBody)
      (Cli.run (Cli.runCheck AsciiCrates.crates darnSlice darnTerms "5faf2ba".toList darnHost darnArgs)) :=
    cli_agrees_with_server loads (by decide +kernel) rfl read rfl (fun _ => rfl) _ _ _
  rw [shown] at agree
  exact ⟨engine, started, (agree.answered darnResponse).mpr ⟨rfl, rfl⟩, shown⟩

end VocabVeto.Parity
