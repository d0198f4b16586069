import VocabVeto.Core.Check

/-! `cli.rs`: `vv check`, from its arguments to what it prints and its exit code. -/
namespace VocabVeto.Cli

/-- A file path; `-` stands for standard input. -/
abbrev Path := Str

inductive OutputFormat where
  | json
  | plain
  deriving DecidableEq, Repr

/-- The arguments of `vv check` after clap's parsing. -/
structure CheckArgs where
  text : Option Str
  file : Option Path
  stdin : Bool
  jsonInput : Option Path
  lang : List Str
  mode : Option Str
  output : OutputFormat
  verbose : Bool
  deriving DecidableEq, Repr

inductive CliError where
  | usage (message : Str)
  | io (message : Str)
  deriving DecidableEq, Repr

inductive ExitKind where
  | success
  | hits
  | usage
  | tooLarge
  | io
  | panic
  deriving DecidableEq, Repr

/-- `ExitKind::code`. -/
def ExitKind.code : ExitKind → Nat
  | .success => 0
  | .hits => 1
  | .usage => 2
  | .tooLarge => 3
  | .io => 64
  | .panic => 70

/-- What is written to standard output: a response through `serde_json`, or text. -/
inductive Written where
  | json (response : CheckResponse)
  | text (line : Str)
  deriving DecidableEq, Repr

/-- The operating system, as far as the command sees it. Errors are already
formatted. -/
structure Host where
  readBytes : Path → Except Str (List UInt8)
  readString : Path → Except Str Str
  stdinString : Except Str Str
  stdinIsTerminal : Bool
  /-- What of these writes reaches standard output, and the error that stopped it. -/
  write : List Written → List Written × Option Str

/-- Everything printed so far. -/
structure Printed where
  stdout : List Written
  stderr : List Str
  deriving DecidableEq, Repr

def decimal (n : Nat) : Str := (toString n).toList

/-! ### Usage messages -/

def invalidJson (e : Str) : Str := "invalid JSON: ".toList ++ e

def emptyText : Str := "empty text".toList

def invalidMode (other : Str) : Str :=
  "invalid mode: ".toList ++ other ++ " (expected 'strict' or 'substring')".toList

def emptyLangs : Str := "empty langs".toList

def unknownLanguage (terms : HashMap Lang (List Str)) (lower : Lang) : Str :=
  "unknown language: ".toList ++ lower ++ ". Compiled codes: [".toList ++
    join ", ".toList (compiledLangs terms) ++ "]".toList

/-! ### Resolving the inputs -/

/-- `all_compiled_langs`. -/
def allCompiledLangs (terms : HashMap Lang (List Str)) : List Lang := compiledLangs terms

/-- `resolve_mode`. -/
def resolveMode : Option Str → Except CliError (Option Mode) := parseMode fun other => .usage (invalidMode other)

/-- `validate_langs`. -/
def validateLangs (terms : HashMap Lang (List Str)) (list : List Str) : Except CliError (List Lang) :=
  lowerKnown (fun lower => (terms.lookup lower).isSome) (fun lower => .usage (unknownLanguage terms lower)) list []

/-- `read_text_argv`. -/
def readTextArgv (host : Host) (args : CheckArgs) : Except CliError Str :=
  match args.text, args.file with
  | some text, _ => .ok text
  | none, some path =>
    (host.readString path).mapError fun e => .io ("failed to read --file: ".toList ++ e)
  | none, none =>
    if args.stdin then host.stdinString.mapError fun e => .io ("failed to read stdin: ".toList ++ e)
    else if !host.stdinIsTerminal then
      host.stdinString.mapError fun e => .io ("failed to read stdin: ".toList ++ e)
    else .error (.usage
      "no input: pass --text, --file, --stdin, or --json-input (or pipe stdin)".toList)

/-- The languages of a `--json-input` body. -/
def bodyLangs (terms : HashMap Lang (List Str)) : Option (List Str) → Except CliError (List Lang)
  | some v => if v.isEmpty then .error (.usage emptyLangs) else validateLangs terms v
  | none => .ok (allCompiledLangs terms)

/-- The languages of the `--lang` arguments. -/
def argvLangs (terms : HashMap Lang (List Str)) (lang : List Str) : Except CliError (List Lang) :=
  if lang.isEmpty then .ok (allCompiledLangs terms) else validateLangs terms (lang.map trim)

/-- `resolve_check_inputs`. -/
def resolveCheckInputs (terms : HashMap Lang (List Str)) (fromSlice : FromSlice) (host : Host)
    (args : CheckArgs) : Except CliError (Str × List Lang × Option Mode) :=
  match args.jsonInput with
  | some path => do
    let bytes ← (host.readBytes path).mapError fun e => .io ("failed to read --json-input: ".toList ++ e)
    let request ← (fromSlice bytes).mapError fun e => .usage (invalidJson e)
    if request.text.isEmpty then .error (.usage emptyText)
    else do
      let mode ← resolveMode request.mode
      let scanLangs ← bodyLangs terms request.langs
      return (request.text, scanLangs, mode)
  | none => do
    let text ← readTextArgv host args
    if text.isEmpty then .error (.usage emptyText)
    else do
      let mode ← resolveMode args.mode
      let scanLangs ← argvLangs terms args.lang
      return (text, scanLangs, mode)

/-! ### Scanning and printing -/

/-- `build_engine`. -/
def buildEngine (terms : HashMap Lang (List Str)) : Engine := Engine.new (collect id terms)

/-- The verbose line before the scan. -/
def inputLine (text : Str) (scanLangs : List Lang) (mode : Option Mode) : Str :=
  "vv: input_bytes=".toList ++ decimal (Str.len text) ++ " langs=[".toList ++ join ",".toList scanLangs ++
    "] mode=".toList ++ (mode.map Mode.asWireStr).getD "<default>".toList

/-- The verbose tally: every match counts for the first entry of its language. -/
def bumpFirst (lang : Lang) : List (Lang × Nat) → List (Lang × Nat)
  | [] => []
  | (l, n) :: entries => if l = lang then (l, n + 1) :: entries else (l, n) :: bumpFirst lang entries

/-- The verbose lines after the scan. -/
def tallyLines (result : ScanResult) : List Str :=
  let perLang := result.found.foldl (fun tally m => bumpFirst m.lang tally)
    (result.modeUsed.map fun entry => (entry.1, 0))
  perLang.map (fun entry => "vv: ".toList ++ entry.1 ++ " matches=".toList ++ decimal entry.2) ++
    if result.truncated then ["vv: truncated at ".toList ++ decimal maxMatches] else []

/-- A row of the plain output. -/
def plainRow (m : Match) : Str :=
  m.lang ++ "\t".toList ++ decimal m.start ++ "-".toList ++ decimal m.stop ++ "\t".toList ++ m.term ++
    "\t".toList ++ m.matchedText ++ "\n".toList

/-- `write_check_plain`. -/
def writeCheckPlain (result : ScanResult) : List Written :=
  result.found.map (fun m => .text (plainRow m)) ++
    if result.truncated then [.text "# truncated\n".toList] else []

/-- What a scan result is written as. -/
def render (listVersion : Str) (result : ScanResult) : OutputFormat → List Written
  | .json =>
    [.json ⟨listVersion, modeUsedMap result.modeUsed, matchDtos result.found, result.truncated⟩]
  | .plain => writeCheckPlain result

/-- `run_check`: what it prints, and its exit category unless it panics. Standard
error is taken to be writable; `eprintln!` panics when it is not. -/
def runCheck (crates : Crates) (fromSlice : FromSlice) (terms : HashMap Lang (List Str)) (listVersion : Str)
    (host : Host) (args : CheckArgs) : Printed × Fallible ExitKind :=
  match resolveCheckInputs terms fromSlice host args with
  | .error (.usage message) => (⟨[], [message]⟩, .ok .usage)
  | .error (.io message) => (⟨[], [message]⟩, .ok .io)
  | .ok (text, scanLangs, mode) =>
    let announced := if args.verbose then [inputLine text scanLangs mode] else []
    match (buildEngine terms).scan crates text scanLangs mode with
    | .error panic => (⟨[], announced⟩, .error panic)
    | .ok (.error .tooLarge) =>
      (⟨[], announced ++ ["input exceeds ".toList ++ decimal maxNormalizedBytes ++
        " bytes after normalization".toList]⟩, .ok .tooLarge)
    | .ok (.ok result) =>
      let tallied := announced ++ if args.verbose then tallyLines result else []
      let hasHits := !result.found.isEmpty || result.truncated
      match host.write (render listVersion result args.output) with
      | (reached, some e) => (⟨reached, tallied ++ ["failed to write output: ".toList ++ e]⟩, .ok .io)
      | (reached, none) => (⟨reached, tallied⟩, .ok (if hasHits then .hits else .success))

/-- `map_unwind_result`, with the code `run` exits with. -/
def run (outcome : Printed × Fallible ExitKind) : Printed × Nat :=
  match outcome with
  | (printed, .ok kind) => (printed, kind.code)
  | (printed, .error _) =>
    ({ printed with stderr := printed.stderr ++ ["internal error".toList] }, ExitKind.panic.code)

end VocabVeto.Cli
