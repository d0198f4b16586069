import VocabVeto.Core.Terms

/-! `config.rs`: the runtime configuration, from the TOML file and the `VV_*`
environment through figment to the validated record. Figment itself is not part
of the repository: how it reads and merges its sources is a parameter. -/
namespace VocabVeto

inductive ConfigError where
  | tomlMissing (path : Str)
  | parse (message : Str)
  | invalid (message : Str)
  | noApiKeys
  deriving DecidableEq, Repr

/-- An array in TOML stays a list; a string gets split at commas. -/
inductive StringOrList where
  | list (v : List Str)
  | csv (s : Str)
  deriving DecidableEq, Repr

/-- `StringOrList::into_vec`. -/
def StringOrList.intoVec : StringOrList → List Str
  | .list v => v
  | .csv s => s.splitOn ','

/-- The shape figment deserializes into. -/
structure RawConfig where
  listenAddr : Option Str
  apiKeys : Option StringOrList
  langs : Option StringOrList
  maxInflight : Option Nat
  histogramBuckets : Option StringOrList
  deriving DecidableEq, Repr

/-- The validated configuration; `F` is the type of floats. -/
structure Config (F : Type) where
  listenAddr : Str
  apiKeys : List (List UInt8)
  langs : Option (List Str)
  maxInflight : Nat
  histogramBuckets : Option (List F)
  deriving DecidableEq, Repr

namespace Config

/-- `DEFAULT_TOML_PATH`. -/
def defaultTomlPath : Str := "/etc/vv/config.toml".toList

/-- `DEFAULT_LISTEN_ADDR`. -/
def defaultListenAddr : Str := "0.0.0.0:8080".toList

/-- `DEFAULT_MAX_INFLIGHT`. -/
def defaultMaxInflight : Nat := 1024

/-! ### Validation -/

/-- The loop that the parsers of keys and of languages each have: shape every
entry, stop at an empty one, and keep the first of equal ones. -/
def collectEntries [DecidableEq κ] (shape : Str → Str) (store : Str → κ) (emptyEntry : ConfigError) :
    List Str → List κ → HashSet κ → Except ConfigError (List κ)
  | [], out, _ => .ok out
  | raw :: entries, out, seen =>
    let entry := shape raw
    if entry.isEmpty then .error emptyEntry
    else
      let stored := store entry
      if stored ∈ seen then collectEntries shape store emptyEntry entries out seen
      else collectEntries shape store emptyEntry entries (out ++ [stored]) (insert stored seen)

/-- The check after the loop, that it kept something. -/
def requireSome (none : ConfigError) (out : List κ) : Except ConfigError (List κ) :=
  if out.isEmpty then .error none else .ok out

/-- `parse_api_keys`. -/
def parseApiKeys : Option StringOrList → Except ConfigError (List (List UInt8))
  | none => .error .noApiKeys
  | some src => do
    let keys ← collectEntries trim Utf8.bytes (.invalid "VV_API_KEYS contains an empty entry".toList)
      src.intoVec [] ∅
    requireSome .noApiKeys keys

/-- `parse_langs`. -/
def parseLangs (src : StringOrList) : Except ConfigError (List Str) := do
  let langs ← collectEntries (fun raw => Str.toAsciiLowercase (trim raw)) id
    (.invalid "VV_LANGS contains an empty entry".toList) src.intoVec [] ∅
  requireSome (.invalid "VV_LANGS must contain at least one entry".toList) langs

/-- Floats and the formatting of values in messages. -/
structure Floats (F : Type) where
  parse : Str → Option F
  isFinite : F → Bool
  le : F → F → Bool
  display : F → Str
  debugStr : Str → Str

/-- The loop of `parse_histogram_buckets`. -/
def collectBuckets (floats : Floats F) : List Str → List F → Except ConfigError (List F)
  | [], out => .ok out
  | raw :: entries, out =>
    let s := trim raw
    if s.isEmpty then .error (.invalid "VV_HISTOGRAM_BUCKETS contains an empty entry".toList)
    else match floats.parse s with
      | none => .error (.invalid ("VV_HISTOGRAM_BUCKETS entry ".toList ++ floats.debugStr s ++
          " is not a valid float".toList))
      | some v =>
        if !floats.isFinite v then
          .error (.invalid ("VV_HISTOGRAM_BUCKETS entry ".toList ++ floats.debugStr s ++
            " must be finite".toList))
        else match out.getLast? with
          | none => collectBuckets floats entries (out ++ [v])
          | some prev =>
            if floats.le v prev then
              .error (.invalid ("VV_HISTOGRAM_BUCKETS must be strictly ascending; ".toList ++
                floats.display v ++ " not greater than ".toList ++ floats.display prev))
            else collectBuckets floats entries (out ++ [v])

/-- `parse_histogram_buckets`. -/
def parseHistogramBuckets (floats : Floats F) (src : StringOrList) : Except ConfigError (List F) := do
  let out ← collectBuckets floats src.intoVec []
  requireSome (.invalid "VV_HISTOGRAM_BUCKETS must contain at least one entry".toList) out

/-- `raw.map(parse).transpose()?`. -/
def transposed (parse : α → Except ε β) : Option α → Except ε (Option β)
  | none => .ok none
  | some src => (parse src).map some

/-- `assemble`. -/
def assemble (floats : Floats F) (raw : RawConfig) : Except ConfigError (Config F) := do
  let listenAddr := raw.listenAddr.getD defaultListenAddr
  let apiKeys ← parseApiKeys raw.apiKeys
  let langs ← transposed parseLangs raw.langs
  let maxInflight := raw.maxInflight.getD defaultMaxInflight
  let histogramBuckets ← transposed (parseHistogramBuckets floats) raw.histogramBuckets
  return ⟨listenAddr, apiKeys, langs, maxInflight, histogramBuckets⟩

/-! ### Figment -/

/-- What figment holds for a key. -/
inductive Value where
  | string (s : Str)
  | char (c : Char)
  | bool (b : Bool)
  | integer (n : Int)
  | float
  | array (items : List Value)
  | dict (entries : List (Str × Value))

abbrev Dict := BTreeMap Value

/-- The third-party parts: the providers, already read, and the text of an error. -/
structure Figment where
  /-- `Value::from_str`, with which `Env` reads the text of a variable. -/
  envValue : Str → Value
  /-- `Env::prefixed("VV_").lowercase(true)`. -/
  env : List (Str × Str) → Dict
  /-- `Toml::file`; a syntax error is reported when the figment is extracted. -/
  tomlFile : Str → Except Str Dict
  /-- `Figment::merge`. -/
  merge : Dict → Dict → Dict
  /-- The error of a dictionary that does not deserialize. -/
  extractError : Dict → Str

/-- What the process sees of its host: the environment, all of it UTF-8, and
which paths exist. -/
structure Process where
  vars : List (Str × Str)
  pathExists : Str → Bool

/-- `build_figment`. -/
def buildFigment (figment : Figment) (process : Process) : Except ConfigError (Except Str Dict) :=
  let explicitPath := process.vars.lookup "VV_CONFIG_FILE".toList
  let tomlPath := explicitPath.getD defaultTomlPath
  let tomlExists := process.pathExists tomlPath
  if explicitPath.isSome && !tomlExists then .error (.tomlMissing tomlPath)
  else
    let f : Except Str Dict := if tomlExists then (figment.tomlFile tomlPath).map (figment.merge []) else .ok []
    .ok (f.map fun dict => figment.merge dict (figment.env process.vars))

/-- The prefix `VV_`, in any case, of a name without the blanks around it. -/
def prefixed (name : Str) : Bool := "vv_".toList.isPrefixOf (Str.toAsciiLowercase (trim name))

/-- A name of a single key: without dots, with which `Env` nests, and without
blanks that it takes away. -/
structure PlainName (name : Str) : Prop where
  undotted : '.' ∉ name
  trimmed : trim name = name
  keyTrimmed : trim (name.drop 3) = name.drop 3
  keyed : name.drop 3 ≠ []

/-- The variable sets this key: its name, in any case, is the key behind `VV_`. -/
def sets (key : Str) (entry : Str × Str) : Bool :=
  prefixed entry.1 && Str.toAsciiLowercase (entry.1.drop 3) == key

/-- The same value; of tables, which figment merges into each other, only that
both are tables. -/
def Alike (v w : Value) : Prop := v = w ∨ (∃ entries, v = .dict entries) ∧ ∃ entries, w = .dict entries

/-- What figment documents of the sources used here: the last variable with the
name of a key gives its value, and of two providers the later one. -/
structure Figment.Documented (figment : Figment) : Prop where
  env : ∀ vars, (∀ entry ∈ vars, prefixed entry.1 = true → PlainName entry.1) → ∀ key,
    Option.Rel Alike ((figment.env vars).lookup key)
      ((vars.filter (sets key)).getLast?.map fun entry => figment.envValue entry.2)
  merge : ∀ first second key,
    Option.Rel Alike ((figment.merge first second).lookup key) ((second.lookup key).or (first.lookup key))

/-- Deserializing a `String`, for which a character will do. -/
def asString : Value → Option Str
  | .string s => some s
  | .char c => some [c]
  | _ => none

/-- Deserializing a `String` inside an untagged enum, where a character will not
do. -/
def asBufferedString : Value → Option Str
  | .string s => some s
  | _ => none

/-- Deserializing a `usize`. -/
def asUsize : Value → Option Nat
  | .integer n => if 0 ≤ n ∧ n < 2 ^ 64 then some n.toNat else none
  | _ => none

/-- Deserializing the untagged `StringOrList`: a list of strings, else a string. -/
def asStringOrList : Value → Option StringOrList
  | .array items => (items.mapM asBufferedString).map .list
  | .string s => some (.csv s)
  | _ => none

/-- Deserializing the `Option` behind a key: absent is `None`. -/
def field (dict : Dict) (key : String) (read : Value → Option α) : Option (Option α) :=
  match dict.lookup key.toList with
  | none => some none
  | some value => (read value).map some

/-- Deserializing a `RawConfig`. -/
def extract (dict : Dict) : Option RawConfig := do
  let listenAddr ← field dict "listen_addr" asString
  let apiKeys ← field dict "api_keys" asStringOrList
  let langs ← field dict "langs" asStringOrList
  let maxInflight ← field dict "max_inflight" asUsize
  let histogramBuckets ← field dict "histogram_buckets" asStringOrList
  return ⟨listenAddr, apiKeys, langs, maxInflight, histogramBuckets⟩

/-- `load`. -/
def load (floats : Floats F) (figment : Figment) (process : Process) : Except ConfigError (Config F) := do
  match ← buildFigment figment process with
  | .error message => .error (.parse message)
  | .ok dict =>
    match extract dict with
    | none => .error (.parse (figment.extractError dict))
    | some raw => assemble floats raw

end Config

end VocabVeto
