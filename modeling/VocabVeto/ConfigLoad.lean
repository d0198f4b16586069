import VocabVeto.EnvValues

/-! What a server is configured with. Each setting is the last environment
variable of its name, else the entry of the file, else its default; and a
configuration loads exactly when every setting in effect is acceptable. -/
namespace VocabVeto.ConfigLoad
open Config ConfigProofs EnvValues

/-! ### The settings in effect -/

/-- The path of the file. -/
def tomlPath (process : Process) : Str := (process.vars.lookup "VV_CONFIG_FILE".toList).getD defaultTomlPath

/-- The contents of the file: nothing, if there is none and none is asked for. -/
inductive FileOf (figment : Figment) (process : Process) : Dict → Prop where
  | missing (unnamed : process.vars.lookup "VV_CONFIG_FILE".toList = none)
      (absent : process.pathExists defaultTomlPath = false) : FileOf figment process []
  | read (present : process.pathExists (tomlPath process) = true)
      (parsed : figment.tomlFile (tomlPath process) = .ok dict) : FileOf figment process dict

/-- The value in effect for a key. -/
def effective (figment : Figment) (process : Process) (file : Dict) (key : Str) : Option Value :=
  ((process.vars.filter (sets key)).getLast?.map fun entry => figment.envValue entry.2).or (file.lookup key)

/-- What a setting has to satisfy when it is not set, and when it is. -/
def Given (value : Option Value) (unset : Prop) (set : Value → Prop) : Prop :=
  match value with
  | none => unset
  | some v => set v

/-- The text of a setting, of which a character is one as well. -/
inductive Text : Value → Str → Prop where
  | string (s : Str) : Text (.string s) s
  | char (c : Char) : Text (.char c) [c]

/-- The entries of a list setting: a text at its commas, or an array of texts. -/
inductive Entries : Value → List Str → Prop where
  | text (s : Str) : Entries (.string s) (s.splitOn ',')
  | array (texts : List Str) : Entries (.array (texts.map .string)) texts

/-- What is kept of some entries, none of them blank: each one trimmed and
stored, once. -/
structure Kept [BEq κ] (store : Str → κ) (entries : List Str) (out : List κ) : Prop where
  nonempty : entries ≠ []
  filled : ∀ raw ∈ entries, trim raw ≠ []
  kept : out = (entries.map fun raw => store (trim raw)).eraseDups

/-- The bucket that an entry stands for. -/
def IsBucket (floats : Floats F) (raw : Str) (v : F) : Prop :=
  trim raw ≠ [] ∧ floats.parse (trim raw) = some v ∧ floats.isFinite v = true

/-- The buckets of these entries: finite, and each above the one before. -/
structure Buckets (floats : Floats F) (entries : List Str) (buckets : List F) : Prop where
  nonempty : entries ≠ []
  parsed : List.Forall₂ (IsBucket floats) entries buckets
  ascending : buckets.IsChain fun prev v => floats.le v prev = false

/-- A configuration is what these settings say. -/
structure Configures (floats : Floats F) (value : Str → Option Value) (config : Config F) : Prop where
  listenAddr : Given (value "listen_addr".toList) (config.listenAddr = defaultListenAddr)
    fun v => Text v config.listenAddr
  apiKeys : Given (value "api_keys".toList) False fun v => ∃ entries, Entries v entries ∧
    Kept Utf8.bytes entries config.apiKeys
  langs : Given (value "langs".toList) (config.langs = none) fun v => ∃ entries, Entries v entries ∧
    ∃ codes, Kept Str.toAsciiLowercase entries codes ∧ config.langs = some codes
  maxInflight : Given (value "max_inflight".toList) (config.maxInflight = defaultMaxInflight)
    fun v => v = .integer config.maxInflight ∧ config.maxInflight < 2 ^ 64
  histogramBuckets : Given (value "histogram_buckets".toList) (config.histogramBuckets = none)
    fun v => ∃ entries, Entries v entries ∧ ∃ buckets, Buckets floats entries buckets ∧ config.histogramBuckets = some buckets

/-! ### Buckets -/

theorem isChain_front {R : α → α → Prop} {out values : List α} :
    (out.getLast?.toList ++ v :: values).IsChain R ↔ (∀ prev ∈ out.getLast?, R prev v) ∧ (v :: values).IsChain R := by
  cases out.getLast? with
  | none => simp
  | some prev => simp

/-- The loop succeeds when the entries are finite numbers, each above the one
before, the last of those it had among them. -/
theorem collectBuckets_ok {floats : Floats F} (entries : List Str) (out : List F) :
    collectBuckets floats entries out = .ok kept ↔ ∃ values, kept = out ++ values ∧
      List.Forall₂ (IsBucket floats) entries values ∧
      (out.getLast?.toList ++ values).IsChain fun prev v => floats.le v prev = false := by
  induction entries generalizing out with
  | nil =>
    have short : (out.getLast?.toList).IsChain fun prev v => floats.le v prev = false := by
      cases out.getLast? <;> simp
    simp only [collectBuckets, Except.ok.injEq, List.forall₂_nil_left_iff]
    constructor
    · rintro rfl
      exact ⟨[], (List.append_nil out).symm, rfl, by rwa [List.append_nil]⟩
    · rintro ⟨_, rfl, rfl, -⟩
      exact (List.append_nil out).symm
  | cons raw entries ih =>
    have step : ∀ v, IsBucket floats raw v → (collectBuckets floats (raw :: entries) out = .ok kept ↔
        (∀ prev ∈ out.getLast?, floats.le v prev = false) ∧ collectBuckets floats entries (out ++ [v]) = .ok kept) := by
      rintro v ⟨filled, parsed, finite⟩
      have some : (trim raw).isEmpty = false := List.isEmpty_eq_false_iff.mpr filled
      simp only [collectBuckets, some, parsed, finite, Bool.not_true, Bool.false_eq_true, ↓reduceIte]
      cases out.getLast? with
      | none => simp
      | some prev => cases below : floats.le v prev <;> simp [below]
    have reads : collectBuckets floats (raw :: entries) out = .ok kept → ∃ v, IsBucket floats raw v := by
      intro made
      simp only [collectBuckets] at made
      split at made
      · cases made
      rename_i some
      split at made
      · cases made
      rename_i v parsed
      split at made
      · cases made
      rename_i finite
      exact ⟨v, by simpa using some, parsed, by simpa using finite⟩
    constructor
    · intro made
      obtain ⟨v, isBucket⟩ := reads made
      obtain ⟨above, later⟩ := (step v isBucket).mp made
      obtain ⟨values, rfl, parsed, chain⟩ := (ih _).mp later
      rw [List.getLast?_concat] at chain
      exact ⟨v :: values, List.append_assoc .., .cons isBucket parsed, isChain_front.mpr ⟨above, chain⟩⟩
    · rintro ⟨_, rfl, _ | ⟨isBucket, parsed⟩, chain⟩
      rename_i v values
      obtain ⟨above, chain⟩ := isChain_front.mp chain
      refine (step v isBucket).mpr ⟨above, (ih _).mpr ⟨values, by simp, parsed, ?_⟩⟩
      rw [List.getLast?_concat]
      exact chain

theorem parseHistogramBuckets_ok {floats : Floats F} {src : StringOrList} :
    parseHistogramBuckets floats src = .ok buckets ↔ Buckets floats src.intoVec buckets := by
  simp only [parseHistogramBuckets, bind_eq_ok, collectBuckets_ok, List.nil_append, requireSome]
  generalize src.intoVec = entries
  constructor
  · rintro ⟨_, ⟨values, rfl, parsed, chain⟩, checked⟩
    split at checked
    · cases checked
    · rename_i some
      obtain rfl := Except.ok.inj checked
      refine ⟨?_, parsed, chain⟩
      rintro rfl
      cases parsed
      exact some rfl
  · rintro ⟨some, parsed, chain⟩
    refine ⟨buckets, ⟨buckets, rfl, parsed, chain⟩, if_neg fun empty => some ?_⟩
    obtain rfl := List.isEmpty_iff.mp empty
    exact List.forall₂_nil_right_iff.mp parsed

/-! ### Settings -/

theorem strings_iff {items : List Value} : items.mapM asBufferedString = some texts ↔ items = texts.map .string := by
  induction items generalizing texts with
  | nil => simp [eq_comm]
  | cons item items ih =>
    rw [List.mapM_cons]
    cases item with
    | string s => cases texts <;> simp [asBufferedString, Option.bind_eq_some_iff, ih, and_comm]
    | _ => cases texts <;> simp [asBufferedString]

theorem entries_iff {v : Value} {p : List Str → Prop} :
    (∃ src, asStringOrList v = some src ∧ p src.intoVec) ↔ ∃ entries, Entries v entries ∧ p entries := by
  constructor
  · rintro ⟨src, read, holds⟩
    refine ⟨src.intoVec, ?_, holds⟩
    cases v with
    | string s =>
      obtain rfl := Option.some.inj read
      exact .text s
    | array items =>
      obtain ⟨texts, strings, rfl⟩ := Option.map_eq_some_iff.mp read
      rw [strings_iff.mp strings]
      exact .array texts
    | _ => cases read
  · rintro ⟨entries, shape, holds⟩
    cases shape with
    | text s => exact ⟨.csv s, rfl, holds⟩
    | array => exact ⟨.list entries, by rw [asStringOrList, strings_iff.mpr rfl]; rfl, holds⟩

section
variable {floats : Floats F} {dict : Dict} {config : Config F}

/-- A setting that is read from the dictionary and then checked, for the value in
effect. -/
theorem setting_iff {held : Option Value} (key : String) (read : Value → Option α) (p : Option α → Prop)
    {unset : Prop} {set : Value → Prop} (alike : Option.Rel Alike (dict.lookup key.toList) held)
    (noTable : ∀ entries, read (.dict entries) = none) (default : p none ↔ unset)
    (own : ∀ v, (∃ a, read v = some a ∧ p (some a)) ↔ set v) :
    (∃ found, field dict key read = some found ∧ p found) ↔ Given held unset set := by
  rw [field_held noTable alike]
  unfold Given
  cases held with
  | none => simpa using default
  | some v => simpa using own v

theorem transposed_ok {parse : α → Except ε β} : transposed parse none = .ok out ↔ out = none := by
  simp [transposed, eq_comm]

theorem assembled_iff : (∃ raw, extract dict = some raw ∧ assemble floats raw = .ok config) ↔
    (∃ found, field dict "listen_addr" asString = some found ∧ config.listenAddr = found.getD defaultListenAddr) ∧
    (∃ found, field dict "api_keys" asStringOrList = some found ∧ parseApiKeys found = .ok config.apiKeys) ∧
    (∃ found, field dict "langs" asStringOrList = some found ∧ transposed parseLangs found = .ok config.langs) ∧
    (∃ found, field dict "max_inflight" asUsize = some found ∧ config.maxInflight = found.getD defaultMaxInflight) ∧
    ∃ found, field dict "histogram_buckets" asStringOrList = some found ∧
      transposed (parseHistogramBuckets floats) found = .ok config.histogramBuckets := by
  simp only [extract, Option.bind_eq_bind, Option.bind_eq_some_iff, Option.pure_def, Option.some.injEq, assemble]
  constructor
  · rintro ⟨_, ⟨addr, readAddr, keys, readKeys, langs, readLangs, max, readMax, buckets, readBuckets, rfl⟩, assembled⟩
    obtain ⟨_, keysParsed, assembled⟩ := bind_eq_ok.mp assembled
    obtain ⟨_, langsParsed, assembled⟩ := bind_eq_ok.mp assembled
    obtain ⟨_, bucketsParsed, assembled⟩ := bind_eq_ok.mp assembled
    obtain rfl := Except.ok.inj assembled
    exact ⟨⟨addr, readAddr, rfl⟩, ⟨keys, readKeys, keysParsed⟩, ⟨langs, readLangs, langsParsed⟩, ⟨max, readMax, rfl⟩,
      ⟨buckets, readBuckets, bucketsParsed⟩⟩
  · rintro ⟨⟨addr, readAddr, addrIs⟩, ⟨keys, readKeys, keysParsed⟩, ⟨langs, readLangs, langsParsed⟩, ⟨max, readMax, maxIs⟩,
      ⟨buckets, readBuckets, bucketsParsed⟩⟩
    refine ⟨_, ⟨addr, readAddr, keys, readKeys, langs, readLangs, max, readMax, buckets, readBuckets, rfl⟩, ?_⟩
    simp only [keysParsed, langsParsed, bucketsParsed, bind_eq_ok, Except.ok.injEq, exists_eq_left']
    rw [← addrIs, ← maxIs]
    rfl

theorem asString_iff {v : Value} {s : Str} : (∃ a, asString v = some a ∧ s = (some a).getD d) ↔ Text v s := by
  constructor
  · rintro ⟨a, read, rfl⟩
    cases v with
    | string s =>
      obtain rfl := Option.some.inj read
      exact .string s
    | char c =>
      obtain rfl := Option.some.inj read
      exact .char c
    | _ => cases read
  · rintro (s | c)
    · exact ⟨s, rfl, rfl⟩
    · exact ⟨[c], rfl, rfl⟩

theorem asUsize_iff {v : Value} {n : Nat} :
    (∃ a, asUsize v = some a ∧ n = (some a).getD d) ↔ v = .integer n ∧ n < 2 ^ 64 := by
  cases v with
  | integer i =>
    simp only [asUsize, Option.getD_some, exists_eq_right', Value.integer.injEq]
    split
    · rename_i bounds
      rw [Option.some.injEq]
      omega
    · rename_i beyond
      refine iff_of_false nofun ?_
      rintro ⟨rfl, small⟩
      exact beyond ⟨by omega, by omega⟩
  | _ => simp [asUsize]

theorem kept_iff [BEq κ] {store : Str → κ} {entries : List Str} {out : List κ} : Kept store entries out ↔
    entries ≠ [] ∧ (∀ raw ∈ entries, trim raw ≠ []) ∧ out = (entries.map fun raw => store (trim raw)).eraseDups :=
  ⟨fun ⟨nonempty, filled, kept⟩ => ⟨nonempty, filled, kept⟩, fun ⟨nonempty, filled, kept⟩ => ⟨nonempty, filled, kept⟩⟩

/-- An optional list, where it is set. -/
theorem transposed_iff {parse : StringOrList → Except ConfigError κ} {accepts : List Str → κ → Prop} {v : Value}
    {out : Option κ} (exact : ∀ src k, parse src = .ok k ↔ accepts src.intoVec k) :
    (∃ src, asStringOrList v = some src ∧ transposed parse (some src) = .ok out) ↔
      ∃ entries, Entries v entries ∧ ∃ k, accepts entries k ∧ out = some k := by
  have parsed : ∀ src, transposed parse (some src) = .ok out ↔ ∃ k, accepts src.intoVec k ∧ out = some k := by
    intro src
    simp only [← exact, transposed]
    cases parse src <;> simp [Except.map, eq_comm]
  simp only [parsed]
  exact @entries_iff v fun entries => ∃ k, accepts entries k ∧ out = some k

/-- The settings in effect make the configuration. -/
theorem configures_iff {held : Str → Option Value} (alike : ∀ key, Option.Rel Alike (dict.lookup key) (held key)) :
    (∃ raw, extract dict = some raw ∧ assemble floats raw = .ok config) ↔ Configures floats held config := by
  have listenAddr := setting_iff "listen_addr" asString (fun found => config.listenAddr = found.getD defaultListenAddr)
    (alike _) (fun _ => rfl) Iff.rfl fun v => asString_iff
  have apiKeys := setting_iff "api_keys" asStringOrList (fun found => parseApiKeys found = .ok config.apiKeys)
    (alike _) (fun _ => rfl) (iff_of_false nofun id) fun v => by
      simp only [parseApiKeys_ok, ← kept_iff]
      exact @entries_iff v fun entries => Kept Utf8.bytes entries config.apiKeys
  have langs := setting_iff "langs" asStringOrList (fun found => transposed parseLangs found = .ok config.langs)
    (alike _) (fun _ => rfl) transposed_ok fun v => transposed_iff fun src k => parseLangs_ok.trans kept_iff.symm
  have maxInflight := setting_iff "max_inflight" asUsize
    (fun found => config.maxInflight = found.getD defaultMaxInflight)
    (alike _) (fun _ => rfl) Iff.rfl fun v => asUsize_iff
  have histogramBuckets := setting_iff "histogram_buckets" asStringOrList
    (fun found => transposed (parseHistogramBuckets floats) found = .ok config.histogramBuckets)
    (alike _) (fun _ => rfl) transposed_ok fun v => transposed_iff fun src k => parseHistogramBuckets_ok
  rw [assembled_iff, listenAddr, apiKeys, langs, maxInflight, histogramBuckets]
  exact ⟨fun ⟨a, b, c, d, e⟩ => ⟨a, b, c, d, e⟩, fun ⟨a, b, c, d, e⟩ => ⟨a, b, c, d, e⟩⟩

end

/-! ### Loading -/

section
variable {figment : Figment} {process : Process}

/-- What the environment is merged into. -/
def based (figment : Figment) (process : Process) (file : Dict) : Dict :=
  if process.pathExists (tomlPath process) then figment.merge [] file else file

theorem buildFigment_ok : buildFigment figment process = .ok (.ok dict) ↔
    ∃ file, FileOf figment process file ∧ dict = figment.merge (based figment process file) (figment.env process.vars) := by
  have made : buildFigment figment process =
      if (process.vars.lookup "VV_CONFIG_FILE".toList).isSome && !process.pathExists (tomlPath process) then
        .error (.tomlMissing (tomlPath process))
      else .ok ((if process.pathExists (tomlPath process) then (figment.tomlFile (tomlPath process)).map (figment.merge [])
        else .ok []).map fun dict => figment.merge dict (figment.env process.vars)) := rfl
  rw [made]
  unfold based
  cases present : process.pathExists (tomlPath process) with
  | true =>
    simp only [Bool.not_true, Bool.and_false, Bool.false_eq_true, ↓reduceIte, Except.ok.injEq]
    constructor
    · intro merged
      cases parsed : figment.tomlFile (tomlPath process) with
      | error message =>
        rw [parsed] at merged
        cases merged
      | ok own =>
        rw [parsed] at merged
        exact ⟨_, .read present parsed, (Except.ok.inj merged).symm⟩
    · rintro ⟨file, isFile, rfl⟩
      cases isFile with
      | missing unnamed absent =>
        rw [tomlPath, unnamed] at present
        exact absurd present (by simp [absent])
      | read _ parsed =>
        rw [parsed]
        rfl
  | false =>
    simp only [Bool.not_false, Bool.and_true, Bool.false_eq_true, ↓reduceIte]
    constructor
    · intro merged
      split at merged
      · cases merged
      · rename_i unnamed
        have unset : process.vars.lookup "VV_CONFIG_FILE".toList = none := Option.not_isSome_iff_eq_none.mp unnamed
        rw [tomlPath, unset] at present
        exact ⟨_, .missing unset present, (Except.ok.inj (Except.ok.inj merged)).symm⟩
    · rintro ⟨file, isFile, rfl⟩
      cases isFile with
      | missing unnamed absent =>
        rw [unnamed]
        rfl
      | read stated => exact absurd stated (by simp [present])

theorem lookup_effective (documented : figment.Documented)
    (plain : ∀ entry ∈ process.vars, prefixed entry.1 = true → PlainName entry.1) (file : Dict) (key : Str) :
    Option.Rel Alike ((figment.merge (based figment process file) (figment.env process.vars)).lookup key)
      (effective figment process file key) := by
  have under : Option.Rel Alike ((based figment process file).lookup key) (file.lookup key) := by
    unfold based
    split
    · have alone := documented.merge [] file key
      rwa [List.lookup_nil, Option.or_none] at alone
    · exact alike_refl _
  exact alike_trans (lookup_merged documented plain key) (alike_or (alike_refl _) under)

end

theorem load_ok {floats : Floats F} {figment : Figment} {process : Process} {config : Config F} :
    load floats figment process = .ok config ↔
      ∃ dict, buildFigment figment process = .ok (.ok dict) ∧
        ∃ raw, extract dict = some raw ∧ assemble floats raw = .ok config := by
  rw [load, bind_eq_ok]
  constructor
  · rintro ⟨outcome, built, parsed⟩
    cases outcome with
    | error message => cases parsed
    | ok dict =>
      refine ⟨dict, built, ?_⟩
      dsimp only at parsed
      cases extracted : extract dict with
      | none =>
        rw [extracted] at parsed
        cases parsed
      | some raw =>
        rw [extracted] at parsed
        exact ⟨raw, rfl, parsed⟩
  · rintro ⟨dict, built, raw, extracted, assembled⟩
    refine ⟨_, built, ?_⟩
    dsimp only
    rw [extracted]
    exact assembled

/-- A configuration loads exactly when the file in effect can be read and every
setting in effect is acceptable; and it is what those settings say. -/
theorem load_exact (floats : Floats F) (figment : Figment) (process : Process) (config : Config F)
    (documented : figment.Documented)
    (plain : ∀ entry ∈ process.vars, prefixed entry.1 = true → PlainName entry.1) :
    load floats figment process = .ok config ↔
      ∃ file, FileOf figment process file ∧ Configures floats (effective figment process file) config := by
  rw [load_ok]
  constructor
  · rintro ⟨dict, built, parsed⟩
    obtain ⟨file, isFile, rfl⟩ := buildFigment_ok.mp built
    exact ⟨file, isFile, (configures_iff (lookup_effective documented plain file)).mp parsed⟩
  · rintro ⟨file, isFile, configures⟩
    have parsed := (configures_iff (lookup_effective documented plain file)).mpr configures
    exact ⟨_, buildFigment_ok.mpr ⟨file, isFile, rfl⟩, parsed⟩

/-- The entries of a file. -/
def fileEntries : Dict :=
  [("listen_addr".toList, .string "127.0.0.1:7000".toList), ("max_inflight".toList, .integer 4)]

/-- Figment, with every file read as these. -/
def filedFigment : Figment := { plainFigment with tomlFile := fun _ => .ok fileEntries }

/-- A process that names the file, and sets one of its entries again. -/
def layered : Process where
  vars := [("VV_CONFIG_FILE".toList, "config.toml".toList), ("VV_API_KEYS".toList, "key-one,key-two".toList),
    ("VV_MAX_INFLIGHT".toList, "42".toList)]
  pathExists path := decide (path = "config.toml".toList)

theorem load_exact_layered :
    load wholeFloats filedFigment layered =
      .ok ⟨"127.0.0.1:7000".toList, [Utf8.bytes "key-one".toList, Utf8.bytes "key-two".toList], none, 42, none⟩ := by
  refine (load_exact _ filedFigment layered _ ⟨plainFigment_documented.env, plainFigment_documented.merge⟩ ?_).mpr
    ⟨fileEntries, .read (by decide) rfl, ?_⟩
  · intro entry member _
    rcases List.mem_cons.mp member with rfl | member
    · exact ⟨by decide, by decide, by decide, by decide⟩
    rcases List.mem_cons.mp member with rfl | member
    · exact ⟨by decide, by decide, by decide, by decide⟩
    obtain rfl := List.mem_singleton.mp member
    exact ⟨by decide, by decide, by decide, by decide⟩
  · exact
      { listenAddr := .string _
        apiKeys := ⟨_, .text _, by decide, by decide, by decide⟩
        langs := rfl
        maxInflight := ⟨rfl, by decide⟩
        histogramBuckets := rfl }

end VocabVeto.ConfigLoad
