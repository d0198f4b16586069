import VocabVeto.ConfigProofs

/-! A key list on its way from the environment to the parser. Figment reads the
text of a variable as a typed value first; only a text it leaves alone, up to
blanks at its ends, reaches the comma split as it was written, because whatever
else it reads is refused or has lost an opening bracket or quote. -/
namespace VocabVeto.EnvValues
open Config ConfigProofs TermsProofs

/-! ### What figment documents -/

/-- The content of a quotation or of a bracketed item: characters are kept,
escape sequences stand for one character, and blanks and quotes fall away.
Nothing else does; in particular no comma is lost. -/
inductive Reads : Str → Str → Prop where
  | nil : Reads [] []
  | keep (c : Char) (rest : Reads raw text) : Reads (c :: raw) (c :: text)
  | drop (c : Char) (visible : c ≠ ',') (rest : Reads raw text) : Reads (c :: raw) text
  | escape (c : Char) (code : Str) (plain : ',' ∉ code) (rest : Reads raw text) :
      Reads ('\\' :: (code ++ raw)) (c :: text)

/-- The text is read from behind this character, with which the value starts. -/
def Behind (opening : Char) (s text : Str) : Prop :=
  ∃ blanks raw rest, (∀ c ∈ blanks, isWhitespace c = true) ∧ s = blanks ++ opening :: (raw ++ rest) ∧ Reads raw text

/-- How `Env` may read the text of a variable: as a bool or a number, as an array
in brackets, a table in braces, a text in double quotes or a character in single
ones, and else as it is, where a text without separators loses the blanks around
it. -/
inductive EnvReading (s : Str) : Value → Prop where
  | bool (b : Bool) : EnvReading s (.bool b)
  | integer (n : Int) : EnvReading s (.integer n)
  | float : EnvReading s .float
  | array (items : List Value)
      (first : ∀ text rest, items = .string text :: rest → Behind '[' s text) : EnvReading s (.array items)
  | dict (entries : List (Str × Value)) : EnvReading s (.dict entries)
  | char (c : Char) : EnvReading s (.char c)
  | quoted (text : Str) (inside : Behind '"' s text) : EnvReading s (.string text)
  | plain : EnvReading s (.string s)
  | trimmed : EnvReading s (.string (trim s))

/-! ### The settings in effect -/

theorem trans_alike (first : Alike u v) (second : Alike v w) : Alike u w := by
  obtain rfl | ⟨table, ⟨entries, rfl⟩⟩ := first
  · exact second
  · obtain rfl | ⟨_, table'⟩ := second
    · exact .inr ⟨table, entries, rfl⟩
    · exact .inr ⟨table, table'⟩

theorem alike_trans {a b c : Option Value} (first : Option.Rel Alike a b) (second : Option.Rel Alike b c) :
    Option.Rel Alike a c := by
  cases first with
  | none => exact second
  | some first =>
    cases second with
    | some second => exact .some (trans_alike first second)

theorem alike_refl (a : Option Value) : Option.Rel Alike a a := by
  cases a with
  | none => exact .none
  | some v => exact .some (.inl rfl)

theorem alike_or {a a' b b' : Option Value} (first : Option.Rel Alike a a') (second : Option.Rel Alike b b') :
    Option.Rel Alike (a.or b) (a'.or b') := by
  cases first with
  | none => exact second
  | some first => exact .some first

/-- The environment over a file: its last variable for a key, else the entry of
the file. -/
theorem lookup_merged {figment : Figment} {vars : List (Str × Str)} {file : Dict} (documented : figment.Documented)
    (plain : ∀ entry ∈ vars, prefixed entry.1 = true → PlainName entry.1) (key : Str) :
    Option.Rel Alike ((figment.merge file (figment.env vars)).lookup key)
      (((vars.filter (sets key)).getLast?.map fun entry => figment.envValue entry.2).or (file.lookup key)) :=
  alike_trans (documented.merge _ _ _) (alike_or (documented.env _ plain _) (alike_refl _))

/-- What no table deserializes to is read from whatever value is in effect. -/
theorem field_held {dict : Dict} {key : String} {read : Value → Option α} {held : Option Value}
    (noTable : ∀ entries, read (.dict entries) = none) (alike : Option.Rel Alike (dict.lookup key.toList) held) :
    field dict key read = held.elim (some none) fun v => (read v).map some := by
  unfold field
  generalize dict.lookup key.toList = found at alike ⊢
  cases alike with
  | none => rfl
  | some alike =>
    obtain rfl | ⟨⟨_, rfl⟩, ⟨_, rfl⟩⟩ := alike
    · rfl
    · simp [noTable]

/-! ### Loading from one variable -/

/-- The only configuration is this value of `VV_API_KEYS`. -/
structure OnlyApiKeys (process : Process) (s : Str) : Prop where
  single : process.vars.filter (fun entry => prefixed entry.1) = [("VV_API_KEYS".toList, s)]
  noFile : process.pathExists defaultTomlPath = false

/-- The configuration loads, with the keys that the value itself is parsed to. -/
def LoadsVerbatim (floats : Floats F) (figment : Figment) (process : Process) (s : Str) : Prop :=
  ∃ config, load floats figment process = .ok config ∧ parseApiKeys (some (.csv s)) = .ok config.apiKeys

section
variable {floats : Floats F} {figment : Figment} {process : Process} {s : Str}

theorem buildFigment_only (only : OnlyApiKeys process s) :
    buildFigment figment process = .ok (.ok (figment.merge [] (figment.env process.vars))) := by
  have unset : process.vars.lookup "VV_CONFIG_FILE".toList = none := by
    rw [List.lookup_eq_none_iff]
    intro entry member
    rw [bne_iff_ne]
    intro named
    have kept : entry ∈ process.vars.filter (fun entry => prefixed entry.1) :=
      List.mem_filter.mpr ⟨member, by rw [← named]; decide⟩
    rw [only.single, List.mem_singleton] at kept
    have other : "VV_CONFIG_FILE".toList ≠ "VV_API_KEYS".toList := by decide
    exact other (named.trans (congrArg Prod.fst kept))
  unfold buildFigment
  simp only [unset, Option.getD_none, only.noFile, Option.isSome_none, Bool.false_and, Bool.false_eq_true,
    ↓reduceIte]
  rfl

theorem held_only (documented : figment.Documented) (only : OnlyApiKeys process s) (key : Str) :
    Option.Rel Alike ((figment.merge [] (figment.env process.vars)).lookup key)
      (if key = "api_keys".toList then some (figment.envValue s) else none) := by
  have plain : ∀ entry ∈ process.vars, prefixed entry.1 = true → PlainName entry.1 := by
    intro entry member ours
    have kept : entry ∈ process.vars.filter (fun entry => prefixed entry.1) := List.mem_filter.mpr ⟨member, ours⟩
    rw [only.single, List.mem_singleton] at kept
    have named : entry.1 = "VV_API_KEYS".toList := congrArg Prod.fst kept
    rw [named]
    exact ⟨by decide, by decide, by decide, by decide⟩
  have setters : process.vars.filter (sets key) =
      if key = "api_keys".toList then [("VV_API_KEYS".toList, s)] else [] := by
    have among : process.vars.filter (sets key) =
        (process.vars.filter fun entry => prefixed entry.1).filter fun entry =>
          Str.toAsciiLowercase (entry.1.drop 3) == key := by
      rw [List.filter_filter]
      exact List.filter_congr fun entry _ => Bool.and_comm _ _
    have own : Str.toAsciiLowercase ("VV_API_KEYS".toList.drop 3) = "api_keys".toList := by decide
    rw [among, only.single, List.filter_cons, List.filter_nil, own]
    by_cases asked : key = "api_keys".toList
    · rw [if_pos asked, asked, beq_self_eq_true, if_pos rfl]
    · rw [if_neg asked, beq_eq_false_iff_ne.mpr (Ne.symm asked), if_neg Bool.false_ne_true]
  have merged := @lookup_merged figment process.vars [] documented plain key
  rw [setters, List.lookup_nil, Option.or_none] at merged
  split at merged
  · rename_i asked
    rw [if_pos asked]
    exact merged
  · rename_i asked
    rw [if_neg asked]
    exact merged

/-- With this one variable, loading is deserializing and parsing its value. -/
theorem load_only (documented : figment.Documented) (only : OnlyApiKeys process s) :
    load floats figment process =
      match asStringOrList (figment.envValue s) with
      | none => .error (.parse (figment.extractError (figment.merge [] (figment.env process.vars))))
      | some src => (parseApiKeys (some src)).map fun keys =>
        ⟨defaultListenAddr, keys, none, defaultMaxInflight, none⟩ := by
  rw [load, buildFigment_only only]
  generalize found : figment.merge [] (figment.env process.vars) = dict
  have held : ∀ key : String, Option.Rel Alike (dict.lookup key.toList)
      (if key.toList = "api_keys".toList then some (figment.envValue s) else none) :=
    fun key => found ▸ held_only documented only key.toList
  have other : ∀ {α : Type} (key : String) (read : Value → Option α), key.toList ≠ "api_keys".toList →
      (∀ entries, read (.dict entries) = none) → field dict key read = some none := by
    intro α key read differs noTable
    rw [field_held noTable (held key), if_neg differs]
    rfl
  have extracted : extract dict =
      (asStringOrList (figment.envValue s)).map fun src => ⟨none, some src, none, none, none⟩ := by
    rw [extract, other "listen_addr" asString (by decide) fun _ => rfl,
      field_held (fun _ => rfl) (held "api_keys"), if_pos rfl,
      other "langs" asStringOrList (by decide) fun _ => rfl,
      other "max_inflight" asUsize (by decide) fun _ => rfl,
      other "histogram_buckets" asStringOrList (by decide) fun _ => rfl, Option.elim_some]
    cases asStringOrList (figment.envValue s) <;> rfl
  simp only [bind, Except.bind, extracted]
  cases asStringOrList (figment.envValue s) with
  | none => rfl
  | some src =>
    simp only [Option.map_some, assemble, bind, Except.bind]
    cases parseApiKeys (some src) <;> rfl

/-- The configuration loads exactly when the value deserializes, and to a list
that is parsed to the same keys as the text. -/
theorem loadsVerbatim_iff (documented : figment.Documented) (only : OnlyApiKeys process s) :
    LoadsVerbatim floats figment process s ↔ ∃ src keys, asStringOrList (figment.envValue s) = some src ∧
      parseApiKeys (some src) = .ok keys ∧ parseApiKeys (some (.csv s)) = .ok keys := by
  unfold LoadsVerbatim
  rw [load_only documented only]
  cases asStringOrList (figment.envValue s) with
  | none => simp
  | some src =>
    cases parsed : parseApiKeys (some src) with
    | error e => simp [parsed, Except.map]
    | ok keys => simp [parsed, Except.map]

end

/-! ### The first key -/

/-- The text up to its first comma. -/
def firstEntry (s : Str) : Str := s.takeWhile (· ≠ ',')

/-- The length of the first entry without the blanks after it. -/
def entryLength (s : Str) : Nat := ((firstEntry s).rdropWhile isWhitespace).length

theorem rdropWhile_cons (p : α → Bool) (a : α) (l : List α) :
    (a :: l).rdropWhile p = if l.rdropWhile p = [] ∧ p a = true then [] else a :: l.rdropWhile p := by
  rw [List.rdropWhile, List.reverse_cons, List.dropWhile_append]
  simp only [List.rdropWhile, List.isEmpty_iff, List.reverse_eq_nil_iff]
  by_cases gone : l.reverse.dropWhile p = []
  · cases dropped : p a <;> simp [gone, dropped]
  · simp [gone]

theorem entryLength_cons {c : Char} (visible : c ≠ ',') (s : Str) :
    entryLength (c :: s) = if entryLength s = 0 ∧ isWhitespace c = true then 0 else entryLength s + 1 := by
  have entry : firstEntry (c :: s) = c :: firstEntry s := by simp [firstEntry, visible]
  simp only [entryLength, entry, rdropWhile_cons, List.length_eq_zero_iff]
  split <;> rfl

theorem entryLength_drop {c : Char} (visible : c ≠ ',') (s : Str) : entryLength s ≤ entryLength (c :: s) := by
  rw [entryLength_cons visible]
  split <;> omega

theorem entryLength_keep (c : Char) (shorter : entryLength s ≤ entryLength t) :
    entryLength (c :: s) ≤ entryLength (c :: t) := by
  by_cases comma : c = ','
  · subst comma
    exact Nat.le_refl _
  · rw [entryLength_cons comma, entryLength_cons comma]
    cases isWhitespace c with
    | false => simpa using shorter
    | true =>
      simp only [and_true]
      split
      · exact Nat.zero_le _
      · split <;> omega

theorem entryLength_skip {code : Str} (plain : ',' ∉ code) (s : Str) :
    entryLength s ≤ entryLength (code ++ s) := by
  induction code with
  | nil => exact Nat.le_refl _
  | cons c code ih =>
    obtain ⟨visible, plain⟩ := not_or.mp (mt List.mem_cons.mpr plain)
    exact (ih plain).trans (entryLength_drop (Ne.symm visible) _)

theorem entryLength_append (s rest : Str) : entryLength s ≤ entryLength (s ++ rest) := by
  induction s with
  | nil => exact Nat.zero_le _
  | cons c s ih => exact entryLength_keep c ih

/-- What is read from a text has no longer first entry than the text. -/
theorem entryLength_reads (reads : Reads raw text) : entryLength text ≤ entryLength raw := by
  induction reads with
  | nil => exact Nat.le_refl _
  | keep c _ ih => exact entryLength_keep c ih
  | drop c visible _ ih => exact ih.trans (entryLength_drop visible _)
  | @escape raw text c code plain _ ih =>
    have behind := entryLength_skip plain raw
    have whole : entryLength ('\\' :: (code ++ raw)) = entryLength (code ++ raw) + 1 := by
      rw [entryLength_cons (by decide), if_neg (fun blank => absurd blank.2 (by decide))]
    rw [whole]
    by_cases comma : c = ','
    · subst comma
      exact Nat.zero_le _
    · rw [entryLength_cons comma]
      split <;> omega

/-- Trimming leaves at most that much of an entry. -/
theorem length_trim_le (s : Str) : (trim s).length ≤ (s.rdropWhile isWhitespace).length := by
  induction s with
  | nil => exact Nat.le_refl _
  | cons c s ih =>
    by_cases blank : isWhitespace c = true
    · have trimmed : trim (c :: s) = trim s := by rw [trim, List.dropWhile_cons_of_pos blank, trim]
      rw [trimmed, rdropWhile_cons]
      split <;> simp_all; omega
    · rw [trim, List.dropWhile_cons_of_neg blank]

theorem mem_trim (visible : isWhitespace c = false) (member : c ∈ s) : c ∈ trim s := by
  obtain ⟨front, back, cut, before, after⟩ := strip_cut isWhitespace s
  rw [cut] at member
  simp only [List.mem_append] at member
  obtain inFront | inside | inBack := member
  · rw [before c inFront] at visible
    cases visible
  · exact inside
  · rw [after c inBack] at visible
    cases visible

/-- The first entry of a text that starts with this character keeps it. -/
theorem length_trim_behind {blanks rest : Str} {first : Char}
    (blank : ∀ c ∈ blanks, isWhitespace c = true) (visible : isWhitespace first = false) (opens : first ≠ ',') :
    (trim (firstEntry (blanks ++ first :: rest))).length = entryLength rest + 1 := by
  have entry : firstEntry (blanks ++ first :: rest) = blanks ++ first :: firstEntry rest := by
    have clear : ∀ c ∈ blanks, decide (c ≠ ',') = true := by
      intro c member
      rw [decide_eq_true_eq]
      rintro rfl
      exact absurd (blank ',' member) (by decide)
    rw [firstEntry, List.takeWhile_append_of_pos clear, List.takeWhile_cons_of_pos (by simpa using opens)]
    rfl
  have shown : ¬ isWhitespace first = true := by simp [visible]
  rw [entry, trim, List.dropWhile_append_of_pos blank, List.dropWhile_cons_of_neg shown, rdropWhile_cons,
    if_neg (fun gone => shown gone.2)]
  rfl

/-- What is read from behind an opening character never trims to the first
entry of the text itself, whether it is taken whole or up to its first comma. -/
theorem behind_differs (behind : Behind opening s text) (visible : isWhitespace opening = false) (opens : opening ≠ ',')
    (taken : entry = text ∨ entry = firstEntry text) : trim entry ≠ trim (firstEntry s) := by
  intro same
  obtain ⟨blanks, raw, rest, blank, rfl, reads⟩ := behind
  have clean : ',' ∉ trim entry := by
    rw [same]
    intro comma
    have kept := List.mem_takeWhile_imp ((trim_within _).subset comma)
    simp at kept
  have whole : firstEntry text = entry := by
    obtain rfl | rfl := taken
    · refine List.takeWhile_eq_self_iff.mpr fun c among => ?_
      rw [decide_eq_true_eq]
      rintro rfl
      exact clean (mem_trim (by decide) among)
    · rfl
  have long : (trim (firstEntry (blanks ++ opening :: (raw ++ rest)))).length = entryLength (raw ++ rest) + 1 :=
    length_trim_behind blank visible opens
  have short : (trim entry).length ≤ entryLength text := whole ▸ length_trim_le entry
  have read := entryLength_reads reads
  have grown := entryLength_append raw rest
  rw [← same] at long
  omega

theorem intoVec_first (s : Str) : ∃ rest, (StringOrList.csv s).intoVec = firstEntry s :: rest := by
  rw [StringOrList.intoVec]
  by_cases comma : ',' ∈ s
  · obtain ⟨before, after, rfl, missing⟩ := List.eq_append_cons_of_mem comma
    have entry : firstEntry (before ++ ',' :: after) = before := by
      rw [firstEntry, List.takeWhile_append_of_pos (by simpa using fun c member => ne_of_mem_of_not_mem member missing)]
      simp
    rw [entry, List.splitOn_append_cons_self_of_not_mem missing]
    exact ⟨_, rfl⟩
  · have entry : firstEntry s = s :=
      List.takeWhile_eq_self_iff.mpr (by simpa using fun c member => ne_of_mem_of_not_mem member comma)
    rw [entry, List.splitOn_eq_singleton comma]
    exact ⟨_, rfl⟩

/-- Lists that are parsed to the same keys have the same first entry, trimmed. -/
theorem first_trimmed (first : src.intoVec = raw :: rest) (second : other.intoVec = raw' :: rest')
    (parsed : parseApiKeys (some src) = .ok keys) (parsed' : parseApiKeys (some other) = .ok keys) :
    trim raw = trim raw' := by
  obtain ⟨_, _, rfl⟩ := parseApiKeys_ok.mp parsed
  obtain ⟨_, _, same⟩ := parseApiKeys_ok.mp parsed'
  rw [first, second, List.map_cons, List.map_cons, List.eraseDups_cons, List.eraseDups_cons] at same
  exact Utf8.bytes_injective (List.cons.inj same).1

private theorem first_string {items : List Value} (read : items.mapM asBufferedString = some (text :: texts)) :
    ∃ rest, items = .string text :: rest := by
  cases items with
  | nil => cases read
  | cons item items =>
    cases item with
    | string s =>
      rw [List.mapM_cons] at read
      obtain ⟨head, taken, continued⟩ := Option.bind_eq_some_iff.mp read
      obtain ⟨tail, _, made⟩ := Option.bind_eq_some_iff.mp continued
      obtain ⟨rfl, -⟩ := List.cons.inj (Option.some.inj made)
      obtain rfl := Option.some.inj taken
      exact ⟨items, rfl⟩
    | _ => cases read

/-! ### Blanks around a list -/

theorem trim_before (before : ∀ c ∈ front, isWhitespace c = true) (s : Str) : trim (front ++ s) = trim s := by
  rw [trim, List.dropWhile_append_of_pos before, trim]

theorem trim_after (after : ∀ c ∈ back, isWhitespace c = true) (s : Str) : trim (s ++ back) = trim s := by
  obtain ⟨front, rear, cut, before, behind⟩ := strip_cut isWhitespace s
  have spelled : s ++ back = front ++ (trim s ++ (rear ++ back)) := by
    conv_lhs => rw [cut]
    simp only [List.append_assoc]
    rfl
  rw [spelled]
  exact trim_around before (fun c member => (List.mem_append.mp member).elim (behind c) (after c)) (trim_trimmed s)

theorem trim_trim (s : Str) : trim (trim s) = trim s := by
  have around := @trim_around [] (trim s) [] (by simp) (by simp) (trim_trimmed s)
  rwa [List.nil_append, List.append_nil] at around

theorem not_comma (blank : isWhitespace c = true) : c ≠ ',' := by
  rintro rfl
  exact absurd blank (by decide)

theorem splitOn_cons {c : Char} (visible : c ≠ ',') (s : Str) :
    (c :: s).splitOn ',' = (s.splitOn ',').modifyHead (List.cons c) := by
  rw [List.splitOn_cons_eq_if_modifyHead, if_neg (by simpa using visible)]

theorem trim_entries_before (before : ∀ c ∈ front, isWhitespace c = true) (s : Str) :
    ((front ++ s).splitOn ',').map trim = (s.splitOn ',').map trim := by
  induction front with
  | nil => rfl
  | cons c front ih =>
    obtain ⟨blank, before⟩ := List.forall_mem_cons.mp before
    rw [List.cons_append, splitOn_cons (not_comma blank), ← ih before]
    obtain ⟨first, rest, entries⟩ := List.exists_cons_of_ne_nil (List.splitOn_ne_nil ',' (front ++ s))
    have trimmed : trim (c :: first) = trim first := @trim_before [c] (by simpa using blank) first
    rw [entries, List.modifyHead_cons, List.map_cons, List.map_cons, trimmed]

/-- Blanks behind a list are blanks behind its last entry. -/
theorem entries_after (after : ∀ c ∈ back, isWhitespace c = true) (s : Str) :
    List.Forall₂ (fun longer entry => ∃ blanks, longer = entry ++ blanks ∧ ∀ c ∈ blanks, isWhitespace c = true)
      ((s ++ back).splitOn ',') (s.splitOn ',') := by
  induction s with
  | nil =>
    rw [List.nil_append, List.splitOn_nil, List.splitOn_eq_singleton fun comma => not_comma (after _ comma) rfl]
    exact .cons ⟨back, rfl, after⟩ .nil
  | cons c s ih =>
    by_cases comma : c = ','
    · subst comma
      rw [List.cons_append, List.splitOn_cons_eq_if_modifyHead, List.splitOn_cons_eq_if_modifyHead]
      exact .cons ⟨[], rfl, by simp⟩ ih
    · rw [List.cons_append, splitOn_cons comma, splitOn_cons comma]
      generalize (s ++ back).splitOn ',' = longer at ih ⊢
      generalize s.splitOn ',' = entries at ih ⊢
      cases ih with
      | nil => exact .nil
      | cons first rest =>
        obtain ⟨blanks, rfl, after⟩ := first
        exact .cons ⟨blanks, rfl, after⟩ rest

theorem trim_entries_after (after : ∀ c ∈ back, isWhitespace c = true) (s : Str) :
    ((s ++ back).splitOn ',').map trim = (s.splitOn ',').map trim := by
  have entries := entries_after after s
  generalize (s ++ back).splitOn ',' = longer at entries ⊢
  generalize s.splitOn ',' = shorter at entries ⊢
  induction entries with
  | nil => rfl
  | cons first _ ih =>
    obtain ⟨blanks, rfl, after⟩ := first
    rw [List.map_cons, List.map_cons, trim_after after, ih]

/-- The entries of a list are the same once they are trimmed, whether or not the
list was trimmed first. -/
theorem trim_entries (s : Str) : ((trim s).splitOn ',').map trim = (s.splitOn ',').map trim := by
  obtain ⟨front, back, cut, before, after⟩ := strip_cut isWhitespace s
  conv_rhs => rw [cut, trim_entries_before before, trim_entries_after after]
  rfl

/-- Blanks around the whole list change no key. -/
theorem parseApiKeys_trim (same : trim t = trim s) : parseApiKeys (some (.csv t)) = .ok keys ↔
    parseApiKeys (some (.csv s)) = .ok keys := by
  have entries : (t.splitOn ',').map trim = (s.splitOn ',').map trim := by
    rw [← trim_entries t, same, trim_entries]
  have kept : ∀ v : Str, parseApiKeys (some (.csv v)) = .ok keys ↔ (∀ entry ∈ (v.splitOn ',').map trim, entry ≠ []) ∧
      keys = (((v.splitOn ',').map trim).map Utf8.bytes).eraseDups := by
    intro v
    have some : (StringOrList.csv v).intoVec ≠ [] := List.splitOn_ne_nil ',' v
    rw [parseApiKeys_ok, and_iff_right some, List.forall_mem_map, List.map_map]
    rfl
  rw [kept, kept, entries]

/-- A list of keys in the environment loads as it is written exactly when it
reads as a text that is it, up to blanks at the ends: not as a bool, a number, a
character, an array, a table or a quotation. -/
theorem env_keys_verbatim_iff {floats : Floats F} {figment : Figment} {process : Process} {s : Str}
    (documented : figment.Documented) (reading : EnvReading s (figment.envValue s)) (only : OnlyApiKeys process s)
    (filled : ∀ raw ∈ s.splitOn ',', trim raw ≠ []) :
    LoadsVerbatim floats figment process s ↔ ∃ t, figment.envValue s = .string t ∧ trim t = trim s := by
  rw [loadsVerbatim_iff documented only]
  obtain ⟨rest, pieces⟩ := intoVec_first s
  constructor
  · rintro ⟨src, keys, read, parsed, wanted⟩
    generalize figment.envValue s = value at reading read ⊢
    cases reading with
    | array items first =>
      obtain ⟨texts, strings, rfl⟩ := Option.map_eq_some_iff.mp read
      cases texts with
      | nil => exact absurd rfl (parseApiKeys_ok.mp parsed).1
      | cons text texts =>
        obtain ⟨others, spelled⟩ := first_string strings
        have differs := behind_differs (first text others spelled) (by decide) (by decide) (.inl rfl)
        exact absurd (first_trimmed rfl pieces parsed wanted) differs
    | quoted text inside =>
      obtain rfl := Option.some.inj read
      obtain ⟨more, entries⟩ := intoVec_first text
      have differs := behind_differs inside (by decide) (by decide) (.inr rfl)
      exact absurd (first_trimmed entries pieces parsed wanted) differs
    | plain => exact ⟨s, rfl, rfl⟩
    | trimmed => exact ⟨trim s, rfl, trim_trim s⟩
    | bool | integer | float | char | dict => cases read
  · rintro ⟨t, verbatim, same⟩
    have some : (StringOrList.csv s).intoVec ≠ [] := List.splitOn_ne_nil ',' s
    have parsed := parseApiKeys_ok.mpr ⟨some, filled, rfl⟩
    exact ⟨.csv t, _, by rw [verbatim]; rfl, (parseApiKeys_trim same).mpr parsed, parsed⟩

/-! ### A reader of words and numbers -/

/-- The number these digits write, if they are digits. -/
def wholeNumber (s : Str) : Option Nat :=
  if s ≠ [] ∧ s.all Char.isDigit then some (s.foldl (fun n c => 10 * n + (c.toNat - '0'.toNat)) 0) else none

/-- Figment on values without brackets, quotes, signs and points. -/
def plainReading (s : Str) : Value :=
  if s = "true".toList then .bool true
  else if s = "false".toList then .bool false
  else match wholeNumber s with
    | some n => .integer n
    | none => if ',' ∈ s then .string s else .string (trim s)

/-- Its environment, where no name has a dot. -/
def plainEnv (vars : List (Str × Str)) : Dict :=
  vars.foldl (fun dict entry =>
    if prefixed entry.1 then
      BTreeMap.insert (Str.toAsciiLowercase (entry.1.drop 3)) (plainReading entry.2) dict
    else dict) []

def plainFigment : Figment where
  envValue := plainReading
  env := plainEnv
  tomlFile _ := .ok []
  merge first second := second.foldr (fun entry dict => BTreeMap.insert entry.1 entry.2 dict) first
  extractError _ := "data did not match any variant of untagged enum StringOrList".toList

/-- Whole numbers as floats, enough where no bucket is configured. -/
def wholeFloats : Floats Nat where
  parse := wholeNumber
  isFinite _ := true
  le a b := decide (a ≤ b)
  display n := (toString n).toList
  debugStr s := '"' :: s ++ ['"']

/-- A process with a shell's variables and this list of keys. -/
def started (s : Str) : Process where
  vars := [("PATH".toList, "/usr/bin".toList), ("VV_API_KEYS".toList, s)]
  pathExists _ := false

theorem plainReading_reads (s : Str) : EnvReading s (plainFigment.envValue s) := by
  unfold plainFigment plainReading
  dsimp only
  split
  · exact .bool true
  · split
    · exact .bool false
    · split
      · exact .integer _
      · split
        · exact .plain
        · exact .trimmed

theorem lookup_plainEnv (vars : List (Str × Str)) (key : Str) :
    (plainEnv vars).lookup key = (vars.filter (sets key)).getLast?.map fun entry => plainReading entry.2 := by
  induction vars using List.reverseRecOn with
  | nil => rfl
  | append_singleton vars entry ih =>
    have last : plainEnv (vars ++ [entry]) = if prefixed entry.1 then
        BTreeMap.insert (Str.toAsciiLowercase (entry.1.drop 3)) (plainReading entry.2) (plainEnv vars)
      else plainEnv vars := by simp [plainEnv]
    rw [last, List.filter_append]
    by_cases ours : prefixed entry.1 = true
    · rw [if_pos ours, BTreeMap.lookup_insert]
      by_cases named : key = Str.toAsciiLowercase (entry.1.drop 3)
      · have set : sets key entry = true := by simp [sets, ours, named]
        simp [named.symm, set]
      · have other : sets key entry = false := by simp [sets, Ne.symm named]
        simp [if_neg named, other, ih]
    · have other : sets key entry = false := by simp [sets, ours]
      simp [ours, other, ih]

theorem plainFigment_documented : plainFigment.Documented := by
  constructor
  · intro vars _ key
    rw [show plainFigment.env = plainEnv from rfl, lookup_plainEnv]
    exact alike_refl _
  · intro first second key
    have merged : (plainFigment.merge first second).lookup key = (second.lookup key).or (first.lookup key) := by
      induction second with
      | nil => rfl
      | cons entry second ih =>
        have inserted : plainFigment.merge first (entry :: second) =
            BTreeMap.insert entry.1 entry.2 (plainFigment.merge first second) := rfl
        rw [inserted, BTreeMap.lookup_insert, ih, List.lookup_cons]
        by_cases asked : key = entry.1
        · simp [asked]
        · rw [if_neg asked, beq_eq_false_iff_ne.mpr asked]
    rw [merged]
    exact alike_refl _

theorem started_only (s : Str) : OnlyApiKeys (started s) s := ⟨rfl, rfl⟩

theorem env_keys_verbatim_iff_pair :
    LoadsVerbatim wholeFloats plainFigment (started "key-one, key-two ".toList) "key-one, key-two ".toList ∧
      LoadsVerbatim wholeFloats plainFigment (started " key-one".toList) " key-one".toList :=
  ⟨(env_keys_verbatim_iff plainFigment_documented (plainReading_reads _) (started_only _) (by decide)).mpr ⟨_, rfl, by decide⟩,
    (env_keys_verbatim_iff plainFigment_documented (plainReading_reads _) (started_only _) (by decide)).mpr ⟨_, rfl, by decide⟩⟩

/-- A key of digits is well formed, and with it the service does not start. -/
theorem digits_key_refused :
    (∀ raw ∈ "1234567890123456".toList.splitOn ',', trim raw ≠ []) ∧ plainFigment.Documented ∧
      EnvReading "1234567890123456".toList (plainFigment.envValue "1234567890123456".toList) ∧
      OnlyApiKeys (started "1234567890123456".toList) "1234567890123456".toList ∧
      ¬ LoadsVerbatim wholeFloats plainFigment (started "1234567890123456".toList)
        "1234567890123456".toList := by
  refine ⟨by decide, plainFigment_documented, plainReading_reads _, started_only _, ?_⟩
  rw [loadsVerbatim_iff plainFigment_documented (started_only _)]
  rintro ⟨src, keys, read, _⟩
  have number : plainFigment.envValue "1234567890123456".toList = .integer 1234567890123456 := rfl
  rw [number] at read
  cases read

end VocabVeto.EnvValues
