import VocabVeto.Core.Config
import VocabVeto.TermsProofs

/-! Lists in the configuration. The two parsers share one loop, which keeps the
first of equal entries; they trim every kind of whitespace, where the documented
rule removes only the ASCII kind. -/
namespace VocabVeto.ConfigProofs
open Config TermsProofs

/-! ### The documented rule -/

/-- `char::is_ascii_whitespace`. -/
def isAsciiWhitespace (c : Char) : Bool :=
  c == ' ' || c == '\t' || c == '\n' || c == '\x0C' || c == '\r'

/-- Trimming as documented: only ASCII whitespace is removed. -/
def asciiTrim (s : Str) : Str := (s.dropWhile isAsciiWhitespace).rdropWhile isAsciiWhitespace

/-- The documented value of a list: none of its trimmed entries may be empty, at
least one is needed, and of equal ones the first stays. -/
def documented [BEq κ] (store : Str → κ) (entries : List Str) : Option (List κ) :=
  if entries = [] ∨ ∃ raw ∈ entries, asciiTrim raw = [] then none
  else some (entries.map fun raw => store (asciiTrim raw)).eraseDups

/-- Keys and languages are parsed by the documented rule. -/
structure DocumentedParsing (src : StringOrList) : Prop where
  keys : (parseApiKeys (some src)).toOption = documented Utf8.bytes src.intoVec
  langs : (parseLangs src).toOption = documented Str.toAsciiLowercase src.intoVec

/-- The code strips no more than ASCII whitespace from any entry, or an entry is
blank by either rule. -/
def AsciiBlanksOnly (src : StringOrList) : Prop :=
  (∀ raw ∈ src.intoVec, trim raw = asciiTrim raw) ∨ ∃ raw ∈ src.intoVec, asciiTrim raw = []

/-! ### The two ways of trimming -/

theorem isWhitespace_of_ascii (blank : isAsciiWhitespace c = true) : isWhitespace c = true := by
  simp only [isAsciiWhitespace, Bool.or_eq_true, beq_iff_eq] at blank
  obtain (((rfl | rfl) | rfl) | rfl) | rfl := blank <;> decide

/-- Blanks around a trimmed text are exactly what trimming removes. -/
theorem trim_around {front middle back : Str} (before : ∀ c ∈ front, isWhitespace c = true)
    (after : ∀ c ∈ back, isWhitespace c = true) (trimmed : Trimmed middle) :
    trim (front ++ (middle ++ back)) = middle := by
  have stripped : trim (front ++ (middle ++ back)) = trim (middle ++ back) := by
    rw [trim, List.dropWhile_append_of_pos before, trim]
  rw [stripped]
  cases middle with
  | nil =>
    rw [List.nil_append, trim, List.dropWhile_eq_nil_iff.mpr after]
    rfl
  | cons c rest =>
    have stays : ((c :: rest) ++ back).dropWhile isWhitespace = (c :: rest) ++ back := by
      rw [List.cons_append, List.dropWhile_cons_of_neg]
      simp [trimmed.1 c rfl]
    obtain ⟨init, last, spelled⟩ := (List.eq_nil_or_concat' (c :: rest)).resolve_left (List.cons_ne_nil _ _)
    have kept : ((c :: rest) ++ back).rdropWhile isWhitespace = (c :: rest).rdropWhile isWhitespace := by
      rw [List.rdropWhile, List.reverse_append, List.dropWhile_append_of_pos (by simpa using after)]
      rfl
    rw [trim, stays, kept, spelled, List.rdropWhile_concat_neg]
    have ends : (c :: rest).getLast? = some last := by rw [spelled, List.getLast?_concat]
    simp [trimmed.2 last ends]

/-- Stripping a text removes a run of such characters at either end. -/
theorem strip_cut (blank : Char → Bool) (s : Str) :
    ∃ front back, s = front ++ ((s.dropWhile blank).rdropWhile blank ++ back) ∧
      (∀ c ∈ front, blank c = true) ∧ ∀ c ∈ back, blank c = true := by
  refine ⟨s.takeWhile blank, (s.dropWhile blank).rtakeWhile blank, ?_,
    fun c member => List.mem_takeWhile_imp member, fun c member => List.mem_rtakeWhile_imp member⟩
  rw [List.rdropWhile_append_rtakeWhile, List.takeWhile_append_dropWhile]

/-- The two ways of trimming agree where the documented one leaves no
whitespace of another kind at an end. -/
theorem trim_eq_asciiTrim (trimmed : Trimmed (asciiTrim raw)) : trim raw = asciiTrim raw := by
  obtain ⟨front, back, cut, before, after⟩ := strip_cut isAsciiWhitespace raw
  have around := trim_around (fun c member => isWhitespace_of_ascii (before c member))
    (fun c member => isWhitespace_of_ascii (after c member)) trimmed
  rwa [asciiTrim, ← cut] at around

theorem trim_blank (blank : asciiTrim raw = []) : trim raw = [] := by
  rw [trim_eq_asciiTrim (by rw [blank]; exact ⟨nofun, nofun⟩), blank]

/-! ### The shared loop -/

private theorem eraseDups_seen [BEq κ] [LawfulBEq κ] {out rest : List κ} (seen : x ∈ out) :
    (out ++ x :: rest).eraseDups = (out ++ rest).eraseDups := by
  rw [List.eraseDups_append, List.eraseDups_append]
  simp [List.removeAll, seen]

private theorem eraseDups_fresh [BEq κ] [LawfulBEq κ] {out : List κ} (distinct : out.eraseDups = out) (fresh : x ∉ out) :
    (out ++ [x]).eraseDups = out ++ [x] := by
  rw [List.eraseDups_append, distinct]
  simp [List.removeAll, fresh, List.eraseDups_cons]

section
variable [DecidableEq κ] [BEq κ] [LawfulBEq κ] {shape : Str → Str} {store : Str → κ} {emptyEntry missing : ConfigError}

/-- The loop succeeds when no entry is shaped to nothing, and then has kept the
first of equal ones. -/
theorem collectEntries_ok (entries : List Str) (out : List κ) (distinct : out.eraseDups = out) :
    collectEntries shape store emptyEntry entries out out.toFinset = .ok kept ↔
      (∀ raw ∈ entries, shape raw ≠ []) ∧
        kept = (out ++ entries.map fun raw => store (shape raw)).eraseDups := by
  induction entries generalizing out with
  | nil => simp [collectEntries, distinct, eq_comm]
  | cons raw entries ih =>
    unfold collectEntries
    by_cases empty : shape raw = []
    · simp [empty]
    · have filled : (shape raw).isEmpty = false := by simpa using empty
      simp only [filled, Bool.false_eq_true, ↓reduceIte, List.mem_toFinset, List.forall_mem_cons,
        ne_eq, empty, not_false_eq_true, true_and, List.map_cons]
      by_cases seen : store (shape raw) ∈ out
      · rw [if_pos seen, ih out distinct, eraseDups_seen seen]
      · have grown : insert (store (shape raw)) out.toFinset = (out ++ [store (shape raw)]).toFinset := by
          ext other
          simp
        rw [if_neg seen, grown, ih _ (eraseDups_fresh distinct seen), List.append_assoc]
        rfl

/-- The loop with the check after it. -/
theorem parsed_ok (entries : List Str) :
    (collectEntries shape store emptyEntry entries [] ∅ >>= requireSome missing) = .ok kept ↔
      entries ≠ [] ∧ (∀ raw ∈ entries, shape raw ≠ []) ∧
        kept = (entries.map fun raw => store (shape raw)).eraseDups := by
  have loop : ∀ out, collectEntries shape store emptyEntry entries [] ∅ = .ok out ↔
      (∀ raw ∈ entries, shape raw ≠ []) ∧ out = (entries.map fun raw => store (shape raw)).eraseDups :=
    fun out => collectEntries_ok entries [] rfl
  simp only [bind_eq_ok, loop, requireSome]
  constructor
  · rintro ⟨out, ⟨filled, rfl⟩, checked⟩
    split at checked
    · cases checked
    · rename_i some
      refine ⟨?_, filled, (Except.ok.inj checked).symm⟩
      rintro rfl
      exact some rfl
  · rintro ⟨some, filled, rfl⟩
    refine ⟨_, ⟨filled, rfl⟩, ?_⟩
    obtain ⟨raw, entries, rfl⟩ := List.exists_cons_of_ne_nil some
    simp [List.eraseDups_cons]

end

/-- `parse_api_keys` accepts lists of nonblank entries, and returns their
trimmed bytes, each once. -/
theorem parseApiKeys_ok {src : StringOrList} : parseApiKeys (some src) = .ok keys ↔
    src.intoVec ≠ [] ∧ (∀ raw ∈ src.intoVec, trim raw ≠ []) ∧
      keys = (src.intoVec.map fun raw => Utf8.bytes (trim raw)).eraseDups := parsed_ok _

theorem lowercase_eq_nil {s : Str} : Str.toAsciiLowercase s = [] ↔ s = [] := List.map_eq_nil_iff

/-- `parse_langs` accepts the same lists, and returns the trimmed codes in
lowercase. -/
theorem parseLangs_ok {src : StringOrList} : parseLangs src = .ok codes ↔
    src.intoVec ≠ [] ∧ (∀ raw ∈ src.intoVec, trim raw ≠ []) ∧
      codes = (src.intoVec.map fun raw => Str.toAsciiLowercase (trim raw)).eraseDups := by
  refine (parsed_ok _).trans ?_
  simp only [ne_eq, lowercase_eq_nil, id]

/-! ### Where the parsers follow the documentation -/

theorem toOption_eq {result : Except ε α} {expected : Option α} :
    result.toOption = expected ↔ ∀ a, result = .ok a ↔ expected = some a := by
  cases result <;> cases expected <;> simp [Except.toOption, eq_comm]

theorem documented_some [BEq κ] {store : Str → κ} {entries : List Str} :
    documented store entries = some kept ↔ entries ≠ [] ∧ (∀ raw ∈ entries, asciiTrim raw ≠ []) ∧
      kept = (entries.map fun raw => store (asciiTrim raw)).eraseDups := by
  unfold documented
  split
  · rename_i refused
    constructor
    · nofun
    · rintro ⟨some, filled, _⟩
      obtain empty | ⟨raw, member, blank⟩ := refused
      · exact absurd empty some
      · exact absurd blank (filled raw member)
  · rename_i accepted
    obtain ⟨some, filled⟩ := not_or.mp accepted
    rw [Option.some.injEq, eq_comm]
    exact ⟨fun spelled => ⟨some, fun raw member blank => filled ⟨raw, member, blank⟩, spelled⟩, fun all => all.2.2⟩

/-- A list of nonblank entries whose keys are those of the documented rule is
trimmed as documented: no parsed key has any whitespace at an end. -/
theorem trims_agree {entries : List Str}
    (same : (entries.map fun raw => Utf8.bytes (trim raw)).eraseDups =
      (entries.map fun raw => Utf8.bytes (asciiTrim raw)).eraseDups) :
    ∀ raw ∈ entries, trim raw = asciiTrim raw := by
  intro raw member
  have expected : Utf8.bytes (asciiTrim raw) ∈ (entries.map fun raw => Utf8.bytes (trim raw)).eraseDups := by
    rw [same, List.mem_eraseDups]
    exact List.mem_map_of_mem member
  obtain ⟨other, _, spelled⟩ := List.mem_map.mp (List.mem_eraseDups.mp expected)
  apply trim_eq_asciiTrim
  rw [← Utf8.bytes_injective spelled]
  exact trim_trimmed other

/-- Where the documented rule strips as much, or refuses the list, the parsers do
what it says, however the entries are stored. -/
theorem documented_agrees [BEq κ] {store : Str → κ} {src : StringOrList} (plain : AsciiBlanksOnly src) :
    (src.intoVec ≠ [] ∧ (∀ raw ∈ src.intoVec, trim raw ≠ []) ∧
        kept = (src.intoVec.map fun raw => store (trim raw)).eraseDups) ↔
      documented store src.intoVec = some kept := by
  rw [documented_some]
  obtain same | ⟨raw, member, blank⟩ := plain
  · rw [List.map_congr_left fun raw member => congrArg store (same raw member)]
    refine and_congr Iff.rfl (and_congr ?_ Iff.rfl)
    exact forall₂_congr fun raw member => by rw [same raw member]
  · constructor
    · rintro ⟨_, filled, _⟩
      exact absurd (trim_blank blank) (filled raw member)
    · rintro ⟨_, filled, _⟩
      exact absurd blank (filled raw member)

/-- A list keeps its entries when it is written with commas between them. -/
theorem intoVec_csv {v : List Str} (some : v ≠ []) (separate : ∀ raw ∈ v, ',' ∉ raw) :
    (StringOrList.csv (join ",".toList v)).intoVec = v := List.splitOn_intercalate ',' separate some

/-- The parsers do what is documented exactly for the lists whose entries carry
only ASCII whitespace; and for every list without commas an array and the
comma-separated string give one result. -/
theorem lists_parsed_as_documented (src : StringOrList) :
    (DocumentedParsing src ↔ AsciiBlanksOnly src) ∧
      ∀ v : List Str, v ≠ [] → (∀ raw ∈ v, ',' ∉ raw) →
        parseApiKeys (some (.list v)) = parseApiKeys (some (.csv (join ",".toList v))) ∧
          parseLangs (.list v) = parseLangs (.csv (join ",".toList v)) := by
  constructor
  · constructor
    · intro follows
      by_cases blank : ∃ raw ∈ src.intoVec, asciiTrim raw = []
      · exact .inr blank
      · refine .inl fun raw member => ?_
        have filled : ∀ raw ∈ src.intoVec, asciiTrim raw ≠ [] := fun raw among empty => blank ⟨raw, among, empty⟩
        have accepted : documented Utf8.bytes src.intoVec =
            some (src.intoVec.map fun raw => Utf8.bytes (asciiTrim raw)).eraseDups :=
          documented_some.mpr ⟨List.ne_nil_of_mem member, filled, rfl⟩
        have parsed := (toOption_eq.mp follows.keys _).mpr accepted
        exact trims_agree (parseApiKeys_ok.mp parsed).2.2.symm raw member
    · intro plain
      constructor
      · exact toOption_eq.mpr fun keys => parseApiKeys_ok.trans (documented_agrees plain)
      · exact toOption_eq.mpr fun codes => parseLangs_ok.trans (documented_agrees plain)
  · intro v some separate
    have same := intoVec_csv some separate
    constructor
    · rw [parseApiKeys, parseApiKeys, same]
      rfl
    · rw [parseLangs, parseLangs, same]
      rfl

theorem lists_parsed_as_documented_pair :
    DocumentedParsing (.csv " key-one,key-two\t".toList) ∧
      parseApiKeys (some (.list ["key-one".toList, "key-two".toList])) =
        parseApiKeys (some (.csv "key-one,key-two".toList)) := by
  obtain ⟨exact, agree⟩ := lists_parsed_as_documented (.csv " key-one,key-two\t".toList)
  exact ⟨exact.mpr (.inl (by decide)), (agree ["key-one".toList, "key-two".toList] (by decide) (by decide)).1⟩

/-- A key that ends in a no-break space is configured without it. -/
theorem no_break_space_stripped : ¬ DocumentedParsing (.csv "key-one\u00A0".toList) := by
  intro follows
  have altered : (parseApiKeys (some (.csv "key-one\u00A0".toList))).toOption ≠
      documented Utf8.bytes (StringOrList.csv "key-one\u00A0".toList).intoVec := by decide
  exact altered follows.keys

end VocabVeto.ConfigProofs
