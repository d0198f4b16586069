import VocabVeto.Core.Build
import VocabVeto.Core.Service
import VocabVeto.TermsProofs

/-! The build, from the vendored files to the tables in the binary: what is
written is what is read, for words in any script, and the table holds exactly the
words of the files. -/
namespace VocabVeto.BuildProofs
open Lexing Build TermsProofs

/-! ### Literals -/

theorem hexVal_hexDigit {d : Nat} (small : d < 16) : hexVal (hexDigit d) = some d := by
  have known : ∀ d < 16, hexVal (hexDigit d) = some d := by decide
  exact known d small

theorem hexDigit_ne {d : Nat} (small : d < 16) : hexDigit d ≠ '\x7d' := by
  have known : ∀ d < 16, hexDigit d ≠ '\x7d' := by decide
  exact known d small

theorem reads_digits (read : Str) (ds : List Nat) (small : ∀ d ∈ ds, d < 16) (k value : Nat) (few : k + ds.length ≤ 6) :
    Reads lex (.hex read k value) (ds.map hexDigit) []
      (.hex read (k + ds.length) (ds.foldl (fun value d => 16 * value + d) value)) := by
  induction ds generalizing k value with
  | nil => exact reads_nil _
  | cons d ds ih =>
    obtain ⟨first, rest⟩ := List.forall_mem_cons.mp small
    rw [List.length_cons] at few
    have stepped : lex (.hex read k value) (hexDigit d) = some ([], .hex read (k + 1) (16 * value + d)) := by
      have unfinished : ¬ k = 6 := by omega
      simp only [lex, if_neg (hexDigit_ne first), if_neg unfinished, hexVal_hexDigit first, Option.map_some]
    have later := ih rest (k + 1) (16 * value + d) (by omega)
    rw [show k + 1 + ds.length = k + (d :: ds).length by rw [List.length_cons]; omega] at later
    exact later.skip stepped

/-- The digits of a scalar value are read back as the character. -/
theorem reads_unicode (read : Str) {c : Char} (visible : c ≠ '\x00') :
    Reads lex (.text read) (escapeUnicode c) [] (.text (read ++ [c])) := by
  have valid : c.toNat.isValidChar := c.valid
  have positive : c.toNat ≠ 0 := fun zero => visible (by rw [← Char.ofNat_toNat c, zero])
  have present : 0 < ((Nat.digits 16 c.toNat).reverse).length := by
    rw [List.length_reverse]
    exact List.length_pos_iff.mpr (Nat.digits_ne_nil_iff_ne_zero.mpr positive)
  have few : ((Nat.digits 16 c.toNat).reverse).length ≤ 6 := by
    rw [List.length_reverse, Nat.digits_length_le_iff (by decide)]
    simp only [Nat.isValidChar] at valid
    omega
  have small : ∀ d ∈ (Nat.digits 16 c.toNat).reverse, d < 16 := fun d member =>
    Nat.digits_lt_base (by decide) (List.mem_reverse.mp member)
  have value : ((Nat.digits 16 c.toNat).reverse).foldl (fun value d => 16 * value + d) 0 = c.toNat := by
    rw [List.foldl_reverse]
    have summed := Nat.ofDigits_digits 16 c.toNat
    rw [Nat.ofDigits_eq_foldr] at summed
    simpa [Nat.add_comm] using summed
  have opened : Reads lex (.text read) "\\u\x7b".toList [] (.hex read 0 0) := rfl
  have digits := reads_digits read _ small 0 0 (by simpa using few)
  have closed : lex (.hex read (0 + ((Nat.digits 16 c.toNat).reverse).length) c.toNat) '\x7d' =
      some ([], .text (read ++ [c])) := by
    have nonempty : ¬ 0 + ((Nat.digits 16 c.toNat).reverse).length = 0 := by omega
    simp only [lex, if_true, if_neg nonempty, scalar, if_pos valid, Option.map_some, Char.ofNat_toNat]
  rw [value] at digits
  exact (opened.append digits).append (.single closed)

/-- A character that stands for itself in a literal. -/
def IsPlain (c : Char) : Prop := c ≠ '"' ∧ c ≠ '\\' ∧ c ≠ '\r'

instance : DecidablePred IsPlain := fun _ => inferInstanceAs (Decidable (_ ∧ _))

/-- Whether a text needs no escapes, checked letter by letter. -/
theorem plain_of_all {w : Str} (each : w.all (fun c => decide (IsPlain c)) = true) : ∀ c ∈ w, IsPlain c := by
  simpa only [List.all_eq_true, decide_eq_true_eq] using each

theorem reads_plain (read : Str) {c : Char} (plain : IsPlain c) :
    Reads lex (.text read) [c] [] (.text (read ++ [c])) := by
  obtain ⟨quote, slash, carriage⟩ := plain
  refine .single ?_
  simp only [lex, if_neg quote, if_neg slash, if_neg carriage]

/-- However a character is written, it is read back. -/
theorem reads_escape (shown : Char → Bool) (read : Str) (c : Char) :
    Reads lex (.text read) (escapeDebug shown c) [] (.text (read ++ [c])) := by
  unfold escapeDebug
  split
  · rename_i same
    subst same
    rfl
  rename_i visible
  split
  · rename_i same
    subst same
    rfl
  split
  · rename_i same
    subst same
    rfl
  rename_i carriage
  split
  · rename_i same
    subst same
    rfl
  split
  · rename_i same
    subst same
    rfl
  rename_i quote
  split
  · rename_i same
    subst same
    rfl
  rename_i slash
  split
  · exact reads_plain read ⟨quote, slash, carriage⟩
  · exact reads_unicode read visible

theorem reads_chars (write : Char → Str) (w : Str)
    (each : ∀ c ∈ w, ∀ read, Reads lex (.text read) (write c) [] (.text (read ++ [c]))) (read : Str) :
    Reads lex (.text read) (w.flatMap write) [] (.text (read ++ w)) := by
  induction w generalizing read with
  | nil =>
    rw [List.append_nil]
    exact reads_nil _
  | cons c w ih =>
    have later := ih (fun d member => each d (List.mem_cons_of_mem c member)) (read ++ [c])
    rw [List.append_assoc, List.singleton_append] at later
    exact (each c List.mem_cons_self read).append later

/-- Every string is read back from its literal. -/
theorem reads_debugStr (shown : Char → Bool) (w : Str) :
    Reads lex .between (debugStr shown w) [.literal w] .between := by
  have opened : Reads lex .between ['"'] [] (.text []) := rfl
  have closed : Reads lex (.text w) ['"'] [.literal w] .between := rfl
  have inside := reads_chars (escapeDebug shown) w (fun c _ read => reads_escape shown read c) []
  exact (opened.append inside).append closed

/-! ### The file -/

/-- The tokens of the words of one language. -/
def wordTokens : List Str → List Token
  | [] => []
  | [w] => [.literal w]
  | w :: rest => .literal w :: .punct ',' :: wordTokens rest

def entryTokens (entry : Lang × List Str) : List Token :=
  .literal entry.1 :: .punct '=' :: .punct '>' :: .punct '&' :: .punct '[' ::
    (wordTokens entry.2 ++ [.punct ']', .punct ','])

theorem reads_words (shown : Char → Bool) (words : List Str) :
    Reads lex .between (join ", ".toList (words.map (debugStr shown))) (wordTokens words) .between := by
  induction words with
  | nil => exact reads_nil _
  | cons w rest ih =>
    cases rest with
    | nil =>
      have single : join ", ".toList [debugStr shown w] = debugStr shown w := by simp [join]
      rw [List.map_singleton, single]
      exact reads_debugStr shown w
    | cons next rest =>
      have separator : Reads lex .between ", ".toList [.punct ','] .between := rfl
      have read := ((reads_debugStr shown w).append separator).append ih
      simpa [join, wordTokens, List.intercalate] using read

theorem reads_entry (shown : Char → Bool) {entry : Lang × List Str} (plain : ∀ c ∈ entry.1, IsPlain c) :
    Reads lex .between (entryLine shown entry) (entryTokens entry) .between := by
  have opened : Reads lex .between "    \"".toList [] (.text []) := by decide
  have code := reads_chars (fun c => [c]) entry.1 (fun c member read => reads_plain read (plain c member)) []
  have arrow : Reads lex .between " => &[".toList [.punct '=', .punct '>', .punct '&', .punct '['] .between := by decide
  have closed : Reads lex (.text entry.1) "\" => &[".toList
      [.literal entry.1, .punct '=', .punct '>', .punct '&', .punct '['] .between :=
    Reads.cons (show lex (.text entry.1) '"' = some ([.literal entry.1], .between) from rfl) arrow
  have ended : Reads lex .between "],\n".toList [.punct ']', .punct ','] .between := by decide
  have read := opened.append (code.append (closed.append ((reads_words shown entry.2).append ended)))
  rw [List.flatMap_singleton'] at read
  unfold entryLine
  simp only [List.append_assoc]
  exact read

/-- The words of a language, up to the end of their array. -/
theorem places_words (code : Str) (words read : List Str) :
    Reads readToken (.word code read) (wordTokens words ++ [.punct ']']) [(code, read ++ words)] .afterEntry := by
  induction words generalizing read with
  | nil =>
    rw [List.append_nil]
    exact .single rfl
  | cons w rest ih =>
    have taken : readToken (.word code read) (.literal w) = some ([], .afterWord code (read ++ [w])) := rfl
    cases rest with
    | nil => exact Reads.skip taken (.single rfl)
    | cons next rest =>
      have later := ih (read ++ [w])
      rw [List.append_assoc, List.singleton_append] at later
      exact Reads.skip taken (later.skip rfl)

theorem places_entry (entry : Lang × List Str) :
    Reads readToken .key (entryTokens entry) [entry] .key := by
  have opened : Reads readToken .key [.literal entry.1, .punct '=', .punct '>', .punct '&', .punct '['] []
      (.word entry.1 []) := rfl
  have next : Reads readToken .afterEntry [.punct ','] [] .key := rfl
  have read := (opened.append (places_words entry.1 entry.2 [])).append next
  simpa [entryTokens] using read

/-- The tokens of the whole file. -/
def fileTokens (sha : Str) (terms : List (Lang × List Str)) : List Token :=
  constHeader ++ .literal sha :: (staticHeader ++ (terms.flatMap entryTokens ++ [.punct '\x7d', .punct ';']))

theorem reads_file (shown : Char → Bool) {sha : Str} (plainSha : ∀ c ∈ sha, IsPlain c)
    {terms : List (Lang × List Str)} (plainCodes : ∀ entry ∈ terms, ∀ c ∈ entry.1, IsPlain c) :
    Reads lex .between (emit shown sha terms) (fileTokens sha terms) .between := by
  have comment : Reads lex .between "// Auto-generated by build.rs. Do not edit.\n".toList [] .between := by decide
  have const : Reads lex .between "pub const LIST_VERSION: &str = \"".toList constHeader (.text []) := by decide
  have version := reads_chars (fun c => [c]) sha (fun c member read => reads_plain read (plainSha c member)) []
  rw [List.flatMap_singleton'] at version
  have semicolon : Reads lex (.text sha) "\";\n".toList [.literal sha, .punct ';'] .between :=
    Reads.cons (show lex (.text sha) '"' = some ([.literal sha], .between) from rfl)
      (show Reads lex .between ";\n".toList [.punct ';'] .between by decide)
  have blank : Reads lex .between "\n".toList [] .between := by decide
  have header : Reads lex .between
      "pub static TERMS: ::phf::Map<&'static str, &'static [&'static str]> = ::phf::phf_map! \x7b\n".toList
      staticHeader.tail .between := by decide
  have entries := Reads.flatMap terms fun entry member => reads_entry shown (plainCodes entry member)
  have ended : Reads lex .between "\x7d;\n".toList [.punct '\x7d', .punct ';'] .between := by decide
  have read := comment.append ((const.append (version.append semicolon)).append
    (blank.append (header.append (entries.append ended))))
  unfold emit
  simp only [List.append_assoc] at read ⊢
  exact read

/-- What the build writes, the compiler reads: the version and every word, in
whatever characters, as long as the version and the codes need no escapes. -/
theorem readGenerated_emit (shown : Char → Bool) {sha : Str} (plainSha : ∀ c ∈ sha, IsPlain c)
    {terms : List (Lang × List Str)} (plainCodes : ∀ entry ∈ terms, ∀ c ∈ entry.1, IsPlain c) :
    readGenerated (emit shown sha terms) = some (sha, terms) := by
  have lexed : feed lex .between (emit shown sha terms) = some (fileTokens sha terms, .between) :=
    reads_file shown plainSha plainCodes
  have placed : feed readToken .key (terms.flatMap entryTokens ++ [.punct '\x7d', .punct ';']) =
      some (terms, .closed) := by
    have entries := Reads.flatMap terms fun entry _ => places_entry entry
    rw [List.flatMap_singleton'] at entries
    have ended : Reads readToken .key [.punct '\x7d', .punct ';'] [] .closed := by decide
    have read := entries.append ended
    rwa [List.append_nil] at read
  simp only [readGenerated, lexed, fileTokens, List.drop_left, List.take_left, Option.bind_eq_bind, Option.bind_some,
    ne_eq, not_true_eq_false, or_self, if_false, placed]

/-! ### The vendored files -/

/-- The words of one file, in the order of the table. -/
def wordsOf (raw : Str) : List Str := dedup (sort (((lines raw).map trim).filter fun line => !line.isEmpty))

/-- These are the words of a file: its lines without the blanks around them, each
once and in ascending order, the blank lines left out. -/
structure WordsOf (raw : Str) (words : List Str) : Prop where
  ascending : words.Pairwise (· < ·)
  exact : ∀ w, w ∈ words ↔ w ≠ [] ∧ ∃ line ∈ lines raw, trim line = w

theorem wordsOf_exact (raw : Str) : WordsOf raw (wordsOf raw) where
  ascending := dedup_sorted (List.sortedLE_iff_pairwise.mp List.sortedLE_insertionSort)
  exact w := by
    simp only [wordsOf, mem_dedup, mem_sort, List.mem_filter, List.mem_map, Bool.not_eq_true',
      List.isEmpty_eq_false_iff]
    exact and_comm

/-- A regular file of the directory that is not hidden. -/
def Vendors (vendor : List (Option DirEntry)) (name : Str) : Prop :=
  some ⟨some true, some name⟩ ∈ vendor ∧ name.head? ≠ some '.'

theorem listed_some {entry : Option DirEntry} :
    listed entry = some name ↔ entry = some ⟨some true, some name⟩ ∧ name.head? ≠ some '.' := by
  match entry with
  | none => exact iff_of_false nofun nofun
  | some ⟨none, _⟩ => exact iff_of_false nofun nofun
  | some ⟨some false, _⟩ => exact iff_of_false nofun nofun
  | some ⟨some true, none⟩ => exact iff_of_false nofun nofun
  | some ⟨some true, some own⟩ =>
    by_cases hidden : own.head? = some '.'
    · simp only [listed, Option.bind_eq_bind, Option.bind_some, Bool.not_true, Bool.false_eq_true, if_false, hidden,
        if_true]
      refine iff_of_false nofun ?_
      rintro ⟨⟨⟩, visible⟩
      exact visible hidden
    · simp only [listed, Option.bind_eq_bind, Option.bind_some, Bool.not_true, Bool.false_eq_true, if_false, hidden]
      constructor
      · rintro ⟨⟩
        exact ⟨rfl, hidden⟩
      · rintro ⟨⟨⟩, -⟩
        rfl

theorem mem_collectSet {names : List Str} : s ∈ collectSet names ↔ s ∈ names :=
  mem_dedup.trans mem_sort

theorem mem_enumerate {vendor : List (Option DirEntry)} : name ∈ enumerate vendor ↔ Vendors vendor name := by
  rw [enumerate, mem_collectSet, List.mem_filterMap]
  constructor
  · rintro ⟨entry, member, taken⟩
    obtain ⟨rfl, visible⟩ := listed_some.mp taken
    exact ⟨member, visible⟩
  · rintro ⟨member, visible⟩
    exact ⟨_, member, listed_some.mpr ⟨rfl, visible⟩⟩

/-- The directory holds a file for every language, with a word that can be read,
and no file that is not known. -/
structure Complete (vendor : List (Option DirEntry)) (read : Lang → Except Str Str) : Prop where
  present : ∀ code ∈ allowlist, Vendors vendor code
  known : ∀ name, Vendors vendor name → name ∈ allowlist ∨ name ∈ skipList
  filled : ∀ code ∈ allowlist, ∃ raw, read code = .ok raw ∧ ∃ line ∈ lines raw, trim line ≠ []

theorem validate_ok {files : List Str} : validate files = .ok given ↔
    (∀ code ∈ allowlist, code ∈ files) ∧ ∀ f ∈ files, f ∈ allowlist ∨ f ∈ skipList := by
  have separate : ((collectSet allowlist).filter fun code => (collectSet skipList).contains code) = [] := by
    rw [List.filter_eq_nil_iff]
    intro code allowed skipped
    have apart : ∀ code ∈ allowlist, code ∉ skipList := by decide
    exact apart code (mem_collectSet.mp allowed) (mem_collectSet.mp (List.contains_iff_mem.mp skipped))
  have missing : ((collectSet allowlist).filter fun code => !files.contains code) = [] ↔
      ∀ code ∈ allowlist, code ∈ files := by
    simp [List.filter_eq_nil_iff, mem_collectSet]
  have unknown : (files.filter fun f => !(collectSet allowlist).contains f && !(collectSet skipList).contains f) = [] ↔
      ∀ f ∈ files, f ∈ allowlist ∨ f ∈ skipList := by
    simp only [List.filter_eq_nil_iff, Bool.and_eq_true, Bool.not_eq_true', List.contains_eq_mem, decide_eq_false_iff_not,
      mem_collectSet, not_and_or, not_not]
  rw [← missing, ← unknown]
  simp only [validate, separate, List.isEmpty_nil, Bool.not_true, Bool.false_eq_true, if_false]
  split
  · rename_i absent
    refine iff_of_false nofun fun complete => ?_
    rw [complete.1] at absent
    cases absent
  · rename_i present
    split
    · rename_i strange
      refine iff_of_false nofun fun complete => ?_
      rw [complete.2] at strange
      cases strange
    · rename_i familiar
      simp only [Bool.not_eq_true', Bool.not_eq_false, List.isEmpty_iff] at present familiar
      exact iff_of_true rfl ⟨present, familiar⟩

theorem termsOfFile_ok {raw : Str} : termsOfFile raw = .ok words ↔ wordsOf raw ≠ [] ∧ words = wordsOf raw := by
  change (if (wordsOf raw).isEmpty then _ else Except.ok (wordsOf raw)) = _ ↔ _
  generalize wordsOf raw = found
  cases found with
  | nil => exact iff_of_false nofun fun filled => filled.1 rfl
  | cons first rest =>
    constructor
    · rintro ⟨⟩
      exact ⟨nofun, rfl⟩
    · rintro ⟨-, rfl⟩
      rfl

/-- A walk whose every step succeeds on some condition, and with one result. -/
private theorem mapM_exact {f : α → Except ε β} {Good : α → Prop} {result : α → β}
    (each : ∀ a b, f a = .ok b ↔ Good a ∧ b = result a) (list : List α) :
    list.mapM f = .ok out ↔ (∀ a ∈ list, Good a) ∧ out = list.map result := by
  induction list generalizing out with
  | nil =>
    rw [List.mapM_nil, List.map_nil]
    constructor
    · rintro ⟨⟩
      exact ⟨List.forall_mem_nil _, rfl⟩
    · rintro ⟨-, rfl⟩
      rfl
  | cons a list ih =>
    simp only [List.mapM_cons, bind_eq_ok, each, ih, List.forall_mem_cons, List.map_cons]
    constructor
    · rintro ⟨_, ⟨good, rfl⟩, _, ⟨rest, rfl⟩, ⟨⟩⟩
      exact ⟨⟨good, rest⟩, rfl⟩
    · rintro ⟨⟨good, rest⟩, rfl⟩
      exact ⟨_, ⟨good, rfl⟩, _, ⟨rest, rfl⟩, rfl⟩

theorem allowlist_ascending : allowlist.Pairwise (· < ·) := by decide

/-- The table is sorted as it is. -/
theorem sorted_entries (words : Lang → List Str) :
    (allowlist.map fun code => (code, words code)).insertionSort (fun a b => a.1 ≤ b.1) =
      allowlist.map fun code => (code, words code) := by
  apply List.Pairwise.insertionSort_eq
  rw [List.pairwise_map]
  exact allowlist_ascending.imp le_of_lt

theorem loadTerms_ok {files : Lang → Str} : loadTerms files = .ok loaded ↔
    (∀ code ∈ allowlist, wordsOf (files code) ≠ []) ∧
      loaded = allowlist.map fun code => (code, wordsOf (files code)) := by
  have each : ∀ code entry, (do
      let terms ← termsOfFile (files code)
      return (code, terms) : Fallible (Lang × List Str)) = .ok entry ↔
      wordsOf (files code) ≠ [] ∧ entry = (code, wordsOf (files code)) := by
    intro code entry
    simp only [bind_eq_ok, termsOfFile_ok]
    constructor
    · rintro ⟨_, ⟨filled, rfl⟩, ⟨⟩⟩
      exact ⟨filled, rfl⟩
    · rintro ⟨filled, rfl⟩
      exact ⟨_, ⟨filled, rfl⟩, rfl⟩
  simp only [loadTerms, bind_eq_ok, mapM_exact each]
  constructor
  · rintro ⟨out, ⟨filled, rfl⟩, made⟩
    rw [sorted_entries] at made
    exact ⟨filled, (Except.ok.inj made).symm⟩
  · rintro ⟨filled, same⟩
    refine ⟨_, ⟨filled, rfl⟩, ?_⟩
    rw [sorted_entries, same]
    rfl

theorem mapError_ok {result : Except ε α} {wrap : ε → δ} : result.mapError wrap = .ok a ↔ result = .ok a := by
  cases result with
  | error e => exact iff_of_false (fun made => by cases made) fun made => by cases made
  | ok own => exact ⟨fun same => congrArg _ (Except.ok.inj same), fun same => congrArg _ (Except.ok.inj same)⟩

/-- What was read of a file. -/
def contents (read : Lang → Except Str Str) (code : Lang) : Str := (read code).toOption.getD []

theorem contents_ok {read : Lang → Except Str Str} (made : read code = .ok raw) : contents read code = raw := by
  rw [contents, made]
  rfl

theorem loadTermsFrom_ok {read : Lang → Except Str Str} : loadTermsFrom read = .ok loaded ↔
    (∀ code ∈ allowlist, ∃ raw, read code = .ok raw ∧ wordsOf raw ≠ []) ∧
      loaded = allowlist.map fun code => (code, wordsOf (contents read code)) := by
  have each : ∀ code entry, (do
      let raw ← (read code).mapError (BuildError.unreadable code)
      let terms ← (termsOfFile raw).mapError BuildError.panicked
      return (code, terms) : Except BuildError (Lang × List Str)) = .ok entry ↔
      (∃ raw, read code = .ok raw ∧ wordsOf raw ≠ []) ∧ entry = (code, wordsOf (contents read code)) := by
    intro code entry
    simp only [bind_eq_ok, mapError_ok, termsOfFile_ok]
    constructor
    · rintro ⟨raw, made, _, ⟨filled, rfl⟩, ⟨⟩⟩
      rw [contents_ok made]
      exact ⟨⟨raw, made, filled⟩, rfl⟩
    · rintro ⟨⟨raw, made, filled⟩, rfl⟩
      rw [contents_ok made]
      exact ⟨raw, made, _, ⟨filled, rfl⟩, rfl⟩
  simp only [loadTermsFrom, bind_eq_ok, mapM_exact each]
  constructor
  · rintro ⟨out, ⟨filled, rfl⟩, made⟩
    rw [sorted_entries] at made
    exact ⟨filled, (Except.ok.inj made).symm⟩
  · rintro ⟨filled, same⟩
    refine ⟨_, ⟨filled, rfl⟩, ?_⟩
    rw [sorted_entries, same]
    rfl

/-- Where every file can be read, only its contents matter. -/
theorem loadTermsFrom_readable {read : Lang → Except Str Str} (readable : ∀ code ∈ allowlist, read code = .ok (files code)) :
    loadTermsFrom read = .ok loaded ↔ loadTerms files = .ok loaded := by
  have same : (allowlist.map fun code => (code, wordsOf (contents read code))) =
      allowlist.map fun code => (code, wordsOf (files code)) :=
    List.map_congr_left fun code listed => by rw [contents_ok (readable code listed)]
  rw [loadTermsFrom_ok, loadTerms_ok, same]
  refine and_congr (forall₂_congr fun code listed => ?_) Iff.rfl
  simp [readable code listed]

theorem wordsOf_filled {raw : Str} : wordsOf raw ≠ [] ↔ ∃ line ∈ lines raw, trim line ≠ [] := by
  have exact := (wordsOf_exact raw).exact
  constructor
  · intro filled
    obtain ⟨w, member⟩ := List.exists_mem_of_ne_nil _ filled
    obtain ⟨some, line, among, rfl⟩ := (exact w).mp member
    exact ⟨line, among, some⟩
  · rintro ⟨line, among, some⟩
    exact List.ne_nil_of_mem ((exact _).mpr ⟨some, line, among, rfl⟩)

theorem main_ok {vendor : List (Option DirEntry)} {read : Lang → Except Str Str} :
    main shown sha vendor read = .ok text ↔ Complete vendor read ∧
      text = emit shown sha (allowlist.map fun code => (code, wordsOf (contents read code))) := by
  simp only [main, bind_eq_ok, validate_ok, loadTermsFrom_ok, mem_enumerate, wordsOf_filled]
  constructor
  · rintro ⟨_, ⟨present, known⟩, _, ⟨filled, rfl⟩, made⟩
    exact ⟨⟨present, known, filled⟩, (Except.ok.inj made).symm⟩
  · rintro ⟨⟨present, known, filled⟩, rfl⟩
    exact ⟨(), ⟨present, known⟩, _, ⟨filled, rfl⟩, rfl⟩

theorem allowlist_plain : ∀ code ∈ allowlist, ∀ c ∈ code, IsPlain c := by
  have checked : allowlist.all (fun code => code.all fun c => decide (IsPlain c)) = true := by decide
  exact fun code listed => plain_of_all (List.all_eq_true.mp checked code listed)

theorem entries_plain (words : Lang → List Str) :
    ∀ entry ∈ allowlist.map fun code => (code, words code), ∀ c ∈ entry.1, IsPlain c := by
  intro entry member
  obtain ⟨code, listed, rfl⟩ := List.mem_map.mp member
  exact allowlist_plain code listed

/-- The build succeeds on exactly the directories that hold a readable file with a
word for every language and nothing unknown; and then what the compiler reads is
the version and, for every language, exactly the words of its file. -/
theorem build_exact (shown : Char → Bool) (sha : Str) (plain : ∀ c ∈ sha, IsPlain c)
    (vendor : List (Option DirEntry)) (read : Lang → Except Str Str) :
    ((∃ text, main shown sha vendor read = .ok text) ↔ Complete vendor read) ∧
      ∀ text, main shown sha vendor read = .ok text → ∃ entries, readGenerated text = some (sha, entries) ∧
        entries.map Prod.fst = allowlist ∧ ∀ entry ∈ entries, ∃ raw, read entry.1 = .ok raw ∧ WordsOf raw entry.2 := by
  constructor
  · simp only [main_ok, exists_and_left, exists_eq, and_true]
  · intro text built
    obtain ⟨complete, rfl⟩ := main_ok.mp built
    refine ⟨_, readGenerated_emit shown plain (entries_plain _), ?_, fun entry member => ?_⟩
    · rw [List.map_map]
      exact List.map_id allowlist
    · obtain ⟨code, listed, rfl⟩ := List.mem_map.mp member
      obtain ⟨raw, made, -⟩ := complete.filled code listed
      refine ⟨raw, made, ?_⟩
      rw [contents_ok made]
      exact wordsOf_exact raw

/-- A directory with one file for every language. -/
def bare : List (Option DirEntry) := allowlist.map fun code => some ⟨some true, some code⟩

theorem bare_complete (filled : ∃ line ∈ lines file, trim line ≠ []) : Complete bare fun _ => .ok file := by
  have visible : ∀ code ∈ allowlist, code.head? ≠ some '.' := by decide
  refine ⟨fun code listed => ⟨List.mem_map_of_mem listed, visible code listed⟩, ?_, fun _ _ => ⟨file, rfl, filled⟩⟩
  rintro name ⟨member, -⟩
  obtain ⟨code, listed, same⟩ := List.mem_map.mp member
  cases same
  exact .inl listed

/-- A file's words are determined by which they are. -/
theorem words_unique (first : WordsOf raw words) (second : WordsOf raw words') : words = words' :=
  first.ascending.eq_of_mem_iff second.ascending fun w => (first.exact w).trans (second.exact w).symm

/-- Files with a quotation in them are read back as they were; and one file that
is not UTF-8 stops the build. -/
theorem build_exact_same :
    (∃ text, main (fun _ => true) "1f".toList bare (fun _ => .ok "\"x\"\n y \n".toList) = .ok text ∧
      readGenerated text = some ("1f".toList, allowlist.map fun code => (code, ["\"x\"".toList, "y".toList]))) ∧
    ¬ ∃ text, main (fun _ => true) "1f".toList bare (fun code => if code = "fr".toList
      then .error "stream did not contain valid UTF-8".toList else .ok "x\n".toList) = .ok text := by
  constructor
  · have filled : ∃ line ∈ lines "\"x\"\n y \n".toList, trim line ≠ [] := ⟨['"', 'x', '"'], List.mem_cons_self, by decide⟩
    obtain ⟨complete, read⟩ := build_exact (fun _ => true) "1f".toList (plain_of_all rfl) bare
      fun _ => .ok "\"x\"\n y \n".toList
    obtain ⟨text, built⟩ := complete.mpr (bare_complete filled)
    obtain ⟨entries, held, codes, words⟩ := read text built
    have spelled : wordsOf "\"x\"\n y \n".toList = ["\"x\"".toList, "y".toList] := by decide
    refine ⟨text, built, held.trans (congrArg (fun entries => some ("1f".toList, entries)) ?_)⟩
    rw [← codes, List.map_map]
    refine (List.map_id entries).symm.trans (List.map_congr_left fun entry member => ?_)
    obtain ⟨raw, made, own⟩ := words entry member
    obtain rfl := Except.ok.inj made
    exact Prod.ext rfl ((words_unique own (wordsOf_exact _)).trans spelled)
  · intro built
    have complete := (build_exact (fun _ => true) "1f".toList (plain_of_all rfl) bare _).1.mp built
    obtain ⟨raw, made, -⟩ := complete.filled "fr".toList (by decide)
    cases made

/-! ### The languages of a server -/

theorem dlookup_map (words : Lang → List Str) (codes : List Lang) (lang : Lang) :
    List.dlookup lang (codes.map fun code => (⟨code, words code⟩ : Sigma fun _ : Lang => List Str)) =
      if lang ∈ codes then some (words lang) else none := by
  induction codes with
  | nil => rfl
  | cons code codes ih =>
    by_cases same : lang = code
    · subst same
      simp
    · rw [List.map_cons, List.dlookup_cons_ne _ _ same, ih]
      simp [same]

/-- The table of the binary, for files that compile. -/
theorem lookup_table (built : loadTerms files = .ok loaded) (lang : Lang) :
    (emitTerms loaded).lookup lang = if lang ∈ allowlist then some (wordsOf (files lang)) else none := by
  obtain ⟨-, rfl⟩ := loadTerms_ok.mp built
  rw [emitTerms, AList.lookup_to_alist, List.map_map]
  exact dlookup_map (fun code => wordsOf (files code)) allowlist lang

theorem compiledLangs_table (built : loadTerms files = .ok loaded) : compiledLangs (emitTerms loaded) = allowlist := by
  have same : (emitTerms loaded).keys.Perm allowlist := by
    refine (List.perm_ext_iff_of_nodup (emitTerms loaded).nodupKeys ?_).mpr fun lang => ?_
    · exact allowlist_ascending.imp ne_of_lt
    · refine AList.mem_keys.symm.trans ?_
      rw [← AList.lookup_isSome, lookup_table built]
      split <;> simp_all
  rw [compiledLangs, sort_perm same]
  exact List.Pairwise.insertionSort_eq (allowlist_ascending.imp le_of_lt)

/-- The languages that are scanned by substring unless a request says otherwise. -/
def unspaced : List Lang := ["ja".toList, "ko".toList, "th".toList, "zh".toList]

theorem mode_default : ∀ code ∈ allowlist,
    resolveDefaultMode code = if code ∈ unspaced then .substring else .strict := by decide

section
variable {files : Lang → Str} {requested : List Lang} {patterns : HashMap Lang (List Str)}
  (held : ∀ lang, patterns.lookup lang = if lang ∈ requested then some (wordsOf (files lang)) else none)
include held

theorem terms_of_patterns (lang : Lang) :
    (Engine.new patterns).terms lang = if lang ∈ requested then some (wordsOf (files lang)) else none := by
  rw [Engine.terms_new, ← held]

theorem languages_of_patterns (lang : Lang) : lang ∈ (Engine.new patterns).languages ↔ lang ∈ requested := by
  rw [Engine.languages, ← AList.mem_keys, ← AList.lookup_isSome, ← Option.isSome_map (f := Prod.snd)]
  change ((Engine.new patterns).terms lang).isSome = true ↔ _
  rw [terms_of_patterns held]
  split <;> simp_all

end

theorem resolve_table (built : loadTerms files = .ok loaded) (langs : Option (List Lang)) :
    ((∀ code ∈ langs.getD allowlist, code ∈ allowlist) → ∃ codes,
      resolveLoadedLangs (emitTerms loaded) langs = .ok codes ∧ ∀ code, code ∈ codes ↔ code ∈ langs.getD allowlist) ∧
    ((∃ code ∈ langs.getD allowlist, code ∉ allowlist) → resolveLoadedLangs (emitTerms loaded) langs =
      .error ⟨(langs.getD allowlist).filter (· ∉ allowlist), allowlist⟩) := by
  cases langs with
  | none =>
    refine ⟨fun _ => ⟨allowlist, congrArg _ (compiledLangs_table built), fun _ => Iff.rfl⟩, ?_⟩
    rintro ⟨code, listed, unlisted⟩
    exact absurd listed unlisted
  | some list =>
    have unknown : (list.filter fun code => !((emitTerms loaded).lookup code).isSome) =
        list.filter (· ∉ allowlist) := by
      refine List.filter_congr fun code _ => ?_
      rw [lookup_table built]
      split <;> simp_all
    simp only [resolveLoadedLangs, unknown, compiledLangs_table built, Option.getD_some]
    constructor
    · intro known
      have clean : list.filter (· ∉ allowlist) = [] := List.filter_eq_nil_iff.mpr (by simpa using known)
      rw [clean]
      exact ⟨_, rfl, fun code => mem_dedup.trans mem_sort⟩
    · rintro ⟨code, asked, unlisted⟩
      have found : (list.filter (· ∉ allowlist)).isEmpty = false :=
        List.isEmpty_eq_false_iff.mpr (List.ne_nil_of_mem (List.mem_filter.mpr ⟨asked, by simpa using unlisted⟩))
      rw [found]
      rfl

/-- What `main` gathers for known languages: the words of their files. -/
theorem gathered_words (built : loadTerms files = .ok loaded) (compiled : ∀ code ∈ codes, code ∈ allowlist) :
    ∃ patterns, gatherPatterns (emitTerms loaded) codes ∅ = .ok patterns ∧
      ∀ lang, patterns.lookup lang = if lang ∈ codes then some (wordsOf (files lang)) else none := by
  obtain ⟨patterns, gathered, lookups⟩ := gatherPatterns_ok codes (fun code member => by
    rw [← AList.lookup_isSome, lookup_table built, if_pos (compiled code member)]
    rfl) ∅
  refine ⟨patterns, gathered, fun lang => ?_⟩
  rw [lookups, lookup_table built]
  by_cases member : lang ∈ codes
  · rw [if_pos member, if_pos (compiled lang member), if_pos member]
  · rw [if_neg member, if_neg member]
    exact AList.lookup_empty lang

end VocabVeto.BuildProofs
