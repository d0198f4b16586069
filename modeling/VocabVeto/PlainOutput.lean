import VocabVeto.AsciiCrates
import VocabVeto.Core.Cli
import VocabVeto.SpanProofs

/-! Reading plain output back. Rows and fields are separated by bytes that the
command does not escape, although a field is a slice of the caller's text; they
cannot occur there, because a reported span holds no codepoint that its term
does not account for. -/
namespace VocabVeto.PlainOutput
open Expansion LeftmostLongest NormalizeProofs ScanReference SpanProofs

/-! ### The reader -/

/-- What a row says, its texts as they are encoded. -/
structure Row where
  lang : List UInt8
  start : Nat
  stop : Nat
  term : List UInt8
  matchedText : List UInt8
  deriving DecidableEq, Repr

/-- The number these digits write. -/
def number (digits : List UInt8) : Nat := Nat.ofDigitChars 10 (digits.map fun b => Char.ofNat b.toNat) 0

/-- Read a line: four fields between tabs, the second with two numbers around a dash. -/
def decodeRow (line : List UInt8) : Option Row :=
  match line.splitOn 9 with
  | [lang, span, term, matchedText] =>
    match span.splitOn 45 with
    | [start, stop] => some ⟨lang, number start, number stop, term, matchedText⟩
    | _ => none
  | _ => none

/-- The line that follows the rows of a truncated report. -/
def truncatedLine : List UInt8 := Utf8.bytes "# truncated".toList

/-- Read plain output: the lines that newlines end, with a last one of its own
that only flags truncation. -/
def decode (printed : List UInt8) : Option (List Row × Bool) :=
  let lines := (printed.splitOn 10).dropLast
  if lines.getLast? = some truncatedLine then (lines.dropLast.mapM decodeRow).map fun rows => (rows, true)
  else (lines.mapM decodeRow).map fun rows => (rows, false)

/-- The bytes of what the command writes as text. -/
def printed (written : List Cli.Written) : List UInt8 :=
  written.flatMap fun
    | .json _ => []
    | .text line => Utf8.bytes line

/-- The row of a match. -/
def row (m : Match) : Row :=
  ⟨Utf8.bytes m.lang, m.start, m.stop, Utf8.bytes m.term, Utf8.bytes m.matchedText⟩

/-- The two numbers of a span and the dash between them. -/
def span (m : Match) : List UInt8 :=
  [45].intercalate [Utf8.bytes (Cli.decimal m.start), Utf8.bytes (Cli.decimal m.stop)]

/-- The line of a match, without its newline. -/
def line (m : Match) : List UInt8 :=
  [9].intercalate [Utf8.bytes m.lang, span m, Utf8.bytes m.term, Utf8.bytes m.matchedText]

/-- A text without the separators of fields and rows. -/
def Separable (s : Str) : Prop := '\t' ∉ s ∧ '\n' ∉ s

/-- The terms and the language codes can stand in a row. -/
structure Printable (engine : Engine) : Prop where
  terms : ∀ lang terms, engine.terms lang = some terms → ∀ term ∈ terms, Separable term
  codes : ∀ lang, engine.hasLanguage lang = true → lang ≠ [] ∧ Separable lang ∧ lang.head? ≠ some '#'

/-! ### Spans hold no separators -/

section
variable {crates : Crates} {text : Str} {patterns : List Str}

/-- A codepoint that folds to itself lies in a span only where it lies in the term. -/
theorem span_avoids (fixed : crates.fold mark = [mark]) (ascii : mark.toNat < 128)
    (range : Widened Char.utf8Size (contribution crates) text start stop (Str.len before)
      (Str.len before + Str.len middle)) (cut : text = before ++ (middle ++ after))
    (occurs : OccursAt (Utf8.bytes term) (Utf8.bytes (crates.foldText text)) start)
    (width : stop = start + Str.len term) (absent : mark ∉ term) : mark ∉ middle := by
  intro member
  obtain ⟨front, back, rfl⟩ := List.append_of_mem member
  have split : text = (before ++ front) ++ mark :: (back ++ after) := by simp [cut]
  have encoded : contribution crates mark = [UInt8.ofNat mark.toNat] := by
    rw [contribution, fixed, Utf8.bytes_cons, Utf8.encode_ascii ascii]
    rfl
  have filled : contribution crates mark ≠ [] := by simp [encoded]
  have above : Str.len before ≤ Str.len (before ++ front) := by simp
  have below : Str.len (before ++ front) + mark.utf8Size ≤ Str.len before + Str.len (front ++ mark :: back) := by
    simp only [Str.len_append, Str.len_cons]
    omega
  obtain ⟨position, low, high, within⟩ := range.touches Char.utf8Size_pos filled split above below
  have here : position = ((before ++ front).flatMap (contribution crates)).length := by
    have := within.1
    have := within.2
    rw [encoded, List.length_singleton] at this
    omega
  have folded : (Utf8.bytes (crates.foldText text))[position]? = some (UInt8.ofNat mark.toNat) := by
    rw [bytes_foldText, split, List.flatMap_append, List.flatMap_cons, encoded, here,
      List.getElem?_append_right (Nat.le_refl _), Nat.sub_self]
    rfl
  obtain ⟨rest, spelled⟩ := occurs
  have inside : position - start < (Utf8.bytes term).length := by
    rw [Utf8.length_bytes]
    have sized : Utf8.size term = Str.len term := rfl
    omega
  have among : (Utf8.bytes term)[position - start]? = some (UInt8.ofNat mark.toNat) := by
    rw [← List.getElem?_append_left inside, spelled, List.getElem?_drop, Nat.add_sub_cancel' low]
    exact folded
  exact absent ((Utf8.mem_bytes_ascii ascii).mp (List.mem_of_getElem? among))

/-- What a hit contributes is a term of its list, on a slice without the
separator, also when the term is empty. -/
theorem contributed_avoids (folds : crates.FoldsNonempty) (fixed : crates.fold mark = [mark])
    (ascii : mark.toNat < 128) (absent : ∀ term ∈ patterns, mark ∉ term)
    (sound : hit.Sound (patterns.map Utf8.bytes) (Utf8.bytes (crates.foldText text)))
    (contributed : contributes crates ⟨text, ⟨crates.foldText text, sourceStarts crates text⟩, lang, mode,
      patterns⟩ hit = .ok (some m)) : m.lang = lang ∧ m.term ∈ patterns ∧ mark ∉ m.matchedText := by
  obtain ⟨low, high, selected, widened, sliced, named⟩ := contributes_ok contributed
  refine ⟨named, List.mem_of_getElem? selected, ?_⟩
  obtain ⟨encoded, chosen, occurs, width, bound⟩ := sound
  rw [List.getElem?_map, selected] at chosen
  obtain rfl := Option.some.inj chosen
  rw [Utf8.length_bytes] at width bound
  by_cases empty : hit.start = hit.stop
  · obtain ⟨positive, inside⟩ := range_of_widens widened
    obtain ⟨low', high', matched, widened', sliced', wide⟩ :=
      range_widens folds (Nat.le_of_eq empty) positive inside bound
    obtain ⟨rfl, rfl⟩ := Prod.mk.inj (Except.ok.inj (widened.symm.trans widened'))
    obtain rfl := Except.ok.inj (sliced.symm.trans sliced')
    intro member
    have long := wide empty mark member
    rw [contribution, fixed, Utf8.bytes_cons, Utf8.encode_ascii ascii] at long
    simp at long
  · obtain ⟨low', high', range⟩ := range_exists (show hit.start < hit.stop by omega) bound
    obtain ⟨before, middle, after, cut, _, rfl, rfl, _⟩ := range.cut
    obtain ⟨rfl, rfl⟩ := Prod.mk.inj (Except.ok.inj (widened.symm.trans (widenToSource_eq range)))
    have whole : Str.slice text (Str.len before) (Str.len before + Str.len middle) = .ok middle := by
      rw [cut]
      exact Str.slice_append before middle after
    obtain rfl := Except.ok.inj (sliced.symm.trans whole)
    exact span_avoids fixed ascii range cut occurs width (absent _ (List.mem_of_getElem? selected))

end

/-! ### Reading rows back -/

/-- A match whose row can be told apart from the others and from the flag. -/
structure Readable (m : Match) : Prop where
  named : m.lang ≠ []
  unflagged : m.lang.head? ≠ some '#'
  lang : Separable m.lang
  term : Separable m.term
  matchedText : Separable m.matchedText

theorem tab_bytes {s : Str} : (9 : UInt8) ∈ Utf8.bytes s ↔ '\t' ∈ s :=
  Utf8.mem_bytes_ascii (show '\t'.toNat < 128 by decide)

theorem newline_bytes {s : Str} : (10 : UInt8) ∈ Utf8.bytes s ↔ '\n' ∈ s :=
  Utf8.mem_bytes_ascii (show '\n'.toNat < 128 by decide)

theorem dash_bytes {s : Str} : (45 : UInt8) ∈ Utf8.bytes s ↔ '-' ∈ s :=
  Utf8.mem_bytes_ascii (show '-'.toNat < 128 by decide)

theorem decimal_digits (n : Nat) : ∀ c ∈ Cli.decimal n, c.isDigit = true := by
  intro c member
  rw [Cli.decimal, Nat.toString_eq_ofList_toDigits, String.toList_ofList] at member
  exact Nat.isDigit_of_mem_toDigits (by decide) (by decide) member

private theorem not_decimal {c : Char} (other : c.isDigit = false) (n : Nat) : c ∉ Cli.decimal n := by
  intro member
  rw [decimal_digits n c member] at other
  cases other

theorem number_decimal (n : Nat) : number (Utf8.bytes (Cli.decimal n)) = n := by
  have ascii : ∀ c ∈ Cli.decimal n, c.toNat < 128 := by
    intro c member
    have digit := decimal_digits n c member
    simp only [Char.isDigit, Bool.and_eq_true, decide_eq_true_eq, UInt32.le_iff_toNat_le] at digit
    have below : c.toNat ≤ 57 := digit.2
    omega
  rw [number, Utf8.ofAscii_bytes ascii, Cli.decimal, Nat.toString_eq_ofList_toDigits, String.toList_ofList]
  exact Nat.ofDigitChars_toDigits (by decide) (by decide)

private theorem not_mem_intercalate {parts : List (List UInt8)} (other : b ≠ mark)
    (absent : ∀ part ∈ parts, b ∉ part) : b ∉ [mark].intercalate parts := by
  induction parts with
  | nil => simp
  | cons part parts ih =>
    obtain ⟨first, rest⟩ := List.forall_mem_cons.mp absent
    by_cases last : parts = []
    · rwa [last, List.intercalate_singleton]
    · rw [List.intercalate_cons_of_ne_nil last]
      simp [first, other, ih rest]

theorem not_mem_span {c : Char} (ascii : c.toNat < 128) (other : c.isDigit = false)
    (dash : UInt8.ofNat c.toNat ≠ 45) (m : Match) : UInt8.ofNat c.toNat ∉ span m := by
  apply not_mem_intercalate dash
  simp only [List.forall_mem_cons, Utf8.mem_bytes_ascii ascii]
  exact ⟨not_decimal other m.start, not_decimal other m.stop, nofun⟩

theorem numbers_span (m : Match) :
    (span m).splitOn 45 = [Utf8.bytes (Cli.decimal m.start), Utf8.bytes (Cli.decimal m.stop)] := by
  apply List.splitOn_intercalate 45 _ (List.cons_ne_nil _ _)
  simp only [List.forall_mem_cons, dash_bytes]
  exact ⟨not_decimal (by decide) m.start, not_decimal (by decide) m.stop, nofun⟩

/-- A line has four fields. -/
theorem fields_line (readable : Readable m) : (line m).splitOn 9 =
    [Utf8.bytes m.lang, span m, Utf8.bytes m.term, Utf8.bytes m.matchedText] := by
  apply List.splitOn_intercalate 9 _ (List.cons_ne_nil _ _)
  have numbers : (9 : UInt8) ∉ span m :=
    not_mem_span (show '\t'.toNat < 128 by decide) (by decide) (by decide) m
  simp only [List.forall_mem_cons, tab_bytes]
  exact ⟨readable.lang.1, numbers, readable.term.1, readable.matchedText.1, nofun⟩

theorem decodeRow_line (readable : Readable m) : decodeRow (line m) = some (row m) := by
  simp only [decodeRow, fields_line readable, numbers_span, number_decimal]
  rfl

/-- A line holds no newline. -/
theorem newline_line (readable : Readable m) : (10 : UInt8) ∉ line m := by
  have numbers : (10 : UInt8) ∉ span m :=
    not_mem_span (show '\n'.toNat < 128 by decide) (by decide) (by decide) m
  apply not_mem_intercalate (by decide)
  simp only [List.forall_mem_cons, newline_bytes]
  exact ⟨readable.lang.2, numbers, readable.term.2, readable.matchedText.2, nofun⟩

/-- A line starts with its language code, so it is not the flag. -/
theorem line_unflagged (readable : Readable m) : line m ≠ truncatedLine := by
  intro same
  obtain ⟨c, rest, spelled⟩ := List.exists_cons_of_ne_nil readable.named
  obtain ⟨lead, encoded, begins⟩ := List.exists_cons_of_ne_nil (Utf8.bytes_ne_nil (List.cons_ne_nil c []))
  rw [Utf8.bytes_cons, Utf8.bytes_nil, List.append_nil] at begins
  rw [line, List.intercalate_cons_cons, spelled, Utf8.bytes_cons, begins] at same
  have hash : lead = 35 := (List.cons.inj same).1
  have among : UInt8.ofNat '#'.toNat ∈ Utf8.bytes [c] := by
    rw [Utf8.bytes_cons, begins, hash]
    exact List.mem_cons_self
  rw [Utf8.mem_bytes_ascii (by decide), List.mem_singleton] at among
  apply readable.unflagged
  rw [spelled, ← among, List.head?_cons]

/-- The bytes of a row are its line and a newline. -/
theorem bytes_plainRow (m : Match) : Utf8.bytes (Cli.plainRow m) = line m ++ [10] := by
  have tab : Utf8.bytes "\t".toList = [9] := by decide
  have dash : Utf8.bytes "-".toList = [45] := by decide
  have newline : Utf8.bytes "\n".toList = [10] := by decide
  simp only [Cli.plainRow, line, span, Utf8.bytes_append, tab, dash, newline, List.intercalate_cons_cons,
    List.intercalate_singleton, List.append_assoc]

/-- The lines of a report: its rows, then the flag of a truncated one. -/
def reportLines (result : ScanResult) : List (List UInt8) :=
  result.found.map line ++ if result.truncated then [truncatedLine] else []

theorem printed_lines (result : ScanResult) :
    printed (Cli.writeCheckPlain result) = (reportLines result).flatMap fun line => line ++ [10] := by
  have flag : Utf8.bytes "# truncated\n".toList = truncatedLine ++ [10] := by decide
  rw [Cli.writeCheckPlain, reportLines, printed, List.flatMap_append, List.flatMap_append]
  congr 1
  · simp only [List.flatMap_map, bytes_plainRow]
  · split
    · exact (List.flatMap_singleton _ _).trans (flag.trans (List.flatMap_singleton _ _).symm)
    · rfl

/-- Lines that are each ended are separated, with nothing after the last. -/
theorem flatMap_ended (lines : List (List UInt8)) :
    lines.flatMap (fun line => line ++ [10]) = [10].intercalate (lines ++ [[]]) := by
  induction lines with
  | nil => rfl
  | cons line lines ih =>
    rw [List.flatMap_cons, ih, List.cons_append,
      List.intercalate_cons_of_ne_nil (List.append_ne_nil_of_right_ne_nil _ (List.cons_ne_nil _ _))]

/-- The lines of plain output are those of its report. -/
theorem lines_printed {result : ScanResult} (readable : ∀ m ∈ result.found, Readable m) :
    ((printed (Cli.writeCheckPlain result)).splitOn 10).dropLast = reportLines result := by
  have separate : ∀ part ∈ reportLines result ++ [[]], (10 : UInt8) ∉ part := by
    intro part member
    rw [reportLines, List.append_assoc, List.mem_append, List.mem_map] at member
    obtain ⟨m, found, rfl⟩ | rest := member
    · exact newline_line (readable m found)
    · have tail : part = truncatedLine ∨ part = [] := by
        split at rest <;> simp_all
      obtain rfl | rfl := tail <;> decide
  rw [printed_lines, flatMap_ended, List.splitOn_intercalate 10 separate (by simp), List.dropLast_concat]

theorem mapM_decodeRow {found : List Match} (readable : ∀ m ∈ found, Readable m) :
    (found.map line).mapM decodeRow = some (found.map row) := by
  induction found with
  | nil => rfl
  | cons m found ih =>
    obtain ⟨first, rest⟩ := List.forall_mem_cons.mp readable
    rw [List.map_cons, List.mapM_cons, decodeRow_line first, ih rest]
    rfl

/-- Plain output of readable matches reads back. -/
theorem decode_printed {result : ScanResult} (readable : ∀ m ∈ result.found, Readable m) :
    decode (printed (Cli.writeCheckPlain result)) = some (result.found.map row, result.truncated) := by
  unfold decode
  simp only [lines_printed readable]
  cases flag : result.truncated with
  | true =>
    have lines : reportLines result = result.found.map line ++ [truncatedLine] := by
      rw [reportLines, flag]
      rfl
    rw [lines, List.getLast?_concat, if_pos rfl, List.dropLast_concat, mapM_decodeRow readable]
    rfl
  | false =>
    have lines : reportLines result = result.found.map line := by
      rw [reportLines, flag]
      exact List.append_nil _
    have unflagged : (result.found.map line).getLast? ≠ some truncatedLine := by
      intro last
      obtain ⟨m, found, same⟩ := List.mem_map.mp (List.mem_of_getLast? last)
      exact line_unflagged (readable m found) same
    rw [lines, if_neg unflagged, mapM_decodeRow readable]
    rfl

/-- A row determines its match. -/
theorem row_injective (same : row m = row m') : m = m' := by
  obtain ⟨lang, term, matchedText, start, stop⟩ := m
  obtain ⟨lang', term', matchedText', start', stop'⟩ := m'
  simp only [row, Row.mk.injEq] at same
  obtain ⟨langs, rfl, rfl, terms, texts⟩ := same
  rw [Utf8.bytes_injective langs, Utf8.bytes_injective terms, Utf8.bytes_injective texts]

/-- The matches of a scan are readable when the engine's terms and codes can be
printed, whatever the text holds. -/
theorem readable_of_scan {crates : Crates} {engine : Engine} {text : Str}
    (tab : crates.fold '\t' = ['\t']) (newline : crates.fold '\n' = ['\n']) (folds : crates.FoldsNonempty)
    (reports : crates.ReportsOccurrences) (printable : Printable engine)
    (ran : engine.scan crates text langs mode = .ok (.ok result)) : ∀ m ∈ result.found, Readable m := by
  intro m member
  have accepted := (normalize_ok_iff folds).mpr ⟨scan_fits ran, rfl⟩
  obtain ⟨lang, _, ac, patterns, held, hit, among, contributed⟩ := scan_members accepted ran member
  obtain ⟨loaded, rfl⟩ := terms_of_lookup held
  have known : engine.hasLanguage lang = true := by rw [Engine.hasLanguage, held]; rfl
  have separable := printable.terms lang patterns loaded
  have sound := reports _ _ hit among
  obtain ⟨rfl, listed, noTab⟩ := contributed_avoids folds tab (by decide)
    (fun term member => (separable term member).1) sound contributed
  obtain ⟨_, _, noNewline⟩ := contributed_avoids folds newline (by decide)
    (fun term member => (separable term member).2) sound contributed
  obtain ⟨named, clean, unflagged⟩ := printable.codes m.lang known
  exact ⟨named, unflagged, clean, separable m.term listed, noTab, noNewline⟩

/-- Whatever the text, its plain output reads back as its matches, in order, and
the flag of truncation: each line but that of the flag has four fields, and
they determine the match. -/
theorem plain_output_decodes {crates : Crates} {engine : Engine} {text : Str}
    (tab : crates.fold '\t' = ['\t']) (newline : crates.fold '\n' = ['\n']) (folds : crates.FoldsNonempty)
    (reports : crates.ReportsOccurrences) (printable : Printable engine)
    (ran : engine.scan crates text langs mode = .ok (.ok result)) :
    decode (printed (Cli.writeCheckPlain result)) = some (result.found.map row, result.truncated) ∧
      (∀ m ∈ result.found, ((line m).splitOn 9).length = 4) ∧
      ∀ found, found.map row = result.found.map row → found = result.found := by
  have readable := readable_of_scan tab newline folds reports printable ran
  refine ⟨decode_printed readable, fun m member => ?_, fun found same => ?_⟩
  · rw [fields_line (readable m member)]
    rfl
  · exact List.map_injective_iff.mpr (fun m m' => row_injective) same

theorem plain_output_decodes_darn :
    decode (printed (Cli.writeCheckPlain ⟨[("en".toList, .substring)],
        [⟨"en".toList, "darn".toList, "DARN".toList, 2, 6⟩], false⟩)) =
      some ([row ⟨"en".toList, "darn".toList, "DARN".toList, 2, 6⟩], false) := by
  have printable : Printable (AsciiCrates.engine "en" ["darn"]) := by
    constructor
    · exact AsciiCrates.engine_terms "en"
        fun term member => List.mem_singleton.mp member ▸ ⟨by decide, by decide⟩
    · intro lang known
      have loaded : ((AsciiCrates.engine "en" ["darn"]).terms lang).isSome = true := by
        rwa [Engine.terms, Option.isSome_map]
      rw [AsciiCrates.terms_engine] at loaded
      split at loaded
      · rename_i code
        rw [code]
        exact ⟨by decide, ⟨by decide, by decide⟩, by decide⟩
      · cases loaded
  have ran : (AsciiCrates.engine "en" ["darn"]).scan AsciiCrates.crates "#\tDARN\n".toList ["en".toList]
      (some .substring) = .ok (.ok ⟨[("en".toList, .substring)],
        [⟨"en".toList, "darn".toList, "DARN".toList, 2, 6⟩], false⟩) := by decide +kernel
  exact (plain_output_decodes (by decide +kernel) (by decide +kernel) AsciiCrates.foldsNonempty
    AsciiCrates.reportsOccurrences printable ran).1

end VocabVeto.PlainOutput
