import VocabVeto.Core.Scan

/-! `build.rs` and the language tables of `matcher/mod.rs`: the term lists the
build compiles in, and the codes a deployment loads. The word lists themselves
are not part of the repository, so the contents of their files are a parameter. -/
namespace VocabVeto

/-- `ALLOWLIST`. -/
def allowlist : List Lang :=
  ["ar".toList, "cs".toList, "da".toList, "de".toList, "en".toList, "eo".toList, "es".toList,
   "fa".toList, "fi".toList, "fil".toList, "fr".toList, "hi".toList, "hu".toList, "it".toList,
   "ja".toList, "kab".toList, "ko".toList, "nl".toList, "no".toList, "pl".toList, "pt".toList,
   "ru".toList, "sv".toList, "th".toList, "tlh".toList, "tr".toList, "zh".toList]

/-- A line without its line feed loses the carriage return before it. -/
def stripReturn (line : Str) : Str := if line.getLast? = some '\r' then line.dropLast else line

/-- `str::lines`, with the characters of the current line read so far. -/
def linesFrom (current : Str) : Str → List Str
  | [] => if current = [] then [] else [current]
  | c :: text => if c = '\n' then stripReturn current :: linesFrom [] text else linesFrom (current ++ [c]) text

/-- `str::lines`. -/
def lines (text : Str) : List Str := linesFrom [] text

/-- `char::is_whitespace`: the Unicode property White_Space. -/
def isWhitespace (c : Char) : Bool :=
  let n := c.toNat
  (9 ≤ n && n ≤ 13) || n == 0x20 || n == 0x85 || n == 0xA0 || n == 0x1680 || (0x2000 ≤ n && n ≤ 0x200A) ||
    n == 0x2028 || n == 0x2029 || n == 0x202F || n == 0x205F || n == 0x3000

/-- `str::trim`. -/
def trim (text : Str) : Str := (text.dropWhile isWhitespace).rdropWhile isWhitespace

/-- The terms `load_terms` reads from one file. -/
def termsOfFile (raw : Str) : Fallible (List Str) :=
  let terms := dedup (sort (((lines raw).map trim).filter fun line => !line.isEmpty))
  if terms.isEmpty then .error .assertionFailed else .ok terms

/-- `load_terms`: the terms of every allowlisted language, sorted by code. -/
def loadTerms (files : Lang → Str) : Fallible (List (Lang × List Str)) := do
  let out ← allowlist.mapM fun code => do
    let terms ← termsOfFile (files code)
    return (code, terms)
  return out.insertionSort fun a b => a.1 ≤ b.1

/-- The `TERMS` table that `emit` writes. -/
def emitTerms (loaded : List (Lang × List Str)) : HashMap Lang (List Str) :=
  (loaded.map fun entry => (⟨entry.1, entry.2⟩ : Sigma fun _ : Lang => List Str)).toAList

/-- `compiled_langs`. -/
def compiledLangs (terms : HashMap Lang (List Str)) : List Lang := sort terms.keys

structure UnknownLangsError where
  unknown : List Lang
  available : List Lang
  deriving DecidableEq, Repr

/-- `resolve_loaded_langs`. -/
def resolveLoadedLangs (terms : HashMap Lang (List Str)) :
    Option (List Lang) → Except UnknownLangsError (List Lang)
  | none => .ok (compiledLangs terms)
  | some list =>
    let unknown := list.filter fun code => !(terms.lookup code).isSome
    if !unknown.isEmpty then .error ⟨unknown, compiledLangs terms⟩
    else .ok (dedup (sort list))

/-- The loop of `main` that gathers the patterns of the loaded languages. -/
def gatherPatterns (terms : HashMap Lang (List Str)) :
    List Lang → HashMap Lang (List Str) → Fallible (HashMap Lang (List Str))
  | [], patterns => .ok patterns
  | lang :: loaded, patterns =>
    match terms.lookup lang with
    | some list => gatherPatterns terms loaded (patterns.insert lang list)
    | none => .error .expectFailed

/-- The engine `main` serves with, given `VV_LANGS`. -/
def startEngine (terms : HashMap Lang (List Str)) (langs : Option (List Lang)) :
    Fallible (Except UnknownLangsError Engine) :=
  match resolveLoadedLangs terms langs with
  | .error e => .ok (.error e)
  | .ok loaded => do
    let patterns ← gatherPatterns terms loaded ∅
    return .ok (Engine.new patterns)

end VocabVeto
