import VocabVeto.Core.Collections
import VocabVeto.Core.Normalize

/-! `matcher/scan.rs`, `matcher/boundary.rs` and the mode table of
`matcher/mod.rs`: one automaton per language over the shared normalized text,
strict mode as a filter on its hits, and the cap on reported matches. -/
namespace VocabVeto
open LeftmostLongest

/-- A language code. -/
abbrev Lang := Str

/-- `MAX_MATCHES`. -/
def maxMatches : Nat := 256

inductive Mode where
  | strict
  | substring
  deriving DecidableEq, Repr

/-- `Mode::as_wire_str`. -/
def Mode.asWireStr : Mode → Str
  | .strict => "strict".toList
  | .substring => "substring".toList

structure Match where
  lang : Lang
  term : Str
  matchedText : Str
  start : Nat
  stop : Nat
  deriving DecidableEq, Repr

structure ScanResult where
  modeUsed : List (Lang × Mode)
  found : List Match
  truncated : Bool
  deriving DecidableEq, Repr

/-- `DEFAULT_MODE`. -/
def defaultMode : List (Lang × Mode) :=
  [("ar".toList, .strict), ("cs".toList, .strict), ("da".toList, .strict), ("de".toList, .strict),
   ("en".toList, .strict), ("eo".toList, .strict), ("es".toList, .strict), ("fa".toList, .strict),
   ("fi".toList, .strict), ("fil".toList, .strict), ("fr".toList, .strict), ("hi".toList, .strict),
   ("hu".toList, .strict), ("it".toList, .strict), ("ja".toList, .substring), ("kab".toList, .strict),
   ("ko".toList, .substring), ("nl".toList, .strict), ("no".toList, .strict), ("pl".toList, .strict),
   ("pt".toList, .strict), ("ru".toList, .strict), ("sv".toList, .strict), ("th".toList, .substring),
   ("tlh".toList, .strict), ("tr".toList, .strict), ("zh".toList, .substring)]

/-- `resolve_default_mode`. -/
def resolveDefaultMode (lang : Lang) : Mode := (defaultMode.lookup lang).getD .substring

/-! ### The engine -/

/-- An automaton, as far as its searches can be observed: the encoded patterns
it was built from, in pattern-id order. -/
structure AhoCorasick where
  patterns : List (List UInt8)
  deriving DecidableEq, Repr

/-- `AhoCorasickBuilder::new().match_kind(LeftmostLongest).build(patterns)`. -/
def AhoCorasick.build (patterns : List Str) : AhoCorasick := ⟨patterns.map Utf8.bytes⟩

/-- `ac.find_iter(haystack)`. -/
def AhoCorasick.findIter (crates : Crates) (ac : AhoCorasick) (haystack : Str) : List Hit :=
  crates.findIter ac.patterns (Utf8.bytes haystack)

/-- The loop of `Engine::new` over the given languages. -/
def buildAutomata (langs : HashMap Lang (List Str)) : HashMap Lang (AhoCorasick × List Str) :=
  collect (fun patterns => (AhoCorasick.build patterns, patterns)) langs

/-- Every language gets the automaton of its own patterns, and no other
language gets one. -/
theorem lookup_buildAutomata (langs : HashMap Lang (List Str)) (lang : Lang) :
    (buildAutomata langs).lookup lang =
      (langs.lookup lang).map fun patterns => (AhoCorasick.build patterns, patterns) :=
  lookup_collect _ langs lang

/-- `Engine`. Its field is private and `Engine::new` its only constructor, so
each automaton is the one built from the patterns stored next to it. -/
structure Engine where
  automata : HashMap Lang (AhoCorasick × List Str)
  built : ∀ lang ac patterns, automata.lookup lang = some (ac, patterns) → ac = AhoCorasick.build patterns

namespace Engine

/-- `Engine::new`. -/
def new (langs : HashMap Lang (List Str)) : Engine where
  automata := buildAutomata langs
  built := by
    intro lang ac patterns held
    rw [lookup_buildAutomata, Option.map_eq_some_iff] at held
    obtain ⟨own, _, same⟩ := held
    simp only [Prod.mk.injEq] at same
    rw [← same.1, same.2]

/-- `Engine::languages`. -/
def languages (engine : Engine) : List Lang := engine.automata.keys

/-- `Engine::has_language`. -/
def hasLanguage (engine : Engine) (lang : Lang) : Bool := (engine.automata.lookup lang).isSome

/-- The terms loaded for a language. -/
def terms (engine : Engine) (lang : Lang) : Option (List Str) :=
  (engine.automata.lookup lang).map Prod.snd

/-- A new engine holds the terms it was given. -/
@[simp] theorem terms_new (langs : HashMap Lang (List Str)) (lang : Lang) :
    (new langs).terms lang = langs.lookup lang := by
  rw [terms, new, lookup_buildAutomata, Option.map_map]
  exact congrFun Option.map_id _

/-- No loaded term is empty: the build drops blank lines. -/
def TermsNonempty (engine : Engine) : Prop :=
  ∀ lang terms, engine.terms lang = some terms → ∀ term ∈ terms, term ≠ []

/-- An engine built from nonempty terms holds no others. -/
theorem new_nonempty {langs : HashMap Lang (List Str)}
    (nonempty : ∀ entry ∈ langs.entries, ∀ term ∈ entry.2, term ≠ []) : (new langs).TermsNonempty := by
  intro lang terms loaded
  rw [terms_new] at loaded
  exact nonempty ⟨lang, terms⟩ (AList.mem_lookup_iff.mp loaded)

end Engine

/-! ### Word boundaries and source spans -/

/-- `is_word_boundary`. -/
def isWordBoundary (crates : Crates) (s : Str) (byteIdx : Nat) : Bool :=
  byteIdx == 0 || byteIdx == Str.len s ||
    (crates.splitWordBoundIndices s).any fun segment => segment.1 == byteIdx

theorem isWordBoundary_iff {crates : Crates} :
    isWordBoundary crates s byteIdx = true ↔ crates.WordBoundary s byteIdx := by
  simp only [isWordBoundary, Crates.WordBoundary, Bool.or_eq_true, beq_iff_eq, List.any_eq_true, List.mem_map,
    or_assoc]

/-- `v[i]`. -/
def index (v : List α) (i : Nat) : Fallible α :=
  match v[i]? with
  | some x => .ok x
  | none => .error .indexOutOfBounds

/-- `v[i - 1]`: the subtraction of `usize` underflows at zero. -/
def indexPred (v : List α) : Nat → Fallible α
  | 0 => .error .indexOutOfBounds
  | i + 1 => index v i

/-- `widen_to_source`. -/
def widenToSource (offsetMap : List Nat) (original : Str) (nStart nEnd : Nat) : Fallible (Nat × Nat) := do
  let start ← index offsetMap nStart
  let lastSourceCpStart ← indexPred offsetMap nEnd
  let tail ← Str.sliceFrom original lastSourceCpStart
  match tail with
  | [] => .error .expectFailed
  | ch :: _ => .ok (start, lastSourceCpStart + ch.utf8Size)

/-! ### Scanning -/

/-- What every iteration of one language's scan shares. -/
structure Pass where
  text : Str
  norm : Normalized
  lang : Lang
  mode : Mode
  patterns : List Str

/-- The head of the loop body: resolve the term, widen the hit to the source,
and drop it in strict mode off a word boundary. -/
def examine (crates : Crates) (pass : Pass) (hit : Hit) : Fallible (Option (Str × Nat × Nat)) := do
  let term ← index pass.patterns hit.pattern
  let (start, stop) ← widenToSource pass.norm.offsetMap pass.text hit.start hit.stop
  if pass.mode = .strict ∧
      (!isWordBoundary crates pass.text start || !isWordBoundary crates pass.text stop) then
    return none
  else return some (term, start, stop)

/-- The value pushed for an accepted hit. -/
def report (pass : Pass) (term : Str) (start stop : Nat) : Fallible Match := do
  let matchedText ← Str.slice pass.text start stop
  return ⟨pass.lang, term, matchedText, start, stop⟩

/-- `for hit in ac.find_iter(..)`: the matches so far, and whether the cap ended
the whole scan. -/
def scanHits (crates : Crates) (pass : Pass) : List Hit → List Match → Fallible (List Match × Bool)
  | [], found => .ok (found, false)
  | hit :: hits, found => do
    match ← examine crates pass hit with
    | none => scanHits crates pass hits found
    | some (term, start, stop) =>
      if found.length = maxMatches then return (found, true)
      else
        let accepted ← report pass term start stop
        scanHits crates pass hits (found ++ [accepted])

/-- `'outer: for lang in langs`. -/
def scanLangs (crates : Crates) (engine : Engine) (text : Str) (norm : Normalized) (mode : Option Mode) :
    List Lang → List (Lang × Mode) → List Match → Fallible ScanResult
  | [], modeUsed, found => .ok ⟨modeUsed, found, false⟩
  | lang :: langs, modeUsed, found => do
    let m := mode.getD (resolveDefaultMode lang)
    let modeUsed := modeUsed ++ [(lang, m)]
    match engine.automata.lookup lang with
    | none => scanLangs crates engine text norm mode langs modeUsed found
    | some (ac, patterns) =>
      match ← scanHits crates ⟨text, norm, lang, m, patterns⟩ (ac.findIter crates norm.text) found with
      | (found, true) => return ⟨modeUsed, found, true⟩
      | (found, false) => scanLangs crates engine text norm mode langs modeUsed found

/-- `Engine::scan`. -/
def Engine.scan (crates : Crates) (engine : Engine) (text : Str) (langs : List Lang)
    (mode : Option Mode) : Fallible (Except NormalizeError ScanResult) :=
  match normalize crates text with
  | .error e => .ok (.error e)
  | .ok norm => do
    let result ← scanLangs crates engine text norm mode langs [] []
    return .ok result

end VocabVeto
