import VocabVeto.Core.Terms
import VocabVeto.Library.Lexing

/-! `build.rs`: the checks on the vendored directory, the Rust file that `emit`
writes, and what the compiler reads in it. -/
namespace VocabVeto.Build
open Lexing

/-- `SKIP_LIST`. -/
def skipList : List Str := ["fr-CA-u-sd-caqc".toList, "LICENSE".toList, "README.md".toList, "USERS.md".toList]

/-- An entry of the directory: whether it is a file, and its name, where each can be told. -/
structure DirEntry where
  isFile : Option Bool
  name : Option Str
  deriving DecidableEq, Repr

/-- The name under which `enumerate` takes up an entry. -/
def listed (entry : Option DirEntry) : Option Str := do
  let entry ← entry
  let isFile ← entry.isFile
  if !isFile then none
  else do
    let name ← entry.name
    if name.head? = some '.' then none else some name

/-- `BTreeSet<String>` from an iterator, as its elements in order. -/
def collectSet (names : List Str) : List Str := dedup (sort names)

/-- `enumerate`. -/
def enumerate (vendor : List (Option DirEntry)) : List Str := collectSet (vendor.filterMap listed)

/-- How the build stops. -/
inductive BuildError where
  | overlap (codes : List Str)
  | missing (codes : List Str)
  | unknown (files : List Str)
  | unreadable (code : Lang) (e : Str)
  | panicked (panic : Panic)
  deriving DecidableEq, Repr

/-- `validate`. -/
def validate (files : List Str) : Except BuildError Unit :=
  let allow := collectSet allowlist
  let skip := collectSet skipList
  let overlap := allow.filter fun code => skip.contains code
  if !overlap.isEmpty then .error (.overlap overlap)
  else
    let missing := allow.filter fun code => !files.contains code
    if !missing.isEmpty then .error (.missing missing)
    else
      let unknown := files.filter fun f => !allow.contains f && !skip.contains f
      if !unknown.isEmpty then .error (.unknown unknown) else .ok ()

/-- `load_terms`, with `fs::read_to_string` of each file, which also fails on one
that is not UTF-8. -/
def loadTermsFrom (read : Lang → Except Str Str) : Except BuildError (List (Lang × List Str)) := do
  let out ← allowlist.mapM fun code => do
    let raw ← (read code).mapError (.unreadable code)
    let terms ← (termsOfFile raw).mapError .panicked
    return (code, terms)
  return out.insertionSort fun a b => a.1 ≤ b.1

/-! ### Writing -/

/-- A lowercase hexadecimal digit. -/
def hexDigit (d : Nat) : Char := if d < 10 then Char.ofNat (48 + d) else Char.ofNat (87 + d)

/-- `char::escape_unicode`. -/
def escapeUnicode (c : Char) : Str :=
  "\\u\x7b".toList ++ ((Nat.digits 16 c.toNat).reverse.map hexDigit) ++ "\x7d".toList

/-- `char::escape_debug_ext` in a string. Which characters are shown as they are is
decided by tables of the standard library. -/
def escapeDebug (shown : Char → Bool) (c : Char) : Str :=
  if c = '\x00' then "\\0".toList
  else if c = '\t' then "\\t".toList
  else if c = '\r' then "\\r".toList
  else if c = '\n' then "\\n".toList
  else if c = '"' then "\\\"".toList
  else if c = '\\' then "\\\\".toList
  else if shown c then [c]
  else escapeUnicode c

/-- `{w:?}` of a string. -/
def debugStr (shown : Char → Bool) (w : Str) : Str := ['"'] ++ w.flatMap (escapeDebug shown) ++ ['"']

/-- The line of one language. -/
def entryLine (shown : Char → Bool) (entry : Lang × List Str) : Str :=
  "    \"".toList ++ entry.1 ++ "\" => &[".toList ++ join ", ".toList (entry.2.map (debugStr shown)) ++ "],\n".toList

/-- `emit`, as the file it writes. -/
def emit (shown : Char → Bool) (sha : Str) (terms : List (Lang × List Str)) : Str :=
  "// Auto-generated by build.rs. Do not edit.\n".toList ++
    ("pub const LIST_VERSION: &str = \"".toList ++ sha ++ "\";\n".toList) ++ "\n".toList ++
    "pub static TERMS: ::phf::Map<&'static str, &'static [&'static str]> = ::phf::phf_map! \x7b\n".toList ++
    terms.flatMap (entryLine shown) ++ "\x7d;\n".toList

/-- The build: what is compiled in, when nothing stops it. The commit and the
listing of the directory are given, and the output can be written. -/
def main (shown : Char → Bool) (sha : Str) (vendor : List (Option DirEntry)) (read : Lang → Except Str Str) :
    Except BuildError Str := do
  validate (enumerate vendor)
  let terms ← loadTermsFrom read
  return emit shown sha terms

/-! ### Reading

The generated file is included by `matcher/mod.rs`. Its tokens are those of Rust,
as far as they occur in such a file; a lifetime is read as its quote and its name. -/

inductive Token where
  | name (w : Str)
  | punct (c : Char)
  | literal (s : Str)
  deriving DecidableEq, Repr

/-- Where a lexer stands. -/
inductive Lexer where
  | between
  /-- After a first slash. -/
  | slash
  | comment
  | name (read : Str)
  /-- Inside a string literal, with what was read of it. -/
  | text (read : Str)
  | escape (read : Str)
  /-- After the `u` of an escape. -/
  | brace (read : Str)
  /-- Inside its braces, with the digits so far and their value. -/
  | hex (read : Str) (digits value : Nat)
  deriving DecidableEq, Repr

def isNameChar (c : Char) : Bool := c.isAlphanum || c == '_'

def hexVal (c : Char) : Option Nat :=
  let n := c.toNat
  if 48 ≤ n ∧ n ≤ 57 then some (n - 48)
  else if 97 ≤ n ∧ n ≤ 102 then some (n - 87)
  else if 65 ≤ n ∧ n ≤ 70 then some (n - 55)
  else none

/-- A scalar value, from its number. -/
def scalar (n : Nat) : Option Char := if n.isValidChar then some (Char.ofNat n) else none

/-- The character that a simple escape stands for. -/
def unescape (c : Char) : Option Char :=
  if c = '0' then some '\x00'
  else if c = 't' then some '\t'
  else if c = 'r' then some '\r'
  else if c = 'n' then some '\n'
  else if c = '"' then some '"'
  else if c = '\'' then some '\''
  else if c = '\\' then some '\\'
  else none

/-- The first character of a token. -/
def start (c : Char) : List Token × Lexer :=
  if isWhitespace c then ([], .between)
  else if c = '/' then ([], .slash)
  else if c = '"' then ([], .text [])
  else if isNameChar c then ([], .name [c])
  else ([.punct c], .between)

/-- Read one character. -/
def lex : Lexer → Char → Option (List Token × Lexer)
  | .between, c => some (start c)
  | .slash, c => if c = '/' then some ([], .comment) else none
  | .comment, c => some ([], if c = '\n' then .between else .comment)
  | .name read, c =>
    if isNameChar c then some ([], .name (read ++ [c])) else some (.name read :: (start c).1, (start c).2)
  | .text read, c =>
    if c = '"' then some ([.literal read], .between)
    else if c = '\\' then some ([], .escape read)
    else if c = '\r' then none
    else some ([], .text (read ++ [c]))
  | .escape read, c =>
    if c = 'u' then some ([], .brace read) else (unescape c).map fun d => ([], .text (read ++ [d]))
  | .brace read, c => if c = '\x7b' then some ([], .hex read 0 0) else none
  | .hex read digits value, c =>
    if c = '\x7d' then
      if digits = 0 then none else (scalar value).map fun d => ([], .text (read ++ [d]))
    else if digits = 6 then none
    else (hexVal c).map fun d => ([], .hex read (digits + 1) (16 * value + d))

/-- What comes before the two things the file defines, and between them. -/
def constHeader : List Token :=
  [.name "pub".toList, .name "const".toList, .name "LIST_VERSION".toList, .punct ':', .punct '&',
   .name "str".toList, .punct '=']

def staticHeader : List Token :=
  [.punct ';', .name "pub".toList, .name "static".toList, .name "TERMS".toList, .punct ':', .punct ':', .punct ':',
   .name "phf".toList, .punct ':', .punct ':', .name "Map".toList, .punct '<', .punct '&', .punct '\'',
   .name "static".toList, .name "str".toList, .punct ',', .punct '&', .punct '\'', .name "static".toList,
   .punct '[', .punct '&', .punct '\'', .name "static".toList, .name "str".toList, .punct ']', .punct '>',
   .punct '=', .punct ':', .punct ':', .name "phf".toList, .punct ':', .punct ':', .name "phf_map".toList,
   .punct '!', .punct '\x7b']

/-- Where a reader of the map stands. -/
inductive Place where
  | key
  /-- With these tokens to come before the words of a language. -/
  | arrow (code : Str) (rest : List Char)
  | word (code : Str) (words : List Str)
  | afterWord (code : Str) (words : List Str)
  | afterEntry
  | closing
  | closed
  deriving DecidableEq, Repr

/-- Read one token of the map. -/
def readToken : Place → Token → Option (List (Lang × List Str) × Place)
  | .key, .literal code => some ([], .arrow code ['=', '>', '&', '['])
  | .key, .punct '\x7d' => some ([], .closing)
  | .arrow code (c :: rest), .punct d =>
    if c ≠ d then none else some ([], if rest.isEmpty then .word code [] else .arrow code rest)
  | .word code words, .literal w => some ([], .afterWord code (words ++ [w]))
  | .word code words, .punct ']' => some ([(code, words)], .afterEntry)
  | .afterWord code words, .punct ',' => some ([], .word code words)
  | .afterWord code words, .punct ']' => some ([(code, words)], .afterEntry)
  | .afterEntry, .punct ',' => some ([], .key)
  | .afterEntry, .punct '\x7d' => some ([], .closing)
  | .closing, .punct ';' => some ([], .closed)
  | _, _ => none

/-- What the compiler makes of a generated file: the version, and the entries of
the map. -/
def readGenerated (file : Str) : Option (Str × List (Lang × List Str)) := do
  let (tokens, last) ← feed lex .between file
  if last ≠ .between then none
  else do
    let .literal sha :: rest := tokens.drop constHeader.length | none
    if tokens.take constHeader.length ≠ constHeader ∨ rest.take staticHeader.length ≠ staticHeader then none
    else
      match ← feed readToken .key (rest.drop staticHeader.length) with
      | (entries, .closed) => some (sha, entries)
      | _ => none

end VocabVeto.Build
