import VocabVeto.Core.Cli
import VocabVeto.Core.Service

/-! `cli.rs`: `vv languages` and `vv version`. -/
namespace VocabVeto.Cli

/-- What a command writes to standard output: a response through `serde_json`, or a row. -/
inductive Output (ρ : Type) where
  | json (response : ρ)
  | row (line : Str)
  deriving DecidableEq, Repr

/-- Standard output: what of these writes reaches it, and the error that stopped it. -/
abbrev Stdout (ρ : Type) := List (Output ρ) → List (Output ρ) × Option Str

/-- What a command leaves behind: its output, its errors, its exit category. -/
structure Left (ρ : Type) where
  stdout : List (Output ρ)
  stderr : List Str
  kind : ExitKind
  deriving DecidableEq, Repr

/-- Write, and report what went wrong. -/
def leave (stdout : Stdout ρ) (rows : List (Output ρ)) : Left ρ :=
  match stdout rows with
  | (reached, some e) => ⟨reached, ["failed to write output: ".toList ++ e], .io⟩
  | (reached, none) => ⟨reached, [], .success⟩

/-- A row of `vv languages`. -/
def languageRow (entry : LanguagesEntry) : Str := entry.code ++ "\t".toList ++ entry.defaultMode ++ "\n".toList

/-- `run_languages`. -/
def runLanguages (terms : HashMap Lang (List Str)) (stdout : Stdout (List LanguagesEntry)) :
    OutputFormat → Left (List LanguagesEntry)
  | .json => leave stdout
      [.json ((compiledLangs terms).map fun code => ⟨code, (resolveDefaultMode code).asWireStr⟩)]
  | .plain => leave stdout
      ((compiledLangs terms).map fun code => .row (languageRow ⟨code, (resolveDefaultMode code).asWireStr⟩))

structure VersionResponse where
  crateVersion : Str
  listVersion : Str
  languages : Nat
  deriving DecidableEq, Repr

/-- The row of `vv version`. -/
def versionRow (resp : VersionResponse) : Str :=
  resp.crateVersion ++ "\t".toList ++ resp.listVersion ++ "\t".toList ++ decimal resp.languages ++ "\n".toList

/-- `run_version`. -/
def runVersion (terms : HashMap Lang (List Str)) (crateVersion listVersion : Str) (stdout : Stdout VersionResponse) :
    OutputFormat → Left VersionResponse
  | .json => leave stdout [.json ⟨crateVersion, listVersion, terms.keys.length⟩]
  | .plain => leave stdout [.row (versionRow ⟨crateVersion, listVersion, terms.keys.length⟩)]

end VocabVeto.Cli
