import VocabVeto.Core.Check

/-! `auth.rs`: the bearer check against the configured keys. -/
namespace VocabVeto.Auth

/-- `HeaderMap`, as the headers of a request in order, under lowercase names. -/
abbrev HeaderMap := List (Str × List UInt8)

/-- `AUTHORIZATION`. -/
def authorization : Str := "authorization".toList

/-- A byte that a header value shows as text: visible ASCII, or a tab. -/
def isVisibleAscii (b : UInt8) : Bool := (32 ≤ b && b < 127) || b == 9

/-- `HeaderValue::to_str`. -/
def toStr (raw : List UInt8) : Option Str :=
  if raw.all isVisibleAscii then some (raw.map fun b => Char.ofNat b.toNat) else none

/-- `str::strip_prefix`. -/
def stripPrefix (lead s : Str) : Option Str := if lead.isPrefixOf s then some (s.drop lead.length) else none

/-- The loop over all keys, which goes on after a match. -/
def anyEqual (apiKeys : List (List UInt8)) (token : List UInt8) : Bool :=
  apiKeys.foldl (fun matched k => matched || k == token) false

/-- `check`. -/
def check (apiKeys : List (List UInt8)) (headers : HeaderMap) : Except UnauthorizedReason (List UInt8) :=
  match headers.lookup authorization with
  | none => .error .missing
  | some raw =>
    match toStr raw with
    | none => .error .invalid
    | some s =>
      match (stripPrefix "Bearer ".toList s).or (stripPrefix "bearer ".toList s) with
      | none => .error .invalid
      | some token =>
        let tokenBytes := Utf8.bytes token
        if anyEqual apiKeys tokenBytes then .ok tokenBytes else .error .invalid

end VocabVeto.Auth
