import VocabVeto.ConfigProofs
import VocabVeto.Core.Auth

/-! Which requests authenticate. Keys are configured as strings of any kind, and
presented in a header that is read as visible ASCII: a key with another
character is accepted at startup and refused in every request. -/
namespace VocabVeto.AuthProofs
open Auth ConfigProofs

/-- The two spellings of the scheme, each with the blank after it. -/
def IsScheme (scheme : Str) : Prop := scheme = "Bearer ".toList ∨ scheme = "bearer ".toList

/-- The request's header is the scheme, then exactly this key. -/
def Presents (headers : HeaderMap) (key : List UInt8) : Prop :=
  ∃ scheme, IsScheme scheme ∧ headers.lookup authorization = some (Utf8.bytes scheme ++ key)

/-- The request is authenticated exactly by presenting a configured key, which
is returned, and is otherwise refused for the reason that applies. -/
structure AuthExact (keys : List (List UInt8)) (headers : HeaderMap) : Prop where
  accepts : ∀ token, check keys headers = .ok token ↔ token ∈ keys ∧ Presents headers token
  refuses : ∀ reason, check keys headers = .error reason →
    reason = if headers.lookup authorization = none then .missing else .invalid

/-- A header value that holds this key is read as text. -/
def Sendable (key : List UInt8) : Prop := ∀ b ∈ key, isVisibleAscii b = true

/-- A character that a header value shows as text. -/
def IsHeaderText (c : Char) : Prop := (32 ≤ c.toNat ∧ c.toNat < 127) ∨ c = '\t'

instance : Decidable (IsHeaderText c) := inferInstanceAs (Decidable (_ ∨ _))

/-! ### Reading the header -/

private theorem visible_lt (visible : isVisibleAscii b = true) : b.toNat < 128 := by
  simp only [isVisibleAscii, Bool.or_eq_true, Bool.and_eq_true, decide_eq_true_eq, beq_iff_eq] at visible
  obtain ⟨_, below⟩ | rfl := visible
  · have := UInt8.lt_iff_toNat_lt.mp below
    simp only [UInt8.reduceToNat] at this
    omega
  · decide

/-- Decoding visible ASCII and encoding it again gives the same bytes. -/
theorem bytes_decoded {raw : List UInt8} (visible : ∀ b ∈ raw, isVisibleAscii b = true) :
    Utf8.bytes (raw.map fun b => Char.ofNat b.toNat) = raw :=
  Utf8.bytes_ofAscii fun b member => visible_lt (visible b member)

/-- A header value is read as the text it encodes, when all of it is visible. -/
theorem toStr_some {raw : List UInt8} : toStr raw = some s ↔ Sendable raw ∧ Utf8.bytes s = raw := by
  unfold toStr
  split
  · rename_i visible
    have decoded := bytes_decoded (List.all_eq_true.mp visible)
    constructor
    · rintro same
      obtain rfl := Option.some.inj same
      exact ⟨List.all_eq_true.mp visible, decoded⟩
    · rintro ⟨_, spelled⟩
      rw [Utf8.bytes_injective (decoded.trans spelled.symm)]
  · rename_i hidden
    constructor
    · nofun
    · rintro ⟨sendable, _⟩
      exact absurd (List.all_eq_true.mpr sendable) hidden

theorem stripPrefix_some {lead s rest : Str} : stripPrefix lead s = some rest ↔ s = lead ++ rest := by
  unfold stripPrefix
  split
  · rename_i leads
    obtain ⟨tail, rfl⟩ := List.isPrefixOf_iff_prefix.mp leads
    simp
  · rename_i other
    constructor
    · nofun
    · rintro rfl
      exact absurd (List.isPrefixOf_iff_prefix.mpr (List.prefix_append _ _)) other

/-- What is left of a header after the scheme. -/
theorem token_some {s token : Str} :
    (stripPrefix "Bearer ".toList s).or (stripPrefix "bearer ".toList s) = some token ↔
      ∃ scheme, IsScheme scheme ∧ s = scheme ++ token := by
  rw [Option.or_eq_some_iff, stripPrefix_some, stripPrefix_some]
  constructor
  · rintro (upper | ⟨_, lower⟩)
    · exact ⟨_, .inl rfl, upper⟩
    · exact ⟨_, .inr rfl, lower⟩
  · rintro ⟨scheme, rfl | rfl, rfl⟩
    · exact .inl rfl
    · exact .inr ⟨rfl, rfl⟩

/-- The loop finds the token among the keys, wherever it stands. -/
theorem anyEqual_iff {apiKeys : List (List UInt8)} : anyEqual apiKeys token = true ↔ token ∈ apiKeys := by
  have tally : ∀ matched, apiKeys.foldl (fun matched k => matched || k == token) matched = true ↔
      matched = true ∨ token ∈ apiKeys := by
    induction apiKeys with
    | nil => simp
    | cons k apiKeys ih =>
      intro matched
      rw [List.foldl_cons, ih, List.mem_cons, Bool.or_eq_true, beq_iff_eq, or_assoc, eq_comm (a := k)]
  exact (tally false).trans (by simp)

/-! ### The check -/

theorem scheme_sendable (known : IsScheme scheme) : Sendable (Utf8.bytes scheme) := by
  obtain rfl | rfl := known
  · exact List.all_eq_true.mp (by decide)
  · exact List.all_eq_true.mp (by decide)

/-- The check tells apart a request without the header, one that presents a
configured key readably, and every other one. -/
theorem check_cases (keys : List (List UInt8)) (headers : HeaderMap) :
    headers.lookup authorization = none ∧ check keys headers = .error .missing ∨
      headers.lookup authorization ≠ none ∧ check keys headers = .error .invalid ∨
      ∃ token, check keys headers = .ok token ∧ token ∈ keys ∧ Presents headers token ∧ Sendable token := by
  unfold check
  cases header : headers.lookup authorization with
  | none => exact .inl ⟨rfl, rfl⟩
  | some raw =>
    right
    dsimp only
    split
    · exact .inl ⟨Option.some_ne_none raw, rfl⟩
    · rename_i s decoded
      obtain ⟨visible, rfl⟩ := toStr_some.mp decoded
      split
      · exact .inl ⟨Option.some_ne_none _, rfl⟩
      · rename_i presented stripped
        obtain ⟨scheme, known, rfl⟩ := token_some.mp stripped
        rw [Utf8.bytes_append] at header visible
        split
        · rename_i matched
          exact .inr ⟨_, rfl, anyEqual_iff.mp matched, ⟨scheme, known, header⟩,
            (List.forall_mem_append.mp visible).2⟩
        · exact .inl ⟨Option.some_ne_none _, rfl⟩

/-- A request is authenticated by presenting a configured key that can be read
from a header. -/
theorem check_ok {keys : List (List UInt8)} {headers : HeaderMap} :
    check keys headers = .ok token ↔ token ∈ keys ∧ Presents headers token ∧ Sendable token := by
  constructor
  · intro accepted
    obtain ⟨_, refused⟩ | ⟨_, refused⟩ | ⟨presented, matched, proper⟩ := check_cases keys headers
    · cases accepted.symm.trans refused
    · cases accepted.symm.trans refused
    · obtain rfl := Except.ok.inj (accepted.symm.trans matched)
      exact proper
  · rintro ⟨member, ⟨scheme, known, header⟩, sendable⟩
    obtain ⟨presented, rfl⟩ : ∃ presented, Utf8.bytes presented = token := ⟨_, bytes_decoded sendable⟩
    have visible := List.forall_mem_append.mpr ⟨scheme_sendable known, sendable⟩
    have decoded := toStr_some.mpr ⟨visible, Utf8.bytes_append scheme presented⟩
    have stripped := token_some.mpr ⟨scheme, known, Eq.refl (scheme ++ presented)⟩
    simp only [check, header, decoded, stripped, anyEqual_iff.mpr member, ↓reduceIte]

/-- A refusal names the missing header, or is the general one. -/
theorem check_error {keys : List (List UInt8)} {headers : HeaderMap}
    (refused : check keys headers = .error reason) :
    reason = if headers.lookup authorization = none then .missing else .invalid := by
  obtain ⟨absent, missing⟩ | ⟨present, invalid⟩ | ⟨token, accepted, _⟩ := check_cases keys headers
  · rw [if_pos absent]
    exact Except.error.inj (refused.symm.trans missing)
  · rw [if_neg present]
    exact Except.error.inj (refused.symm.trans invalid)
  · cases refused.symm.trans accepted

/-- One request is judged rightly exactly when the key it presents can be read. -/
theorem authExact_request {keys : List (List UInt8)} {headers : HeaderMap} :
    AuthExact keys headers ↔ ∀ key ∈ keys, Presents headers key → Sendable key := by
  constructor
  · intro exact key member presents
    exact (check_ok.mp ((exact.accepts key).mpr ⟨member, presents⟩)).2.2
  · intro readable
    refine ⟨fun token => check_ok.trans ?_, fun reason => check_error⟩
    constructor
    · rintro ⟨member, presents, _⟩
      exact ⟨member, presents⟩
    · rintro ⟨member, presents⟩
      exact ⟨member, presents, readable token member presents⟩

private theorem visible_char {c : Char} (small : c.toNat < 128) :
    isVisibleAscii (UInt8.ofNat c.toNat) = true ↔ IsHeaderText c := by
  have value : (UInt8.ofNat c.toNat).toNat = c.toNat := by
    rw [UInt8.toNat_ofNat']
    omega
  simp only [isVisibleAscii, IsHeaderText, Bool.or_eq_true, Bool.and_eq_true, decide_eq_true_eq, beq_iff_eq,
    UInt8.le_iff_toNat_le, UInt8.lt_iff_toNat_lt, ← UInt8.toNat_inj, value, ← Char.toNat_inj]
  rfl

/-- The characters that are encoded as visible ASCII. -/
theorem sendable_bytes {s : Str} : Sendable (Utf8.bytes s) ↔ ∀ c ∈ s, IsHeaderText c := by
  constructor
  · intro sendable c member
    by_cases small : c.toNat < 128
    · exact (visible_char small).mp (sendable _ ((Utf8.mem_bytes_ascii small).mpr member))
    · obtain ⟨b, encoded⟩ := List.exists_mem_of_ne_nil _ (Utf8.bytes_ne_nil (List.cons_ne_nil c []))
      rw [Utf8.bytes_cons, Utf8.bytes_nil, List.append_nil] at encoded
      have high := Utf8.encode_high (Nat.le_of_not_lt small) b encoded
      have low := visible_lt (sendable b (List.mem_flatMap.mpr ⟨c, member, encoded⟩))
      omega
  · intro text b among
    obtain ⟨c, member, encoded⟩ := List.mem_flatMap.mp among
    have shown := text c member
    have small : c.toNat < 128 := by
      obtain ⟨_, below⟩ | rfl := shown
      · omega
      · decide
    rw [Utf8.encode_ascii small, List.mem_singleton] at encoded
    rw [encoded]
    exact (visible_char small).mpr shown

/-- For the keys of an accepted configuration, a request is judged rightly
exactly when the key it presents is of visible ASCII and tabs; so all requests
are, exactly when every configured key is. -/
theorem configured_keys_authenticate_iff (accepted : Config.parseApiKeys (some src) = .ok keys) :
    (∀ headers, AuthExact keys headers ↔ ∀ key ∈ keys, Presents headers key → Sendable key) ∧
      ((∀ headers, AuthExact keys headers) ↔ ∀ raw ∈ src.intoVec, ∀ c ∈ trim raw, IsHeaderText c) := by
  refine ⟨fun headers => authExact_request, ?_⟩
  obtain ⟨_, _, rfl⟩ := parseApiKeys_ok.mp accepted
  simp only [authExact_request, List.mem_eraseDups, List.mem_map, forall_exists_index, and_imp,
    forall_apply_eq_imp_iff₂, ← sendable_bytes]
  constructor
  · intro exact raw member
    exact exact [(authorization, Utf8.bytes "Bearer ".toList ++ Utf8.bytes (trim raw))] raw member
      ⟨_, .inl rfl, rfl⟩
  · intro readable headers raw member _
    exact readable raw member

theorem configured_keys_authenticate_iff_pair :
    AuthExact [Utf8.bytes "key-one".toList, Utf8.bytes "key-two".toList]
      [(authorization, Utf8.bytes "bearer key-two".toList)] := by
  have parsed : Config.parseApiKeys (some (.csv "key-one, key-two".toList)) =
      .ok [Utf8.bytes "key-one".toList, Utf8.bytes "key-two".toList] := by decide
  refine (configured_keys_authenticate_iff parsed).2.mpr (fun raw member => ?_) _
  have each : (StringOrList.csv "key-one, key-two".toList).intoVec.all
      (fun raw => (trim raw).all fun c => decide (IsHeaderText c)) = true := by decide
  simpa only [List.all_eq_true, decide_eq_true_eq] using List.all_eq_true.mp each raw member

/-- A key with an accent is configured, and refused when it is sent verbatim. -/
theorem accented_key_refused :
    Config.parseApiKeys (some (.csv "clé".toList)) = .ok [Utf8.bytes "clé".toList] ∧
      ¬ AuthExact [Utf8.bytes "clé".toList] [(authorization, Utf8.bytes "Bearer clé".toList)] := by
  refine ⟨by decide, fun exact => ?_⟩
  have presents : Presents [(authorization, Utf8.bytes "Bearer clé".toList)] (Utf8.bytes "clé".toList) :=
    ⟨"Bearer ".toList, .inl rfl, by decide⟩
  have accepted := (exact.accepts _).mpr ⟨List.mem_singleton_self _, presents⟩
  have refused : check [Utf8.bytes "clé".toList] [(authorization, Utf8.bytes "Bearer clé".toList)] =
      .error .invalid := by decide
  rw [refused] at accepted
  cases accepted

end VocabVeto.AuthProofs
