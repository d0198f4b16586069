import VocabVeto.Core.Service

/-! The third-party functions on plain Latin text: ASCII, the acute `e` and the
dotted `I` in their two spellings, and the `ﬁ` ligature. They meet every assumption the results below
make, so none of those is vacuous, and on such text they agree with the crates. -/
namespace VocabVeto.AsciiCrates
open LeftmostLongest

/-- Compose the acute `e` and the dotted `I`, and spell the ligature out. -/
def nfkc : Str → Str
  | 'I' :: '\u0307' :: text => 'İ' :: nfkc text
  | 'e' :: '\u0301' :: text => 'é' :: nfkc text
  | 'ﬁ' :: text => 'f' :: 'i' :: nfkc text
  | c :: text => c :: nfkc text
  | [] => []

/-- The dotted `I` folds to a letter and its mark. -/
def caseFold (c : Char) : Str := if c = 'İ' then ['i', '\u0307'] else [c.toLower]

/-- UAX #29 keeps letters, digits and their marks together, and runs of spaces. -/
def joins (left right : Char) : Bool := (wordy left && wordy right) || (left == ' ' && right == ' ')
where wordy (c : Char) : Bool := c.isAlphanum || c == '_' || ['é', 'İ', 'ﬁ', '\u0301', '\u0307'].contains c

def segmentsFrom : Nat → Str → List (Nat × Str)
  | _, [] => []
  | offset, c :: text =>
    match text, segmentsFrom (offset + c.utf8Size) text with
    | next :: _, (following, segment) :: segments =>
      if joins c next then (offset, c :: segment) :: segments
      else (offset, [c]) :: (following, segment) :: segments
    | _, segments => (offset, [c]) :: segments

def crates : Crates where
  nfkc := nfkc
  defaultCaseFold := caseFold
  splitWordBoundIndices := segmentsFrom 0
  findIter := search

theorem foldsNonempty : crates.FoldsNonempty := by
  intro ch
  have kept : nfkc [ch] ≠ [] := by
    unfold nfkc
    split <;> simp_all
  obtain ⟨first, rest, spelled⟩ := List.exists_cons_of_ne_nil kept
  have folded : caseFold first ≠ [] := by
    unfold caseFold
    split <;> simp
  simp [Crates.fold, crates, spelled, folded]

theorem reportsOccurrences : crates.ReportsOccurrences := fun _ _ _ member => search_sound member

theorem findsLeftmostLongest : crates.FindsLeftmostLongest := fun _ haystack nonempty =>
  search_greedy haystack nonempty

theorem findsDisjoint : crates.FindsDisjoint := fun _ haystack nonempty =>
  (search_greedy haystack nonempty).disjoint.1

/-- The segments of a text cover it from its first byte on. -/
theorem segmentsFrom_cons (offset : Nat) (c : Char) (text : Str) :
    ∃ segment segments, segmentsFrom offset (c :: text) = (offset, segment) :: segments := by
  unfold segmentsFrom
  split
  · split
    · exact ⟨_, _, rfl⟩
    · exact ⟨_, _, rfl⟩
  · exact ⟨_, _, rfl⟩

/-- The first character joins the segment of the next one, or stands alone. -/
private theorem segmentsFrom_next {segment : Str} {segments : List (Nat × Str)}
    (cut : segmentsFrom (offset + c.utf8Size) (next :: text) = (start, segment) :: segments) :
    segmentsFrom offset (c :: next :: text) =
      if joins c next then (offset, c :: segment) :: segments
      else (offset, [c]) :: (start, segment) :: segments := by
  conv_lhs => unfold segmentsFrom
  simp only [cut]

/-- A line feed is a segment of its own, and those on either side of it are the
segments of that side. -/
theorem segmentsFrom_split (offset : Nat) (before after : Str) :
    segmentsFrom offset (before ++ '\n' :: after) = segmentsFrom offset before ++
      (offset + Str.len before, ['\n']) :: segmentsFrom (offset + Str.len before + 1) after := by
  induction before generalizing offset with
  | nil =>
    cases after with
    | nil => rfl
    | cons next after =>
      obtain ⟨segment, segments, cut⟩ := segmentsFrom_cons (offset + Char.utf8Size '\n') next after
      have apart : joins '\n' next = false := rfl
      rw [List.nil_append, segmentsFrom_next cut, apart, ← cut]
      rfl
  | cons c before ih =>
    have later := ih (offset + c.utf8Size)
    rw [Str.len_cons, ← Nat.add_assoc]
    cases before with
    | nil =>
      have plain : joins.wordy '\n' = false := by decide
      have apart : joins c '\n' = false := by simp [joins, plain]
      rw [List.nil_append] at later
      simp only [List.cons_append, List.nil_append, segmentsFrom_next later, apart]
      rfl
    | cons next before =>
      obtain ⟨segment, segments, cut⟩ := segmentsFrom_cons (offset + c.utf8Size) next before
      rw [cut, List.cons_append, List.cons_append] at later
      rw [List.cons_append, List.cons_append, segmentsFrom_next later, segmentsFrom_next cut]
      split
      · rfl
      · rfl

private theorem segmentsFrom_starts (offset extra : Nat) (text : Str) :
    (segmentsFrom (offset + extra) text).map Prod.fst =
      ((segmentsFrom offset text).map Prod.fst).map (· + extra) := by
  induction text generalizing offset with
  | nil => rfl
  | cons c text ih =>
    cases text with
    | nil => rfl
    | cons next text =>
      have later := ih (offset + c.utf8Size)
      rw [Nat.add_right_comm] at later
      obtain ⟨segment, segments, cut⟩ := segmentsFrom_cons (offset + c.utf8Size) next text
      obtain ⟨segment', segments', cut'⟩ := segmentsFrom_cons (offset + extra + c.utf8Size) next text
      rw [cut, cut'] at later
      simp only [List.map_cons, List.cons.injEq] at later
      rw [segmentsFrom_next cut, segmentsFrom_next cut']
      split
      · simp only [List.map_cons, later.2]
      · simp only [List.map_cons, later.1, later.2]

private theorem segmentsFrom_within (offset : Nat) (text : Str) :
    ∀ start ∈ (segmentsFrom offset text).map Prod.fst, start < offset + Str.len text := by
  induction text generalizing offset with
  | nil => exact nofun
  | cons c text ih =>
    have wide := c.utf8Size_pos
    cases text with
    | nil =>
      rw [show segmentsFrom offset [c] = [(offset, [c])] from rfl]
      simp [wide]
    | cons next text =>
      obtain ⟨segment, segments, cut⟩ := segmentsFrom_cons (offset + c.utf8Size) next text
      have later := ih (offset + c.utf8Size)
      simp only [cut, List.map_cons, List.forall_mem_cons] at later
      rw [Str.len_cons, ← Nat.add_assoc, segmentsFrom_next cut]
      split
      · exact List.forall_mem_cons.mpr ⟨by omega, later.2⟩
      · exact List.forall_mem_cons.mpr ⟨by omega, List.forall_mem_cons.mpr later⟩

private theorem starts_newline (before after : Str) :
    (crates.splitWordBoundIndices (before ++ '\n' :: after)).map Prod.fst =
      (crates.splitWordBoundIndices before).map Prod.fst ++ Str.len before ::
        ((crates.splitWordBoundIndices after).map Prod.fst).map (· + (Str.len before + 1)) := by
  have moved := segmentsFrom_starts 0 (Str.len before + 1) after
  simp only [Nat.zero_add] at moved
  simp only [crates, segmentsFrom_split, List.map_append, List.map_cons, Nat.zero_add, moved]

theorem breaksAtNewline : crates.BreaksAtNewline := by
  intro before after _
  have inside : ∀ start ∈ (crates.splitWordBoundIndices before).map Prod.fst, start < Str.len before := by
    have within := segmentsFrom_within 0 before
    rwa [Nat.zero_add] at within
  have whole : Str.len (before ++ '\n' :: after) = Str.len after + (Str.len before + 1) := by
    rw [Str.len_append, Str.len_cons, show Char.utf8Size '\n' = 1 from rfl]
    omega
  simp only [Crates.WordBoundary, starts_newline, whole, List.mem_append, List.mem_cons]
  refine ⟨fun offset low => ⟨?_, ?_⟩, fun offset => ⟨?_, ?_⟩⟩
  · rintro (first | last | here | edge | there)
    · exact .inl first
    · omega
    · exact .inr (.inr here)
    · exact .inr (.inl edge)
    · obtain ⟨inner, _, rfl⟩ := List.mem_map.mp there
      omega
  · rintro (first | edge | here)
    · exact .inl first
    · exact .inr (.inr (.inr (.inl edge)))
    · exact .inr (.inr (.inl here))
  · rintro (first | last | here | edge | there)
    · omega
    · exact .inr (.inl (Nat.add_right_cancel last))
    · have := inside _ here
      omega
    · omega
    · obtain ⟨inner, start, same⟩ := List.mem_map.mp there
      exact .inr (.inr (Nat.add_right_cancel same ▸ start))
  · rintro (rfl | rfl | start)
    · cases after with
      | nil => exact .inr (.inl rfl)
      | cons c rest =>
        obtain ⟨segment, segments, cut⟩ := segmentsFrom_cons 0 c rest
        exact .inr (.inr (.inr (.inr (List.mem_map_of_mem (by simp [crates, cut])))))
    · exact .inr (.inl rfl)
    · exact .inr (.inr (.inr (.inr (List.mem_map_of_mem start))))

/-- Whether a text folds to itself, checked letter by letter. -/
theorem fixed_of_all {text : Str} (each : text.all (fun ch => crates.fold ch == [ch]) = true) :
    ∀ ch ∈ text, crates.fold ch = [ch] := by
  simpa only [List.all_eq_true, beq_iff_eq] using each

/-- An engine that holds one language, with these terms. -/
def engine (lang : String) (terms : List String) : Engine :=
  Engine.new (AList.insert lang.toList (terms.map String.toList) ∅)

theorem terms_engine (code : String) (terms : List String) (lang : Lang) :
    (engine code terms).terms lang =
      if lang = code.toList then some (terms.map String.toList) else none := by
  rw [engine, Engine.terms_new]
  by_cases asked : lang = code.toList
  · subst asked
    rw [AList.lookup_insert, if_pos rfl]
  · rw [AList.lookup_insert_ne asked, AList.lookup_empty, if_neg asked]

/-- What holds of each given term holds of every term the engine has. -/
theorem engine_terms (code : String) {terms : List String} {Good : Str → Prop}
    (good : ∀ term ∈ terms.map String.toList, Good term) :
    ∀ lang listed, (engine code terms).terms lang = some listed → ∀ term ∈ listed, Good term := by
  intro lang listed loaded
  rw [terms_engine] at loaded
  split at loaded
  · cases loaded
    exact good
  · cases loaded

theorem engine_nonempty (code : String) {terms : List String}
    (nonempty : ∀ term ∈ terms.map String.toList, term ≠ []) : (engine code terms).TermsNonempty :=
  engine_terms code nonempty

/-! ### The layers of the router -/

/-- The error of a body that went over the limit, as it comes out of `to_bytes`. -/
def lengthLimit : AxumError :=
  ⟨⟨"length limit exceeded".toList, false⟩, [⟨"length limit exceeded".toList, true⟩]⟩

/-- The answer of the body limit layer itself. -/
def oversize : Response :=
  ⟨413, [("content-type".toList, "text/plain; charset=utf-8".toList)], .text "length limit exceeded".toList⟩

/-- `RequestBodyLimitLayer`: a body may not have more than the limit, nor more than
it declares. -/
def bodyLimit (limit : Nat) (request : HttpRequest) : Except Response (Except AxumError (List UInt8)) :=
  if limit < request.declared.getD 0 then .error oversize
  else if min limit (request.declared.getD limit) < request.body.length then .ok (.error lengthLimit)
  else match request.broken with
    | some e => .ok (.error e)
    | none => .ok (.ok request.body)

/-- `axum` and `tower_http`. -/
def http : HttpCrates where
  fallback _ := ⟨404, [], .empty⟩
  methodNotAllowed request :=
    ⟨405, [("allow".toList, if request.path = "/v1/check".toList then "POST".toList else "GET,HEAD".toList)], .empty⟩
  bodyLimit := bodyLimit

theorem http_answersPlainly : http.AnswersPlainly := by
  refine ⟨fun _ => ⟨rfl, rfl, fun _ => List.not_mem_nil⟩, fun _ => ⟨rfl, rfl, fun value member => ?_⟩⟩
  have other : "www-authenticate".toList ≠ "allow".toList := by decide
  exact other (congrArg Prod.fst (List.mem_singleton.mp member))

private theorem bodyLimit_within {request : HttpRequest} (framed : request.WellFramed)
    (within : ¬ request.Exceeds limit) :
    bodyLimit limit request = match request.broken with
      | some e => .ok (.error e)
      | none => .ok (.ok request.body) := by
  simp only [HttpRequest.Exceeds, not_or, not_exists, not_and, Nat.not_lt] at within
  obtain ⟨announced, sent⟩ := within
  have fits : request.declared.getD 0 ≤ limit := by
    cases length : request.declared with
    | none => exact Nat.zero_le _
    | some n => exact announced n length
  have kept : request.body.length ≤ min limit (request.declared.getD limit) := by
    cases length : request.declared with
    | none => exact Nat.le_min.mpr ⟨sent, sent⟩
    | some n => exact Nat.le_min.mpr ⟨sent, (framed n length).1⟩
  rw [bodyLimit, if_neg (Nat.not_lt.mpr fits), if_neg (Nat.not_lt.mpr kept)]

theorem http_limitsBodies : http.LimitsBodies where
  own limit request resp refused := by
    change bodyLimit limit request = .error resp at refused
    unfold bodyLimit at refused
    split at refused
    · rw [← Except.error.inj refused]
      rfl
    · split at refused
      · cases refused
      · split at refused
        · cases refused
        · cases refused
  declared limit request n length beyond := by
    have refused : limit < request.declared.getD 0 := by rwa [length]
    exact ⟨oversize, if_pos refused⟩
  streamed limit request announced beyond := by
    have fits : request.declared.getD 0 ≤ limit := by
      cases length : request.declared with
      | none => exact Nat.zero_le _
      | some n => exact announced n length
    have stopped := Nat.lt_of_le_of_lt (Nat.min_le_left limit (request.declared.getD limit)) beyond
    exact ⟨lengthLimit, (if_neg (Nat.not_lt.mpr fits)).trans (if_pos stopped), rfl⟩
  broken limit request e framed within cut := by
    refine (bodyLimit_within framed within).trans ?_
    rw [cut]
  whole limit request framed within arrived := by
    refine (bodyLimit_within framed within).trans ?_
    rw [arrived]

end VocabVeto.AsciiCrates
