import VocabVeto.Core.Text

/-! The standard collections the program builds from strings: maps, and vectors
it sorts. -/
namespace VocabVeto

/-- A Rust map with unique keys. Its iteration order is unspecified; nothing
below may depend on the order of the entries. -/
abbrev HashMap (κ : Type u) (ν : Type v) := AList (fun _ : κ => ν)

/-- `HashSet`, as its elements; the order it iterates in is not observable. -/
abbrev HashSet (κ : Type u) := Finset κ

/-- `for (key, value) in map { out.insert(key, f(value)) }`, into an empty map. -/
def collect [DecidableEq κ] (f : ν → ρ) (map : HashMap κ ν) : HashMap κ ρ :=
  map.entries.foldl (fun out entry => out.insert entry.1 (f entry.2)) ∅

private theorem lookup_foldl_insert [DecidableEq κ] (f : ν → ρ) (entries : List (Sigma fun _ : κ => ν))
    (distinct : entries.NodupKeys) (out : HashMap κ ρ) (key : κ) :
    (entries.foldl (fun out entry => out.insert entry.1 (f entry.2)) out).lookup key =
      ((entries.dlookup key).map f).or (out.lookup key) := by
  induction entries generalizing out with
  | nil => simp
  | cons entry entries ih =>
    obtain ⟨first, value⟩ := entry
    obtain ⟨fresh, distinct⟩ := List.nodupKeys_cons.mp distinct
    rw [List.foldl_cons, ih distinct]
    by_cases same : key = first
    · subst same
      rw [List.dlookup_eq_none.mpr fresh, List.dlookup_cons_eq]
      simp
    · rw [List.dlookup_cons_ne _ _ same, AList.lookup_insert_ne same]

/-- The copy holds exactly the converted entries of the original. -/
theorem lookup_collect [DecidableEq κ] (f : ν → ρ) (map : HashMap κ ν) (key : κ) :
    (collect f map).lookup key = (map.lookup key).map f := by
  rw [collect, lookup_foldl_insert f _ map.nodupKeys, AList.lookup_empty, Option.or_none]
  rfl

/-- Maps that hold the same keys list them in orders that differ at most by a
permutation. -/
theorem keys_perm [DecidableEq κ] {first : HashMap κ ν} {second : HashMap κ ρ}
    (same : ∀ key, (first.lookup key).isSome = (second.lookup key).isSome) :
    first.keys.Perm second.keys := by
  apply (List.perm_ext_iff_of_nodup first.nodupKeys second.nodupKeys).mpr
  intro key
  have agree := same key
  rw [Bool.eq_iff_iff, AList.lookup_isSome, AList.lookup_isSome] at agree
  exact agree

/-- `Vec::sort`, in the order of Rust strings, which is that of their code points. -/
def sort (v : List Str) : List Str := v.insertionSort (· ≤ ·)

theorem sort_perm {v w : List Str} (same : v.Perm w) : sort v = sort w :=
  List.Perm.eq_of_sortedLE List.sortedLE_insertionSort List.sortedLE_insertionSort
    ((List.perm_insertionSort _ v).trans (same.trans (List.perm_insertionSort _ w).symm))

theorem mem_sort {v : List Str} : s ∈ sort v ↔ s ∈ v := (List.perm_insertionSort _ v).mem_iff

/-- `Vec::dedup`: drop each element equal to its predecessor. -/
def dedup : List Str → List Str
  | [] => []
  | [s] => [s]
  | s :: t :: v => if s = t then dedup (t :: v) else s :: dedup (t :: v)

/-- `v.join(separator)`. -/
def join (separator : Str) (v : List Str) : Str := separator.intercalate v

/-- `BTreeMap<String, _>`, as its entries in key order. -/
abbrev BTreeMap (ν : Type u) := List (Str × ν)

/-- `BTreeMap::insert`. -/
def BTreeMap.insert (key : Str) (value : ν) : BTreeMap ν → BTreeMap ν
  | [] => [(key, value)]
  | (k, v) :: entries =>
    if key = k then (key, value) :: entries
    else if key < k then (key, value) :: (k, v) :: entries
    else (k, v) :: BTreeMap.insert key value entries

private theorem lookup_entry (k key : Str) (value : ν) (map : BTreeMap ν) :
    List.lookup k ((key, value) :: map) = if k = key then some value else map.lookup k := by
  by_cases asked : k = key
  · simp [asked]
  · simp [asked, List.lookup_cons, beq_eq_false_iff_ne.mpr asked]

/-- Inserting sets one key and leaves the others, in whatever order the entries are. -/
theorem BTreeMap.lookup_insert (key : Str) (value : ν) (map : BTreeMap ν) (k : Str) :
    (BTreeMap.insert key value map).lookup k = if k = key then some value else map.lookup k := by
  induction map with
  | nil => rw [BTreeMap.insert, lookup_entry]
  | cons entry map ih =>
    obtain ⟨first, held⟩ := entry
    unfold BTreeMap.insert
    by_cases same : key = first
    · subst same
      simp only [↓reduceIte, lookup_entry]
      split <;> rfl
    · rw [if_neg same]
      split
      · rw [lookup_entry]
      · rw [lookup_entry, ih, lookup_entry]
        by_cases asked : k = first
        · simp [asked, Ne.symm same]
        · simp [asked]

end VocabVeto
