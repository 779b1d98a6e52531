import PhpCouchbase.MutationStateSearch

/-!
# JSON values

What `json_encode` makes of the arrays that the `jsonSerialize` methods of `search_query.c` and
`search/` return, before it is printed.  A PHP array has no mark of its own for a list: the keys
decide, and an empty array is a list.  The limits of the printer (nesting, infinities, malformed
UTF-8) are no part of it.

* `structJson_cons` — an array with literal member names is an object unless it is empty.
* `present_inj` — two tables of optional members with the same names say the same only if they are
  equal.
* `member_struct` — a member is found in the object that is filled from such a table.
-/

set_option autoImplicit false

namespace PhpCouchbase

open OrderedMap

/-- JSON values.  A double is its bit pattern. -/
inductive Json where
  | null
  | bool (b : Bool)
  | long (n : Int)
  | double (bits : UInt64)
  | string (s : Bytes)
  | list (elems : List Json)
  | object (members : List (Bytes × Json))

/-- The keys `0`, `1`, `2`, … in this order: `json_encode` prints a list. -/
def listKeys (n : Nat) : List ArrayKey := (List.range n).map fun i => .index (Int64.ofNat i)

/-- A PHP array in JSON. -/
def arrayJson (elems : List (ArrayKey × Json)) : Json :=
  if elems.map Prod.fst = listKeys elems.length then .list (elems.map Prod.snd)
  else .object (elems.map fun p => (p.1.text, p.2))

/-- An array that is filled by `add_assoc_*` under literal names.  None of them is a number. -/
def structJson (members : List (Bytes × Json)) : Json :=
  arrayJson (members.map fun p => (.str p.1, p.2))

theorem listKeys_succ (n : Nat) :
    ∃ rest, listKeys (n + 1) = .index 0 :: rest := by
  refine ⟨(List.range n).map fun i => .index (Int64.ofNat (i + 1)), ?_⟩
  rw [listKeys, List.range_succ_eq_map, List.map_cons, List.map_map]
  rfl

theorem structJson_cons (p : Bytes × Json) (members : List (Bytes × Json)) :
    structJson (p :: members) = .object (p :: members) := by
  unfold structJson arrayJson
  rw [if_neg]
  · rw [List.map_map]
    exact congrArg Json.object (List.map_id _)
  · intro h
    obtain ⟨rest, hrest⟩ := listKeys_succ ((members.map fun p => (ArrayKey.str p.1, p.2)).length)
    rw [List.map_cons, List.map_cons, List.length_cons, hrest] at h
    cases h

/-- An empty array never is an object. -/
theorem structJson_eq_object_iff {members expected : List (Bytes × Json)} :
    structJson members = .object expected ↔ members = expected ∧ expected ≠ [] := by
  cases members with
  | nil =>
    constructor
    · intro h
      cases h
    · rintro ⟨rfl, h⟩
      exact absurd rfl h
  | cons p members =>
    rw [structJson_cons]
    constructor
    · intro h
      obtain rfl := Json.object.inj h
      exact ⟨rfl, List.cons_ne_nil _ _⟩
    · rintro ⟨rfl, -⟩
      rfl

/-- A string that is used as a key spells itself in JSON, be it a number or not. -/
theorem text_symtableKey (s : Bytes) : (symtableKey s).text = s := by
  unfold symtableKey
  cases h : handleNumericStr s with
  | none => rfl
  | some i => exact (printLong_of_handleNumericStr h).symm

theorem arrayJson_eq_object_iff {elems : List (ArrayKey × Json)} {members : List (Bytes × Json)} :
    arrayJson elems = .object members ↔
      elems.map Prod.fst ≠ listKeys elems.length ∧
        (elems.map fun p => (p.1.text, p.2)) = members := by
  unfold arrayJson
  split
  · rename_i h
    simp [h]
  · rename_i h
    simp [h]

/-! ## Optional members -/

/-- The members that an object can have, in order: `none` is left out. -/
abbrev Slots := List (Bytes × Option Json)

/-- The names of the members. -/
def Slots.names (s : Slots) : List Bytes := s.map Prod.fst

/-- The members that are there. -/
def present (s : Slots) : List (Bytes × Json) := s.filterMap fun p => p.2.map fun v => (p.1, v)

@[simp] theorem present_nil : present [] = [] := rfl

@[simp] theorem present_cons_none (k : Bytes) (s : Slots) : present ((k, none) :: s) = present s := rfl

@[simp] theorem present_cons_some (k : Bytes) (v : Json) (s : Slots) :
    present ((k, some v) :: s) = (k, v) :: present s := rfl

theorem not_mem_present {s : Slots} {k : Bytes} (h : k ∉ s.names) (v : Json) :
    (k, v) ∉ present s := by
  intro hmem
  obtain ⟨q, hq, heq⟩ := List.mem_filterMap.mp hmem
  obtain ⟨w, -, hpair⟩ := Option.map_eq_some_iff.mp heq
  have hkey : q.1 = k := (Prod.mk.inj hpair).1
  exact h (hkey ▸ List.mem_map_of_mem hq)

/-- With distinct names nothing is lost: two tables with the same names have the same members only
if they are equal. -/
theorem present_inj {a b : Slots} (hnames : a.names = b.names) (hnodup : a.names.Nodup) :
    present a = present b ↔ a = b := by
  refine ⟨fun h => ?_, congrArg present⟩
  induction a generalizing b with
  | nil =>
    cases b with
    | nil => rfl
    | cons q b => cases hnames
  | cons p a ih =>
    obtain ⟨k, v⟩ := p
    cases b with
    | nil => cases hnames
    | cons q b =>
      obtain ⟨k', w⟩ := q
      obtain ⟨rfl, htail⟩ := List.cons.inj hnames
      obtain ⟨hka, hrest⟩ := List.nodup_cons.mp hnodup
      have hkb : k ∉ Slots.names b := (show Slots.names a = Slots.names b from htail) ▸ hka
      cases v with
      | none =>
        cases w with
        | none => rw [ih htail hrest h]
        | some w =>
          rw [present_cons_none, present_cons_some] at h
          exact absurd (h ▸ List.mem_cons_self) (not_mem_present hka w)
      | some v =>
        cases w with
        | none =>
          rw [present_cons_none, present_cons_some] at h
          exact absurd (h ▸ List.mem_cons_self) (not_mem_present hkb v)
        | some w =>
          rw [present_cons_some, present_cons_some] at h
          obtain ⟨hpair, hmembers⟩ := List.cons.inj h
          rw [ih htail hrest hmembers, (Prod.mk.inj hpair).2]

/-! ## Looking up a member -/

/-- A member of an object; a list has none. -/
def Json.member (name : Bytes) : Json → Option Json
  | .object members => fetch members name
  | _ => none

theorem member_structJson (members : List (Bytes × Json)) (name : Bytes) :
    (structJson members).member name = fetch members name := by
  cases members with
  | nil => rfl
  | cons p members =>
    rw [structJson_cons]
    rfl

theorem keys_present_subset {s : Slots} {k : Bytes} (h : k ∈ keys (present s)) : k ∈ s.names := by
  obtain ⟨p, hp, rfl⟩ := List.mem_map.mp h
  by_contra hk
  exact not_mem_present hk p.2 hp

theorem fetch_present {s : Slots} (hnodup : s.names.Nodup) {k : Bytes} {v : Option Json}
    (h : (k, v) ∈ s) : fetch (present s) k = v := by
  induction s with
  | nil => cases h
  | cons p s ih =>
    obtain ⟨k', w⟩ := p
    obtain ⟨hk', hrest⟩ := List.nodup_cons.mp hnodup
    rcases List.mem_cons.mp h with heq | htail
    · obtain ⟨rfl, rfl⟩ := Prod.mk.inj heq
      cases v with
      | none =>
        rw [present_cons_none, fetch_eq_none]
        exact fun hmem => hk' (keys_present_subset hmem)
      | some v => rw [present_cons_some, fetch, if_pos rfl]
    · have hne : k' ≠ k := by
        rintro rfl
        exact hk' (List.mem_map.mpr ⟨_, htail, rfl⟩)
      cases w with
      | none =>
        rw [present_cons_none]
        exact ih hrest htail
      | some w =>
        rw [present_cons_some, fetch, if_neg hne]
        exact ih hrest htail

/-- **A member of a printed object** is the one of its slot. -/
theorem member_struct {s : Slots} (hnodup : s.names.Nodup) {k : Bytes} {v : Option Json}
    (h : (k, v) ∈ s) : (structJson (present s)).member k = v := by
  rw [member_structJson, fetch_present hnodup h]

end PhpCouchbase
