import Mathlib.Data.List.Induction
import Mathlib.Data.List.Nodup
import Mathlib.Data.List.Perm.Basic

/-!
# Insertion-ordered maps

A hash table that remembers insertion order: an update replaces the value in place or appends a
new element.  Filling a table from a list of pairs is a fold of updates.

* `fetch_eq_some_iff` — with distinct keys, fetching is membership.
* `fetch_fill_append` — of two pairs with one key the later one wins.
* `mem_keys_fill` — the keys of a filled table are exactly those of the pairs.
* `fill_injective` — what was filled in under distinct keys can be read off the table.
* `fill_of_nodup` — with distinct keys the table is the list itself, so
  `fetch_fill_perm`: the order of the pairs does not change the map.
-/

set_option autoImplicit false

namespace OrderedMap

variable {κ ν : Type} [DecidableEq κ]

/-- Replace the value of `k` in place, or append it. -/
def update : List (κ × ν) → κ → ν → List (κ × ν)
  | [], k, v => [(k, v)]
  | (k', v') :: m, k, v => if k' = k then (k, v) :: m else (k', v') :: update m k v

/-- The value of a key. -/
def fetch : List (κ × ν) → κ → Option ν
  | [], _ => none
  | (k', v') :: m, k => if k' = k then some v' else fetch m k

def keys (m : List (κ × ν)) : List κ := m.map Prod.fst

/-- The table after updating with every pair in turn. -/
def fill (m : List (κ × ν)) (rs : List (κ × ν)) : List (κ × ν) :=
  rs.foldl (fun m r => update m r.1 r.2) m

@[simp] theorem fetch_update_self (m : List (κ × ν)) (k : κ) (v : ν) :
    fetch (update m k v) k = some v := by
  induction m with
  | nil => simp [update, fetch]
  | cons p m ih =>
    obtain ⟨k', v'⟩ := p
    by_cases h : k' = k <;> simp [update, fetch, h, ih]

theorem fetch_update_ne (m : List (κ × ν)) {k k' : κ} (v : ν) (hne : k' ≠ k) :
    fetch (update m k v) k' = fetch m k' := by
  induction m with
  | nil => simp [update, fetch, hne.symm]
  | cons p m ih =>
    obtain ⟨l, w⟩ := p
    by_cases h : l = k
    · subst h
      simp [update, fetch, hne.symm]
    · rw [update, if_neg h, fetch, fetch, ih]

theorem keys_update (m : List (κ × ν)) (k : κ) (v : ν) :
    keys (update m k v) = if k ∈ keys m then keys m else keys m ++ [k] := by
  induction m with
  | nil => simp [update, keys]
  | cons p m ih =>
    obtain ⟨l, w⟩ := p
    by_cases h : l = k
    · simp [update, keys, h]
    · simp only [keys] at ih
      rw [update, if_neg h]
      simp only [keys, List.map_cons, ih, List.mem_cons, Ne.symm h, false_or]
      by_cases hm : k ∈ List.map Prod.fst m <;> simp [hm]

theorem update_of_not_mem {m : List (κ × ν)} {k : κ} (v : ν) (h : k ∉ keys m) :
    update m k v = m ++ [(k, v)] := by
  induction m with
  | nil => rfl
  | cons p m ih =>
    obtain ⟨l, w⟩ := p
    simp only [keys, List.map_cons, List.mem_cons, not_or] at h
    rw [update, if_neg (Ne.symm h.1), ih h.2, List.cons_append]

theorem nodup_keys_update {m : List (κ × ν)} (h : (keys m).Nodup) (k : κ) (v : ν) :
    (keys (update m k v)).Nodup := by
  rw [keys_update]
  split
  · exact h
  · rename_i hk
    rw [List.nodup_append]
    refine ⟨h, List.nodup_singleton k, ?_⟩
    intro a ha b hb
    rw [List.mem_singleton.mp hb]
    exact fun hab => hk (hab ▸ ha)

theorem mem_update {m : List (κ × ν)} {k : κ} {v : ν} {p : κ × ν} (h : p ∈ update m k v) :
    p = (k, v) ∨ p ∈ m := by
  induction m with
  | nil => exact Or.inl (List.mem_singleton.mp h)
  | cons q m ih =>
    obtain ⟨k', v'⟩ := q
    rw [update] at h
    split at h
    · rcases List.mem_cons.mp h with h | h
      · exact Or.inl h
      · exact Or.inr (List.mem_cons_of_mem _ h)
    · rcases List.mem_cons.mp h with h | h
      · exact Or.inr (h ▸ List.mem_cons_self)
      · exact (ih h).imp_right (List.mem_cons_of_mem _)

theorem mem_of_fetch {m : List (κ × ν)} {k : κ} {v : ν} (h : fetch m k = some v) : (k, v) ∈ m := by
  induction m with
  | nil => cases h
  | cons p m ih =>
    obtain ⟨l, w⟩ := p
    rw [fetch] at h
    split at h
    · rename_i hl
      cases h
      simp [hl]
    · exact List.mem_cons_of_mem _ (ih h)

theorem mem_update_self (m : List (κ × ν)) (k : κ) (v : ν) : (k, v) ∈ update m k v :=
  mem_of_fetch (fetch_update_self m k v)

/-- The pairs of other keys stay. -/
theorem mem_update_of_ne {m : List (κ × ν)} {k : κ} {v : ν} {p : κ × ν} (h : p ∈ m)
    (hne : p.1 ≠ k) : p ∈ update m k v := by
  induction m with
  | nil => cases h
  | cons q m ih =>
    obtain ⟨k', v'⟩ := q
    rw [update]
    rcases List.mem_cons.mp h with rfl | h
    · rw [if_neg hne]
      exact List.mem_cons_self
    · split
      · exact List.mem_cons_of_mem _ h
      · exact List.mem_cons_of_mem _ (ih h)

theorem update_ne_nil (m : List (κ × ν)) (k : κ) (v : ν) : update m k v ≠ [] := by
  cases m with
  | nil => exact List.cons_ne_nil _ _
  | cons q m =>
    rw [update]
    split <;> exact List.cons_ne_nil _ _

theorem fetch_eq_none {m : List (κ × ν)} {k : κ} : fetch m k = none ↔ k ∉ keys m := by
  induction m with
  | nil => simp [fetch, keys]
  | cons p m ih =>
    obtain ⟨l, w⟩ := p
    by_cases h : l = k
    · simp [fetch, keys, h]
    · simp only [keys] at ih
      simp [fetch, keys, h, ih, Ne.symm h]

/-- With distinct keys, fetching is membership. -/
theorem fetch_eq_some_iff {m : List (κ × ν)} (hnd : (keys m).Nodup) {k : κ} {v : ν} :
    fetch m k = some v ↔ (k, v) ∈ m := by
  refine ⟨mem_of_fetch, fun hmem => ?_⟩
  induction m with
  | nil => cases hmem
  | cons p m ih =>
    obtain ⟨l, w⟩ := p
    simp only [keys, List.map_cons, List.nodup_cons] at hnd
    rcases List.mem_cons.mp hmem with heq | hmem
    · cases heq
      simp [fetch]
    · have hne : l ≠ k := by
        rintro rfl
        exact hnd.1 (List.mem_map.mpr ⟨(l, v), hmem, rfl⟩)
      rw [fetch, if_neg hne]
      exact ih hnd.2 hmem

theorem fetch_perm {m m' : List (κ × ν)} (hp : m.Perm m') (hnd : (keys m).Nodup) (k : κ) :
    fetch m k = fetch m' k := by
  have hkeys : (keys m).Perm (keys m') := hp.map Prod.fst
  cases h : fetch m' k with
  | none =>
    rw [fetch_eq_none] at h ⊢
    exact fun hk => h (hkeys.mem_iff.mp hk)
  | some v =>
    rw [fetch_eq_some_iff hnd]
    exact hp.mem_iff.mpr (mem_of_fetch h)

/-! ## Filling -/

@[simp] theorem fill_nil (m : List (κ × ν)) : fill m [] = m := rfl

@[simp] theorem fill_cons (m : List (κ × ν)) (r : κ × ν) (rs : List (κ × ν)) :
    fill m (r :: rs) = fill (update m r.1 r.2) rs := rfl

theorem fetch_update (m : List (κ × ν)) (k k' : κ) (v : ν) :
    fetch (update m k v) k' = if k = k' then some v else fetch m k' := by
  by_cases h : k = k'
  · rw [if_pos h, ← h, fetch_update_self]
  · rw [if_neg h, fetch_update_ne m v (Ne.symm h)]

/-- What is filled in wins over what was there. -/
theorem fetch_fill (m rs : List (κ × ν)) (k : κ) :
    fetch (fill m rs) k = (fetch (fill [] rs) k).or (fetch m k) := by
  induction rs generalizing m with
  | nil => rfl
  | cons r rs ih =>
    rw [fill_cons, fill_cons, ih (update m r.1 r.2), ih (update [] r.1 r.2), Option.or_assoc,
      fetch_update, fetch_update]
    split <;> rfl

/-- The later pairs win. -/
theorem fetch_fill_append (m rs rs' : List (κ × ν)) (k : κ) :
    fetch (fill m (rs ++ rs')) k = (fetch (fill [] rs') k).or (fetch (fill m rs) k) := by
  have happ : fill m (rs ++ rs') = fill (fill m rs) rs' := List.foldl_append
  rw [happ, fetch_fill]

/-- The last pair with the key wins. -/
theorem fetch_fill_map {α : Type} (f : α → κ × ν) (l : List α) (k : κ) :
    fetch (fill [] (l.map f)) k =
      (l.reverse.find? fun a => (f a).1 = k).map fun a => (f a).2 := by
  induction l using List.reverseRecOn with
  | nil => rfl
  | append_singleton l a ih =>
    rw [List.map_append, fetch_fill_append, ih, List.reverse_append, List.reverse_singleton,
      List.singleton_append, List.find?_cons]
    by_cases h : (f a).1 = k
    · simp [h, fetch, update]
    · simp [h, fetch, update]

theorem mem_keys_fill {m rs : List (κ × ν)} {k : κ} :
    k ∈ keys (fill m rs) ↔ k ∈ keys m ∨ k ∈ keys rs := by
  induction rs generalizing m with
  | nil => simp [keys]
  | cons r rs ih =>
    rw [fill_cons, ih, keys_update]
    split
    · rename_i hr
      simp only [keys, List.map_cons, List.mem_cons] at hr ⊢
      constructor
      · rintro (h | h) <;> tauto
      · rintro (h | rfl | h) <;> tauto
    · simp only [keys, List.map_cons, List.mem_cons, List.mem_append, List.not_mem_nil, or_false]
      tauto

theorem mem_fill {m rs : List (κ × ν)} {p : κ × ν} (h : p ∈ fill m rs) : p ∈ m ∨ p ∈ rs := by
  induction rs generalizing m with
  | nil => exact Or.inl h
  | cons r rs ih =>
    rw [fill_cons] at h
    rcases ih h with hmem | hmem
    · rcases mem_update hmem with rfl | hmem
      · exact Or.inr List.mem_cons_self
      · exact Or.inl hmem
    · exact Or.inr (List.mem_cons_of_mem _ hmem)

theorem length_update_le (m : List (κ × ν)) (k : κ) (v : ν) :
    (update m k v).length ≤ m.length + 1 := by
  have h : (keys (update m k v)).length ≤ (keys m).length + 1 := by
    rw [keys_update]
    split <;> simp
  simpa [keys] using h

theorem length_fill_le (m rs : List (κ × ν)) :
    (fill m rs).length ≤ m.length + rs.length := by
  induction rs generalizing m with
  | nil => simp
  | cons r rs ih =>
    have := ih (update m r.1 r.2)
    have := length_update_le m r.1 r.2
    rw [fill_cons, List.length_cons]
    omega

/-- With distinct fresh keys a fill appends the pairs. -/
theorem fill_of_nodup {m rs : List (κ × ν)} (h : (keys (m ++ rs)).Nodup) : fill m rs = m ++ rs := by
  induction rs generalizing m with
  | nil => simp
  | cons r rs ih =>
    have hr : r.1 ∉ keys m := by
      intro hmem
      simp only [keys, List.map_append, List.map_cons] at h hmem
      exact (List.nodup_append.mp h).2.2 _ hmem _ (List.mem_cons_self ..) rfl
    rw [fill_cons, update_of_not_mem _ hr, ih (by simpa using h)]
    simp

/-- **The order of pairs with distinct keys does not change the map.** -/
theorem fetch_fill_perm {rs rs' : List (κ × ν)} (hp : rs.Perm rs') (hnd : (keys rs).Nodup)
    (k : κ) : fetch (fill [] rs) k = fetch (fill [] rs') k := by
  have hnd' : (keys rs').Nodup := (hp.map Prod.fst).nodup_iff.mp hnd
  rw [fill_of_nodup (by simpa using hnd), fill_of_nodup (by simpa using hnd')]
  exact fetch_perm hp hnd k

/-- The pairs of a key are those of the table before, when another key is updated. -/
theorem filter_update_ne (m : List (κ × ν)) {k k' : κ} (v : ν) (hne : k' ≠ k) :
    (update m k v).filter (fun p => p.1 = k') = m.filter fun p => p.1 = k' := by
  induction m with
  | nil => simp [update, hne.symm]
  | cons p m ih =>
    obtain ⟨l, w⟩ := p
    by_cases h : l = k
    · subst h
      simp [update, hne.symm]
    · rw [update, if_neg h, List.filter_cons, List.filter_cons, ih]

theorem filter_update_self (m : List (κ × ν)) (k : κ) (v : ν) :
    (update m k v).filter (fun p => p.1 = k) = update (m.filter fun p => p.1 = k) k v := by
  induction m with
  | nil => simp [update]
  | cons p m ih =>
    obtain ⟨l, w⟩ := p
    by_cases h : l = k
    · subst h
      simp [update]
    · rw [update, if_neg h, List.filter_cons_of_neg (by simpa using h), ih,
        List.filter_cons_of_neg (by simpa using h)]

/-- The pairs of a key in a table that is filled with one pair for it. -/
theorem filter_fill {m rs : List (κ × ν)} {k : κ} {v : ν} (hnd : (keys rs).Nodup)
    (hmem : (k, v) ∈ rs) :
    (fill m rs).filter (fun p => p.1 = k) = update (m.filter fun p => p.1 = k) k v := by
  have hothers : ∀ {rs : List (κ × ν)} (m : List (κ × ν)), k ∉ keys rs →
      (fill m rs).filter (fun p => p.1 = k) = m.filter fun p => p.1 = k := by
    intro rs
    induction rs with
    | nil => exact fun _ _ => rfl
    | cons r rs ih =>
      intro m hk
      rw [keys, List.map_cons, List.mem_cons, not_or] at hk
      rw [fill_cons, ih _ hk.2, filter_update_ne _ _ hk.1]
  induction rs generalizing m with
  | nil => cases hmem
  | cons r rs ih =>
    rw [keys, List.map_cons, List.nodup_cons] at hnd
    rw [fill_cons]
    rcases List.mem_cons.mp hmem with rfl | hmem
    · rw [hothers _ hnd.1, filter_update_self]
    · have hne : k ≠ r.1 := fun h => hnd.1 (List.mem_map.mpr ⟨_, hmem, h⟩)
      rw [ih hnd.2 hmem, filter_update_ne _ _ hne]

/-- They begin with the one that is fetched. -/
theorem filter_of_fetch {m : List (κ × ν)} {k : κ} {v : ν} (h : fetch m k = some v) :
    ∃ rest, m.filter (fun p => p.1 = k) = (k, v) :: rest := by
  induction m with
  | nil => cases h
  | cons p m ih =>
    obtain ⟨l, w⟩ := p
    by_cases hl : l = k
    · subst hl
      rw [fetch, if_pos rfl] at h
      rw [List.filter_cons_of_pos (by simp), Option.some.inj h]
      exact ⟨_, rfl⟩
    · rw [fetch, if_neg hl] at h
      rw [List.filter_cons_of_neg (by simpa using hl)]
      exact ih h

theorem filter_of_fetch_none {m : List (κ × ν)} {k : κ} (h : fetch m k = none) :
    m.filter (fun p => p.1 = k) = [] := by
  rw [List.filter_eq_nil_iff]
  intro p hp hk
  exact fetch_eq_none.mp h (List.mem_map.mpr ⟨p, hp, by simpa using hk⟩)

/-- With the same distinct keys, lists that fetch alike are equal. -/
theorem eq_of_fetch_eq {rs rs' : List (κ × ν)} (hkeys : keys rs = keys rs') (hnd : (keys rs).Nodup)
    (h : ∀ k ∈ keys rs, fetch rs k = fetch rs' k) : rs = rs' := by
  induction rs generalizing rs' with
  | nil =>
    cases rs' with
    | nil => rfl
    | cons p rs' => cases hkeys
  | cons p rs ih =>
    obtain ⟨k, v⟩ := p
    cases rs' with
    | nil => cases hkeys
    | cons p' rs' =>
      obtain ⟨k', v'⟩ := p'
      obtain ⟨hk, htail⟩ := List.cons.inj hkeys
      obtain rfl : k = k' := hk
      obtain ⟨hnot, hnd⟩ := List.nodup_cons.mp hnd
      have hv : v = v' := by simpa [fetch] using h k List.mem_cons_self
      rw [hv, ih htail hnd]
      intro l hl
      have hne : k ≠ l := fun heq => hnot (heq ▸ hl)
      simpa [fetch, hne] using h l (List.mem_cons_of_mem _ hl)

/-- A filled table shows what was filled in. -/
theorem fill_injective {m rs rs' : List (κ × ν)} (hkeys : keys rs = keys rs') (hnd : (keys rs).Nodup)
    (h : fill m rs = fill m rs') : rs = rs' := by
  refine eq_of_fetch_eq hkeys hnd fun k hk => ?_
  have hfetch : fetch (fill m rs) k = fetch (fill m rs') k := by rw [h]
  rw [fetch_fill, fetch_fill m rs', fill_of_nodup (by simpa using hnd),
    fill_of_nodup (by simpa using hkeys ▸ hnd)] at hfetch
  have hk' : k ∈ keys rs' := hkeys ▸ hk
  cases hv : fetch rs k with
  | none => exact absurd hk (fetch_eq_none.mp hv)
  | some v =>
    cases hv' : fetch rs' k with
    | none => exact absurd hk' (fetch_eq_none.mp hv')
    | some v' => simpa [hv, hv'] using hfetch

/-! ## Renamed keys -/

variable {κ' : Type} [DecidableEq κ']

theorem update_map_key {k : κ → κ'} (hk : Function.Injective k) (m : List (κ × ν)) (a : κ) (v : ν) :
    update (m.map fun p => (k p.1, p.2)) (k a) v = (update m a v).map fun p => (k p.1, p.2) := by
  induction m with
  | nil => rfl
  | cons p m ih =>
    rw [List.map_cons, update, update, ih]
    by_cases h : p.1 = a
    · rw [if_pos h, if_pos (congrArg k h), List.map_cons]
    · rw [if_neg h, if_neg fun heq => h (hk heq), List.map_cons]

end OrderedMap
