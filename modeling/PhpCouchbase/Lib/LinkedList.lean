import Mathlib.Data.List.Basic
import Mathlib.Data.List.Nodup
import Mathlib.Data.List.Perm.Subperm

/-!
# Linked lists

A singly linked list in memory: cells with a value and a pointer to the next cell, a head and a tail.
The memory only grows; a cell that was given back stays as a hole.

* `Holds` — the cells from the head on are a given list, and the tail is the last of them.
* `holds_push`, `holds_discard` — appending a cell, and a cell that is given back at once.
* `walk_eq_of_holds` — a loop from the head on is a fold over the list.
* `HoldsAt.dismantle` — a loop that gives every cell back meets each of them once.
-/

set_option autoImplicit false

structure LinkedNode (α : Type) where
  value : α
  next : Option Nat

/-- The memory of a list with its two ends; `none` is a null pointer. -/
structure LinkedList (α : Type) where
  cells : List (Option (LinkedNode α))
  head : Option Nat
  tail : Option Nat

namespace LinkedList

variable {α σ ε : Type}

def empty : LinkedList α := ⟨[], none, none⟩

/-- The cell behind a pointer, if there is one that was not given back. -/
def read (l : LinkedList α) (p : Nat) : Option (LinkedNode α) := l.cells[p]?.join

/-- A cell is allocated and given back. -/
def discard (l : LinkedList α) : LinkedList α := { l with cells := l.cells ++ [none] }

/-- `p->next = q` -/
def setNext (l : LinkedList α) (p q : Nat) : LinkedList α :=
  { l with cells := l.cells.modify p fun c => c.map fun n => { n with next := some q } }

/-- A new cell becomes the tail, and the head if there is none. -/
def attach (l : LinkedList α) (v : α) : LinkedList α where
  cells := l.cells ++ [some ⟨v, none⟩]
  head := l.head.or (some l.cells.length)
  tail := some l.cells.length

/-- A new cell behind the tail; `none` is a tail that points to no cell. -/
def push (l : LinkedList α) (v : α) : Option (LinkedList α) :=
  match l.tail with
  | none => some (l.attach v)
  | some t => if (l.read t).isSome then some ((l.setNext t l.cells.length).attach v) else none

/-- `for (p = head; p; p = p->next)`: `none` is a loop that has not come to its end, `dangling` the
end of one that follows a pointer to no cell. -/
def walk (dangling : ε) (body : σ → α → Except ε σ) (l : LinkedList α) :
    Nat → Option Nat → σ → Option (Except ε σ)
  | _, none, s => some (.ok s)
  | 0, some _, _ => none
  | fuel + 1, some p, s =>
    match l.read p with
    | none => some (.error dangling)
    | some n =>
      match body s n.value with
      | .error e => some (.error e)
      | .ok s' => walk dangling body l fuel n.next s'

/-- The cells at `ps` hold `xs`, each pointing to the next. -/
structure HoldsAt (l : LinkedList α) (ps : List Nat) (xs : List α) : Prop where
  length : ps.length = xs.length
  nodup : ps.Nodup
  node : ∀ (i p : Nat) (v : α), ps[i]? = some p → xs[i]? = some v → l.read p = some ⟨v, ps[i + 1]?⟩
  head : l.head = ps.head?
  tail : l.tail = ps.getLast?

/-- **The list in memory**: the head leads to the values in their order, and the tail is the last
cell. -/
def Holds (l : LinkedList α) (xs : List α) : Prop := ∃ ps, HoldsAt l ps xs

theorem holds_empty : Holds (empty : LinkedList α) [] :=
  ⟨[], ⟨rfl, List.nodup_nil, by simp, rfl, rfl⟩⟩

theorem HoldsAt.read_of_mem {l : LinkedList α} {ps : List Nat} {xs : List α} (h : HoldsAt l ps xs)
    {p : Nat} (hp : p ∈ ps) : ∃ n, l.read p = some n := by
  obtain ⟨i, hi, rfl⟩ := List.getElem_of_mem hp
  have hx : i < xs.length := h.length ▸ hi
  exact ⟨_, h.node i _ _ (List.getElem?_eq_getElem hi) (List.getElem?_eq_getElem hx)⟩

theorem lt_of_read {l : LinkedList α} {p : Nat} {n : LinkedNode α} (h : l.read p = some n) :
    p < l.cells.length := by
  by_contra hle
  rw [read, List.getElem?_eq_none (by omega)] at h
  cases h

/-- There are no more values than cells. -/
theorem Holds.length_le {l : LinkedList α} {xs : List α} (h : Holds l xs) :
    xs.length ≤ l.cells.length := by
  obtain ⟨ps, hps⟩ := h
  have hsub : ps ⊆ List.range l.cells.length := by
    intro p hp
    obtain ⟨n, hn⟩ := hps.read_of_mem hp
    exact List.mem_range.mpr (lt_of_read hn)
  have hle := (List.subperm_of_subset hps.nodup hsub).length_le
  rwa [List.length_range, hps.length] at hle

/-- The tail is null exactly when the list is empty. -/
theorem Holds.tail_eq_none_iff {l : LinkedList α} {xs : List α} (h : Holds l xs) :
    l.tail = none ↔ xs = [] := by
  obtain ⟨ps, hps⟩ := h
  rw [hps.tail, List.getLast?_eq_none_iff, ← List.length_eq_zero_iff, hps.length,
    List.length_eq_zero_iff]

/-- Otherwise it points to the last cell: the one with the last value and no next one. -/
theorem Holds.read_tail {l : LinkedList α} {xs : List α} {v : α} (h : Holds l (xs ++ [v])) :
    ∃ t, l.tail = some t ∧ l.read t = some ⟨v, none⟩ := by
  obtain ⟨ps, hps⟩ := h
  have hlen := hps.length
  rw [List.length_append, List.length_singleton] at hlen
  have hlast : ps[xs.length]? = some ps[xs.length] := List.getElem?_eq_getElem (by omega)
  refine ⟨ps[xs.length], ?_, ?_⟩
  · rw [hps.tail, List.getLast?_eq_getElem?, ← hlast]
    congr 1
    omega
  · have hnode := hps.node xs.length _ v hlast (by simp)
    rw [List.getElem?_eq_none (by omega)] at hnode
    exact hnode

/-- Memory that grows keeps its cells. -/
theorem read_append (l : LinkedList α) (c : Option (LinkedNode α)) (head tail : Option Nat) (p : Nat) :
    LinkedList.read ⟨l.cells ++ [c], head, tail⟩ p = if p = l.cells.length then c else l.read p := by
  unfold read
  rcases Nat.lt_trichotomy p l.cells.length with h | rfl | h
  · rw [if_neg (by omega), List.getElem?_append_left h]
  · rw [if_pos rfl, List.getElem?_append_right (Nat.le_refl _), Nat.sub_self]
    rfl
  · rw [if_neg (by omega), List.getElem?_eq_none (by
      rw [List.length_append, List.length_singleton]
      omega), List.getElem?_eq_none (by omega)]

theorem read_setNext (l : LinkedList α) (p q r : Nat) :
    (l.setNext p q).read r =
      if p = r then (l.read r).map fun n => { n with next := some q } else l.read r := by
  unfold read setNext
  rw [List.getElem?_modify]
  by_cases h : p = r
  · rw [if_pos h]
    cases l.cells[r]? with
    | none => rfl
    | some c =>
      simp only [Option.map_eq_map, Option.map_some, if_pos h]
      rfl
  · rw [if_neg h]
    cases l.cells[r]? with
    | none => rfl
    | some c =>
      simp only [Option.map_eq_map, Option.map_some, if_neg h]

/-- A cell that is given back at once is not in the list. -/
theorem read_discard {l : LinkedList α} {p : Nat} {n : LinkedNode α} (h : l.read p = some n) :
    l.discard.read p = some n := by
  rw [discard, read_append, if_neg (Nat.ne_of_lt (lt_of_read h)), h]

theorem holds_discard {l : LinkedList α} {xs : List α} (h : Holds l xs) : Holds l.discard xs := by
  obtain ⟨ps, hps⟩ := h
  exact ⟨ps, hps.length, hps.nodup, fun i p v hp hv => read_discard (hps.node i p v hp hv),
    hps.head, hps.tail⟩

/-- A cell that is allocated is a new one. -/
theorem HoldsAt.fresh {l : LinkedList α} {ps : List Nat} {xs : List α} (h : HoldsAt l ps xs) :
    l.cells.length ∉ ps := fun hmem => by
  obtain ⟨n, hn⟩ := h.read_of_mem hmem
  exact Nat.lt_irrefl _ (lt_of_read hn)

/-- The first cell. -/
theorem HoldsAt.attach_nil {l : LinkedList α} (h : HoldsAt l [] []) (v : α) :
    HoldsAt (l.attach v) [l.cells.length] [v] := by
  have hhead : l.head = none := h.head
  refine ⟨rfl, by simp, ?_, ?_, rfl⟩
  · intro i p w hp hw
    cases i with
    | succ i => cases hp
    | zero =>
      obtain rfl := Option.some.inj hp
      obtain rfl := Option.some.inj hw
      rw [attach, read_append, if_pos rfl]
      rfl
  · rw [attach, hhead]
    rfl

/-- A cell behind the last one, `t`. -/
theorem HoldsAt.attach_tail {l : LinkedList α} {ps : List Nat} {xs : List α} (h : HoldsAt l ps xs)
    {t : Nat} (htail : l.tail = some t) (v : α) :
    HoldsAt ((l.setNext t l.cells.length).attach v) (ps ++ [l.cells.length]) (xs ++ [v]) := by
  have hlen := h.length
  have ht : ps[ps.length - 1]? = some t := by
    rw [← List.getLast?_eq_getElem?, ← h.tail, htail]
  have hpos : 0 < ps.length := by
    by_contra hzero
    rw [List.getElem?_eq_none (by omega)] at ht
    cases ht
  have hcells : (l.setNext t l.cells.length).cells.length = l.cells.length :=
    List.length_modify _ _ _
  have hend : (ps ++ [l.cells.length]).length = ps.length + 1 := by
    rw [List.length_append, List.length_singleton]
  refine ⟨?_, ?_, ?_, ?_, ?_⟩
  · rw [List.length_append, List.length_append, hlen]
    rfl
  · rw [List.nodup_append_comm]
    exact List.nodup_cons.mpr ⟨h.fresh, h.nodup⟩
  · intro i p w hp hw
    rw [attach, read_append, hcells, read_setNext]
    rcases Nat.lt_trichotomy i ps.length with hi | rfl | hi
    · rw [List.getElem?_append_left hi] at hp
      rw [List.getElem?_append_left (by omega)] at hw
      have hnode := h.node i p w hp hw
      rw [if_neg (Nat.ne_of_lt (lt_of_read hnode)), hnode]
      by_cases hlast : i = ps.length - 1
      · -- the cell that was the last one gets a next one
        subst hlast
        rw [if_pos (Option.some.inj (ht.symm.trans hp)),
          List.getElem?_append_right (by omega)]
        have hzero : ps.length - 1 + 1 - ps.length = 0 := by omega
        rw [hzero]
        rfl
      · rw [if_neg, List.getElem?_append_left (by omega)]
        rintro rfl
        exact hlast ((List.getElem?_inj hi h.nodup).mp (hp.trans ht.symm))
    · rw [List.getElem?_append_right (Nat.le_refl _), Nat.sub_self] at hp
      rw [hlen, List.getElem?_append_right (Nat.le_refl _), Nat.sub_self] at hw
      obtain rfl := Option.some.inj hp
      obtain rfl := Option.some.inj hw
      rw [if_pos rfl, List.getElem?_eq_none (Nat.le_of_eq hend)]
    · rw [List.getElem?_eq_none (by omega)] at hp
      cases hp
  · show l.head.or (some (l.setNext t l.cells.length).cells.length) = _
    rw [hcells, h.head, List.head?_append]
    rfl
  · rw [List.getLast?_concat, attach, hcells]

/-- **Appending.** -/
theorem holds_push {l : LinkedList α} {xs : List α} (h : Holds l xs) (v : α) :
    ∃ l', l.push v = some l' ∧ Holds l' (xs ++ [v]) := by
  obtain ⟨ps, hps⟩ := h
  cases htail : l.tail with
  | none =>
    obtain rfl : ps = [] := List.getLast?_eq_none_iff.mp (hps.tail.symm.trans htail)
    obtain rfl : xs = [] := List.length_eq_zero_iff.mp hps.length.symm
    exact ⟨l.attach v, by rw [push, htail], _, hps.attach_nil v⟩
  | some t =>
    obtain ⟨n, hn⟩ := hps.read_of_mem (List.mem_of_getLast? (hps.tail.symm.trans htail))
    refine ⟨_, ?_, _, hps.attach_tail htail v⟩
    rw [push, htail]
    exact if_pos (by rw [hn]; rfl)

/-! ## Walking -/

theorem HoldsAt.walk_eq {l : LinkedList α} {ps : List Nat} {xs : List α} (h : HoldsAt l ps xs)
    (dangling : ε) (body : σ → α → Except ε σ) {i fuel : Nat} (hfuel : xs.length ≤ fuel + i) (s : σ) :
    walk dangling body l fuel ps[i]? s = some ((xs.drop i).foldlM body s) := by
  induction fuel generalizing i s with
  | zero =>
    rw [List.getElem?_eq_none (by rw [h.length]; omega), List.drop_eq_nil_of_le (by omega)]
    rfl
  | succ fuel ih =>
    by_cases hi : i < xs.length
    · have hlt : i < ps.length := h.length ▸ hi
      have hp : ps[i]? = some ps[i] := List.getElem?_eq_getElem hlt
      have hv : xs[i]? = some xs[i] := List.getElem?_eq_getElem hi
      rw [hp, walk, h.node i _ _ hp hv, List.drop_eq_getElem_cons hi, List.foldlM_cons]
      cases hbody : body s xs[i] with
      | error e =>
        simp only [hbody]
        rfl
      | ok s' =>
        simp only [hbody]
        exact ih (by omega) s'
    · rw [List.getElem?_eq_none (by rw [h.length]; omega), List.drop_eq_nil_of_le (by omega)]
      rfl

/-- **A loop over the list** visits its values in their order and comes to the end. -/
theorem walk_eq_of_holds {l : LinkedList α} {xs : List α} (h : Holds l xs) (dangling : ε)
    (body : σ → α → Except ε σ) (s : σ) {fuel : Nat} (hfuel : xs.length ≤ fuel) :
    walk dangling body l fuel l.head s = some (xs.foldlM body s) := by
  obtain ⟨ps, hps⟩ := h
  rw [hps.head, List.head?_eq_getElem?, hps.walk_eq dangling body (by omega)]
  rfl

/-! ## Giving the cells back -/

/-- The cell behind a pointer is given back. -/
def release (l : LinkedList α) (p : Nat) : LinkedList α := { l with cells := l.cells.set p none }

theorem read_release (l : LinkedList α) (p q : Nat) :
    (l.release p).read q = if q = p then none else l.read q := by
  unfold read release
  by_cases h : q = p
  · subst h
    rw [if_pos rfl, List.getElem?_set_self']
    cases l.cells[q]? <;> rfl
  · rw [if_neg h, List.getElem?_set_ne (Ne.symm h)]

/-- `while (p) { q = p; p = p->next; free(q); }`, with the pointers that were given back, in order.
-/
def dismantleFrom (dangling : ε) :
    Nat → Option Nat → LinkedList α → List Nat → Option (Except ε (LinkedList α × List Nat))
  | _, none, l, done => some (.ok (l, done))
  | 0, some _, _, _ => none
  | fuel + 1, some p, l, done =>
    match l.read p with
    | none => some (.error dangling)
    | some n => dismantleFrom dangling fuel n.next (l.release p) (done ++ [p])

/-- Behind the last cell there is nothing left to give back. -/
theorem HoldsAt.dismantleFrom_end {l : LinkedList α} {ps : List Nat} {xs : List α}
    (h : HoldsAt l ps xs) (dangling : ε) {i : Nat} (hi : xs.length ≤ i) (fuel : Nat)
    (m : LinkedList α) (done : List Nat) :
    ∃ m', dismantleFrom dangling fuel ps[i]? m done = some (.ok (m', done ++ ps.drop i)) ∧
      ∀ p, m'.read p = if p ∈ ps.drop i then none else m.read p := by
  have hlen : ps.length ≤ i := h.length ▸ hi
  rw [List.getElem?_eq_none hlen, List.drop_eq_nil_of_le hlen, List.append_nil]
  refine ⟨m, ?_, fun p => (if_neg List.not_mem_nil).symm⟩
  cases fuel <;> rfl

/-- The cells that are still there are those of the list, from `i` on. -/
theorem HoldsAt.dismantleFrom_eq {l : LinkedList α} {ps : List Nat} {xs : List α}
    (h : HoldsAt l ps xs) (dangling : ε) {i fuel : Nat} (hfuel : xs.length ≤ fuel + i)
    {m : LinkedList α} (hm : ∀ p ∈ ps.drop i, m.read p = l.read p) (done : List Nat) :
    ∃ m', dismantleFrom dangling fuel ps[i]? m done = some (.ok (m', done ++ ps.drop i)) ∧
      ∀ p, m'.read p = if p ∈ ps.drop i then none else m.read p := by
  induction fuel generalizing i m done with
  | zero => exact h.dismantleFrom_end dangling (by omega) 0 m done
  | succ fuel ih =>
    by_cases hi : i < xs.length
    · have hlt : i < ps.length := h.length ▸ hi
      have hp : ps[i]? = some ps[i] := List.getElem?_eq_getElem hlt
      have hdrop : ps.drop i = ps[i] :: ps.drop (i + 1) := List.drop_eq_getElem_cons hlt
      have hnode := h.node i _ _ hp (List.getElem?_eq_getElem hi)
      -- the pointers behind this one are others
      have hne : ∀ p ∈ ps.drop (i + 1), p ≠ ps[i] := by
        rintro p hmem rfl
        have hnodup := h.nodup.sublist (List.drop_sublist i ps)
        rw [hdrop] at hnodup
        exact (List.nodup_cons.mp hnodup).1 hmem
      have hrest : ∀ p ∈ ps.drop (i + 1), (m.release ps[i]).read p = l.read p := by
        intro p hmem
        rw [read_release, if_neg (hne p hmem)]
        exact hm p (by rw [hdrop]; exact List.mem_cons_of_mem _ hmem)
      obtain ⟨m', hrun, hread⟩ := ih (by omega) hrest (done ++ [ps[i]])
      refine ⟨m', ?_, ?_⟩
      · rw [hp, dismantleFrom, hm _ (by rw [hdrop]; exact List.mem_cons_self), hnode]
        simp only
        rw [hrun, hdrop, List.append_assoc]
        rfl
      · intro p
        rw [hread, read_release, hdrop]
        by_cases hpi : p = ps[i]
        · rw [if_pos hpi, if_pos (List.mem_cons.mpr (Or.inl hpi)), ite_self]
        · simp only [List.mem_cons, hpi, if_false, false_or]
    · exact h.dismantleFrom_end dangling (by omega) (fuel + 1) m done

/-- **Giving everything back**: each cell once, in the order of the list. -/
theorem HoldsAt.dismantle {l : LinkedList α} {ps : List Nat} {xs : List α} (h : HoldsAt l ps xs)
    (dangling : ε) {fuel : Nat} (hfuel : xs.length ≤ fuel) :
    ∃ l', dismantleFrom dangling fuel l.head l [] = some (.ok (l', ps)) ∧
      ∀ p, l'.read p = if p ∈ ps then none else l.read p := by
  have hrun := h.dismantleFrom_eq dangling (i := 0) hfuel (fun _ _ => rfl) []
  rw [h.head, List.head?_eq_getElem?]
  exact hrun

end LinkedList
