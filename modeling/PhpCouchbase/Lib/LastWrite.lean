import Mathlib.Data.List.Induction
import PhpCouchbase.Lib.OrderedMap

/-!
# Variables that are set by calls

An object is set up by a sequence of calls.  A call overwrites a variable, appends to it, or leaves it
alone: `pick` is what a call stores.  The state after the whole sequence is a fold over the calls; here
it is said without the fold.

* `foldl_or`, `foldl_getD` — the variable has what the last call that sets it stores.
* `foldl_append_flatMap` — a list has the items of all calls in the order of the calls.
* `foldl_map_step` — an object that is a list of variables runs variable by variable.
* `fetch_fill_flatMap` — so does a table: each key has what the last call stores under it.
-/

set_option autoImplicit false

namespace LastWrite

variable {α β γ : Type}

/-- What the last call that sets the variable stores. -/
def last (pick : β → Option α) (calls : List β) : Option α := (calls.filterMap pick).getLast?

theorem last_append_singleton (pick : β → Option α) (calls : List β) (c : β) :
    last pick (calls ++ [c]) = (pick c).or (last pick calls) := by
  unfold last
  rw [List.filterMap_append]
  cases h : pick c with
  | none => simp [h]
  | some a => simp [h]

theorem exists_of_last_eq_some {pick : β → Option α} {calls : List β} {a : α}
    (h : last pick calls = some a) : ∃ c ∈ calls, pick c = some a :=
  List.mem_filterMap.mp (List.mem_of_getLast? h)

theorem last_isSome_iff {pick : β → Option α} {calls : List β} :
    (last pick calls).isSome ↔ ∃ c ∈ calls, (pick c).isSome := by
  constructor
  · intro h
    obtain ⟨a, ha⟩ := Option.isSome_iff_exists.mp h
    obtain ⟨c, hc, hpick⟩ := exists_of_last_eq_some ha
    exact ⟨c, hc, by rw [hpick]; rfl⟩
  · rintro ⟨c, hc, hpick⟩
    obtain ⟨a, ha⟩ := Option.isSome_iff_exists.mp hpick
    rw [last, List.getLast?_isSome]
    exact List.ne_nil_of_mem (List.mem_filterMap.mpr ⟨c, hc, ha⟩)

theorem foldl_or (pick : β → Option α) (v : Option α) (calls : List β) :
    calls.foldl (fun v c => (pick c).or v) v = (last pick calls).or v := by
  induction calls using List.reverseRecOn with
  | nil => rfl
  | append_singleton calls c ih =>
    rw [List.foldl_append, ih, last_append_singleton, Option.or_assoc]
    rfl

theorem foldl_getD (pick : β → Option α) (v : α) (calls : List β) :
    calls.foldl (fun v c => (pick c).getD v) v = (last pick calls).getD v := by
  induction calls using List.reverseRecOn with
  | nil => rfl
  | append_singleton calls c ih =>
    rw [List.foldl_append, ih, last_append_singleton]
    cases h : pick c with
    | none => simp [h]
    | some a => simp [h]

theorem foldl_append_flatMap (items : β → List α) (l : List α) (calls : List β) :
    calls.foldl (fun l c => l ++ items c) l = l ++ calls.flatMap items := by
  induction calls generalizing l with
  | nil => simp
  | cons c calls ih => rw [List.foldl_cons, ih, List.flatMap_cons, List.append_assoc]

theorem foldl_map_step (step : β → α → α) (o : List α) (calls : List β) :
    calls.foldl (fun o c => o.map (step c)) o =
      o.map fun f => calls.foldl (fun f c => step c f) f := by
  induction calls generalizing o with
  | nil => simp
  | cons c calls ih =>
    rw [List.foldl_cons, ih, List.map_map]
    rfl

/-- Two variables run side by side. -/
theorem foldl_pair (f : α → β → α) (g : γ → β → γ) (a : α) (b : γ) (calls : List β) :
    calls.foldl (fun p c => (f p.1 c, g p.2 c)) (a, b) = (calls.foldl f a, calls.foldl g b) := by
  induction calls generalizing a b with
  | nil => rfl
  | cons c calls ih => exact ih _ _

theorem last_map (pick : β → Option α) (f : α → γ) (calls : List β) :
    last (fun c => (pick c).map f) calls = (last pick calls).map f := by
  induction calls using List.reverseRecOn with
  | nil => rfl
  | append_singleton calls c ih =>
    rw [last_append_singleton, last_append_singleton, ih]
    cases h : pick c with
    | none => simp
    | some a => simp

/-! ## Lists that the first call makes -/

/-- The items of all calls that have a list, once there is such a call. -/
def gathered (pick : β → Option (List α)) (calls : List β) : Option (List α) :=
  if calls.filterMap pick = [] then none else some (calls.filterMap pick).flatten

theorem gathered_append_singleton (pick : β → Option (List α)) (calls : List β) (c : β) :
    gathered pick (calls ++ [c]) =
      match pick c with
      | none => gathered pick calls
      | some l => some ((gathered pick calls).getD [] ++ l) := by
  unfold gathered
  rw [List.filterMap_append]
  cases h : pick c with
  | none => simp [h]
  | some l =>
    by_cases hnil : calls.filterMap pick = []
    · simp [h, hnil]
    · simp [h, hnil]

/-! ## Tables that calls fill -/

/-- **A table that calls fill** has under each key what the last call with that key stores there. -/
theorem fetch_fill_flatMap {κ ν : Type} [DecidableEq κ] (m : List (κ × ν)) (pairs : β → List (κ × ν))
    (calls : List β) (k : κ) :
    OrderedMap.fetch (OrderedMap.fill m (calls.flatMap pairs)) k =
      (last (fun c => OrderedMap.fetch (OrderedMap.fill [] (pairs c)) k) calls).or
        (OrderedMap.fetch m k) := by
  induction calls using List.reverseRecOn with
  | nil => rfl
  | append_singleton calls c ih =>
    rw [List.flatMap_append, List.flatMap_singleton, OrderedMap.fetch_fill_append, ih,
      last_append_singleton, Option.or_assoc]

end LastWrite
