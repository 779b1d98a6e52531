import Mathlib.Data.List.Perm.Basic
import Mathlib.Tactic.Ring

/-!
# Counted handles

Objects hold handles of shared resources, and every resource counts its holders in a signed machine
integer of 32 bits.  `holders` is the exact number; `Counts` says that a counter agrees with it.

* `holders_append`, `holders_eraseIdx` — a new object, and an object that goes away.
* `Counts.retain`, `Counts.release` — the counter follows, as long as the holders fit it.
-/

set_option autoImplicit false

namespace RefCount

variable {ι : Type} [DecidableEq ι]

/-- The number of objects that hold a handle; an object may hold none. -/
def holders (held : List (Option ι)) (p : ι) : Nat := held.count (some p)

theorem holders_append (held : List (Option ι)) (o : Option ι) (p : ι) :
    holders (held ++ [o]) p = holders held p + if o = some p then 1 else 0 := by
  simp [holders, List.count_singleton]

theorem holders_eraseIdx {held : List (Option ι)} {i : Nat} {o : Option ι}
    (h : held[i]? = some o) (p : ι) :
    holders held p = holders (held.eraseIdx i) p + if o = some p then 1 else 0 := by
  obtain ⟨hi, rfl⟩ := List.getElem?_eq_some_iff.mp h
  have hperm := List.getElem_cons_eraseIdx_perm hi
  rw [holders, ← hperm.count_eq, List.count_cons]
  simp [holders]

theorem holders_ne_zero {held : List (Option ι)} {p : ι} (h : some p ∈ held) :
    holders held p ≠ 0 := Nat.pos_iff_ne_zero.mp (List.count_pos_iff.mpr h)

theorem holders_eq_zero {held : List (Option ι)} {p : ι} (h : some p ∉ held) :
    holders held p = 0 := List.count_eq_zero.mpr h

theorem holders_le (held : List (Option ι)) (p : ι) : holders held p ≤ held.length :=
  List.count_le_length

/-- The counter is the number of holders. -/
def Counts (refs : Int32) (n : Nat) : Prop := refs.toInt = n

theorem Counts.retain {refs : Int32} {n : Nat} (h : Counts refs n) (hn : n + 1 < 2 ^ 31) :
    Counts (refs + 1) (n + 1) := by
  have hrefs : refs.toInt = n := h
  have hone : (1 : Int32).toInt = 1 := by decide
  show (refs + 1).toInt = ((n + 1 : Nat) : Int)
  rw [Int32.toInt_add, hrefs, hone]
  apply Int.bmod_eq_of_le <;> omega

theorem Counts.release {refs : Int32} {n : Nat} (h : Counts refs (n + 1)) :
    Counts (refs - 1) n := by
  have hrefs : refs.toInt = ((n + 1 : Nat) : Int) := h
  have hlt := refs.toInt_lt
  have hone : (1 : Int32).toInt = 1 := by decide
  show (refs - 1).toInt = (n : Int)
  rw [Int32.toInt_sub, hrefs, hone]
  have hn : ((n + 1 : Nat) : Int) - 1 = n := by omega
  rw [hn]
  apply Int.bmod_eq_of_le <;> omega

theorem Counts.eq_zero_iff {refs : Int32} {n : Nat} (h : Counts refs n) : refs = 0 ↔ n = 0 := by
  have hrefs : refs.toInt = n := h
  rw [← Int32.toInt_inj, hrefs]
  have hzero : (0 : Int32).toInt = 0 := by decide
  omega

theorem Counts.pos_iff {refs : Int32} {n : Nat} (h : Counts refs n) : 0 < refs ↔ 0 < n := by
  have hrefs : refs.toInt = n := h
  rw [Int32.lt_iff_toInt_lt, hrefs]
  have hzero : (0 : Int32).toInt = 0 := by decide
  omega

theorem counts_one : Counts 1 1 := by
  show (1 : Int32).toInt = 1
  decide

end RefCount
