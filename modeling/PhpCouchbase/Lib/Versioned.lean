import Mathlib.Logic.Relation

/-!
# Content under versions that are used once

A `Versioned` cell has its content, the version of the content and the versions of all earlier
contents.  A change takes a version that was never used, so a writer that names the version it read
cannot overwrite a change it did not see.

* `Later.eq_of_version` — a cell with the version it once had is unchanged since then.
-/

set_option autoImplicit false

/-- A cell with its version and the versions it had. -/
structure Versioned (γ κ : Type*) where
  content : γ
  version : κ
  past : List κ

namespace Versioned

variable {γ κ : Type*} {u v w : Versioned γ κ} {c : γ}

/-- A change to the content `c` under a fresh version. -/
structure Changes (v : Versioned γ κ) (c : γ) (w : Versioned γ κ) : Prop where
  content : w.content = c
  past : w.past = v.version :: v.past
  fresh : w.version ∉ v.version :: v.past

/-- Any number of changes. -/
def Later (v w : Versioned γ κ) : Prop :=
  Relation.ReflTransGen (fun v w => ∃ c, Changes v c w) v w

theorem Later.refl (v : Versioned γ κ) : Later v v := Relation.ReflTransGen.refl

theorem Later.changes (h : Later u v) (hc : v.Changes c w) : Later u w :=
  Relation.ReflTransGen.tail h ⟨c, hc⟩

/-- A changed cell remembers the version, and has another one. -/
theorem Later.eq_or_past (h : Later v w) :
    w = v ∨ v.version ∈ w.past ∧ w.version ∉ w.past := by
  induction h with
  | refl => exact Or.inl rfl
  | tail _ hc ih =>
    obtain ⟨c, hc⟩ := hc
    right
    rw [hc.past]
    refine ⟨?_, hc.fresh⟩
    rcases ih with rfl | ⟨hmem, -⟩
    · exact List.mem_cons_self
    · exact List.mem_cons_of_mem _ hmem

/-- **An old version comes back never.** -/
theorem Later.eq_of_version (h : Later v w) (hv : w.version = v.version) : w = v := by
  rcases h.eq_or_past with rfl | ⟨hmem, hfresh⟩
  · rfl
  · rw [hv] at hfresh
    exact absurd hmem hfresh

end Versioned
