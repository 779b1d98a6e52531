import Mathlib.Data.List.Basic

/-!
# Runs of a step relation

A step relation `step s l t` leads from the state `s` to the state `t` under the label `l`.  A
`Path` is a finite run with the labels and the states it reaches.

* `Path.invariant` — what every step preserves holds in every state reached.
* `Path.forall_iff_meets` — when a step keeps a property **exactly** if its condition holds, the
  states of a run all have the property exactly if its steps all meet the condition.
-/

set_option autoImplicit false

namespace StepSystem

variable {σ α : Type*}

/-- A finite run from a state: each step with its label and the state it reaches. -/
inductive Path (step : σ → α → σ → Prop) : σ → List (α × σ) → Prop where
  | nil (s : σ) : Path step s []
  | cons {s t : σ} {l : α} {p : List (α × σ)} (h : step s l t) (hp : Path step t p) :
      Path step s ((l, t) :: p)

/-- Every step of the run meets a condition on its label and the state before it. -/
def Meets (good : σ → α → Prop) : σ → List (α × σ) → Prop
  | _, [] => True
  | s, (l, t) :: p => good s l ∧ Meets good t p

variable {step : σ → α → σ → Prop} {good : σ → α → Prop} {inv prop : σ → Prop}

theorem Path.invariant {s : σ} {p : List (α × σ)} (hp : Path step s p) (hs : inv s)
    (hstep : ∀ s l t, inv s → step s l t → inv t) : ∀ x ∈ p, inv x.2 := by
  induction hp with
  | nil s => simp
  | @cons s t l p h hp ih =>
    have ht := hstep s l t hs h
    intro x hx
    cases hx with
    | head => exact ht
    | tail _ hx => exact ih ht x hx

/-- An invariant that needs the condition of each step. -/
theorem Path.invariant_of_meets {s : σ} {p : List (α × σ)} (hp : Path step s p)
    (hmeets : Meets good s p) (hs : inv s)
    (hstep : ∀ s l t, inv s → good s l → step s l t → inv t) : ∀ x ∈ p, inv x.2 := by
  induction hp with
  | nil s => simp
  | @cons s t l p h hp ih =>
    have ht := hstep s l t hs hmeets.1 h
    intro x hx
    cases hx with
    | head => exact ht
    | tail _ hx => exact ih hmeets.2 ht x hx

/-- **A property that is lost with a step whose condition fails**: with an invariant that the other
steps keep, it holds along a run exactly when the run meets the conditions. -/
theorem Path.forall_iff_meets_of_inv {s : σ} {p : List (α × σ)} (hp : Path step s p) (hs : inv s)
    (hprop : ∀ s, inv s → prop s)
    (hgood : ∀ s l t, inv s → good s l → step s l t → inv t)
    (hbad : ∀ s l t, inv s → ¬good s l → step s l t → ¬prop t) :
    (∀ x ∈ p, prop x.2) ↔ Meets good s p := by
  induction hp with
  | nil s => simp [Meets]
  | @cons s t l p h hp ih =>
    rw [List.forall_mem_cons]
    constructor
    · rintro ⟨ht, hrest⟩
      have hl : good s l := by
        by_contra hl
        exact hbad s l t hs hl h ht
      exact ⟨hl, (ih (hgood s l t hs hl h)).mp hrest⟩
    · rintro ⟨hl, hrest⟩
      have ht := hgood s l t hs hl h
      exact ⟨hprop t ht, (ih ht).mpr hrest⟩

/-- **A property that a step keeps exactly under its condition** holds along a run exactly when the
run meets the conditions. -/
theorem Path.forall_iff_meets {s : σ} {p : List (α × σ)} (hp : Path step s p) (hs : prop s)
    (hstep : ∀ s l t, prop s → step s l t → (prop t ↔ good s l)) :
    (∀ x ∈ p, prop x.2) ↔ Meets good s p :=
  hp.forall_iff_meets_of_inv hs (fun _ h => h) (fun s l t h hl hst => (hstep s l t h hst).mpr hl)
    fun s l t h hl hst ht => hl ((hstep s l t h hst).mp ht)

/-- A condition on the labels alone. -/
theorem meets_label_iff {ok : α → Prop} {s : σ} {p : List (α × σ)} :
    Meets (fun _ l => ok l) s p ↔ ∀ x ∈ p, ok x.1 := by
  induction p generalizing s with
  | nil => simp [Meets]
  | cons x p ih =>
    obtain ⟨l, t⟩ := x
    rw [List.forall_mem_cons, Meets, ih]

end StepSystem
