import Mathlib.Data.List.Basic

/-!
# Folds that may fail

A loop over a list in `Except`: each step fails, which ends the loop, or goes on with a new state.

* `view_foldlM` — what is seen of the state behind a loop that succeeds.
* `exists_foldlM_iff` — which loops succeed, when each element decides for its own step.
-/

set_option autoImplicit false

namespace FallibleFold

variable {α β γ ε : Type} {f : β → α → Except ε β} {l : List α}

/-- A loop whose body succeeds first. -/
theorem foldlM_cons_eq_ok {a : α} {s s' : β} :
    (a :: l).foldlM f s = .ok s' ↔ ∃ s₁, f s a = .ok s₁ ∧ l.foldlM f s₁ = .ok s' := by
  rw [List.foldlM_cons]
  cases h : f s a with
  | error e =>
    refine iff_of_false (fun hrun => nomatch hrun) ?_
    rintro ⟨s₁, hs₁, -⟩
    cases hs₁
  | ok s₁ =>
    constructor
    · exact fun hrun => ⟨s₁, rfl, hrun⟩
    · rintro ⟨s₂, hs₂, hrun⟩
      rw [← Except.ok.inj hs₂] at hrun
      exact hrun

/-- **The state behind a loop**: a view that each step that succeeds changes in one way is changed
so by all elements. -/
theorem view_foldlM (view : β → γ) (step : γ → α → γ)
    (h : ∀ a ∈ l, ∀ s s', f s a = .ok s' → view s' = step (view s) a) {s s' : β}
    (hrun : l.foldlM f s = .ok s') : view s' = l.foldl step (view s) := by
  induction l generalizing s with
  | nil =>
    rw [List.foldlM_nil] at hrun
    rw [Except.ok.inj hrun, List.foldl_nil]
  | cons a l ih =>
    obtain ⟨ha, hall⟩ := List.forall_mem_cons.mp h
    obtain ⟨s₁, hs₁, hrun⟩ := foldlM_cons_eq_ok.mp hrun
    rw [ih hall hrun, ha s s₁ hs₁, List.foldl_cons]

/-- **The loops that succeed**: when an element alone decides whether its step does, all of them
must. -/
theorem exists_foldlM_iff {p : α → Prop} (h : ∀ a ∈ l, ∀ s, (∃ s', f s a = .ok s') ↔ p a) (s : β) :
    (∃ s', l.foldlM f s = .ok s') ↔ ∀ a ∈ l, p a := by
  induction l generalizing s with
  | nil => exact iff_of_true ⟨s, rfl⟩ (by simp)
  | cons a l ih =>
    obtain ⟨ha, hall⟩ := List.forall_mem_cons.mp h
    rw [List.forall_mem_cons]
    constructor
    · rintro ⟨s', hrun⟩
      obtain ⟨s₁, hs₁, hrun⟩ := foldlM_cons_eq_ok.mp hrun
      exact ⟨(ha s).mp ⟨s₁, hs₁⟩, (ih hall s₁).mp ⟨s', hrun⟩⟩
    · rintro ⟨hp, hps⟩
      obtain ⟨s₁, hs₁⟩ := (ha s).mpr hp
      obtain ⟨s', hrun⟩ := (ih hall s₁).mpr hps
      exact ⟨s', foldlM_cons_eq_ok.mpr ⟨s₁, hs₁, hrun⟩⟩

end FallibleFold
