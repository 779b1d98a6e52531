import Mathlib.Data.List.Basic

/-!
# Loops that leave at the first refusal

A loop over a list that collects one result for each element and leaves at the first element that
gives a stop reason instead.  The body may also fail outright, which ends everything.

* `run_finished_iff`, `run_stopped_iff`, `run_error_iff` — the three ways in which the loop ends, each
  said of the elements alone.
* `stop_unique` — the position at which a loop stops is unique.
-/

set_option autoImplicit false

namespace EarlyExit

variable {α β σ ε : Type}

/-- The loop over the elements from number `i` on. -/
def run (body : Nat → α → Except ε (σ ⊕ β)) : Nat → List α → Except ε (List β × Option σ)
  | _, [] => .ok ([], none)
  | i, a :: as =>
    match body i a with
    | .error e => .error e
    | .ok (.inl s) => .ok ([], some s)
    | .ok (.inr b) =>
      match run body (i + 1) as with
      | .error e => .error e
      | .ok (bs, stop) => .ok (b :: bs, stop)

variable {body : Nat → α → Except ε (σ ⊕ β)}

/-- The elements before position `k` all gave a result. -/
def PassedBefore (body : Nat → α → Except ε (σ ⊕ β)) (i : Nat) (as : List α) (k : Nat) : Prop :=
  ∀ j, j < k → ∃ a b, as[j]? = some a ∧ body (i + j) a = .ok (.inr b)

/-- The results are those of the first elements. -/
def Collects (body : Nat → α → Except ε (σ ⊕ β)) (i : Nat) (as : List α) (bs : List β) : Prop :=
  ∀ j b, bs[j]? = some b → ∃ a, as[j]? = some a ∧ body (i + j) a = .ok (.inr b)

theorem Collects.nil {i : Nat} {as : List α} : Collects body i as [] := by
  intro j b h
  simp at h

theorem Collects.cons {i : Nat} {a : α} {as : List α} {b : β} {bs : List β}
    (hb : body i a = .ok (.inr b)) (hbs : Collects body (i + 1) as bs) :
    Collects body i (a :: as) (b :: bs) := by
  intro j c hc
  cases j with
  | zero =>
    simp only [List.getElem?_cons_zero, Option.some.injEq] at hc
    subst hc
    exact ⟨a, rfl, hb⟩
  | succ j =>
    rw [List.getElem?_cons_succ] at hc
    obtain ⟨a', ha', hbody⟩ := hbs j c hc
    exact ⟨a', by simpa using ha', by rw [← hbody]; congr 1; omega⟩

theorem Collects.tail {i : Nat} {a : α} {as : List α} {b : β} {bs : List β}
    (h : Collects body i (a :: as) (b :: bs)) :
    body i a = .ok (.inr b) ∧ Collects body (i + 1) as bs := by
  constructor
  · obtain ⟨a', ha', hb⟩ := h 0 b rfl
    simp only [List.getElem?_cons_zero, Option.some.injEq] at ha'
    subst ha'
    exact hb
  · intro j c hc
    obtain ⟨a', ha', hb⟩ := h (j + 1) c (by simpa using hc)
    exact ⟨a', by simpa using ha', by rw [← hb]; congr 1; omega⟩

theorem Collects.passedBefore {i : Nat} {as : List α} {bs : List β} (h : Collects body i as bs) :
    PassedBefore body i as bs.length := by
  intro j hj
  obtain ⟨a, ha, hb⟩ := h j bs[j] (List.getElem?_eq_getElem hj)
  exact ⟨a, bs[j], ha, hb⟩

/-- **The loop ran to its end** exactly when every element gave its result. -/
theorem run_finished_iff : ∀ {i : Nat} {as : List α} {bs : List β},
    run body i as = .ok (bs, none) ↔ bs.length = as.length ∧ Collects body i as bs
  | i, [], bs => by
    rw [run]
    constructor
    · intro h
      simp only [Except.ok.injEq, Prod.mk.injEq, and_true] at h
      subst h
      exact ⟨rfl, Collects.nil⟩
    · rintro ⟨hlen, -⟩
      rw [List.length_nil, List.length_eq_zero_iff] at hlen
      rw [hlen]
  | i, a :: as, bs => by
    rw [run]
    constructor
    · intro h
      split at h
      · cases h
      · simp at h
      · rename_i b hb
        split at h
        · cases h
        · rename_i bs' stop hrun
          simp only [Except.ok.injEq, Prod.mk.injEq] at h
          obtain ⟨rfl, rfl⟩ := h
          obtain ⟨hlen, hcol⟩ := run_finished_iff.mp hrun
          exact ⟨by simp [hlen], Collects.cons hb hcol⟩
    · rintro ⟨hlen, hcol⟩
      cases bs with
      | nil => simp at hlen
      | cons b bs =>
        obtain ⟨hb, hcol⟩ := hcol.tail
        have hrun := run_finished_iff.mpr ⟨by simpa using hlen, hcol⟩
        rw [hb, hrun]

/-- **The loop stopped** exactly at the element behind its results. -/
theorem run_stopped_iff : ∀ {i : Nat} {as : List α} {bs : List β} {s : σ},
    run body i as = .ok (bs, some s) ↔ Collects body i as bs ∧
      ∃ a, as[bs.length]? = some a ∧ body (i + bs.length) a = .ok (.inl s)
  | i, [], bs, s => by simp [run]
  | i, a :: as, bs, s => by
    rw [run]
    constructor
    · intro h
      split at h
      · cases h
      · rename_i s' hs
        simp only [Except.ok.injEq, Prod.mk.injEq, Option.some.injEq] at h
        obtain ⟨rfl, rfl⟩ := h
        exact ⟨Collects.nil, a, rfl, hs⟩
      · rename_i b hb
        split at h
        · cases h
        · rename_i bs' stop hrun
          simp only [Except.ok.injEq, Prod.mk.injEq] at h
          obtain ⟨rfl, rfl⟩ := h
          obtain ⟨hcol, a', ha', hs⟩ := run_stopped_iff.mp hrun
          refine ⟨Collects.cons hb hcol, a', by simpa using ha', ?_⟩
          rw [← hs]
          congr 1
          simp
          omega
    · rintro ⟨hcol, a', ha', hs⟩
      cases bs with
      | nil =>
        simp only [List.length_nil, List.getElem?_cons_zero, Option.some.injEq] at ha'
        subst ha'
        simp only [List.length_nil, Nat.add_zero] at hs
        rw [hs]
      | cons b bs =>
        obtain ⟨hb, hcol⟩ := hcol.tail
        have hrun : run body (i + 1) as = .ok (bs, some s) := by
          refine run_stopped_iff.mpr ⟨hcol, a', by simpa using ha', ?_⟩
          rw [← hs]
          congr 1
          simp
          omega
        rw [hb, hrun]

/-- A body that fails at some element after passing all before it fails the loop. -/
theorem run_error_iff : ∀ {i : Nat} {as : List α},
    (∃ e, run body i as = .error e) ↔
      ∃ k a e, PassedBefore body i as k ∧ as[k]? = some a ∧ body (i + k) a = .error e
  | i, [] => by simp [run]
  | i, a :: as => by
    rw [run]
    constructor
    · rintro ⟨e, h⟩
      split at h
      · rename_i e' he
        exact ⟨0, a, e', fun j hj => absurd hj (by omega), rfl, he⟩
      · cases h
      · rename_i b hb
        split at h
        · rename_i e' hrun
          obtain ⟨k, a', e'', hpass, ha', he⟩ := run_error_iff.mp ⟨e', hrun⟩
          refine ⟨k + 1, a', e'', ?_, by simpa using ha', by rw [← he]; congr 1; omega⟩
          intro j hj
          cases j with
          | zero => exact ⟨a, b, rfl, hb⟩
          | succ j =>
            obtain ⟨c, d, hc, hd⟩ := hpass j (by omega)
            exact ⟨c, d, by simpa using hc, by rw [← hd]; congr 1; omega⟩
        · cases h
    · rintro ⟨k, a', e, hpass, ha', he⟩
      cases k with
      | zero =>
        simp only [List.getElem?_cons_zero, Option.some.injEq] at ha'
        subst ha'
        rw [Nat.add_zero] at he
        exact ⟨e, by rw [he]⟩
      | succ k =>
        obtain ⟨c, b, hc, hb⟩ := hpass 0 (by omega)
        simp only [List.getElem?_cons_zero, Option.some.injEq] at hc
        subst hc
        rw [Nat.add_zero] at hb
        have hrest : ∃ e, run body (i + 1) as = .error e := by
          refine run_error_iff.mpr ⟨k, a', e, ?_, by simpa using ha', by rw [← he]; congr 1; omega⟩
          intro j hj
          obtain ⟨c, d, hc, hd⟩ := hpass (j + 1) (by omega)
          exact ⟨c, d, by simpa using hc, by rw [← hd]; congr 1; omega⟩
        obtain ⟨e', he'⟩ := hrest
        exact ⟨e', by rw [hb, he']⟩

/-- Two loops whose bodies agree on what the first one reaches. -/
theorem run_congr {body' : Nat → α → Except ε (σ ⊕ β)} {i : Nat} {as : List α}
    (h : ∀ k a, as[k]? = some a → PassedBefore body i as k → body (i + k) a = body' (i + k) a) :
    run body i as = run body' i as := by
  induction as generalizing i with
  | nil => rfl
  | cons a as ih =>
    have hhead := h 0 a rfl fun j hj => absurd hj (Nat.not_lt_zero j)
    rw [Nat.add_zero] at hhead
    rw [run, run, ← hhead]
    cases hbody : body i a with
    | error e => rfl
    | ok r =>
      cases r with
      | inl s => rfl
      | inr b =>
        have htail : run body (i + 1) as = run body' (i + 1) as := by
          refine ih fun k a' ha' hpassed => ?_
          have hshift : i + 1 + k = i + (k + 1) := by omega
          rw [hshift]
          refine h (k + 1) a' (by simpa using ha') fun j hj => ?_
          cases j with
          | zero => exact ⟨a, b, rfl, hbody⟩
          | succ j =>
            obtain ⟨a₁, b₁, ha₁, hb₁⟩ := hpassed j (by omega)
            exact ⟨a₁, b₁, by simpa using ha₁, by rw [← hb₁]; congr 1; omega⟩
        rw [htail]

/-- **One stopping position**: two positions at which the body refuses, with everything before them
passed, are the same. -/
theorem stop_unique {i : Nat} {as : List α} {k l : Nat} {a a' : α}
    (hk : PassedBefore body i as k) (ha : as[k]? = some a)
    (hsk : ∀ b, body (i + k) a ≠ .ok (.inr b))
    (hl : PassedBefore body i as l) (ha' : as[l]? = some a')
    (hsl : ∀ b, body (i + l) a' ≠ .ok (.inr b)) : k = l := by
  rcases Nat.lt_trichotomy k l with h | h | h
  · obtain ⟨c, b, hc, hb⟩ := hl k h
    rw [ha, Option.some.injEq] at hc
    subst hc
    exact absurd hb (hsk b)
  · exact h
  · obtain ⟨c, b, hc, hb⟩ := hk l h
    rw [ha', Option.some.injEq] at hc
    subst hc
    exact absurd hb (hsl b)

end EarlyExit
