import Mathlib.Data.List.Induction
import PhpCouchbase.Zval

/-!
# Operation cookies

Every call schedules its commands with one cookie (`opcookie.c`); each response callback appends its
result, and the cookie remembers the first error that came in.
-/

set_option autoImplicit false

namespace PhpCouchbase

/-- The error codes of libcouchbase that the extension names; the others are kept apart by their
number. -/
inductive LcbError where
  | success
  | error
  | einval
  | keyEnoent
  | keyEexists
  | subdocPathEexists
  | subdocMultiFailure
  | other (code : Nat)
  deriving DecidableEq, Repr

/-- `opcookie`: the results in the order of their callbacks, and the first error. -/
structure Opcookie (ρ : Type) where
  results : List ρ
  firstError : LcbError

namespace Opcookie

variable {ρ : Type}

def init : Opcookie ρ := ⟨[], .success⟩

/-- `opcookie_push` -/
def push (err : ρ → LcbError) (cookie : Opcookie ρ) (res : ρ) : Opcookie ρ where
  results := cookie.results ++ [res]
  firstError :=
    if err res ≠ .success ∧ cookie.firstError = .success then err res else cookie.firstError

/-- All callbacks of a call, in the order in which they are delivered. -/
def collect (err : ρ → LcbError) (rs : List ρ) : Opcookie ρ := rs.foldl (push err) init

theorem collect_append (err : ρ → LcbError) (rs : List ρ) (r : ρ) :
    collect err (rs ++ [r]) = push err (collect err rs) r := by
  simp [collect, List.foldl_append]

@[simp] theorem collect_results (err : ρ → LcbError) (rs : List ρ) :
    (collect err rs).results = rs := by
  induction rs using List.reverseRecOn with
  | nil => rfl
  | append_singleton rs r ih => rw [collect_append, push, ih]

/-- The first error is success exactly when every result is. -/
theorem collect_firstError_iff (err : ρ → LcbError) (rs : List ρ) :
    (collect err rs).firstError = .success ↔ ∀ r ∈ rs, err r = .success := by
  induction rs using List.reverseRecOn with
  | nil => simp [collect, init]
  | append_singleton rs r ih =>
    rw [collect_append, push, List.forall_mem_append, ← ih]
    split
    · rename_i h
      simp [h.1]
    · rename_i h
      constructor
      · intro hs
        refine ⟨hs, ?_⟩
        by_contra hr
        exact h ⟨by simpa using hr, hs⟩
      · exact fun hs => hs.1

/-- **The first error** is that of the first result with an error. -/
theorem collect_firstError_eq (err : ρ → LcbError) (rs : List ρ) :
    (collect err rs).firstError =
      ((rs.find? fun r => err r ≠ .success).map err).getD .success := by
  induction rs using List.reverseRecOn with
  | nil => rfl
  | append_singleton rs r ih =>
    rw [collect_append, push, ih, List.find?_append]
    cases hfind : rs.find? fun r => err r ≠ .success with
    | some first =>
      have hfirst : err first ≠ .success := by simpa using List.find?_some hfind
      rw [if_neg fun h => hfirst h.2]
      rfl
    | none =>
      by_cases hr : err r = .success
      · simp [hr]
      · simp [hr]

end Opcookie

end PhpCouchbase
