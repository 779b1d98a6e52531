import Mathlib.Data.Nat.Basic
import Mathlib.Tactic.Ring

/-!
# Little-endian fixed-width fields

Writing an unsigned number into `width` bytes keeps it modulo `256 ^ width`, and reading the
bytes gives that residue back (`leVal_leBytes`).
-/

set_option autoImplicit false

namespace LittleEndian

/-- The `width` low bytes of `n`, least significant first. -/
def leBytes : Nat → Nat → List UInt8
  | 0, _ => []
  | width + 1, n => UInt8.ofNat n :: leBytes width (n / 256)

/-- The number that the bytes spell. -/
def leVal : List UInt8 → Nat
  | [] => 0
  | b :: bs => b.toNat + 256 * leVal bs

@[simp] theorem length_leBytes : ∀ width n, (leBytes width n).length = width
  | 0, _ => rfl
  | width + 1, n => by rw [leBytes, List.length_cons, length_leBytes width]

theorem leVal_leBytes : ∀ width n, leVal (leBytes width n) = n % 256 ^ width
  | 0, n => by simp [leBytes, leVal, Nat.mod_one]
  | width + 1, n => by
    rw [leBytes, leVal, leVal_leBytes width, Nat.pow_succ', Nat.mod_mul, UInt8.toNat_ofNat']

end LittleEndian
