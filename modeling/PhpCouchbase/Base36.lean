import PhpCouchbase.Zval
import PhpCouchbase.Lib.Numeral

/-!
# CAS values as base-36 text

PHP has no unsigned 64-bit integer, so a CAS value travels through PHP code as a base-36 string
(`base36.c`).
`casDecode_casEncode` is the round trip for every 64-bit CAS: thirteen digits are enough.
-/

set_option autoImplicit false

namespace PhpCouchbase

open Numeral

/-- The value of a base-36 digit, of either case. -/
def base36Val (c : UInt8) : Option Nat :=
  if 48 ≤ c.toNat ∧ c.toNat ≤ 57 then some (c.toNat - 48)
  else if 65 ≤ c.toNat ∧ c.toNat ≤ 90 then some (c.toNat - 55)
  else if 97 ≤ c.toNat ∧ c.toNat ≤ 122 then some (c.toNat - 87)
  else none

/-- `pcbc_base36_decode_str` of a string and its length, which becomes an `int`: characters that are
no digit are skipped, the sum wraps. -/
def base36DecodeStr (str : Bytes) : UInt64 :=
  (str.take (narrowInt str.length).toNat).foldl (fun num c =>
    match base36Val c with
    | some d => num * 36 + UInt64.ofNat d
    | none => num) 0

/-- The table `digits` of the encoder. -/
def base36Char (d : Nat) : UInt8 := if d < 10 then UInt8.ofNat (48 + d) else UInt8.ofNat (87 + d)

/-- `pcbc_base36_encode_str`: the buffer has room for thirteen digits. -/
def base36EncodeStr (num : UInt64) : Bytes := (emit 36 13 num.toNat []).map base36Char

/-- `pcbc_cas_decode`: anything but a string is the CAS 0. -/
def casDecode (cas : Zval) : UInt64 :=
  match cas with
  | .string s => base36DecodeStr s
  | _ => 0

/-- `pcbc_cas_encode` -/
def casEncode (cas : UInt64) : Zval := .string (base36EncodeStr cas)

theorem base36Val_base36Char : ∀ d, d < 36 → base36Val (base36Char d) = some d := by decide

/-- The digits of a text, all other bytes skipped. -/
theorem base36_foldl (str : Bytes) (acc : Nat) :
    str.foldl (fun num c =>
      match base36Val c with
      | some d => num * 36 + UInt64.ofNat d
      | none => num) (UInt64.ofNat acc) =
      UInt64.ofNat (evalFrom 36 acc (str.filterMap base36Val)) := by
  induction str generalizing acc with
  | nil => rfl
  | cons c str ih =>
    rw [List.foldl_cons, List.filterMap_cons]
    cases base36Val c with
    | none => exact ih acc
    | some d =>
      have hstep : UInt64.ofNat acc * 36 + UInt64.ofNat d = UInt64.ofNat (acc * 36 + d) := by
        rw [UInt64.ofNat_add, UInt64.ofNat_mul]
        rfl
      simp only [hstep, evalFrom_cons]
      exact ih _

theorem filterMap_map_base36Char {ds : List Nat} (hds : ∀ d ∈ ds, d < 36) :
    (ds.map base36Char).filterMap base36Val = ds := by
  induction ds with
  | nil => rfl
  | cons d ds ih =>
    obtain ⟨hd, hds⟩ := List.forall_mem_cons.mp hds
    rw [List.map_cons, List.filterMap_cons, base36Val_base36Char d hd, ih hds]

theorem length_base36EncodeStr_le (num : UInt64) : (base36EncodeStr num).length ≤ 13 := by
  rw [base36EncodeStr, List.length_map]
  exact length_emit_le 13 num.toNat []

/-- A text that is not too long is read to its end. -/
theorem take_narrowInt {str : Bytes} (h : str.length < 2 ^ 31) :
    str.take (narrowInt str.length).toNat = str := by
  rw [narrowInt_of_lt h, Int.toNat_natCast, List.take_length]

theorem base36DecodeStr_encode (num : UInt64) : base36DecodeStr (base36EncodeStr num) = num := by
  have hlen := length_base36EncodeStr_le num
  rw [base36DecodeStr, take_narrowInt (by omega)]
  have hlt : ∀ d ∈ emit 36 13 num.toNat [], d < 36 := lt_of_mem_emit (by omega) (by simp)
  have hroom : num.toNat < 36 ^ 13 := by
    have := num.toNat_lt
    omega
  have hfold := base36_foldl (base36EncodeStr num) 0
  rw [base36EncodeStr, filterMap_map_base36Char hlt, evalFrom_emit (by omega) (by omega) hroom,
    evalFrom_nil, UInt64.ofNat_toNat] at hfold
  exact hfold

/-- **A CAS survives the text round trip.** -/
theorem casDecode_casEncode (cas : UInt64) : casDecode (casEncode cas) = cas :=
  base36DecodeStr_encode cas

end PhpCouchbase
