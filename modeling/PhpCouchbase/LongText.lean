import PhpCouchbase.Zval
import PhpCouchbase.Lib.Numeral
import PhpCouchbase.Lib.OrderedMap

/-!
# Integers as text

How PHP prints a long for `transcoding.c` and `couchbase.c` (`smart_str_append_long`), how `strtol`
reads one from memory, and which strings `ZEND_HANDLE_NUMERIC_STR` turns into integer keys of an
array.

* `strtol_printLong_iff` — what `strtol` makes of a printed long that is not NUL-terminated: it
  goes on into the memory behind the text, so the result depends on the bytes found there.
* `printLong_of_handleNumericStr` — only the printed form of a long becomes an integer key.
* `symtableKey_injective` — hence distinct strings are distinct keys of a symbol table.
-/

set_option autoImplicit false

namespace PhpCouchbase

open Numeral

/-! ## Digits -/

def digitByte (d : Nat) : UInt8 := UInt8.ofNat (48 + d)

def isDigit (c : UInt8) : Bool := decide (48 ≤ c.toNat ∧ c.toNat ≤ 57)

/-- The value of a decimal digit. -/
def digitVal (c : UInt8) : Option Nat := if isDigit c then some (c.toNat - 48) else none

theorem toNat_digitByte {d : Nat} (h : d < 10) : (digitByte d).toNat = 48 + d := by
  simp only [digitByte, UInt8.toNat_ofNat']
  omega

theorem digitVal_digitByte {d : Nat} (h : d < 10) : digitVal (digitByte d) = some d := by
  have ht := toNat_digitByte h
  simp only [digitVal, isDigit, ht]
  rw [if_pos (by simp; omega)]
  simp

theorem digitVal_eq_some {c : UInt8} {d : Nat} (h : digitVal c = some d) :
    d < 10 ∧ digitByte d = c := by
  unfold digitVal at h
  split at h
  · rename_i hc
    cases h
    simp only [isDigit, decide_eq_true_eq] at hc
    refine ⟨by omega, ?_⟩
    rw [digitByte, show 48 + (c.toNat - 48) = c.toNat by omega]
    simp
  · cases h

/-! ## Printing -/

/-- `zend_print_long_to_buf`: a sign and the digits. -/
def printLong (n : Int64) : Bytes :=
  if n.toInt < 0 then 45 :: (emit 10 20 n.toInt.natAbs []).map digitByte
  else (emit 10 20 n.toInt.natAbs []).map digitByte

/-- `"%llu"` and `"%d"` of a number that is not negative, with room for 20 digits. -/
def decimal (n : Nat) : Bytes := (emit 10 20 n []).map digitByte

theorem decimal_injective {m n : Nat} (hm : m < 10 ^ 20) (hn : n < 10 ^ 20)
    (h : decimal m = decimal n) : m = n := by
  have hread : ∀ k, k < 10 ^ 20 →
      evalFrom 10 0 ((decimal k).filterMap digitVal) = k := by
    intro k hk
    have hdigits : ∀ d ∈ emit 10 20 k [], d < 10 := lt_of_mem_emit (by omega) (by simp)
    have hback : ∀ ds : List Nat, (∀ d ∈ ds, d < 10) →
        (ds.map digitByte).filterMap digitVal = ds := by
      intro ds hds
      induction ds with
      | nil => rfl
      | cons d ds ih =>
        rw [List.forall_mem_cons] at hds
        rw [List.map_cons, List.filterMap_cons, digitVal_digitByte hds.1, ih hds.2]
    rw [decimal, hback _ hdigits, evalFrom_emit (by omega) (by omega) hk, evalFrom_nil]
  rw [← hread m hm, h, hread n hn]

theorem isDigit_of_mem_decimal {n : Nat} {c : UInt8} (hc : c ∈ decimal n) : isDigit c = true := by
  obtain ⟨d, hd, rfl⟩ := List.mem_map.mp hc
  have hlt : d < 10 := lt_of_mem_emit (by omega) (by simp) d hd
  rw [isDigit, toNat_digitByte hlt, decide_eq_true_eq]
  omega

theorem natAbs_lt (n : Int64) : n.toInt.natAbs < 10 ^ 20 := by
  have := n.le_toInt
  have := n.toInt_lt
  omega

theorem printLong_length_le (n : Int64) : (printLong n).length ≤ 21 := by
  have h := length_emit_le (b := 10) 20 n.toInt.natAbs []
  unfold printLong
  split <;> simp at h ⊢ <;> omega

/-! ## `strtol` -/

/-- The digits at the head of the memory, after the value `acc`.  The scan only stops at a byte
that is not a digit. -/
def scanDigits (acc : Nat) : Bytes → C Nat
  | [] => .error .outOfBounds
  | c :: cs =>
    match digitVal c with
    | some d => scanDigits (acc * 10 + d) cs
    | none => .ok acc

/-- `strtol` answers `LONG_MIN` and `LONG_MAX` when the number does not fit. -/
def saturate (i : Int) : Int64 :=
  if i < -2 ^ 63 then Int64.minValue else if 2 ^ 63 ≤ i then Int64.maxValue else Int64.ofInt i

def isSpace (c : UInt8) : Bool := c = 32 || decide (9 ≤ c.toNat ∧ c.toNat ≤ 13)

/-- `strtol(mem, NULL, 10)`, where `mem` is all the memory from the pointer on. -/
def strtol (mem : Bytes) : C Int64 :=
  match mem.dropWhile isSpace with
  | [] => .error .outOfBounds
  | c :: cs =>
    if c = 45 then return saturate (-(← scanDigits 0 cs))
    else if c = 43 then return saturate (← scanDigits 0 cs)
    else return saturate (← scanDigits 0 (c :: cs))

theorem scanDigits_append {ds : List Nat} (hds : ∀ d ∈ ds, d < 10) (acc : Nat) (rest : Bytes) :
    scanDigits acc (ds.map digitByte ++ rest) = scanDigits (evalFrom 10 acc ds) rest := by
  induction ds generalizing acc with
  | nil => rfl
  | cons d ds ih =>
    rw [List.map_cons, List.cons_append, scanDigits, digitVal_digitByte (hds d (by simp)),
      evalFrom_cons]
    exact ih (fun e he => hds e (by simp [he])) _

/-- The digits that follow in memory, as numbers. -/
def digitRun (mem : Bytes) : List Nat := (mem.takeWhile isDigit).filterMap digitVal

theorem scanDigits_eq (acc : Nat) (mem : Bytes) :
    scanDigits acc mem = if mem.dropWhile isDigit = [] then .error .outOfBounds
      else .ok (evalFrom 10 acc (digitRun mem)) := by
  induction mem generalizing acc with
  | nil => rfl
  | cons c cs ih =>
    unfold scanDigits digitRun
    cases hc : isDigit c with
    | false => simp [digitVal, hc]
    | true =>
      simp only [digitVal, hc, if_true, List.dropWhile_cons_of_pos, List.takeWhile_cons_of_pos,
        List.filterMap_cons]
      rw [ih]
      rfl

/-- **What must follow a printed long** for `strtol` to read it back: some byte that is not a
digit, and before it no digit, unless more digits do not change the result. -/
def EndsAfter (n : Int64) (mem : Bytes) : Prop :=
  mem.dropWhile isDigit ≠ [] ∧
    (digitRun mem = [] ∨ n = Int64.maxValue ∨ n = Int64.minValue ∨
      (n = 0 ∧ ∀ d ∈ digitRun mem, d = 0))

instance (n : Int64) (mem : Bytes) : Decidable (EndsAfter n mem) := by
  unfold EndsAfter; infer_instance

theorem saturate_toInt (n : Int64) : saturate n.toInt = n := by
  have := n.le_toInt
  have := n.toInt_lt
  unfold saturate
  rw [if_neg (by omega), if_neg (by omega), Int64.ofInt_toInt]

theorem saturate_eq {i : Int} {n : Int64} (h : saturate i = n) :
    i = n.toInt ∨ (i < -2 ^ 63 ∧ n = Int64.minValue) ∨ (2 ^ 63 ≤ i ∧ n = Int64.maxValue) := by
  unfold saturate at h
  split at h
  · exact Or.inr (Or.inl ⟨by assumption, h.symm⟩)
  · split at h
    · exact Or.inr (Or.inr ⟨by assumption, h.symm⟩)
    · subst h
      exact Or.inl (Int64.toInt_ofInt_of_le (by omega) (by omega)).symm

/-- More digits behind the magnitude of `n` keep the value exactly in the cases of `EndsAfter`. -/
theorem saturate_run_iff (n : Int64) (ds : List Nat) :
    saturate (if n.toInt < 0 then -(evalFrom 10 n.toInt.natAbs ds : Int)
        else evalFrom 10 n.toInt.natAbs ds) = n ↔
      ds = [] ∨ n = Int64.maxValue ∨ n = Int64.minValue ∨ (n = 0 ∧ ∀ d ∈ ds, d = 0) := by
  have hle := le_evalFrom (b := 10) (by omega) ds n.toInt.natAbs
  have hmin : Int64.minValue.toInt = -2 ^ 63 := Int64.toInt_minValue
  have hmax : Int64.maxValue.toInt = 2 ^ 63 - 1 := Int64.toInt_maxValue
  constructor
  · intro h
    by_cases hds : ds = []
    · exact Or.inl hds
    rcases Nat.eq_zero_or_pos n.toInt.natAbs with hz | hpos
    · have hn : n = 0 := by
        rw [← Int64.toInt_inj, Int64.toInt_zero]
        omega
      refine Or.inr (Or.inr (Or.inr ⟨hn, ?_⟩))
      rw [← evalFrom_zero_eq_zero (b := 10) (by omega), ← hz]
      rcases saturate_eq h with h | ⟨h, rfl⟩ | ⟨h, rfl⟩ <;> split at h <;> omega
    · have hlt := lt_evalFrom (b := 10) (by omega) hpos hds
      rcases saturate_eq h with h | ⟨-, rfl⟩ | ⟨-, rfl⟩
      · split at h <;> omega
      · exact Or.inr (Or.inr (Or.inl rfl))
      · exact Or.inr (Or.inl rfl)
  · rintro (rfl | rfl | rfl | ⟨rfl, hz⟩)
    · rw [evalFrom_nil]
      split
      · rw [show -(n.toInt.natAbs : Int) = n.toInt by omega, saturate_toInt]
      · rw [show (n.toInt.natAbs : Int) = n.toInt by omega, saturate_toInt]
    · rw [if_neg (by omega)]
      rcases Nat.eq_or_lt_of_le hle with heq | hlt
      · rw [← heq, show (Int64.maxValue.toInt.natAbs : Int) = Int64.maxValue.toInt by omega,
          saturate_toInt]
      · unfold saturate
        rw [if_neg (by omega), if_pos (by omega)]
    · rw [if_pos (by omega)]
      rcases Nat.eq_or_lt_of_le hle with heq | hlt
      · rw [← heq, show -(Int64.minValue.toInt.natAbs : Int) = Int64.minValue.toInt by omega,
          saturate_toInt]
      · unfold saturate
        rw [if_pos (by omega)]
    · have h0 : evalFrom 10 0 ds = 0 := (evalFrom_zero_eq_zero (by omega)).mpr hz
      simp [h0, saturate]

/-- **`strtol` on a printed long that is not terminated** gives the long back exactly when the
memory behind it is as `EndsAfter` says. -/
theorem strtol_printLong_iff (n : Int64) (after : Bytes) :
    strtol (printLong n ++ after) = .ok n ↔ EndsAfter n after := by
  have hlt : ∀ d ∈ emit 10 20 n.toInt.natAbs [], d < 10 := lt_of_mem_emit (by omega) (by simp)
  have hnil : emit 10 20 n.toInt.natAbs [] ≠ [] := emit_ne_nil (by omega) _ _
  have hev : evalFrom 10 0 (emit 10 20 n.toInt.natAbs []) = n.toInt.natAbs := by
    rw [evalFrom_emit (by omega) (by omega) (natAbs_lt n), evalFrom_nil]
  have hscan : scanDigits 0 ((emit 10 20 n.toInt.natAbs []).map digitByte ++ after) =
      scanDigits n.toInt.natAbs after := by
    rw [scanDigits_append hlt, hev]
  have hrun : strtol (printLong n ++ after) = (scanDigits n.toInt.natAbs after).map fun (m : Nat) =>
      saturate (if n.toInt < 0 then -(m : Int) else m) := by
    unfold printLong
    by_cases hneg : n.toInt < 0
    · simp only [if_pos hneg, List.cons_append, strtol]
      rw [List.dropWhile_cons_of_neg (by decide)]
      simp only [if_true, hscan]
      cases scanDigits n.toInt.natAbs after <;> rfl
    · simp only [if_neg hneg]
      obtain ⟨d, ds, hds⟩ := List.exists_cons_of_ne_nil hnil
      have hd : d < 10 := hlt d (by rw [hds]; simp)
      have hb := toNat_digitByte hd
      rw [hds, List.map_cons, List.cons_append] at hscan ⊢
      have hsp : isSpace (digitByte d) = false := by
        simp [isSpace, hb, ← UInt8.toNat_inj]
        omega
      have hne : ∀ c : UInt8, c.toNat < 48 → digitByte d ≠ c := by
        rintro c hc rfl
        omega
      unfold strtol
      rw [List.dropWhile_cons_of_neg (by simp [hsp])]
      simp only [if_neg (hne 45 (by decide)), if_neg (hne 43 (by decide)), hscan]
      cases scanDigits n.toInt.natAbs after <;> rfl
  rw [hrun, scanDigits_eq]
  unfold EndsAfter
  by_cases hnil : after.dropWhile isDigit = []
  · simp [hnil, Except.map]
  · rw [if_neg hnil]
    simp only [Except.map, Except.ok.injEq, ne_eq, hnil, not_false_eq_true, true_and]
    exact saturate_run_iff n _

/-! ## Integer-like array keys -/

/-- `ZEND_HANDLE_NUMERIC_STR`: the long that a string key stands for, if it is one.  A key that
is empty, has a leading zero or more digits than any long is not. -/
def handleNumericStr (key : Bytes) : Option Int64 :=
  let neg : Bool := key.head? = some 45
  let tmp := if neg then key.tail else key
  if tmp = [] ∨ (tmp.head? = some 48 ∧ 1 < key.length) ∨ 19 < tmp.length then none
  else
    match tmp.mapM digitVal with
    | none => none
    | some ds =>
      let idx := evalFrom 10 0 ds
      if neg then (if idx ≤ 2 ^ 63 then some (Int64.ofInt (-idx)) else none)
      else (if idx < 2 ^ 63 then some (Int64.ofInt idx) else none)

theorem map_digitByte_of_mapM : ∀ {s : Bytes} {ds : List Nat}, s.mapM digitVal = some ds →
    ds.map digitByte = s ∧ (∀ d ∈ ds, d < 10) ∧ ds.length = s.length
  | [], ds, h => by
    simp at h
    subst h
    simp
  | c :: cs, ds, h => by
    rw [List.mapM_cons] at h
    cases hc : digitVal c with
    | none => simp [hc] at h
    | some d =>
      cases ht : cs.mapM digitVal with
      | none => simp [hc, ht] at h
      | some ds' =>
        simp [hc, ht] at h
        subst h
        obtain ⟨hmap, hlt, hlen⟩ := map_digitByte_of_mapM ht
        obtain ⟨hd, hdc⟩ := digitVal_eq_some hc
        refine ⟨by simp [hmap, hdc], ?_, by simp [hlen]⟩
        rw [List.forall_mem_cons]
        exact ⟨hd, hlt⟩

/-- Digits without a leading zero are the decimal form of their value. -/
theorem decimal_evalFrom {s : Bytes} {ds : List Nat} (hds : s.mapM digitVal = some ds)
    (hne : s ≠ []) (hlen : s.length ≤ 20) (hzero : s.head? = some 48 → s.length ≤ 1) :
    decimal (evalFrom 10 0 ds) = s := by
  obtain ⟨hmap, hlt, hlenDs⟩ := map_digitByte_of_mapM hds
  have hneDs : ds ≠ [] := by
    rintro rfl
    exact hne hmap.symm
  have hcan : Canonical 10 ds := by
    refine ⟨hneDs, hlt, fun h0 => ?_⟩
    have hhead : s.head? = some 48 := by
      rw [← hmap, List.head?_map, h0]
      rfl
    have := hzero hhead
    have := List.length_pos_iff.mpr hneDs
    omega
  rw [decimal, emit_evalFrom (by omega) hcan (by omega), List.append_nil, hmap]

/-- Digits of the value zero begin with a zero. -/
theorem head_of_evalFrom_zero {s : Bytes} {ds : List Nat} (hds : s.mapM digitVal = some ds)
    (hne : s ≠ []) (h : evalFrom 10 0 ds = 0) : s.head? = some 48 := by
  obtain ⟨hmap, -, -⟩ := map_digitByte_of_mapM hds
  cases ds with
  | nil => exact absurd hmap.symm hne
  | cons d ds =>
    have hd : d = 0 := (evalFrom_zero_eq_zero (b := 10) (by omega)).mp h d (by simp)
    rw [← hmap, hd]
    rfl

theorem printLong_ofNat {n : Nat} (hn : n < 2 ^ 63) : printLong (Int64.ofNat n) = decimal n := by
  have htoInt : (Int64.ofNat n).toInt = n := Int64.toInt_ofNat_of_lt hn
  rw [printLong, htoInt, if_neg (by omega)]
  rfl

theorem printLong_neg {n : Nat} (hpos : 0 < n) (hn : n ≤ 2 ^ 63) :
    printLong (Int64.ofInt (-n)) = 45 :: decimal n := by
  have htoInt : (Int64.ofInt (-(n : Int))).toInt = -(n : Int) :=
    Int64.toInt_ofInt_of_le (by omega) (by omega)
  rw [printLong, htoInt, if_pos (by omega), Int.natAbs_neg]
  rfl

/-- **Only printed longs are integer keys**: `"10"` is one, `"010"`, `"+1"`, `"-0"` are not. -/
theorem printLong_of_handleNumericStr {key : Bytes} {n : Int64}
    (h : handleNumericStr key = some n) : key = printLong n := by
  unfold handleNumericStr at h
  extract_lets neg tmp at h
  split at h
  · cases h
  rename_i hshape
  push Not at hshape
  obtain ⟨hne, hzero, hlen⟩ := hshape
  split at h
  · cases h
  rename_i ds hds
  have htmp : tmp.length ≤ key.length := by
    simp only [tmp]
    split <;> simp
  have hdecimal : decimal (evalFrom 10 0 ds) = tmp :=
    decimal_evalFrom hds hne (by omega) fun h0 => htmp.trans (hzero h0)
  extract_lets idx at h
  cases hneg : neg with
  | true =>
    simp only [hneg, if_true] at h
    split at h
    · rename_i hidx
      cases h
      have hkey : key = 45 :: tmp := by
        simp only [neg, decide_eq_true_eq] at hneg
        cases key with
        | nil => simp at hneg
        | cons c cs => simp at hneg; simp [tmp, neg, hneg]
      -- a negative number has a non-zero magnitude, since "-0" is refused
      have hpos : 0 < idx := by
        apply Nat.pos_of_ne_zero
        intro h0
        have hone := hzero (head_of_evalFrom_zero hds hne h0)
        rw [hkey, List.length_cons] at hone
        have := List.length_pos_iff.mpr hne
        omega
      rw [printLong_neg hpos hidx, hdecimal, ← hkey]
    · cases h
  | false =>
    simp only [hneg, Bool.false_eq_true, if_false] at h
    split at h
    · rename_i hidx
      cases h
      have hkey : key = tmp := by simp [tmp, hneg]
      rw [Int64.ofInt_eq_ofNat, printLong_ofNat hidx, hdecimal, ← hkey]
    · cases h

/-- The key that a symbol-table access (`zend_symtable_*`, `$array[$key]`) uses for a string. -/
def symtableKey (s : Bytes) : ArrayKey :=
  match handleNumericStr s with
  | some i => .index i
  | none => .str s

/-- `add_assoc_zval_ex` and its relatives -/
def addAssoc (elems : List (ArrayKey × Zval)) (key : Bytes) (value : Zval) :
    List (ArrayKey × Zval) :=
  OrderedMap.update elems (symtableKey key) value

theorem symtableKey_injective {s t : Bytes} (h : symtableKey s = symtableKey t) : s = t := by
  unfold symtableKey at h
  cases hs : handleNumericStr s <;> cases ht : handleNumericStr t <;> simp [hs, ht] at h
  · exact h
  · subst h
    rw [printLong_of_handleNumericStr hs, printLong_of_handleNumericStr ht]

theorem nul_not_mem_decimal (n : Nat) : 0 ∉ decimal n :=
  fun h => absurd (isDigit_of_mem_decimal h) (by decide)

/-- A key that still has its terminator stays a string. -/
theorem symtableKey_append_nul (s : Bytes) : symtableKey (s ++ [0]) = .str (s ++ [0]) := by
  unfold symtableKey
  cases h : handleNumericStr (s ++ [0]) with
  | none => rfl
  | some n =>
    have hmem : (0 : UInt8) ∈ printLong n := by
      rw [← printLong_of_handleNumericStr h]
      simp
    have hdigits := nul_not_mem_decimal n.toInt.natAbs
    unfold printLong at hmem
    split at hmem
    · rcases List.mem_cons.mp hmem with habs | hmem
      · cases habs
      · exact absurd hmem hdigits
    · exact absurd hmem hdigits

example : symtableKey (ascii "10") = .index 10 ∧ symtableKey (ascii "-0") = .str (ascii "-0") := by
  decide

end PhpCouchbase
