import PhpCouchbase.LongText

/-!
# How far `strtol` reads

`strtol`, with which `couchbase.c` reads a long, has no length: it skips spaces and a sign and reads
digits until a byte that is none.

* `strtol_eq` — the sign and the digits, in one equation.
* `strtol_ok_iff` — the scan stays inside a text exactly when the text has a byte that stops it.
* `strtol_determined_iff` — the memory behind a text does not matter exactly when the text stops the
  scan or the number is too large in any case.
-/

set_option autoImplicit false

namespace PhpCouchbase

open Numeral

/-- What is left after the spaces and the sign, and whether the sign is a minus. -/
def numeral (mem : Bytes) : Bool × Bytes :=
  match mem.dropWhile isSpace with
  | [] => (false, [])
  | c :: cs => if c = 45 then (true, cs) else if c = 43 then (false, cs) else (false, c :: cs)

/-- The number of a sign and a magnitude. -/
def signed (neg : Bool) (n : Nat) : Int := if neg then -(n : Int) else n

@[simp] theorem signed_true (n : Nat) : signed true n = -(n : Int) := rfl

@[simp] theorem signed_false (n : Nat) : signed false n = n := rfl

theorem strtol_eq (mem : Bytes) :
    strtol mem =
      (scanDigits 0 (numeral mem).2).map fun n => saturate (signed (numeral mem).1 n) := by
  unfold strtol numeral
  cases mem.dropWhile isSpace with
  | nil => rfl
  | cons c cs =>
    by_cases hminus : c = 45
    · simp only [if_pos hminus]
      cases scanDigits 0 cs <;> rfl
    · by_cases hplus : c = 43
      · simp only [if_neg hminus, if_pos hplus]
        cases scanDigits 0 cs <;> rfl
      · simp only [if_neg hminus, if_neg hplus]
        cases scanDigits 0 (c :: cs) <;> rfl

/-- The text has a byte behind its spaces, its sign and its digits. -/
def StopsInside (text : Bytes) : Prop := (numeral text).2.dropWhile isDigit ≠ []

instance (text : Bytes) : Decidable (StopsInside text) := by
  unfold StopsInside
  infer_instance

/-- **The scan stays inside a text** exactly when the text stops it. -/
theorem strtol_ok_iff (text : Bytes) : (∃ n, strtol text = .ok n) ↔ StopsInside text := by
  rw [strtol_eq, scanDigits_eq]
  unfold StopsInside
  by_cases h : (numeral text).2.dropWhile isDigit = []
  · simp [h, Except.map]
  · simp [h, Except.map]

/-! ## Memory behind the text -/

theorem dropWhile_append_of_ne_nil {p : UInt8 → Bool} {s : Bytes} (h : s.dropWhile p ≠ [])
    (rest : Bytes) : (s ++ rest).dropWhile p = s.dropWhile p ++ rest := by
  rw [List.dropWhile_append]
  simp [h]

theorem numeral_append {text : Bytes} (h : text.dropWhile isSpace ≠ []) (rest : Bytes) :
    numeral (text ++ rest) = ((numeral text).1, (numeral text).2 ++ rest) := by
  unfold numeral
  rw [dropWhile_append_of_ne_nil h]
  obtain ⟨c, cs, hc⟩ := List.exists_cons_of_ne_nil h
  rw [hc, List.cons_append]
  dsimp only
  by_cases hminus : c = 45
  · simp [hminus]
  · by_cases hplus : c = 43
    · simp [hplus]
    · simp [hminus, hplus]

theorem numeral_append_of_spaces {text : Bytes} (h : text.dropWhile isSpace = []) (rest : Bytes) :
    numeral (text ++ rest) = numeral rest := by
  unfold numeral
  rw [List.dropWhile_append, h]
  simp

theorem StopsInside.spaces {text : Bytes} (h : StopsInside text) :
    text.dropWhile isSpace ≠ [] := by
  intro hnil
  apply h
  rw [numeral, hnil]
  rfl

theorem takeWhile_append_of_ne_nil {p : UInt8 → Bool} {s : Bytes} (h : s.dropWhile p ≠ [])
    (rest : Bytes) : (s ++ rest).takeWhile p = s.takeWhile p := by
  rw [List.takeWhile_append, if_neg]
  intro hlen
  have hsplit := congrArg List.length (List.takeWhile_append_dropWhile (p := p) (l := s))
  rw [List.length_append, hlen] at hsplit
  exact h (List.length_eq_zero_iff.mp (by omega))

/-- A text that stops the scan is read in the same way whatever is behind it. -/
theorem strtol_append_of_stops {text : Bytes} (h : StopsInside text) (rest : Bytes) :
    strtol (text ++ rest) = strtol text := by
  have hdrop := dropWhile_append_of_ne_nil h rest
  have hrun : digitRun ((numeral text).2 ++ rest) = digitRun (numeral text).2 := by
    unfold digitRun
    rw [takeWhile_append_of_ne_nil h]
  have hne : (numeral text).2.dropWhile isDigit ++ rest ≠ [] :=
    fun habs => h (List.append_eq_nil_iff.mp habs).1
  rw [strtol_eq, strtol_eq, numeral_append h.spaces, scanDigits_eq, scanDigits_eq, hdrop, hrun,
    if_neg hne, if_neg h]

/-- A text of spaces, a sign and digits whose number does not fit. -/
def Saturated (text : Bytes) : Prop :=
  text.dropWhile isSpace ≠ [] ∧ ¬ StopsInside text ∧
    2 ^ 63 ≤ evalFrom 10 0 (digitRun (numeral text).2) + if (numeral text).1 then 0 else 1

/-- A terminator in the memory stops every scan. -/
theorem dropWhile_isDigit_of_nul {rest : Bytes} (h : 0 ∈ rest) : rest.dropWhile isDigit ≠ [] := by
  rw [ne_eq, List.dropWhile_eq_nil_iff]
  intro hall
  exact absurd (hall 0 h) (by decide)

theorem isDigit_all_of_not_stops {text : Bytes} (h : ¬ StopsInside text) :
    ∀ c ∈ (numeral text).2, isDigit c = true := by
  unfold StopsInside at h
  rwa [ne_eq, not_not, List.dropWhile_eq_nil_iff] at h

/-- Behind digits the scan goes on. -/
theorem strtol_append_of_runs {text : Bytes} (hspace : text.dropWhile isSpace ≠ [])
    (h : ¬ StopsInside text) {rest : Bytes} (hnul : 0 ∈ rest) :
    strtol (text ++ rest) = .ok (saturate (signed (numeral text).1
      (evalFrom 10 (evalFrom 10 0 (digitRun (numeral text).2)) (digitRun rest)))) := by
  have hall := isDigit_all_of_not_stops h
  have hdrop : ((numeral text).2 ++ rest).dropWhile isDigit = rest.dropWhile isDigit := by
    rw [List.dropWhile_append_of_pos hall]
  have hrun : digitRun ((numeral text).2 ++ rest) =
      digitRun (numeral text).2 ++ digitRun rest := by
    unfold digitRun
    rw [List.takeWhile_append_of_pos hall, List.filterMap_append,
      List.takeWhile_eq_self_iff.mpr hall]
  rw [strtol_eq, numeral_append hspace, scanDigits_eq, hdrop,
    if_neg (dropWhile_isDigit_of_nul hnul), hrun, evalFrom_append]
  rfl

/-- A number that does not fit stays the same with more digits. -/
theorem saturate_signed_of_le {neg : Bool} {m n : Nat} (hm : 2 ^ 63 ≤ m + if neg then 0 else 1)
    (h : m ≤ n) : saturate (signed neg n) = saturate (signed neg m) := by
  have hmin : Int64.ofInt (-2 ^ 63) = Int64.minValue := by decide
  have hmax : Int64.ofInt (2 ^ 63 - 1) = Int64.maxValue := by decide
  cases neg with
  | true =>
    have hall : ∀ k : Nat, 2 ^ 63 ≤ k → saturate (-(k : Int)) = Int64.minValue := by
      intro k hk
      unfold saturate
      split
      · rfl
      · rw [if_neg (by omega), show -(k : Int) = -2 ^ 63 by omega, hmin]
    simp only [if_true] at hm
    simp only [signed, if_true]
    rw [hall n (by omega), hall m (by omega)]
  | false =>
    have hall : ∀ k : Nat, 2 ^ 63 ≤ k + 1 → saturate (k : Int) = Int64.maxValue := by
      intro k hk
      unfold saturate
      rw [if_neg (by omega)]
      split
      · rfl
      · rw [show (k : Int) = 2 ^ 63 - 1 by omega, hmax]
    simp only [signed, Bool.false_eq_true, if_false] at hm ⊢
    rw [hall n (by omega), hall m (by omega)]

/-- A number that fits changes with one more digit 9. -/
theorem saturate_signed_ne {neg : Bool} {m : Nat} (hm : m + (if neg then 0 else 1) < 2 ^ 63) :
    saturate (signed neg (m * 10 + 9)) ≠ saturate (signed neg m) := by
  have hfits : (saturate (signed neg m)).toInt = signed neg m := by
    have hrange : -2 ^ 63 ≤ signed neg m ∧ signed neg m < 2 ^ 63 := by
      cases neg with
      | true =>
        simp only [if_true, signed_true] at hm ⊢
        omega
      | false =>
        simp only [Bool.false_eq_true, if_false, signed_false] at hm ⊢
        omega
    unfold saturate
    rw [if_neg (by omega), if_neg (by omega)]
    exact Int64.toInt_ofInt_of_le (by omega) (by omega)
  intro heq
  have hmin : Int64.minValue.toInt = -2 ^ 63 := Int64.toInt_minValue
  have hmax : Int64.maxValue.toInt = 2 ^ 63 - 1 := Int64.toInt_maxValue
  rw [← heq] at hfits
  rcases saturate_eq rfl with h | ⟨h, heq'⟩ | ⟨h, heq'⟩
  · rw [← h] at hfits
    cases neg with
    | true =>
      simp only [signed_true] at hfits
      omega
    | false =>
      simp only [signed_false] at hfits
      omega
  · -- below the least long: only a negative number can be there
    rw [heq', hmin] at hfits
    cases neg with
    | true =>
      simp only [if_true, signed_true] at hm hfits
      omega
    | false =>
      simp only [signed_false] at hfits
      omega
  · rw [heq', hmax] at hfits
    cases neg with
    | true =>
      simp only [signed_true] at hfits
      omega
    | false =>
      simp only [Bool.false_eq_true, if_false, signed_false] at hm hfits
      omega

/-- **The memory behind a text does not matter** exactly when the text stops the scan, or its number
does not fit in any case. -/
theorem strtol_determined_iff (text : Bytes) :
    (∃ n, ∀ rest, 0 ∈ rest → strtol (text ++ rest) = .ok n) ↔
      StopsInside text ∨ Saturated text := by
  constructor
  · rintro ⟨n, hn⟩
    by_contra hnot
    obtain ⟨hstop, hsat⟩ := not_or.mp hnot
    have hzero := hn [0] (by decide)
    have hnine := hn [57, 0] (by decide)
    by_cases hspace : text.dropWhile isSpace = []
    · -- only spaces: the number is read from the memory behind
      rw [strtol_eq, numeral_append_of_spaces hspace, ← strtol_eq] at hzero hnine
      have h0 : strtol [0] = .ok 0 := by decide
      have h9 : strtol [57, 0] = .ok 9 := by decide
      rw [h0] at hzero
      rw [h9, ← hzero] at hnine
      exact absurd hnine (by decide)
    · rw [strtol_append_of_runs hspace hstop (by decide)] at hzero hnine
      have hrun0 : digitRun [0] = [] := by decide
      have hrun9 : digitRun [57, 0] = [9] := by decide
      rw [hrun0, evalFrom_nil] at hzero
      rw [hrun9, evalFrom_cons, evalFrom_nil, ← hzero] at hnine
      refine saturate_signed_ne ?_ (Except.ok.inj hnine)
      by_contra hle
      exact hsat ⟨hspace, hstop, not_lt.mp hle⟩
  · rintro (hstop | ⟨hspace, hstop, hbig⟩)
    · obtain ⟨n, hn⟩ := (strtol_ok_iff text).mpr hstop
      exact ⟨n, fun rest _ => (strtol_append_of_stops hstop rest).trans hn⟩
    · refine ⟨saturate (signed (numeral text).1 (evalFrom 10 0 (digitRun (numeral text).2))), ?_⟩
      intro rest hnul
      rw [strtol_append_of_runs hspace hstop hnul]
      congr 1
      exact saturate_signed_of_le hbig (le_evalFrom (by omega) _ _)

/-- A text with its terminator stops the scan. -/
theorem stopsInside_append_nul (text rest : Bytes) : StopsInside (text ++ 0 :: rest) := by
  have hnul : (0 : UInt8) ∈ 0 :: rest := List.mem_cons_self
  by_cases hspace : text.dropWhile isSpace = []
  · unfold StopsInside
    rw [numeral_append_of_spaces hspace]
    simp [numeral, isSpace, isDigit]
  · unfold StopsInside
    rw [numeral_append hspace, ne_eq, List.dropWhile_eq_nil_iff]
    intro hall
    exact absurd (hall 0 (List.mem_append_right _ hnul)) (by decide)

/-- What is behind the terminator is not read. -/
theorem strtol_append_nul (text : Bytes) :
    ∃ n, ∀ rest, strtol (text ++ 0 :: rest) = .ok n := by
  obtain ⟨n, hn⟩ := (strtol_ok_iff (text ++ [0])).mpr (stopsInside_append_nul text [])
  refine ⟨n, ?_⟩
  intro rest
  have hstop := stopsInside_append_nul text []
  rw [← hn, ← strtol_append_of_stops hstop rest]
  simp

end PhpCouchbase
