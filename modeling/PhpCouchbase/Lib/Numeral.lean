import Mathlib.Data.List.Induction
import Mathlib.Tactic.Ring

/-!
# Positional numerals written by a digit loop

C code prints an unsigned number by a `do … while` loop that pushes `n % b` in front of a
fixed buffer and divides, and reads it back by `acc * b + d`.  This module relates the two for
any base, and names nothing of the programs that use it.

* `evalFrom_emit` — reading what the loop wrote gives the number back, when the buffer has room.
* `emit_evalFrom` — a digit list without leading zero is exactly what the loop writes for its
  value, so the loop's output is the only such spelling of the number.
* `emit_ne_nil`, `length_emit_le`, `lt_of_mem_emit` — the shape of the output.
* `emit_evalFrom_strip` — what the loop writes for the value of any digit list is the list without its
  leading zeros.
-/

set_option autoImplicit false

namespace Numeral

variable {b : Nat}

/-- Read digits, most significant first, on top of the value `acc`. -/
def evalFrom (b acc : Nat) (ds : List Nat) : Nat := ds.foldl (fun a d => a * b + d) acc

/-- The printing loop: at most `room` digits are pushed in front of `acc`, at least one. -/
def emit (b : Nat) : Nat → Nat → List Nat → List Nat
  | 0, _, acc => acc
  | room + 1, n, acc => if n / b = 0 then n % b :: acc else emit b room (n / b) (n % b :: acc)

@[simp] theorem evalFrom_nil (acc : Nat) : evalFrom b acc [] = acc := rfl

@[simp] theorem evalFrom_cons (acc d : Nat) (ds : List Nat) :
    evalFrom b acc (d :: ds) = evalFrom b (acc * b + d) ds := rfl

theorem evalFrom_append (acc : Nat) (xs ys : List Nat) :
    evalFrom b acc (xs ++ ys) = evalFrom b (evalFrom b acc xs) ys := by
  simp [evalFrom, List.foldl_append]

theorem le_evalFrom (hb : 0 < b) : ∀ (ds : List Nat) (acc : Nat), acc ≤ evalFrom b acc ds
  | [], _ => Nat.le_refl _
  | d :: ds, acc => by
    have hstep : acc ≤ acc * b + d := Nat.le_add_right_of_le (Nat.le_mul_of_pos_right acc hb)
    exact Nat.le_trans hstep (le_evalFrom hb ds _)

/-- Appending digits to a positive number in a base above one makes it larger. -/
theorem lt_evalFrom (hb : 1 < b) {acc : Nat} (hacc : 0 < acc) {ds : List Nat} (hds : ds ≠ []) :
    acc < evalFrom b acc ds := by
  cases ds with
  | nil => exact absurd rfl hds
  | cons d ds =>
    have h2 : acc < acc * b := by
      calc acc < acc * 2 := by omega
        _ ≤ acc * b := Nat.mul_le_mul_left acc hb
    have h3 := le_evalFrom (show 0 < b by omega) ds (acc * b + d)
    rw [evalFrom_cons]
    omega

theorem evalFrom_zero_eq_zero (hb : 0 < b) :
    ∀ {ds : List Nat}, evalFrom b 0 ds = 0 ↔ ∀ d ∈ ds, d = 0
  | [] => by simp
  | d :: ds => by
    rw [evalFrom_cons, Nat.zero_mul, Nat.zero_add, List.forall_mem_cons]
    constructor
    · intro h
      have hd : d = 0 := Nat.le_zero.mp (h ▸ le_evalFrom hb ds d)
      subst hd
      exact ⟨rfl, (evalFrom_zero_eq_zero hb).mp h⟩
    · rintro ⟨rfl, h⟩
      exact (evalFrom_zero_eq_zero hb).mpr h

/-! ## Reading back what the loop wrote -/

/-- **The digits written for `n` read back as `n`**, in front of whatever stood in the buffer. -/
theorem evalFrom_emit (hb : 1 < b) : ∀ {room n : Nat} {acc : List Nat}, 0 < room → n < b ^ room →
    evalFrom b 0 (emit b room n acc) = evalFrom b n acc
  | room + 1, n, acc, _, hn => by
    have hdm : n / b * b + n % b = n := by rw [Nat.mul_comm]; exact Nat.div_add_mod n b
    unfold emit
    split
    · rename_i hz
      rw [hz] at hdm
      simp only [evalFrom_cons, Nat.zero_mul, Nat.zero_add]
      congr 1
      omega
    · rename_i hz
      have hroom : 0 < room := by
        rcases Nat.eq_zero_or_pos room with rfl | h
        · exact absurd (Nat.div_eq_of_lt (by simpa using hn)) hz
        · exact h
      have hlt : n / b < b ^ room := by
        apply Nat.div_lt_of_lt_mul
        rwa [← Nat.pow_succ']
      rw [evalFrom_emit hb hroom hlt, evalFrom_cons, hdm]

/-! ## The shape of the output -/

theorem emit_suffix : ∀ (room n : Nat) (acc : List Nat), ∃ ds, emit b room n acc = ds ++ acc
  | 0, _, acc => ⟨[], rfl⟩
  | room + 1, n, acc => by
    unfold emit
    split
    · exact ⟨[n % b], rfl⟩
    · obtain ⟨ds, h⟩ := emit_suffix room (n / b) (n % b :: acc)
      exact ⟨ds ++ [n % b], by rw [h]; simp⟩

theorem emit_ne_nil {room : Nat} (hroom : 0 < room) (n : Nat) (acc : List Nat) :
    emit b room n acc ≠ [] := by
  cases room with
  | zero => omega
  | succ room =>
    unfold emit
    split
    · exact List.cons_ne_nil _ _
    · obtain ⟨ds, h⟩ := emit_suffix (b := b) room (n / b) (n % b :: acc)
      rw [h]
      simp

theorem length_emit_le : ∀ (room n : Nat) (acc : List Nat),
    (emit b room n acc).length ≤ room + acc.length
  | 0, _, _ => by simp [emit]
  | room + 1, n, acc => by
    unfold emit
    split
    · show acc.length + 1 ≤ room + 1 + acc.length
      omega
    · have hrec : (emit b room (n / b) (n % b :: acc)).length ≤ room + (acc.length + 1) :=
        length_emit_le room (n / b) (n % b :: acc)
      omega

theorem lt_of_mem_emit (hb : 0 < b) : ∀ {room n : Nat} {acc : List Nat},
    (∀ d ∈ acc, d < b) → ∀ d ∈ emit b room n acc, d < b
  | 0, _, _, hacc => hacc
  | room + 1, n, acc, hacc => by
    have hcons : ∀ d ∈ n % b :: acc, d < b := by
      rw [List.forall_mem_cons]
      exact ⟨Nat.mod_lt n hb, hacc⟩
    unfold emit
    split
    · exact hcons
    · exact lt_of_mem_emit hb hcons

/-- A digit list as the loop writes it: not empty, digits below the base, no leading zero. -/
structure Canonical (b : Nat) (ds : List Nat) : Prop where
  ne_nil : ds ≠ []
  digit_lt : ∀ d ∈ ds, d < b
  no_leading_zero : ds.head? = some 0 → ds.length = 1

/-- **Canonical spellings are unique**: the loop writes exactly the canonical digit list. -/
theorem emit_evalFrom (hb : 1 < b) {ds : List Nat} (hds : Canonical b ds) :
    ∀ {room : Nat} {acc : List Nat}, ds.length ≤ room →
      emit b room (evalFrom b 0 ds) acc = ds ++ acc := by
  obtain ⟨hne, hlt, hlead⟩ := hds
  induction ds using List.reverseRecOn with
  | nil => exact absurd rfl hne
  | append_singleton xs d ih =>
    intro room acc hroom
    have hd : d < b := hlt d (by simp)
    obtain ⟨room, rfl⟩ : ∃ r, room = r + 1 := ⟨room - 1, by simp at hroom; omega⟩
    have hval : evalFrom b 0 (xs ++ [d]) = evalFrom b 0 xs * b + d := by
      rw [evalFrom_append]; rfl
    have hdiv : (evalFrom b 0 xs * b + d) / b = evalFrom b 0 xs := by
      rw [Nat.add_comm, Nat.add_mul_div_right _ _ (by omega), Nat.div_eq_of_lt hd, Nat.zero_add]
    have hmod : (evalFrom b 0 xs * b + d) % b = d := by
      rw [Nat.add_comm, Nat.add_mul_mod_self_right, Nat.mod_eq_of_lt hd]
    unfold emit
    rw [hval, hdiv, hmod]
    cases xs with
    | nil => simp
    | cons x xs =>
      -- a non-zero leading digit keeps the loop running
      have hx : x ≠ 0 := by
        rintro rfl
        have := hlead (by simp)
        simp at this
      have hpos : evalFrom b 0 (x :: xs) ≠ 0 := by
        rw [Ne, evalFrom_zero_eq_zero (by omega)]
        intro h
        exact hx (h x (by simp))
      rw [if_neg hpos, ih (by simp) (fun e he => hlt e (by simp at he ⊢; tauto))
        (by intro h; simp at h; exact absurd h hx) (by simp at hroom ⊢; omega)]
      simp

/-! ## Leading zeros -/

/-- A digit list without its leading zeros; a zero when nothing is left. -/
def strip (ds : List Nat) : List Nat :=
  let rest := ds.dropWhile (· = 0)
  if rest = [] then [0] else rest

theorem evalFrom_dropWhile (ds : List Nat) :
    evalFrom b 0 (ds.dropWhile (· = 0)) = evalFrom b 0 ds := by
  induction ds with
  | nil => rfl
  | cons d ds ih =>
    rw [List.dropWhile_cons]
    by_cases hd : d = 0
    · rw [if_pos (by simpa using hd), ih, hd, evalFrom_cons, Nat.zero_mul, Nat.zero_add]
    · rw [if_neg (by simpa using hd)]

theorem evalFrom_strip (ds : List Nat) : evalFrom b 0 (strip ds) = evalFrom b 0 ds := by
  rw [← evalFrom_dropWhile ds, strip]
  split
  · rename_i hnil
    rw [hnil]
    simp
  · rfl

theorem canonical_strip (hb : 0 < b) {ds : List Nat} (hlt : ∀ d ∈ ds, d < b) :
    Canonical b (strip ds) := by
  rw [strip]
  split
  · exact ⟨List.cons_ne_nil _ _, by simpa using hb, fun _ => rfl⟩
  · rename_i hne
    refine ⟨hne, fun d hd => hlt d ((List.dropWhile_sublist _).subset hd), fun hhead => ?_⟩
    have hzero := List.head_dropWhile_not (fun d => decide (d = 0)) hne
    rw [List.head?_eq_some_head hne, Option.some.injEq] at hhead
    rw [hhead] at hzero
    cases hzero

/-- A leading digit that is not zero bounds the value from below. -/
theorem pow_le_evalFrom {acc : Nat} (hacc : 0 < acc) (ds : List Nat) :
    b ^ ds.length ≤ evalFrom b acc ds := by
  induction ds using List.reverseRecOn with
  | nil => exact hacc
  | append_singleton ds d ih =>
    have hval : evalFrom b acc (ds ++ [d]) = evalFrom b acc ds * b + d := by
      rw [evalFrom_append]
      rfl
    rw [List.length_append, List.length_singleton, Nat.pow_succ, hval]
    exact Nat.le_add_right_of_le (Nat.mul_le_mul_right b ih)

/-- A canonical list has no more digits than its value needs. -/
theorem Canonical.length_le (hb : 1 < b) {ds : List Nat} (h : Canonical b ds) {room : Nat}
    (hroom : 0 < room) (hval : evalFrom b 0 ds < b ^ room) : ds.length ≤ room := by
  cases ds with
  | nil => exact absurd rfl h.ne_nil
  | cons d ds =>
    rcases Nat.eq_zero_or_pos d with rfl | hd
    · rw [h.no_leading_zero rfl]
      exact hroom
    · rw [evalFrom_cons, Nat.zero_mul, Nat.zero_add] at hval
      have hpow := Nat.lt_of_le_of_lt (pow_le_evalFrom hd ds) hval
      exact (Nat.pow_lt_pow_iff_right hb).mp hpow

/-- **The loop writes a number without leading zeros**, whatever the digits it was read from. -/
theorem emit_evalFrom_strip (hb : 1 < b) {ds : List Nat} (hlt : ∀ d ∈ ds, d < b) {room : Nat}
    (hroom : 0 < room) (hval : evalFrom b 0 ds < b ^ room) :
    emit b room (evalFrom b 0 ds) [] = strip ds := by
  have hcanonical := canonical_strip (by omega) hlt
  have hstrip := evalFrom_strip (b := b) ds
  have hlen := hcanonical.length_le hb hroom (hstrip ▸ hval)
  rw [← hstrip, emit_evalFrom hb hcanonical hlen, List.append_nil]

/-- Digits at the end change nothing when there are none, or when all digits are zero. -/
theorem evalFrom_append_eq_iff (hb : 1 < b) (xs ys : List Nat) :
    evalFrom b 0 (xs ++ ys) = evalFrom b 0 xs ↔ ys = [] ∨ ∀ d ∈ xs ++ ys, d = 0 := by
  have hzero := @evalFrom_zero_eq_zero b (by omega) (xs ++ ys)
  constructor
  · intro h
    rcases Nat.eq_zero_or_pos (evalFrom b 0 xs) with hx | hx
    · exact Or.inr (hzero.mp (h.trans hx))
    · refine Or.inl (by_contra fun hne => ?_)
      have hlt := lt_evalFrom hb hx hne
      rw [evalFrom_append] at h
      omega
  · rintro (rfl | h)
    · rw [List.append_nil]
    · rw [hzero.mpr h, eq_comm, evalFrom_zero_eq_zero (by omega)]
      exact fun d hd => h d (List.mem_append_left ys hd)

end Numeral
