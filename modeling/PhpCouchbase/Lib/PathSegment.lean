import Mathlib.Data.List.Basic

/-!
# Path segments of URLs

A segment of a path is a text of literal characters and percent-encoded bytes.  Slashes, question
marks, hashes, spaces and control characters are none of its characters.  A segment that is one or two
dots is special: it names the directory or its parent.

* `mem_of_decode` — the characters of a segment.
* `length_of_decode` — decoding does not lengthen, and keeps the length only of literal segments.
* `decode_of_literal` — a literal segment decodes to itself.
-/

set_option autoImplicit false

namespace PathSegment

/-- A character that stands for itself in a segment: letters, digits and `-._~!$&'()*+,;=:@`. -/
def isLiteral (c : UInt8) : Bool :=
  decide (65 ≤ c.toNat ∧ c.toNat ≤ 90) || decide (97 ≤ c.toNat ∧ c.toNat ≤ 122) ||
    decide (38 ≤ c.toNat ∧ c.toNat ≤ 46) || decide (48 ≤ c.toNat ∧ c.toNat ≤ 59) ||
    c = 33 || c = 36 || c = 61 || c = 64 || c = 95 || c = 126

/-- The value of a hexadecimal digit. -/
def hexValue (c : UInt8) : Option Nat :=
  if 48 ≤ c.toNat ∧ c.toNat ≤ 57 then some (c.toNat - 48)
  else if 65 ≤ c.toNat ∧ c.toNat ≤ 70 then some (c.toNat - 55)
  else if 97 ≤ c.toNat ∧ c.toNat ≤ 102 then some (c.toNat - 87)
  else none

/-- The bytes that a segment stands for; `none` when it is no segment. -/
def decode : List UInt8 → Option (List UInt8)
  | [] => some []
  | 37 :: hi :: lo :: rest =>
    match hexValue hi, hexValue lo with
    | some h, some l => (decode rest).map (UInt8.ofNat (16 * h + l) :: ·)
    | _, _ => none
  | c :: rest => if isLiteral c then (decode rest).map (c :: ·) else none

/-- One or two dots. -/
def IsDots (s : List UInt8) : Prop := s = [46] ∨ s = [46, 46]

theorem isLiteral_of_hexValue {c : UInt8} {n : Nat} (h : hexValue c = some n) : isLiteral c = true := by
  unfold hexValue at h
  unfold isLiteral
  simp only [Bool.or_eq_true, decide_eq_true_eq]
  split_ifs at h <;> omega

theorem decode_literal {c : UInt8} (hc : isLiteral c = true) (rest : List UInt8) :
    decode (c :: rest) = (decode rest).map (c :: ·) := by
  have hne : c ≠ 37 := by
    rintro rfl
    cases hc
  rw [decode]
  · rw [if_pos hc]
  · intro hi lo rest' hc' _
    exact hne hc'

/-- The characters of a segment. -/
theorem mem_of_decode {s t : List UInt8} (h : decode s = some t) :
    ∀ c ∈ s, isLiteral c = true ∨ c = 37 := by
  induction s using decode.induct generalizing t with
  | case1 => simp
  | case2 hi lo rest vh vl hl hh ih =>
    simp only [decode, hh, hl, Option.map_eq_some_iff] at h
    obtain ⟨t', ht', -⟩ := h
    have hlit := ih ht'
    intro c hc
    simp only [List.mem_cons] at hc
    rcases hc with rfl | rfl | rfl | hc
    · exact Or.inr rfl
    · exact Or.inl (isLiteral_of_hexValue hh)
    · exact Or.inl (isLiteral_of_hexValue hl)
    · exact hlit c hc
  | case3 hi lo rest hnone =>
    rw [decode] at h
    split at h
    · rename_i vh vl hh hl
      exact absurd hl (hnone vh vl hh)
    · cases h
  | case4 c rest hne hc ih =>
    rw [decode_literal hc, Option.map_eq_some_iff] at h
    obtain ⟨t', ht', -⟩ := h
    exact List.forall_mem_cons.mpr ⟨Or.inl hc, ih ht'⟩
  | case5 c rest hne hc =>
    rw [decode, if_neg hc] at h
    · cases h
    · exact hne

/-- Decoding does not lengthen, and it keeps the length only of literal segments. -/
theorem length_of_decode {s t : List UInt8} (h : decode s = some t) :
    t.length ≤ s.length ∧ (s.length ≤ t.length → ∀ c ∈ s, isLiteral c = true) := by
  induction s using decode.induct generalizing t with
  | case1 =>
    cases h
    simp
  | case2 hi lo rest vh vl hl hh ih =>
    simp only [decode, hh, hl, Option.map_eq_some_iff] at h
    obtain ⟨t', ht', rfl⟩ := h
    have hlen := (ih ht').1
    simp only [List.length_cons]
    exact ⟨by omega, fun habs => by omega⟩
  | case3 hi lo rest hnone =>
    rw [decode] at h
    split at h
    · rename_i vh vl hh hl
      exact absurd hl (hnone vh vl hh)
    · cases h
  | case4 c rest hne hc ih =>
    rw [decode_literal hc, Option.map_eq_some_iff] at h
    obtain ⟨t', ht', rfl⟩ := h
    obtain ⟨hlen, hlit⟩ := ih ht'
    simp only [List.length_cons, Nat.add_le_add_iff_right]
    exact ⟨hlen, fun hle => List.forall_mem_cons.mpr ⟨hc, hlit hle⟩⟩
  | case5 c rest hne hc =>
    rw [decode, if_neg hc] at h
    · cases h
    · exact hne

theorem decode_of_literal {s : List UInt8} (h : ∀ c ∈ s, isLiteral c = true) : decode s = some s := by
  induction s with
  | nil => rfl
  | cons c s ih =>
    obtain ⟨hc, hs⟩ := List.forall_mem_cons.mp h
    rw [decode_literal hc, ih hs]
    rfl

end PathSegment
