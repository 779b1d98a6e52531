import Mathlib.Data.List.Basic
import PhpCouchbase.Lib.PathSegment

/-!
# Forms in URLs

A form is a list of names with values.  In a URL the fields stand one after another with an ampersand
between them, each as its name, an equals sign and its value, and what is no letter, digit, dot,
hyphen or underscore is written as a plus or as a percent sign with two digits.

* `decode_encode` — every text comes back.
* `parse_fields` — a receiver finds the fields that were written, in their order, and no others.
-/

set_option autoImplicit false

namespace FormUrl

open PathSegment (hexValue)

/-! ## Texts -/

/-- Letters, digits, dot, hyphen and underscore. -/
def isPlain (c : UInt8) : Bool :=
  decide (65 ≤ c.toNat ∧ c.toNat ≤ 90) || decide (97 ≤ c.toNat ∧ c.toNat ≤ 122) ||
    decide (48 ≤ c.toNat ∧ c.toNat ≤ 57) || c = 45 || c = 46 || c = 95

def hexDigit (n : Nat) : UInt8 := UInt8.ofNat (if n < 10 then 48 + n else 55 + n)

def encodeByte (c : UInt8) : List UInt8 :=
  if c = 32 then [43]
  else if isPlain c then [c]
  else [37, hexDigit (c.toNat / 16), hexDigit (c.toNat % 16)]

def encode (s : List UInt8) : List UInt8 := s.flatMap encodeByte

/-- A percent sign without two digits stands for itself. -/
def decode : List UInt8 → List UInt8
  | [] => []
  | 37 :: hi :: lo :: rest =>
    match hexValue hi, hexValue lo with
    | some h, some l => UInt8.ofNat (16 * h + l) :: decode rest
    | _, _ => 37 :: decode (hi :: lo :: rest)
  | c :: rest => (if c = 43 then 32 else c) :: decode rest

theorem decode_cons_ne {c : UInt8} (h : c ≠ 37) (rest : List UInt8) :
    decode (c :: rest) = (if c = 43 then 32 else c) :: decode rest := by
  rw [decode]
  intro hi lo rest' heq _
  exact h heq

theorem hexValue_hexDigit : ∀ {n : Nat}, n < 16 → hexValue (hexDigit n) = some n := by decide

theorem isPlain_ne {c d : UInt8} (hc : isPlain c = true) (hd : isPlain d = false) : c ≠ d := by
  rintro rfl
  rw [hc] at hd
  cases hd

theorem decode_encodeByte (c : UInt8) (rest : List UInt8) :
    decode (encodeByte c ++ rest) = c :: decode rest := by
  unfold encodeByte
  split
  · rename_i h
    subst h
    exact decode_cons_ne (by decide) rest
  · split
    · rename_i hspace hplain
      rw [List.singleton_append, decode_cons_ne (isPlain_ne hplain (by decide)),
        if_neg (isPlain_ne hplain (by decide))]
    · have hlt := c.toNat_lt_size
      have hhi : hexValue (hexDigit (c.toNat / 16)) = some (c.toNat / 16) :=
        hexValue_hexDigit (by simp only [UInt8.size] at hlt; omega)
      have hlo : hexValue (hexDigit (c.toNat % 16)) = some (c.toNat % 16) :=
        hexValue_hexDigit (by omega)
      simp only [List.cons_append, List.nil_append, decode, hhi, hlo]
      rw [Nat.div_add_mod, UInt8.ofNat_toNat]

/-- **Every text comes back.** -/
theorem decode_encode (s : List UInt8) : decode (encode s) = s := by
  induction s with
  | nil => rfl
  | cons c s ih => rw [encode, List.flatMap_cons, decode_encodeByte, ← encode, ih]

theorem encode_append (s t : List UInt8) : encode (s ++ t) = encode s ++ encode t :=
  List.flatMap_append

/-- What an encoded text is made of. -/
theorem mem_encode {s : List UInt8} {c : UInt8} (h : c ∈ encode s) :
    isPlain c = true ∨ c = 43 ∨ c = 37 := by
  obtain ⟨b, -, hb⟩ := List.mem_flatMap.mp h
  have hdigit : ∀ n < 16, isPlain (hexDigit n) = true := by decide
  unfold encodeByte at hb
  split at hb
  · exact Or.inr (Or.inl (List.mem_singleton.mp hb))
  · split at hb
    · rename_i hplain
      rw [List.mem_singleton.mp hb]
      exact Or.inl hplain
    · have hlt := b.toNat_lt_size
      simp only [UInt8.size] at hlt
      rcases List.mem_cons.mp hb with rfl | hb
      · exact Or.inr (Or.inr rfl)
      · rcases List.mem_cons.mp hb with rfl | hb
        · exact Or.inl (hdigit _ (by omega))
        · rw [List.mem_singleton.mp hb]
          exact Or.inl (hdigit _ (by omega))

theorem ampersand_not_mem_encode (s : List UInt8) : 38 ∉ encode s := by
  intro h
  rcases mem_encode h with h | h | h <;> revert h <;> decide

theorem equals_not_mem_encode (s : List UInt8) : 61 ∉ encode s := by
  intro h
  rcases mem_encode h with h | h | h <;> revert h <;> decide

/-! ## Fields -/

/-- A field, from its name and the text that its value is written as. -/
def field (name text : List UInt8) : List UInt8 := encode name ++ 61 :: text

/-- The name ends at the first equals sign. -/
def readField (piece : List UInt8) : List UInt8 × List UInt8 :=
  (decode (piece.takeWhile (· ≠ 61)), decode ((piece.dropWhile (· ≠ 61)).drop 1))

/-- The fields of a form; empty pieces are none. -/
def parse (s : List UInt8) : List (List UInt8 × List UInt8) :=
  ((s.splitOn 38).filter (· ≠ [])).map readField

theorem readField_field (name text : List UInt8) :
    readField (field name text) = (name, decode text) := by
  have hname : ∀ c ∈ encode name, (c ≠ 61) = true := by
    intro c hc
    have hne : c ≠ 61 := fun h => equals_not_mem_encode name (h ▸ hc)
    simpa using hne
  have htake : (field name text).takeWhile (· ≠ 61) = encode name := by
    rw [field, List.takeWhile_append_of_pos (by simpa using hname)]
    simp
  have hdrop : (field name text).dropWhile (· ≠ 61) = 61 :: text := by
    rw [field, List.dropWhile_append_of_pos (by simpa using hname)]
    simp
  rw [readField, htake, hdrop, decode_encode, List.drop_succ_cons, List.drop_zero]

theorem field_injective {f g : List UInt8 × List UInt8} (h : field f.1 f.2 = field g.1 g.2) :
    f = g := by
  have hname : f.1 = g.1 := by
    have hread := congrArg (fun piece => (readField piece).1) h
    simpa [readField_field] using hread
  rw [field, field, hname] at h
  exact Prod.ext hname (List.cons.inj (List.append_cancel_left h)).2

theorem ampersand_not_mem_field {name text : List UInt8} (h : 38 ∉ text) : 38 ∉ field name text := by
  rw [field, List.mem_append, List.mem_cons]
  rintro (hmem | heq | hmem)
  · exact ampersand_not_mem_encode name hmem
  · cases heq
  · exact h hmem

/-- The pieces between the ampersands are the fields; there are none exactly in the empty form. -/
theorem pieces_form {fields : List (List UInt8 × List UInt8)} (h : ∀ f ∈ fields, 38 ∉ f.2) :
    (([38].intercalate (fields.map fun f => field f.1 f.2)).splitOn 38).filter (· ≠ []) =
      fields.map fun f => field f.1 f.2 := by
  by_cases hnil : fields = []
  · subst hnil
    decide
  · have hpieces : ∀ l ∈ fields.map (fun f => field f.1 f.2), 38 ∉ l := by
      intro l hl
      obtain ⟨f, hf, rfl⟩ := List.mem_map.mp hl
      exact ampersand_not_mem_field (h f hf)
    rw [List.splitOn_intercalate 38 hpieces (by rwa [Ne, List.map_eq_nil_iff]),
      List.filter_eq_self]
    intro l hl
    obtain ⟨f, -, rfl⟩ := List.mem_map.mp hl
    simp [field]

/-- **Different fields make different forms.** -/
theorem form_injective {fields fields' : List (List UInt8 × List UInt8)}
    (h : ∀ f ∈ fields, 38 ∉ f.2) (h' : ∀ f ∈ fields', 38 ∉ f.2)
    (heq : [38].intercalate (fields.map fun f => field f.1 f.2) =
      [38].intercalate (fields'.map fun f => field f.1 f.2)) : fields = fields' := by
  have hmap := pieces_form h
  rw [heq, pieces_form h'] at hmap
  exact (List.map_injective_iff.mpr (fun _ _ => field_injective) hmap).symm

/-- **The fields come back**, in their order, and there are no others. -/
theorem parse_fields (fields : List (List UInt8 × List UInt8)) (h : ∀ f ∈ fields, 38 ∉ f.2) :
    parse ([38].intercalate (fields.map fun f => field f.1 f.2)) =
      fields.map fun f => (f.1, decode f.2) := by
  rw [parse, pieces_form h, List.map_map]
  exact List.map_congr_left fun f _ => readField_field f.1 f.2

end FormUrl
