import Mathlib.Data.List.Basic
import Mathlib.Data.List.DropRight

/-!
# JSON texts

The grammar of a JSON text that has no space between its tokens, over bytes.  Numbers are taken by their
bytes alone.

* `JsonText.head_gt`, `JsonText.last_gt` — a text neither starts nor ends with a space.
* `isList_iff` — a list with an item is told by its first byte and its length.
* `trim_prefix`, `trim_surrounded` — cutting away what surrounds a text.
-/

set_option autoImplicit false

namespace JsonText

/-- The bytes of a string between its quotes. -/
inductive StringBody : List UInt8 → Prop
  | nil : StringBody []
  | plain {c : UInt8} {s : List UInt8} (hc : 32 ≤ c ∧ c ≠ 34 ∧ c ≠ 92) (hs : StringBody s) :
      StringBody (c :: s)
  | escaped {c : UInt8} {s : List UInt8} (hs : StringBody s) : StringBody (92 :: c :: s)

/-- A digit, a sign, the point or the letter of an exponent. -/
def isNumberByte (c : UInt8) : Bool :=
  (48 ≤ c && c ≤ 57) || c = 43 || c = 45 || c = 46 || c = 69 || c = 101

/-- `"name":text` -/
def member (p : List UInt8 × List UInt8) : List UInt8 := 34 :: (p.1 ++ 34 :: 58 :: p.2)

/-- `[` and `]` around the items, with commas in between. -/
def brackets (items : List (List UInt8)) : List UInt8 := 91 :: ([44].intercalate items ++ [93])

/-- The texts. -/
inductive Text : List UInt8 → Prop
  | null : Text [110, 117, 108, 108]
  | true : Text [116, 114, 117, 101]
  | false : Text [102, 97, 108, 115, 101]
  | number {s : List UInt8} (hne : s ≠ []) (hs : ∀ c ∈ s, isNumberByte c = .true) : Text s
  | string {s : List UInt8} (hs : StringBody s) : Text (34 :: (s ++ [34]))
  | list {items : List (List UInt8)} (hitems : ∀ t ∈ items, Text t) : Text (brackets items)
  | object {members : List (List UInt8 × List UInt8)} (hnames : ∀ p ∈ members, StringBody p.1)
      (hvalues : ∀ p ∈ members, Text p.2) :
      Text (123 :: ([44].intercalate (members.map member) ++ [125]))

/-- A list with an item at least. -/
def IsList (text : List UInt8) : Prop :=
  ∃ items, items ≠ [] ∧ (∀ t ∈ items, Text t) ∧ text = brackets items

theorem isNumberByte_gt {c : UInt8} (h : isNumberByte c = true) : 32 < c ∧ c ≠ 91 := by
  simp only [isNumberByte, Bool.or_eq_true, Bool.and_eq_true, decide_eq_true_eq,
    UInt8.le_iff_toNat_le, ← UInt8.toNat_inj] at h
  rw [UInt8.lt_iff_toNat_lt, Ne, ← UInt8.toNat_inj]
  simp only [UInt8.reduceToNat] at h ⊢
  omega

/-- A text is never empty, and its first byte is no space. -/
theorem Text.head_gt {text : List UInt8} (h : Text text) : ∃ c rest, text = c :: rest ∧ 32 < c := by
  cases h with
  | number hne hs =>
    obtain ⟨c, rest, rfl⟩ := List.exists_cons_of_ne_nil hne
    exact ⟨c, rest, rfl, (isNumberByte_gt (hs c (List.mem_cons_self ..))).1⟩
  | _ => exact ⟨_, _, rfl, by decide⟩

/-- Its last byte is no space either. -/
theorem Text.last_gt {text : List UInt8} (h : Text text) : ∃ init c, text = init ++ [c] ∧ 32 < c := by
  cases h with
  | null => exact ⟨[110, 117, 108], 108, rfl, by decide⟩
  | true => exact ⟨[116, 114, 117], 101, rfl, by decide⟩
  | false => exact ⟨[102, 97, 108, 115], 101, rfl, by decide⟩
  | number hne hs =>
    refine ⟨_, _, (List.dropLast_append_getLast hne).symm, ?_⟩
    exact (isNumberByte_gt (hs _ (List.getLast_mem hne))).1
  | string hs => exact ⟨34 :: _, 34, rfl, by decide⟩
  | list hitems => exact ⟨91 :: _, 93, rfl, by decide⟩
  | object hnames hvalues => exact ⟨123 :: _, 125, rfl, by decide⟩

theorem Text.ne_nil {text : List UInt8} (h : Text text) : text ≠ [] := by
  obtain ⟨c, rest, rfl, -⟩ := h.head_gt
  exact List.cons_ne_nil c rest

theorem IsList.last {text : List UInt8} (h : IsList text) : text.getLast? = some 93 := by
  obtain ⟨items, -, -, rfl⟩ := h
  rw [brackets, ← List.cons_append, List.getLast?_concat]

/-- A list with an item has three bytes at least. -/
theorem IsList.length {text : List UInt8} (h : IsList text) : 3 ≤ text.length := by
  obtain ⟨items, hne, htexts, rfl⟩ := h
  obtain ⟨t, items, rfl⟩ := List.exists_cons_of_ne_nil hne
  obtain ⟨c, rest, rfl, -⟩ := (htexts t (List.mem_cons_self ..)).head_gt
  have hlen : 1 ≤ ([44].intercalate ((c :: rest) :: items)).length := by
    cases items with
    | nil => simp
    | cons t' items => simp
  simp only [brackets, List.length_cons, List.length_append, List.length_nil]
  omega

/-- **A list is told by its first byte**, and one that is not empty by its length. -/
theorem isList_iff {text : List UInt8} (h : Text text) :
    IsList text ↔ text.head? = some 91 ∧ 3 ≤ text.length := by
  refine ⟨fun hlist => ⟨?_, hlist.length⟩, fun ⟨hhead, hlen⟩ => ?_⟩
  · obtain ⟨items, -, -, rfl⟩ := hlist
    rfl
  · cases h with
    | number hne hs =>
      obtain ⟨c, rest, rfl⟩ := List.exists_cons_of_ne_nil hne
      exact absurd (Option.some.inj hhead) (isNumberByte_gt (hs c (List.mem_cons_self ..))).2
    | @list items hitems =>
      refine ⟨items, ?_, hitems, rfl⟩
      rintro rfl
      exact absurd hlen (by decide)
    | _ => exact absurd (Option.some.inj hhead) (by decide)

/-! ## Cutting -/

section Trim

variable {α : Type} (space : α → Bool)

/-- Cut what is a space at both ends. -/
def trim (l : List α) : List α := (l.dropWhile space).rdropWhile space

variable {space}

theorem rdropWhile_append_of_all (l : List α) {post : List α} (hpost : ∀ c ∈ post, space c = true) :
    (l ++ post).rdropWhile space = l.rdropWhile space := by
  induction post using List.reverseRecOn with
  | nil => rw [List.append_nil]
  | append_singleton post c ih =>
    rw [← List.append_assoc, List.rdropWhile_concat_pos _ _ _ (hpost c (by simp))]
    exact ih fun d hd => hpost d (List.mem_append_left _ hd)

/-- What surrounds a text is cut away. -/
theorem trim_surrounded {pre body post : List α} (hpre : ∀ c ∈ pre, space c = true)
    (hpost : ∀ c ∈ post, space c = true) (hhead : ∃ c rest, body = c :: rest ∧ space c = false)
    (hlast : ∃ init c, body = init ++ [c] ∧ space c = false) :
    trim space (pre ++ (body ++ post)) = body := by
  obtain ⟨init, d, hinit, hd⟩ := hlast
  have hkept : (body ++ post).dropWhile space = body ++ post := by
    obtain ⟨c, rest, rfl, hc⟩ := hhead
    rw [List.cons_append, List.dropWhile_cons, hc]
    rfl
  rw [trim, List.dropWhile_append_of_pos hpre, hkept, rdropWhile_append_of_all body hpost, hinit]
  exact List.rdropWhile_concat_neg _ _ _ (by simp [hd])

theorem dropWhile_prefix_dropWhile {l m : List α} (h : l <+: m) :
    l.dropWhile space <+: m.dropWhile space := by
  obtain ⟨rest, rfl⟩ := h
  rw [List.dropWhile_append]
  split
  · rename_i hnil
    rw [List.isEmpty_iff.mp hnil]
    exact List.nil_prefix
  · exact List.prefix_append _ _

/-- **The first bytes of a surrounded text** are a part of the text when they are trimmed. -/
theorem trim_prefix {pre body post l : List α} (hpre : ∀ c ∈ pre, space c = true)
    (hpost : ∀ c ∈ post, space c = true) (hhead : ∃ c rest, body = c :: rest ∧ space c = false)
    (h : l <+: pre ++ (body ++ post)) : trim space l <+: body := by
  have hkept : (body ++ post).dropWhile space = body ++ post := by
    obtain ⟨c, rest, rfl, hc⟩ := hhead
    rw [List.cons_append, List.dropWhile_cons, hc]
    rfl
  have hdrop : l.dropWhile space <+: body ++ post := by
    have hcut : l.dropWhile space <+: (pre ++ (body ++ post)).dropWhile space :=
      dropWhile_prefix_dropWhile h
    rwa [List.dropWhile_append_of_pos hpre, hkept] at hcut
  rw [trim]
  rcases List.prefix_or_prefix_of_prefix hdrop (List.prefix_append body post) with hl | hbody
  · exact (List.rdropWhile_prefix _ _).trans hl
  · obtain ⟨rest, hrest⟩ := hbody
    have hspaces : ∀ c ∈ rest, space c = true := by
      rw [← hrest, List.prefix_append_right_inj] at hdrop
      exact fun c hc => hpost c (hdrop.subset hc)
    rw [← hrest, rdropWhile_append_of_all body hspaces]
    exact List.rdropWhile_prefix _ _

end Trim

end JsonText
