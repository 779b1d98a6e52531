import PhpCouchbase.FormEncode

/-!
# Options in a form

The setters of a query (`view_query.c`, `spatial_view_query.c`) store texts under names of their own
in a table of options, and `encode()` writes the table as a form.

* `scalars_cases` — a value in the form is one field of its name, or fields of longer names.
* `urlEncodeHash_fill_iff` — texts that are stored change the form, unless each of them is what the
  form says of its option already.
-/

set_option autoImplicit false

namespace PhpCouchbase

open OrderedMap

variable (form : FormPhp)

/-! ## The fields of the form -/

/-- The names of the form with their texts. -/
def formFields (elems : List (ArrayKey × Zval)) : List (Bytes × Bytes) :=
  (scalarsOfElems form none elems).map fun f => (f.1, scalarText form f.2)

/-- The fields of one member. -/
def memberFields (e : ArrayKey × Zval) : List (Bytes × Bytes) :=
  (scalars form e.1.printed e.2).map fun f => (f.1, scalarText form f.2)

theorem formFields_eq (elems : List (ArrayKey × Zval)) :
    formFields form elems = elems.flatMap (memberFields form) := by
  induction elems with
  | nil => rfl
  | cons e elems ih =>
    rw [List.flatMap_cons, ← ih, formFields, scalarsOfElems, List.map_append]
    rfl

/-- **Forms are equal** exactly when their fields are. -/
theorem urlEncodeHash_eq_iff (h : form.Lawful) (elems elems' : List (ArrayKey × Zval)) :
    urlEncodeHash form elems = urlEncodeHash form elems' ↔
      formFields form elems = formFields form elems' := by
  have hfields : ∀ elems : List (ArrayKey × Zval), urlEncodeHash form elems =
      [38].intercalate ((formFields form elems).map fun f => FormUrl.field f.1 f.2) := by
    intro elems
    rw [urlEncodeHash_eq, formFields, List.map_map]
    rfl
  have hplain : ∀ elems : List (ArrayKey × Zval), ∀ f ∈ formFields form elems, 38 ∉ f.2 := by
    intro elems f hf
    obtain ⟨g, -, rfl⟩ := List.mem_map.mp hf
    exact ampersand_not_mem_scalarText form h g.2
  rw [hfields, hfields]
  constructor
  · exact FormUrl.form_injective (hplain elems) (hplain elems')
  · exact fun heq => by rw [heq]

/-! ## Names -/

/-- The name of a member of an array in the form. -/
def Nested (name inner : Bytes) : Prop := name ++ [91] <+: inner

theorem Nested.ne {name inner : Bytes} (h : Nested name inner) : inner ≠ name := by
  rintro rfl
  have hlen := h.length_le
  rw [List.length_append, List.length_singleton] at hlen
  omega

theorem nested_memberName (name key : Bytes) : Nested name (memberName (some name) key) := by
  refine ⟨key ++ ascii "]", ?_⟩
  show name ++ [91] ++ (key ++ ascii "]") = name ++ ascii "[" ++ key ++ ascii "]"
  rw [← List.append_assoc]
  rfl

/-- What is in a member of an array is in the array. -/
theorem Nested.of_member {name key inner : Bytes}
    (h : inner = memberName (some name) key ∨ Nested (memberName (some name) key) inner) :
    Nested name inner := by
  rcases h with rfl | h
  · exact nested_memberName name key
  · have hpre : memberName (some name) key <+: inner := (List.prefix_append _ _).trans h
    exact (nested_memberName name key).trans hpre

mutual

/-- **A value in the form** is one field of its name, or fields of longer names. -/
theorem scalars_cases (name : Bytes) : ∀ value : Zval,
    (∃ w, scalars form name value = [(name, w)]) ∨
      ∀ f ∈ scalars form name value, Nested name f.1
  | .array elems => by
    rw [scalars]
    exact .inr (nested_elems name elems)
  | .object cls props => by
    rw [scalars]
    exact .inr (nested_props cls name props)
  | .null => .inr fun f hf => by
    rw [scalars] at hf
    cases hf
  | .undef => .inr fun f hf => by
    rw [scalars] at hf
    cases hf
  | .string s => .inl ⟨.string s, by rw [scalars]⟩
  | .long n => .inl ⟨.long n, by rw [scalars]⟩
  | .double bits => .inl ⟨.double bits, by rw [scalars]⟩
  | .true => .inl ⟨.true, by rw [scalars]⟩
  | .false => .inl ⟨.false, by rw [scalars]⟩
  | .reference value => by
    rw [scalars]
    exact scalars_cases name value

theorem nested_elems (name : Bytes) : ∀ elems : List (ArrayKey × Zval),
    ∀ f ∈ scalarsOfElems form (some name) elems, Nested name f.1
  | [], f, hf => by
    rw [scalarsOfElems] at hf
    cases hf
  | (key, value) :: elems, f, hf => by
    rw [scalarsOfElems, List.mem_append] at hf
    rcases hf with hf | hf
    · refine @Nested.of_member name key.printed f.1 ?_
      rcases scalars_cases (memberName (some name) key.printed) value with ⟨w, hw⟩ | hnested
      · rw [hw] at hf
        exact .inl (congrArg Prod.fst (List.mem_singleton.mp hf))
      · exact .inr (hnested f hf)
    · exact nested_elems name elems f hf

theorem nested_props (cls name : Bytes) : ∀ props : List (Bytes × Zval),
    ∀ f ∈ scalarsOfProps form cls (some name) props, Nested name f.1
  | [], f, hf => by
    rw [scalarsOfProps] at hf
    cases hf
  | (key, value) :: props, f, hf => by
    rw [scalarsOfProps] at hf
    split at hf
    · exact nested_props cls name props f hf
    · rename_i shown _
      rw [List.mem_append] at hf
      rcases hf with hf | hf
      · refine @Nested.of_member name shown f.1 ?_
        rcases scalars_cases (memberName (some name) shown) value with ⟨w, hw⟩ | hnested
        · rw [hw] at hf
          exact .inl (congrArg Prod.fst (List.mem_singleton.mp hf))
        · exact .inr (hnested f hf)
      · exact nested_props cls name props f hf

end

/-! ## Stored texts -/

/-- A name that no number and no member of an array has. -/
structure OptionName (key : Bytes) : Prop where
  no_bracket : 91 ∉ key
  no_number : ∃ c ∈ key, isDigit c = false ∧ c ≠ 45

instance (key : Bytes) : Decidable (OptionName key) :=
  decidable_of_iff (91 ∉ key ∧ ∃ c ∈ key, isDigit c = false ∧ c ≠ 45)
    ⟨fun h => ⟨h.1, h.2⟩, fun h => ⟨h.no_bracket, h.no_number⟩⟩

/-- Texts under their names, as a setter stores them. -/
abbrev OptionTexts := List (Bytes × Bytes)

def textPairs (texts : OptionTexts) : List (ArrayKey × Zval) :=
  texts.map fun t => (.str t.1, .string t.2)

/-- The form says the text of the option already. -/
def Displays (options : List (ArrayKey × Zval)) (t : Bytes × Bytes) : Prop :=
  ∃ v, fetch options (.str t.1) = some v ∧ memberFields form (.str t.1, v) = [(t.1, urlEncode t.2)]

/-- The fields of a name among those of a member. -/
def ownFields (key : Bytes) (e : ArrayKey × Zval) : List (Bytes × Bytes) :=
  (memberFields form e).filter fun f => f.1 = key

variable {form}

theorem memberFields_string (key text : Bytes) :
    memberFields form (.str key, .string text) = [(key, urlEncode text)] := by
  rw [memberFields, scalars]
  rfl

theorem OptionName.ne_printLong {key : Bytes} (h : OptionName key) (n : Int64) : printLong n ≠ key := by
  rintro rfl
  obtain ⟨c, hc, hdigit, hminus⟩ := h.no_number
  have hno : c ∉ decimal n.toInt.natAbs := fun hmem =>
    Bool.false_ne_true (hdigit.symm.trans (isDigit_of_mem_decimal hmem))
  unfold printLong at hc
  split at hc
  · exact (List.mem_cons.mp hc).elim hminus hno
  · exact hno hc

theorem OptionName.printed {key : Bytes} (h : OptionName key) {k : ArrayKey} (hk : k.printed = key) :
    k = .str key := by
  cases k with
  | str s => exact congrArg ArrayKey.str hk
  | index n => exact absurd hk (h.ne_printLong n)

/-- Only the option of a name has fields of the name. -/
theorem ownFields_of_ne {key : Bytes} (h : OptionName key) {e : ArrayKey × Zval}
    (hne : e.1 ≠ .str key) : ownFields form key e = [] := by
  rw [ownFields, List.filter_eq_nil_iff]
  intro f hf hname
  rw [decide_eq_true_eq] at hname
  obtain ⟨g, hg, rfl⟩ := List.mem_map.mp hf
  rcases scalars_cases form e.1.printed e.2 with ⟨w, hw⟩ | hnested
  · rw [hw, List.mem_singleton] at hg
    subst hg
    exact hne (h.printed hname)
  · have hmem : 91 ∈ g.1 := (hnested g hg).subset (by simp)
    exact h.no_bracket (hname ▸ hmem)

/-- The fields of a name in the form are those of its options. -/
theorem ownFields_form {key : Bytes} (h : OptionName key) (options : List (ArrayKey × Zval)) :
    (formFields form options).filter (fun f => f.1 = key) =
      (options.filter fun e => e.1 = .str key).flatMap (ownFields form key) := by
  rw [formFields_eq]
  induction options with
  | nil => rfl
  | cons e options ih =>
    rw [List.flatMap_cons, List.filter_append, ih, ← ownFields]
    by_cases he : e.1 = .str key
    · rw [List.filter_cons_of_pos (by simpa using he), List.flatMap_cons]
    · rw [List.filter_cons_of_neg (by simpa using he), ownFields_of_ne h he, List.nil_append]

/-- A member whose fields of its name are one has no others. -/
theorem memberFields_of_own {key : Bytes} {v : Zval} {f : Bytes × Bytes}
    (h : ownFields form key (.str key, v) = [f]) : memberFields form (.str key, v) = [f] := by
  unfold ownFields memberFields at h
  unfold memberFields
  rcases scalars_cases form key v with ⟨w, hw⟩ | hnested
  · have hprinted : scalars form (ArrayKey.str key).printed v = [(key, w)] := hw
    rw [hprinted] at h ⊢
    simpa using h
  · have hnone : ((scalars form (ArrayKey.str key).printed v).map fun f =>
        (f.1, scalarText form f.2)).filter (fun f => f.1 = key) = [] := by
      rw [List.filter_eq_nil_iff]
      intro g hg hname
      rw [decide_eq_true_eq] at hname
      obtain ⟨g', hg', rfl⟩ := List.mem_map.mp hg
      exact (hnested g' hg').ne hname
    rw [hnone] at h
    cases h

/-- A text that is stored with others shows, unless the form said it. -/
theorem displays_of_fields_eq {options : List (ArrayKey × Zval)} {texts : OptionTexts}
    (hnd : (keys (textPairs texts)).Nodup)
    (heq : formFields form (fill options (textPairs texts)) = formFields form options)
    {t : Bytes × Bytes} (ht : t ∈ texts) (hname : OptionName t.1) : Displays form options t := by
  have hmem : (ArrayKey.str t.1, Zval.string t.2) ∈ textPairs texts := List.mem_map.mpr ⟨t, ht, rfl⟩
  have hown := congrArg (fun fields => fields.filter fun f => f.1 = t.1) heq
  simp only [ownFields_form hname, filter_fill hnd hmem] at hown
  have htext : ownFields form t.1 (.str t.1, .string t.2) = [(t.1, urlEncode t.2)] := by
    rw [ownFields, memberFields_string]
    simp
  cases hfetch : fetch options (.str t.1) with
  | none =>
    rw [filter_of_fetch_none hfetch, update, List.flatMap_singleton, htext] at hown
    cases hown
  | some v =>
    obtain ⟨rest, hrest⟩ := filter_of_fetch hfetch
    rw [hrest, update, if_pos rfl, List.flatMap_cons, List.flatMap_cons, htext] at hown
    exact ⟨v, hfetch, memberFields_of_own (List.append_cancel_right hown).symm⟩

/-- What the form said already changes nothing. -/
theorem formFields_update {options : List (ArrayKey × Zval)} {t : Bytes × Bytes}
    (h : Displays form options t) :
    formFields form (update options (.str t.1) (.string t.2)) = formFields form options := by
  obtain ⟨v, hfetch, hfields⟩ := h
  rw [formFields_eq, formFields_eq]
  induction options with
  | nil => cases hfetch
  | cons e options ih =>
    obtain ⟨k, w⟩ := e
    by_cases hk : k = .str t.1
    · subst hk
      rw [fetch, if_pos rfl] at hfetch
      rw [update, if_pos rfl, List.flatMap_cons, List.flatMap_cons, memberFields_string,
        Option.some.inj hfetch, hfields]
    · rw [fetch, if_neg hk] at hfetch
      rw [update, if_neg hk, List.flatMap_cons, List.flatMap_cons, ih hfetch]

theorem formFields_fill {options : List (ArrayKey × Zval)} {texts : OptionTexts}
    (hnd : (keys (textPairs texts)).Nodup) (h : ∀ t ∈ texts, Displays form options t) :
    formFields form (fill options (textPairs texts)) = formFields form options := by
  induction texts generalizing options with
  | nil => rfl
  | cons t texts ih =>
    obtain ⟨ht, hrest⟩ := List.forall_mem_cons.mp h
    rw [textPairs, List.map_cons, keys, List.map_cons, List.nodup_cons] at hnd
    rw [textPairs, List.map_cons, fill_cons, ← textPairs, ih hnd.2, formFields_update ht]
    intro t' ht'
    obtain ⟨v, hfetch, hfields⟩ := hrest t' ht'
    refine ⟨v, ?_, hfields⟩
    rw [fetch_update_ne, hfetch]
    intro hkey
    exact hnd.1 (List.mem_map.mpr ⟨_, List.mem_map.mpr ⟨t', ht', rfl⟩, hkey⟩)

/-- **Stored texts leave the form as it was** exactly when it said each of them already. -/
theorem urlEncodeHash_fill_iff (h : form.Lawful) {options : List (ArrayKey × Zval)}
    {texts : OptionTexts} (hnd : (keys (textPairs texts)).Nodup)
    (hnames : ∀ t ∈ texts, OptionName t.1) :
    urlEncodeHash form (fill options (textPairs texts)) = urlEncodeHash form options ↔
      ∀ t ∈ texts, Displays form options t := by
  rw [urlEncodeHash_eq_iff form h]
  constructor
  · intro heq t ht
    exact displays_of_fields_eq hnd heq ht (hnames t ht)
  · exact formFields_fill hnd

end PhpCouchbase
