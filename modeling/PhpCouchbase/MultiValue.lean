import PhpCouchbase.MutateInBuilder
import PhpCouchbase.Lib.JsonText

/-!
# Operations with many values

`arrayInsertAll`, `arrayPrependAll` and `arrayAppendAll` of `mutate_in_builder.c` take a PHP array
and send its items without the brackets around them.  The brackets are found by position in the
encoded text, with a length that is an `int`, also where a `jsonSerialize()` threw and the text is
not the value's.

* `stripBrackets_eq` — what the two scanning loops and the tests behind them come to.
* `multiValue_iff` — when a call does what it is for.
-/

set_option autoImplicit false

namespace PhpCouchbase

open JsonText

/-! ## The loops -/

/-- `for (; isspace(*p) && n; n--, p++)`: the memory from `p` on and what is left of `n`. -/
def skipLeading : Bytes → Int → C (Bytes × Int)
  | [], _ => .error .outOfBounds
  | c :: mem, n => if isSpace c ∧ n ≠ 0 then skipLeading mem (n - 1) else .ok (c :: mem, n)

/-- `for (; n && isspace(p[n - 1]); n--)` for an `n` that is not negative. -/
def skipTrailing (mem : Bytes) : Nat → C Nat
  | 0 => .ok 0
  | n + 1 =>
    match mem[n]? with
    | none => .error .outOfBounds
    | some c => if isSpace c then skipTrailing mem n else .ok (n + 1)

/-- The items of a text that looks like a non-empty array; `none` is a text that does not.  The text
ends with a NUL, and its length is cut to an `int`. -/
def stripBrackets (text : Bytes) : C (Option Bytes) := do
  -- nothing was written, so there is no buffer for `*p`
  if text = [] then .error .nullPointer
  else
    let (mem, n) ← skipLeading (text ++ [0]) (narrowInt text.length)
    -- `p[n - 1]` is in front of the text
    if n < 0 then .error .outOfBounds
    else
      let n ← skipTrailing mem n.toNat
      if n < 3 ∨ mem[0]? ≠ some 91 ∨ mem[n - 1]? ≠ some 93 then .ok none
      else
        let stripped ← prefixOf (mem.drop 1) (n - 2 : Nat)
        .ok (some stripped)

/-- The three methods. -/
inductive MultiValueMethod where
  | arrayInsertAll
  | arrayPrependAll
  | arrayAppendAll
  deriving DecidableEq, Repr

namespace MultiValueMethod

def sdcmd : MultiValueMethod → SdCommand
  | .arrayInsertAll => .arrayInsert
  | .arrayPrependAll => .arrayAddFirst
  | .arrayAppendAll => .arrayAddLast

/-- The body of the method. -/
def run (m : MultiValueMethod) (php : Php) (b : MutateInBuilder) (path : Bytes) (value : Zval)
    (options : Option Zval) : C (MutateInBuilder × BuilderResult) :=
  match php.jsonEncode value with
  | none => .ok (b, .leave (php.encode value).thrown .null)
  | some text => do
    match ← stripBrackets text with
    | none => .ok (b, .leave (php.encode value).thrown .null)
    | some stripped =>
      .ok (b.add ⟨m.sdcmd, path, stripped, subdocOptionsToFlags false options⟩,
        .leave (php.encode value).thrown .this)

/-- The call of the method. -/
def call (m : MultiValueMethod) (path : Bytes) (value : Zval) (options : Option Zval) : BuilderCall :=
  match m with
  | .arrayInsertAll => .arrayInsertAll path value options
  | .arrayPrependAll => .arrayPrependAll path value options
  | .arrayAppendAll => .arrayAppendAll path value options

end MultiValueMethod

/-! ## What the loops come to -/

/-- The first loop stops at the NUL at the latest. -/
theorem skipLeading_neg {text : Bytes} {n : Int} (h : n < 0) :
    ∃ mem n', skipLeading (text ++ [0]) n = .ok (mem, n') ∧ n' < 0 := by
  induction text generalizing n with
  | nil => exact ⟨[0], n, rfl, h⟩
  | cons c text ih =>
    rw [List.cons_append, skipLeading]
    split
    · exact ih (by omega)
    · exact ⟨_, n, rfl, h⟩

/-- With as many steps as there are bytes it cuts their leading spaces. -/
theorem skipLeading_eq (l : Bytes) (c : UInt8) (rest : Bytes) :
    skipLeading (l ++ c :: rest) l.length =
      .ok (l.dropWhile isSpace ++ c :: rest, (l.dropWhile isSpace).length) := by
  induction l with
  | nil =>
    rw [List.nil_append, skipLeading, if_neg (by simp)]
    rfl
  | cons d l ih =>
    have hlen : ((d :: l).length : Int) - 1 = l.length := by
      rw [List.length_cons]
      omega
    rw [List.cons_append, skipLeading, List.dropWhile_cons]
    by_cases hd : isSpace d = true
    · rw [if_pos ⟨hd, by simp; omega⟩, if_pos hd, hlen, ih]
    · rw [if_neg fun h => hd h.1, if_neg hd, List.cons_append]

/-- The second loop cuts their trailing ones. -/
theorem skipTrailing_eq (l rest : Bytes) :
    skipTrailing (l ++ rest) l.length = .ok (l.rdropWhile isSpace).length := by
  induction l using List.reverseRecOn generalizing rest with
  | nil => rfl
  | append_singleton l a ih =>
    rw [List.length_append, List.length_singleton, skipTrailing, List.append_assoc,
      List.getElem?_append_right le_rfl, Nat.sub_self, List.rdropWhile_concat]
    by_cases ha : isSpace a = true
    · simp only [List.singleton_append, List.getElem?_cons_zero, ha, if_true]
      exact ih (a :: rest)
    · simp [ha]

/-- A negative length makes the second loop read in front of the text. -/
theorem stripBrackets_neg {text : Bytes} (h : narrowInt text.length < 0) :
    stripBrackets text = .error .outOfBounds := by
  have hne : text ≠ [] := by
    rintro rfl
    exact absurd h (by decide)
  obtain ⟨mem, n, hskip, hn⟩ := @skipLeading_neg text _ h
  rw [stripBrackets, if_neg hne, hskip, C.bind_ok]
  exact if_pos hn

/-- The tests and the copy behind the loops, on memory that starts with the trimmed text. -/
theorem tests_eq (items tail : Bytes) :
    (if items.length < 3 ∨ (items ++ tail)[0]? ≠ some 91 ∨
          (items ++ tail)[items.length - 1]? ≠ some 93 then (.ok none : C (Option Bytes))
      else do
        let stripped ← prefixOf ((items ++ tail).drop 1) (items.length - 2 : Nat)
        .ok (some stripped)) =
      .ok (if items.length < 3 ∨ items.head? ≠ some 91 ∨ items.getLast? ≠ some 93 then none
        else some (items.drop 1).dropLast) := by
  by_cases hshort : items.length < 3
  · rw [if_pos (.inl hshort), if_pos (.inl hshort)]
  · have hhead : (items ++ tail)[0]? = items.head? := by
      rw [List.getElem?_append_left (by omega), List.head?_eq_getElem?]
    have hlast : (items ++ tail)[items.length - 1]? = items.getLast? := by
      rw [List.getElem?_append_left (by omega), List.getLast?_eq_getElem?]
    rw [hhead, hlast]
    split
    · rfl
    · have hdrop : (items ++ tail).drop 1 = items.drop 1 ++ tail :=
        List.drop_append_of_le_length (by omega)
      have hcopy : prefixOf (items.drop 1 ++ tail) (items.length - 2 : Nat) =
          .ok (items.drop 1).dropLast := by
        rw [prefixOf_of_le (by omega) (by
          rw [List.length_append, List.length_drop]
          omega), Int.toNat_natCast, List.take_append_of_le_length (by
          rw [List.length_drop]
          omega), List.dropLast_eq_take, List.length_drop]
        congr 2
      rw [hdrop, hcopy]
      rfl

/-- **The loops and the tests**, when there is a text and its length is not negative. -/
theorem stripBrackets_eq {text : Bytes} (hne : text ≠ []) (h : 0 ≤ narrowInt text.length) :
    stripBrackets text = .ok (arrayItems text) := by
  obtain ⟨m, hm⟩ := Int.eq_ofNat_of_zero_le h
  have hle : m ≤ text.length := by
    have := narrowInt_le text.length
    omega
  have hlen : (text.take m).length = m := List.length_take_of_le hle
  -- the bytes that are counted, and those behind them with the NUL
  obtain ⟨c, rest, hrest⟩ : ∃ c rest, text ++ [0] = text.take m ++ c :: rest := by
    obtain ⟨c, rest, hdrop⟩ := List.exists_cons_of_ne_nil
      (List.append_ne_nil_of_right_ne_nil (text.drop m) (List.cons_ne_nil (0 : UInt8) []))
    refine ⟨c, rest, ?_⟩
    rw [← hdrop, ← List.append_assoc, List.take_append_drop]
  have hskip := skipLeading_eq (text.take m) c rest
  have htrail := skipTrailing_eq ((text.take m).dropWhile isSpace) (c :: rest)
  rw [hlen] at hskip
  obtain ⟨cut, hcut⟩ := List.rdropWhile_prefix isSpace ((text.take m).dropWhile isSpace)
  have hitems : trimSpaces (text.take m) = ((text.take m).dropWhile isSpace).rdropWhile isSpace := rfl
  have harray : arrayItems text =
      if (trimSpaces (text.take m)).length < 3 ∨ (trimSpaces (text.take m)).head? ≠ some 91 ∨
        (trimSpaces (text.take m)).getLast? ≠ some 93 then none
      else some ((trimSpaces (text.take m)).drop 1).dropLast := by
    rw [arrayItems, hm, if_neg (by omega), Int.toNat_natCast]
  rw [stripBrackets, if_neg hne, hm, hrest, hskip, C.bind_ok]
  simp only [Int.toNat_natCast]
  rw [if_neg (by omega), htrail, C.bind_ok]
  have htests := tests_eq (trimSpaces (text.take m)) (cut ++ c :: rest)
  rw [← List.append_assoc, hitems, hcut] at htests
  rw [htests, harray, hitems]

/-! ## The methods -/

/-- PHP encodes a value as a JSON text; there may be spaces around it. -/
def EncodesJson (php : Php) : Prop :=
  ∀ value, (php.encode value).complete = true → ∃ pre body post,
    (∀ c ∈ pre, isSpace c = true) ∧ (∀ c ∈ post, isSpace c = true) ∧ Text body ∧
      (php.encode value).text = pre ++ (body ++ post)

/-- The value is encoded as a list with an item. -/
def EncodedList (php : Php) (value : Zval) : Prop :=
  (php.encode value).complete = true ∧ IsList (trimSpaces (php.encode value).text)

/-- **What a call is for**: a value that is encoded as a list with an item queues the text of the
list without its brackets; any other value is refused, and the builder stays as it is. -/
def MultiValueOk (m : MultiValueMethod) (php : Php) (b : MutateInBuilder) (path : Bytes) (value : Zval)
    (options : Option Zval) : Prop :=
  (EncodedList php value → ∃ items,
    m.run php b path value options =
        .ok (b.add ⟨m.sdcmd, path, items, subdocOptionsToFlags false options⟩, .this) ∧
      91 :: (items ++ [93]) = trimSpaces (php.encode value).text) ∧
    (¬EncodedList php value → ∃ r ≠ .this, m.run php b path value options = .ok (b, r))

/-- The part of the text that is read, without the spaces around it. -/
def readPart (text : Bytes) : Bytes := trimSpaces (text.take (narrowInt text.length).toNat)

/-- When a call does that: the encoder sets its error code; or there is a text whose length does not
become negative as an `int`, a list is read to its end, and what a `jsonSerialize()` left that threw
is not taken for a list. -/
def MultiValueFits (php : Php) (value : Zval) : Prop :=
  (php.encode value).failed = true ∨
    (php.encode value).text ≠ [] ∧ 0 ≤ narrowInt (php.encode value).text.length ∧
      (EncodedList php value → readPart (php.encode value).text = trimSpaces (php.encode value).text) ∧
      ((php.encode value).thrown = true →
        ∀ items ≠ [], readPart (php.encode value).text ≠ 91 :: (items ++ [93]))

theorem not_isSpace_of_gt {c : UInt8} (h : 32 < c) : isSpace c = false := by
  rw [UInt8.lt_iff_toNat_lt] at h
  have hne : c ≠ 32 := by
    rintro rfl
    exact absurd h (by decide)
  simp only [isSpace, hne, decide_false, Bool.false_or, decide_eq_false_iff_not]
  simp only [UInt8.reduceToNat] at h
  omega

/-- Reading the items of a text that is cut after some bytes: the trimmed text is a part of the JSON
text. -/
theorem trimSpaces_take {pre body post : Bytes} (hpre : ∀ c ∈ pre, isSpace c = true)
    (hpost : ∀ c ∈ post, isSpace c = true) (hbody : Text body) (m : Nat) :
    trimSpaces (pre ++ (body ++ post)) = body ∧
      trimSpaces ((pre ++ (body ++ post)).take m) <+: body := by
  obtain ⟨c, rest, hhead, hc⟩ := hbody.head_gt
  obtain ⟨init, d, hlast, hd⟩ := hbody.last_gt
  exact ⟨trim_surrounded hpre hpost ⟨c, rest, hhead, not_isSpace_of_gt hc⟩
      ⟨init, d, hlast, not_isSpace_of_gt hd⟩,
    trim_prefix hpre hpost ⟨c, rest, hhead, not_isSpace_of_gt hc⟩ (List.take_prefix _ _)⟩

/-- A text between brackets. -/
theorem between_brackets_iff {t items : Bytes} :
    (t.head? = some 91 ∧ t.getLast? = some 93 ∧ (t.drop 1).dropLast = items ∧ 2 ≤ t.length) ↔
      t = 91 :: (items ++ [93]) := by
  constructor
  · rintro ⟨hhead, hlast, rfl, hlen⟩
    obtain ⟨c, rest, rfl⟩ : ∃ c rest, t = c :: rest := by
      refine List.exists_cons_of_ne_nil ?_
      rintro rfl
      cases hhead
    have hne : rest ≠ [] := by
      rintro rfl
      simp at hlen
    rw [List.getLast?_cons, List.getLast?_eq_some_getLast hne, Option.getD_some,
      Option.some.injEq] at hlast
    rw [Option.some.inj hhead, List.drop_succ_cons, List.drop_zero]
    conv_lhs => rw [← List.dropLast_append_getLast hne, hlast]
  · rintro rfl
    refine ⟨rfl, ?_, ?_, by simp⟩
    · rw [← List.cons_append, List.getLast?_concat]
    · rw [List.drop_succ_cons, List.drop_zero, List.dropLast_concat]

/-- The items are found when the trimmed text has a bracket at each end and something in between. -/
theorem arrayItems_eq_some_iff {text items : Bytes} (h : 0 ≤ narrowInt text.length) :
    arrayItems text = some items ↔
      readPart text = 91 :: (items ++ [93]) ∧ items ≠ [] := by
  have hlen : ∀ t : Bytes, t = 91 :: (items ++ [93]) → (3 ≤ t.length ↔ items ≠ []) := by
    rintro t rfl
    rw [← List.length_pos_iff_ne_nil]
    simp only [List.length_cons, List.length_append, List.length_nil]
    omega
  simp only [arrayItems, if_neg (not_lt.mpr h)]
  split
  · rename_i hbad
    refine iff_of_false (by simp) fun ⟨ht, hne⟩ => ?_
    obtain ⟨hhead, hlast, -, -⟩ := between_brackets_iff.mpr ht
    rcases hbad with hshort | hbad | hbad
    · exact absurd ((hlen _ ht).mpr hne) (not_le.mpr hshort)
    · exact hbad hhead
    · exact hbad hlast
  · rename_i hgood
    rw [not_or, not_or, not_not, not_not, not_lt] at hgood
    obtain ⟨hshort, hhead, hlast⟩ := hgood
    rw [Option.some.injEq]
    constructor
    · intro hitems
      have ht := between_brackets_iff.mp ⟨hhead, hlast, hitems, Nat.le_of_succ_le hshort⟩
      exact ⟨ht, (hlen _ ht).mp hshort⟩
    · rintro ⟨ht, -⟩
      exact (between_brackets_iff.mpr ht).2.2.1

theorem add_inj {b : MutateInBuilder} {s s' : SdSpec} (h : b.add s = b.add s') : s = s' := by
  have hspecs := congrArg MutateInBuilder.specs h
  exact List.singleton_inj.mp (List.append_cancel_left hspecs)

theorem add_ne (b : MutateInBuilder) (s : SdSpec) : b.add s ≠ b := by
  intro h
  have hlen := congrArg (fun b => b.specs.length) h
  simp only [MutateInBuilder.add, List.length_append, List.length_singleton] at hlen
  omega

/-- There are no items when the trimmed text is not of this kind. -/
theorem arrayItems_eq_none_iff {text : Bytes} (h : 0 ≤ narrowInt text.length) :
    arrayItems text = none ↔ ∀ items ≠ [], readPart text ≠ 91 :: (items ++ [93]) := by
  rw [Option.eq_none_iff_forall_ne_some]
  refine forall_congr' fun items => ?_
  rw [ne_eq, arrayItems_eq_some_iff h]
  tauto

section Calls

variable {php : Php} {value : Zval} (m : MultiValueMethod) (b : MutateInBuilder) (path : Bytes)
  (options : Option Zval)

theorem jsonEncode_of_failed (h : (php.encode value).failed = true) : php.jsonEncode value = none := by
  rw [Php.jsonEncode, JsonEncoding.unfailed, if_pos h]

theorem jsonEncode_of_not_failed (h : (php.encode value).failed = false) :
    php.jsonEncode value = some (php.encode value).text := by
  rw [Php.jsonEncode, JsonEncoding.unfailed, h, if_neg Bool.false_ne_true]

/-- A call on a value that sets the error code. -/
theorem run_of_failed (h : (php.encode value).failed = true) :
    m.run php b path value options = .ok (b, .leave (php.encode value).thrown .null) := by
  rw [MultiValueMethod.run, jsonEncode_of_failed h]

/-- A call on a text. -/
theorem run_of_encoded (hfailed : (php.encode value).failed = false) (hne : (php.encode value).text ≠ [])
    (h : 0 ≤ narrowInt (php.encode value).text.length) :
    m.run php b path value options = .ok
      (match arrayItems (php.encode value).text with
      | none => (b, .leave (php.encode value).thrown .null)
      | some items => (b.add ⟨m.sdcmd, path, items, subdocOptionsToFlags false options⟩,
          .leave (php.encode value).thrown .this)) := by
  rw [MultiValueMethod.run, jsonEncode_of_not_failed hfailed]
  simp only [stripBrackets_eq hne h, C.bind_ok]
  cases arrayItems (php.encode value).text <;> rfl

/-- Without a text, or with a negative length, the call is undefined. -/
theorem run_undefined (hfailed : (php.encode value).failed = false)
    (h : ¬((php.encode value).text ≠ [] ∧ 0 ≤ narrowInt (php.encode value).text.length)) :
    ∃ f, m.run php b path value options = .error f := by
  rw [MultiValueMethod.run, jsonEncode_of_not_failed hfailed]
  by_cases hne : (php.encode value).text = []
  · exact ⟨.nullPointer, by simp only [stripBrackets, hne, if_pos, C.bind_error]⟩
  · have hneg : narrowInt (php.encode value).text.length < 0 := not_le.mp fun hle => h ⟨hne, hle⟩
    exact ⟨.outOfBounds, by simp only [stripBrackets_neg hneg, C.bind_error]⟩

/-- The methods of the builder are these calls, when the calls are defined. -/
theorem run_eq_call (h : MultiValueFits php value) :
    m.run php b path value options = .ok ((m.call path value options).run php b) := by
  have hcall : (m.call path value options).run php b =
      orNull php value b
        ((multivalueSpec php m.sdcmd path value (subdocOptionsToFlags false options)).map b.add) := by
    cases m <;> rfl
  rw [hcall, multivalueSpec]
  cases hfailed : (php.encode value).failed with
  | true =>
    rw [run_of_failed m b path options hfailed, jsonEncode_of_failed hfailed]
    rfl
  | false =>
    rcases h with h | ⟨hne, hle, -⟩
    · rw [hfailed] at h
      cases h
    · rw [run_of_encoded m b path options hfailed hne hle, jsonEncode_of_not_failed hfailed,
        Option.bind_some]
      cases arrayItems (php.encode value).text <;> rfl

end Calls

/-- A text that is no list is refused, however much of it is read. -/
theorem arrayItems_eq_none {pre body post : Bytes} (hpre : ∀ c ∈ pre, isSpace c = true)
    (hpost : ∀ c ∈ post, isSpace c = true) (hbody : Text body) (hlist : ¬IsList body)
    (h : 0 ≤ narrowInt (pre ++ (body ++ post)).length) : arrayItems (pre ++ (body ++ post)) = none := by
  by_contra hsome
  obtain ⟨items, hitems⟩ := Option.ne_none_iff_exists'.mp hsome
  obtain ⟨ht, hne⟩ := (arrayItems_eq_some_iff h).mp hitems
  obtain ⟨rest, hrest⟩ := (trimSpaces_take hpre hpost hbody
    (narrowInt (pre ++ (body ++ post)).length).toNat).2
  have hread : readPart (pre ++ (body ++ post)) ++ rest = body := hrest
  rw [ht] at hread
  refine hlist ((isList_iff hbody).mpr ?_)
  rw [← hread]
  refine ⟨rfl, ?_⟩
  have hpos := List.length_pos_iff_ne_nil.mpr hne
  simp only [List.length_cons, List.length_append, List.length_nil]
  omega

/-- Between the brackets of a list with an item there is something. -/
theorem exists_of_isList {body : Bytes} (h : IsList body) :
    ∃ items, body = 91 :: (items ++ [93]) ∧ items ≠ [] := by
  have hlen := h.length
  obtain ⟨texts, -, -, rfl⟩ := h
  refine ⟨[44].intercalate texts, rfl, ?_⟩
  intro hnil
  rw [brackets, hnil] at hlen
  exact absurd hlen (by decide)

section Iff

variable {php : Php} {value : Zval} (m : MultiValueMethod) (b : MutateInBuilder) (path : Bytes)
  (options : Option Zval)

/-- A list is queued with its items exactly when it is read to its end. -/
theorem run_list_iff {body : Bytes} (hcomplete : (php.encode value).complete = true)
    (hne : (php.encode value).text ≠ []) (h : 0 ≤ narrowInt (php.encode value).text.length)
    (hlist : IsList body) :
    (∃ items, m.run php b path value options =
        .ok (b.add ⟨m.sdcmd, path, items, subdocOptionsToFlags false options⟩, .this) ∧
      91 :: (items ++ [93]) = body) ↔ readPart (php.encode value).text = body := by
  rw [JsonEncoding.complete, Bool.and_eq_true, Bool.not_eq_true', Bool.not_eq_true'] at hcomplete
  obtain ⟨hfailed, hthrown⟩ := hcomplete
  rw [run_of_encoded m b path options hfailed hne h, hthrown]
  constructor
  · rintro ⟨items, hrun, hbrackets⟩
    cases hread : arrayItems (php.encode value).text with
    | none =>
      rw [hread] at hrun
      cases (Prod.mk.inj (Except.ok.inj hrun)).2
    | some items' =>
      rw [hread] at hrun
      have hspec := add_inj (Prod.mk.inj (Except.ok.inj hrun)).1
      rw [((arrayItems_eq_some_iff h).mp hread).1, ← hbrackets, (SdSpec.mk.inj hspec).2.2.1]
  · intro hall
    obtain ⟨items, hbrackets, hitems⟩ := exists_of_isList hlist
    refine ⟨items, ?_, hbrackets.symm⟩
    rw [(arrayItems_eq_some_iff h).mpr ⟨hall.trans hbrackets, hitems⟩]
    rfl

/-- A text is refused exactly when there are no items in it. -/
theorem run_refused_iff (hfailed : (php.encode value).failed = false)
    (hne : (php.encode value).text ≠ []) (h : 0 ≤ narrowInt (php.encode value).text.length) :
    (∃ r ≠ .this, m.run php b path value options = .ok (b, r)) ↔
      arrayItems (php.encode value).text = none := by
  rw [run_of_encoded m b path options hfailed hne h]
  constructor
  · rintro ⟨r, -, hrun⟩
    cases hread : arrayItems (php.encode value).text with
    | none => rfl
    | some items =>
      rw [hread] at hrun
      exact absurd (Prod.mk.inj (Except.ok.inj hrun)).1 (add_ne b _)
  · intro hnone
    rw [hnone]
    exact ⟨_, leave_null_ne _, rfl⟩

/-- A value that sets the error code is refused. -/
theorem ok_of_failed (hfailed : (php.encode value).failed = true) :
    MultiValueOk m php b path value options := by
  refine ⟨fun hlist => ?_, fun _ => ⟨_, leave_null_ne _, run_of_failed m b path options hfailed⟩⟩
  have hcomplete := hlist.1
  rw [JsonEncoding.complete, hfailed] at hcomplete
  cases hcomplete

end Iff

/-- **When a call with many values does what it is for.** -/
theorem multiValue_iff {php : Php} (hjson : EncodesJson php) (m : MultiValueMethod)
    (b : MutateInBuilder) (path : Bytes) (value : Zval) (options : Option Zval) :
    MultiValueOk m php b path value options ↔ MultiValueFits php value := by
  cases hfailed : (php.encode value).failed with
  | true => exact iff_of_true (ok_of_failed m b path options hfailed) (.inl hfailed)
  | false =>
    unfold MultiValueFits
    rw [hfailed, or_iff_right Bool.false_ne_true]
    by_cases hdefined : (php.encode value).text ≠ [] ∧ 0 ≤ narrowInt (php.encode value).text.length
    · obtain ⟨hne, h⟩ := hdefined
      rw [and_iff_right hne, and_iff_right h]
      unfold MultiValueOk
      by_cases hlist : EncodedList php value
      · have hthrown := (JsonEncoding.complete_iff.mp hlist.1).2
        rw [imp_iff_right hlist, imp_iff_right hlist, hthrown,
          and_iff_left fun hno => absurd hlist hno, and_iff_left nofun]
        exact run_list_iff m b path options hlist.1 hne h hlist.2
      · rw [and_iff_right fun hl => absurd hl hlist, imp_iff_right hlist,
          and_iff_right fun hl => absurd hl hlist, run_refused_iff m b path options hfailed hne h]
        cases hthrown : (php.encode value).thrown with
        | true =>
          rw [imp_iff_right rfl, arrayItems_eq_none_iff h]
        | false =>
          refine iff_of_true ?_ nofun
          have hcomplete := JsonEncoding.complete_iff.mpr ⟨hfailed, hthrown⟩
          obtain ⟨pre, body, post, hpre, hpost, hbody, htext⟩ := hjson value hcomplete
          rw [htext] at h ⊢
          refine arrayItems_eq_none hpre hpost hbody (fun hl => hlist ⟨hcomplete, ?_⟩) h
          rw [htext, (trimSpaces_take hpre hpost hbody 0).1]
          exact hl
    · obtain ⟨f, hrun⟩ := run_undefined m b path options hfailed hdefined
      refine iff_of_false (fun hok => ?_) fun hfits => hdefined ⟨hfits.1, hfits.2.1⟩
      by_cases hlist : EncodedList php value
      · obtain ⟨items, hqueued, -⟩ := hok.1 hlist
        rw [hrun] at hqueued
        cases hqueued
      · obtain ⟨r, -, hrefused⟩ := hok.2 hlist
        rw [hrun] at hrefused
        cases hrefused

/-- An encoder for null and for lists of at most one null. -/
def nullPhp : Php where
  encode
    | .null => .done (ascii "null")
    | .array [] => .done (ascii "[]")
    | .array [(.index 0, .null)] => .done (ascii "[null]")
    | _ => .refused
  jsonDecode _ := .null
  identicalComposite _ _ := false

theorem nullPhp_encodesJson : EncodesJson nullPhp := by
  have hnull : ∀ t ∈ [ascii "null"], Text t := by
    intro t ht
    rw [List.mem_singleton.mp ht]
    exact Text.null
  have hnone : ∀ t ∈ ([] : List Bytes), Text t := by simp
  intro value h
  refine ⟨[], (nullPhp.encode value).text, [], by simp, by simp, ?_, by simp⟩
  simp only [nullPhp] at h ⊢
  split at h
  · exact Text.null
  · exact Text.list hnone
  · exact Text.list hnull
  · cases h

theorem multiValue_null :
    MultiValueOk .arrayAppendAll nullPhp (mutateInBuilderInit (ascii "id") 0) (ascii "a")
      (.array [(.index 0, .null)]) none := by
  refine (multiValue_iff nullPhp_encodesJson .arrayAppendAll (mutateInBuilderInit (ascii "id") 0)
    (ascii "a") (.array [(.index 0, .null)]) none).mpr (.inr ⟨by decide, by decide, ?_, nofun⟩)
  intro _
  decide

/-- A string is no list, and with a length that is negative as an `int` the second loop reads in
front of its text. -/
theorem string_out_of_bounds {s : Bytes} (h : narrowInt (s.length + 2) < 0) :
    ¬MultiValueOk .arrayAppendAll plainPhp (mutateInBuilderInit (ascii "id") 0) (ascii "a") (.string s)
      none := by
  have htext : plainPhp.jsonEncode (.string s) = some (34 :: (s ++ [34])) := rfl
  have hneg : narrowInt (34 :: (s ++ [34])).length < 0 := by
    rw [List.length_cons, List.length_append, List.length_singleton]
    exact h
  have hspace : isSpace 34 = false := rfl
  have htrim : trimSpaces (34 :: (s ++ [34])) = 34 :: (s ++ [34]) := by
    rw [trimSpaces, List.dropWhile_cons, hspace]
    exact List.rdropWhile_concat_neg isSpace (34 :: s) 34 (by simp [hspace])
  have hlist : ¬EncodedList plainPhp (.string s) := by
    rintro ⟨-, hlist⟩
    change IsList (trimSpaces (34 :: (s ++ [34]))) at hlist
    rw [htrim] at hlist
    obtain ⟨items, -, -, hitems⟩ := hlist
    exact absurd (List.cons.inj hitems).1 (by decide)
  intro hok
  obtain ⟨r, -, hrefused⟩ := hok.2 hlist
  rw [MultiValueMethod.run, htext] at hrefused
  simp only [stripBrackets_neg hneg, C.bind_error] at hrefused
  cases hrefused

/-- `arrayAppendAll("a", str_repeat("a", 2 ** 31))` is undefined. -/
theorem long_string_out_of_bounds :
    ¬MultiValueOk .arrayAppendAll plainPhp (mutateInBuilderInit (ascii "id") 0) (ascii "a")
      (.string (List.replicate (2 ^ 31) 97)) none := by
  refine string_out_of_bounds ?_
  rw [List.length_replicate]
  decide

/-- An encoder that throws for everything, with "null" in the buffer or with nothing. -/
def throwingPhp (text : Bytes) : Php where
  encode _ := ⟨text, false, true⟩
  jsonDecode _ := .null
  identicalComposite _ _ := false

/-- Nothing in the buffer is a null pointer; "null" is refused. -/
example : MultiValueMethod.run .arrayAppendAll (throwingPhp []) (mutateInBuilderInit (ascii "id") 0)
    (ascii "a") .null none = .error .nullPointer := rfl

example : MultiValueMethod.run .arrayAppendAll (throwingPhp (ascii "null"))
    (mutateInBuilderInit (ascii "id") 0) (ascii "a") .null none =
      .ok (mutateInBuilderInit (ascii "id") 0, .threw) := by decide +kernel

end PhpCouchbase
