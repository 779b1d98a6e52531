import PhpCouchbase.LongText
import PhpCouchbase.Lib.FormUrl

/-!
# Forms of PHP arrays

`php_url_encode_hash_ex` writes an array as a form: the options of a view query (`view_query.c`),
the settings of a bucket and of a user (`cluster_manager.c`) go to the server like this.  Arrays in
arrays become names with brackets, nulls are left out.

* `urlEncodeHash_received` — a server that reads the form finds the scalars of the array under their
  names, whatever bytes the names and the values have, and nothing else.
-/

set_option autoImplicit false

namespace PhpCouchbase

/-- What the form takes from the configuration of PHP and from its classes. -/
structure FormPhp where
  /-- a double with the precision of the configuration -/
  doubleText : UInt64 → Bytes
  /-- the name of a property of a class, when it may be read -/
  property : Bytes → Bytes → Option Bytes

/-- The text of a double has no separator. -/
def FormPhp.Lawful (form : FormPhp) : Prop := ∀ bits, 38 ∉ form.doubleText bits

variable (form : FormPhp)

/-! ## The encoder -/

/-- `php_url_encode` -/
def urlEncode (s : Bytes) : Bytes := FormUrl.encode s

def ArrayKey.encoded : ArrayKey → Bytes
  | .str s => urlEncode s
  | .index i => printLong i

/-- The text of a scalar. -/
def scalarText : Zval → Bytes
  | .string s => urlEncode s
  | .long n => printLong n
  | .true => ascii "1"
  | .false => ascii "0"
  | .double bits => form.doubleText bits
  | _ => []

/-- The separator unless the buffer is empty, the name, `=` and the text.  All callers pass a null
pointer for `arg_sep`, which stands for the setting `arg_separator.output` of the engine.  The forms
here are those of its default, `&`; with another setting the server would read other fields. -/
def appendField (buf name text : Bytes) : Bytes :=
  (if buf = [] then [] else buf ++ [38]) ++ (name ++ 61 :: text)

mutual

/-- One element of the array, whose whole name is encoded already. -/
def urlEncodeValue (name : Bytes) : Zval → Bytes → Bytes
  | .array elems, buf => urlEncodeElems (name ++ ascii "%5B") (ascii "%5D") elems buf
  | .object cls props, buf => urlEncodeProps cls (name ++ ascii "%5B") (ascii "%5D") props buf
  | .null, buf => buf
  | .undef, buf => buf
  | .string s, buf => appendField buf name (scalarText form (.string s))
  | .long n, buf => appendField buf name (scalarText form (.long n))
  | .double bits, buf => appendField buf name (scalarText form (.double bits))
  | .true, buf => appendField buf name (scalarText form .true)
  | .false, buf => appendField buf name (scalarText form .false)
  | .reference value, buf => urlEncodeValue name value buf

/-- `php_url_encode_hash_ex` with `key_prefix` and `key_suffix` -/
def urlEncodeElems (before after : Bytes) : List (ArrayKey × Zval) → Bytes → Bytes
  | [], buf => buf
  | (key, value) :: elems, buf =>
    urlEncodeElems before after elems (urlEncodeValue (before ++ key.encoded ++ after) value buf)

/-- The same for the properties of an object. -/
def urlEncodeProps (cls before after : Bytes) : List (Bytes × Zval) → Bytes → Bytes
  | [], buf => buf
  | (key, value) :: props, buf =>
    match form.property cls key with
    | none => urlEncodeProps cls before after props buf
    | some name => urlEncodeProps cls before after props
        (urlEncodeValue (before ++ urlEncode name ++ after) value buf)

end

/-- `php_url_encode_hash_ex` of an array; it fails without a hash table only. -/
def urlEncodeHash (elems : List (ArrayKey × Zval)) : Bytes := urlEncodeElems form [] [] elems []

/-! ## What the form says -/

def ArrayKey.printed : ArrayKey → Bytes
  | .str s => s
  | .index i => printLong i

/-- The name of a member: its key, or its key in brackets behind the name of the array. -/
def memberName (outer : Option Bytes) (key : Bytes) : Bytes :=
  match outer with
  | none => key
  | some name => name ++ ascii "[" ++ key ++ ascii "]"

mutual

/-- The scalars in a value, under their names. -/
def scalars (name : Bytes) : Zval → List (Bytes × Zval)
  | .array elems => scalarsOfElems (some name) elems
  | .object cls props => scalarsOfProps cls (some name) props
  | .null => []
  | .undef => []
  | .string s => [(name, .string s)]
  | .long n => [(name, .long n)]
  | .double bits => [(name, .double bits)]
  | .true => [(name, .true)]
  | .false => [(name, .false)]
  | .reference value => scalars name value

def scalarsOfElems (outer : Option Bytes) : List (ArrayKey × Zval) → List (Bytes × Zval)
  | [] => []
  | (key, value) :: elems => scalars (memberName outer key.printed) value ++ scalarsOfElems outer elems

def scalarsOfProps (cls : Bytes) (outer : Option Bytes) :
    List (Bytes × Zval) → List (Bytes × Zval)
  | [] => []
  | (key, value) :: props =>
    match form.property cls key with
    | none => scalarsOfProps cls outer props
    | some name => scalars (memberName outer name) value ++ scalarsOfProps cls outer props

end

/-- What the server reads for a scalar. -/
def scalarValue : Zval → Bytes
  | .string s => s
  | .long n => printLong n
  | .true => ascii "1"
  | .false => ascii "0"
  | .double bits => FormUrl.decode (form.doubleText bits)
  | _ => []

/-- The fields that the server reads. -/
def received (elems : List (ArrayKey × Zval)) : List (Bytes × Bytes) :=
  (scalarsOfElems form none elems).map fun f => (f.1, scalarValue form f.2)

/-! ## Names and texts -/

theorem encode_plain {s : Bytes} (h : ∀ c ∈ s, FormUrl.isPlain c = true) : FormUrl.encode s = s := by
  induction s with
  | nil => rfl
  | cons c s ih =>
    obtain ⟨hc, hs⟩ := List.forall_mem_cons.mp h
    have hspace : c ≠ 32 := FormUrl.isPlain_ne hc (by decide)
    rw [FormUrl.encode, List.flatMap_cons, FormUrl.encodeByte, if_neg hspace, if_pos hc,
      ← FormUrl.encode, ih hs]
    rfl

theorem isPlain_of_isDigit {c : UInt8} (h : isDigit c = true) : FormUrl.isPlain c = true := by
  simp only [isDigit, decide_eq_true_eq] at h
  simp [FormUrl.isPlain, h]

theorem isPlain_printLong (n : Int64) : ∀ c ∈ printLong n, FormUrl.isPlain c = true := by
  have hdigits : ∀ c ∈ decimal n.toInt.natAbs, FormUrl.isPlain c = true :=
    fun c hc => isPlain_of_isDigit (isDigit_of_mem_decimal hc)
  intro c hc
  unfold printLong at hc
  split at hc
  · rcases List.mem_cons.mp hc with rfl | hc
    · decide
    · exact hdigits c hc
  · exact hdigits c hc

theorem encode_printLong (n : Int64) : FormUrl.encode (printLong n) = printLong n :=
  encode_plain (isPlain_printLong n)

theorem ArrayKey.encoded_eq (key : ArrayKey) : key.encoded = FormUrl.encode key.printed := by
  cases key with
  | str s => rfl
  | index i => exact (encode_printLong i).symm

/-- The prefix and the suffix of the names of the members. -/
def memberPrefix : Option Bytes → Bytes
  | none => []
  | some name => FormUrl.encode name ++ ascii "%5B"

def memberSuffix : Option Bytes → Bytes
  | none => []
  | some _ => ascii "%5D"

theorem memberName_encoded (outer : Option Bytes) (key : Bytes) :
    memberPrefix outer ++ FormUrl.encode key ++ memberSuffix outer =
      FormUrl.encode (memberName outer key) := by
  cases outer with
  | none => exact List.append_nil _
  | some name =>
    have hopen : FormUrl.encode (ascii "[") = ascii "%5B" := by decide
    have hclose : FormUrl.encode (ascii "]") = ascii "%5D" := by decide
    simp only [memberPrefix, memberSuffix, memberName, FormUrl.encode_append, hopen, hclose]

/-! ## The fields that are written -/

/-- The fields are appended to the buffer one by one. -/
def appendFields (buf : Bytes) (fields : List (Bytes × Zval)) : Bytes :=
  fields.foldl (fun buf f => appendField buf (FormUrl.encode f.1) (scalarText form f.2)) buf

theorem appendFields_append (buf : Bytes) (fs gs : List (Bytes × Zval)) :
    appendFields form buf (fs ++ gs) = appendFields form (appendFields form buf fs) gs :=
  List.foldl_append

mutual

theorem urlEncodeValue_eq (name : Bytes) : ∀ (value : Zval) (buf : Bytes),
    urlEncodeValue form (FormUrl.encode name) value buf =
      appendFields form buf (scalars form name value)
  | .array elems, buf => by
    rw [urlEncodeValue, scalars]
    exact urlEncodeElems_eq (some name) elems buf
  | .object cls props, buf => by
    rw [urlEncodeValue, scalars]
    exact urlEncodeProps_eq cls (some name) props buf
  | .null, buf => by rw [urlEncodeValue, scalars]; rfl
  | .undef, buf => by rw [urlEncodeValue, scalars]; rfl
  | .string s, buf => by rw [urlEncodeValue, scalars]; rfl
  | .long n, buf => by rw [urlEncodeValue, scalars]; rfl
  | .double bits, buf => by rw [urlEncodeValue, scalars]; rfl
  | .true, buf => by rw [urlEncodeValue, scalars]; rfl
  | .false, buf => by rw [urlEncodeValue, scalars]; rfl
  | .reference value, buf => by
    rw [urlEncodeValue, scalars]
    exact urlEncodeValue_eq name value buf

theorem urlEncodeElems_eq (outer : Option Bytes) : ∀ (elems : List (ArrayKey × Zval)) (buf : Bytes),
    urlEncodeElems form (memberPrefix outer) (memberSuffix outer) elems buf =
      appendFields form buf (scalarsOfElems form outer elems)
  | [], buf => by rw [urlEncodeElems, scalarsOfElems]; rfl
  | (key, value) :: elems, buf => by
    rw [urlEncodeElems, scalarsOfElems, appendFields_append, key.encoded_eq, memberName_encoded,
      urlEncodeValue_eq _ value, urlEncodeElems_eq outer elems]

theorem urlEncodeProps_eq (cls : Bytes) (outer : Option Bytes) :
    ∀ (props : List (Bytes × Zval)) (buf : Bytes),
    urlEncodeProps form cls (memberPrefix outer) (memberSuffix outer) props buf =
      appendFields form buf (scalarsOfProps form cls outer props)
  | [], buf => by rw [urlEncodeProps, scalarsOfProps]; rfl
  | (key, value) :: props, buf => by
    rw [urlEncodeProps, scalarsOfProps]
    cases form.property cls key with
    | none => exact urlEncodeProps_eq cls outer props buf
    | some name =>
      simp only
      rw [appendFields_append, urlEncode, memberName_encoded, urlEncodeValue_eq _ value,
        urlEncodeProps_eq cls outer props]

end

/-- A field as it is written. -/
def writtenField (f : Bytes × Zval) : Bytes := FormUrl.field f.1 (scalarText form f.2)

theorem appendField_writtenField (buf : Bytes) (f : Bytes × Zval) :
    appendField buf (FormUrl.encode f.1) (scalarText form f.2) =
      (if buf = [] then [] else buf ++ [38]) ++ writtenField form f := rfl

theorem writtenField_ne_nil (f : Bytes × Zval) : writtenField form f ≠ [] := by
  simp [writtenField, FormUrl.field]

theorem appendFields_of_ne_nil {buf : Bytes} (h : buf ≠ []) (fs : List (Bytes × Zval)) :
    appendFields form buf fs = buf ++ fs.flatMap fun f => 38 :: writtenField form f := by
  induction fs generalizing buf with
  | nil => simp [appendFields]
  | cons f fs ih =>
    have hstep : appendFields form buf (f :: fs) =
        appendFields form (buf ++ [38] ++ writtenField form f) fs := by
      rw [appendFields, List.foldl_cons, appendField_writtenField, if_neg h]
      rfl
    rw [hstep, ih (by simp), List.flatMap_cons]
    simp

theorem intercalate_cons (x : UInt8) (p : Bytes) (ps : List Bytes) :
    [x].intercalate (p :: ps) = p ++ ps.flatMap fun q => x :: q := by
  induction ps generalizing p with
  | nil => simp [List.intercalate]
  | cons q ps ih =>
    rw [List.intercalate_cons_cons, ih, List.flatMap_cons]
    simp

/-- **The form** is the fields with ampersands between them. -/
theorem urlEncodeHash_eq (elems : List (ArrayKey × Zval)) :
    urlEncodeHash form elems =
      [38].intercalate ((scalarsOfElems form none elems).map (writtenField form)) := by
  have hfields : urlEncodeHash form elems =
      appendFields form [] (scalarsOfElems form none elems) := urlEncodeElems_eq form none elems []
  rw [hfields]
  cases scalarsOfElems form none elems with
  | nil => rfl
  | cons f fs =>
    have hfirst : appendFields form [] (f :: fs) = appendFields form (writtenField form f) fs := by
      rw [appendFields, List.foldl_cons, appendField_writtenField, if_pos rfl, List.nil_append]
      rfl
    rw [hfirst, appendFields_of_ne_nil form (writtenField_ne_nil form f), List.map_cons,
      intercalate_cons, List.flatMap_map]

theorem ampersand_not_mem_scalarText (h : form.Lawful) (value : Zval) :
    38 ∉ scalarText form value := by
  have hlong : ∀ n : Int64, 38 ∉ printLong n := by
    intro n hmem
    exact FormUrl.isPlain_ne (isPlain_printLong n 38 hmem) (by decide) rfl
  cases value with
  | string s => exact FormUrl.ampersand_not_mem_encode s
  | long n => exact hlong n
  | double bits => exact h bits
  | _ => simp [scalarText, ascii]

theorem decode_printLong (n : Int64) : FormUrl.decode (printLong n) = printLong n := by
  conv_lhs => rw [← encode_printLong n]
  exact FormUrl.decode_encode _

theorem decode_scalarText (value : Zval) :
    FormUrl.decode (scalarText form value) = scalarValue form value := by
  cases value with
  | string s => exact FormUrl.decode_encode s
  | long n => exact decode_printLong n
  | _ => rfl

/-- **The server reads the scalars of the array**, whatever bytes their names and values have: no
value can add a field or change another one. -/
theorem urlEncodeHash_received (h : form.Lawful) (elems : List (ArrayKey × Zval)) :
    FormUrl.parse (urlEncodeHash form elems) = received form elems := by
  have hfields : (scalarsOfElems form none elems).map (writtenField form) =
      ((scalarsOfElems form none elems).map fun f => (f.1, scalarText form f.2)).map
        fun f => FormUrl.field f.1 f.2 := by
    rw [List.map_map]
    rfl
  rw [urlEncodeHash_eq, hfields, FormUrl.parse_fields, received, List.map_map]
  · exact List.map_congr_left fun f _ => by simp [decode_scalarText]
  · intro f hf
    obtain ⟨g, -, rfl⟩ := List.mem_map.mp hf
    exact ampersand_not_mem_scalarText form h g.2

/-- No doubles and no objects. -/
def plainForm : FormPhp := ⟨fun _ => [], fun _ _ => none⟩

theorem plainForm_lawful : plainForm.Lawful := fun _ => List.not_mem_nil

/-- Names and values with separators, and an array in the array. -/
example : FormUrl.parse (urlEncodeHash plainForm
    [(.str (ascii "a&b"), .string (ascii "c=d e")),
      (.str (ascii "k"), .array [(.index 0, .true), (.str (ascii "x"), .null)])]) =
    [(ascii "a&b", ascii "c=d e"), (ascii "k[0]", ascii "1")] := by decide

end PhpCouchbase
