import PhpCouchbase.LongText
import PhpCouchbase.Lib.OrderedMap

/-!
# The parameter parser of the key-value methods

A method declares its arguments in a string such as `"id|value|cas,expiry"` (`paramparser.c`):
required, optional and named ones.  `pcbc_pp_begin` binds them to the call, `pcbc_pp_next` steps
over the ids: one string, a list of strings, or an array whose keys are the ids and whose values
override named arguments.
-/

set_option autoImplicit false

namespace PhpCouchbase

open OrderedMap

/-- The declared arguments after `id`. -/
structure ParamSpec where
  required : List String
  optional : List String
  named : List String

/-- The arguments that a method declares. -/
def ParamSpec.names (spec : ParamSpec) : List String := spec.required ++ spec.optional ++ spec.named

/-- `pcbc_pp_state` after `pcbc_pp_begin`: an argument that is not given is `none`. -/
structure PpState where
  zids : Zval
  vals : List (String × Option Zval)

/-- The arguments of one id, after `pcbc_pp_next` has stored them. -/
structure PpEntry where
  id : Bytes
  vals : List (String × Option Zval)

/-- The pointer stored for a declared argument: null when the argument is not given. -/
def PpEntry.arg (e : PpEntry) (name : String) : Option Zval := (fetch e.vals name).join

/-- `php_array_fetch`: a string key goes through the symbol table. -/
def phpArrayFetch (elems : List (ArrayKey × Zval)) (name : Bytes) : Option Zval :=
  fetch elems (symtableKey name)

/-- The options array, the first argument after the positional ones. -/
def ppOptions (spec : ParamSpec) (args : List Zval) : Option (List (ArrayKey × Zval)) :=
  match args[1 + spec.required.length + spec.optional.length]? with
  | none => some []
  | some (.array elems) => some elems
  | some _ => none

/-- The declared arguments as the call gives them. -/
def ppVals (spec : ParamSpec) (args : List Zval) (options : List (ArrayKey × Zval)) :
    List (String × Option Zval) :=
  ((spec.required ++ spec.optional).zipIdx.map fun (name, i) => (name, args[i + 1]?)) ++
    spec.named.map fun name => (name, phpArrayFetch options (ascii name))

/-- `pcbc_pp_begin`; `none` is `FAILURE`. -/
def ppBegin (spec : ParamSpec) (args : List Zval) : Option PpState :=
  if args.length < 1 + spec.required.length then none
  else
    match ppOptions spec args, args with
    | some options, Zval.array ids :: _ => some ⟨.array ids, ppVals spec args options⟩
    | some options, Zval.string id :: _ => some ⟨.string id, ppVals spec args options⟩
    | _, _ => none

/-- `pcbc_pp_ismapped` -/
def PpState.isMapped (st : PpState) : Bool :=
  match st.zids with
  | .string _ => false
  | _ => true

/-- One element of the array of ids.  An integer key means that the value is the id, and the value
is taken for a string without a look at its type. -/
def ppElement (st : PpState) (k : ArrayKey) (data : Zval) : C PpEntry :=
  match k, data with
  | .str id, .array own =>
    .ok ⟨id, st.vals.map fun (name, val) => (name, (phpArrayFetch own (ascii name)).or val)⟩
  | .str id, _ => .ok ⟨id, st.vals⟩
  | .index _, data => do return ⟨← data.strval, st.vals⟩

/-- The entries that the successive calls of `pcbc_pp_next` produce. -/
def ppEntries (st : PpState) : List (C PpEntry) :=
  match st.zids with
  | .array elems => elems.map fun (k, data) => ppElement st k data
  | .string id => [.ok ⟨id, st.vals⟩]
  | _ => []

/-! ## Declared arguments -/

theorem keys_ppVals (spec : ParamSpec) (args : List Zval) (options : List (ArrayKey × Zval)) :
    keys (ppVals spec args options) = spec.names := by
  unfold ppVals keys ParamSpec.names
  rw [List.map_append, List.map_map, List.map_map]
  congr 1
  · exact List.zipIdx_map_fst 0 _
  · exact List.map_id _

theorem keys_of_ppBegin {spec : ParamSpec} {args : List Zval} {st : PpState}
    (h : ppBegin spec args = some st) : keys st.vals = spec.names := by
  unfold ppBegin at h
  split at h
  · cases h
  · split at h
    · rw [← Option.some.inj h]
      exact keys_ppVals spec _ _
    · rw [← Option.some.inj h]
      exact keys_ppVals spec _ _
    · cases h

theorem keys_of_ppElement {st : PpState} {k : ArrayKey} {data : Zval} {e : PpEntry}
    (h : ppElement st k data = .ok e) : keys e.vals = keys st.vals := by
  cases k with
  | index i =>
    obtain ⟨id, -, hid⟩ := C.bind_eq_ok.mp h
    rw [← Except.ok.inj hid]
  | str id =>
    cases data with
    | array own =>
      rw [← Except.ok.inj h]
      exact List.map_map
    | _ => rw [← Except.ok.inj h]

/-- **An entry has the declared arguments and no others.** -/
theorem keys_of_mem_ppEntries {spec : ParamSpec} {args : List Zval} {st : PpState} {e : PpEntry}
    (h : ppBegin spec args = some st) (he : .ok e ∈ ppEntries st) : keys e.vals = spec.names := by
  rw [← keys_of_ppBegin h]
  unfold ppEntries at he
  split at he
  · obtain ⟨⟨k, data⟩, -, hdata⟩ := List.mem_map.mp he
    exact keys_of_ppElement hdata
  · rw [Except.ok.inj (List.mem_singleton.mp he)]
  · cases he

theorem arg_of_undeclared {spec : ParamSpec} {e : PpEntry} (h : keys e.vals = spec.names)
    {name : String} (hname : name ∉ spec.names) : e.arg name = none := by
  rw [PpEntry.arg, fetch_eq_none.mpr (h ▸ hname)]
  rfl

end PhpCouchbase
