import PhpCouchbase.Subdoc

/-!
# `MutateInBuilder`

The methods of `mutate_in_builder.c`.  Each of them appends one spec.  A value that sets the error
code of JSON appends nothing; then the C functions return `FAILURE` and the PHP methods return null
instead of the builder, with the exception of `arrayPrepend`, which returns the builder all the
same.  A value whose `jsonSerialize()` throws sets no error code: what is in the buffer is queued,
and the call throws when the method returns.
-/

set_option autoImplicit false

namespace PhpCouchbase

open OrderedMap

/-- `pcbc_mutate_in_builder_t` -/
structure MutateInBuilder where
  id : Bytes
  cas : UInt64
  specs : List SdSpec
  deriving DecidableEq, Repr

/-- `pcbc_mutate_in_builder_init` -/
def mutateInBuilderInit (id : Bytes) (cas : UInt64) : MutateInBuilder := ⟨id, cas, []⟩

/-- `Bucket::mutateIn` with a CAS; without one `cas` is empty. -/
def mutateIn (id cas : Bytes) : MutateInBuilder := mutateInBuilderInit id (base36DecodeStr cas)

namespace MutateInBuilder

/-- `tail->next = spec`, `nspecs++` -/
def add (b : MutateInBuilder) (spec : SdSpec) : MutateInBuilder :=
  { b with specs := b.specs ++ [spec] }

/-- `COPY_SPEC` and `cmd.cas` -/
def command (b : MutateInBuilder) : SubdocCommand := ⟨b.id, b.specs, b.cas⟩

end MutateInBuilder

/-! ## Specs -/

/-- A spec with a value, when JSON can encode it. -/
def encodedSpec (php : Php) (sdcmd : SdCommand) (path : Bytes) (value : Zval)
    (options : SdOptions) : Option SdSpec :=
  (php.jsonEncode value).map fun text => ⟨sdcmd, path, text, options⟩

/-- The two loops over `isspace`. -/
def trimSpaces (text : Bytes) : Bytes :=
  ((text.dropWhile isSpace).reverse.dropWhile isSpace).reverse

/-- The items of a non-empty array, without its brackets: the length of the text is an `int`. -/
def arrayItems (text : Bytes) : Option Bytes :=
  let n := narrowInt text.length
  if n < 0 then none
  else
    let items := trimSpaces (text.take n.toNat)
    if items.length < 3 ∨ items.head? ≠ some 91 ∨ items.getLast? ≠ some 93 then none
    else some (items.drop 1).dropLast

/-- A spec with the items of an array. -/
def multivalueSpec (php : Php) (sdcmd : SdCommand) (path : Bytes) (value : Zval)
    (options : SdOptions) : Option SdSpec :=
  ((php.jsonEncode value).bind arrayItems).map fun items => ⟨sdcmd, path, items, options⟩

/-- A spec that removes. -/
def removeSpec (path : Bytes) (options : SdOptions) : SdSpec := ⟨.remove, path, [], options⟩

/-! ## The C functions -/

namespace MutateInBuilder

/-- The functions that append a spec with a value; `none` is `FAILURE`, with the builder as it
was. -/
def addEncoded (php : Php) (sdcmd : SdCommand) (b : MutateInBuilder) (path : Bytes) (value : Zval)
    (flags : SdOptions) : Option MutateInBuilder :=
  (encodedSpec php sdcmd path value flags).map b.add

end MutateInBuilder

/-- `pcbc_mutate_in_builder_remove` -/
def mutateInBuilderRemove (b : MutateInBuilder) (path : Bytes) (flags : SdOptions) :
    MutateInBuilder := b.add (removeSpec path flags)

/-- `pcbc_mutate_in_builder_upsert` -/
def mutateInBuilderUpsert (php : Php) := MutateInBuilder.addEncoded php .dictUpsert

/-- `pcbc_mutate_in_builder_replace` -/
def mutateInBuilderReplace (php : Php) := MutateInBuilder.addEncoded php .replace

/-- `pcbc_mutate_in_builder_array_add_unique` -/
def mutateInBuilderArrayAddUnique (php : Php) := MutateInBuilder.addEncoded php .arrayAddUnique

/-- `pcbc_mutate_in_builder_array_prepend` -/
def mutateInBuilderArrayPrepend (php : Php) := MutateInBuilder.addEncoded php .arrayAddFirst

/-- `pcbc_mutate_in_builder_array_append` -/
def mutateInBuilderArrayAppend (php : Php) := MutateInBuilder.addEncoded php .arrayAddLast

/-! ## The PHP methods -/

/-- A method returns the builder, or null; with an exception pending the call throws. -/
inductive BuilderResult where
  | this
  | null
  | threw
  deriving DecidableEq, Repr

/-- What becomes of a returned value: a pending exception is thrown. -/
def BuilderResult.leave (thrown : Bool) (r : BuilderResult) : BuilderResult :=
  if thrown then .threw else r

theorem leave_null_ne (thrown : Bool) : BuilderResult.leave thrown .null ≠ .this := by
  cases thrown <;> decide

/-- `if (rv == FAILURE) RETURN_NULL()`, else `RETURN_ZVAL(getThis())`, behind the encoding of a
value. -/
def orNull (php : Php) (value : Zval) (b : MutateInBuilder) :
    Option MutateInBuilder → MutateInBuilder × BuilderResult
  | some b' => (b', .leave (php.encode value).thrown .this)
  | none => (b, .leave (php.encode value).thrown .null)

namespace MutateInBuilder

variable (php : Php) (b : MutateInBuilder) (path : Bytes)

def remove (options : Option Zval) : MutateInBuilder × BuilderResult :=
  (mutateInBuilderRemove b path (subdocOptionsToFlags false options), .this)

/-- The delta is printed with `"%ld"`. -/
def counter (delta : Int64) (options : Option Zval) : MutateInBuilder × BuilderResult :=
  (b.add ⟨.counter, path, printLong delta, subdocOptionsToFlags false options⟩, .this)

def insert (value : Zval) (options : Option Zval) : MutateInBuilder × BuilderResult :=
  orNull php value b <|
    (encodedSpec php .dictAdd path value (subdocOptionsToFlags false options)).map b.add

def upsert (value : Zval) (options : Option Zval) : MutateInBuilder × BuilderResult :=
  orNull php value b (mutateInBuilderUpsert php b path value (subdocOptionsToFlags false options))

def replace (value : Zval) (options : Option Zval) : MutateInBuilder × BuilderResult :=
  orNull php value b (mutateInBuilderReplace php b path value (subdocOptionsToFlags false options))

def arrayInsert (value : Zval) (options : Option Zval) : MutateInBuilder × BuilderResult :=
  orNull php value b <|
    (encodedSpec php .arrayInsert path value (subdocOptionsToFlags false options)).map b.add

def arrayInsertAll (value : Zval) (options : Option Zval) : MutateInBuilder × BuilderResult :=
  orNull php value b <|
    (multivalueSpec php .arrayInsert path value (subdocOptionsToFlags false options)).map b.add

def arrayAddUnique (value : Zval) (options : Option Zval) : MutateInBuilder × BuilderResult :=
  orNull php value b (mutateInBuilderArrayAddUnique php b path value (subdocOptionsToFlags false options))

/-- The result of the C function is ignored. -/
def arrayPrepend (value : Zval) (options : Option Zval) : MutateInBuilder × BuilderResult :=
  ((mutateInBuilderArrayPrepend php b path value (subdocOptionsToFlags false options)).getD b,
    .leave (php.encode value).thrown .this)

def arrayPrependAll (value : Zval) (options : Option Zval) : MutateInBuilder × BuilderResult :=
  orNull php value b <|
    (multivalueSpec php .arrayAddFirst path value (subdocOptionsToFlags false options)).map b.add

def arrayAppend (value : Zval) (options : Option Zval) : MutateInBuilder × BuilderResult :=
  orNull php value b (mutateInBuilderArrayAppend php b path value (subdocOptionsToFlags false options))

def arrayAppendAll (value : Zval) (options : Option Zval) : MutateInBuilder × BuilderResult :=
  orNull php value b <|
    (multivalueSpec php .arrayAddLast path value (subdocOptionsToFlags false options)).map b.add

/-- `MutateInBuilder::execute`: the fragment, or null. -/
def execute (bucket : BucketConf) : Proc (Option DocumentFragment) :=
  subdocExecute php bucket b.command

end MutateInBuilder

/-! ## Calls on a builder -/

/-- A call of a method that builds. -/
inductive BuilderCall where
  | remove (path : Bytes) (options : Option Zval)
  | counter (path : Bytes) (delta : Int64) (options : Option Zval)
  | insert (path : Bytes) (value : Zval) (options : Option Zval)
  | upsert (path : Bytes) (value : Zval) (options : Option Zval)
  | replace (path : Bytes) (value : Zval) (options : Option Zval)
  | arrayInsert (path : Bytes) (value : Zval) (options : Option Zval)
  | arrayInsertAll (path : Bytes) (value : Zval) (options : Option Zval)
  | arrayAddUnique (path : Bytes) (value : Zval) (options : Option Zval)
  | arrayPrepend (path : Bytes) (value : Zval) (options : Option Zval)
  | arrayPrependAll (path : Bytes) (value : Zval) (options : Option Zval)
  | arrayAppend (path : Bytes) (value : Zval) (options : Option Zval)
  | arrayAppendAll (path : Bytes) (value : Zval) (options : Option Zval)

namespace BuilderCall

/-- The method of a call. -/
def run (php : Php) (b : MutateInBuilder) : BuilderCall → MutateInBuilder × BuilderResult
  | remove path options => b.remove path options
  | counter path delta options => b.counter path delta options
  | insert path value options => b.insert php path value options
  | upsert path value options => b.upsert php path value options
  | replace path value options => b.replace php path value options
  | arrayInsert path value options => b.arrayInsert php path value options
  | arrayInsertAll path value options => b.arrayInsertAll php path value options
  | arrayAddUnique path value options => b.arrayAddUnique php path value options
  | arrayPrepend path value options => b.arrayPrepend php path value options
  | arrayPrependAll path value options => b.arrayPrependAll php path value options
  | arrayAppend path value options => b.arrayAppend php path value options
  | arrayAppendAll path value options => b.arrayAppendAll php path value options

/-- Calls in their order, with their results. -/
def runAll (php : Php) (b : MutateInBuilder) :
    List BuilderCall → MutateInBuilder × List BuilderResult
  | [] => (b, [])
  | call :: calls =>
    let (b', r) := call.run php b
    let (b'', rs) := runAll php b' calls
    (b'', r :: rs)

/-- The spec that a call asks for, when there is one. -/
def spec (php : Php) : BuilderCall → Option SdSpec
  | remove path options => some (removeSpec path (subdocOptionsToFlags false options))
  | counter path delta options =>
    some ⟨.counter, path, printLong delta, subdocOptionsToFlags false options⟩
  | insert path value options =>
    encodedSpec php .dictAdd path value (subdocOptionsToFlags false options)
  | upsert path value options =>
    encodedSpec php .dictUpsert path value (subdocOptionsToFlags false options)
  | replace path value options =>
    encodedSpec php .replace path value (subdocOptionsToFlags false options)
  | arrayInsert path value options =>
    encodedSpec php .arrayInsert path value (subdocOptionsToFlags false options)
  | arrayInsertAll path value options =>
    multivalueSpec php .arrayInsert path value (subdocOptionsToFlags false options)
  | arrayAddUnique path value options =>
    encodedSpec php .arrayAddUnique path value (subdocOptionsToFlags false options)
  | arrayPrepend path value options =>
    encodedSpec php .arrayAddFirst path value (subdocOptionsToFlags false options)
  | arrayPrependAll path value options =>
    multivalueSpec php .arrayAddFirst path value (subdocOptionsToFlags false options)
  | arrayAppend path value options =>
    encodedSpec php .arrayAddLast path value (subdocOptionsToFlags false options)
  | arrayAppendAll path value options =>
    multivalueSpec php .arrayAddLast path value (subdocOptionsToFlags false options)

/-- The value that a call encodes. -/
def value : BuilderCall → Option Zval
  | remove _ _ => none
  | counter _ _ _ => none
  | insert _ value _ => some value
  | upsert _ value _ => some value
  | replace _ value _ => some value
  | arrayInsert _ value _ => some value
  | arrayInsertAll _ value _ => some value
  | arrayAddUnique _ value _ => some value
  | arrayPrepend _ value _ => some value
  | arrayPrependAll _ value _ => some value
  | arrayAppend _ value _ => some value
  | arrayAppendAll _ value _ => some value

/-- A call of `arrayPrepend`. -/
def isArrayPrepend : BuilderCall → Bool
  | arrayPrepend _ _ _ => true
  | _ => false

/-- What a call returns. -/
def result (php : Php) (call : BuilderCall) : BuilderResult :=
  .leave (php.throws call.value) (if (call.spec php).isSome || call.isArrayPrepend then .this else .null)

variable {php : Php} {b : MutateInBuilder}

theorem orNull_eq (value : Zval) (spec : Option SdSpec) :
    orNull php value b (spec.map b.add) =
      ((spec.map b.add).getD b,
        .leave (php.encode value).thrown (if spec.isSome || false then .this else .null)) := by
  cases spec <;> rfl

/-- **A call appends its spec**, and returns null exactly when there is none and the method is not
`arrayPrepend`. -/
theorem run_eq (call : BuilderCall) :
    call.run php b = (((call.spec php).map b.add).getD b, call.result php) := by
  cases call with
  | remove path options => rfl
  | counter path delta options => rfl
  | arrayPrepend path value options =>
    rw [result, isArrayPrepend, Bool.or_true, if_pos rfl]
    rfl
  | insert path value options => exact orNull_eq value _
  | upsert path value options => exact orNull_eq value _
  | replace path value options => exact orNull_eq value _
  | arrayInsert path value options => exact orNull_eq value _
  | arrayInsertAll path value options => exact orNull_eq value _
  | arrayAddUnique path value options => exact orNull_eq value _
  | arrayPrependAll path value options => exact orNull_eq value _
  | arrayAppend path value options => exact orNull_eq value _
  | arrayAppendAll path value options => exact orNull_eq value _

theorem result_eq_this {call : BuilderCall} (h : call.result php = .this) :
    php.throws call.value = false ∧ ((call.spec php).isSome || call.isArrayPrepend) = true := by
  unfold result BuilderResult.leave at h
  split at h
  · cases h
  · rename_i hthrows
    split at h
    · rename_i hspec
      exact ⟨by simpa using hthrows, hspec⟩
    · cases h

end BuilderCall

variable {php : Php}

/-- **The builder has the specs of the calls**, in their order, and each call says whether it has
one, except for `arrayPrepend`. -/
theorem runAll_eq (b : MutateInBuilder) (calls : List BuilderCall) :
    BuilderCall.runAll php b calls =
      ({ b with specs := b.specs ++ calls.filterMap (BuilderCall.spec php) },
        calls.map (BuilderCall.result php)) := by
  induction calls generalizing b with
  | nil =>
    rw [List.filterMap_nil, List.append_nil]
    rfl
  | cons call calls ih =>
    rw [BuilderCall.runAll, BuilderCall.run_eq, List.map_cons, List.filterMap_cons]
    cases hspec : call.spec php with
    | none =>
      simp only [Option.map_none, Option.getD_none, ih]
    | some spec =>
      simp only [Option.map_some, Option.getD_some, ih, MutateInBuilder.add]
      rw [List.append_assoc]
      rfl

end PhpCouchbase
