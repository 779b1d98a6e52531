import PhpCouchbase.Batch
import PhpCouchbase.LongText
import PhpCouchbase.Lib.OrderedMap

/-!
# Subdocument requests

`bucket/subdoc.c`, and what its callers use of PHP.  A builder collects specs;
`pcbc_bucket_subdoc_request` sends all of them in one command and turns the response into a
`DocumentFragment`.  A method of the bucket sends one request or two, with a wait after each, and
other clients may come in between: a method is therefore modelled by `Proc`, a tree that branches
over the answers.
-/

set_option autoImplicit false

namespace PhpCouchbase

open OrderedMap

/-! ## PHP -/

/-- What the subdocument operations call of PHP itself. -/
structure Php where
  /-- `PCBC_JSON_ENCODE` -/
  encode : Zval → JsonEncoding
  /-- `PCBC_JSON_COPY_DECODE` with `PHP_JSON_OBJECT_AS_ARRAY`; an error code is only logged -/
  jsonDecode : Bytes → Zval
  /-- `zend_is_identical` of two arrays or of two objects -/
  identicalComposite : Zval → Zval → Bool

/-- The JSON text that a method goes on with, which looks at the error code only. -/
def Php.jsonEncode (php : Php) (value : Zval) : Option Bytes := (php.encode value).unfailed

/-- A `jsonSerialize()` throws while the value of a call, if it has one, is encoded. -/
def Php.throws (php : Php) : Option Zval → Bool
  | some value => (php.encode value).thrown
  | none => false

/-- `zend_is_true` -/
def zendIsTrue : Zval → Bool
  | .true => true
  | .long n => n ≠ 0
  | .double bits => bits <<< 1 ≠ 0
  | .string s => s ≠ [] ∧ s ≠ ascii "0"
  | .array elems => elems ≠ []
  | .object _ _ => true
  | .reference value => zendIsTrue value
  | _ => false

/-- Two doubles are equal: no NaN is, and the two zeros are. -/
def doubleEq (a b : UInt64) : Bool :=
  let nan (x : UInt64) : Bool := x <<< 1 > (0x7FF0000000000000 : UInt64) <<< 1
  !nan a && !nan b && (a = b || a <<< 1 = 0 && b <<< 1 = 0)

/-- `zend_is_identical` -/
def zendIsIdentical (php : Php) : Zval → Zval → Bool
  | .null, .null => true
  | .false, .false => true
  | .true, .true => true
  | .long a, .long b => a = b
  | .double a, .double b => doubleEq a b
  | .string a, .string b => a = b
  | .array a, .array b => php.identicalComposite (.array a) (.array b)
  | .object c a, .object d b => php.identicalComposite (.object c a) (.object d b)
  | _, _ => false

/-- A JSON string. -/
def quoted (s : String) : Bytes := 34 :: (ascii s ++ [34])

/-- JSON of strings without quotes in them. -/
def plainPhp : Php where
  encode
    | .string s => .done (34 :: (s ++ [34]))
    | _ => .refused
  jsonDecode
    | 34 :: text => .string text.dropLast
    | _ => .null
  identicalComposite _ _ := false

/-! ## Specs and commands -/

inductive SdCommand where
  | get
  /-- `LCB_SDCMD_EXISTS` -/
  | pathExists
  | remove
  | counter
  | dictAdd
  | dictUpsert
  | replace
  | arrayInsert
  | arrayAddUnique
  | arrayAddFirst
  | arrayAddLast
  deriving DecidableEq, Repr

/-- The commands of a lookup. -/
def SdCommand.isLookup : SdCommand → Bool
  | .get | .pathExists => true
  | _ => false

/-- `lcb_SDSPEC.options` -/
structure SdOptions where
  mkintermediates : Bool
  xattrpath : Bool
  xattrMacrovalues : Bool
  deriving DecidableEq, Repr

def noOptions : SdOptions := ⟨false, false, false⟩

/-- `LCB_SDSPEC_F_MKINTERMEDIATES` -/
def mkIntermediates : SdOptions := ⟨true, false, false⟩

/-- `lcb_SDSPEC` -/
structure SdSpec where
  sdcmd : SdCommand
  path : Bytes
  value : Bytes
  options : SdOptions
  deriving DecidableEq, Repr

/-- `lcb_CMDSUBDOC` -/
structure SubdocCommand where
  key : Bytes
  specs : List SdSpec
  cas : UInt64
  deriving DecidableEq, Repr

/-- libcouchbase runs a command as a lookup or as a mutation by the kind of its specs. -/
def SubdocCommand.isLookup (cmd : SubdocCommand) : Bool := cmd.specs.all (·.sdcmd.isLookup)

/-- `php_array_fetch_bool` -/
def phpArrayFetchBool (elems : List (ArrayKey × Zval)) (key : String) : Bool :=
  match fetch elems (.str (ascii key)) with
  | some z => zendIsTrue z
  | none => false

/-- `pcbc_subdoc_options_to_flags` of a path -/
def subdocOptionsToFlags (isLookup : Bool) (options : Option Zval) : SdOptions :=
  match isLookup, options with
  | false, some .true => mkIntermediates
  | false, some .false => noOptions
  | false, some (.array elems) =>
    ⟨phpArrayFetchBool elems "createPath", phpArrayFetchBool elems "xattr",
      phpArrayFetchBool elems "expandMacroValues"⟩
  | true, some (.array elems) => ⟨false, phpArrayFetchBool elems "xattr", false⟩
  | _, _ => noOptions

/-! ## Responses and fragments -/

/-- `lcb_SDENTRY`; the value is empty where the server sent none -/
structure SdEntry where
  value : Bytes
  status : Int64
  index : Int64
  deriving DecidableEq, Repr

/-- `lcb_RESPSUBDOC` -/
structure SubdocResponse where
  rc : LcbError
  cas : UInt64
  token : Option LcbMutationToken
  entries : List SdEntry

/-- `\Couchbase\DocumentFragment` -/
structure DocumentFragment where
  error : Option LcbError := none
  value : Zval := .null
  cas : Zval := .null
  token : Option MutationToken := none

/-- `opcookie_subdoc_res` -/
structure SubdocResult where
  err : LcbError
  value : Zval
  cas : Option Zval
  token : Option MutationToken

/-- The PHP value of the text of one entry. -/
def entryZval (php : Php) (value : Bytes) : Zval :=
  if value = [] then .null else php.jsonDecode value

/-- The array of one entry. -/
def subdocEntry (php : Php) (cur : SdEntry) : Zval :=
  .array [(.str (ascii "value"), entryZval php cur.value), (.str (ascii "code"), .long cur.status)]

/-- `subdoc_callback`: the entries of a mutation come with their index, those of a lookup are
counted. -/
def subdocCallback (php : Php) (bucket : BucketConf) (isLookup : Bool) (resp : SubdocResponse) :
    SubdocResult where
  err := resp.rc
  value := .array <| fill [] <| resp.entries.zipIdx.map fun (cur, oix) =>
    (.index (if isLookup then Int64.ofNat oix else cur.index), subdocEntry php cur)
  cas :=
    if resp.rc = .success ∨ resp.rc = .subdocMultiFailure then some (casEncode resp.cas) else none
  token := resp.token.map fun mt => ⟨bucket.bucketname, mt⟩

/-- `pcbc_document_fragment_init` -/
def documentFragmentInit (value : Zval) (cas : Option Zval) (token : Option MutationToken) :
    DocumentFragment where
  value := value
  cas := cas.getD .null
  token := token

/-- `pcbc_document_fragment_init_error`: no CAS. -/
def documentFragmentInitError (err : LcbError) (value : Option Zval) : DocumentFragment where
  error := some err
  value := value.getD .null

/-- `proc_subdoc_results` -/
def procSubdocResults (res : SubdocResult) : DocumentFragment :=
  if res.err = .success then documentFragmentInit res.value res.cas res.token
  else documentFragmentInitError res.err
    (if res.err = .subdocMultiFailure then some res.value else none)

/-! ## Methods as trees over the answers -/

/-- The answer to a command: libcouchbase refuses it, or the server responds. -/
inductive Answer (α : Type) where
  | refused (err : LcbError) (h : err ≠ .success)
  | response (resp : α)

/-- A method: it ends, or it sends a request and goes on with the answer. -/
inductive Proc (ρ : Type) where
  | done (o : C (Outcome ρ))
  /-- `lcb_get3`, then `lcb_wait` -/
  | get (key : Bytes) (next : Answer Response → Proc ρ)
  /-- `lcb_subdoc3`, then `lcb_wait` -/
  | subdoc (cmd : SubdocCommand) (next : Answer SubdocResponse → Proc ρ)

/-- What `pcbc_bucket_subdoc_request` leaves behind: the return value as it was, with an exception
or without one, or a fragment in it. -/
inductive Requested where
  | skipped
  | threw (e : Exn)
  | fragment (f : DocumentFragment)

section Requests

variable (php : Php) (bucket : BucketConf) {ρ : Type}

/-- The fragment of a response. -/
def fragmentOf (cmd : SubdocCommand) (resp : SubdocResponse) : DocumentFragment :=
  procSubdocResults (subdocCallback php bucket cmd.isLookup resp)

/-- What the answer to a command leaves behind. -/
def requested (cmd : SubdocCommand) : Answer SubdocResponse → Requested
  | .refused err _ => .threw (.lcb err)
  | .response resp => .fragment (fragmentOf php bucket cmd resp)

/-- `pcbc_bucket_subdoc_request`: without specs nothing happens. -/
def bucketSubdocRequest (cmd : SubdocCommand) (next : Requested → Proc ρ) : Proc ρ :=
  if cmd.specs = [] then next .skipped
  else .subdoc cmd fun answer => next (requested php bucket cmd answer)

theorem bucketSubdocRequest_send {cmd : SubdocCommand} (h : cmd.specs ≠ [])
    (next : Requested → Proc ρ) :
    bucketSubdocRequest php bucket cmd next =
      .subdoc cmd fun answer => next (requested php bucket cmd answer) := if_neg h

/-- A fragment, or null. -/
def executeEnd : Requested → Proc (Option DocumentFragment)
  | .skipped => .done (.ok (.returned none))
  | .threw e => .done (.ok (.thrown e))
  | .fragment f => .done (.ok (.returned (some f)))

/-- The methods that only make the request. -/
def subdocExecute (cmd : SubdocCommand) : Proc (Option DocumentFragment) :=
  bucketSubdocRequest php bucket cmd executeEnd

end Requests

/-! ## What a fragment says -/

section Fragments

variable (php : Php) (bucket : BucketConf) {cmd : SubdocCommand} {resp : SubdocResponse}

theorem fragmentOf_eq (cmd : SubdocCommand) (resp : SubdocResponse) :
    fragmentOf php bucket cmd resp =
      if resp.rc = .success then
        documentFragmentInit (subdocCallback php bucket cmd.isLookup resp).value
          (subdocCallback php bucket cmd.isLookup resp).cas
          (subdocCallback php bucket cmd.isLookup resp).token
      else
        documentFragmentInitError resp.rc
          (if resp.rc = .subdocMultiFailure then
            some (subdocCallback php bucket cmd.isLookup resp).value else none) := rfl

/-- **A fragment has an error exactly when the server reported one.** -/
theorem fragmentOf_error (cmd : SubdocCommand) (resp : SubdocResponse) :
    (fragmentOf php bucket cmd resp).error = none ↔ resp.rc = .success := by
  rw [fragmentOf_eq]
  split
  · rename_i hrc
    exact ⟨fun _ => hrc, fun _ => rfl⟩
  · rename_i hrc
    refine ⟨?_, fun h => absurd h hrc⟩
    intro h
    cases h

theorem fragmentOf_cas_success (hrc : resp.rc = .success) :
    (fragmentOf php bucket cmd resp).cas = casEncode resp.cas := by
  rw [fragmentOf_eq, if_pos hrc, documentFragmentInit]
  simp [subdocCallback, hrc]

/-- An error fragment has no CAS. -/
theorem fragmentOf_cas (hrc : resp.rc ≠ .success) :
    (fragmentOf php bucket cmd resp).cas = .null := by
  rw [fragmentOf_eq, if_neg hrc]
  rfl

/-- A success and a multi failure have the entries with them. -/
theorem fragmentOf_value_eq (hrc : resp.rc = .success ∨ resp.rc = .subdocMultiFailure) :
    (fragmentOf php bucket cmd resp).value =
      (subdocCallback php bucket cmd.isLookup resp).value := by
  rcases hrc with hrc | hrc
  · rw [fragmentOf_eq, if_pos hrc]
    rfl
  · have hne : resp.rc ≠ .success := by
      rw [hrc]
      decide
    rw [fragmentOf_eq, if_neg hne, if_pos hrc]
    rfl

/-- Any other error has not. -/
theorem fragmentOf_value (hrc : resp.rc ≠ .success) (hmulti : resp.rc ≠ .subdocMultiFailure) :
    (fragmentOf php bucket cmd resp).value = .null := by
  rw [fragmentOf_eq, if_neg hrc, if_neg hmulti]
  rfl

end Fragments

end PhpCouchbase
