import PhpCouchbase.MutateInBuilder
import PhpCouchbase.StoreGet

/-!
# Maps, lists, sets and queues

The data structure methods of a bucket (`bucket.c`) keep a map, a list, a set or a queue in one
document.  The ones that only write send one mutation and drop its fragment; `setRemove` and
`queueRemove` first read and then remove what they read, under the CAS of the reading.
-/

set_option autoImplicit false

namespace PhpCouchbase

open OrderedMap

/-- `"[%ld]"` -/
def indexPath (index : Int64) : Bytes := ascii "[" ++ printLong index ++ ascii "]"

section Writers

variable (php : Php) (bucket : BucketConf)

/-! ## The methods that only write -/

/-- The fragment is dropped; an exception stays, also one that a `jsonSerialize()` threw before the
request. -/
def mutateEnd (thrown : Bool) : Requested → Proc Zval
  | .threw e => .done (.ok (.thrown e))
  | _ => .done (.ok (if thrown then .thrown .user else .returned .null))

def mutateOnce (thrown : Bool) (b : MutateInBuilder) : Proc Zval :=
  bucketSubdocRequest php bucket b.command (mutateEnd thrown)

/-- The methods with a value: a builder that could not take it is sent as it is. -/
def mutateValue (id : Bytes) (val : Zval) (build : MutateInBuilder → Option MutateInBuilder) :
    Proc Zval :=
  let b := mutateInBuilderInit id 0
  mutateOnce php bucket (php.encode val).thrown ((build b).getD b)

def mapAdd (id key : Bytes) (val : Zval) : Proc Zval :=
  mutateValue php bucket id val fun b => mutateInBuilderUpsert php b key val mkIntermediates

def mapRemove (id key : Bytes) : Proc Zval :=
  mutateOnce php bucket false (mutateInBuilderRemove (mutateInBuilderInit id 0) key noOptions)

def listPush (id : Bytes) (val : Zval) : Proc Zval :=
  mutateValue php bucket id val fun b => mutateInBuilderArrayAppend php b [] val mkIntermediates

def listShift (id : Bytes) (val : Zval) : Proc Zval :=
  mutateValue php bucket id val fun b => mutateInBuilderArrayPrepend php b [] val mkIntermediates

def listRemove (id : Bytes) (index : Int64) : Proc Zval :=
  mutateOnce php bucket false
    (mutateInBuilderRemove (mutateInBuilderInit id 0) (indexPath index) noOptions)

def listSet (id : Bytes) (index : Int64) (val : Zval) : Proc Zval :=
  mutateValue php bucket id val fun b => mutateInBuilderReplace php b (indexPath index) val noOptions

def setAdd (id : Bytes) (val : Zval) : Proc Zval :=
  mutateValue php bucket id val fun b => mutateInBuilderArrayAddUnique php b [] val mkIntermediates

/-- An alias. -/
def queueAdd (id : Bytes) (val : Zval) : Proc Zval := listShift php bucket id val

end Writers

/-! ## `setRemove` -/

/-- `pcbc_bucket_get` of one id, from the answer to its command on. -/
def getOutcome (bucket : BucketConf) : Answer Response → C (Outcome Document)
  | .refused err _ => .ok (.thrown (.lcb err))
  | .response resp =>
    if resp.rc = .success then do
      let doc ← getDocument bucket resp
      return .returned doc
    else .ok (.thrown (.lcb resp.rc))

/-- The first element that is identical to the value. -/
def searchIdentical (php : Php) (val : Zval) (elems : List (ArrayKey × Zval)) : Option Nat :=
  elems.findIdx? fun entry => zendIsIdentical php val entry.2

section Removers

variable (php : Php) (bucket : BucketConf)

/-- The end of `setRemove`.  The return value was destroyed before the request; where the request
does not replace it, its error is read all the same. -/
def setRemoveEnd : Requested → Proc Zval
  | .fragment f => .done (.ok (.returned (if f.error.isSome then .false else .true)))
  | _ => .done (.error .freed)

/-- The second half of `setRemove`. -/
def setRemoveFound (id : Bytes) (cas : UInt64) (found : Nat) : Proc Zval :=
  let b := mutateInBuilderRemove (mutateInBuilderInit id cas)
    (indexPath (Int64.ofNat found)) noOptions
  bucketSubdocRequest php bucket b.command setRemoveEnd

/-- The search for the element in the document. -/
def setRemoveFrom (id : Bytes) (val : Zval) (doc : Document) : Proc Zval :=
  match doc.value with
  | .array elems =>
    match searchIdentical php val elems with
    | some found => setRemoveFound php bucket id (casDecode doc.cas) found
    | none => .done (.ok (.returned .false))
  | _ => .done (.ok (.returned .false))

/-- `Bucket::setRemove` from the answer to the first command on. -/
def setRemoveRead (id : Bytes) (val : Zval) (answer : Answer Response) : Proc Zval :=
  match getOutcome bucket answer with
  | .error f => .done (.error f)
  | .ok (.thrown e) => .done (.ok (.thrown e))
  | .ok (.returned doc) => setRemoveFrom php bucket id val doc

def setRemove (id val : Zval) : Proc Zval :=
  match id with
  | .string id => .get id (setRemoveRead php bucket id val)
  | _ => .done (.ok (.thrown (.pcbc "id must be a string" .einval)))

/-! ## `queueRemove` -/

structure LookupInBuilder where
  id : Bytes
  specs : List SdSpec

/-- `pcbc_lookup_in_builder_init` without arguments. -/
def lookupInBuilderInit (id : Bytes) : LookupInBuilder := ⟨id, []⟩

/-- `pcbc_lookup_in_builder_get` -/
def lookupInBuilderGet (b : LookupInBuilder) (path : Bytes) (options : Option Zval) :
    LookupInBuilder :=
  { b with specs := b.specs ++ [⟨.get, path, [], subdocOptionsToFlags true options⟩] }

/-- `COPY_SPEC`: no CAS. -/
def LookupInBuilder.command (b : LookupInBuilder) : SubdocCommand := ⟨b.id, b.specs, 0⟩

/-- `$fragment->value[0]["value"]`; none where one of the steps finds nothing. -/
def fetchFirst (f : DocumentFragment) : Option Zval :=
  match f.value with
  | .array elems =>
    match phpArrayFetchn elems 0 with
    | some (.array entry) => fetch entry (.str (ascii "value"))
    | _ => none
  | _ => none

/-- The path of the last element. -/
def lastPath : Bytes := ascii "[-1]"

/-- The end of `queueRemove`, with the fragment that is in the return value. -/
def queueRemoveReturn (val : Zval) (f : DocumentFragment) : Proc Zval :=
  .done (.ok (.returned (if f.error.isSome then .null else val)))

/-- What follows the second request of `queueRemove`. -/
def queueRemoveEnd (val : Zval) (f : DocumentFragment) : Requested → Proc Zval
  | .skipped => queueRemoveReturn val f
  | .threw e => .done (.ok (.thrown e))
  | .fragment g => queueRemoveReturn val g

/-- The second half of `queueRemove`. -/
def queueRemoveFound (id : Bytes) (val : Zval) (f : DocumentFragment) : Proc Zval :=
  let b := mutateInBuilderRemove (mutateInBuilderInit id (casDecode f.cas)) lastPath noOptions
  bucketSubdocRequest php bucket b.command (queueRemoveEnd val f)

/-- `Bucket::queueRemove` after the lookup.  A refused lookup leaves a null, whose property is
read. -/
def queueRemoveRead (id : Bytes) : Requested → Proc Zval
  | .fragment f =>
    match fetchFirst f with
    | some val => queueRemoveFound php bucket id val f
    | none => .done (.ok (.returned .null))
  | _ => .done (.error .wrongType)

def queueRemove (id : Bytes) : Proc Zval :=
  let b := lookupInBuilderGet (lookupInBuilderInit id) lastPath none
  bucketSubdocRequest php bucket b.command (queueRemoveRead php bucket id)

end Removers

/-! ## The reading of `setRemove` is `get` -/

/-- The answer to the command of `get($id)`. -/
def getAnswer (w : World) (id : Bytes) : Answer Response :=
  if h : w.schedule 0 (plainGet id) = .success then .response (w.respond 0 (plainGet id))
  else .refused (w.schedule 0 (plainGet id)) h

/-- One document as the result of `get`. -/
def Outcome.document : Outcome Document → Outcome Returned
  | .returned doc => .returned (.document doc)
  | .thrown e => .thrown e

/-- **`getOutcome` is the key-value method `get`** for one id. -/
theorem batch_get_outcome (w : World) (id : Bytes) :
    (batch get w [.string id]).map BatchRun.outcome =
      (getOutcome w.bucket (getAnswer w id)).map Outcome.document := by
  unfold getAnswer
  split
  · rename_i hs
    rw [batch_get_waited hs, getOutcome]
    split
    · rename_i hrc
      rw [procResults_single_eq hrc, resultDocument, if_pos hrc]
      show _ = Except.map _ (getDocument w.bucket (w.respond 0 (plainGet id)) >>= _)
      have hget : get.document w.bucket = getDocument w.bucket := rfl
      rw [hget]
      cases getDocument w.bucket (w.respond 0 (plainGet id)) <;> rfl
    · rename_i hrc
      rw [procResults_single_error hrc]
      show Except.ok (finish none _ _) = _
      rw [finish, if_neg (by simp), if_neg hrc]
      rfl
  · rename_i hs
    obtain ⟨hst, hrun⟩ := get_one_run w id
    have hrefused : EarlyExit.run (batchEntry get w) 0
        (ppEntries ⟨.string id, ppVals get.spec [.string id] []⟩) =
        .ok ([], some (.failed (w.schedule 0 (plainGet id)))) := by
      rw [hrun]
      split
      · rename_i h
        exact absurd h hs
      · rfl
    rw [batch_unscheduled hst hrefused (by simp)]
    simp only [loopError, finish, if_neg hs]
    rfl

end PhpCouchbase
