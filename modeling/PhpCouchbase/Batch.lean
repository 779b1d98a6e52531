import PhpCouchbase.Document
import PhpCouchbase.Paramparser
import PhpCouchbase.Lib.EarlyExit

/-!
# The key-value methods of a bucket

All key-value methods (`bucket/get.c`, `store.c`, `remove.c`, `touch.c`, `unlock.c` and `counter.c`)
have one shape.  They parse their arguments, walk over the ids, check the options of each id, build
a command and schedule it with the cookie of the call; then they wait and turn the results into
documents.  The shape is `batch`; the methods differ in the fields of `BatchMethod`, and each of
them is given below under its own name.

Two things leave the loop: a failed check throws and returns at once, from the middle of the loop; a
value that cannot be encoded or a command that libcouchbase refuses ends the loop with an error.
-/

set_option autoImplicit false

namespace PhpCouchbase

open OrderedMap

/-! ## Commands and responses -/

inductive StoreOperation where
  | add
  | set
  | replace
  | append
  | prepend
  deriving DecidableEq, Repr

/-- `lcb_CMDSTOREDUR` -/
structure StoreCommand where
  operation : StoreOperation
  key : Bytes
  value : EncodedValue
  cas : UInt64
  exptime : UInt32
  hashkey : Option Bytes
  persistTo : Int8
  replicateTo : Int8
  deriving DecidableEq, Repr

/-- The commands given to libcouchbase. -/
inductive Command where
  | get (key : Bytes) (lock : Bool) (exptime : UInt32) (hashkey : Option Bytes)
  | rget (key : Bytes) (select : Bool) (index : Int32) (hashkey : Option Bytes)
  /-- `lcb_storedur3` when a durability is asked for, else `lcb_store3` -/
  | store (durable : Bool) (cmd : StoreCommand)
  | remove (key : Bytes) (cas : UInt64) (hashkey : Option Bytes)
  | touch (key : Bytes) (exptime : UInt32) (hashkey : Option Bytes)
  | unlock (key : Bytes) (cas : UInt64) (hashkey : Option Bytes)
  | counter (key : Bytes) (delta : Int64) (initial : Option UInt64) (exptime : UInt32)
      (hashkey : Option Bytes)
  deriving DecidableEq, Repr

/-- The response of the server to one command. -/
structure Response where
  rc : LcbError
  value : Bytes
  itmflags : UInt32
  datatype : UInt8
  cas : UInt64
  counter : UInt64
  token : Option LcbMutationToken

/-- What a callback stores in the cookie: the response with a copy of the key and its length. -/
structure OpResult where
  key : Bytes
  keyLen : Nat
  resp : Response

/-- An exception. -/
inductive Exn where
  | pcbc (message : String) (code : LcbError)
  | lcb (code : LcbError)
  /-- whatever a user function threw -/
  | user
  deriving DecidableEq, Repr

/-- How a PHP method ends. -/
inductive Outcome (α : Type) where
  | returned (a : α)
  | thrown (e : Exn)

/-- The return value: null, one document, or an array of documents. -/
inductive Returned where
  | null
  | document (d : Document)
  | array (elems : List (ArrayKey × Document))

/-! ## The shape -/

/-- Which type an option must have. -/
inductive CheckKind where
  | long
  | string
  deriving DecidableEq, Repr

/-- `PCBC_CHECK_ZVAL_LONG` and `PCBC_CHECK_ZVAL_STRING` -/
structure Check where
  arg : String
  kind : CheckKind
  message : String

def CheckKind.accepts : CheckKind → Zval → Bool
  | .long, .long _ => true
  | .string, .string _ => true
  | _, _ => false

/-- The exception of a check; an argument that is not given passes. -/
def Check.failure (c : Check) (e : PpEntry) : Option Exn :=
  match e.arg c.arg with
  | some z => if c.kind.accepts z then none else some (.pcbc c.message .einval)
  | none => none

/-- The first check that the entry fails. -/
def rejection (checks : List Check) (e : PpEntry) : Option Exn := checks.findSome? (·.failure e)

structure BatchMethod where
  spec : ParamSpec
  checks : List Check
  /-- the initial value of `err`, `none` where the declaration leaves it uninitialised -/
  errInit : Option LcbError
  /-- the value goes through the encoder -/
  encodes : Bool
  /-- fills the command; the first argument reads `Z_LVAL` of a value of any type -/
  command : (Zval → Int64) → PpEntry → EncodedValue → C Command
  /-- the key length that the callback stores for a key -/
  keyLen : Bytes → Nat
  /-- the document of a successful response -/
  document : BucketConf → Response → C Document

/-- What a call meets: the bucket, the answer of libcouchbase to each command, the responses, and
the order of the callbacks. -/
structure World where
  bucket : BucketConf
  /-- the encoder, which may answer differently at each call -/
  encoder : Nat → Encoder
  /-- the bits of `Z_LVAL` of a value that is not a long -/
  lvalBits : Zval → Int64
  schedule : Nat → Command → LcbError
  respond : Nat → Command → Response
  deliver : List (Command × Nat) → List (Command × Nat)
  deliver_perm : ∀ cmds, (deliver cmds).Perm cmds

/-- Why the loop is left before its end: a failed check, an error, or an encoder that threw (the
error is then `LCB_ERROR`, and the exception stays pending). -/
inductive Stop where
  | invalid (e : Exn)
  | failed (err : LcbError)
  | threw
  deriving DecidableEq, Repr

def World.lval (w : World) : Zval → Int64
  | .long n => n
  | z => w.lvalBits z

/-- `pcbc_encode_value` of the entry's value; a missing value is a null pointer. -/
def entryValue (m : BatchMethod) (w : World) (i : Nat) (e : PpEntry) : C (Stop ⊕ EncodedValue) :=
  if m.encodes then
    match e.arg "value" with
    | none => .error .nullPointer
    | some value =>
      match w.encoder i value with
      | .threw => .ok (.inl .threw)
      | result =>
        match encodeValue result with
        | none => .ok (.inl (.failed .error))
        | some encoded => .ok (.inr encoded)
  else .ok (.inr ⟨[], 0, 0⟩)

/-- The body of the loop. -/
def batchEntry (m : BatchMethod) (w : World) (i : Nat) (entry : C PpEntry) :
    C (Stop ⊕ Command) := do
  let e ← entry
  match rejection m.checks e with
  | some exn => return .inl (.invalid exn)
  | none =>
    match ← entryValue m w i e with
    | .inl stop => return .inl stop
    | .inr value =>
      let cmd ← m.command w.lval e value
      match w.schedule i cmd with
      | .success => return .inr cmd
      | err => return .inl (.failed err)

def Command.key : Command → Bytes
  | .get key _ _ _ => key
  | .rget key _ _ _ => key
  | .store _ cmd => cmd.key
  | .remove key _ _ => key
  | .touch key _ _ => key
  | .unlock key _ _ => key
  | .counter key _ _ _ _ => key

/-- The response callback. -/
def callback (m : BatchMethod) (w : World) (p : Command × Nat) : OpResult :=
  ⟨p.1.key, m.keyLen p.1.key, w.respond p.2 p.1⟩

/-- `bop_get_return_doc`: the element of the array under the key, or the return value itself. -/
def bopGetReturnDoc (isMapped : Bool) (ret : Returned) (key : Bytes) (doc : Document) : Returned :=
  if isMapped then
    match ret with
    | .array elems => .array (update elems (.str key) doc)
    | _ => .array (update [] (.str key) doc)
  else .document doc

/-- The document of one result. -/
def resultDocument (m : BatchMethod) (bucket : BucketConf) (resp : Response) : C Document :=
  if resp.rc = .success then m.document bucket resp else .ok (documentInitError resp.rc)

/-- `proc_*_results` -/
def procResults (m : BatchMethod) (bucket : BucketConf) (cookie : Opcookie OpResult)
    (isMapped : Bool) : C (LcbError × Returned) := do
  let err := if isMapped then .success else cookie.firstError
  if err = .success then
    let docs ← cookie.results.mapM fun res => do
      return (res.key.take res.keyLen, ← resultDocument m bucket res.resp)
    let ret := docs.foldl (fun ret (key, doc) => bopGetReturnDoc isMapped ret key doc) .null
    return (.success, ret)
  else return (err, .null)

/-- What a call did: the commands it scheduled, whether it waited for them, and how it ended. -/
structure BatchRun where
  scheduled : List Command
  waited : Bool
  outcome : Outcome Returned

/-- The end of the method: `throw_lcb_exception(err)` unless `err` is success; an exception that
is pending is thrown in any case. -/
def finish (stop : Option Stop) (err : LcbError) (ret : Returned) : Outcome Returned :=
  if stop = some .threw then .thrown .user
  else if err = .success then .returned ret
  else .thrown (.lcb err)

/-- `err` when nothing was scheduled: what the loop set, or its initial value. -/
def loopError (m : BatchMethod) (stop : Option Stop) : Option LcbError :=
  match stop with
  | some (.failed err) => some err
  | some .threw => some .error
  | _ => m.errInit

/-- A key-value method. -/
def batch (m : BatchMethod) (w : World) (args : List Zval) : C BatchRun :=
  match ppBegin m.spec args with
  | none => .ok ⟨[], false, .thrown (.pcbc "Invalid arguments." .einval)⟩
  | some st => do
    let (scheduled, stop) ← EarlyExit.run (batchEntry m w) 0 (ppEntries st)
    match stop with
    | some (.invalid e) => return ⟨scheduled, false, .thrown e⟩
    | stop =>
      if scheduled = [] then
        match loopError m stop with
        | none => .error .uninitialised
        | some err => return ⟨[], false, finish stop err .null⟩
      else
        let cookie := Opcookie.collect (·.resp.rc)
          ((w.deliver scheduled.zipIdx).map (callback m w))
        let (err, ret) ← procResults m w.bucket cookie st.isMapped
        return ⟨scheduled, true, finish stop err ret⟩

/-! ## The methods -/

def checkLong (arg : String) : Check := ⟨arg, .long, arg ++ " must be an integer"⟩

def checkString (arg : String) : Check := ⟨arg, .string, arg ++ " must be a string"⟩

/-- `LCB_KREQ_SIMPLE(&cmd._hashkey, …)` when a groupid is given. -/
def hashkey (e : PpEntry) : C (Option Bytes) :=
  match e.arg "groupid" with
  | some z => do return some (← z.strval)
  | none => .ok none

/-- `if (zexpiry) cmd.exptime = Z_LVAL_P(zexpiry)` -/
def exptime (lval : Zval → Int64) (e : PpEntry) (arg : String) : UInt32 :=
  match e.arg arg with
  | some z => (lval z).toUInt64.toUInt32
  | none => 0

/-- `if (zcas) cmd.cas = pcbc_cas_decode(zcas)` -/
def entryCas (e : PpEntry) : UInt64 :=
  match e.arg "cas" with
  | some z => casDecode z
  | none => 0

/-- `if (zpersist) cmd.persist_to = (char)Z_LVAL_P(zpersist)` -/
def durability (lval : Zval → Int64) (e : PpEntry) (arg : String) : Int8 :=
  match e.arg arg with
  | some z => (lval z).toInt8
  | none => 0

/-- The callback copies the key with its length. -/
def wholeKey (key : Bytes) : Nat := key.length

/-- `get_callback` and the success branch of `proc_get_results`: the length is stored as an
`int`. -/
def getDocument (bucket : BucketConf) (resp : Response) : C Document :=
  documentInitDecode bucket resp.value (narrowInt resp.value.length) resp.itmflags resp.datatype
    resp.cas none

/-- The success branch of `proc_store_results`. -/
def storeDocument (bucket : BucketConf) (resp : Response) : C Document :=
  .ok (documentInit bucket resp.cas resp.token)

/-- `pcbc_bucket_get` for the methods that declare these arguments. -/
def bucketGet (spec : ParamSpec) (checks : List Check) : BatchMethod where
  spec := spec
  checks := checks
  errInit := some .success
  encodes := false
  command lval e _ := do
    let hash ← hashkey e
    return match e.arg "expiry", e.arg "lockTime" with
      | some _, _ => .get e.id false (exptime lval e "expiry") hash
      | none, some _ => .get e.id true (exptime lval e "lockTime") hash
      | none, none => .get e.id false 0 hash
  keyLen := wholeKey
  document := getDocument

def get : BatchMethod :=
  bucketGet ⟨[], [], ["lockTime", "expiry", "groupid"]⟩
    [checkLong "lockTime", checkLong "expiry", checkString "groupid"]

def getAndLock : BatchMethod :=
  bucketGet ⟨["lockTime"], [], ["groupid"]⟩ [checkLong "lockTime", checkString "groupid"]

def getAndTouch : BatchMethod :=
  bucketGet ⟨["expiry"], [], ["groupid"]⟩ [checkLong "expiry", checkString "groupid"]

def getFromReplica : BatchMethod where
  spec := ⟨[], [], ["index", "groupid"]⟩
  checks := [checkLong "index", checkString "groupid"]
  errInit := some .success
  encodes := false
  command lval e _ := do
    let hash ← hashkey e
    let index : Int32 := match e.arg "index" with
      | some z => (lval z).toInt32
      | none => 0
    return .rget e.id ((e.arg "index").isSome && decide (0 ≤ index)) index hash
  keyLen := wholeKey
  document := getDocument

/-- The five store methods: `flagged` for those that take flags and an expiry. -/
def storeMethod (operation : StoreOperation) (named : List String) (checks : List Check)
    (errInit : Option LcbError) (flagged : Bool) : BatchMethod where
  spec := ⟨[], ["value"], named⟩
  checks := checks
  errInit := errInit
  encodes := true
  command lval e value := do
    let hash ← hashkey e
    let persist := durability lval e "persist_to"
    let replicate := durability lval e "replicate_to"
    let flags : UInt32 :=
      if flagged then
        match e.arg "flags" with
        | some z => (lval z).toUInt64.toUInt32
        | none => value.flags
      else 0
    return .store (persist ≠ 0 || replicate ≠ 0)
      { operation := operation, key := e.id, value := { value with flags := flags },
        cas := entryCas e, exptime := exptime lval e "expiry", hashkey := hash,
        persistTo := persist, replicateTo := replicate }
  keyLen := wholeKey
  document := storeDocument

/-- `insert` does not check the types of `persist_to` and `replicate_to`. -/
def insert : BatchMethod :=
  storeMethod .add ["expiry", "flags", "groupid", "persist_to", "replicate_to"]
    [checkLong "expiry", checkLong "flags", checkString "groupid"] none true

def upsert : BatchMethod :=
  storeMethod .set ["expiry", "flags", "groupid", "persist_to", "replicate_to"]
    [checkLong "expiry", checkLong "flags", checkString "groupid", checkLong "persist_to",
      checkLong "replicate_to"] none true

def replace : BatchMethod :=
  storeMethod .replace ["cas", "expiry", "flags", "groupid", "persist_to", "replicate_to"]
    [checkString "cas", checkLong "expiry", checkLong "flags", checkString "groupid",
      checkLong "persist_to", checkLong "replicate_to"] none true

def append : BatchMethod :=
  storeMethod .append ["cas", "groupid", "persist_to", "replicate_to"]
    [checkString "cas", checkString "groupid", checkLong "persist_to", checkLong "replicate_to"]
    none false

def prepend : BatchMethod :=
  storeMethod .prepend ["cas", "groupid", "persist_to", "replicate_to"]
    [checkString "cas", checkString "groupid", checkLong "persist_to", checkLong "replicate_to"]
    (some .success) false

def remove : BatchMethod where
  spec := ⟨[], [], ["cas", "groupid"]⟩
  checks := [checkString "cas", checkString "groupid"]
  errInit := none
  encodes := false
  command _ e _ := do
    let hash ← hashkey e
    return .remove e.id (entryCas e) hash
  keyLen := wholeKey
  document := storeDocument

/-- `touch` reads `Z_LVAL` of the expiry even when none is given, and its callback leaves the key
length zero and the token unset. -/
def touch : BatchMethod where
  spec := ⟨[], ["expiry"], ["groupid"]⟩
  checks := [checkLong "expiry", checkString "groupid"]
  errInit := none
  encodes := false
  command lval e _ :=
    match e.arg "expiry" with
    | none => .error .nullPointer
    | some z => do
      let hash ← hashkey e
      return .touch e.id (lval z).toUInt64.toUInt32 hash
  keyLen _ := 0
  document bucket resp := .ok (documentInit bucket resp.cas none)

def unlock : BatchMethod where
  spec := ⟨[], [], ["cas", "groupid"]⟩
  checks := [checkString "cas", checkString "groupid"]
  errInit := none
  encodes := false
  command _ e _ := do
    let hash ← hashkey e
    return .unlock e.id (entryCas e) hash
  keyLen := wholeKey
  document bucket _ := .ok (documentInit bucket 0 none)

def counter : BatchMethod where
  spec := ⟨[], ["delta"], ["initial", "expiry", "groupid"]⟩
  checks := [checkLong "delta", checkLong "initial", checkLong "expiry", checkString "groupid"]
  errInit := some .success
  encodes := false
  command lval e _ := do
    let hash ← hashkey e
    let delta : Int64 := match e.arg "delta" with
      | some z => lval z
      | none => 1
    return .counter e.id delta ((e.arg "initial").map fun z => (lval z).toUInt64)
      (exptime lval e "expiry") hash
  keyLen := wholeKey
  document bucket resp := .ok (documentInitCounter bucket resp.counter resp.cas resp.token)

/-- The key-value methods that take ids. -/
inductive Operation where
  | get
  | getFromReplica
  | insert
  | upsert
  | replace
  | append
  | prepend
  | remove
  | touch
  | unlock
  | counter
  deriving DecidableEq, Repr

def Operation.method : Operation → BatchMethod
  | .get => PhpCouchbase.get
  | .getFromReplica => PhpCouchbase.getFromReplica
  | .insert => PhpCouchbase.insert
  | .upsert => PhpCouchbase.upsert
  | .replace => PhpCouchbase.replace
  | .append => PhpCouchbase.append
  | .prepend => PhpCouchbase.prepend
  | .remove => PhpCouchbase.remove
  | .touch => PhpCouchbase.touch
  | .unlock => PhpCouchbase.unlock
  | .counter => PhpCouchbase.counter

/-- A world in which the encoder keeps strings as they are, every response is a success, and the
callbacks come in the order of the commands. -/
def plainWorld (schedule : Nat → Command → LcbError) : World where
  bucket := ⟨CString.ofBytes (ascii "default"), fun bytes _ _ => bytes⟩
  encoder _ value :=
    .returned (.array [(.index 0, value), (.index 1, .long 0), (.index 2, .long 0)])
  lvalBits _ := 0
  schedule := schedule
  respond _ _ := ⟨.success, ascii "v", 0, 0, 1, 0, none⟩
  deliver cmds := cmds
  deliver_perm _ := List.Perm.refl _

end PhpCouchbase
