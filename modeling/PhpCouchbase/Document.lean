import PhpCouchbase.Base36
import PhpCouchbase.Transcoding

/-!
# Documents and mutation tokens

The result of a key-value operation is a `Document` object (`document.c`); its properties are null
unless the initialiser that fits the operation sets them.  A successful mutation may carry the
mutation token of the server, which becomes a `MutationToken` object when it is valid.
-/

set_option autoImplicit false

namespace PhpCouchbase

/-- `lcb_MUTATION_TOKEN` -/
structure LcbMutationToken where
  uuid : UInt64
  seqno : UInt64
  vbid : UInt16
  deriving DecidableEq, Repr

/-- `LCB_MUTATION_TOKEN_ISVALID` of a token that is not null. -/
def LcbMutationToken.isValid (mt : LcbMutationToken) : Bool :=
  !(mt.uuid == 0 && mt.seqno == 0 && mt.vbid == 0)

/-- The `MutationToken` object: the server's token and the bucket it belongs to. -/
structure MutationToken where
  bucket : CString
  mt : LcbMutationToken
  deriving DecidableEq

/-- `\Couchbase\Document` -/
structure Document where
  error : Option LcbError := none
  value : Zval := .null
  flags : Zval := .null
  cas : Zval := .null
  token : Option MutationToken := none

/-- The `token` property of a document. -/
def tokenProperty (bucket : BucketConf) (token : Option LcbMutationToken) : Option MutationToken :=
  match token with
  | some mt => if mt.isValid then some ⟨bucket.bucketname, mt⟩ else none
  | none => none

/-- `pcbc_document_init_error` -/
def documentInitError (err : LcbError) : Document := { error := some err }

/-- `pcbc_document_init_decode`: an empty value does not reach the decoder. -/
def documentInitDecode (bucket : BucketConf) (bytes : Bytes) (bytesLen : Int) (flags : UInt32)
    (datatype : UInt8) (cas : UInt64) (token : Option LcbMutationToken) : C Document := do
  let value ← if bytesLen ≠ 0 then decodeValue bucket bytes bytesLen flags datatype else .ok .null
  return { value := value, flags := .long (Int64.ofNat flags.toNat), cas := casEncode cas,
           token := tokenProperty bucket token }

/-- `pcbc_document_init_counter` -/
def documentInitCounter (bucket : BucketConf) (value : UInt64) (cas : UInt64)
    (token : Option LcbMutationToken) : Document where
  value := .long value.toInt64
  cas := casEncode cas
  token := tokenProperty bucket token

/-- `pcbc_document_init`, called without bytes and flags. -/
def documentInit (bucket : BucketConf) (cas : UInt64) (token : Option LcbMutationToken) :
    Document where
  flags := .long 0
  cas := casEncode cas
  token := tokenProperty bucket token

end PhpCouchbase
