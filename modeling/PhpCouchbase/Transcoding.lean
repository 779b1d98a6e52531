import PhpCouchbase.Opcookie
import PhpCouchbase.Transcoder
import PhpCouchbase.Lib.OrderedMap

/-!
# Calling the transcoder of a bucket

Model of `transcoding.c`.  A bucket holds two PHP callables.  The encoder takes a value and must
return an array of exactly three elements, bytes, flags and datatype (`pcbc_encode_value`); the
decoder is called with the stored bytes, flags and datatype (`pcbc_decode_value`).
-/

set_option autoImplicit false

namespace PhpCouchbase

open OrderedMap

/-- How `call_user_function` ends: an exception of the user's function stays pending. -/
inductive CallResult where
  | failed
  | returned (z : Zval)
  | threw

abbrev Encoder := Zval → CallResult

/-- The default encoder, called with one argument: an exception that is pending when it returns
discards what it returned. -/
def defaultEncoder (env : Env) (o : EncoderOptions) (value : Zval) : C CallResult := do
  let e ← basicEncoderV1 env o value
  return if encoderThrows env o value then .threw else .returned e.toZval

/-- The decoder, called with three arguments; one that throws is left out. -/
abbrev Decoder := Zval → Zval → Zval → Zval

/-- The part of `pcbc_bucket_t` that the key-value operations read. -/
structure BucketConf where
  bucketname : CString
  decoder : Decoder

/-- The bytes, flags and datatype that go into a store command. -/
structure EncodedValue where
  bytes : Bytes
  flags : UInt32
  datatype : UInt8
  deriving DecidableEq, Repr

/-- `php_array_fetchn`: an element by its index. -/
def phpArrayFetchn (elems : List (ArrayKey × Zval)) (i : Int64) : Option Zval :=
  fetch elems (.index i)

/-- `pcbc_encode_value` on what the encoder returned; `none` is `FAILURE`.  The flags are cut to 32
bits, the datatype to 8. -/
def encodeValue (result : CallResult) : Option EncodedValue :=
  match result with
  | .returned (.array elems) =>
    if elems.length ≠ 3 then none
    else
      match phpArrayFetchn elems 0, phpArrayFetchn elems 1, phpArrayFetchn elems 2 with
      | some (.string bytes), some (.long flags), some (.long datatype) =>
        some ⟨bytes, flags.toUInt64.toUInt32, datatype.toUInt64.toUInt8⟩
      | _, _, _ => none
  | _ => none

/-- `pcbc_decode_value`: the bytes become a string of the length given as an `int`. -/
def decodeValue (bucket : BucketConf) (bytes : Bytes) (bytesLen : Int) (flags : UInt32)
    (datatype : UInt8) : C Zval := do
  let s ← prefixOf bytes bytesLen
  return bucket.decoder (.string s) (.long (Int64.ofNat flags.toNat))
    (.long (Int64.ofNat datatype.toNat))

end PhpCouchbase
