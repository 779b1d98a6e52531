import PhpCouchbase.LongText
import PhpCouchbase.Lib.LittleEndian

/-!
# The default transcoder

Model of `basic_encoder_v1` and `basic_decoder_v1` of `couchbase.c`.  The encoder turns a PHP value
into bytes, flags and a datatype; the decoder reads them back.  Two families of flags meet in one
word: the type nibble of the old clients (`COUCHBASE_VAL_IS_*`, the compression bits) and the common
format in the top byte (`COUCHBASE_CFFMT_*`).

The serializers, zlib, fastlz, and the printing and scanning of doubles are the fields of `Env`.
The fastlz of the source tree is `Fastlz.compress` and `Fastlz.decompress`.
-/

set_option autoImplicit false

namespace PhpCouchbase

open LittleEndian

/-! ## Flags -/

namespace Flags

def valMask : UInt32 := 0x1F
def valIsString : UInt32 := 0x00
def valIsLong : UInt32 := 0x01
def valIsDouble : UInt32 := 0x02
def valIsBool : UInt32 := 0x03
def valIsSerialized : UInt32 := 0x04
def valIsIgbinary : UInt32 := 0x05
def valIsJson : UInt32 := 0x06

def compressionMask : UInt32 := (0x07 : UInt32) <<< 5
def compressionZlib : UInt32 := (0x01 : UInt32) <<< 5
def compressionFastlz : UInt32 := (0x02 : UInt32) <<< 5
def compressionMcIsCompressed : UInt32 := (0x01 : UInt32) <<< 4

def cffmtMask : UInt32 := (0xFF : UInt32) <<< 24
def cffmtEmpty : UInt32 := 0x0
def cffmtPrivate : UInt32 := (0x01 : UInt32) <<< 24
def cffmtJson : UInt32 := (0x02 : UInt32) <<< 24
def cffmtRaw : UInt32 := (0x03 : UInt32) <<< 24
def cffmtString : UInt32 := (0x04 : UInt32) <<< 24

end Flags

def sertypeJson : Int := 0
def sertypeIgbinary : Int := 1
def sertypePhp : Int := 2

def cmprtypeNone : Int := 0
def cmprtypeZlib : Int := 1
def cmprtypeFastlz : Int := 2

/-! ## The libraries -/

/-- What the transcoder is built against. -/
structure Env where
  /-- `HAVE_COUCHBASE_IGBINARY` -/
  haveIgbinary : Bool
  /-- `HAVE_COUCHBASE_ZLIB` -/
  haveZlib : Bool
  jsonEncode : Zval → JsonEncoding
  /-- `php_json_decode_ex`; the flag is `PHP_JSON_OBJECT_AS_ARRAY` -/
  jsonDecode : Bool → Bytes → Option Zval
  serialize : Zval → Option Bytes
  unserialize : Bytes → Option Zval
  igbinarySerialize : Zval → Option Bytes
  igbinaryUnserialize : Bytes → Option Zval
  /-- the printable form of a double -/
  doubleText : UInt64 → Bytes
  /-- `zend_strtod` on the memory from a pointer on -/
  strtod : Bytes → C UInt64
  zlibCompress : Bytes → Option Bytes
  /-- the second argument is the size of the output buffer -/
  zlibUncompress : Bytes → Nat → Option Bytes
  /-- what `fastlz_compress` writes; its answer is the length as an `int` -/
  fastlzCompress : Bytes → Bytes
  /-- `fastlz_decompress` on the memory from a pointer on, with the length of its input, behind
  which it may read, and the size of the output buffer, an `int`; the empty result is the failure
  answer 0 -/
  fastlzDecompress : Bytes → Nat → Int → C Bytes
  /-- the comparison `len > clen * cmprfactor` in double arithmetic -/
  exceeds : Nat → Nat → UInt64 → Bool

/-- The four settings of the encoder. -/
structure EncoderOptions where
  sertype : Int
  cmprtype : Int
  cmprthresh : Int64
  cmprfactor : UInt64

/-- What the encoder returns: the array of three elements. -/
structure Encoded where
  bytes : Bytes
  flags : UInt32
  datatype : Int64
  deriving DecidableEq, Repr

/-- The array as PHP code sees it. -/
def Encoded.toZval (e : Encoded) : Zval :=
  .array [(.index 0, .string e.bytes), (.index 1, .long e.flags.toUInt64.toInt64),
    (.index 2, .long e.datatype)]

/-! ## Encoder -/

variable (env : Env)

/-- Without the igbinary extension the encoder falls back to JSON. -/
def effectiveSertype (sertype : Int) : Int :=
  if !env.haveIgbinary && sertype == sertypeIgbinary then sertypeJson else sertype

/-- `PCBC_STRINGS`: the string in a buffer that something was written to. -/
def pcbcStrings (buf : Bytes) : C Zval := if buf = [] then .error .nullPointer else .ok (.string buf)

/-- The result of a serializer that may fail. -/
def serialized (failure : Zval) : Option Bytes → C Zval
  | none => .ok failure
  | some buf => pcbcStrings buf

/-- The type switch of the encoder: the text in `res` and the flags.  A failed serializer leaves
`res` null (JSON) or undefined (PHP, igbinary). -/
def encodeText (sertype : Int) (value : Zval) : C (Zval × UInt32) :=
  match value with
  | .string s => .ok (.string s, Flags.valIsString ||| Flags.cffmtString)
  | .long n => .ok (.string (printLong n), Flags.valIsLong ||| Flags.cffmtJson)
  | .double d => .ok (.string (env.doubleText d), Flags.valIsDouble ||| Flags.cffmtJson)
  | .true => .ok (.string (ascii "true"), Flags.valIsBool ||| Flags.cffmtJson)
  | .false => .ok (.string (ascii "false"), Flags.valIsBool ||| Flags.cffmtJson)
  | value =>
    if sertype = sertypeJson then do
      return (← serialized .null (env.jsonEncode value).unfailed, Flags.valIsJson ||| Flags.cffmtJson)
    else if sertype = sertypePhp then do
      return (← serialized .undef (env.serialize value), Flags.valIsSerialized ||| Flags.cffmtPrivate)
    else if env.haveIgbinary && sertype == sertypeIgbinary then
      .ok (((env.igbinarySerialize value).map Zval.string).getD .undef,
        Flags.valIsIgbinary ||| Flags.cffmtPrivate)
    else .ok (.undef, 0)

/-- The compressed form of the text with its length header, unless there is no compression or the
library refuses. -/
def compressPayload (cmprtype : Int) (data : Bytes) : C (Option (Bytes × UInt32)) :=
  if cmprtype = cmprtypeZlib then
    if env.haveZlib then
      .ok ((env.zlibCompress data).map fun out =>
        (leBytes 4 data.length ++ out, Flags.compressionZlib))
    else .ok none
  else if cmprtype = cmprtypeFastlz then do
    -- `fastlz_compress` declares its length as an `int`, and so is its answer: a negative one puts the
    -- terminator before the buffer
    let input ← prefixOf data (narrowInt data.length)
    let output := env.fastlzCompress input
    let output ← prefixOf output (narrowInt output.length)
    return some (leBytes 4 data.length ++ output, Flags.compressionFastlz)
  else .ok none

/-- The flags of a compressed value: the type nibble stays, the format becomes private. -/
def packedFlags (flags cmprflags : UInt32) : UInt32 :=
  (flags ||| cmprflags ||| Flags.compressionMcIsCompressed) &&& ~~~Flags.cffmtMask |||
    Flags.cffmtPrivate

/-- What the encoder decides about compression: `none` when the plain text is kept. -/
def compression (o : EncoderOptions) (data : Bytes) : C (Option (Bytes × UInt32)) := do
  -- the threshold is a `long` compared with a `size_t`: a negative one is huge
  let cmprtype := if data.length < o.cmprthresh.toUInt64.toNat then cmprtypeNone else o.cmprtype
  match ← compressPayload env cmprtype data with
  | none => return none
  | some (packed, cmprflags) =>
    return if env.exceeds data.length packed.length o.cmprfactor then some (packed, cmprflags)
      else none

def basicEncoderV1 (o : EncoderOptions) (value : Zval) : C Encoded := do
  let (res, flags) ← encodeText env (effectiveSertype env o.sertype) value
  let data ← res.strval
  match ← compression env o data with
  | none => return { bytes := data, flags := flags, datatype := 0 }
  | some (packed, cmprflags) =>
    return { bytes := packed, flags := packedFlags flags cmprflags, datatype := 0 }

/-- The encoder returns with an exception: a `jsonSerialize()` threw. -/
def encoderThrows (o : EncoderOptions) (value : Zval) : Bool :=
  value.needsSerializer && effectiveSertype env o.sertype == sertypeJson &&
    (env.jsonEncode value).thrown

/-! ## Decoder -/

/-- A buffer and the memory that follows it. -/
structure Buffer where
  data : Bytes
  after : Bytes
  deriving DecidableEq, Repr

/-- Everything that can be read from the pointer on. -/
def Buffer.mem (b : Buffer) : Bytes := b.data ++ b.after

/-- What the decompression block of the decoder does. -/
inductive Unpacked where
  /-- `break`: the result stays undefined -/
  | broken
  /-- `RETURN_NULL()` -/
  | unsupported
  /-- the text to read and its length as an `int` -/
  | payload (buf : Buffer) (len : Int)
  deriving Repr

/-- The call of `fastlz_decompress`; a negative length puts the end of the input before its
beginning. -/
def callFastlzDecompress (mem : Bytes) (length size : Int) : C Bytes :=
  if 0 ≤ length then env.fastlzDecompress mem length.toNat size else .error .badLength

/-- The decompression block.  `slack` is the heap behind the output buffer. -/
def unpack (slack : Bytes) (cmprtype : UInt32) (buf : Buffer) (bytesLen : Int) : C Unpacked :=
  if cmprtype = Flags.compressionZlib then
    if env.haveZlib then do
      let header ← prefixOf buf.mem 4
      let input ← prefixOf (buf.mem.drop 4) (bytesLen - 4)
      match env.zlibUncompress input (leVal header) with
      | none => return .broken
      | some out => return .payload ⟨out, slack⟩ (narrowInt out.length)
    else .ok .broken
  else if cmprtype = Flags.compressionFastlz then do
    let header ← prefixOf buf.mem 4
    let out ← callFastlzDecompress env (buf.mem.drop 4) (bytesLen - 4) (narrowInt (leVal header))
    if out = [] then return .broken
    else return .payload ⟨out, slack⟩ (narrowInt out.length)
  else if cmprtype ≠ 0 then .ok .unsupported
  else .ok (.payload buf bytesLen)

/-- `DECODE_JSON`: a text that is not JSON gives null. -/
def decodeJson (jsonassoc : Bool) (buf : Buffer) (bytesLen : Int) : C Zval := do
  let text ← prefixOf buf.mem bytesLen
  return (env.jsonDecode jsonassoc text).getD .null

/-- `PCBC_STRINGL(res, bytes, bytes_len)` -/
def decodeString (buf : Buffer) (bytesLen : Int) : C Zval := do
  return .string (← prefixOf buf.mem bytesLen)

/-- The type switch of the private format. -/
def decodePrivate (jsonassoc : Bool) (flags : UInt64) (sertype : UInt32) (buf : Buffer)
    (bytesLen : Int) : C Zval :=
  if sertype = Flags.valIsString then
    if flags = 0 then do
      let text ← prefixOf buf.mem bytesLen
      return (env.jsonDecode jsonassoc text).getD (.string text)
    else decodeString buf bytesLen
  else if sertype = Flags.valIsLong then do return .long (← strtol buf.mem)
  else if sertype = Flags.valIsDouble then do return .double (← env.strtod buf.mem)
  else if sertype = Flags.valIsBool then .ok (if bytesLen = 0 then .false else .true)
  else if sertype = Flags.valIsJson then decodeJson env jsonassoc buf bytesLen
  else if sertype = Flags.valIsSerialized then do
    let text ← prefixOf buf.mem bytesLen
    return (env.unserialize text).getD .null
  else if sertype = Flags.valIsIgbinary then
    if env.haveIgbinary then do
      let text ← prefixOf buf.mem bytesLen
      return (env.igbinaryUnserialize text).getD .null
    else .ok .null
  else .ok .null

/-- `basic_decoder_v1`: `bytesLen` is declared `int`, `flags` and `datatype` `unsigned long`. -/
def basicDecoderV1 (slack : Bytes) (bytes : Buffer) (bytesLen : Int) (flags _datatype : UInt64)
    (jsonassoc : Bool) : C Zval :=
  let cffmt := flags.toUInt32 &&& Flags.cffmtMask
  let sertype := flags.toUInt32 &&& Flags.valMask
  let cmprtype := flags.toUInt32 &&& Flags.compressionMask
  if cffmt = Flags.cffmtPrivate ∨ cffmt = Flags.cffmtEmpty then
    if sertype &&& Flags.compressionMcIsCompressed ≠ 0 then do
      match ← unpack env slack cmprtype bytes bytesLen with
      | .broken => return .undef
      | .unsupported => return .null
      | .payload buf len =>
        decodePrivate env jsonassoc flags (sertype &&& ~~~Flags.compressionMcIsCompressed) buf len
    else decodePrivate env jsonassoc flags sertype bytes bytesLen
  else if cffmt = Flags.cffmtJson then decodeJson env jsonassoc bytes bytesLen
  else if cffmt = Flags.cffmtString ∨ cffmt = Flags.cffmtRaw then decodeString bytes bytesLen
  else .ok .null

/-- The decoder on what the encoder returned: a PHP string is NUL-terminated, its length is a
`size_t`. -/
def decodeEncoded (slack after : Bytes) (jsonassoc : Bool) (e : Encoded) : C Zval :=
  basicDecoderV1 env slack ⟨e.bytes, 0 :: after⟩ (narrowInt e.bytes.length) e.flags.toUInt64
    e.datatype.toUInt64 jsonassoc

end PhpCouchbase
