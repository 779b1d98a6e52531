import PhpCouchbase.Transcoder
import PhpCouchbase.Transcoding
import PhpCouchbase.Strtol

/-!
# The decoder as a decompression followed by a reading

`basic_decoder_v1`, `zlibDecompress` and `fastlzDecompress` of `couchbase.c`.  The flags of a
document name at most one decompression and one way of reading a text; the switch of the decoder is
that composition.

* `Reading`, `reading` — the ways of reading, and the one that the flags name.
* `basicDecoderV1_eq` — the decoder unpacks and then reads.
* `Decompression`, `decompressAt` — one call of a decompressor with the lengths it is given, at each
  of the four places of the source.
* `unpack_eq`, `zlibDecompress_eq`, `fastlzDecompress_eq` — the places make these calls.
-/

set_option autoImplicit false

namespace PhpCouchbase

open LittleEndian

variable (env : Env)

/-! ## Reading a text -/

/-- What the decoder makes of a text. -/
inductive Reading where
  /-- every text has a value -/
  | text (read : Bytes → Zval)
  /-- a serializer; a text it refuses is null -/
  | deserialize (read : Bytes → Option Zval)
  | long
  | double
  | bool
  /-- a type or a format that this build does not know -/
  | unknown

/-- A text in memory, with its length as an `int`. -/
def Reading.run (r : Reading) (buf : Buffer) (len : Int) : C Zval :=
  match r with
  | .text read => do return read (← prefixOf buf.mem len)
  | .deserialize read => do return (read (← prefixOf buf.mem len)).getD .null
  | .long => do return .long (← strtol buf.mem)
  | .double => do return .double (← env.strtod buf.mem)
  | .bool => .ok (if len = 0 then .false else .true)
  | .unknown => .ok .null

/-- The type nibble of the private format. -/
def privateReading (jsonassoc : Bool) (flags : UInt64) (sertype : UInt32) : Reading :=
  if sertype = Flags.valIsString then
    if flags = 0 then .text fun text => (env.jsonDecode jsonassoc text).getD (.string text)
    else .text Zval.string
  else if sertype = Flags.valIsLong then .long
  else if sertype = Flags.valIsDouble then .double
  else if sertype = Flags.valIsBool then .bool
  else if sertype = Flags.valIsJson then .deserialize (env.jsonDecode jsonassoc)
  else if sertype = Flags.valIsSerialized then .deserialize env.unserialize
  else if sertype = Flags.valIsIgbinary then
    if env.haveIgbinary then .deserialize env.igbinaryUnserialize else .unknown
  else .unknown

/-- The private format is the old clients' and the one of compressed values. -/
def isPrivate (flags : UInt64) : Bool :=
  flags.toUInt32 &&& Flags.cffmtMask == Flags.cffmtPrivate ||
    flags.toUInt32 &&& Flags.cffmtMask == Flags.cffmtEmpty

/-- The reading that the flags name. -/
def reading (jsonassoc : Bool) (flags : UInt64) : Reading :=
  let cffmt := flags.toUInt32 &&& Flags.cffmtMask
  let sertype := flags.toUInt32 &&& Flags.valMask
  if isPrivate flags then
    privateReading env jsonassoc flags (sertype &&& ~~~Flags.compressionMcIsCompressed)
  else if cffmt = Flags.cffmtJson then .deserialize (env.jsonDecode jsonassoc)
  else if cffmt = Flags.cffmtString ∨ cffmt = Flags.cffmtRaw then .text Zval.string
  else .unknown

/-- The compression that the flags name, with the bit that says that there is one. -/
def compressionOf (flags : UInt64) : Option UInt32 :=
  if isPrivate flags && flags.toUInt32 &&& Flags.valMask &&& Flags.compressionMcIsCompressed != 0
  then some (flags.toUInt32 &&& Flags.compressionMask)
  else none

theorem decodePrivate_eq (jsonassoc : Bool) (flags : UInt64) (sertype : UInt32) (buf : Buffer)
    (len : Int) :
    decodePrivate env jsonassoc flags sertype buf len =
      (privateReading env jsonassoc flags sertype).run env buf len := by
  unfold decodePrivate privateReading decodeString decodeJson
  by_cases hstring : sertype = Flags.valIsString
  · by_cases hzero : flags = 0
    · simp only [if_pos hstring, if_pos hzero, Reading.run]
    · simp only [if_pos hstring, if_neg hzero, Reading.run]
  by_cases hlong : sertype = Flags.valIsLong
  · simp only [if_neg hstring, if_pos hlong, Reading.run]
  by_cases hdouble : sertype = Flags.valIsDouble
  · simp only [if_neg hstring, if_neg hlong, if_pos hdouble, Reading.run]
  by_cases hbool : sertype = Flags.valIsBool
  · simp only [if_neg hstring, if_neg hlong, if_neg hdouble, if_pos hbool, Reading.run]
  by_cases hjson : sertype = Flags.valIsJson
  · simp only [if_neg hstring, if_neg hlong, if_neg hdouble, if_neg hbool, if_pos hjson,
      Reading.run]
  by_cases hphp : sertype = Flags.valIsSerialized
  · simp only [if_neg hstring, if_neg hlong, if_neg hdouble, if_neg hbool, if_neg hjson,
      if_pos hphp, Reading.run]
  simp only [if_neg hstring, if_neg hlong, if_neg hdouble, if_neg hbool, if_neg hjson,
    if_neg hphp]
  by_cases hig : sertype = Flags.valIsIgbinary
  · cases hhave : env.haveIgbinary with
    | true => simp only [if_pos hig, if_true, Reading.run]
    | false => simp only [if_pos hig, Bool.false_eq_true, if_false, Reading.run]
  · simp only [if_neg hig, Reading.run]

/-- Clearing a bit that is clear changes nothing. -/
theorem and_not_of_and_eq_zero {w bit : UInt32} (h : w &&& bit = 0) : w &&& ~~~bit = w := by
  rw [← UInt32.toBitVec_inj] at h ⊢
  simp only [UInt32.toBitVec_and, UInt32.toBitVec_not, UInt32.toBitVec_ofNat] at h ⊢
  ext i hi
  have hbit := congrArg (fun v => v.getLsbD i) h
  simp at hbit ⊢
  grind

/-- What the decompression block hands to the reading. -/
def unpacked (slack : Bytes) (flags : UInt64) (buf : Buffer) (len : Int) : C Unpacked :=
  match compressionOf flags with
  | none => .ok (.payload buf len)
  | some cmprtype => unpack env slack cmprtype buf len

/-- **The decoder** unpacks and reads. -/
theorem basicDecoderV1_eq (slack : Bytes) (buf : Buffer) (len : Int) (flags datatype : UInt64)
    (jsonassoc : Bool) :
    basicDecoderV1 env slack buf len flags datatype jsonassoc =
      (unpacked env slack flags buf len >>= fun u =>
        match u with
        | .broken => .ok .undef
        | .unsupported => .ok .null
        | .payload text textLen => (reading env jsonassoc flags).run env text textLen) := by
  unfold basicDecoderV1 unpacked compressionOf reading isPrivate decodeJson decodeString
  by_cases hprivate : flags.toUInt32 &&& Flags.cffmtMask = Flags.cffmtPrivate ∨
      flags.toUInt32 &&& Flags.cffmtMask = Flags.cffmtEmpty
  · have hb : (flags.toUInt32 &&& Flags.cffmtMask == Flags.cffmtPrivate ||
        flags.toUInt32 &&& Flags.cffmtMask == Flags.cffmtEmpty) = true := by simpa using hprivate
    by_cases hmc : flags.toUInt32 &&& Flags.valMask &&& Flags.compressionMcIsCompressed = 0
    · simp only [if_pos hprivate, hb, hmc, ne_eq, not_true_eq_false, if_false, Bool.true_and,
        bne_self_eq_false, Bool.false_eq_true, if_true, C.bind_ok, decodePrivate_eq,
        and_not_of_and_eq_zero hmc]
    · have hne : (flags.toUInt32 &&& Flags.valMask &&& Flags.compressionMcIsCompressed != 0) =
          true := by simpa using hmc
      simp only [if_pos hprivate, hb, hne, ne_eq, hmc, not_false_eq_true, if_true, Bool.true_and,
        decodePrivate_eq]
      rfl
  · have hb : (flags.toUInt32 &&& Flags.cffmtMask == Flags.cffmtPrivate ||
        flags.toUInt32 &&& Flags.cffmtMask == Flags.cffmtEmpty) = false := by
      simpa using hprivate
    simp only [if_neg hprivate, hb, Bool.false_and, Bool.false_eq_true, if_false, C.bind_ok]
    by_cases hjson : flags.toUInt32 &&& Flags.cffmtMask = Flags.cffmtJson
    · simp [hjson, Reading.run]
    · by_cases hstring : flags.toUInt32 &&& Flags.cffmtMask = Flags.cffmtString ∨
          flags.toUInt32 &&& Flags.cffmtMask = Flags.cffmtRaw
      · simp [hjson, hstring, Reading.run]
      · simp [hjson, hstring, Reading.run]

/-! ## Calling a decompressor -/

/-- The four places of the source that decompress. -/
inductive DecompressSite where
  | decoderZlib
  | decoderFastlz
  | zlibDecompress
  | fastlzDecompress
  deriving DecidableEq, Repr

namespace DecompressSite

/-- `dataSize - 4` in `size_t` arithmetic. -/
def sizeMinusFour (n : Nat) : Nat := if 4 ≤ n then n - 4 else 2 ^ 64 + n - 4

/-- The input length at the call: the decoder counts in `int`, fastlz declares an `int`. -/
def inputLen (site : DecompressSite) (n : Nat) : Int :=
  match site with
  | .decoderZlib | .decoderFastlz => narrowInt n - 4
  | .zlibDecompress => sizeMinusFour n
  | .fastlzDecompress => narrowInt (sizeMinusFour n)

/-- The size of the output buffer at the call; it comes from the header. -/
def outputSize (site : DecompressSite) (header : Nat) : Int :=
  match site with
  | .decoderZlib | .zlibDecompress => header
  | .decoderFastlz | .fastlzDecompress => narrowInt header

/-- The answer 0 of fastlz is its failure. -/
def answer (out : Bytes) : Option Bytes := if out = [] then none else some out

/-- The library of the site on the memory from a pointer on; `none` is its failure. -/
def decompress (site : DecompressSite) (mem : Bytes) (length size : Int) : C (Option Bytes) :=
  match site with
  | .decoderZlib | .zlibDecompress => do
    return env.zlibUncompress (← prefixOf mem length) size.toNat
  | .decoderFastlz | .fastlzDecompress => do
    return answer (← callFastlzDecompress env mem length size)

/-- Whether the site goes on with the output length: the decoder looks at the answer first. -/
def usesLength (site : DecompressSite) (output : Option Bytes) : Bool :=
  match site with
  | .decoderZlib | .decoderFastlz => output.isSome
  | .zlibDecompress | .fastlzDecompress => true

end DecompressSite

/-- One call of a decompressor. -/
structure Decompression where
  inputLen : Int
  outputSize : Int
  output : Option Bytes
  /-- the output length is used afterwards -/
  used : Bool

/-- The call that a site makes on a payload: four bytes of header, the rest is the input. -/
def decompressAt (site : DecompressSite) (buf : Buffer) : C Decompression := do
  let header ← prefixOf buf.mem 4
  let size := site.outputSize (leVal header)
  let output ← site.decompress env (buf.mem.drop 4) (site.inputLen buf.data.length) size
  return { inputLen := site.inputLen buf.data.length, outputSize := size, output := output,
           used := site.usesLength output }

/-- The site of a compression type, when the build has the library. -/
def decoderSite (cmprtype : UInt32) : Option DecompressSite :=
  if cmprtype = Flags.compressionZlib then if env.haveZlib then some .decoderZlib else none
  else if cmprtype = Flags.compressionFastlz then some .decoderFastlz
  else none

/-- What the block does for a compression type without a site. -/
def unpackedWithout (cmprtype : UInt32) (buf : Buffer) (len : Int) : Unpacked :=
  if cmprtype = Flags.compressionZlib then .broken
  else if cmprtype ≠ 0 then .unsupported
  else .payload buf len

/-- The decompression block makes the call of its site and checks the answer. -/
theorem unpack_eq (slack : Bytes) (cmprtype : UInt32) (buf : Buffer) :
    unpack env slack cmprtype buf (narrowInt buf.data.length) =
      match decoderSite env cmprtype with
      | none => .ok (unpackedWithout cmprtype buf (narrowInt buf.data.length))
      | some site => decompressAt env site buf >>= fun d =>
          .ok (match d.output with
            | none => .broken
            | some out => .payload ⟨out, slack⟩ (narrowInt out.length)) := by
  unfold unpack decoderSite unpackedWithout
  by_cases hzlib : cmprtype = Flags.compressionZlib
  · cases hhave : env.haveZlib with
    | false => simp only [if_pos hzlib, Bool.false_eq_true, if_false]
    | true =>
      simp only [if_pos hzlib, if_true, decompressAt, DecompressSite.inputLen,
        DecompressSite.outputSize, DecompressSite.decompress]
      cases prefixOf buf.mem 4 with
      | error e => rfl
      | ok header =>
        simp only [C.bind_ok]
        cases prefixOf (buf.mem.drop 4) (narrowInt buf.data.length - 4) with
        | error e => rfl
        | ok input =>
          simp only [C.bind_ok, C.pure_eq, Int.toNat_natCast]
          cases env.zlibUncompress input (leVal header) <;> rfl
  · by_cases hfast : cmprtype = Flags.compressionFastlz
    · simp only [if_neg hzlib, if_pos hfast, decompressAt, DecompressSite.inputLen,
        DecompressSite.outputSize, DecompressSite.decompress]
      cases prefixOf buf.mem 4 with
      | error e => rfl
      | ok header =>
        simp only [C.bind_ok]
        cases callFastlzDecompress env (buf.mem.drop 4) (narrowInt buf.data.length - 4)
            (narrowInt (leVal header)) with
        | error e => rfl
        | ok out =>
          simp only [C.bind_ok, C.pure_eq]
          cases out <;> rfl
    · simp only [if_neg hzlib, if_neg hfast]
      split <;> rfl

/-! ## The functions for PHP code -/

/-- `zlibDecompress`.  `leftover` is what `uncompress` leaves behind when it fails: its answer is
not looked at. -/
def zlibDecompress (after leftover : Bytes) (zdata : Zval) : C CallResult :=
  if env.haveZlib then do
    let data ← zdata.strval
    let header ← prefixOf (data ++ after) 4
    let input ← prefixOf ((data ++ after).drop 4) (DecompressSite.sizeMinusFour data.length)
    return .returned (.string ((env.zlibUncompress input (leVal header)).getD leftover))
  else .ok .threw

/-- `fastlzDecompress`.  Both lengths are declared `int`; the failure answer 0 becomes a length. -/
def fastlzDecompress (after : Bytes) (zdata : Zval) : C CallResult := do
  let data ← zdata.strval
  let header ← prefixOf (data ++ after) 4
  let out ← callFastlzDecompress env ((data ++ after).drop 4)
    (narrowInt (DecompressSite.sizeMinusFour data.length)) (narrowInt (leVal header))
  return .returned (.string out)

theorem zlibDecompress_eq (hzlib : env.haveZlib = true) (after leftover data : Bytes) :
    zlibDecompress env after leftover (.string data) =
      decompressAt env .zlibDecompress ⟨data, after⟩ >>= fun d =>
        .ok (.returned (.string (d.output.getD leftover))) := by
  unfold zlibDecompress decompressAt
  simp only [if_pos hzlib, Zval.strval, C.bind_ok, Buffer.mem, DecompressSite.inputLen,
    DecompressSite.outputSize, DecompressSite.decompress, Int.toNat_natCast]
  cases prefixOf (data ++ after) 4 with
  | error e => rfl
  | ok header =>
    simp only [C.bind_ok]
    cases prefixOf ((data ++ after).drop 4) (DecompressSite.sizeMinusFour data.length) with
    | error e => rfl
    | ok input => rfl

theorem fastlzDecompress_eq (after data : Bytes) :
    fastlzDecompress env after (.string data) =
      decompressAt env .fastlzDecompress ⟨data, after⟩ >>= fun d =>
        .ok (.returned (.string (d.output.getD []))) := by
  unfold fastlzDecompress decompressAt
  simp only [Zval.strval, C.bind_ok, Buffer.mem, DecompressSite.inputLen,
    DecompressSite.outputSize, DecompressSite.decompress]
  cases prefixOf (data ++ after) 4 with
  | error e => rfl
  | ok header =>
    simp only [C.bind_ok]
    cases callFastlzDecompress env ((data ++ after).drop 4)
        (narrowInt (DecompressSite.sizeMinusFour data.length)) (narrowInt (leVal header)) with
    | error e => rfl
    | ok out =>
      simp only [C.bind_ok, C.pure_eq]
      cases out <;> rfl

end PhpCouchbase
