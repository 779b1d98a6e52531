import PhpCouchbase.Transcoder

/-!
# When the default decoder returns what the default encoder was given

The two directions of `couchbase.c`, one after the other.

* `Env.Lawful` — what the code relies on from the serializers and the compression libraries.
* `unpack_fits`, `unpack_lossy` — the decompression block gives the text back exactly when every
  length fits an `int` (and fastlz has something to compress).
* `transcoder_round_trip_iff` — the round trip holds exactly under `Survives`: an uncompressed text
  shorter than 2^31 bytes always survives; a compressed one needs the lengths to fit, must not be
  `false` (the private format reads any non-empty text as true), and a compressed long must not be
  followed by more digits in the heap.
-/

set_option autoImplicit false

namespace PhpCouchbase

open LittleEndian

variable (env : Env)

/-! ## The libraries -/

/-- The serializer selected by `sertype`, when it encodes the whole value. -/
def serializerEncode (sertype : Int) (v : Zval) : Option Bytes :=
  if sertype = sertypeJson then
    if (env.jsonEncode v).complete then some (env.jsonEncode v).text else none
  else if sertype = sertypePhp then env.serialize v
  else if env.haveIgbinary && sertype == sertypeIgbinary then env.igbinarySerialize v
  else none

def serializerDecode (sertype : Int) (jsonassoc : Bool) (text : Bytes) : Option Zval :=
  if sertype = sertypeJson then env.jsonDecode jsonassoc text
  else if sertype = sertypePhp then env.unserialize text
  else env.igbinaryUnserialize text

/-- The selected serializer itself round-trips the value. -/
def SerializerRoundTrips (sertype : Int) (jsonassoc : Bool) (v : Zval) : Prop :=
  ∃ text, serializerEncode env sertype v = some text ∧
    serializerDecode env sertype jsonassoc text = some v

/-- **What the code relies on from its libraries.**  Scalars and null have their documented texts; a
cut text of an array or object is not a text of it; zlib and fastlz give the data back into a buffer
that is large enough, whatever lies behind the terminator of a compressed string; zlib refuses a
buffer that is too small and a stream that is cut, and fastlz needs no more than 5 % or 66 bytes. -/
structure Env.Lawful : Prop where
  json_long : ∀ jsonassoc n, env.jsonDecode jsonassoc (printLong n) = some (.long n)
  json_true : ∀ jsonassoc, env.jsonDecode jsonassoc (ascii "true") = some .true
  json_false : ∀ jsonassoc, env.jsonDecode jsonassoc (ascii "false") = some .false
  json_null : env.jsonEncode .null = .done (ascii "null") ∧
    ∀ jsonassoc, env.jsonDecode jsonassoc (ascii "null") = some .null
  php_null : env.serialize .null = some (ascii "N;") ∧ env.unserialize (ascii "N;") = some .null
  igbinary_null : env.haveIgbinary = true →
    env.igbinarySerialize .null = some [0, 0, 0, 2, 0] ∧
      env.igbinaryUnserialize [0, 0, 0, 2, 0] = some .null
  serializer_cut : ∀ sertype jsonassoc v text cut, v.isComposite = true →
    serializerEncode env sertype v = some text → cut <+: text → cut ≠ text →
      serializerDecode env sertype jsonassoc cut ≠ some v
  zlib_uncompress : ∀ data out size, env.zlibCompress data = some out → data.length ≤ size →
    env.zlibUncompress out size = some data
  zlib_small : ∀ data out size, env.zlibCompress data = some out → size < data.length →
    env.zlibUncompress out size = none
  zlib_cut : ∀ data out cut size, env.zlibCompress data = some out → cut <+: out → cut ≠ out →
    env.zlibUncompress cut size = none
  fastlz_decompress : ∀ (data after : Bytes) (size : Int), data.length < 2 ^ 31 →
    (env.fastlzCompress data).length < 2 ^ 31 → data.length ≤ size →
      env.fastlzDecompress (env.fastlzCompress data ++ 0 :: after) (env.fastlzCompress data).length
        size = .ok data
  fastlz_bound : ∀ data : Bytes, data.length < 2 ^ 31 →
    (env.fastlzCompress data).length ≤ max 66 (data.length + data.length / 20)

/-! ## The decompression block -/

/-- Every length that crosses an `int` fits, and fastlz was given at least one byte. -/
def Fits (data packed : Bytes) (cmprflags : UInt32) : Prop :=
  data.length < 2 ^ 31 ∧ packed.length < 2 ^ 31 ∧
    (cmprflags = Flags.compressionFastlz → data ≠ [])

theorem compressPayload_eq_some {cmprtype : Int} {data packed : Bytes} {cmprflags : UInt32}
    (h : compressPayload env cmprtype data = .ok (some (packed, cmprflags))) :
    (env.haveZlib = true ∧ cmprflags = Flags.compressionZlib ∧
      ∃ out, env.zlibCompress data = some out ∧ packed = leBytes 4 data.length ++ out) ∨
    (cmprflags = Flags.compressionFastlz ∧
      ∃ input out, prefixOf data (narrowInt data.length) = .ok input ∧
        prefixOf (env.fastlzCompress input) (narrowInt (env.fastlzCompress input).length) = .ok out ∧
        packed = leBytes 4 data.length ++ out) := by
  unfold compressPayload at h
  split at h
  · split at h
    · rename_i hz
      cases hout : env.zlibCompress data with
      | none => simp [hout] at h
      | some out =>
        simp [hout] at h
        exact Or.inl ⟨hz, h.2.symm, out, rfl, h.1.symm⟩
    · cases h
  · split at h
    · obtain ⟨input, hin, h⟩ := C.bind_eq_ok.mp h
      obtain ⟨out, hout, h⟩ := C.bind_eq_ok.mp h
      cases h
      exact Or.inr ⟨rfl, input, out, hin, hout, rfl⟩
    · cases h

variable {env} in
/-- An answer of fastlz that is not negative is the length of all that it wrote. -/
theorem fastlz_whole (laws : env.Lawful) {data input out : Bytes}
    (hin : prefixOf data (narrowInt data.length) = .ok input)
    (hout : prefixOf (env.fastlzCompress input) (narrowInt (env.fastlzCompress input).length) =
      .ok out) : out = env.fastlzCompress input ∧ out.length < 2 ^ 31 := by
  have hinlen := (prefixOf_eq_ok hin).2
  have hinlt := narrowInt_lt data.length
  have hbound := laws.fastlz_bound input (by omega)
  obtain ⟨hpre, hlen⟩ := prefixOf_eq_ok hout
  have hpos := (narrowInt_nonneg_iff (env.fastlzCompress input).length).mp (by omega)
  have hlt : (env.fastlzCompress input).length < 2 ^ 31 := by omega
  rw [narrowInt_of_lt hlt] at hlen
  exact ⟨hpre.eq_of_length (by omega), by omega⟩

theorem prefixOf_header (n : Nat) (out after : Bytes) :
    prefixOf (leBytes 4 n ++ out ++ after) 4 = .ok (leBytes 4 n) := by
  rw [prefixOf, if_pos (by simp; omega)]
  simp

theorem drop_header (n : Nat) (out after : Bytes) :
    (leBytes 4 n ++ out ++ after).drop 4 = out ++ after := by
  rw [List.append_assoc, List.drop_append_of_le_length (by simp)]
  simp

/-- The body of the packed value as the decoder cuts it out. -/
theorem prefixOf_body {n : Nat} {out after body : Bytes}
    (h : prefixOf (out ++ after) (narrowInt (leBytes 4 n ++ out).length - 4) = .ok body) :
    body <+: out ∧ (body = out ↔ (leBytes 4 n ++ out).length < 2 ^ 31) := by
  obtain ⟨hpre, hlen⟩ := prefixOf_eq_ok h
  have hle : body.length ≤ out.length := by
    rcases Nat.lt_or_ge (leBytes 4 n ++ out).length (2 ^ 31) with hlt | hge
    · rw [narrowInt_of_lt hlt] at hlen
      simp at hlen
      omega
    · have := narrowInt_of_ge hge
      simp at this hlen
      omega
  have hpre' : body <+: out := List.prefix_of_prefix_length_le hpre (List.prefix_append _ _) hle
  refine ⟨hpre', ?_⟩
  constructor
  · rintro rfl
    by_contra hge
    have := narrowInt_of_ge (Nat.le_of_not_lt hge)
    simp at this hlen
    omega
  · intro hlt
    rw [narrowInt_of_lt hlt] at hlen
    refine hpre'.eq_of_length ?_
    simp at hlen
    omega

variable {env} in
/-- **The decompression block undoes the compression** when the lengths fit. -/
theorem unpack_fits (laws : env.Lawful) {cmprtype : Int} {data packed : Bytes}
    {cmprflags : UInt32} (slack after : Bytes)
    (h : compressPayload env cmprtype data = .ok (some (packed, cmprflags)))
    (hfits : Fits data packed cmprflags) :
    unpack env slack cmprflags ⟨packed, 0 :: after⟩ (narrowInt packed.length) =
      .ok (.payload ⟨data, slack⟩ data.length) := by
  obtain ⟨hdata, hpacked, hne⟩ := hfits
  have hheader : leVal (leBytes 4 data.length) = data.length := by
    rw [leVal_leBytes]
    omega
  have hbody : ∀ out : Bytes, (leBytes 4 data.length ++ out).length < 2 ^ 31 →
      prefixOf (out ++ 0 :: after) (narrowInt (leBytes 4 data.length ++ out).length - 4) =
        .ok out := by
    intro out hout
    have hcount : (((leBytes 4 data.length ++ out).length : Nat) - 4 : Int) = out.length := by
      rw [List.length_append, length_leBytes]
      omega
    rw [narrowInt_of_lt hout, hcount, prefixOf_append_length]
  rcases compressPayload_eq_some env h with
    ⟨hz, rfl, out, hout, rfl⟩ | ⟨rfl, input, out, hin, hout, rfl⟩
  · have hun := laws.zlib_uncompress data out data.length hout (Nat.le_refl _)
    unfold unpack
    rw [if_pos rfl, if_pos hz, Buffer.mem, prefixOf_header, drop_header]
    simp only [C.bind_ok, hbody out hpacked, hheader, hun, narrowInt_of_lt hdata, C.pure_eq]
  · obtain ⟨rfl, -⟩ := fastlz_whole laws hin hout
    rw [prefixOf_narrowInt hdata] at hin
    cases hin
    have hout : (env.fastlzCompress data).length < 2 ^ 31 := by
      rw [List.length_append] at hpacked
      omega
    have hun := laws.fastlz_decompress data after data.length hdata hout (by omega)
    have hcall : callFastlzDecompress env (env.fastlzCompress data ++ 0 :: after)
        (narrowInt (leBytes 4 data.length ++ env.fastlzCompress data).length - 4) data.length =
          .ok data := by
      rw [narrowInt_of_lt hpacked, callFastlzDecompress, if_pos (by simp)]
      simpa using hun
    unfold unpack
    rw [if_neg (by decide), if_pos rfl, Buffer.mem, prefixOf_header, drop_header]
    simp only [C.bind_ok, hheader, narrowInt_of_lt hdata, hcall, if_neg (hne rfl), C.pure_eq]

/-- The block faults, gives up, or hands on something that reads as a cut text; the last needs a
text longer than any scalar's. -/
inductive LosesText (data : Bytes) : C Unpacked → Prop where
  | fault (f : Fault) : LosesText data (.error f)
  | broken : LosesText data (.ok .broken)
  | cut {buf : Buffer} {len : Int} (hlong : 21 < data.length)
      (hcut : ∀ text, prefixOf buf.mem len = .ok text → text <+: data ∧ text ≠ data) :
      LosesText data (.ok (.payload buf len))

variable {env} in
/-- zlib keeps the whole text; a length of 2^31 or more is cut on the way out, unless the header was
already too small for it. -/
theorem unpack_zlib_lossy (laws : env.Lawful) (hz : env.haveZlib = true) {data out : Bytes}
    (slack after : Bytes) (hout : env.zlibCompress data = some out)
    (hfits : ¬ Fits data (leBytes 4 data.length ++ out) Flags.compressionZlib) :
    LosesText data (unpack env slack Flags.compressionZlib ⟨leBytes 4 data.length ++ out, after⟩
      (narrowInt (leBytes 4 data.length ++ out).length)) := by
  unfold unpack
  rw [if_pos rfl, if_pos hz, Buffer.mem, prefixOf_header, drop_header]
  cases hbody : prefixOf (out ++ after) (narrowInt (leBytes 4 data.length ++ out).length - 4) with
  | error f => exact .fault f
  | ok body =>
    obtain ⟨hpre, heq⟩ := prefixOf_body hbody
    simp only [C.bind_ok]
    by_cases hcut : body = out
    · subst hcut
      have hpacked := heq.mp rfl
      have hdata : 2 ^ 31 ≤ data.length := by
        by_contra hlt
        exact hfits ⟨by omega, hpacked, fun habs => absurd habs (by decide)⟩
      rcases Nat.lt_or_ge (leVal (leBytes 4 data.length)) data.length with hsmall | hroom
      · rw [laws.zlib_small data body _ hout hsmall]
        exact .broken
      · rw [laws.zlib_uncompress data body _ hout hroom]
        refine .cut (by omega) fun text htext => ?_
        obtain ⟨hp, hlen⟩ := prefixOf_eq_ok htext
        have hge := narrowInt_of_ge hdata
        refine ⟨List.prefix_of_prefix_length_le hp (List.prefix_append _ _) (by omega), ?_⟩
        rintro rfl
        omega
    · rw [laws.zlib_cut data out body _ hout hpre hcut]
      exact .broken

variable {env} in
/-- fastlz gives back what it was given, which is a proper part of a text that does not fit; a
payload that is too long is refused. -/
theorem unpack_fastlz_lossy (laws : env.Lawful) {data input : Bytes} (slack after : Bytes)
    (hin : prefixOf data (narrowInt data.length) = .ok input)
    (hshort : (env.fastlzCompress input).length < 2 ^ 31)
    (hfits : ¬ Fits data (leBytes 4 data.length ++ env.fastlzCompress input)
      Flags.compressionFastlz) :
    LosesText data (unpack env slack Flags.compressionFastlz
      ⟨leBytes 4 data.length ++ env.fastlzCompress input, 0 :: after⟩
      (narrowInt (leBytes 4 data.length ++ env.fastlzCompress input).length)) := by
  obtain ⟨hinpre, hinlen⟩ := prefixOf_eq_ok hin
  have hinlt := narrowInt_lt data.length
  have hheader : narrowInt (leVal (leBytes 4 data.length)) = input.length := by
    rw [leVal_leBytes, hinlen, narrowInt, narrowInt]
    simp
  have hlen : (leBytes 4 data.length ++ env.fastlzCompress input).length =
      4 + (env.fastlzCompress input).length := by
    rw [List.length_append, length_leBytes]
  unfold unpack
  rw [if_neg (by decide), if_pos rfl, Buffer.mem, prefixOf_header, drop_header, C.bind_ok, hheader,
    callFastlzDecompress]
  by_cases hpacked : (leBytes 4 data.length ++ env.fastlzCompress input).length < 2 ^ 31
  · have hcount : ((4 + (env.fastlzCompress input).length : Nat) - 4 : Int).toNat =
        (env.fastlzCompress input).length := by omega
    have hun := laws.fastlz_decompress input after input.length (by omega) hshort (by omega)
    rw [narrowInt_of_lt hpacked, hlen, if_pos (by omega), hcount, hun, C.bind_ok]
    by_cases hempty : input = []
    · rw [if_pos hempty]
      exact .broken
    have hlong : 2 ^ 31 ≤ data.length := by
      by_contra hlt
      refine hfits ⟨by omega, hpacked, fun _ hnil => hempty ?_⟩
      rw [hnil] at hinpre
      exact List.prefix_nil.mp hinpre
    rw [if_neg hempty]
    refine .cut (by omega) fun text htext => ?_
    have hshortIn : input.length < 2 ^ 31 := by omega
    rw [narrowInt_of_lt hshortIn, Buffer.mem, prefixOf_append_length] at htext
    cases htext
    refine ⟨hinpre, ?_⟩
    intro heq
    have hshorter := congrArg List.length heq
    dsimp only at hshorter
    omega
  · have hneg : ¬ 0 ≤ narrowInt (leBytes 4 data.length ++ env.fastlzCompress input).length - 4 := by
      have := (narrowInt_nonneg_iff
        (leBytes 4 data.length ++ env.fastlzCompress input).length).not.mpr (by omega)
      omega
    rw [if_neg hneg]
    exact .fault .badLength

variable {env} in
/-- **When a length does not fit, the text is lost.** -/
theorem unpack_lossy (laws : env.Lawful) {cmprtype : Int} {data packed : Bytes}
    {cmprflags : UInt32} (slack after : Bytes)
    (h : compressPayload env cmprtype data = .ok (some (packed, cmprflags)))
    (hfits : ¬ Fits data packed cmprflags) :
    LosesText data (unpack env slack cmprflags ⟨packed, 0 :: after⟩ (narrowInt packed.length)) := by
  rcases compressPayload_eq_some env h with
    ⟨hz, rfl, out, hout, rfl⟩ | ⟨rfl, input, out, hin, hout, rfl⟩
  · exact unpack_zlib_lossy laws hz slack (0 :: after) hout hfits
  · obtain ⟨rfl, hshort⟩ := fastlz_whole laws hin hout
    exact unpack_fastlz_lossy laws slack after hin hshort hfits

/-! ## What the encoder writes -/

/-- The flags of a serialized value. -/
def serializerFlags (sertype : Int) : UInt32 :=
  if sertype = sertypeJson then Flags.valIsJson ||| Flags.cffmtJson
  else if sertype = sertypePhp then Flags.valIsSerialized ||| Flags.cffmtPrivate
  else Flags.valIsIgbinary ||| Flags.cffmtPrivate

/-- Byte strings, longs, booleans, null, and what the selected serializer round-trips. -/
def InScope (sertype : Int) (jsonassoc : Bool) (v : Zval) : Prop :=
  (∃ s, v = .string s) ∨ (∃ n, v = .long n) ∨ v = .true ∨ v = .false ∨ v = .null ∨
    (v.isComposite = true ∧ SerializerRoundTrips env sertype jsonassoc v)

/-- The text and the flags of a value in scope, one constructor for each branch of the encoder. -/
inductive Writes (sertype : Int) (jsonassoc : Bool) : Zval → Bytes → UInt32 → Prop where
  | string (s : Bytes) :
      Writes sertype jsonassoc (.string s) s (Flags.valIsString ||| Flags.cffmtString)
  | long (n : Int64) :
      Writes sertype jsonassoc (.long n) (printLong n) (Flags.valIsLong ||| Flags.cffmtJson)
  | true :
      Writes sertype jsonassoc .true (ascii "true") (Flags.valIsBool ||| Flags.cffmtJson)
  | false :
      Writes sertype jsonassoc .false (ascii "false") (Flags.valIsBool ||| Flags.cffmtJson)
  | serialized {v : Zval} {text : Bytes} (hkind : v = .null ∨ v.isComposite = Bool.true)
      (henc : serializerEncode env sertype v = some text)
      (hdec : serializerDecode env sertype jsonassoc text = some v)
      (hlong : 21 < text.length → v.isComposite = Bool.true) :
      Writes sertype jsonassoc v text (serializerFlags sertype)

theorem encodeText_serialized {sertype : Int} {v : Zval} (hv : v.needsSerializer = true) :
    encodeText env sertype v =
      if sertype = sertypeJson then
        serialized .null (env.jsonEncode v).unfailed >>= fun res =>
          .ok (res, Flags.valIsJson ||| Flags.cffmtJson)
      else if sertype = sertypePhp then
        serialized .undef (env.serialize v) >>= fun res =>
          .ok (res, Flags.valIsSerialized ||| Flags.cffmtPrivate)
      else if env.haveIgbinary && sertype == sertypeIgbinary then
        .ok (((env.igbinarySerialize v).map Zval.string).getD .undef,
          Flags.valIsIgbinary ||| Flags.cffmtPrivate)
      else .ok (.undef, 0) := by
  cases v <;> first | rfl | cases hv

/-- A serialized string is the text of the serializer. -/
theorem serialized_eq_string {failure : Zval} {o : Option Bytes} {data : Bytes}
    (hd : ∀ s, failure ≠ .string s) (h : serialized failure o = .ok (.string data)) :
    o = some data := by
  cases o with
  | none => exact absurd (Except.ok.inj h) (hd data)
  | some text =>
    rw [serialized, pcbcStrings] at h
    split at h
    · cases h
    · rw [Zval.string.inj (Except.ok.inj h)]

theorem serialized_of_encodeText {sertype : Int} {v : Zval} {data : Bytes} {flags : UInt32}
    (hv : v.needsSerializer = true) (hthrown : sertype = sertypeJson → (env.jsonEncode v).thrown = false)
    (h : encodeText env sertype v = .ok (.string data, flags)) :
    serializerEncode env sertype v = some data ∧ flags = serializerFlags sertype := by
  rw [encodeText_serialized env hv] at h
  unfold serializerEncode serializerFlags
  by_cases hj : sertype = sertypeJson
  · rw [if_pos hj] at h ⊢
    obtain ⟨res, hres, h⟩ := C.bind_eq_ok.mp h
    cases h
    have htext := serialized_eq_string (fun s => Zval.noConfusion) hres
    rw [JsonEncoding.unfailed] at htext
    split at htext
    · cases htext
    · rename_i hfailed
      rw [JsonEncoding.complete, hthrown hj, Bool.eq_false_of_not_eq_true hfailed]
      exact ⟨htext, (if_pos hj).symm⟩
  · rw [if_neg hj] at h ⊢
    rw [if_neg hj]
    by_cases hp : sertype = sertypePhp
    · rw [if_pos hp] at h ⊢
      rw [if_pos hp]
      obtain ⟨res, hres, h⟩ := C.bind_eq_ok.mp h
      cases h
      exact ⟨serialized_eq_string (fun s => Zval.noConfusion) hres, rfl⟩
    · rw [if_neg hp] at h ⊢
      rw [if_neg hp]
      split at h
      · rename_i hi
        rw [if_pos hi]
        cases hig : env.igbinarySerialize v with
        | none =>
          rw [hig] at h
          cases h
        | some text =>
          rw [hig] at h
          cases h
          exact ⟨rfl, rfl⟩
      · cases h

variable {env} in
theorem null_round_trips (laws : env.Lawful) {sertype : Int} (jsonassoc : Bool) {text : Bytes}
    (h : serializerEncode env sertype .null = some text) :
    serializerDecode env sertype jsonassoc text = some .null ∧ text.length ≤ 21 := by
  unfold serializerEncode at h
  unfold serializerDecode
  split at h
  · rename_i hj
    rw [laws.json_null.1] at h
    cases h
    rw [if_pos hj]
    exact ⟨laws.json_null.2 jsonassoc, by decide⟩
  · rename_i hj
    rw [if_neg hj]
    split at h
    · rename_i hp
      rw [laws.php_null.1, Option.some.injEq] at h
      subst h
      rw [if_pos hp]
      exact ⟨laws.php_null.2, by decide⟩
    · rename_i hp
      rw [if_neg hp]
      split at h
      · rename_i hi
        rw [Bool.and_eq_true] at hi
        have hnull := laws.igbinary_null hi.1
        rw [hnull.1, Option.some.injEq] at h
        subst h
        exact ⟨hnull.2, by decide⟩
      · cases h

variable {env} in
/-- **Every value in scope is written by one of the branches.** -/
theorem writes_of_inScope (laws : env.Lawful) {sertype : Int} {jsonassoc : Bool} {v : Zval}
    {data : Bytes} {flags : UInt32} (hv : InScope env sertype jsonassoc v)
    (h : encodeText env sertype v = .ok (.string data, flags)) :
    Writes env sertype jsonassoc v data flags := by
  rcases hv with ⟨s, rfl⟩ | ⟨n, rfl⟩ | rfl | rfl | rfl | ⟨hcomp, text, henc, hdec⟩
  · cases h
    exact .string _
  · cases h
    exact .long n
  · cases h
    exact .true
  · cases h
    exact .false
  · have hthrown : sertype = sertypeJson → (env.jsonEncode .null).thrown = false := by
      intro _
      rw [laws.json_null.1]
      rfl
    obtain ⟨henc, rfl⟩ := serialized_of_encodeText env rfl hthrown h
    obtain ⟨hdec, hlen⟩ := null_round_trips laws jsonassoc henc
    exact .serialized (Or.inl rfl) henc hdec fun hlong => by omega
  · have hneeds : v.needsSerializer = true := by
      cases v <;> first | rfl | cases hcomp
    have hthrown : sertype = sertypeJson → (env.jsonEncode v).thrown = false := by
      intro hj
      rw [serializerEncode, if_pos hj] at henc
      split at henc
      · rename_i hcomplete
        rw [JsonEncoding.complete, Bool.and_eq_true, Bool.not_eq_true', Bool.not_eq_true'] at hcomplete
        exact hcomplete.2
      · cases henc
    obtain ⟨henc', rfl⟩ := serialized_of_encodeText env hneeds hthrown h
    rw [henc, Option.some.injEq] at henc'
    subst henc'
    exact .serialized (Or.inr hcomp) henc hdec fun _ => hcomp

/-- A serialized value comes from a serializer that is compiled in. -/
theorem igbinary_of_serializerEncode {sertype : Int} {v : Zval} {text : Bytes}
    (h : serializerEncode env sertype v = some text) (hj : sertype ≠ sertypeJson)
    (hp : sertype ≠ sertypePhp) : env.haveIgbinary = true := by
  rw [serializerEncode, if_neg hj, if_neg hp] at h
  split at h
  · rename_i hi
    rw [Bool.and_eq_true] at hi
    exact hi.1
  · cases h

/-! ## What the decoder reads -/

variable {env} {sertype : Int} {jsonassoc : Bool} {v : Zval} {data : Bytes} {flags : UInt32}

/-- `decode` gives `v` on its text, and on no cut of a long text. -/
structure ReadsBack (decode : Bytes → Zval) (data : Bytes) (v : Zval) : Prop where
  full : decode data = v
  cut : 21 < data.length → ∀ text, text <+: data → text ≠ data → decode text ≠ v

theorem readsBack_string (s : Bytes) : ReadsBack Zval.string s (.string s) :=
  ⟨rfl, fun _ _ _ hne h => hne (Zval.string.inj h)⟩

theorem readsBack_serialized (laws : env.Lawful)
    (henc : serializerEncode env sertype v = some data)
    (hdec : serializerDecode env sertype jsonassoc data = some v)
    (hlong : 21 < data.length → v.isComposite = true) :
    ReadsBack (fun text => (serializerDecode env sertype jsonassoc text).getD .null) data v := by
  refine ⟨by simp [hdec], fun hlen text hpre hne h => ?_⟩
  have hcomp := hlong hlen
  refine laws.serializer_cut sertype jsonassoc v data text hcomp henc hpre hne ?_
  cases ht : serializerDecode env sertype jsonassoc text with
  | none =>
    rw [ht] at h
    subst h
    exact absurd hcomp (by simp [Zval.isComposite])
  | some w =>
    rw [ht, Option.getD_some] at h
    rw [h]

theorem readsBack_short {decode : Bytes → Zval} (hfull : decode data = v)
    (hlen : data.length ≤ 21) : ReadsBack decode data v :=
  ⟨hfull, fun h => by omega⟩

/-- Reading a NUL-terminated string with its length narrowed to `int`. -/
theorem read_plain_iff {decode : Bytes → Zval} (hread : ReadsBack decode data v) (after : Bytes) :
    ((do return decode (← prefixOf (data ++ after) (narrowInt data.length))) : C Zval) = .ok v ↔
      data.length < 2 ^ 31 := by
  constructor
  · intro h
    by_contra hge
    have hnarrow := narrowInt_of_ge (Nat.le_of_not_lt hge)
    obtain ⟨text, htext, hdec⟩ := C.bind_eq_ok.mp h
    obtain ⟨hpre, hlen⟩ := prefixOf_eq_ok htext
    refine hread.cut (by omega) text
      (List.prefix_of_prefix_length_le hpre (List.prefix_append _ _) (by omega)) ?_
      (Except.ok.inj hdec)
    rintro rfl
    omega
  · intro hlt
    rw [narrowInt_of_lt hlt, prefixOf, if_pos (by simp)]
    simp [hread.full]

/-! ### The uncompressed text -/

theorem decodeEncoded_string (slack after : Bytes) (s : Bytes) (dt : Int64) :
    decodeEncoded env slack after jsonassoc ⟨s, Flags.valIsString ||| Flags.cffmtString, dt⟩ =
      do return .string (← prefixOf (s ++ 0 :: after) (narrowInt s.length)) := by
  unfold decodeEncoded basicDecoderV1
  dsimp only
  rw [if_neg (by decide), if_neg (by decide), if_pos (by decide)]
  rfl

theorem decodeEncoded_json (slack after : Bytes) (dt : Int64)
    (hflags : flags ∈ [Flags.valIsLong ||| Flags.cffmtJson, Flags.valIsBool ||| Flags.cffmtJson,
      Flags.valIsJson ||| Flags.cffmtJson]) :
    decodeEncoded env slack after jsonassoc ⟨data, flags, dt⟩ =
      do return (env.jsonDecode jsonassoc (← prefixOf (data ++ 0 :: after)
        (narrowInt data.length))).getD .null := by
  have hformat : flags.toUInt64.toUInt32 &&& Flags.cffmtMask = Flags.cffmtJson := by
    simp only [List.mem_cons, List.not_mem_nil, or_false] at hflags
    obtain rfl | rfl | rfl := hflags <;> decide
  unfold decodeEncoded basicDecoderV1
  dsimp only
  rw [hformat, if_neg (by decide), if_pos rfl]
  rfl

theorem decodeEncoded_private (slack after : Bytes) (dt : Int64)
    (hflags : flags ∈ [Flags.valIsSerialized ||| Flags.cffmtPrivate,
      Flags.valIsIgbinary ||| Flags.cffmtPrivate]) :
    decodeEncoded env slack after jsonassoc ⟨data, flags, dt⟩ =
      decodePrivate env jsonassoc flags.toUInt64 (flags &&& 0x0F) ⟨data, 0 :: after⟩
        (narrowInt data.length) := by
  have hformat : flags.toUInt64.toUInt32 &&& Flags.cffmtMask = Flags.cffmtPrivate ∧
      flags.toUInt64.toUInt32 &&& Flags.valMask = flags &&& 0x0F ∧
      ¬ (flags &&& 0x0F) &&& Flags.compressionMcIsCompressed ≠ 0 := by
    simp only [List.mem_cons, List.not_mem_nil, or_false] at hflags
    obtain rfl | rfl := hflags <;> decide
  obtain ⟨hfmt, hval, hplain⟩ := hformat
  unfold decodeEncoded basicDecoderV1
  dsimp only
  rw [hfmt, if_pos (Or.inl rfl), hval, if_neg hplain]

theorem decodePrivate_serialized (henc : serializerEncode env sertype v = some data)
    {word : UInt64} (buf : Buffer) (len : Int) :
    decodePrivate env jsonassoc word (serializerFlags sertype &&& 0x0F) buf len =
      do return (serializerDecode env sertype jsonassoc (← prefixOf buf.mem len)).getD .null := by
  unfold serializerFlags serializerDecode
  by_cases hj : sertype = sertypeJson
  · simp only [if_pos hj]
    rfl
  · by_cases hp : sertype = sertypePhp
    · simp only [if_neg hj, if_pos hp]
      rfl
    · have hi := igbinary_of_serializerEncode env henc hj hp
      simp only [if_neg hj, if_neg hp]
      unfold decodePrivate
      rw [if_neg (by decide), if_neg (by decide), if_neg (by decide), if_neg (by decide),
        if_neg (by decide), if_neg (by decide), if_pos (by decide), if_pos hi]

/-- **An uncompressed value survives** exactly when its text is shorter than 2^31 bytes. -/
theorem decode_plain_iff (laws : env.Lawful) (hw : Writes env sertype jsonassoc v data flags)
    (slack after : Bytes) (dt : Int64) :
    decodeEncoded env slack after jsonassoc ⟨data, flags, dt⟩ = .ok v ↔ data.length < 2 ^ 31 := by
  cases hw with
  | string =>
    rw [decodeEncoded_string]
    exact read_plain_iff (readsBack_string data) _
  | long n =>
    rw [decodeEncoded_json slack after dt (by decide)]
    exact read_plain_iff (readsBack_short (by simp [laws.json_long]) (printLong_length_le n)) _
  | true =>
    rw [decodeEncoded_json slack after dt (by decide)]
    exact read_plain_iff (readsBack_short (by simp [laws.json_true]) (by decide)) _
  | false =>
    rw [decodeEncoded_json slack after dt (by decide)]
    exact read_plain_iff (readsBack_short (by simp [laws.json_false]) (by decide)) _
  | serialized hkind henc hdec hlong =>
    have hread := readsBack_serialized laws henc hdec hlong
    by_cases hj : sertype = sertypeJson
    · have hflags : serializerFlags sertype = Flags.valIsJson ||| Flags.cffmtJson := if_pos hj
      have hser : ∀ text, serializerDecode env sertype jsonassoc text =
          env.jsonDecode jsonassoc text := fun text => if_pos hj
      rw [hflags, decodeEncoded_json slack after dt (by decide)]
      simp only [hser] at hread
      exact read_plain_iff hread _
    · have hflags : serializerFlags sertype ∈ [Flags.valIsSerialized ||| Flags.cffmtPrivate,
          Flags.valIsIgbinary ||| Flags.cffmtPrivate] := by
        unfold serializerFlags
        rw [if_neg hj]
        split <;> decide
      rw [decodeEncoded_private slack after dt hflags, decodePrivate_serialized henc]
      exact read_plain_iff hread _

/-! ### The compressed text -/

/-- The flags of an uncompressed value. -/
def typeFlags : List UInt32 :=
  [Flags.valIsString ||| Flags.cffmtString, Flags.valIsLong ||| Flags.cffmtJson,
    Flags.valIsBool ||| Flags.cffmtJson, Flags.valIsJson ||| Flags.cffmtJson,
    Flags.valIsSerialized ||| Flags.cffmtPrivate, Flags.valIsIgbinary ||| Flags.cffmtPrivate]

theorem Writes.mem_typeFlags (hw : Writes env sertype jsonassoc v data flags) :
    flags ∈ typeFlags := by
  cases hw with
  | serialized =>
    unfold serializerFlags
    split
    · decide
    · split <;> decide
  | _ => decide

/-- The flag word of a compressed value: the private format, the mark, the algorithm and the type
nibble that the plain value had. -/
theorem packedFlags_word {cmprflags : UInt32} (hflags : flags ∈ typeFlags)
    (hcmpr : cmprflags ∈ [Flags.compressionZlib, Flags.compressionFastlz]) :
    (packedFlags flags cmprflags).toUInt64 ≠ 0 ∧
    (packedFlags flags cmprflags).toUInt64.toUInt32 &&& Flags.cffmtMask = Flags.cffmtPrivate ∧
    (packedFlags flags cmprflags).toUInt64.toUInt32 &&& Flags.valMask &&&
      Flags.compressionMcIsCompressed ≠ 0 ∧
    (packedFlags flags cmprflags).toUInt64.toUInt32 &&& Flags.compressionMask = cmprflags ∧
    (packedFlags flags cmprflags).toUInt64.toUInt32 &&& Flags.valMask &&&
      ~~~Flags.compressionMcIsCompressed = flags &&& 0x0F := by
  simp only [typeFlags, List.mem_cons, List.not_mem_nil, or_false] at hflags hcmpr
  obtain rfl | rfl := hcmpr <;>
    obtain rfl | rfl | rfl | rfl | rfl | rfl := hflags <;> decide

/-- Compression moves a value to the private format and keeps its type nibble. -/
theorem decodeEncoded_packed (slack after packed : Bytes) (dt : Int64) {cmprflags : UInt32}
    (hflags : flags ∈ typeFlags)
    (hcmpr : cmprflags ∈ [Flags.compressionZlib, Flags.compressionFastlz]) :
    decodeEncoded env slack after jsonassoc ⟨packed, packedFlags flags cmprflags, dt⟩ = (do
      match ← unpack env slack cmprflags ⟨packed, 0 :: after⟩ (narrowInt packed.length) with
      | .broken => return .undef
      | .unsupported => return .null
      | .payload buf len =>
        decodePrivate env jsonassoc (packedFlags flags cmprflags).toUInt64 (flags &&& 0x0F) buf
          len) := by
  obtain ⟨-, hfmt, hmc, hcmp, hval⟩ := packedFlags_word hflags hcmpr
  unfold decodeEncoded basicDecoderV1
  dsimp only
  rewrite [hfmt, if_pos (Or.inl rfl), if_pos hmc, hcmp, hval]
  rfl

theorem decodePrivate_string {word : UInt64} (hword : word ≠ 0) (buf : Buffer) (len : Int) :
    decodePrivate env jsonassoc word ((Flags.valIsString ||| Flags.cffmtString) &&& 0x0F) buf len =
      do return .string (← prefixOf buf.mem len) := by
  unfold decodePrivate
  rw [if_pos (by decide), if_neg hword]
  rfl

theorem decodePrivate_long {word : UInt64} (buf : Buffer) (len : Int) :
    decodePrivate env jsonassoc word ((Flags.valIsLong ||| Flags.cffmtJson) &&& 0x0F) buf len =
      do return .long (← strtol buf.mem) := by
  unfold decodePrivate
  rw [if_neg (by decide), if_pos (by decide)]

theorem decodePrivate_bool {word : UInt64} (buf : Buffer) (len : Int) :
    decodePrivate env jsonassoc word ((Flags.valIsBool ||| Flags.cffmtJson) &&& 0x0F) buf len =
      .ok (if len = 0 then .false else .true) := by
  unfold decodePrivate
  rw [if_neg (by decide), if_neg (by decide), if_neg (by decide), if_pos (by decide)]

/-- **The private format on the whole text**: everything comes back, except that `false` reads as
true and a long also reads the digits behind the buffer. -/
theorem decodePrivate_full_iff (hw : Writes env sertype jsonassoc v data flags) {word : UInt64}
    (hword : word ≠ 0) (slack : Bytes) :
    decodePrivate env jsonassoc word (flags &&& 0x0F) ⟨data, slack⟩ data.length = .ok v ↔
      v ≠ .false ∧ ∀ n, v = .long n → EndsAfter n slack := by
  have hwhole : prefixOf (Buffer.mem ⟨data, slack⟩) data.length = .ok data := by
    rw [Buffer.mem, prefixOf, if_pos (by simp)]
    simp
  cases hw with
  | string =>
    rw [decodePrivate_string hword, hwhole]
    simp
  | long n =>
    have hends := strtol_printLong_iff n slack
    rw [decodePrivate_long, Buffer.mem]
    cases hread : strtol (printLong n ++ slack) with
    | error f => simp [hread] at hends ⊢; exact hends
    | ok m => simp [hread] at hends ⊢; exact hends
  | true =>
    rw [decodePrivate_bool, if_neg (by decide)]
    simp
  | false =>
    rw [decodePrivate_bool, if_neg (by decide)]
    simp
  | serialized hkind henc hdec hlong =>
    rw [decodePrivate_serialized henc, hwhole]
    have hv : v ≠ .false ∧ ∀ n, v ≠ .long n := by
      rcases hkind with rfl | hcomp
      · simp
      · constructor
        · rintro rfl
          simp [Zval.isComposite] at hcomp
        · rintro n rfl
          simp [Zval.isComposite] at hcomp
    simp only [C.bind_ok, C.pure_eq, hdec, Option.getD_some, true_iff]
    exact ⟨hv.1, fun n h => absurd h (hv.2 n)⟩

/-- On a text that reads as a cut one, the private format does not give a long value back. -/
theorem decodePrivate_cut (laws : env.Lawful)
    (hw : Writes env sertype jsonassoc v data flags) {word : UInt64} (hword : word ≠ 0)
    {buf : Buffer} {len : Int} (hlong : 21 < data.length)
    (hcut : ∀ text, prefixOf buf.mem len = .ok text → text <+: data ∧ text ≠ data) :
    decodePrivate env jsonassoc word (flags &&& 0x0F) buf len ≠ .ok v := by
  have hread : ∀ decode : Bytes → Zval, ReadsBack decode data v →
      ((do return decode (← prefixOf buf.mem len)) : C Zval) ≠ .ok v := by
    intro decode hrb h
    obtain ⟨text, htext, hdec⟩ := C.bind_eq_ok.mp h
    obtain ⟨hpre, hne⟩ := hcut text htext
    exact hrb.cut hlong text hpre hne (Except.ok.inj hdec)
  cases hw with
  | string =>
    rw [decodePrivate_string hword]
    exact hread _ (readsBack_string data)
  | long n =>
    have := printLong_length_le n
    omega
  | true => exact absurd hlong (by decide)
  | false => exact absurd hlong (by decide)
  | serialized hkind henc hdec hl =>
    rw [decodePrivate_serialized henc]
    exact hread _ (readsBack_serialized laws henc hdec hl)

theorem compression_eq_some {o : EncoderOptions} {packed : Bytes} {cmprflags : UInt32}
    (h : compression env o data = .ok (some (packed, cmprflags))) :
    ∃ cmprtype, compressPayload env cmprtype data = .ok (some (packed, cmprflags)) := by
  unfold compression at h
  extract_lets cmprtype at h
  obtain ⟨r, hr, h⟩ := C.bind_eq_ok.mp h
  refine ⟨cmprtype, ?_⟩
  cases r with
  | none => simp at h
  | some p =>
    simp only [C.pure_eq, Except.ok.injEq] at h
    split at h
    · rw [hr]
      exact congrArg _ h
    · cases h

/-- **A compressed value survives** exactly when the lengths fit, it is not `false`, and no digit
that matters follows a long in the heap. -/
theorem decode_packed_iff (laws : env.Lawful) (hw : Writes env sertype jsonassoc v data flags)
    {o : EncoderOptions} {packed : Bytes} {cmprflags : UInt32}
    (hc : compression env o data = .ok (some (packed, cmprflags))) (slack after : Bytes)
    (dt : Int64) :
    decodeEncoded env slack after jsonassoc ⟨packed, packedFlags flags cmprflags, dt⟩ = .ok v ↔
      Fits data packed cmprflags ∧ v ≠ .false ∧ ∀ n, v = .long n → EndsAfter n slack := by
  obtain ⟨cmprtype, hpay⟩ := compression_eq_some hc
  have hcmpr : cmprflags ∈ [Flags.compressionZlib, Flags.compressionFastlz] := by
    rcases compressPayload_eq_some env hpay with ⟨-, rfl, -⟩ | ⟨rfl, -⟩ <;> simp
  have hword := (packedFlags_word hw.mem_typeFlags hcmpr).1
  rw [decodeEncoded_packed slack after packed dt hw.mem_typeFlags hcmpr]
  by_cases hfits : Fits data packed cmprflags
  · rw [unpack_fits laws slack after hpay hfits, C.bind_ok]
    simp only [hfits, true_and]
    exact decodePrivate_full_iff hw hword slack
  · simp only [hfits, false_and, iff_false]
    have hdefined : v ≠ .undef := by
      cases hw with
      | serialized hkind => rintro rfl; simp [Zval.isComposite] at hkind
      | _ => simp
    have hlost := unpack_lossy laws slack after hpay hfits
    generalize unpack env slack cmprflags ⟨packed, 0 :: after⟩ (narrowInt packed.length) = r at hlost
    cases hlost with
    | fault f => simp
    | broken => simpa using hdefined.symm
    | cut hlong hcut => exact decodePrivate_cut laws hw hword hlong hcut

/-! ## The round trip -/

/-- **When the round trip holds**, in terms of the encoder's input, the compression it selects and
the heap behind the decompression buffer. -/
def Survives (env : Env) (o : EncoderOptions) (slack : Bytes) (v : Zval) : Prop :=
  ∃ data flags, encodeText env (effectiveSertype env o.sertype) v = .ok (.string data, flags) ∧
    match compression env o data with
    | .ok none => data.length < 2 ^ 31
    | .ok (some (packed, cmprflags)) =>
      Fits data packed cmprflags ∧ v ≠ .false ∧ ∀ n, v = .long n → EndsAfter n slack
    | .error _ => False

/-- **The transcoder returns what it was given exactly for the values that survive**: byte strings,
longs, booleans, null, and arrays and objects that the selected serializer round-trips. -/
theorem transcoder_round_trip_iff (env : Env) (laws : env.Lawful) (o : EncoderOptions)
    (jsonassoc : Bool) (v : Zval) (slack after : Bytes) (e : Encoded)
    (hv : InScope env (effectiveSertype env o.sertype) jsonassoc v)
    (he : basicEncoderV1 env o v = .ok e) :
    decodeEncoded env slack after jsonassoc e = .ok v ↔ Survives env o slack v := by
  unfold basicEncoderV1 at he
  obtain ⟨⟨res, flags⟩, henc, he⟩ := C.bind_eq_ok.mp he
  obtain ⟨data, hdata, he⟩ := C.bind_eq_ok.mp he
  obtain ⟨c, hc, he⟩ := C.bind_eq_ok.mp he
  have hres : res = .string data := by
    cases res <;> simp [Zval.strval] at hdata
    rw [hdata]
  subst hres
  have hw := writes_of_inScope laws hv henc
  have hsurv : Survives env o slack v ↔
      match compression env o data with
      | .ok none => data.length < 2 ^ 31
      | .ok (some (packed, cmprflags)) =>
        Fits data packed cmprflags ∧ v ≠ .false ∧ ∀ n, v = .long n → EndsAfter n slack
      | .error _ => False := by
    unfold Survives
    rw [henc]
    simp
  rw [hsurv, hc]
  cases c with
  | none =>
    cases he
    exact decode_plain_iff laws hw slack after 0
  | some p =>
    obtain ⟨packed, cmprflags⟩ := p
    cases he
    exact decode_packed_iff laws hw hc slack after 0

/-! ## A concrete build -/

/-- `fastlz` on up to 32 bytes without a match: one run of literals.  Longer data are kept behind a
marker. -/
def literalRun (data : Bytes) : Bytes :=
  if data = [] then []
  else if data.length ≤ 32 then UInt8.ofNat (data.length - 1) :: data
  else 0xFF :: data

def readRun (packed : Bytes) (size : Int) : Bytes :=
  match packed with
  | [] => []
  | ctrl :: data =>
    if (data.length : Int) ≤ size ∧ (ctrl = 0xFF ∨ data.length = ctrl.toNat + 1) then data else []

/-- JSON scalars. -/
def scalarJson (text : Bytes) : Option Zval :=
  if text = ascii "null" then some .null
  else if text = ascii "true" then some .true
  else if text = ascii "false" then some .false
  else
    match strtol (text ++ [0]) with
    | .ok n => some (.long n)
    | .error _ => none

/-- A build with neither zlib nor igbinary whose serializers know scalars only. -/
def literalEnv : Env where
  haveIgbinary := false
  haveZlib := false
  jsonEncode v := match v with
    | .null => .done (ascii "null")
    | _ => .refused
  jsonDecode _ := scalarJson
  serialize v := match v with
    | .null => some (ascii "N;")
    | _ => none
  unserialize text := if text = ascii "N;" then some .null else none
  igbinarySerialize _ := none
  igbinaryUnserialize _ := none
  doubleText _ := []
  strtod _ := .ok 0
  zlibCompress _ := none
  zlibUncompress _ _ := none
  fastlzCompress := literalRun
  fastlzDecompress mem length size := do return readRun (← prefixOf mem length) size
  exceeds len _ factor := factor == 0 && decide (0 < len)

theorem printLong_ne {n : Int64} {text : Bytes} (h : strtol (text ++ [0]) = .ok 0)
    (hne : text ≠ printLong 0) : printLong n ≠ text := by
  rintro rfl
  have hread : strtol (printLong n ++ [0]) = .ok n :=
    (strtol_printLong_iff n [0]).mpr ⟨by decide, Or.inl (by decide)⟩
  rw [hread, Except.ok.injEq] at h
  exact hne (by rw [h])

theorem scalarJson_long (n : Int64) : scalarJson (printLong n) = some (.long n) := by
  have hread : strtol (printLong n ++ [0]) = .ok n :=
    (strtol_printLong_iff n [0]).mpr ⟨by decide, Or.inl (by decide)⟩
  unfold scalarJson
  rw [if_neg (printLong_ne (by rfl) (by decide)), if_neg (printLong_ne (by rfl) (by decide)),
    if_neg (printLong_ne (by rfl) (by decide)), hread]

theorem literalRun_ne {data : Bytes} (hne : data ≠ []) :
    ∃ ctrl, literalRun data = ctrl :: data ∧ (ctrl = 0xFF ∨ ctrl.toNat + 1 = data.length) := by
  have hpos := List.length_pos_iff.mpr hne
  unfold literalRun
  rw [if_neg hne]
  split
  · rename_i hle
    have hval : (UInt8.ofNat (data.length - 1)).toNat = data.length - 1 := by
      rw [UInt8.toNat_ofNat']
      omega
    exact ⟨_, rfl, Or.inr (by omega)⟩
  · exact ⟨_, rfl, Or.inl rfl⟩

theorem readRun_literalRun (data : Bytes) (size : Int) (hsize : data.length ≤ size) :
    readRun (literalRun data) size = data := by
  by_cases hne : data = []
  · subst hne
    rfl
  · obtain ⟨ctrl, hrun, hctrl⟩ := literalRun_ne hne
    rw [hrun, readRun]
    refine if_pos ⟨hsize, hctrl.imp_right fun h => by omega⟩

theorem length_literalRun_le (data : Bytes) :
    (literalRun data).length ≤ max 66 (data.length + data.length / 20) := by
  unfold literalRun
  split
  · simp
  · split <;> simp <;> omega

theorem literalEnv_lawful : literalEnv.Lawful where
  json_long _ n := scalarJson_long n
  json_true _ := by rfl
  json_false _ := by rfl
  json_null := ⟨rfl, fun _ => by rfl⟩
  php_null := ⟨rfl, by rfl⟩
  igbinary_null h := by cases h
  serializer_cut sertype _ v text _ hcomp henc := by
    have hnone : serializerEncode literalEnv sertype v = none := by
      unfold serializerEncode
      cases v <;> simp [Zval.isComposite, literalEnv, JsonEncoding.complete, JsonEncoding.refused]
        at hcomp ⊢
    rw [hnone] at henc
    cases henc
  zlib_uncompress _ _ _ h := by cases h
  zlib_small _ _ _ h := by cases h
  zlib_cut _ _ _ _ h := by cases h
  fastlz_decompress data after size _ _ h := by
    show (do return readRun (← prefixOf (literalRun data ++ 0 :: after) (literalRun data).length) size)
      = _
    rw [prefixOf_append_length, C.bind_ok, readRun_literalRun data size h]
    rfl
  fastlz_bound data _ := length_literalRun_le data

/-- The settings of the failing run: `cmprtype` fastlz, threshold 0, factor 0.0. -/
def fastlzOptions : EncoderOptions := ⟨sertypeJson, cmprtypeFastlz, 0, 0⟩

/-- A byte string that is not compressed comes back. -/
theorem string_survives :
    decodeEncoded literalEnv [] [] true ⟨ascii "ab", 0x04000000, 0⟩ = .ok (.string (ascii "ab")) :=
  (transcoder_round_trip_iff literalEnv literalEnv_lawful ⟨sertypeJson, cmprtypeNone, 0, 0⟩ true
    (.string (ascii "ab")) [] [] ⟨ascii "ab", 0x04000000, 0⟩ (Or.inl ⟨_, rfl⟩) rfl).mpr
    ⟨ascii "ab", _, rfl, show (ascii "ab").length < 2 ^ 31 by decide⟩

/-- **`false` compressed comes back as `true`**: the encoder writes the text "false", the private
format asks only whether there is any text. -/
theorem compressed_false_reads_true :
    literalEnv.Lawful ∧ InScope literalEnv sertypeJson true .false ∧
    basicEncoderV1 literalEnv fastlzOptions .false =
      .ok ⟨[5, 0, 0, 0, 4, 102, 97, 108, 115, 101], 0x01000053, 0⟩ ∧
    decodeEncoded literalEnv [] [] true
      ⟨[5, 0, 0, 0, 4, 102, 97, 108, 115, 101], 0x01000053, 0⟩ = .ok .true :=
  ⟨literalEnv_lawful, by simp [InScope], by rfl, by rfl⟩

end PhpCouchbase
