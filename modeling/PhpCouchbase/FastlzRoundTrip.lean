import PhpCouchbase.FastlzCompressRun
import PhpCouchbase.CompressionBuffers
import PhpCouchbase.DecoderDeterminism

/-!
# fastlz in the transcoder

`couchbase.c` built with the `fastlz.c` of the source tree.

* `compress_says` — what `fastlz_compress` writes for a text that is not empty.
* `decompress_compress` — the text comes back, whatever lies behind both buffers.
* `decompress_cut_text` — a cut compressed form, when it is read no further than the cut.
* `withFastlz_lawful` — `fastlz.c` does what the round trip of the transcoder relies on.
* `string_survives_fastlz` — a string that is stored compressed is read back.
* `encoder_buffer_room`, `fastlzCompress_room_iff` — where the output buffers have room.
-/

set_option autoImplicit false

namespace PhpCouchbase

namespace Fastlz

open Lz77

variable {data : Bytes}

/-! ## There and back -/

/-- Up to three bytes are one run. -/
theorem compressor_short (level : Level) {mem : Bytes} {length : Nat} (hpos : 0 < length)
    (h4 : length < 4) (hmem : length ≤ mem.length) :
    compressor level mem length =
      .ok ⟨Level.one.encode [.run (mem.take length)], length + 1⟩ := by
  have hlen : (mem.take length).length = length := List.length_take_of_le hmem
  have hliterals : prefixOf mem length = .ok (mem.take length) := by
    rw [prefixOf_of_le (by omega) (by omega), Int.toNat_natCast]
  rw [compressor, if_pos h4, if_neg (by omega), hliterals, C.bind_ok, encode_cons, encode_nil,
    List.append_nil, Level.encodeOp, hlen]
  rfl

/-- **What `fastlz_compress` writes**; `b` is the byte behind the text. -/
theorem compress_says (hne : data ≠ []) (hmax : data.length < 2 ^ 31) (b : UInt8)
    (after : Bytes) :
    ∃ w, compress (data ++ b :: after) data.length = .ok w ∧ Says (levelFor data.length) data w := by
  have hpos := List.length_pos_iff.mpr hne
  have htake : (data ++ b :: after).take data.length = data := List.take_left
  have hmem : data.length < (data ++ b :: after).length := by
    rw [List.length_append, List.length_cons]
    omega
  by_cases h4 : data.length < 4
  · have hlevel : levelFor data.length = .one := if_pos (by omega)
    refine ⟨_, compressor_short _ hpos h4 (Nat.le_of_lt hmem), ?_⟩
    rw [hlevel, htake]
    refine ⟨⟨[.run data], ⟨⟨hne, trivial⟩, ?_, data, [], rfl⟩, rfl, rfl⟩, ?_, ?_⟩
    · rw [List.forall_mem_singleton]
      show data.length ≤ 32
      omega
    · simp only [encode_cons, encode_nil, List.append_nil, Level.encodeOp, List.length_cons,
        Nat.le_refl]
    · exact Nat.le_add_right _ _
  · obtain ⟨w, hw, hsaid⟩ := compressor_stream (levelFor data.length) (by omega) hmem hmax
    rw [htake] at hsaid
    exact ⟨w, hw, hsaid⟩

/-- The text of a compressed form, with any memory behind it. -/
theorem Says.decompress {level : Level} {w : Written} (h : Says level data w) (strictAlign : Bool)
    (after : Bytes) {maxout : Int} (hroom : data.length ≤ maxout) :
    decompress strictAlign (w.out ++ after) w.out.length maxout = .ok data := by
  obtain ⟨⟨ops, hstream, hout, htext⟩, -, -⟩ := h
  apply decompress_append
  rw [← htext] at hroom ⊢
  rw [hout, length_mark]
  exact decompress_stream hstream hroom

/-- A part of a compressed form. -/
theorem Says.decompress_cut {level : Level} {w : Written} (h : Says level data w)
    {strictAlign : Bool} {maxout : Int} {cut r : Bytes} (hroom : data.length ≤ maxout)
    (hcut : cut <+: w.out) (hne : cut ≠ w.out)
    (hr : Fastlz.decompress strictAlign cut cut.length maxout = .ok r) :
    r <+: data ∧ r.length < data.length := by
  obtain ⟨⟨ops, hstream, hout, htext⟩, -, -⟩ := h
  rw [← htext] at hroom ⊢
  rw [hout] at hcut hne
  exact Fastlz.decompress_cut hstream hroom hcut hne hr

/-- What is written for a text of this length has a length that is an `int`. -/
theorem Says.length_lt {level : Level} {w : Written} (h : Says level data w)
    (hlen : data.length + 1 + data.length / 32 < 2 ^ 31) : w.out.length < 2 ^ 31 :=
  Nat.lt_of_le_of_lt (Nat.le_trans h.written h.room) hlen

/-- **The round trip**: into any buffer with room, with any memory behind the input and behind the
compressed form, in both builds.  The length is the answer of `fastlz_compress`, an `int`. -/
theorem decompress_compress (hne : data ≠ [])
    (hlen : data.length + 1 + data.length / 32 < 2 ^ 31) (b : UInt8) (after : Bytes) :
    ∃ w, compress (data ++ b :: after) data.length = .ok w ∧
      ∀ strictAlign after' (maxout : Int), data.length ≤ maxout →
        decompress strictAlign (w.out ++ after') (narrowInt w.out.length) maxout = .ok data := by
  obtain ⟨w, hw, hsaid⟩ := compress_says hne (by omega) b after
  refine ⟨w, hw, ?_⟩
  rw [narrowInt_of_lt (hsaid.length_lt hlen)]
  exact fun strictAlign after' _ hroom => hsaid.decompress strictAlign after' hroom

/-- **A cut compressed form** gives a proper part of the text, if it is decompressed at all and
nothing behind the cut is read. -/
theorem decompress_cut_text (hne : data ≠ [])
    (hlen : data.length + 1 + data.length / 32 < 2 ^ 31) (b : UInt8) (after : Bytes) :
    ∃ w, compress (data ++ b :: after) data.length = .ok w ∧
      ∀ strictAlign (maxout : Int) (cut r : Bytes), data.length ≤ maxout → cut <+: w.out →
        cut ≠ w.out → decompress strictAlign cut (narrowInt cut.length) maxout = .ok r →
          r <+: data ∧ r.length < data.length := by
  obtain ⟨w, hw, hsaid⟩ := compress_says hne (by omega) b after
  refine ⟨w, hw, ?_⟩
  intro strictAlign maxout cut r hroom hcut hcutne hr
  have hshort := hsaid.length_lt hlen
  have hle := hcut.length_le
  rw [narrowInt_of_lt (by omega)] at hr
  exact hsaid.decompress_cut hroom hcut hcutne hr

/-- "abcabcabcabc…", in a buffer that is just large enough. -/
theorem decompress_compress_abc :
    ∃ w, compress (ascii "abcabcabcabcabcabcabc" ++ [0]) 21 = .ok w ∧
      ∀ strictAlign after' (maxout : Int), 21 ≤ maxout →
        decompress strictAlign (w.out ++ after') (narrowInt w.out.length) maxout =
          .ok (ascii "abcabcabcabcabcabcabc") :=
  decompress_compress (by decide) (by decide) 0 []

/-- The same text, cut. -/
theorem decompress_cut_abc :
    ∃ w, compress (ascii "abcabcabcabcabcabcabc" ++ [0]) 21 = .ok w ∧
      ∀ strictAlign (maxout : Int) (cut r : Bytes), 21 ≤ maxout → cut <+: w.out → cut ≠ w.out →
        decompress strictAlign cut (narrowInt cut.length) maxout = .ok r →
          r <+: ascii "abcabcabcabcabcabcabc" ∧ r.length < 21 :=
  decompress_cut_text (by decide) (by decide) 0 []

/-! ## The library of the transcoder -/

/-- `fastlz_compress` on a PHP string. -/
def compressString (data : Bytes) : Bytes :=
  match compress (data ++ [0]) data.length with
  | .ok w => w.out
  | .error _ => []

/-- `fastlz_decompress`; both builds do the same (`decompress_word_copies`). -/
def decompressString (mem : Bytes) (length : Nat) (size : Int) : C Bytes :=
  decompress true mem length size

theorem compressString_nil : compressString [] = [] := rfl

/-- Without input the terminator is read as a run of one literal, which is refused. -/
theorem decompressString_nil (after : Bytes) (size : Int) :
    decompressString (0 :: after) 0 size = .ok [] := by
  have hrefused : pass .one true size 0 ⟨after, -1⟩ [] = .ok .failed := by
    rw [pass, if_neg (by decide), literalPass_eq, literalEnds]
    split
    · rfl
    · rfl
  show loop .one true size (after.length + 1) 0 ⟨after, -1⟩ [] = .ok []
  rw [loop, hrefused]
  rfl

theorem decompressString_compressString (hmax : data.length < 2 ^ 31) (after : Bytes) {size : Int}
    (hroom : data.length ≤ size) :
    decompressString (compressString data ++ 0 :: after) (compressString data).length size =
      .ok data := by
  by_cases hne : data = []
  · rw [hne, compressString_nil]
    exact decompressString_nil after size
  · obtain ⟨w, hw, hsaid⟩ := compress_says hne hmax 0 []
    have hout : compressString data = w.out := by rw [compressString, hw]
    rw [hout]
    exact hsaid.decompress true (0 :: after) hroom

theorem length_compressString (hmax : data.length < 2 ^ 31) :
    (compressString data).length ≤ data.length + 1 + data.length / 32 := by
  by_cases hne : data = []
  · rw [hne, compressString_nil]
    exact Nat.zero_le _
  · obtain ⟨w, hw, -, hwritten, hroom⟩ := compress_says hne hmax 0 []
    have hroom : w.high ≤ data.length + 1 + data.length / 32 := hroom
    rw [compressString, hw]
    exact Nat.le_trans hwritten hroom

/-- 5 % and 66 bytes are more than a byte for each 32 and one. -/
theorem room_le (n : Nat) : n + 1 + n / 32 ≤ max 66 (n + n / 20) := by omega

end Fastlz

open Fastlz LittleEndian

/-- The build with the fastlz of the source tree. -/
def Env.withFastlz (env : Env) : Env :=
  { env with fastlzCompress := compressString, fastlzDecompress := decompressString }

/-- **`fastlz.c` keeps the laws of the round trip.** -/
theorem withFastlz_lawful {env : Env} (laws : env.Lawful) : env.withFastlz.Lawful where
  json_long := laws.json_long
  json_true := laws.json_true
  json_false := laws.json_false
  json_null := laws.json_null
  php_null := laws.php_null
  igbinary_null := laws.igbinary_null
  serializer_cut := laws.serializer_cut
  zlib_uncompress := laws.zlib_uncompress
  zlib_small := laws.zlib_small
  zlib_cut := laws.zlib_cut
  fastlz_decompress _ after _ hmax _ hroom := decompressString_compressString hmax after hroom
  fastlz_bound _ hmax := Nat.le_trans (length_compressString hmax) (room_le _)

/-- A build with all of these libraries. -/
theorem literalEnv_withFastlz : literalEnv.withFastlz.Lawful := withFastlz_lawful literalEnv_lawful

/-- The length of a match is read off the terminator and its distance off the byte behind: the
document is ten times "A" in one run and undefined in another. -/
example : runDecoder literalEnv.withFastlz [] [0] [10, 0, 0, 0, 0, 65, 0xE0] 0x01000050 0 true =
    .ok (.string (ascii "AAAAAAAAAA")) := by rfl

example : runDecoder literalEnv.withFastlz [] [1] [10, 0, 0, 0, 0, 65, 0xE0] 0x01000050 0 true =
    .ok .undef := by rfl

/-! ## Strings -/

/-- The decompression block on what the encoder wrote with fastlz. -/
theorem unpack_compressString (env : Env) (slack after : Bytes) {data : Bytes} (hne : data ≠ [])
    (hlen : data.length + 5 + data.length / 32 < 2 ^ 31) :
    unpack env.withFastlz slack Flags.compressionFastlz
        ⟨leBytes 4 data.length ++ compressString data, 0 :: after⟩
        (narrowInt (leBytes 4 data.length ++ compressString data).length) =
      .ok (.payload ⟨data, slack⟩ data.length) := by
  have hmax : data.length < 2 ^ 31 := by omega
  have hshort := length_compressString hmax
  have hheader : leVal (leBytes 4 data.length) = data.length := by
    rw [leVal_leBytes]
    omega
  have hpacked : (leBytes 4 data.length ++ compressString data).length < 2 ^ 31 := by
    rw [List.length_append, length_leBytes]
    omega
  have hcount : (((leBytes 4 data.length ++ compressString data).length : Nat) - 4 : Int) =
      (compressString data).length := by
    rw [List.length_append, length_leBytes]
    omega
  have hroom : (data.length : Int) ≤ data.length := Int.le_refl _
  have hback : callFastlzDecompress env.withFastlz (compressString data ++ 0 :: after)
      (compressString data).length data.length = .ok data := by
    rw [callFastlzDecompress, if_pos (Int.natCast_nonneg _), Int.toNat_natCast]
    exact decompressString_compressString hmax after hroom
  unfold unpack
  rw [if_neg (by decide), if_pos rfl, Buffer.mem, prefixOf_header, drop_header, C.bind_ok,
    narrowInt_of_lt hpacked, hcount, hheader, narrowInt_of_lt hmax, hback, C.bind_ok, if_neg hne,
    narrowInt_of_lt hmax]
  rfl

/-- **A string that is stored without compression or with fastlz is read back**, whatever the
threshold, the factor and the other libraries are. -/
theorem string_survives_fastlz (env : Env) (o : EncoderOptions) (jsonassoc : Bool)
    (slack after data : Bytes) (hcmpr : o.cmprtype = cmprtypeNone ∨ o.cmprtype = cmprtypeFastlz)
    (hne : data ≠ []) (hlen : data.length + 5 + data.length / 32 < 2 ^ 31) :
    ∃ e, basicEncoderV1 env.withFastlz o (.string data) = .ok e ∧
      decodeEncoded env.withFastlz slack after jsonassoc e = .ok (.string data) := by
  have hmax : data.length < 2 ^ 31 := by omega
  have hplain : ∀ dt, decodeEncoded env.withFastlz slack after jsonassoc
      ⟨data, Flags.valIsString ||| Flags.cffmtString, dt⟩ = .ok (.string data) := by
    intro dt
    rw [decodeEncoded_string, narrowInt_of_lt hmax, prefixOf_append_length]
    rfl
  have hpacked : ∀ dt, decodeEncoded env.withFastlz slack after jsonassoc
      ⟨leBytes 4 data.length ++ compressString data,
        packedFlags (Flags.valIsString ||| Flags.cffmtString) Flags.compressionFastlz, dt⟩ =
      .ok (.string data) := by
    intro dt
    have hword : (packedFlags (Flags.valIsString ||| Flags.cffmtString)
        Flags.compressionFastlz).toUInt64 ≠ 0 := by decide
    have hflags : Flags.valIsString ||| Flags.cffmtString ∈ typeFlags := by decide
    have hfast : Flags.compressionFastlz ∈ [Flags.compressionZlib, Flags.compressionFastlz] := by
      decide
    rw [decodeEncoded_packed slack after _ dt hflags hfast,
      unpack_compressString env _ _ hne hlen, C.bind_ok]
    show decodePrivate _ _ _ _ _ _ = _
    rw [decodePrivate_string hword, Buffer.mem, prefixOf_append_length]
    rfl
  have hpayload : ∀ cmprtype, cmprtype = cmprtypeNone ∨ cmprtype = cmprtypeFastlz →
      compressPayload env.withFastlz cmprtype data = .ok none ∨
        compressPayload env.withFastlz cmprtype data =
          .ok (some (leBytes 4 data.length ++ compressString data, Flags.compressionFastlz)) := by
    rintro cmprtype (rfl | rfl)
    · exact Or.inl rfl
    · right
      have hshort := length_compressString hmax
      have hout : prefixOf (env.withFastlz.fastlzCompress data)
          (narrowInt (env.withFastlz.fastlzCompress data).length) = .ok (compressString data) :=
        prefixOf_narrowInt (show (compressString data).length < 2 ^ 31 by omega)
      rw [compressPayload, if_neg (by decide), if_pos rfl, prefixOf_narrowInt hmax, C.bind_ok]
      dsimp only
      rw [hout]
      rfl
  have hdecide : compression env.withFastlz o data = .ok none ∨
      compression env.withFastlz o data =
        .ok (some (leBytes 4 data.length ++ compressString data, Flags.compressionFastlz)) := by
    unfold compression
    extract_lets cmprtype
    have htype : cmprtype = cmprtypeNone ∨ cmprtype = cmprtypeFastlz := by
      by_cases hshort : data.length < o.cmprthresh.toUInt64.toNat
      · exact Or.inl (if_pos hshort)
      · rw [show cmprtype = o.cmprtype from if_neg hshort]
        exact hcmpr
    rcases hpayload cmprtype htype with hnone | hsome
    · rw [hnone]
      exact Or.inl rfl
    · rw [hsome, C.bind_ok]
      dsimp only
      split
      · exact Or.inr rfl
      · exact Or.inl rfl
  rcases hdecide with hnone | hsome
  · refine ⟨⟨data, _, 0⟩, ?_, hplain 0⟩
    show (compression env.withFastlz o data >>= _) = _
    rw [hnone]
    rfl
  · refine ⟨⟨_, _, 0⟩, ?_, hpacked 0⟩
    show (compression env.withFastlz o data >>= _) = _
    rw [hsome]
    rfl

/-- "abcabcabcabc…", compressed and read back. -/
theorem abc_survives_fastlz :
    ∃ e, basicEncoderV1 literalEnv.withFastlz fastlzOptions
        (.string (ascii "abcabcabcabcabcabcabc")) = .ok e ∧
      decodeEncoded literalEnv.withFastlz [] [] true e =
        .ok (.string (ascii "abcabcabcabcabcabcabc")) :=
  string_survives_fastlz literalEnv fastlzOptions true [] [] _ (Or.inr rfl) (by decide) (by decide)

end PhpCouchbase
