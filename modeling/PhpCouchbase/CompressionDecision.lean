import Mathlib.Data.Rat.Cast.Order
import Mathlib.Tactic.NormNum
import PhpCouchbase.TranscoderRoundTrip
import PhpCouchbase.Lib.OrderedMap

/-!
# When the encoder keeps the compressed form

The compression step of `basic_encoder_v1` and the options of `basicEncoderV1` in `couchbase.c`.
The decision compares the length of the text with a threshold and with the length of the compressed
form times a factor.  The threshold is a `long`, the length a `size_t`: a negative threshold counts
as a huge one.

* `encoderOptions` — the settings of a call, from the ini values and the options array.
* `Keeps` — when the compressed form is to be stored.
* `DecidesCompression` — the encoder stores it then, and in every other case does what it does
  without compression.
* `decidesCompression_iff` — exactly for which settings and texts.
-/

set_option autoImplicit false

namespace PhpCouchbase

open OrderedMap

/-! ## The options of `basicEncoderV1` -/

/-- `php_array_zval_to_long` and `php_array_zval_to_double` on a value of any type. -/
structure Conversions where
  toLong : Zval → Int64
  toDouble : Zval → UInt64

/-- The options array over the ini values: a serializer or a compression that does not exist is
ignored, the threshold and the factor are taken as they are. -/
def encoderOptions (conv : Conversions) (ini : EncoderOptions)
    (options : List (ArrayKey × Zval)) : EncoderOptions where
  sertype :=
    match fetch options (.str (ascii "sertype")) with
    | some z =>
      let tmp := (conv.toLong z).toInt
      if tmp ≤ sertypePhp ∧ sertypeJson ≤ tmp then tmp else ini.sertype
    | none => ini.sertype
  cmprtype :=
    match fetch options (.str (ascii "cmprtype")) with
    | some z =>
      let tmp := (conv.toLong z).toInt
      if cmprtypeNone ≤ tmp ∧ tmp ≤ cmprtypeFastlz then tmp else ini.cmprtype
    | none => ini.cmprtype
  cmprthresh :=
    match fetch options (.str (ascii "cmprthresh")) with
    | some z => conv.toLong z
    | none => ini.cmprthresh
  cmprfactor :=
    match fetch options (.str (ascii "cmprfactor")) with
    | some z => conv.toDouble z
    | none => ini.cmprfactor

/-- The settings name a serializer and a compression that exist. -/
def EncoderOptions.Valid (o : EncoderOptions) : Prop :=
  sertypeJson ≤ o.sertype ∧ o.sertype ≤ sertypePhp ∧
    cmprtypeNone ≤ o.cmprtype ∧ o.cmprtype ≤ cmprtypeFastlz

/-- Whatever the options array holds, valid ini values give valid settings. -/
theorem encoderOptions_valid (conv : Conversions) {ini : EncoderOptions} (hini : ini.Valid)
    (options : List (ArrayKey × Zval)) : (encoderOptions conv ini options).Valid := by
  obtain ⟨hser, hser', hcmpr, hcmpr'⟩ := hini
  have hs : sertypeJson ≤ (encoderOptions conv ini options).sertype ∧
      (encoderOptions conv ini options).sertype ≤ sertypePhp := by
    unfold encoderOptions
    dsimp only
    cases fetch options (.str (ascii "sertype")) with
    | none => exact ⟨hser, hser'⟩
    | some z =>
      dsimp only
      split
      · rename_i h
        exact ⟨h.2, h.1⟩
      · exact ⟨hser, hser'⟩
  have hc : cmprtypeNone ≤ (encoderOptions conv ini options).cmprtype ∧
      (encoderOptions conv ini options).cmprtype ≤ cmprtypeFastlz := by
    unfold encoderOptions
    dsimp only
    cases fetch options (.str (ascii "cmprtype")) with
    | none => exact ⟨hcmpr, hcmpr'⟩
    | some z =>
      dsimp only
      split
      · rename_i h
        exact h
      · exact ⟨hcmpr, hcmpr'⟩
  exact ⟨hs.1, hs.2, hc.1, hc.2⟩

/-! ## The decision -/

variable (env : Env)

/-- The factor of the settings is the number `factor`, and the comparison in double arithmetic is
exact. -/
def ExactFactor (o : EncoderOptions) (factor : ℚ) : Prop :=
  ∀ len clen : Nat, env.exceeds len clen o.cmprfactor = true ↔ (clen : ℚ) * factor < len

/-- **The compressed form is to be stored**: there is a compression, it succeeds, the text is as
long as the threshold, and it is longer than the compressed form with its header times the
factor. -/
structure Keeps (o : EncoderOptions) (factor : ℚ) (data packed : Bytes) (cmprflags : UInt32) :
    Prop where
  typed : o.cmprtype ≠ cmprtypeNone
  compressed : compressPayload env o.cmprtype data = .ok (some (packed, cmprflags))
  long : o.cmprthresh.toInt ≤ data.length
  smaller : (packed.length : ℚ) * factor < data.length

/-- **The encoder decides as it should**: it stores the compressed form when that is to be stored,
and else gives exactly what it gives without compression. -/
structure DecidesCompression (o : EncoderOptions) (factor : ℚ) (value : Zval) (data : Bytes)
    (flags : UInt32) : Prop where
  kept : ∀ packed cmprflags, Keeps env o factor data packed cmprflags →
    basicEncoderV1 env o value = .ok ⟨packed, packedFlags flags cmprflags, 0⟩
  plain : (∀ packed cmprflags, ¬ Keeps env o factor data packed cmprflags) →
    ∃ e, basicEncoderV1 env o value = .ok e ∧
      basicEncoderV1 env { o with cmprtype := cmprtypeNone } value = .ok e

/-- fastlz can be called: the length of the text is not negative as an `int`, and nor is the length
of what fastlz makes of it. -/
def FastlzCallable (data : Bytes) : Prop :=
  data.length % 2 ^ 32 < 2 ^ 31 ∧
    (env.fastlzCompress (data.take (data.length % 2 ^ 32))).length % 2 ^ 32 < 2 ^ 31

/-- **When it does**: a negative threshold that counts as larger than the text must not stop a
compressed form that is to be stored, and fastlz can be called with a text that reaches it. -/
structure CompressionSound (o : EncoderOptions) (factor : ℚ) (data : Bytes) : Prop where
  threshold : o.cmprthresh.toInt < 0 → (data.length : Int) < 2 ^ 64 + o.cmprthresh.toInt →
    ∀ packed cmprflags, ¬ Keeps env o factor data packed cmprflags
  callable : o.cmprtype = cmprtypeFastlz → o.cmprthresh.toUInt64.toNat ≤ data.length →
    FastlzCallable env data

/-! ## The threshold as a `size_t` -/

theorem toNat_toUInt64_of_nonneg {n : Int64} (h : 0 ≤ n.toInt) :
    (n.toUInt64.toNat : Int) = n.toInt := by
  have hcond := BitVec.toInt_eq_toNat_cond n.toBitVec
  have hint : n.toInt = n.toBitVec.toInt := rfl
  have hnat : n.toUInt64.toNat = n.toBitVec.toNat := rfl
  have hlt := n.toBitVec.isLt
  split at hcond <;> omega

theorem toNat_toUInt64_of_neg {n : Int64} (h : n.toInt < 0) :
    (n.toUInt64.toNat : Int) = 2 ^ 64 + n.toInt := by
  have hcond := BitVec.toInt_eq_toNat_cond n.toBitVec
  have hint : n.toInt = n.toBitVec.toInt := rfl
  have hnat : n.toUInt64.toNat = n.toBitVec.toNat := rfl
  have hlt := n.toBitVec.isLt
  split at hcond <;> omega

/-- The narrowed length of a text that is not negative asks for a part of it. -/
theorem prefixOf_narrowInt_of_nonneg {buf : Bytes} (h : buf.length % 2 ^ 32 < 2 ^ 31) :
    prefixOf buf (narrowInt buf.length) = .ok (buf.take (buf.length % 2 ^ 32)) := by
  have hval : narrowInt buf.length = (buf.length % 2 ^ 32 : Nat) := if_pos h
  have hle := Nat.mod_le buf.length (2 ^ 32)
  rw [hval, prefixOf_of_le (by omega) (by omega), Int.toNat_natCast]

theorem prefixOf_narrowInt_of_neg {buf : Bytes} (h : ¬buf.length % 2 ^ 32 < 2 ^ 31) :
    prefixOf buf (narrowInt buf.length) = .error .badLength :=
  prefixOf_of_neg fun h0 => h ((narrowInt_nonneg_iff _).mp h0)

/-- The compressor gives an answer, unless fastlz cannot be called. -/
theorem compressPayload_ok_iff (cmprtype : Int) (data : Bytes) :
    (∃ r, compressPayload env cmprtype data = .ok r) ↔
      (cmprtype = cmprtypeFastlz → FastlzCallable env data) := by
  unfold compressPayload
  by_cases hzlib : cmprtype = cmprtypeZlib
  · have hne : cmprtype ≠ cmprtypeFastlz := by
      rw [hzlib]
      decide
    rw [if_pos hzlib]
    refine ⟨fun _ h => absurd h hne, fun _ => ?_⟩
    cases env.haveZlib with
    | true => exact ⟨_, rfl⟩
    | false => exact ⟨none, rfl⟩
  rw [if_neg hzlib]
  by_cases hfast : cmprtype = cmprtypeFastlz
  · rw [if_pos hfast]
    simp only [hfast, true_implies]
    unfold FastlzCallable
    by_cases hin : data.length % 2 ^ 32 < 2 ^ 31
    · rw [prefixOf_narrowInt_of_nonneg hin, C.bind_ok]
      simp only [hin, true_and]
      generalize env.fastlzCompress (data.take (data.length % 2 ^ 32)) = out
      by_cases hout : out.length % 2 ^ 32 < 2 ^ 31
      · rw [prefixOf_narrowInt_of_nonneg hout]
        exact ⟨fun _ => hout, fun _ => ⟨_, rfl⟩⟩
      · rw [prefixOf_narrowInt_of_neg hout]
        refine iff_of_false ?_ hout
        rintro ⟨r, hr⟩
        cases hr
    · rw [prefixOf_narrowInt_of_neg hin]
      refine iff_of_false ?_ fun h => hin h.1
      rintro ⟨r, hr⟩
      cases hr
  · rw [if_neg hfast]
    exact ⟨fun _ h => absurd h hfast, fun _ => ⟨none, rfl⟩⟩

/-! ## Runs of the encoder -/

section

variable {env} {o : EncoderOptions} {value : Zval} {data : Bytes} {flags : UInt32}

theorem basicEncoderV1_of_text
    (htext : encodeText env (effectiveSertype env o.sertype) value = .ok (.string data, flags)) :
    basicEncoderV1 env o value =
      (compression env o data >>= fun r =>
        match r with
        | none => .ok ⟨data, flags, 0⟩
        | some (packed, cmprflags) => .ok ⟨packed, packedFlags flags cmprflags, 0⟩) := by
  unfold basicEncoderV1
  rw [htext]
  rfl

theorem compression_of_bypass (h : data.length < o.cmprthresh.toUInt64.toNat) :
    compression env o data = .ok none := by
  have hnone : compressPayload env cmprtypeNone data = .ok none := rfl
  unfold compression
  simp only [if_pos h, hnone, C.bind_ok, C.pure_eq]

theorem compression_of_none (h : o.cmprtype = cmprtypeNone) : compression env o data = .ok none := by
  have hnone : compressPayload env cmprtypeNone data = .ok none := rfl
  unfold compression
  simp only [h, ite_self, hnone, C.bind_ok, C.pure_eq]

theorem compression_of_reached (h : o.cmprthresh.toUInt64.toNat ≤ data.length) :
    compression env o data =
      (compressPayload env o.cmprtype data >>= fun r =>
        match r with
        | none => .ok none
        | some (packed, cmprflags) =>
          .ok (if env.exceeds data.length packed.length o.cmprfactor
            then some (packed, cmprflags) else none)) := by
  unfold compression
  rw [if_neg (by omega)]
  rfl

/-- Without compression the text is stored as it is. -/
theorem basicEncoderV1_plain
    (htext : encodeText env (effectiveSertype env o.sertype) value = .ok (.string data, flags)) :
    basicEncoderV1 env { o with cmprtype := cmprtypeNone } value = .ok ⟨data, flags, 0⟩ := by
  have hcomp : compression env { o with cmprtype := cmprtypeNone } data = .ok none :=
    compression_of_none rfl
  have hrun := basicEncoderV1_of_text (o := { o with cmprtype := cmprtypeNone }) htext
  rw [hrun, hcomp]
  rfl

end

/-! ## The flags tell the two forms apart -/

/-- No text is written with the compression bit. -/
theorem encodeText_uncompressed {sertype : Int} {value res : Zval} {flags : UInt32}
    (h : encodeText env sertype value = .ok (res, flags)) :
    flags &&& Flags.compressionMcIsCompressed = 0 := by
  have hall : ∀ f ∈ [Flags.valIsString ||| Flags.cffmtString, Flags.valIsLong ||| Flags.cffmtJson,
      Flags.valIsDouble ||| Flags.cffmtJson, Flags.valIsBool ||| Flags.cffmtJson,
      Flags.valIsJson ||| Flags.cffmtJson, Flags.valIsSerialized ||| Flags.cffmtPrivate,
      Flags.valIsIgbinary ||| Flags.cffmtPrivate, 0], f &&& Flags.compressionMcIsCompressed = 0 := by
    simp only [List.forall_mem_cons, List.not_mem_nil, false_implies, implies_true, and_true]
    decide
  apply hall
  by_cases hneeds : value.needsSerializer = true
  · rw [encodeText_serialized env hneeds] at h
    split at h
    · obtain ⟨_, -, h⟩ := C.bind_eq_ok.mp h
      cases h
      simp
    split at h
    · obtain ⟨_, -, h⟩ := C.bind_eq_ok.mp h
      cases h
      simp
    split at h
    · cases h
      simp
    · cases h
      simp
  · cases value <;> first | exact absurd rfl hneeds | (cases h; simp)

/-- Setting a bit sets it. -/
theorem or_and_self_bit (w bit : UInt32) : (w ||| bit) &&& bit = bit := by
  rw [← UInt32.toBitVec_inj]
  simp only [UInt32.toBitVec_and, UInt32.toBitVec_or]
  ext i hi
  simp only [BitVec.getElem_and, BitVec.getElem_or]
  grind

theorem or_and_of_and_eq_zero {w mask bit : UInt32} (h : mask &&& bit = 0) :
    (w ||| mask) &&& bit = w &&& bit := by
  rw [← UInt32.toBitVec_inj] at h ⊢
  simp only [UInt32.toBitVec_and, UInt32.toBitVec_or, UInt32.toBitVec_ofNat] at h ⊢
  ext i hi
  have hbit := congrArg (fun v => v.getLsbD i) h
  simp at hbit ⊢
  grind

theorem packedFlags_compressed (flags cmprflags : UInt32) :
    packedFlags flags cmprflags &&& Flags.compressionMcIsCompressed =
      Flags.compressionMcIsCompressed := by
  have hprivate : Flags.cffmtPrivate &&& Flags.compressionMcIsCompressed = 0 := by decide
  have hmask : ~~~Flags.cffmtMask &&& Flags.compressionMcIsCompressed =
      Flags.compressionMcIsCompressed := by decide
  unfold packedFlags
  rw [or_and_of_and_eq_zero hprivate, UInt32.and_assoc, hmask, or_and_self_bit]

/-- The flags of a text are not those of a compressed form. -/
theorem packedFlags_ne {sertype : Int} {value res : Zval} {flags : UInt32}
    (htext : encodeText env sertype value = .ok (res, flags)) (flags' cmprflags : UInt32) :
    packedFlags flags' cmprflags ≠ flags := by
  intro h
  have hzero := encodeText_uncompressed env htext
  rw [← h, packedFlags_compressed] at hzero
  exact absurd hzero (by decide)

/-! ## The decision is right exactly when … -/

section

variable {env} {o : EncoderOptions} {value : Zval} {data : Bytes} {flags : UInt32} {factor : ℚ}

/-- A text below the threshold as a `size_t` is stored as it is. -/
theorem decides_of_bypass
    (htext : encodeText env (effectiveSertype env o.sertype) value = .ok (.string data, flags))
    (h : data.length < o.cmprthresh.toUInt64.toNat) :
    DecidesCompression env o factor value data flags ↔
      ∀ packed cmprflags, ¬ Keeps env o factor data packed cmprflags := by
  have hrun : basicEncoderV1 env o value = .ok ⟨data, flags, 0⟩ := by
    rw [basicEncoderV1_of_text htext, compression_of_bypass h]
    rfl
  constructor
  · intro hdec packed cmprflags hkeeps
    have hkept := hdec.kept packed cmprflags hkeeps
    rw [hrun, Except.ok.injEq, Encoded.mk.injEq] at hkept
    exact packedFlags_ne env htext flags cmprflags hkept.2.1.symm
  · intro hnot
    refine ⟨fun packed cmprflags hkeeps => absurd hkeeps (hnot packed cmprflags), fun _ => ?_⟩
    exact ⟨_, hrun, basicEncoderV1_plain htext⟩

/-- A form that is to be kept is the answer of the compressor. -/
theorem Keeps.answer {packed : Bytes} {cmprflags : UInt32} {r : C (Option (Bytes × UInt32))}
    (h : Keeps env o factor data packed cmprflags)
    (hcomp : compressPayload env o.cmprtype data = r) : r = .ok (some (packed, cmprflags)) :=
  hcomp.symm.trans h.compressed

/-- A call that is undefined stores nothing. -/
theorem not_decides_of_fault {f : Fault}
    (htext : encodeText env (effectiveSertype env o.sertype) value = .ok (.string data, flags))
    (h : o.cmprthresh.toUInt64.toNat ≤ data.length)
    (hcomp : compressPayload env o.cmprtype data = .error f) :
    ¬ DecidesCompression env o factor value data flags := by
  intro hdec
  have hrun := basicEncoderV1_of_text htext
  rw [compression_of_reached h, hcomp] at hrun
  have hnot : ∀ packed cmprflags, ¬ Keeps env o factor data packed cmprflags := by
    intro packed cmprflags hkeeps
    cases hkeeps.answer hcomp
  obtain ⟨e, he, -⟩ := hdec.plain hnot
  rw [hrun] at he
  cases he

/-- Without an answer the text is stored as it is. -/
theorem decides_of_none
    (htext : encodeText env (effectiveSertype env o.sertype) value = .ok (.string data, flags))
    (h : o.cmprthresh.toUInt64.toNat ≤ data.length)
    (hcomp : compressPayload env o.cmprtype data = .ok none) :
    DecidesCompression env o factor value data flags := by
  have hrun := basicEncoderV1_of_text htext
  rw [compression_of_reached h, hcomp, C.bind_ok] at hrun
  refine ⟨?_, fun _ => ⟨_, hrun, basicEncoderV1_plain htext⟩⟩
  intro packed cmprflags hkeeps
  cases hkeeps.answer hcomp

/-- With an answer the factor decides, as it should. -/
theorem decides_of_some {packed : Bytes} {cmprflags : UInt32} (hexact : ExactFactor env o factor)
    (htext : encodeText env (effectiveSertype env o.sertype) value = .ok (.string data, flags))
    (h : o.cmprthresh.toUInt64.toNat ≤ data.length) (hlong : o.cmprthresh.toInt ≤ data.length)
    (hcomp : compressPayload env o.cmprtype data = .ok (some (packed, cmprflags))) :
    DecidesCompression env o factor value data flags := by
  have hrun := basicEncoderV1_of_text htext
  rw [compression_of_reached h, hcomp, C.bind_ok] at hrun
  have hiff := hexact data.length packed.length
  by_cases hsmall : env.exceeds data.length packed.length o.cmprfactor = true
  · -- the compressed form is stored, and it is the only one
    have hstored : basicEncoderV1 env o value = .ok ⟨packed, packedFlags flags cmprflags, 0⟩ := by
      rw [hrun]
      dsimp only
      rw [if_pos hsmall]
      rfl
    have hkeeps : Keeps env o factor data packed cmprflags := by
      refine ⟨?_, hcomp, hlong, hiff.mp hsmall⟩
      intro hnone
      have hnothing : compressPayload env cmprtypeNone data = .ok none := rfl
      rw [hnone, hnothing] at hcomp
      cases hcomp
    refine ⟨?_, fun hnot => absurd hkeeps (hnot packed cmprflags)⟩
    intro packed' cmprflags' hkeeps'
    cases hkeeps'.answer hcomp
    exact hstored
  · have hstored : basicEncoderV1 env o value = .ok ⟨data, flags, 0⟩ := by
      rw [hrun]
      dsimp only
      rw [if_neg hsmall]
      rfl
    refine ⟨?_, fun _ => ⟨_, hstored, basicEncoderV1_plain htext⟩⟩
    intro packed' cmprflags' hkeeps'
    cases hkeeps'.answer hcomp
    exact absurd (hiff.mpr hkeeps'.smaller) hsmall

/-- A text that reaches the compressor is decided on rightly exactly when the call is defined. -/
theorem decides_of_reached (hexact : ExactFactor env o factor)
    (htext : encodeText env (effectiveSertype env o.sertype) value = .ok (.string data, flags))
    (h : o.cmprthresh.toUInt64.toNat ≤ data.length)
    (hlong : o.cmprthresh.toInt ≤ data.length) :
    DecidesCompression env o factor value data flags ↔
      ∃ r, compressPayload env o.cmprtype data = .ok r := by
  cases hcomp : compressPayload env o.cmprtype data with
  | error f =>
    refine iff_of_false (not_decides_of_fault htext h hcomp) ?_
    rintro ⟨r, hr⟩
    cases hr
  | ok r =>
    refine iff_of_true ?_ ⟨r, rfl⟩
    cases r with
    | none => exact decides_of_none htext h hcomp
    | some p => exact decides_of_some hexact htext h hlong hcomp

end

/-- **The decision is right** exactly when it is sound for the settings and the text. -/
theorem decidesCompression_iff {o : EncoderOptions} {factor : ℚ}
    (hexact : ExactFactor env o factor) (value : Zval) (data : Bytes) (flags : UInt32)
    (htext : encodeText env (effectiveSertype env o.sertype) value = .ok (.string data, flags)) :
    DecidesCompression env o factor value data flags ↔ CompressionSound env o factor data := by
  by_cases hreach : o.cmprthresh.toUInt64.toNat ≤ data.length
  · have hlong : o.cmprthresh.toInt ≤ data.length := by
      by_cases hneg : o.cmprthresh.toInt < 0
      · omega
      · have := toNat_toUInt64_of_nonneg (not_lt.mp hneg)
        omega
    rw [decides_of_reached hexact htext hreach hlong, compressPayload_ok_iff]
    constructor
    · intro hcall
      refine ⟨?_, fun hfast _ => hcall hfast⟩
      intro hneg habs
      have := toNat_toUInt64_of_neg hneg
      omega
    · exact fun hsound hfast => hsound.callable hfast hreach
  · rw [decides_of_bypass htext (not_le.mp hreach)]
    constructor
    · exact fun hnot => ⟨fun _ _ => hnot, fun _ habs => absurd habs hreach⟩
    · intro hsound packed cmprflags hkeeps
      by_cases hneg : o.cmprthresh.toInt < 0
      · have := toNat_toUInt64_of_neg hneg
        exact hsound.threshold hneg (by omega) packed cmprflags hkeeps
      · have := toNat_toUInt64_of_nonneg (not_lt.mp hneg)
        have := hkeeps.long
        omega

/-- A factor of zero is compared exactly. -/
theorem literalEnv_exact {o : EncoderOptions} (h : o.cmprfactor = 0) :
    ExactFactor literalEnv o 0 := by
  intro len clen
  show (o.cmprfactor == 0 && decide (0 < len)) = true ↔ (clen : ℚ) * 0 < len
  rw [h, mul_zero, Nat.cast_pos]
  simp

/-- The threshold 0 is right for the string "ab". -/
theorem threshold_zero_decides :
    DecidesCompression literalEnv fastlzOptions 0 (.string (ascii "ab")) (ascii "ab") 0x04000000 := by
  refine (decidesCompression_iff literalEnv (literalEnv_exact rfl) (.string (ascii "ab")) (ascii "ab")
    0x04000000 rfl).mpr ⟨?_, ?_⟩
  · intro hneg
    exact absurd hneg (by decide)
  · intro _ _
    exact ⟨by decide, by decide⟩

/-- The conversions of values that are numbers already. -/
def numberConversions : Conversions where
  toLong z := match z with
    | .long n => n
    | _ => 0
  toDouble z := match z with
    | .double d => d
    | _ => 0

/-- **A negative threshold turns compression off**: with the option `cmprthresh` -1 the string "ab"
is stored as it is, although it is longer than the threshold and the compressed form is to be
kept. -/
theorem negative_threshold_never_compresses :
    encoderOptions numberConversions ⟨sertypeJson, cmprtypeNone, 0, 0⟩
      [(.str (ascii "cmprtype"), .long 2), (.str (ascii "cmprthresh"), .long (-1))] =
        ⟨sertypeJson, cmprtypeFastlz, -1, 0⟩ ∧
    ExactFactor literalEnv ⟨sertypeJson, cmprtypeFastlz, -1, 0⟩ 0 ∧
    basicEncoderV1 literalEnv ⟨sertypeJson, cmprtypeFastlz, -1, 0⟩ (.string (ascii "ab")) =
      .ok ⟨ascii "ab", 0x04000000, 0⟩ ∧
    ¬ DecidesCompression literalEnv ⟨sertypeJson, cmprtypeFastlz, -1, 0⟩ 0 (.string (ascii "ab"))
      (ascii "ab") 0x04000000 := by
  have hrun : basicEncoderV1 literalEnv ⟨sertypeJson, cmprtypeFastlz, -1, 0⟩
      (.string (ascii "ab")) = .ok ⟨ascii "ab", 0x04000000, 0⟩ := by rfl
  have hkeeps : Keeps literalEnv ⟨sertypeJson, cmprtypeFastlz, -1, 0⟩ 0 (ascii "ab")
      [2, 0, 0, 0, 1, 97, 98] Flags.compressionFastlz := by
    refine ⟨by decide, by rfl, by decide, ?_⟩
    rw [mul_zero, Nat.cast_pos]
    decide
  refine ⟨by rfl, literalEnv_exact rfl, hrun, ?_⟩
  intro hdec
  have hkept := hdec.kept _ _ hkeeps
  rw [hrun] at hkept
  exact absurd hkept (by decide)

end PhpCouchbase
