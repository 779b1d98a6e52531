import PhpCouchbase.DecoderReading
import PhpCouchbase.TranscoderRoundTrip

/-!
# When decoding stored data is safe

Any flags can come with any payload.  The decompression block (`couchbase.c`) reads a header of four
bytes before it looks at the length, narrows the lengths to `int`, and leaves the result undefined
when the library refuses.

* `SafeCall` — a call of a decompressor with the true lengths, whose failure is noticed.
* `SafeDecode` — every call is safe and the decoder leaves a value, null for what cannot be read.
* `decoder_safe_iff` — exactly which documents are decoded safely.
-/

set_option autoImplicit false

namespace PhpCouchbase

open LittleEndian

variable (env : Env)

/-! ## Calls of a decompressor -/

/-- The size of the text, as the header says. -/
def storedSize (payload : Bytes) : Nat := leVal (payload.take 4)

/-- **A safe call**: the input length is the payload's without the header, the output size is the
header's, and the output length is used after a success only. -/
def SafeCall (site : DecompressSite) (buf : Buffer) : Prop :=
  ∃ d, decompressAt env site buf = .ok d ∧
    d.inputLen = (buf.data.length : Int) - 4 ∧ 0 ≤ d.inputLen ∧
    d.outputSize = storedSize buf.data ∧ (d.used = true → d.output.isSome = true)

/-- The payload has a header, and its lengths survive what the site makes of them. -/
def DecompressSite.Accepts (site : DecompressSite) (payload : Bytes) : Prop :=
  4 ≤ payload.length ∧
    match site with
    | .decoderZlib => payload.length < 2 ^ 31
    | .decoderFastlz => payload.length < 2 ^ 31 ∧ storedSize payload < 2 ^ 31
    | .zlibDecompress => True
    | .fastlzDecompress => payload.length < 2 ^ 31 + 4 ∧ storedSize payload < 2 ^ 31

/-- What the library makes of the payload behind its header, with `after` behind the payload.  A
library that reads past both is a fault. -/
def DecompressSite.text (site : DecompressSite) (payload after : Bytes) : C (Option Bytes) :=
  site.decompress env (payload.drop 4 ++ after) ((payload.length : Int) - 4) (storedSize payload)

theorem DecompressSite.accepts_iff (site : DecompressSite) (payload : Bytes) :
    site.Accepts payload ↔
      4 ≤ payload.length ∧ site.inputLen payload.length = (payload.length : Int) - 4 ∧
        site.outputSize (storedSize payload) = storedSize payload := by
  have hlen := narrowInt_eq_iff payload.length
  have hsize := narrowInt_eq_iff (storedSize payload)
  have hrest := narrowInt_eq_iff (payload.length - 4)
  unfold DecompressSite.Accepts
  apply and_congr_right
  intro h4
  have hminus : sizeMinusFour payload.length = payload.length - 4 := if_pos h4
  cases site with
  | decoderZlib =>
    simp only [DecompressSite.inputLen, DecompressSite.outputSize, and_true]
    omega
  | decoderFastlz =>
    simp only [DecompressSite.inputLen, DecompressSite.outputSize, hsize]
    omega
  | zlibDecompress =>
    simp only [DecompressSite.inputLen, DecompressSite.outputSize, hminus, and_true, true_iff]
    omega
  | fastlzDecompress =>
    simp only [DecompressSite.inputLen, DecompressSite.outputSize, hminus, hsize]
    omega

/-- What the library makes of the payload with the lengths of the call. -/
def DecompressSite.textAt (site : DecompressSite) (payload after : Bytes) : C (Option Bytes) :=
  site.decompress env (payload.drop 4 ++ after) (site.inputLen payload.length)
    (site.outputSize (storedSize payload))

/-- What a call does whose payload has a header. -/
theorem decompressAt_of_header (site : DecompressSite) {payload : Bytes} (h4 : 4 ≤ payload.length)
    (after : Bytes) :
    decompressAt env site ⟨payload, after⟩ =
      site.textAt env payload after >>= fun output =>
        .ok { inputLen := site.inputLen payload.length,
              outputSize := site.outputSize (storedSize payload),
              output := output, used := site.usesLength output } := by
  have hheader : prefixOf (payload ++ after) 4 = .ok (payload.take 4) := by
    rw [prefixOf_of_le (by omega) (by rw [List.length_append]; omega),
      List.take_append_of_le_length (show (4 : Int).toNat ≤ payload.length by omega)]
    rfl
  unfold decompressAt
  rw [Buffer.mem, hheader, C.bind_ok, List.drop_append_of_le_length h4]
  rfl

theorem DecompressSite.textAt_of_accepts {site : DecompressSite} {payload : Bytes}
    (h : site.Accepts payload) (after : Bytes) :
    site.textAt env payload after = site.text env payload after := by
  obtain ⟨-, hin, hout⟩ := (site.accepts_iff payload).mp h
  rw [DecompressSite.textAt, DecompressSite.text, hin, hout]

/-- What a call with the true lengths does. -/
theorem decompressAt_of_accepts {site : DecompressSite} {payload : Bytes}
    (h : site.Accepts payload) (after : Bytes) :
    decompressAt env site ⟨payload, after⟩ =
      site.text env payload after >>= fun output =>
        .ok { inputLen := (payload.length : Int) - 4, outputSize := storedSize payload,
              output := output, used := site.usesLength output } := by
  obtain ⟨h4, hin, hout⟩ := (site.accepts_iff payload).mp h
  rw [decompressAt_of_header env site h4, site.textAt_of_accepts env h, hin, hout]

/-- A site of the decoder asks whether the library succeeded. -/
def DecompressSite.inDecoder : DecompressSite → Bool
  | .decoderZlib | .decoderFastlz => true
  | .zlibDecompress | .fastlzDecompress => false

/-- **A call is safe** exactly when the site accepts the payload, the library reads no further than
it may, and it succeeds where its answer is not looked at. -/
theorem safeCall_iff (site : DecompressSite) (payload after : Bytes) :
    SafeCall env site ⟨payload, after⟩ ↔
      site.Accepts payload ∧ ∃ output, site.text env payload after = .ok output ∧
        (site.inDecoder = false → output.isSome = true) := by
  constructor
  · rintro ⟨d, hd, hin, h0, hout, hused⟩
    have hacc : site.Accepts payload := by
      have heq := hd
      unfold decompressAt at heq
      obtain ⟨header, hheader, heq⟩ := C.bind_eq_ok.mp heq
      obtain ⟨output, -, heq⟩ := C.bind_eq_ok.mp heq
      cases heq
      dsimp only at hin h0 hout
      have h4 : 4 ≤ payload.length := by omega
      obtain ⟨hpre, hlen⟩ := prefixOf_eq_ok hheader
      have hhead : header = payload.take 4 := by
        have hpre' : header <+: payload :=
          List.prefix_of_prefix_length_le hpre (List.prefix_append _ _) (by omega)
        rw [List.prefix_iff_eq_take.mp hpre', show header.length = 4 by omega]
      rw [hhead] at hout
      exact (site.accepts_iff payload).mpr ⟨h4, hin, hout⟩
    rw [decompressAt_of_accepts env hacc] at hd
    obtain ⟨output, houtput, hd⟩ := C.bind_eq_ok.mp hd
    cases hd
    refine ⟨hacc, output, houtput, ?_⟩
    intro hsite
    apply hused
    cases site
    · cases hsite
    · cases hsite
    · rfl
    · rfl
  · rintro ⟨hacc, output, houtput, hfun⟩
    have hnonneg : (0 : Int) ≤ (payload.length : Int) - 4 := by
      have := hacc.1
      omega
    have hcall := decompressAt_of_accepts env hacc after
    rw [houtput, C.bind_ok] at hcall
    refine ⟨_, hcall, rfl, hnonneg, rfl, ?_⟩
    intro hused
    cases site
    · exact hused
    · exact hused
    · exact hfun rfl
    · exact hfun rfl

/-! ## Reading -/

/-- A text that a reading can read: its length survives the narrowing, the number in it ends. -/
def Reading.Readable (r : Reading) (buf : Buffer) : Prop :=
  match r with
  | .text _ | .deserialize _ => buf.data.length % 2 ^ 32 < 2 ^ 31
  | .long => StopsInside buf.mem
  | .double => ∃ d, env.strtod buf.mem = .ok d
  | .bool | .unknown => True

/-- The text can be had exactly when its length is not negative as an `int`. -/
theorem prefixOf_mem_iff (buf : Buffer) :
    (∃ text, prefixOf buf.mem (narrowInt buf.data.length) = .ok text) ↔
      buf.data.length % 2 ^ 32 < 2 ^ 31 := by
  rw [Buffer.mem, prefixOf_append_narrowInt, ← narrowInt_nonneg_iff]
  by_cases h : 0 ≤ narrowInt buf.data.length
  · rw [if_pos h]
    exact ⟨fun _ => h, fun _ => ⟨_, rfl⟩⟩
  · rw [if_neg h]
    constructor
    · rintro ⟨text, htext⟩
      cases htext
    · exact fun habs => absurd habs h

/-- A computation that only maps the answer of another one. -/
theorem exists_ok_bind_iff {α β : Type} (x : C α) (f : α → β) :
    (∃ b, (x >>= fun a => .ok (f a)) = .ok b) ↔ ∃ a, x = .ok a := by
  cases x with
  | error e => simp
  | ok a => simp

theorem Reading.readable_iff (r : Reading) (buf : Buffer) :
    (∃ v, r.run env buf (narrowInt buf.data.length) = .ok v) ↔ r.Readable env buf := by
  cases r with
  | text read => exact (exists_ok_bind_iff _ _).trans (prefixOf_mem_iff buf)
  | deserialize read => exact (exists_ok_bind_iff _ _).trans (prefixOf_mem_iff buf)
  | long => exact (exists_ok_bind_iff _ _).trans (strtol_ok_iff buf.mem)
  | double => exact exists_ok_bind_iff _ _
  | bool => simp [Reading.run, Reading.Readable]
  | unknown => simp [Reading.run, Reading.Readable]

/-- **What the decoder relies on**: a deserializer that succeeds gives a value. -/
structure Env.Defined : Prop where
  json : ∀ jsonassoc text, env.jsonDecode jsonassoc text ≠ some .undef
  php : ∀ text, env.unserialize text ≠ some .undef
  igbinary : ∀ text, (env.igbinaryUnserialize text ≠ some .undef)

/-- The readings whose values are defined. -/
def Reading.Defined (r : Reading) : Prop :=
  match r with
  | .text read => ∀ text, read text ≠ .undef
  | .deserialize read => ∀ text, read text ≠ some .undef
  | _ => True

theorem getD_ne_undef {o : Option Zval} {d : Zval} (ho : o ≠ some .undef) (hd : d ≠ .undef) :
    o.getD d ≠ .undef := by
  cases o with
  | none => exact hd
  | some v =>
    intro h
    exact ho (congrArg some h)

theorem Reading.Defined.ite {p : Prop} [Decidable p] {r r' : Reading} (h : r.Defined)
    (h' : r'.Defined) : (if p then r else r').Defined := by
  split
  · exact h
  · exact h'

theorem privateReading_defined (hdef : env.Defined) (jsonassoc : Bool) (flags : UInt64)
    (sertype : UInt32) : (privateReading env jsonassoc flags sertype).Defined := by
  have hstring : (Reading.text Zval.string).Defined := fun text h => by cases h
  have hjson : (Reading.deserialize (env.jsonDecode jsonassoc)).Defined := hdef.json jsonassoc
  have hboth : (Reading.text fun text =>
      (env.jsonDecode jsonassoc text).getD (.string text)).Defined := by
    intro text
    exact getD_ne_undef (hdef.json jsonassoc text) (fun h => by cases h)
  have hphp : (Reading.deserialize env.unserialize).Defined := hdef.php
  have hig : (Reading.deserialize env.igbinaryUnserialize).Defined := hdef.igbinary
  -- one branch for each type, in the order of the nibbles
  exact .ite (.ite hboth hstring) (.ite trivial (.ite trivial (.ite trivial
    (.ite hjson (.ite hphp (.ite (.ite hig trivial) trivial))))))

theorem reading_defined (hdef : env.Defined) (jsonassoc : Bool) (flags : UInt64) :
    (reading env jsonassoc flags).Defined := by
  have hstring : (Reading.text Zval.string).Defined := fun text h => by cases h
  have hjson : (Reading.deserialize (env.jsonDecode jsonassoc)).Defined := hdef.json jsonassoc
  exact .ite (privateReading_defined env hdef jsonassoc flags _) (.ite hjson (.ite hstring trivial))

theorem Reading.run_defined {r : Reading} (hr : r.Defined) {buf : Buffer} {len : Int} {v : Zval}
    (h : r.run env buf len = .ok v) : v ≠ .undef := by
  cases r with
  | text read =>
    obtain ⟨text, -, htext⟩ := C.bind_eq_ok.mp h
    cases htext
    exact hr text
  | deserialize read =>
    obtain ⟨text, -, htext⟩ := C.bind_eq_ok.mp h
    cases htext
    exact getD_ne_undef (hr text) (fun h => by cases h)
  | long =>
    obtain ⟨n, -, hn⟩ := C.bind_eq_ok.mp h
    cases hn
    intro hundef
    cases hundef
  | double =>
    obtain ⟨d, -, hd⟩ := C.bind_eq_ok.mp h
    cases hd
    intro hundef
    cases hundef
  | bool =>
    cases h
    split <;> intro hundef <;> cases hundef
  | unknown =>
    cases h
    intro hundef
    cases hundef

/-! ## Decoding -/

/-- Decompression fails, or the serializer refuses the text. -/
def Refused (slack : Bytes) (flags : UInt64) (jsonassoc : Bool) (buf : Buffer) : Prop :=
  unpacked env slack flags buf (narrowInt buf.data.length) = .ok .broken ∨
    ∃ text len read input,
      unpacked env slack flags buf (narrowInt buf.data.length) = .ok (.payload text len) ∧
        reading env jsonassoc flags = .deserialize read ∧
          prefixOf text.mem len = .ok input ∧ read input = none

/-- The decoder leaves a value, and null for what is refused. -/
def LeavesValue (slack : Bytes) (buf : Buffer) (flags datatype : UInt64) (jsonassoc : Bool) :
    Prop :=
  ∃ v, basicDecoderV1 env slack buf (narrowInt buf.data.length) flags datatype jsonassoc = .ok v ∧
    v ≠ .undef ∧ (Refused env slack flags jsonassoc buf → v = .null)

/-- **Decoding is safe**: every call of a decompressor is, no memory is read but the payload with
`after` behind it and the decompressed text with `slack` behind it, and the result is a value, null
when decompression or deserialization fails. -/
structure SafeDecode (after slack payload : Bytes) (flags datatype : UInt64) (jsonassoc : Bool) :
    Prop where
  calls : ∀ cmprtype site, compressionOf flags = some cmprtype →
    decoderSite env cmprtype = some site → SafeCall env site ⟨payload, after⟩
  defined : LeavesValue env slack ⟨payload, after⟩ flags datatype jsonassoc

/-- `zlibDecompress` is safe: it calls the library safely, whatever a failure leaves behind. -/
structure SafeZlibDecompress (after payload : Bytes) : Prop where
  call : env.haveZlib = true → SafeCall env .zlibDecompress ⟨payload, after⟩
  returns : ∀ leftover, ∃ r, zlibDecompress env after leftover (.string payload) = .ok r

/-- `fastlzDecompress` is safe. -/
structure SafeFastlzDecompress (after payload : Bytes) : Prop where
  call : SafeCall env .fastlzDecompress ⟨payload, after⟩
  returns : ∃ r, fastlzDecompress env after (.string payload) = .ok r

/-- **The documents that are decoded safely.**  An uncompressed one has to be readable.  A
compressed one needs a header, lengths that fit, a library that is there and succeeds without
reading too far, and a readable text; a compression that the decoder does not know gives null. -/
def DecodesSafely (after slack payload : Bytes) (flags : UInt64) (jsonassoc : Bool) : Prop :=
  match compressionOf flags with
  | none => (reading env jsonassoc flags).Readable env ⟨payload, after⟩
  | some cmprtype =>
    match decoderSite env cmprtype with
    | some site => site.Accepts payload ∧ ∃ text, site.text env payload after = .ok (some text) ∧
        (reading env jsonassoc flags).Readable env ⟨text, slack⟩
    | none => cmprtype ≠ Flags.compressionZlib ∧
        (cmprtype = 0 → (reading env jsonassoc flags).Readable env ⟨payload, after⟩)

/-! ## One lemma for each end of the decompression block -/

section

variable {env : Env} {slack : Bytes} {buf : Buffer} {flags : UInt64} {jsonassoc : Bool}

theorem not_leavesValue_of_broken (datatype : UInt64)
    (h : unpacked env slack flags buf (narrowInt buf.data.length) = .ok .broken) :
    ¬ LeavesValue env slack buf flags datatype jsonassoc := by
  rintro ⟨v, hv, hdefined, -⟩
  rw [basicDecoderV1_eq, h] at hv
  cases hv
  exact hdefined rfl

theorem leavesValue_of_unsupported (datatype : UInt64)
    (h : unpacked env slack flags buf (narrowInt buf.data.length) = .ok .unsupported) :
    LeavesValue env slack buf flags datatype jsonassoc := by
  have hrun : basicDecoderV1 env slack buf (narrowInt buf.data.length) flags datatype jsonassoc =
      .ok .null := by
    rw [basicDecoderV1_eq, h]
    rfl
  refine ⟨.null, hrun, ?_, fun _ => rfl⟩
  intro hundef
  cases hundef

theorem leavesValue_of_payload (hdef : env.Defined) (datatype : UInt64) (text : Buffer)
    (h : unpacked env slack flags buf (narrowInt buf.data.length) =
      .ok (.payload text (narrowInt text.data.length))) :
    LeavesValue env slack buf flags datatype jsonassoc ↔
      (reading env jsonassoc flags).Readable env text := by
  have hrun : basicDecoderV1 env slack buf (narrowInt buf.data.length) flags datatype jsonassoc =
      (reading env jsonassoc flags).run env text (narrowInt text.data.length) := by
    rw [basicDecoderV1_eq, h]
    rfl
  unfold LeavesValue
  rw [← Reading.readable_iff, hrun]
  constructor
  · rintro ⟨v, hv, -⟩
    exact ⟨v, hv⟩
  · rintro ⟨v, hv⟩
    refine ⟨v, hv, Reading.run_defined env (reading_defined env hdef jsonassoc flags) hv, ?_⟩
    rintro (hbroken | ⟨text', len, read, input, hpayload, hread, hinput, hnone⟩)
    · rw [h] at hbroken
      cases hbroken
    · -- the refused text is the one that was read
      rw [h] at hpayload
      cases hpayload
      rw [hread, Reading.run, hinput, C.bind_ok, hnone] at hv
      cases hv
      rfl

end

section

variable {flags : UInt64} {cmprtype : UInt32} (slack after payload : Bytes)

theorem unpacked_plain (hcomp : compressionOf flags = none) :
    unpacked env slack flags ⟨payload, after⟩ (narrowInt payload.length) =
      .ok (.payload ⟨payload, after⟩ (narrowInt payload.length)) := by
  rw [unpacked, hcomp]

theorem unpacked_without (hcomp : compressionOf flags = some cmprtype)
    (hsite : decoderSite env cmprtype = none) :
    unpacked env slack flags ⟨payload, after⟩ (narrowInt payload.length) =
      .ok (unpackedWithout cmprtype ⟨payload, after⟩ (narrowInt payload.length)) := by
  have hunpack := unpack_eq env slack cmprtype ⟨payload, after⟩
  rw [hsite] at hunpack
  rw [unpacked, hcomp]
  exact hunpack

theorem unpacked_site {site : DecompressSite} (hcomp : compressionOf flags = some cmprtype)
    (hsite : decoderSite env cmprtype = some site) (hacc : site.Accepts payload) :
    unpacked env slack flags ⟨payload, after⟩ (narrowInt payload.length) =
      site.text env payload after >>= fun output =>
        .ok (match output with
          | none => .broken
          | some text => .payload ⟨text, slack⟩ (narrowInt text.length)) := by
  have hunpack := unpack_eq env slack cmprtype ⟨payload, after⟩
  rw [hsite] at hunpack
  dsimp only at hunpack
  rw [decompressAt_of_accepts env hacc] at hunpack
  rw [unpacked, hcomp]
  dsimp only
  rw [hunpack]
  cases site.text env payload after with
  | error f => rfl
  | ok output => rfl

/-- Without a decompressor only the value matters. -/
theorem safeDecode_iff_leavesValue (datatype : UInt64) (jsonassoc : Bool)
    (hnone : ∀ c, compressionOf flags = some c → decoderSite env c = none) :
    SafeDecode env after slack payload flags datatype jsonassoc ↔
      LeavesValue env slack ⟨payload, after⟩ flags datatype jsonassoc := by
  refine ⟨fun h => h.defined, fun h => ⟨?_, h⟩⟩
  intro c site hc hsite
  rw [hnone c hc] at hsite
  cases hsite

theorem inDecoder_of_decoderSite {site : DecompressSite}
    (hsite : decoderSite env cmprtype = some site) : site.inDecoder = true := by
  unfold decoderSite at hsite
  by_cases hzlib : cmprtype = Flags.compressionZlib
  · cases hhave : env.haveZlib with
    | true =>
      rw [if_pos hzlib, hhave] at hsite
      cases hsite
      rfl
    | false =>
      rw [if_pos hzlib, hhave] at hsite
      cases hsite
  · by_cases hfast : cmprtype = Flags.compressionFastlz
    · rw [if_neg hzlib, if_pos hfast] at hsite
      cases hsite
      rfl
    · rw [if_neg hzlib, if_neg hfast] at hsite
      cases hsite

/-- With one it has to be called safely and to succeed. -/
theorem safeDecode_iff_of_site (hdef : env.Defined) (datatype : UInt64) (jsonassoc : Bool)
    {site : DecompressSite} (hcomp : compressionOf flags = some cmprtype)
    (hsite : decoderSite env cmprtype = some site) :
    SafeDecode env after slack payload flags datatype jsonassoc ↔
      site.Accepts payload ∧ ∃ text, site.text env payload after = .ok (some text) ∧
        (reading env jsonassoc flags).Readable env ⟨text, slack⟩ := by
  have hcall : SafeCall env site ⟨payload, after⟩ ↔
      site.Accepts payload ∧ ∃ output, site.text env payload after = .ok output := by
    rw [safeCall_iff, inDecoder_of_decoderSite env hsite]
    simp
  constructor
  · intro h
    obtain ⟨hacc, output, houtput⟩ := hcall.mp (h.calls cmprtype site hcomp hsite)
    have hun := unpacked_site env slack after payload hcomp hsite hacc
    rw [houtput, C.bind_ok] at hun
    refine ⟨hacc, ?_⟩
    cases output with
    | none => exact absurd h.defined (not_leavesValue_of_broken datatype hun)
    | some text =>
      exact ⟨text, houtput, (leavesValue_of_payload hdef datatype ⟨text, slack⟩ hun).mp h.defined⟩
  · rintro ⟨hacc, text, htext, hread⟩
    have hun := unpacked_site env slack after payload hcomp hsite hacc
    rw [htext, C.bind_ok] at hun
    refine ⟨?_, (leavesValue_of_payload hdef datatype ⟨text, slack⟩ hun).mpr hread⟩
    intro c site' hc hsite'
    rw [hcomp] at hc
    cases hc
    rw [hsite] at hsite'
    cases hsite'
    exact hcall.mpr ⟨hacc, some text, htext⟩

end

/-- Decoding is safe exactly for these documents. -/
theorem safeDecode_iff (hdef : env.Defined) (after slack payload : Bytes)
    (flags datatype : UInt64) (jsonassoc : Bool) :
    SafeDecode env after slack payload flags datatype jsonassoc ↔
      DecodesSafely env after slack payload flags jsonassoc := by
  unfold DecodesSafely
  cases hcomp : compressionOf flags with
  | none =>
    have hnone : ∀ c, compressionOf flags = some c → decoderSite env c = none := by
      intro c hc
      rw [hcomp] at hc
      cases hc
    rw [safeDecode_iff_leavesValue env slack after payload datatype jsonassoc hnone]
    exact leavesValue_of_payload hdef datatype ⟨payload, after⟩
      (unpacked_plain env slack after payload hcomp)
  | some cmprtype =>
    dsimp only
    cases hsite : decoderSite env cmprtype with
    | some site =>
      exact safeDecode_iff_of_site env slack after payload hdef datatype jsonassoc hcomp hsite
    | none =>
      have hnone : ∀ c, compressionOf flags = some c → decoderSite env c = none := by
        intro c hc
        rw [hcomp] at hc
        cases hc
        exact hsite
      have hun := unpacked_without env slack after payload hcomp hsite
      rw [safeDecode_iff_leavesValue env slack after payload datatype jsonassoc hnone]
      unfold unpackedWithout at hun
      by_cases hzlib : cmprtype = Flags.compressionZlib
      · rw [if_pos hzlib] at hun
        exact ⟨fun h => absurd h (not_leavesValue_of_broken datatype hun),
          fun h => absurd hzlib h.1⟩
      · rw [if_neg hzlib] at hun
        by_cases hzero : cmprtype = 0
        · rw [if_neg (not_not.mpr hzero)] at hun
          rw [leavesValue_of_payload hdef datatype ⟨payload, after⟩ hun]
          exact ⟨fun h => ⟨hzlib, fun _ => h⟩, fun h => h.2 hzero⟩
        · rw [if_pos hzero] at hun
          exact ⟨fun _ => ⟨hzlib, fun habs => absurd habs hzero⟩,
            fun _ => leavesValue_of_unsupported datatype hun⟩

/-- **The three functions are safe on stored data** exactly when: the decoder has a document that it
decodes safely; the functions for PHP code have a header, lengths that fit and a library that
succeeds without reading behind `after`. -/
theorem decoder_safe_iff (hdef : env.Defined) (after slack payload : Bytes)
    (flags datatype : UInt64) (jsonassoc : Bool) :
    (SafeDecode env after slack payload flags datatype jsonassoc ↔
      DecodesSafely env after slack payload flags jsonassoc) ∧
    (SafeZlibDecompress env after payload ↔
      (env.haveZlib = true → DecompressSite.zlibDecompress.Accepts payload ∧
        ∃ text, DecompressSite.zlibDecompress.text env payload after = .ok (some text))) ∧
    (SafeFastlzDecompress env after payload ↔
      DecompressSite.fastlzDecompress.Accepts payload ∧
        ∃ text, DecompressSite.fastlzDecompress.text env payload after = .ok (some text)) := by
  have hsome : ∀ x : C (Option Bytes), (∃ output, x = .ok output ∧ output.isSome = true) ↔
      ∃ text, x = .ok (some text) := by
    intro x
    constructor
    · rintro ⟨output, rfl, houtput⟩
      obtain ⟨text, rfl⟩ := Option.isSome_iff_exists.mp houtput
      exact ⟨text, rfl⟩
    · rintro ⟨text, rfl⟩
      exact ⟨some text, rfl, rfl⟩
  have hzlib := safeCall_iff env .zlibDecompress payload after
  have hfast := safeCall_iff env .fastlzDecompress payload after
  simp only [DecompressSite.inDecoder, true_implies, hsome] at hzlib hfast
  refine ⟨safeDecode_iff env hdef after slack payload flags datatype jsonassoc, ?_, ?_⟩
  · rw [← hzlib]
    refine ⟨fun h => h.call, fun h => ⟨h, ?_⟩⟩
    intro leftover
    by_cases hhave : env.haveZlib = true
    · obtain ⟨d, hd, -⟩ := h hhave
      rw [zlibDecompress_eq env hhave, hd]
      exact ⟨_, rfl⟩
    · rw [zlibDecompress, if_neg hhave]
      exact ⟨_, rfl⟩
  · rw [← hfast]
    refine ⟨fun h => h.call, fun h => ⟨h, ?_⟩⟩
    obtain ⟨d, hd, -⟩ := h
    rw [fastlzDecompress_eq, hd]
    exact ⟨_, rfl⟩

theorem literalEnv_defined : literalEnv.Defined where
  json _ text := by
    show scalarJson text ≠ some .undef
    unfold scalarJson
    intro h
    split at h
    · cases h
    · split at h
      · cases h
      · split at h
        · cases h
        · split at h <;> cases h
  php text := by
    show (if text = ascii "N;" then some Zval.null else none) ≠ some .undef
    intro h
    split at h <;> cases h
  igbinary _ := by
    show (none : Option Zval) ≠ some .undef
    intro h
    cases h

/-- The string "ab", compressed with fastlz, is decoded safely. -/
theorem compressed_string_safe :
    SafeDecode literalEnv [] [] [2, 0, 0, 0, 1, 97, 98] 0x01000050 0 true :=
  (decoder_safe_iff literalEnv literalEnv_defined [] [] [2, 0, 0, 0, 1, 97, 98]
    0x01000050 0 true).1.mpr
    (show DecompressSite.decoderFastlz.Accepts [2, 0, 0, 0, 1, 97, 98] ∧
        ∃ text, DecompressSite.decoderFastlz.text literalEnv [2, 0, 0, 0, 1, 97, 98] [] =
          .ok (some text) ∧ text.length % 2 ^ 32 < 2 ^ 31 from
      ⟨⟨by decide, by decide, by decide⟩, ascii "ab", by rfl, by decide⟩)

/-- **What is not decoded safely**: a compressed text that fastlz refuses leaves the result
undefined, and a payload of two bytes sends a negative length to fastlz, even when the bytes behind
the buffers may be read. -/
theorem corrupted_document_undefined :
    literalEnv.Defined ∧
    basicDecoderV1 literalEnv [0] ⟨[5, 0, 0, 0, 4, 102], [0]⟩ 6 0x01000056 0 true = .ok .undef ∧
    ¬ SafeDecode literalEnv [0] [0] [5, 0, 0, 0, 4, 102] 0x01000056 0 true ∧
    basicDecoderV1 literalEnv [0] ⟨[97, 98], [0, 0, 0]⟩ 2 0x01000056 0 true = .error .badLength := by
  have hundef : basicDecoderV1 literalEnv [0] ⟨[5, 0, 0, 0, 4, 102], [0]⟩ 6 0x01000056 0 true =
      .ok .undef := by rfl
  refine ⟨literalEnv_defined, hundef, ?_, by rfl⟩
  rintro ⟨-, v, hv, hdefined, -⟩
  have hval : (.ok .undef : C Zval) = .ok v := hundef.symm.trans hv
  cases hval
  exact hdefined rfl

end PhpCouchbase
