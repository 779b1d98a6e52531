import PhpCouchbase.DecoderSafety

/-!
# When decoding depends on the document only

Two runs of `basic_decoder_v1` (`couchbase.c`) on one document differ in what lies behind the
payload and behind the decompressed text.  A PHP string ends in a NUL, a decompressed text does not:
`strtol` and `zend_strtod` read on into the heap.  A library may read behind its input, as
`fastlz.c` does for the length and the distance of a match.

* `DecodesAlike` — any two runs give the same value, and a compressed number the value of its text.
* `decodesAlike_iff` — exactly which documents these are.
-/

set_option autoImplicit false

namespace PhpCouchbase

variable (env : Env)

/-! ## Two runs -/

/-- The decoder on a PHP string: `rest` lies behind its terminator, `slack` behind the
decompressed text. -/
def runDecoder (slack rest payload : Bytes) (flags datatype : UInt64) (jsonassoc : Bool) :
    C Zval :=
  basicDecoderV1 env slack ⟨payload, 0 :: rest⟩ (narrowInt payload.length) flags datatype jsonassoc

/-- The text that the decoder gets out of a compressed document with `rest` behind its terminator.
-/
def storedText (flags : UInt64) (payload rest : Bytes) : Option Bytes :=
  (compressionOf flags).bind fun cmprtype =>
    (decoderSite env cmprtype).bind fun site =>
      match site.textAt env payload (0 :: rest) with
      | .ok output => output
      | .error _ => none

/-- The flags of the same value without compression. -/
def plainFlags (flags : UInt64) : UInt64 :=
  (flags.toUInt32 &&& ~~~Flags.compressionMcIsCompressed).toUInt64

/-- The readings that scan for a byte that ends a number. -/
def Reading.isNumber : Reading → Bool
  | .long | .double => true
  | _ => false

/-- **Decoding depends on the document only**: two runs give the same value, whatever lies behind
the buffers (a heap in which a scan ends), and a compressed long or double gives the value of its
text. -/
structure DecodesAlike (payload : Bytes) (flags datatype : UInt64) (jsonassoc : Bool) : Prop where
  runs : ∀ rest rest' slack slack' : Bytes, 0 ∈ slack → 0 ∈ slack' →
    ∃ v, runDecoder env slack rest payload flags datatype jsonassoc = .ok v ∧
      runDecoder env slack' rest' payload flags datatype jsonassoc = .ok v
  number : ∀ behind text, storedText env flags payload behind = some text →
    (reading env jsonassoc flags).isNumber = true →
    ∀ rest rest' slack slack' : Bytes, 0 ∈ slack → 0 ∈ slack' →
      ∃ v, runDecoder env slack rest payload flags datatype jsonassoc = .ok v ∧
        runDecoder env slack' rest' text (plainFlags flags) datatype jsonassoc = .ok v

/-- `zend_strtod` stops at a NUL. -/
def Env.StrtodStops : Prop := ∀ text, ∃ d, ∀ rest, env.strtod (text ++ 0 :: rest) = .ok d

/-! ## Which documents -/

/-- A text with a terminator: its length has to survive the narrowing, where it is asked for. -/
def Reading.ReadsPlain (r : Reading) (text : Bytes) : Prop :=
  match r with
  | .text _ | .deserialize _ => text.length % 2 ^ 32 < 2 ^ 31
  | .long | .double | .bool | .unknown => True

/-- A text without one: a number has to end in the text, or not to change with more digits. -/
def Reading.ReadsUnpacked (r : Reading) (text : Bytes) : Prop :=
  match r with
  | .text _ | .deserialize _ => text.length % 2 ^ 32 < 2 ^ 31
  | .long => StopsInside text ∨ Saturated text
  | .double => ∃ d, ∀ rest, 0 ∈ rest → env.strtod (text ++ rest) = .ok d
  | .bool | .unknown => True

/-- The value of a library's answer, whose text is read with a terminator. -/
def Reading.ofAnswer (r : Reading) (output : Option Bytes) : C Zval :=
  match output with
  | none => .ok .undef
  | some s => r.run env ⟨s, [0]⟩ (narrowInt s.length)

/-- **The library does not depend on what lies behind the payload**: it returns, with a text that
can be read if it succeeds, and any two answers are read alike. -/
structure AnswersAlike (site : DecompressSite) (r : Reading) (payload : Bytes) : Prop where
  returns : ∀ rest, ∃ output, site.textAt env payload (0 :: rest) = .ok output ∧
    ∀ text, output = some text → r.ReadsUnpacked env text
  alike : ∀ rest rest' output output', site.textAt env payload (0 :: rest) = .ok output →
    site.textAt env payload (0 :: rest') = .ok output' → r.ofAnswer env output = r.ofAnswer env output'

/-- **The documents whose value is determined.** -/
def Determined (payload : Bytes) (flags : UInt64) (jsonassoc : Bool) : Prop :=
  match compressionOf flags with
  | none => (reading env jsonassoc flags).ReadsPlain payload
  | some cmprtype =>
    match decoderSite env cmprtype with
    | some site => 4 ≤ narrowInt payload.length ∧
        AnswersAlike env site (reading env jsonassoc flags) payload
    | none => cmprtype = 0 → (reading env jsonassoc flags).ReadsPlain payload

/-! ## Reading -/

/-- A computation that only maps the answers of others is determined when they are. -/
theorem determined_bind_iff {ι α β : Type} (p : ι → Prop) (hp : ∃ i, p i) (x : ι → C α)
    {f : α → β} (hf : Function.Injective f) :
    (∃ b, ∀ i, p i → (x i >>= fun a => .ok (f a)) = .ok b) ↔ ∃ a, ∀ i, p i → x i = .ok a := by
  constructor
  · rintro ⟨b, hb⟩
    obtain ⟨i₀, hi₀⟩ := hp
    obtain ⟨a, ha, hfa⟩ := C.bind_eq_ok.mp (hb i₀ hi₀)
    cases hfa
    refine ⟨a, ?_⟩
    intro i hi
    obtain ⟨a', ha', hfa'⟩ := C.bind_eq_ok.mp (hb i hi)
    rw [ha', hf (Except.ok.inj hfa')]
  · rintro ⟨a, ha⟩
    refine ⟨f a, ?_⟩
    intro i hi
    rw [ha i hi, C.bind_ok]

/-- The part of a text that is read does not depend on what is behind. -/
theorem determined_prefix_iff {β : Type} (p : Bytes → Prop) (hp : ∃ rest, p rest) (text : Bytes)
    (f : Bytes → β) :
    (∃ b, ∀ rest, p rest →
      (prefixOf (text ++ rest) (narrowInt text.length) >>= fun s => .ok (f s)) = .ok b) ↔
      text.length % 2 ^ 32 < 2 ^ 31 := by
  rw [← narrowInt_nonneg_iff]
  constructor
  · rintro ⟨b, hb⟩
    obtain ⟨rest, hrest⟩ := hp
    have hrun := hb rest hrest
    rw [prefixOf_append_narrowInt] at hrun
    by_contra hneg
    rw [if_neg hneg] at hrun
    cases hrun
  · intro h
    refine ⟨f (text.take (narrowInt text.length).toNat), ?_⟩
    intro rest _
    rw [prefixOf_append_narrowInt, if_pos h, C.bind_ok]

theorem readsPlain_iff (hstrtod : env.StrtodStops) (r : Reading) (text : Bytes) :
    (∃ v, ∀ rest, r.run env ⟨text, 0 :: rest⟩ (narrowInt text.length) = .ok v) ↔
      r.ReadsPlain text := by
  have hshape : ∀ f : Bytes → Zval, (∃ v, ∀ rest,
      (prefixOf (text ++ 0 :: rest) (narrowInt text.length) >>= fun s => .ok (f s)) = .ok v) ↔
        text.length % 2 ^ 32 < 2 ^ 31 := by
    intro f
    have hnul := determined_prefix_iff (fun m => ∃ rest, m = 0 :: rest) ⟨[0], [], rfl⟩ text f
    simpa using hnul
  cases r with
  | text read => exact hshape read
  | deserialize read => exact hshape fun s => (read s).getD .null
  | long =>
    obtain ⟨n, hn⟩ := strtol_append_nul text
    refine ⟨fun _ => trivial, fun _ => ⟨.long n, ?_⟩⟩
    intro rest
    rw [Reading.run, Buffer.mem, hn, C.bind_ok]
    rfl
  | double =>
    obtain ⟨d, hd⟩ := hstrtod text
    refine ⟨fun _ => trivial, fun _ => ⟨.double d, ?_⟩⟩
    intro rest
    rw [Reading.run, Buffer.mem, hd, C.bind_ok]
    rfl
  | bool => exact ⟨fun _ => trivial, fun _ => ⟨_, fun _ => rfl⟩⟩
  | unknown => exact ⟨fun _ => trivial, fun _ => ⟨_, fun _ => rfl⟩⟩

theorem readsUnpacked_iff (r : Reading) (text : Bytes) :
    (∃ v, ∀ slack, 0 ∈ slack → r.run env ⟨text, slack⟩ (narrowInt text.length) = .ok v) ↔
      r.ReadsUnpacked env text := by
  have hheap : ∃ slack : Bytes, 0 ∈ slack := ⟨[0], List.mem_singleton_self 0⟩
  cases r with
  | text read => exact determined_prefix_iff (0 ∈ ·) hheap text read
  | deserialize read => exact determined_prefix_iff (0 ∈ ·) hheap text fun s => (read s).getD .null
  | long =>
    have hlong : Function.Injective Zval.long := fun m n h => Zval.long.inj h
    exact (determined_bind_iff (0 ∈ ·) hheap (fun slack => strtol (text ++ slack)) hlong).trans
      (strtol_determined_iff text)
  | double =>
    have hdouble : Function.Injective Zval.double := fun m n h => Zval.double.inj h
    exact determined_bind_iff (0 ∈ ·) hheap (fun slack => env.strtod (text ++ slack)) hdouble
  | bool => exact ⟨fun _ => trivial, fun _ => ⟨_, fun _ _ => rfl⟩⟩
  | unknown => exact ⟨fun _ => trivial, fun _ => ⟨_, fun _ _ => rfl⟩⟩

/-! ## The flags of the plain text -/

theorem plainFlags_word (flags : UInt64) :
    (plainFlags flags).toUInt32 = flags.toUInt32 &&& ~~~Flags.compressionMcIsCompressed :=
  UInt32.toUInt32_toUInt64 _

theorem plainFlags_cffmt (flags : UInt64) :
    (plainFlags flags).toUInt32 &&& Flags.cffmtMask = flags.toUInt32 &&& Flags.cffmtMask := by
  rw [plainFlags_word, UInt32.and_assoc]
  rfl

theorem plainFlags_sertype (flags : UInt64) :
    (plainFlags flags).toUInt32 &&& Flags.valMask =
      flags.toUInt32 &&& Flags.valMask &&& ~~~Flags.compressionMcIsCompressed := by
  rw [plainFlags_word, UInt32.and_assoc, UInt32.and_assoc]
  rfl

theorem isPrivate_plainFlags (flags : UInt64) : isPrivate (plainFlags flags) = isPrivate flags := by
  unfold isPrivate
  rw [plainFlags_cffmt]

theorem compressionOf_plainFlags (flags : UInt64) : compressionOf (plainFlags flags) = none := by
  unfold compressionOf
  have hclear : flags.toUInt32 &&& Flags.valMask &&& ~~~Flags.compressionMcIsCompressed &&&
      Flags.compressionMcIsCompressed = 0 := by
    rw [UInt32.and_assoc]
    simp
  rw [plainFlags_sertype, hclear]
  simp

/-- Without the compression bit a number is still a number. -/
theorem reading_plainFlags {jsonassoc : Bool} {flags : UInt64}
    (h : (reading env jsonassoc flags).isNumber = true) :
    reading env jsonassoc (plainFlags flags) = reading env jsonassoc flags := by
  have hsertype : (plainFlags flags).toUInt32 &&& Flags.valMask &&&
      ~~~Flags.compressionMcIsCompressed =
        flags.toUInt32 &&& Flags.valMask &&& ~~~Flags.compressionMcIsCompressed := by
    rw [plainFlags_sertype, UInt32.and_assoc]
    simp
  unfold reading at h ⊢
  dsimp only at h ⊢
  rw [isPrivate_plainFlags, plainFlags_cffmt, hsertype]
  by_cases hprivate : isPrivate flags = true
  · simp only [if_pos hprivate] at h ⊢
    unfold privateReading at h ⊢
    by_cases hstring : flags.toUInt32 &&& Flags.valMask &&& ~~~Flags.compressionMcIsCompressed =
        Flags.valIsString
    · rw [if_pos hstring] at h
      split at h <;> cases h
    · rw [if_neg hstring, if_neg hstring]
  · simp only [if_neg hprivate]

/-! ## Runs of the decoder -/

section

variable {env} {payload : Bytes} {flags : UInt64} (datatype : UInt64) (jsonassoc : Bool)

/-- A payload that is not decompressed is read with its terminator. -/
theorem runDecoder_plain {rest : Bytes} (slack : Bytes)
    (h : unpacked env slack flags ⟨payload, 0 :: rest⟩ (narrowInt payload.length) =
      .ok (.payload ⟨payload, 0 :: rest⟩ (narrowInt payload.length))) :
    runDecoder env slack rest payload flags datatype jsonassoc =
      (reading env jsonassoc flags).run env ⟨payload, 0 :: rest⟩ (narrowInt payload.length) := by
  rw [runDecoder, basicDecoderV1_eq, h]
  rfl

/-- A payload without a site of a decompressor that is not read either. -/
theorem runDecoder_without {cmprtype : UInt32} (hcomp : compressionOf flags = some cmprtype)
    (hsite : decoderSite env cmprtype = none) (hne : cmprtype ≠ 0) (slack rest : Bytes) :
    runDecoder env slack rest payload flags datatype jsonassoc =
      .ok (if cmprtype = Flags.compressionZlib then .undef else .null) := by
  rw [runDecoder, basicDecoderV1_eq, unpacked_without env slack (0 :: rest) payload hcomp hsite]
  unfold unpackedWithout
  by_cases hzlib : cmprtype = Flags.compressionZlib
  · rw [if_pos hzlib, if_pos hzlib]
    rfl
  · rw [if_neg hzlib, if_neg hzlib, if_pos hne]
    rfl

theorem inputLen_of_decoderSite {cmprtype : UInt32} {site : DecompressSite}
    (hsite : decoderSite env cmprtype = some site) (payload : Bytes) :
    site.inputLen payload.length = narrowInt payload.length - 4 := by
  have hin := inDecoder_of_decoderSite env hsite
  cases site
  · rfl
  · rfl
  · cases hin
  · cases hin

/-- The value of a decompressed document. -/
theorem runDecoder_site {cmprtype : UInt32} {site : DecompressSite}
    (hcomp : compressionOf flags = some cmprtype) (hsite : decoderSite env cmprtype = some site)
    (h4 : 4 ≤ narrowInt payload.length) (slack rest : Bytes) :
    runDecoder env slack rest payload flags datatype jsonassoc =
      site.textAt env payload (0 :: rest) >>= fun output =>
        match output with
        | none => .ok .undef
        | some text => (reading env jsonassoc flags).run env ⟨text, slack⟩ (narrowInt text.length) := by
  have hle := narrowInt_le payload.length
  have hunpack := unpack_eq env slack cmprtype ⟨payload, 0 :: rest⟩
  rw [hsite] at hunpack
  dsimp only at hunpack
  rw [decompressAt_of_header env site (by omega) (0 :: rest)] at hunpack
  rw [runDecoder, basicDecoderV1_eq, unpacked, hcomp]
  dsimp only
  rw [hunpack]
  cases site.textAt env payload (0 :: rest) with
  | error e => rfl
  | ok output => cases output <;> rfl

/-- A payload that is too short for its header. -/
theorem runDecoder_short {cmprtype : UInt32} {site : DecompressSite}
    (hcomp : compressionOf flags = some cmprtype) (hsite : decoderSite env cmprtype = some site)
    (h4 : ¬ 4 ≤ narrowInt payload.length) (slack rest : Bytes) :
    ∃ e, runDecoder env slack rest payload flags datatype jsonassoc = .error e := by
  have hlen := inputLen_of_decoderSite hsite payload
  have hcall : ∃ e, decompressAt env site ⟨payload, 0 :: rest⟩ = .error e := by
    unfold decompressAt
    cases hheader : prefixOf (Buffer.mem ⟨payload, 0 :: rest⟩) 4 with
    | error e => exact ⟨e, rfl⟩
    | ok header =>
      have hneg : ¬ 0 ≤ narrowInt payload.length - 4 := by omega
      refine ⟨.badLength, ?_⟩
      rw [C.bind_ok, hlen]
      cases site with
      | decoderZlib | zlibDecompress =>
        simp only [DecompressSite.decompress, prefixOf_of_neg hneg, C.bind_error]
      | decoderFastlz | fastlzDecompress =>
        simp only [DecompressSite.decompress, callFastlzDecompress, if_neg hneg, C.bind_error]
  obtain ⟨e, he⟩ := hcall
  have hunpack := unpack_eq env slack cmprtype ⟨payload, 0 :: rest⟩
  rw [hsite] at hunpack
  dsimp only at hunpack
  rw [he, C.bind_error] at hunpack
  refine ⟨e, ?_⟩
  rw [runDecoder, basicDecoderV1_eq, unpacked, hcomp]
  dsimp only
  rw [hunpack, C.bind_error]

end

/-! ## Documents -/

/-- Two runs agree exactly when all runs have one value. -/
theorem two_runs_iff (payload : Bytes) (flags datatype : UInt64) (jsonassoc : Bool) :
    (∀ rest rest' slack slack' : Bytes, 0 ∈ slack → 0 ∈ slack' →
      ∃ v, runDecoder env slack rest payload flags datatype jsonassoc = .ok v ∧
        runDecoder env slack' rest' payload flags datatype jsonassoc = .ok v) ↔
      ∃ v, ∀ rest slack : Bytes, 0 ∈ slack →
        runDecoder env slack rest payload flags datatype jsonassoc = .ok v := by
  have hheap : (0 : UInt8) ∈ [(0 : UInt8)] := List.mem_singleton_self 0
  constructor
  · intro h
    obtain ⟨v, hv, -⟩ := h [] [] [0] [0] hheap hheap
    refine ⟨v, ?_⟩
    intro rest slack hslack
    obtain ⟨v', hfirst, hsecond⟩ := h [] rest [0] slack hheap hslack
    rw [hv] at hfirst
    rw [hsecond, ← hfirst]
  · rintro ⟨v, hv⟩ rest rest' slack slack' hslack hslack'
    exact ⟨v, hv rest slack hslack, hv rest' slack' hslack'⟩

/-- The runs on a payload that is read as it is. -/
theorem runs_plain_iff (hstrtod : env.StrtodStops) {payload : Bytes} {flags : UInt64}
    (datatype : UInt64) (jsonassoc : Bool)
    (h : ∀ slack rest, unpacked env slack flags ⟨payload, 0 :: rest⟩ (narrowInt payload.length) =
      .ok (.payload ⟨payload, 0 :: rest⟩ (narrowInt payload.length))) :
    (∃ v, ∀ rest slack : Bytes, 0 ∈ slack →
      runDecoder env slack rest payload flags datatype jsonassoc = .ok v) ↔
      (reading env jsonassoc flags).ReadsPlain payload := by
  rw [← readsPlain_iff env hstrtod]
  constructor
  · rintro ⟨v, hv⟩
    refine ⟨v, ?_⟩
    intro rest
    rw [← runDecoder_plain datatype jsonassoc [0] (h [0] rest)]
    exact hv rest [0] (List.mem_singleton_self 0)
  · rintro ⟨v, hv⟩
    refine ⟨v, ?_⟩
    intro rest slack _
    rw [runDecoder_plain datatype jsonassoc slack (h slack rest)]
    exact hv rest

/-- The runs on a payload that a library decompresses. -/
theorem runs_site_iff {payload : Bytes} {flags : UInt64} (datatype : UInt64) (jsonassoc : Bool)
    {cmprtype : UInt32} {site : DecompressSite} (hcomp : compressionOf flags = some cmprtype)
    (hsite : decoderSite env cmprtype = some site) (h4 : 4 ≤ narrowInt payload.length) :
    (∃ v, ∀ rest slack : Bytes, 0 ∈ slack →
      runDecoder env slack rest payload flags datatype jsonassoc = .ok v) ↔
      AnswersAlike env site (reading env jsonassoc flags) payload := by
  have hheap : (0 : UInt8) ∈ [(0 : UInt8)] := List.mem_singleton_self 0
  have hrun := fun slack rest => runDecoder_site datatype jsonassoc hcomp hsite h4 slack rest
  generalize reading env jsonassoc flags = r at hrun ⊢
  constructor
  · rintro ⟨v, hv⟩
    have hanswer : ∀ rest output, site.textAt env payload (0 :: rest) = .ok output →
        r.ofAnswer env output = .ok v := by
      intro rest output houtput
      have hfirst := hv rest [0] hheap
      rw [hrun, houtput, C.bind_ok] at hfirst
      cases output with
      | none => exact hfirst
      | some text => exact hfirst
    constructor
    · intro rest
      have hfirst := hv rest [0] hheap
      rw [hrun] at hfirst
      obtain ⟨output, houtput, -⟩ := C.bind_eq_ok.mp hfirst
      refine ⟨output, houtput, ?_⟩
      rintro text rfl
      refine (readsUnpacked_iff env r text).mp ⟨v, ?_⟩
      intro slack hslack
      have hslackRun := hv rest slack hslack
      rw [hrun, houtput] at hslackRun
      exact hslackRun
    · intro rest rest' output output' houtput houtput'
      rw [hanswer rest output houtput, hanswer rest' output' houtput']
  · rintro ⟨hreturns, halike⟩
    -- an answer that can be read has one value, whatever lies behind its text
    have hvalue : ∀ output : Option Bytes, (∀ text, output = some text → r.ReadsUnpacked env text) →
        ∃ v, r.ofAnswer env output = .ok v ∧ ∀ rest slack : Bytes, 0 ∈ slack →
          site.textAt env payload (0 :: rest) = .ok output →
            runDecoder env slack rest payload flags datatype jsonassoc = .ok v := by
      intro output hread
      cases output with
      | none =>
        refine ⟨.undef, rfl, ?_⟩
        intro rest slack _ houtput
        rw [hrun, houtput]
        rfl
      | some text =>
        obtain ⟨v, hv⟩ := (readsUnpacked_iff env r text).mpr (hread text rfl)
        refine ⟨v, hv [0] hheap, ?_⟩
        intro rest slack hslack houtput
        rw [hrun, houtput]
        exact hv slack hslack
    obtain ⟨output₀, houtput₀, hread₀⟩ := hreturns []
    obtain ⟨v, hv, -⟩ := hvalue output₀ hread₀
    refine ⟨v, ?_⟩
    intro rest slack hslack
    obtain ⟨output, houtput, hread⟩ := hreturns rest
    obtain ⟨v', hv', hruns⟩ := hvalue output hread
    have hsame := halike [] rest output₀ output houtput₀ houtput
    rw [hv, hv', Except.ok.injEq] at hsame
    rw [hsame]
    exact hruns rest slack hslack houtput

theorem runs_iff (hstrtod : env.StrtodStops) (payload : Bytes) (flags datatype : UInt64)
    (jsonassoc : Bool) :
    (∃ v, ∀ rest slack : Bytes, 0 ∈ slack →
      runDecoder env slack rest payload flags datatype jsonassoc = .ok v) ↔
      Determined env payload flags jsonassoc := by
  unfold Determined
  cases hcomp : compressionOf flags with
  | none =>
    exact runs_plain_iff env hstrtod datatype jsonassoc
      fun slack rest => unpacked_plain env slack (0 :: rest) payload hcomp
  | some cmprtype =>
    dsimp only
    cases hsite : decoderSite env cmprtype with
    | none =>
      dsimp only
      by_cases hzero : cmprtype = 0
      · simp only [hzero, true_implies]
        refine runs_plain_iff env hstrtod datatype jsonassoc ?_
        intro slack rest
        rw [unpacked_without env slack (0 :: rest) payload hcomp hsite, hzero]
        rfl
      · have hrun : ∀ slack rest, runDecoder env slack rest payload flags datatype jsonassoc = _ :=
          runDecoder_without datatype jsonassoc hcomp hsite hzero
        exact ⟨fun _ habs => absurd habs hzero, fun _ => ⟨_, fun rest slack _ => hrun slack rest⟩⟩
    | some site =>
      dsimp only
      by_cases h4 : 4 ≤ narrowInt payload.length
      · simp only [h4, true_and]
        exact runs_site_iff env datatype jsonassoc hcomp hsite h4
      · have hrun := runDecoder_short datatype jsonassoc hcomp hsite h4
        constructor
        · rintro ⟨v, hv⟩
          obtain ⟨e, he⟩ := hrun [0] []
          rw [hv [] [0] (List.mem_singleton_self 0)] at he
          cases he
        · exact fun h => absurd h.1 h4

/-- **A compressed number is read as its text** when its runs have one value: one of the heaps
behind the decompressed text is the memory behind the plain text. -/
theorem number_of_runs {payload behind text : Bytes} {flags datatype : UInt64} {jsonassoc : Bool}
    {v : Zval}
    (hv : ∀ rest slack : Bytes, 0 ∈ slack →
      runDecoder env slack rest payload flags datatype jsonassoc = .ok v)
    (htext : storedText env flags payload behind = some text)
    (hnumber : (reading env jsonassoc flags).isNumber = true) (slack rest : Bytes) :
    runDecoder env slack rest text (plainFlags flags) datatype jsonassoc = .ok v := by
  have hplain := unpacked_plain env slack (0 :: rest) text (compressionOf_plainFlags flags)
  rw [runDecoder_plain datatype jsonassoc slack hplain, reading_plainFlags env hnumber]
  unfold storedText at htext
  obtain ⟨cmprtype, hcomp, htext⟩ := Option.bind_eq_some_iff.mp htext
  obtain ⟨site, hsite, htext⟩ := Option.bind_eq_some_iff.mp htext
  have hrun := hv behind (0 :: rest) List.mem_cons_self
  by_cases h4 : 4 ≤ narrowInt payload.length
  · rw [runDecoder_site datatype jsonassoc hcomp hsite h4] at hrun
    obtain ⟨output, houtput, hrun⟩ := C.bind_eq_ok.mp hrun
    rw [houtput] at htext
    dsimp only at htext
    subst htext
    exact hrun
  · obtain ⟨e, he⟩ := runDecoder_short datatype jsonassoc hcomp hsite h4 (0 :: rest) behind
    rw [he] at hrun
    cases hrun

/-- **The decoded value depends on the document only** exactly for the determined documents. -/
theorem decodesAlike_iff (hstrtod : env.StrtodStops) (payload : Bytes) (flags datatype : UInt64)
    (jsonassoc : Bool) :
    DecodesAlike env payload flags datatype jsonassoc ↔
      Determined env payload flags jsonassoc := by
  rw [← runs_iff env hstrtod payload flags datatype jsonassoc]
  constructor
  · intro h
    exact (two_runs_iff env payload flags datatype jsonassoc).mp h.runs
  · rintro ⟨v, hv⟩
    refine ⟨(two_runs_iff env payload flags datatype jsonassoc).mpr ⟨v, hv⟩, ?_⟩
    intro behind text htext hnumber rest rest' slack slack' hslack _
    exact ⟨v, hv rest slack hslack, number_of_runs env hv htext hnumber slack' rest'⟩

theorem literalEnv_strtodStops : literalEnv.StrtodStops := fun _ => ⟨0, fun _ => rfl⟩

/-- Two runs on a compressed string give the same value. -/
theorem compressed_string_alike :
    DecodesAlike literalEnv [2, 0, 0, 0, 1, 97, 98] 0x01000050 0 true := by
  refine (decodesAlike_iff literalEnv literalEnv_strtodStops [2, 0, 0, 0, 1, 97, 98] 0x01000050 0
    true).mpr ?_
  have hval : ∀ rest, DecompressSite.decoderFastlz.textAt literalEnv [2, 0, 0, 0, 1, 97, 98] (0 :: rest) =
      .ok (some (ascii "ab")) := by
    intro rest
    have hinput : prefixOf ([1, 97, 98] ++ 0 :: rest) 3 = .ok [1, 97, 98] :=
      prefixOf_append_length [1, 97, 98] (0 :: rest)
    have hcall : callFastlzDecompress literalEnv ([1, 97, 98] ++ 0 :: rest) 3 2 = .ok (ascii "ab") := by
      show (prefixOf ([1, 97, 98] ++ 0 :: rest) 3 >>= fun input => .ok (readRun input 2)) = _
      rw [hinput]
      rfl
    show (callFastlzDecompress literalEnv ([1, 97, 98] ++ 0 :: rest) 3 2 >>= fun out =>
      .ok (DecompressSite.answer out)) = _
    rw [hcall]
    rfl
  show 4 ≤ narrowInt (List.length [2, 0, 0, 0, 1, 97, 98]) ∧
    AnswersAlike literalEnv .decoderFastlz (.text Zval.string) [2, 0, 0, 0, 1, 97, 98]
  refine ⟨by decide, ?_, ?_⟩
  · intro rest
    refine ⟨_, hval rest, ?_⟩
    rintro text htext
    cases htext
    show (ascii "ab").length % 2 ^ 32 < 2 ^ 31
    decide
  · intro rest rest' output output' houtput houtput'
    rw [hval] at houtput houtput'
    cases houtput
    cases houtput'
    rfl

/-- **A compressed long takes its digits from the heap**: the document of the text "12" is 12 in
one run and 123 in another. -/
theorem compressed_long_reads_heap :
    literalEnv.StrtodStops ∧
    runDecoder literalEnv [0] [] [2, 0, 0, 0, 1, 49, 50] 0x01000051 0 true = .ok (.long 12) ∧
    runDecoder literalEnv [51, 0] [] [2, 0, 0, 0, 1, 49, 50] 0x01000051 0 true = .ok (.long 123) ∧
    ¬ DecodesAlike literalEnv [2, 0, 0, 0, 1, 49, 50] 0x01000051 0 true := by
  have hfirst : runDecoder literalEnv [0] [] [2, 0, 0, 0, 1, 49, 50] 0x01000051 0 true =
    .ok (.long 12) := by rfl
  have hsecond : runDecoder literalEnv [51, 0] [] [2, 0, 0, 0, 1, 49, 50] 0x01000051 0 true =
    .ok (.long 123) := by rfl
  refine ⟨literalEnv_strtodStops, hfirst, hsecond, ?_⟩
  intro h
  obtain ⟨v, hv, hv'⟩ := h.runs [] [] [0] [51, 0] (by decide) (by decide)
  rw [hfirst] at hv
  rw [hsecond, ← hv] at hv'
  exact absurd hv' (by simp)

end PhpCouchbase
