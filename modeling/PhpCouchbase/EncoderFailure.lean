import PhpCouchbase.CompressionDecision
import PhpCouchbase.StoreGet

/-!
# When the serializer fails

A failure passes three layers: `basic_encoder_v1` (`couchbase.c`), `pcbc_encode_value`
(`transcoding.c`), and the store method (`bucket/store.c`).  The two outer ones report it; the
encoder reads the length of a result that is no string.  Only a `jsonSerialize()` that throws behind
a part of the text leaves a string, and its exception ends the call.

* `encodeValue_eq_some_iff`, `failed_encoding_schedules_nothing` — what the outer layers accept.
* `basicEncoderV1_failure_iff` — the encoder on a value that its serializer does not encode.
* `encoder_failure_reported_iff` — exactly which failures are reported.
-/

set_option autoImplicit false

namespace PhpCouchbase

open OrderedMap

variable (env : Env)

/-! ## The outer layers -/

/-- `pcbc_encode_value` accepts an array of three elements: a string, a long and a long. -/
theorem encodeValue_eq_some_iff (result : CallResult) (v : EncodedValue) :
    encodeValue result = some v ↔
      ∃ elems bytes flags datatype, result = .returned (.array elems) ∧ elems.length = 3 ∧
        phpArrayFetchn elems 0 = some (.string bytes) ∧
        phpArrayFetchn elems 1 = some (.long flags) ∧
        phpArrayFetchn elems 2 = some (.long datatype) ∧
        v = ⟨bytes, flags.toUInt64.toUInt32, datatype.toUInt64.toUInt8⟩ := by
  constructor
  · intro h
    unfold encodeValue at h
    split at h
    · rename_i elems
      by_cases hlen : elems.length = 3
      · rw [if_neg (not_not.mpr hlen)] at h
        split at h
        · rename_i bytes flags datatype h0 h1 h2
          cases h
          exact ⟨elems, bytes, flags, datatype, rfl, hlen, h0, h1, h2, rfl⟩
        · cases h
      · rw [if_pos hlen] at h
        cases h
    · cases h
  · rintro ⟨elems, bytes, flags, datatype, rfl, hlen, h0, h1, h2, rfl⟩
    unfold encodeValue
    simp only [hlen, ne_eq, not_true_eq_false, if_false, h0, h1, h2]

/-- **A failed encoding schedules nothing**: whatever the encoder of the bucket returned, a store
method whose `pcbc_encode_value` fails sends no command for the entry. -/
theorem failed_encoding_schedules_nothing {m : BatchMethod} (hm : m.encodes = true) {w : World}
    {i : Nat} {e : PpEntry} {value : Zval} (hvalue : e.arg "value" = some value)
    (hfail : encodeValue (w.encoder i value) = none) (cmd : Command) :
    batchEntry m w i (.ok e) ≠ .ok (.inr cmd) := by
  have hentry : ∃ stop, entryValue m w i e = .ok (.inl stop) := by
    unfold entryValue
    rw [if_pos hm, hvalue]
    dsimp only
    cases hres : w.encoder i value with
    | threw => exact ⟨.threw, rfl⟩
    | failed => exact ⟨.failed .error, rfl⟩
    | returned z =>
      rw [hres] at hfail
      dsimp only
      rw [hfail]
      exact ⟨.failed .error, rfl⟩
  obtain ⟨stop, hstop⟩ := hentry
  unfold batchEntry
  rw [C.bind_ok]
  intro h
  cases hrej : rejection m.checks e with
  | some exn =>
    rw [hrej] at h
    cases h
  | none =>
    rw [hrej, hstop] at h
    cases h

/-! ## The default encoder inside -/

/-- `pcbc_encode_value` with the default encoder. -/
def encodeDefault (o : EncoderOptions) (value : Zval) : C (Option EncodedValue) := do
  return encodeValue (← defaultEncoder env o value)

/-- The body of the loop of a store method whose bucket has the default encoder: the checks come
first, then the value is encoded. -/
def storeEntry (o : EncoderOptions) (m : BatchMethod) (w : World) (i : Nat) (e : PpEntry) :
    C (Stop ⊕ Command) :=
  match rejection m.checks e with
  | some exn => .ok (.inl (.invalid exn))
  | none => do
    match e.arg "value" with
    | none => .error .nullPointer
    | some value =>
      let result ← defaultEncoder env o value
      batchEntry m { w with encoder := fun _ _ => result } i (.ok e)

/-- **The selected serializer fails**: the value goes to it, and it gives no whole text. -/
def SerializerFails (o : EncoderOptions) (value : Zval) : Prop :=
  value.needsSerializer = Bool.true ∧
    serializerEncode env (effectiveSertype env o.sertype) value = none

/-- The store methods of a bucket. -/
def storeMethods : List BatchMethod := [insert, upsert, replace, append, prepend]

/-- **A failure is reported**: the encoder reads nothing of a result that is no string,
`pcbc_encode_value` fails, and no store method schedules a command for the value. -/
structure FailureReported (o : EncoderOptions) (value : Zval) : Prop where
  no_wrong_read : ∀ f, basicEncoderV1 env o value ≠ .error f
  encode_fails : encodeDefault env o value = .ok none
  not_scheduled : ∀ m ∈ storeMethods, ∀ (w : World) (i : Nat) (e : PpEntry),
    e.arg "value" = some value → ∀ cmd, storeEntry env o m w i e ≠ .ok (.inr cmd)

/-- **JSON leaves a text and no error code**, which only an exception of a `jsonSerialize()` does to
a value that is not encoded, and the text can be compressed. -/
structure LeavesText (o : EncoderOptions) (value : Zval) : Prop where
  json : effectiveSertype env o.sertype = sertypeJson
  unfailed : (env.jsonEncode value).failed = Bool.false
  written : (env.jsonEncode value).text ≠ []
  callable : o.cmprtype = cmprtypeFastlz →
    o.cmprthresh.toUInt64.toNat ≤ (env.jsonEncode value).text.length →
      FastlzCallable env (env.jsonEncode value).text

variable {env} {o : EncoderOptions} {value : Zval}

/-- A value that is not encoded, without an error code: its `jsonSerialize()` threw. -/
theorem LeavesText.thrown (h : LeavesText env o value) (hfails : SerializerFails env o value) :
    encoderThrows env o value = Bool.true := by
  have hnone := hfails.2
  rw [serializerEncode, if_pos h.json] at hnone
  split at hnone
  · cases hnone
  · rename_i hincomplete
    rw [JsonEncoding.complete, h.unfailed, Bool.not_false, Bool.true_and, Bool.not_eq_true',
      Bool.not_eq_false] at hincomplete
    rw [encoderThrows, hfails.1, h.json, hincomplete]
    rfl

/-- The compression of a text is defined, unless fastlz cannot be called. -/
theorem compression_ok_iff (o : EncoderOptions) (data : Bytes) :
    (∃ r, compression env o data = .ok r) ↔
      (o.cmprtype = cmprtypeFastlz → o.cmprthresh.toUInt64.toNat ≤ data.length →
        FastlzCallable env data) := by
  by_cases hreach : o.cmprthresh.toUInt64.toNat ≤ data.length
  · have hpayload := compressPayload_ok_iff env o.cmprtype data
    simp only [hreach, true_implies]
    rw [compression_of_reached hreach, ← hpayload]
    constructor
    · rintro ⟨r, hr⟩
      obtain ⟨p, hp, -⟩ := C.bind_eq_ok.mp hr
      exact ⟨p, hp⟩
    · rintro ⟨p, hp⟩
      rw [hp, C.bind_ok]
      cases p <;> exact ⟨_, rfl⟩
  · rw [compression_of_bypass (not_le.mp hreach)]
    exact ⟨fun _ _ h => absurd h hreach, fun _ => ⟨none, rfl⟩⟩

/-- What the type switch leaves of a value that is not encoded is a string only if JSON left a text.
-/
theorem encodeText_strval_iff (h : SerializerFails env o value) (data : Bytes) :
    (∃ res flags, encodeText env (effectiveSertype env o.sertype) value = .ok (res, flags) ∧
      res.strval = .ok data) ↔
      effectiveSertype env o.sertype = sertypeJson ∧ (env.jsonEncode value).failed = Bool.false ∧
        data ≠ [] ∧ data = (env.jsonEncode value).text := by
  obtain ⟨hneeds, hnone⟩ := h
  rw [encodeText_serialized env hneeds]
  unfold serializerEncode at hnone
  by_cases hjson : effectiveSertype env o.sertype = sertypeJson
  · simp only [hjson, if_true, true_and, JsonEncoding.unfailed]
    cases (env.jsonEncode value).failed with
    | true =>
      refine iff_of_false ?_ fun habs => Bool.noConfusion habs.1
      rintro ⟨res, flags, hres, hdata⟩
      cases hres
      cases hdata
    | false =>
      simp only [Bool.false_eq_true, if_false, true_and, serialized, pcbcStrings]
      by_cases hempty : (env.jsonEncode value).text = []
      · rw [if_pos hempty]
        refine iff_of_false ?_ fun habs => habs.1 (habs.2.trans hempty)
        rintro ⟨res, flags, hres, hdata⟩
        cases hres
      · rw [if_neg hempty]
        constructor
        · rintro ⟨res, flags, hres, hdata⟩
          cases hres
          cases hdata
          exact ⟨hempty, rfl⟩
        · rintro ⟨-, rfl⟩
          exact ⟨_, _, rfl, rfl⟩
  · refine iff_of_false ?_ fun habs => hjson habs.1
    rintro ⟨res, flags, hres, hdata⟩
    rw [if_neg hjson] at hres hnone
    split at hres
    · rename_i hphp
      rw [if_pos hphp] at hnone
      rw [hnone] at hres
      cases hres
      cases hdata
    · rename_i hphp
      rw [if_neg hphp] at hnone
      split at hres
      · rename_i hig
        rw [if_pos hig] at hnone
        rw [hnone] at hres
        cases hres
        cases hdata
      · cases hres
        cases hdata

/-- **The encoder on a value that its serializer does not encode** returns exactly when JSON leaves
a text; else it reads the length of a result that is no string, or of a string that is not there. -/
theorem basicEncoderV1_failure_iff (h : SerializerFails env o value) :
    (∃ e, basicEncoderV1 env o value = .ok e) ↔ LeavesText env o value := by
  constructor
  · rintro ⟨e, he⟩
    obtain ⟨⟨res, flags⟩, htext, he⟩ := C.bind_eq_ok.mp he
    obtain ⟨data, hdata, he⟩ := C.bind_eq_ok.mp he
    obtain ⟨c, hc, -⟩ := C.bind_eq_ok.mp he
    obtain ⟨hjson, hfailed, hne, rfl⟩ := (encodeText_strval_iff h data).mp ⟨res, flags, htext, hdata⟩
    exact ⟨hjson, hfailed, hne, (compression_ok_iff o _).mp ⟨c, hc⟩⟩
  · intro hleaves
    obtain ⟨res, flags, htext, hdata⟩ := (encodeText_strval_iff h (env.jsonEncode value).text).mpr
      ⟨hleaves.json, hleaves.unfailed, hleaves.written, rfl⟩
    obtain ⟨c, hc⟩ := (compression_ok_iff o _).mpr hleaves.callable
    rw [basicEncoderV1, htext, C.bind_ok]
    dsimp only
    rw [hdata, C.bind_ok, hc, C.bind_ok]
    cases c <;> exact ⟨_, rfl⟩

/-- An encoder that threw schedules nothing. -/
theorem storeEntry_of_threw {m : BatchMethod} (hm : m.encodes = Bool.true) (w : World) (i : Nat)
    {e : PpEntry} (hvalue : e.arg "value" = some value)
    (hthrew : defaultEncoder env o value = .ok .threw) (cmd : Command) :
    storeEntry env o m w i e ≠ .ok (.inr cmd) := by
  unfold storeEntry
  rw [hvalue]
  cases rejection m.checks e with
  | some exn => exact fun h => by cases h
  | none =>
    dsimp only
    rw [hthrew, C.bind_ok]
    exact failed_encoding_schedules_nothing hm hvalue rfl cmd

/-- **A failure of the serializer is reported** exactly when JSON leaves a text. -/
theorem encoder_failure_reported_iff (env : Env) (o : EncoderOptions) (value : Zval)
    (h : SerializerFails env o value) : FailureReported env o value ↔ LeavesText env o value := by
  constructor
  · intro hrep
    rw [← basicEncoderV1_failure_iff h]
    cases he : basicEncoderV1 env o value with
    | error f => exact absurd he (hrep.no_wrong_read f)
    | ok e => exact ⟨e, rfl⟩
  · intro hleaves
    obtain ⟨e, he⟩ := (basicEncoderV1_failure_iff h).mpr hleaves
    have hthrew : defaultEncoder env o value = .ok .threw := by
      rw [defaultEncoder, he, C.bind_ok, hleaves.thrown h]
      rfl
    constructor
    · intro f hf
      rw [he] at hf
      cases hf
    · rw [encodeDefault, hthrew]
      rfl
    · intro m hm w i e' hvalue cmd
      have hencodes : m.encodes = Bool.true := by
        simp only [storeMethods, List.mem_cons, List.not_mem_nil, or_false] at hm
        rcases hm with rfl | rfl | rfl | rfl | rfl <;> rfl
      exact storeEntry_of_threw hencodes w i hvalue hthrew cmd

/-- The same build with an object whose `jsonSerialize()` throws, alone and behind the text "[1,".
-/
def throwingEnv : Env :=
  { literalEnv with
    jsonEncode := fun v => match v with
      | .array _ => ⟨ascii "[1,", Bool.false, Bool.true⟩
      | .object _ _ => ⟨[], Bool.false, Bool.true⟩
      | _ => .refused }

/-- `upsert("k", [1, $t])` reports the exception of `$t`. -/
theorem thrown_element_reported :
    FailureReported throwingEnv ⟨sertypeJson, cmprtypeNone, 0, 0⟩
      (.array [(.index 0, .long 1), (.index 1, .object (ascii "T") [])]) :=
  (encoder_failure_reported_iff throwingEnv ⟨sertypeJson, cmprtypeNone, 0, 0⟩
    (.array [(.index 0, .long 1), (.index 1, .object (ascii "T") [])]) ⟨by rfl, by rfl⟩).mpr
    ⟨by rfl, by rfl, by decide, fun h => absurd h (by decide)⟩

/-- **An array that is no JSON**: `json_encode` fails, the result is null, and the encoder reads the
length of a string from it. -/
theorem failed_json_read_as_string :
    SerializerFails literalEnv ⟨sertypeJson, cmprtypeNone, 0, 0⟩ (.array [(.index 0, .string [0xFF])]) ∧
    basicEncoderV1 literalEnv ⟨sertypeJson, cmprtypeNone, 0, 0⟩
      (.array [(.index 0, .string [0xFF])]) = .error .wrongType ∧
    ¬ FailureReported literalEnv ⟨sertypeJson, cmprtypeNone, 0, 0⟩
      (.array [(.index 0, .string [0xFF])]) := by
  have hrun : basicEncoderV1 literalEnv ⟨sertypeJson, cmprtypeNone, 0, 0⟩
      (.array [(.index 0, .string [0xFF])]) = .error .wrongType := by rfl
  exact ⟨⟨by rfl, by rfl⟩, hrun, fun hrep => hrep.no_wrong_read _ hrun⟩

end PhpCouchbase
