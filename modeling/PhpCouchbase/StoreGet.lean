import PhpCouchbase.BatchResults

/-!
# What a later `get` gives to the decoder

`upsert`, `insert` and `replace` (`bucket/store.c`) send what the encoder returned; a later `get`
(`bucket/get.c`, `document.c`) receives the stored bytes, flags and datatype and hands them to the
decoder of its own bucket.

* `store_get_transparent_iff` — **exactly when** every decoder is called with what the encoder
  returned, and the document is made of its result.
* `defaultEncoder_returned` — the default encoder is one of the encoders that this is about.
* `empty_value_not_decoded` — an empty value never reaches the decoder.
-/

set_option autoImplicit false

namespace PhpCouchbase

open EarlyExit OrderedMap

/-! ## The way to the server -/

/-- The array `[bytes, flags, datatype]` that an encoder returns. -/
def encoderResult (v : EncodedValue) : Zval :=
  .array [(.index 0, .string v.bytes), (.index 1, .long (Int64.ofNat v.flags.toNat)),
    (.index 2, .long (Int64.ofNat v.datatype.toNat))]

theorem encodeValue_encoderResult (v : EncodedValue) :
    encodeValue (.returned (encoderResult v)) = some v := by
  obtain ⟨bytes, flags, datatype⟩ := v
  have hflags : (Int64.ofNat flags.toNat).toUInt64.toUInt32 = flags := by
    apply UInt32.toNat_inj.mp
    have := flags.toNat_lt
    simp [Int64.toUInt64_ofNat']
  have hdatatype : (Int64.ofNat datatype.toNat).toUInt64.toUInt8 = datatype := by
    apply UInt8.toNat_inj.mp
    have := datatype.toNat_lt
    simp [Int64.toUInt64_ofNat']
  show some (EncodedValue.mk bytes _ _) = _
  rw [hflags, hdatatype]

/-- The array of the default encoder is the result for its bytes and flags, with the datatype 0. -/
theorem basicEncoderV1_toZval {env : Env} {o : EncoderOptions} {value : Zval} {e : Encoded}
    (h : basicEncoderV1 env o value = .ok e) : e.toZval = encoderResult ⟨e.bytes, e.flags, 0⟩ := by
  have hdatatype : e.datatype = 0 := by
    unfold basicEncoderV1 at h
    obtain ⟨text, -, h⟩ := C.bind_eq_ok.mp h
    obtain ⟨data, -, h⟩ := C.bind_eq_ok.mp h
    obtain ⟨c, -, h⟩ := C.bind_eq_ok.mp h
    cases c <;> cases h <;> rfl
  have hflags : e.flags.toUInt64.toInt64 = Int64.ofNat e.flags.toNat := by
    rw [← UInt64.ofNat_uInt32ToNat]
    rfl
  rw [Encoded.toZval, encoderResult, hdatatype, hflags]
  rfl

/-- **The default encoder is such an encoder.** -/
theorem defaultEncoder_returned {env : Env} {o : EncoderOptions} {value z : Zval}
    (h : defaultEncoder env o value = .ok (.returned z)) :
    ∃ bytes flags, z = encoderResult ⟨bytes, flags, 0⟩ := by
  obtain ⟨e, he, h⟩ := C.bind_eq_ok.mp h
  split at h
  · cases h
  · cases h
    exact ⟨e.bytes, e.flags, basicEncoderV1_toZval he⟩

/-- Entry number `k` gives no flags, the encoder returns `v` for its value, and the command `cmd` is
sent for it. -/
structure Stores (op : Operation) (w : World) (st : PpState) (k : Nat) (v : EncodedValue)
    (cmd : StoreCommand) : Prop where
  encoded : ∃ e value, (ppEntries st)[k]? = some (.ok e) ∧ e.arg "flags" = none ∧
    e.arg "value" = some value ∧ w.encoder k value = .returned (encoderResult v)
  sent : ∃ durable, ScheduledAt op.method w st k (.store durable cmd)

/-- The operations that send the flags of the encoder. -/
def Operation.StoresFlags (op : Operation) : Prop := op = .upsert ∨ op = .insert ∨ op = .replace

theorem entryValue_of_encoder {m : BatchMethod} {w : World} {k : Nat} {e : PpEntry} {value : Zval}
    {v : EncodedValue} (hm : m.encodes = true) (hvalue : e.arg "value" = some value)
    (henc : w.encoder k value = .returned (encoderResult v)) :
    entryValue m w k e = .ok (.inr v) := by
  unfold entryValue
  rw [if_pos hm]
  simp only [hvalue, henc, encodeValue_encoderResult]

/-- **The command carries what the encoder returned.** -/
theorem Stores.value_eq {op : Operation} {w : World} {st : PpState} {k : Nat} {v : EncodedValue}
    {cmd : StoreCommand} (hop : op.StoresFlags) (h : Stores op w st k v cmd) :
    cmd.value = v := by
  obtain ⟨e, value, he, hflags, hvalue, henc⟩ := h.encoded
  obtain ⟨durable, entry, he', hb⟩ := h.sent
  rw [he, Option.some.injEq] at he'
  subst he'
  have hencodes : op.method.encodes = true := by
    rcases hop with rfl | rfl | rfl <;> rfl
  have hcommand : op.method.command w.lval e v = .ok (.store durable cmd) := by
    rw [batchEntry] at hb
    obtain ⟨e', hok, hb⟩ := C.bind_eq_ok.mp hb
    cases hok
    split at hb
    · cases hb
    · rw [entryValue_of_encoder hencodes hvalue henc, C.bind_ok] at hb
      obtain ⟨c, hc, hb⟩ := C.bind_eq_ok.mp hb
      split at hb
      · cases hb
        exact hc
      · cases hb
  have hmk : ∀ operation named checks errInit,
      (storeMethod operation named checks errInit true).command w.lval e v =
        .ok (.store durable cmd) → cmd.value = v := by
    intro operation named checks errInit h
    obtain ⟨hash, -, h⟩ := C.bind_eq_ok.mp h
    simp only [hflags, if_true, C.pure_eq, Except.ok.injEq, Command.store.injEq] at h
    rw [← h.2]
  rcases hop with rfl | rfl | rfl
  · exact hmk _ _ _ _ hcommand
  · exact hmk _ _ _ _ hcommand
  · exact hmk _ _ _ _ hcommand

/-! ## The way back -/

/-- A successful response with the stored bytes, flags and datatype. -/
structure Carries (resp : Response) (v : EncodedValue) : Prop where
  rc : resp.rc = .success
  value : resp.value = v.bytes
  itmflags : resp.itmflags = v.flags
  datatype : resp.datatype = v.datatype

/-- The document holds the result of the decoder for `v`, and the flags of `v`. -/
structure DecodedFrom (bucket : BucketConf) (v : EncodedValue) (doc : Document) : Prop where
  value : doc.value = bucket.decoder (.string v.bytes) (.long (Int64.ofNat v.flags.toNat))
    (.long (Int64.ofNat v.datatype.toNat))
  flags : doc.flags = .long (Int64.ofNat v.flags.toNat)

/-- The command of `get` for one id without options. -/
def plainGet (id : Bytes) : Command := .get id false 0 none

/-- **Transparency** of a stored value `stored` for the encoder's result `v`: whatever the decoder,
the document that any later `get` makes of its response is decoded from `v`, and `get($id)` returns
it. -/
structure Transparent (stored v : EncodedValue) : Prop where
  fetched : ∀ (w : World) (st : PpState) (k : Nat) (cmd : Command), ScheduledAt get w st k cmd →
    Carries (w.respond k cmd) stored →
    ∃ doc, resultDocument get w.bucket (w.respond k cmd) = .ok doc ∧ DecodedFrom w.bucket v doc
  returned : ∀ (w : World) (id : Bytes), w.schedule 0 (plainGet id) = .success →
    Carries (w.respond 0 (plainGet id)) stored →
    ∃ doc, batch get w [.string id] = .ok ⟨[plainGet id], true, .returned (.document doc)⟩ ∧
      DecodedFrom w.bucket v doc

theorem resultDocument_get {bucket : BucketConf} {resp : Response} {v : EncodedValue}
    (h : Carries resp v) :
    resultDocument get bucket resp =
      documentInitDecode bucket v.bytes (narrowInt v.bytes.length) v.flags v.datatype resp.cas
        none := by
  rw [resultDocument, if_pos h.rc]
  show getDocument bucket resp = _
  rw [getDocument, h.value, h.itmflags, h.datatype]

/-- A value of a positive length that fits an `int` is decoded. -/
theorem resultDocument_decoded (bucket : BucketConf) {resp : Response} {v : EncodedValue}
    (h : Carries resp v) (hpos : 0 < v.bytes.length) (hlt : v.bytes.length < 2 ^ 31) :
    ∃ doc, resultDocument get bucket resp = .ok doc ∧ DecodedFrom bucket v doc := by
  have hlen : narrowInt v.bytes.length ≠ 0 := by
    rw [narrowInt_of_lt hlt]
    omega
  rw [resultDocument_get h, documentInitDecode, if_pos hlen, decodeValue, prefixOf_narrowInt hlt]
  exact ⟨_, rfl, rfl, rfl⟩

/-- The decoder that returns its first argument. -/
def identityBucket : BucketConf := ⟨CString.ofBytes (ascii "default"), fun bytes _ _ => bytes⟩

/-- Any other value is not, and the decoder that returns its first argument shows it. -/
theorem not_decodedFrom {resp : Response} {v : EncodedValue} {doc : Document}
    (h : Carries resp v) (hlen : ¬ (0 < v.bytes.length ∧ v.bytes.length < 2 ^ 31))
    (hdoc : resultDocument get identityBucket resp = .ok doc) :
    ¬ DecodedFrom identityBucket v doc := by
  intro hdec
  have hvalue : doc.value = .string v.bytes := hdec.value
  rw [resultDocument_get h, documentInitDecode] at hdoc
  split at hdoc
  · rename_i hne
    obtain ⟨value, hdecode, hdoc⟩ := C.bind_eq_ok.mp hdoc
    obtain ⟨s, hs, hdecode⟩ := C.bind_eq_ok.mp hdecode
    cases hdecode
    cases hdoc
    have hsv : s = v.bytes := Zval.string.inj hvalue
    subst hsv
    by_cases hge : 2 ^ 31 ≤ v.bytes.length
    · exact prefixOf_ne_of_ge hge hs
    · have hzero : v.bytes.length = 0 := by omega
      rw [hzero] at hne
      exact hne rfl
  · cases hdoc
    cases hvalue

/-- The only entry of `get($id)`, and the loop over it. -/
theorem get_one_run (w : World) (id : Bytes) :
    ppBegin get.spec [.string id] = some ⟨.string id, ppVals get.spec [.string id] []⟩ ∧
    EarlyExit.run (batchEntry get w) 0
      (ppEntries ⟨.string id, ppVals get.spec [.string id] []⟩) =
      match w.schedule 0 (plainGet id) with
      | .success => .ok ([plainGet id], none)
      | err => .ok ([], some (.failed err)) := by
  refine ⟨rfl, ?_⟩
  have hentry : batchEntry get w 0 (.ok ⟨id, ppVals get.spec [.string id] []⟩) =
      match w.schedule 0 (plainGet id) with
      | .success => .ok (.inr (plainGet id))
      | err => .ok (.inl (.failed err)) := rfl
  show EarlyExit.run (batchEntry get w) 0 [.ok ⟨id, ppVals get.spec [.string id] []⟩] = _
  rw [EarlyExit.run, hentry]
  cases w.schedule 0 (plainGet id) <;> rfl

/-- `get($id)` of one string waits for its response. -/
theorem batch_get_waited {w : World} {id : Bytes} (hs : w.schedule 0 (plainGet id) = .success) :
    batch get w [.string id] = (do
      let (err, ret) ← procResults get w.bucket (callCookie get w [plainGet id]) false
      return ⟨[plainGet id], true, finish none err ret⟩) := by
  obtain ⟨hst, hrun⟩ := get_one_run w id
  rw [hs] at hrun
  exact batch_waited hst hrun (by simp) (by simp)

/-- `get($id)` of one string returns the document of its response. -/
theorem batch_get_one {w : World} {id : Bytes} {doc : Document}
    (hs : w.schedule 0 (plainGet id) = .success) (hrc : (w.respond 0 (plainGet id)).rc = .success)
    (hdoc : resultDocument get w.bucket (w.respond 0 (plainGet id)) = .ok doc) :
    batch get w [.string id] = .ok ⟨[plainGet id], true, .returned (.document doc)⟩ := by
  rw [batch_get_waited hs, procResults_single hrc hdoc]
  rfl

/-- **Exactly when storing and fetching is transparent**, for every encoder and decoder, every value
and every result of the encoder. -/
theorem store_get_transparent_iff {op : Operation} {w : World} {st : PpState} {k : Nat}
    {v : EncodedValue} {cmd : StoreCommand} (hop : op.StoresFlags)
    (h : Stores op w st k v cmd) :
    Transparent cmd.value v ↔ 0 < v.bytes.length ∧ v.bytes.length < 2 ^ 31 := by
  rw [h.value_eq hop]
  constructor
  · intro ht
    by_contra hlen
    -- a world with the decoder that returns its first argument
    let w' : World := { plainWorld (fun _ _ => .success) with
      bucket := identityBucket
      respond := fun _ _ => ⟨.success, v.bytes, v.flags, v.datatype, 1, 0, none⟩ }
    have hcarries : Carries (w'.respond 0 (plainGet [])) v := ⟨rfl, rfl, rfl, rfl⟩
    obtain ⟨doc, hdoc, hdec⟩ :=
      ht.fetched w' (.mk (.string []) []) 0 (plainGet []) ⟨_, rfl, rfl⟩ hcarries
    exact not_decodedFrom hcarries hlen hdoc hdec
  · rintro ⟨hpos, hlt⟩
    constructor
    · intro w' st' j cmd' _ hcarries
      exact resultDocument_decoded w'.bucket hcarries hpos hlt
    · intro w' id hs hcarries
      obtain ⟨doc, hdoc, hdec⟩ := resultDocument_decoded w'.bucket hcarries hpos hlt
      exact ⟨doc, batch_get_one hs hcarries.rc hdoc, hdec⟩

/-! ## Concrete values -/

/-- The arguments of `upsert("a", $bytes)` after `pcbc_pp_begin`. -/
def upsertState (bytes : Bytes) : PpState :=
  ⟨.string (ascii "a"), ppVals upsert.spec [.string (ascii "a"), .string bytes] []⟩

/-- The command of `upsert("a", $bytes)` with an encoder that keeps strings as they are. -/
def upsertCommand (bytes : Bytes) : StoreCommand :=
  ⟨.set, ascii "a", ⟨bytes, 0, 0⟩, 0, 0, none, 0, 0⟩

theorem upsert_stores (bytes : Bytes) :
    Stores .upsert (plainWorld fun _ _ => .success) (upsertState bytes) 0 ⟨bytes, 0, 0⟩
      (upsertCommand bytes) := by
  constructor
  · exact ⟨_, .string bytes, rfl, rfl, rfl, rfl⟩
  · exact ⟨false, _, rfl, rfl⟩

/-- A string that is not empty comes back. -/
theorem string_transparent :
    Transparent (upsertCommand (ascii "v")).value ⟨ascii "v", 0, 0⟩ :=
  (store_get_transparent_iff (Or.inl rfl) (upsert_stores (ascii "v"))).mpr ⟨by decide, by decide⟩

/-- A world with an empty stored value and a decoder that answers `"decoded"` to everything. -/
def emptyWorld : World :=
  { plainWorld (fun _ _ => .success) with
    bucket := ⟨CString.ofBytes (ascii "default"), fun _ _ _ => .string (ascii "decoded")⟩
    respond := fun _ _ => ⟨.success, [], 0, 0, 1, 0, none⟩ }

/-- **An empty value never reaches the decoder**: `upsert("a", "")` stores the empty string, and
`get` returns a document whose value is null, not what the decoder answers. -/
theorem empty_value_not_decoded :
    Stores .upsert (plainWorld fun _ _ => .success) (upsertState []) 0 ⟨[], 0, 0⟩
      (upsertCommand []) ∧
    (∃ doc, batch get emptyWorld [.string (ascii "a")] =
      .ok ⟨[plainGet (ascii "a")], true, .returned (.document doc)⟩ ∧ doc.value = .null) ∧
    emptyWorld.bucket.decoder (.string []) (.long 0) (.long 0) = .string (ascii "decoded") ∧
    ¬ Transparent (upsertCommand []).value ⟨[], 0, 0⟩ := by
  refine ⟨upsert_stores [], ⟨_, rfl, rfl⟩, rfl, ?_⟩
  intro h
  obtain ⟨doc, hdoc, hdec⟩ := h.returned emptyWorld (ascii "a") rfl ⟨rfl, rfl, rfl, rfl⟩
  cases hdoc
  cases hdec.value

end PhpCouchbase
