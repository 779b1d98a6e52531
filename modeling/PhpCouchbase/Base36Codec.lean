import PhpCouchbase.Document

/-!
# The base-36 codec

PHP code sees a CAS, a vbucket uuid and a sequence number as base-36 text and hands them back as
text; `base36.c` has the two directions.

* `encodeLoop_eq` — the encoder stays within its buffer and stops without a digit left.
* `decode_eq`, `encode_eq` — the two functions on the value of a text.
* `base36_codec_iff` — exactly when a text that is read is the one that is written for its value.
-/

set_option autoImplicit false

namespace PhpCouchbase

open Numeral

/-! ## The encoder's buffer -/

/-- The loop of `pcbc_base36_encode_str`: `ptr` bytes of the buffer are free, and `out` is behind
them. It ends with the text and with what is left of the number. -/
def encodeLoop : Nat → UInt64 → Bytes → C (Bytes × UInt64)
  | 0, _, _ => .error .outOfBounds
  | ptr + 1, num, out =>
    let out := base36Char (num % 36).toNat :: out
    let num := num / 36
    if ptr > 0 ∧ num ≠ 0 then encodeLoop ptr num out else .ok (out, num)

/-- **The buffer has room**: nothing is written in front of it, and no digit is left. -/
theorem encodeLoop_eq {ptr : Nat} (hptr : 0 < ptr) {num : UInt64} (hnum : num.toNat < 36 ^ ptr)
    (ds : List Nat) :
    encodeLoop ptr num (ds.map base36Char) = .ok ((emit 36 ptr num.toNat ds).map base36Char, 0) := by
  induction ptr generalizing num ds with
  | zero => omega
  | succ ptr ih =>
    have hmod : (num % 36).toNat = num.toNat % 36 := UInt64.toNat_mod num 36
    have hdiv : (num / 36).toNat = num.toNat / 36 := UInt64.toNat_div num 36
    have hzero : num / 36 = 0 ↔ num.toNat / 36 = 0 := by
      rw [← hdiv, ← UInt64.toNat_inj]
      rfl
    have hout : base36Char (num % 36).toNat :: ds.map base36Char =
        (num.toNat % 36 :: ds).map base36Char := by rw [List.map_cons, hmod]
    have hroom : num.toNat / 36 < 36 ^ ptr := by
      rw [Nat.pow_succ] at hnum
      omega
    rw [encodeLoop, emit]
    simp only [hout]
    by_cases hleft : num.toNat / 36 = 0
    · rw [if_neg fun h => h.2 (hzero.mpr hleft), if_pos hleft, hzero.mpr hleft]
    · have hpos : 0 < ptr := by
        by_contra h
        obtain rfl : ptr = 0 := by omega
        omega
      rw [if_pos ⟨hpos, fun h => hleft (hzero.mp h)⟩, if_neg hleft,
        ih hpos (by rw [hdiv]; exact hroom), hdiv]

/-! ## The value of a text -/

/-- The number that the base-36 digits of a text denote, all other bytes skipped. -/
def base36Value (s : Bytes) : Nat := evalFrom 36 0 (s.filterMap base36Val)

def isAlnum (c : UInt8) : Bool :=
  decide (48 ≤ c.toNat ∧ c.toNat ≤ 57 ∨ 65 ≤ c.toNat ∧ c.toNat ≤ 90 ∨ 97 ≤ c.toNat ∧ c.toNat ≤ 122)

def toLower (c : UInt8) : UInt8 := if 65 ≤ c.toNat ∧ c.toNat ≤ 90 then c + 32 else c

/-- A text in lower case, without the bytes that are no digit and without leading zeros; `"0"` when
nothing is left. -/
def canonicalText (s : Bytes) : Bytes :=
  let text := ((s.filter isAlnum).map toLower).dropWhile (· = 48)
  if text = [] then [48] else text

theorem base36Val_map_base36Char (c : UInt8) :
    (base36Val c).map base36Char = if isAlnum c then some (toLower c) else none := by
  have hall : ∀ n < 256, (base36Val (UInt8.ofNat n)).map base36Char =
      if isAlnum (UInt8.ofNat n) then some (toLower (UInt8.ofNat n)) else none := by decide +kernel
  have hc := hall c.toNat c.toNat_lt
  rwa [UInt8.ofNat_toNat] at hc

theorem base36Val_lt {c : UInt8} {d : Nat} (h : base36Val c = some d) : d < 36 := by
  unfold base36Val at h
  split at h
  · have := Option.some.inj h
    omega
  · split at h
    · have := Option.some.inj h
      omega
    · split at h
      · have := Option.some.inj h
        omega
      · cases h

theorem digits_lt (s : Bytes) : ∀ d ∈ s.filterMap base36Val, d < 36 := by
  intro d hd
  obtain ⟨c, -, hc⟩ := List.mem_filterMap.mp hd
  exact base36Val_lt hc

/-- The digits of a text, written again. -/
theorem map_base36Char_digits (s : Bytes) :
    (s.filterMap base36Val).map base36Char = (s.filter isAlnum).map toLower := by
  induction s with
  | nil => rfl
  | cons c s ih =>
    have hc := base36Val_map_base36Char c
    rw [List.filterMap_cons, List.filter_cons]
    cases hval : base36Val c with
    | none =>
      rw [hval, Option.map_none] at hc
      have halnum : ¬isAlnum c = true := fun h => by
        rw [if_pos h] at hc
        cases hc
      rw [if_neg halnum]
      exact ih
    | some d =>
      rw [hval, Option.map_some] at hc
      have halnum : isAlnum c = true := by
        by_contra h
        rw [if_neg h] at hc
        cases hc
      rw [if_pos halnum, Option.some.injEq] at hc
      rw [if_pos halnum, List.map_cons, List.map_cons, hc, ih]

theorem base36Char_eq_zero_iff : ∀ d, d < 36 → (base36Char d = 48 ↔ d = 0) := by decide

/-- Leading zeros are dropped from the digits or from their characters. -/
theorem map_dropWhile_zero {ds : List Nat} (hds : ∀ d ∈ ds, d < 36) :
    (ds.dropWhile (· = 0)).map base36Char = (ds.map base36Char).dropWhile (· = 48) := by
  induction ds with
  | nil => rfl
  | cons d ds ih =>
    obtain ⟨hd, hds⟩ := List.forall_mem_cons.mp hds
    have hzero := base36Char_eq_zero_iff d hd
    rw [List.map_cons, List.dropWhile_cons, List.dropWhile_cons]
    by_cases h : d = 0
    · rw [if_pos (by simpa using h), if_pos (by simpa using hzero.mpr h), ih hds]
    · rw [if_neg (by simpa using h), if_neg (by simpa using fun h' => h (hzero.mp h')), List.map_cons]

theorem canonicalText_eq (s : Bytes) :
    canonicalText s = (strip (s.filterMap base36Val)).map base36Char := by
  have hdrop := map_dropWhile_zero (digits_lt s)
  rw [map_base36Char_digits] at hdrop
  rw [canonicalText, strip]
  simp only [← hdrop, List.map_eq_nil_iff]
  split
  · rfl
  · rfl

/-! ## Reading and writing a text -/

/-- The decoder reads as many bytes as the length has as an `int`. -/
theorem decode_eq (s : Bytes) :
    base36DecodeStr s = UInt64.ofNat (base36Value (s.take (narrowInt s.length).toNat)) :=
  base36_foldl _ 0

/-- **The encoder writes the canonical text** of a value. -/
theorem encode_eq {s : Bytes} (h : base36Value s < 2 ^ 64) :
    base36EncodeStr (UInt64.ofNat (base36Value s)) = canonicalText s := by
  have hval : (UInt64.ofNat (base36Value s)).toNat = base36Value s := by
    rw [UInt64.toNat_ofNat', Nat.mod_eq_of_lt h]
  have hroom : base36Value s < 36 ^ 13 := by omega
  rw [canonicalText_eq, base36EncodeStr, hval, base36Value,
    emit_evalFrom_strip (by omega) (digits_lt s) (by omega) hroom]

/-- Texts of one value have one canonical text, and only they. -/
theorem canonicalText_eq_iff {s t : Bytes} (hs : base36Value s < 2 ^ 64)
    (ht : base36Value t < 2 ^ 64) : canonicalText s = canonicalText t ↔ base36Value s = base36Value t := by
  constructor
  · intro h
    rw [← encode_eq hs, ← encode_eq ht] at h
    have hnum := congrArg base36DecodeStr h
    rw [base36DecodeStr_encode, base36DecodeStr_encode] at hnum
    have hnat := congrArg UInt64.toNat hnum
    rwa [UInt64.toNat_ofNat', UInt64.toNat_ofNat', Nat.mod_eq_of_lt hs, Nat.mod_eq_of_lt ht] at hnat
  · intro h
    rw [← encode_eq hs, ← encode_eq ht, h]

/-- Nothing is lost where the text is cut: what is not read has no digit, or all digits are zeros.
-/
def ReadsAllDigits (s : Bytes) : Prop :=
  (∀ c ∈ s.drop (narrowInt s.length).toNat, base36Val c = none) ∨
    ∀ c ∈ s, ∀ d, base36Val c = some d → d = 0

theorem value_take_iff (s : Bytes) (n : Nat) :
    base36Value s = base36Value (s.take n) ↔
      (∀ c ∈ s.drop n, base36Val c = none) ∨ ∀ c ∈ s, ∀ d, base36Val c = some d → d = 0 := by
  have hsplit : s.filterMap base36Val =
      (s.take n).filterMap base36Val ++ (s.drop n).filterMap base36Val := by
    rw [← List.filterMap_append, List.take_append_drop]
  rw [base36Value, base36Value, hsplit, evalFrom_append_eq_iff (by omega), ← hsplit,
    List.filterMap_eq_nil_iff]
  refine or_congr Iff.rfl ⟨fun h c hc d hd => h d (List.mem_filterMap.mpr ⟨c, hc, hd⟩), fun h d hd => ?_⟩
  obtain ⟨c, hc, hval⟩ := List.mem_filterMap.mp hd
  exact h c hc d hval

theorem value_take_le (s : Bytes) (n : Nat) : base36Value (s.take n) ≤ base36Value s := by
  conv_rhs => rw [← List.take_append_drop n s, base36Value, List.filterMap_append, evalFrom_append]
  exact le_evalFrom (by omega) _ _

/-- **Reading a text and writing its value again.** -/
theorem encode_decode_iff {s : Bytes} (h : base36Value s < 2 ^ 64) :
    base36EncodeStr (base36DecodeStr s) = canonicalText s ↔ ReadsAllDigits s := by
  have hread := lt_of_le_of_lt (value_take_le s (narrowInt s.length).toNat) h
  rw [decode_eq, encode_eq hread, eq_comm, canonicalText_eq_iff h hread, value_take_iff]
  rfl

/-- A text in its canonical form, of a number with 64 bits. -/
structure CanonicalText (s : Bytes) : Prop where
  text : canonicalText s = s
  value : base36Value s < 2 ^ 64

/-- A canonical text is the one that is written for its value. -/
theorem CanonicalText.encode {s : Bytes} (h : CanonicalText s) :
    base36EncodeStr (UInt64.ofNat (base36Value s)) = s := (encode_eq h.value).trans h.text

/-- Canonical texts are short enough to be read. -/
theorem CanonicalText.encode_decode {s : Bytes} (h : CanonicalText s) :
    base36EncodeStr (base36DecodeStr s) = s := by
  have hlen := length_base36EncodeStr_le (UInt64.ofNat (base36Value s))
  rw [h.encode] at hlen
  rw [decode_eq, take_narrowInt (by omega), h.encode]

/-- **Decoding is injective on canonical texts.** -/
theorem decode_injective {s t : Bytes} (hs : CanonicalText s) (ht : CanonicalText t)
    (h : base36DecodeStr s = base36DecodeStr t) : s = t := by
  rw [← hs.encode_decode, ← ht.encode_decode, h]

/-! ## Mutation tokens -/

/-- `MutationToken::from` and `pcbc_mutation_token_init_php` -/
def mutationTokenFrom (bucketName : Bytes) (vbucketID : Int64) (vbucketUUID sequenceNumber : Bytes) :
    MutationToken :=
  ⟨CString.ofBytes bucketName, ⟨base36DecodeStr vbucketUUID, base36DecodeStr sequenceNumber,
    vbucketID.toUInt64.toUInt16⟩⟩

namespace MutationToken

def bucketName (token : MutationToken) : Bytes := token.bucket.bytes

def vbucketId (token : MutationToken) : Int64 := Int64.ofNat token.mt.vbid.toNat

def vbucketUuid (token : MutationToken) : Bytes := base36EncodeStr token.mt.uuid

def sequenceNumber (token : MutationToken) : Bytes := base36EncodeStr token.mt.seqno

/-- **A token survives the way through PHP code.** -/
theorem from_read (token : MutationToken) :
    mutationTokenFrom token.bucketName token.vbucketId token.vbucketUuid token.sequenceNumber =
      token := by
  have hvbid : token.vbucketId.toUInt64.toUInt16 = token.mt.vbid := by
    rw [vbucketId, ← UInt16.toNat_inj, UInt64.toNat_toUInt16]
    have := token.mt.vbid.toNat_lt
    have hnat : (Int64.ofNat token.mt.vbid.toNat).toUInt64.toNat = token.mt.vbid.toNat := by
      rw [Int64.toUInt64_ofNat', UInt64.toNat_ofNat', Nat.mod_eq_of_lt (by omega)]
    rw [hnat, Nat.mod_eq_of_lt this]
  rw [mutationTokenFrom, bucketName, ofBytes_bytes, vbucketUuid, sequenceNumber,
    base36DecodeStr_encode, base36DecodeStr_encode, hvbid]

end MutationToken

/-! ## The codec -/

/-- A document that is made of a response with the CAS and the token. -/
inductive MadeWith (bucket : BucketConf) (cas : UInt64) (token : Option LcbMutationToken) :
    Document → Prop where
  | decode {bytes : Bytes} {len : Int} {flags : UInt32} {datatype : UInt8} {doc : Document}
      (h : documentInitDecode bucket bytes len flags datatype cas token = .ok doc) :
      MadeWith bucket cas token doc
  | counter (value : UInt64) : MadeWith bucket cas token (documentInitCounter bucket value cas token)
  | init : MadeWith bucket cas token (documentInit bucket cas token)

/-- The properties of such a document. -/
theorem MadeWith.properties {bucket : BucketConf} {cas : UInt64} {token : Option LcbMutationToken}
    {doc : Document} (h : MadeWith bucket cas token doc) :
    doc.cas = casEncode cas ∧ doc.token = tokenProperty bucket token := by
  cases h with
  | counter value => exact ⟨rfl, rfl⟩
  | init => exact ⟨rfl, rfl⟩
  | decode h =>
    rw [documentInitDecode] at h
    split at h
    · obtain ⟨value, -, h⟩ := C.bind_eq_ok.mp h
      obtain rfl := Except.ok.inj h
      exact ⟨rfl, rfl⟩
    · obtain rfl := Except.ok.inj h
      exact ⟨rfl, rfl⟩

/-- What the codec is for, on a number and on a text. -/
structure CodecMeets (num : UInt64) (s : Bytes) : Prop where
  /-- the encoder stays within its buffer, and no digit is left when it stops -/
  room : encodeLoop 13 num [] = .ok (base36EncodeStr num, 0)
  decode_encode : base36DecodeStr (base36EncodeStr num) = num
  encode_decode : base36Value s < 2 ^ 64 → base36EncodeStr (base36DecodeStr s) = canonicalText s
  injective : ∀ t, CanonicalText s → CanonicalText t → base36DecodeStr s = base36DecodeStr t → s = t
  /-- the CAS of a document is that of its response -/
  document : ∀ bucket token doc, MadeWith bucket num token doc → casDecode doc.cas = num
  /-- and its token is the one of the server, however it is passed on -/
  token : ∀ bucket cas mt doc t, MadeWith bucket cas mt doc → doc.token = some t →
    mt = some t.mt ∧
      mutationTokenFrom t.bucketName t.vbucketId t.vbucketUuid t.sequenceNumber = t

theorem room_eq (num : UInt64) : encodeLoop 13 num [] = .ok (base36EncodeStr num, 0) := by
  have hroom : num.toNat < 36 ^ 13 := by
    have := num.toNat_lt
    omega
  exact encodeLoop_eq (by omega) hroom []

/-- The token of a document is the valid token of its response. -/
theorem token_of_tokenProperty {bucket : BucketConf} {mt : Option LcbMutationToken} {t : MutationToken}
    (h : tokenProperty bucket mt = some t) : mt = some t.mt := by
  cases mt with
  | none => cases h
  | some mt =>
    by_cases hvalid : mt.isValid
    · rw [tokenProperty, if_pos hvalid, Option.some.injEq] at h
      rw [← h]
    · rw [tokenProperty, if_neg hvalid] at h
      cases h

/-- **The codec does what it is for exactly on the texts whose digits are all read.** -/
theorem base36_codec_iff (num : UInt64) (s : Bytes) :
    CodecMeets num s ↔ (base36Value s < 2 ^ 64 → ReadsAllDigits s) := by
  constructor
  · intro h hval
    exact (encode_decode_iff hval).mp (h.encode_decode hval)
  · intro h
    refine ⟨room_eq num, base36DecodeStr_encode num, fun hval => (encode_decode_iff hval).mpr (h hval),
      fun t hs ht heq => decode_injective hs ht heq, fun bucket token doc hdoc => ?_,
      fun bucket cas mt doc t hdoc ht => ?_⟩
    · rw [hdoc.properties.1, casDecode_casEncode]
    · rw [hdoc.properties.2] at ht
      exact ⟨token_of_tokenProperty ht, t.from_read⟩

/-- Hyphens and a one: the value is one, and with a length that is negative as an `int` it is not
read. -/
theorem hyphens_not_read {k : Nat} (hneg : narrowInt (k + 1) < 0) (num : UInt64) :
    ¬CodecMeets num (List.replicate k 45 ++ [49]) := by
  have hdigits : (List.replicate k (45 : UInt8) ++ [49]).filterMap base36Val = [1] := by
    rw [List.filterMap_append, List.filterMap_eq_nil_iff.mpr fun c hc => by
      rw [List.eq_of_mem_replicate hc]
      rfl]
    rfl
  have hval : base36Value (List.replicate k 45 ++ [49]) < 2 ^ 64 := by
    rw [base36Value, hdigits]
    decide
  have hone : (49 : UInt8) ∈ List.replicate k 45 ++ [49] := by simp
  have hlen : (List.replicate k (45 : UInt8) ++ [49]).length = k + 1 := by
    rw [List.length_append, List.length_replicate, List.length_singleton]
  intro h
  rcases (encode_decode_iff hval).mp (h.encode_decode hval) with hnone | hzero
  · rw [hlen, Int.toNat_of_nonpos (by omega), List.drop_zero] at hnone
    exact absurd (hnone 49 hone) (by decide)
  · exact absurd (hzero 49 hone 1 (by decide)) (by decide)

/-- 2^31 hyphens and a one are read as zero. -/
theorem long_text_not_read : ¬CodecMeets 0 (List.replicate (2 ^ 31) 45 ++ [49]) :=
  hyphens_not_read (by decide) 0

end PhpCouchbase
