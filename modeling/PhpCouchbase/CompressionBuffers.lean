import PhpCouchbase.DecoderReading
import PhpCouchbase.TranscoderRoundTrip

/-!
# The buffers of the compressors

Four places of `couchbase.c` compute the size of an output buffer: the two of the encoder count a
header and a terminator, `zlibCompress` forgets both, `fastlzCompress` forgets the minimum of 66
bytes.

* `CompressSite.allocated` — the four sizes, in `unsigned long` arithmetic.
* `FitsBuffer` — the size is enough for the documented worst case and does not wrap around, and the
  header can be read back.
* `fitsBuffer_iff` — exactly which input lengths these are.
* `fits_iff_writes` — a size is enough exactly when no output within the worst case is written past
  the buffer.
-/

set_option autoImplicit false

namespace PhpCouchbase

open LittleEndian

/-- The four places of the source that compress. -/
inductive CompressSite where
  | encoderZlib
  | encoderFastlz
  | zlibCompress
  | fastlzCompress
  deriving DecidableEq, Repr

namespace CompressSite

variable (bound : UInt64 → UInt64)

/-- The argument of `emalloc`; `bound` is `compressBound`. -/
def allocated (site : CompressSite) (n : UInt64) : UInt64 :=
  match site with
  | .encoderZlib => 4 + bound n + 1
  | .encoderFastlz =>
    let outputSize := n + n / 20
    4 + (if outputSize > 66 then outputSize else 66) + 1
  | .zlibCompress => bound n
  | .fastlzCompress => 4 + (n + n / 20)

/-- The same size without wrap-around. -/
def exactSize (site : CompressSite) (n : UInt64) : Nat :=
  match site with
  | .encoderZlib => 4 + (bound n).toNat + 1
  | .encoderFastlz => 4 + max (n.toNat + n.toNat / 20) 66 + 1
  | .zlibCompress => (bound n).toNat
  | .fastlzCompress => 4 + (n.toNat + n.toNat / 20)

/-- The documented worst case of the library: `compressBound`, and 5 % more than the input but at
least 66 bytes. -/
def worstCase (site : CompressSite) (n : UInt64) : Nat :=
  match site with
  | .encoderZlib | .zlibCompress => (bound n).toNat
  | .encoderFastlz | .fastlzCompress => max 66 (n.toNat + (n.toNat + 19) / 20)

/-- The encoder writes a NUL behind the output. -/
def terminator : CompressSite → Nat
  | .encoderZlib | .encoderFastlz => 1
  | .zlibCompress | .fastlzCompress => 0

end CompressSite

variable (bound : UInt64 → UInt64)

/-- **A buffer that fits**: header, worst case and terminator have room, the size is not wrapped
around, and the header of 32 bits spells the input length. -/
structure FitsBuffer (site : CompressSite) (n : UInt64) : Prop where
  no_wrap : (site.allocated bound n).toNat = site.exactSize bound n
  room : 4 + site.worstCase bound n + site.terminator ≤ (site.allocated bound n).toNat
  header : leVal (leBytes 4 n.toNat) = n.toNat

/-- The input lengths whose buffer fits. -/
def CompressSite.Roomy (site : CompressSite) (n : Nat) : Prop :=
  match site with
  | .encoderZlib => n < 2 ^ 32
  | .encoderFastlz => n < 2 ^ 32 ∧ (20 ∣ n ∨ n ≤ 62)
  | .zlibCompress => False
  | .fastlzCompress => n < 2 ^ 32 ∧ 20 ∣ n ∧ 80 ≤ n

/-- `compressBound` is documented for every length of a `uLong`; the bound of an input that has a
header is far from the end of the type. -/
def ModestBound : Prop := ∀ n : UInt64, n.toNat < 2 ^ 32 → (bound n).toNat < 2 ^ 63

/-! ## The sizes -/

theorem header_iff (n : Nat) : leVal (leBytes 4 n) = n ↔ n < 2 ^ 32 := by
  rw [leVal_leBytes]
  omega

theorem toNat_add_of_lt {a b : UInt64} (h : a.toNat + b.toNat < 2 ^ 64) :
    (a + b).toNat = a.toNat + b.toNat := by
  rw [UInt64.toNat_add]
  exact Nat.mod_eq_of_lt h

/-- With a header of 32 bits none of the sizes wraps around. -/
theorem allocated_toNat (hbound : ModestBound bound) (site : CompressSite) {n : UInt64}
    (hn : n.toNat < 2 ^ 32) : (site.allocated bound n).toNat = site.exactSize bound n := by
  have hb := hbound n hn
  have hdiv : (n / 20).toNat = n.toNat / 20 := UInt64.toNat_div n 20
  have hsum : (n + n / 20).toNat = n.toNat + n.toNat / 20 := by
    rw [toNat_add_of_lt (by omega), hdiv]
  have h4 : (4 : UInt64).toNat = 4 := rfl
  have h1 : (1 : UInt64).toNat = 1 := rfl
  cases site with
  | encoderZlib =>
    have hhead : (4 + bound n).toNat = 4 + (bound n).toNat := by
      rw [toNat_add_of_lt (by omega), h4]
    show (4 + bound n + 1).toNat = 4 + (bound n).toNat + 1
    rw [toNat_add_of_lt (by omega), hhead, h1]
  | encoderFastlz =>
    have hmax : (if n + n / 20 > 66 then n + n / 20 else 66 : UInt64).toNat =
        max (n.toNat + n.toNat / 20) 66 := by
      have h66 : (66 : UInt64).toNat = 66 := rfl
      by_cases hgt : n + n / 20 > 66
      · have hlt := UInt64.lt_iff_toNat_lt.mp hgt
        rw [if_pos hgt, hsum]
        omega
      · have hle : ¬ (66 : UInt64).toNat < (n + n / 20).toNat :=
          fun h => hgt (UInt64.lt_iff_toNat_lt.mpr h)
        rw [if_neg hgt, h66]
        omega
    have hhead : (4 + if n + n / 20 > 66 then n + n / 20 else 66 : UInt64).toNat =
        4 + max (n.toNat + n.toNat / 20) 66 := by
      rw [toNat_add_of_lt (by omega), hmax, h4]
    show ((4 + if n + n / 20 > 66 then n + n / 20 else 66 : UInt64) + 1).toNat = _
    rw [toNat_add_of_lt (by omega), hhead, h1]
    rfl
  | zlibCompress => rfl
  | fastlzCompress =>
    show (4 + (n + n / 20)).toNat = 4 + (n.toNat + n.toNat / 20)
    rw [toNat_add_of_lt (by omega), hsum, h4]

/-- **Room in the exact size** for a worst case, by site. -/
theorem room_iff (site : CompressSite) {n : UInt64} (hn : n.toNat < 2 ^ 32) :
    4 + site.worstCase bound n + site.terminator ≤ site.exactSize bound n ↔
      site.Roomy n.toNat := by
  unfold CompressSite.worstCase CompressSite.terminator CompressSite.exactSize CompressSite.Roomy
  cases site with
  | encoderZlib =>
    dsimp only
    omega
  | encoderFastlz =>
    dsimp only
    omega
  | zlibCompress =>
    dsimp only
    rw [iff_false]
    omega
  | fastlzCompress =>
    dsimp only
    omega

/-- **The buffer fits** exactly for these input lengths. -/
theorem fitsBuffer_iff (hbound : ModestBound bound) (site : CompressSite) (n : UInt64) :
    FitsBuffer bound site n ↔ site.Roomy n.toNat := by
  constructor
  · rintro ⟨hwrap, hroom, hheader⟩
    rw [hwrap] at hroom
    exact (room_iff bound site ((header_iff n.toNat).mp hheader)).mp hroom
  · intro h
    have hn : n.toNat < 2 ^ 32 := by
      cases site with
      | encoderZlib => exact h
      | encoderFastlz => exact h.1
      | zlibCompress => exact h.elim
      | fastlzCompress => exact h.1
    have hwrap := allocated_toNat bound hbound site hn
    have hroom := (room_iff bound site hn).mpr h
    rw [← hwrap] at hroom
    exact ⟨hwrap, hroom, (header_iff n.toNat).mpr hn⟩

/-! ## Writing -/

/-- A site fills its buffer: the header, the output behind it and the terminator. -/
def CompressSite.write (site : CompressSite) (n : UInt64) (out : Bytes) : C Bytes :=
  if 4 + out.length + site.terminator ≤ (site.allocated bound n).toNat then
    .ok (leBytes 4 n.toNat ++ out)
  else .error .outOfBounds

/-- **Room for the worst case** is room for every output that the library documents. -/
theorem fits_iff_writes (site : CompressSite) (n : UInt64) :
    4 + site.worstCase bound n + site.terminator ≤ (site.allocated bound n).toNat ↔
      ∀ out : Bytes, out.length ≤ site.worstCase bound n →
        site.write bound n out = .ok (leBytes 4 n.toNat ++ out) := by
  constructor
  · intro h out hout
    exact if_pos (by omega)
  · intro h
    have hworst := h (List.replicate (site.worstCase bound n) 0) (by simp)
    unfold CompressSite.write at hworst
    by_contra hnot
    rw [if_neg (by simpa using hnot)] at hworst
    cases hworst

variable (env : Env)

/-- `zlibCompress`.  The answer of `compress` is not looked at: `leftover` is what a failure leaves
in the buffer. -/
def zlibCompress (leftover : Bytes) (zdata : Zval) : C CallResult :=
  if env.haveZlib then do
    let dataIn ← zdata.strval
    let out := (env.zlibCompress dataIn).getD leftover
    return .returned (.string (← CompressSite.zlibCompress.write bound
      (UInt64.ofNat dataIn.length) out))
  else .ok .threw

/-- `fastlzCompress`; the length is declared `int`, and so is the answer. -/
def fastlzCompress (zdata : Zval) : C CallResult := do
  let dataIn ← zdata.strval
  let input ← prefixOf dataIn (narrowInt dataIn.length)
  let output := env.fastlzCompress input
  let output ← prefixOf output (narrowInt output.length)
  return .returned (.string (← CompressSite.fastlzCompress.write bound
    (UInt64.ofNat dataIn.length) output))

/-- The place of the encoder for a compression. -/
def encoderSite (cmprflags : UInt32) : CompressSite :=
  if cmprflags = Flags.compressionZlib then .encoderZlib else .encoderFastlz

/-- The compressed form that the encoder computes is what it writes, where the buffer has room. -/
theorem write_of_compressPayload {cmprtype : Int} {data packed : Bytes} {cmprflags : UInt32}
    (h : compressPayload env cmprtype data = .ok (some (packed, cmprflags)))
    (hlen : data.length < 2 ^ 64)
    (hfits : FitsBuffer bound (encoderSite cmprflags) (UInt64.ofNat data.length))
    (hout : packed.length ≤ 4 + (encoderSite cmprflags).worstCase bound
      (UInt64.ofNat data.length)) :
    (encoderSite cmprflags).write bound (UInt64.ofNat data.length) (packed.drop 4) =
      .ok packed := by
  have hn : (UInt64.ofNat data.length).toNat = data.length := by
    rw [UInt64.toNat_ofNat']
    exact Nat.mod_eq_of_lt hlen
  have hhead : ∃ out, packed = leBytes 4 data.length ++ out := by
    rcases compressPayload_eq_some env h with ⟨-, -, out, -, hpacked⟩ | ⟨-, -, out, -, -, hpacked⟩
    · exact ⟨out, hpacked⟩
    · exact ⟨out, hpacked⟩
  obtain ⟨out, rfl⟩ := hhead
  have hdrop : (leBytes 4 data.length ++ out).drop 4 = out :=
    List.drop_left' (length_leBytes 4 data.length)
  rw [List.length_append, length_leBytes] at hout
  rw [hdrop, (fits_iff_writes bound _ _).mp hfits.room out (by omega), hn]

/-- `compressBound` of zlib. -/
def zlibBound (n : UInt64) : UInt64 := n + (n >>> 12) + (n >>> 14) + (n >>> 25) + 13

theorem zlibBound_modest : ModestBound zlibBound := by
  intro n hn
  have h12 : (n >>> 12).toNat = n.toNat / 2 ^ 12 := by
    rw [UInt64.toNat_shiftRight, Nat.shiftRight_eq_div_pow]
    rfl
  have h14 : (n >>> 14).toNat = n.toNat / 2 ^ 14 := by
    rw [UInt64.toNat_shiftRight, Nat.shiftRight_eq_div_pow]
    rfl
  have h25 : (n >>> 25).toNat = n.toNat / 2 ^ 25 := by
    rw [UInt64.toNat_shiftRight, Nat.shiftRight_eq_div_pow]
    rfl
  have hle12 := Nat.div_le_self n.toNat (2 ^ 12)
  have hle14 := Nat.div_le_self n.toNat (2 ^ 14)
  have hle25 := Nat.div_le_self n.toNat (2 ^ 25)
  have h13 : (13 : UInt64).toNat = 13 := rfl
  have hsum12 : (n + n >>> 12).toNat = n.toNat + n.toNat / 2 ^ 12 := by
    rw [toNat_add_of_lt (by omega), h12]
  have hsum14 : (n + n >>> 12 + n >>> 14).toNat =
      n.toNat + n.toNat / 2 ^ 12 + n.toNat / 2 ^ 14 := by
    rw [toNat_add_of_lt (by omega), hsum12, h14]
  have hsum25 : (n + n >>> 12 + n >>> 14 + n >>> 25).toNat =
      n.toNat + n.toNat / 2 ^ 12 + n.toNat / 2 ^ 14 + n.toNat / 2 ^ 25 := by
    rw [toNat_add_of_lt (by omega), hsum14, h25]
  unfold zlibBound
  rw [toNat_add_of_lt (by omega), hsum25, h13]
  omega

/-- The encoder has room for 1000 bytes with fastlz. -/
theorem encoder_fits_thousand : FitsBuffer zlibBound .encoderFastlz 1000 :=
  (fitsBuffer_iff zlibBound zlibBound_modest .encoderFastlz 1000).mpr
    ⟨by decide, Or.inl (by decide)⟩

/-- **Buffers that are too small**: 63 bytes with fastlz in the encoder (one byte), any input of
`zlibCompress` (the header), one byte in `fastlzCompress` (the minimum). -/
theorem buffers_too_small :
    ModestBound zlibBound ∧ ¬ FitsBuffer zlibBound .encoderFastlz 63 ∧
      ¬ FitsBuffer zlibBound .zlibCompress 100 ∧ ¬ FitsBuffer zlibBound .fastlzCompress 1 := by
  refine ⟨zlibBound_modest, ?_, ?_, ?_⟩
  · rintro ⟨-, hroom, -⟩
    exact absurd hroom (by decide)
  · rintro ⟨-, hroom, -⟩
    exact absurd hroom (by decide)
  · rintro ⟨-, hroom, -⟩
    exact absurd hroom (by decide)

end PhpCouchbase
