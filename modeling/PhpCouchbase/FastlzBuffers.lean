import PhpCouchbase.FastlzRoundTrip
import Mathlib.Data.List.Nodup

/-!
# The output buffers of fastlz

The compressor (`fastlz/fastlz.c`) writes to its buffer as it goes, and `couchbase.c` allocates the
buffer: a place for the count of each run is written before it is known to be needed.

* `compress_distinct` — a text without a repeated byte is the worst case, to the byte.
* `encoder_buffer_room` — the buffer of the encoder always has room.
* `fastlzCompress_room_iff` — the buffer of the PHP function has room for every text of a length
  exactly for some lengths.
-/

set_option autoImplicit false

namespace PhpCouchbase

namespace Fastlz

variable {level : Level} {mem : Bytes} {length : Nat}

/-! ## Texts without a match -/

/-- Only literals so far. -/
structure Plain (s : Compressor) : Prop where
  copy : s.copy = s.ip % maxCopy
  out : s.out.length = s.ip + 1 + s.ip / maxCopy
  high : s.high = s.out.length
  behind : ∀ k, s.htab k < s.ip

theorem Plain.literal {s : Compressor} (h : Plain s) (b : UInt8) {htab : Fin hashSize → Nat}
    (hhtab : ∀ k, htab k < s.ip + 1) : Plain ({ s with htab := htab }.afterLiteral b) := by
  obtain ⟨hcopy, hout, hhigh, -⟩ := h
  have hcopy : s.copy = s.ip % 32 := hcopy
  have hout : s.out.length = s.ip + 1 + s.ip / 32 := hout
  by_cases hfull : s.copy + 1 = maxCopy
  · have hcount : s.copy + 1 = 32 := hfull
    rw [afterLiteral_full (s := { s with htab := htab }) b hfull]
    refine ⟨?_, ?_, ?_, hhtab⟩
    · show 0 = (s.ip + 1) % 32
      omega
    · simp only [put_out, List.length_append, List.length_singleton]
      show s.out.length + 1 + 1 = s.ip + 1 + 1 + (s.ip + 1) / 32
      omega
    · simp only [put_out, put_high, List.length_append, List.length_singleton]
      omega
  · have hcount : s.copy + 1 ≠ 32 := hfull
    rw [afterLiteral_few (s := { s with htab := htab }) b hfull]
    refine ⟨?_, ?_, ?_, hhtab⟩
    · show s.copy + 1 = (s.ip + 1) % 32
      omega
    · simp only [put_out, List.length_append, List.length_singleton]
      show s.out.length + 1 = s.ip + 1 + 1 + (s.ip + 1) / 32
      omega
    · simp only [put_out, put_high, List.length_append, List.length_singleton]
      omega

/-- A match is a byte that is there twice. -/
theorem not_isMatch (hdistinct : (mem.take length).Nodup) (hmem : length ≤ mem.length) {ip d n : Nat}
    (h3 : 3 ≤ n) (hend : ip + n < length) : ¬ IsMatch mem ip d n := by
  rintro ⟨hd, hback, hsame⟩
  have hlen : (mem.take length).length = length := List.length_take_of_le hmem
  have htwice := List.nodup_iff_getElem?_ne_getElem?.mp hdistinct (ip - d) ip (by omega) (by omega)
  rw [List.getElem?_take_of_lt (by omega), List.getElem?_take_of_lt (by omega)] at htwice
  exact htwice (hsame ip (Nat.le_refl _) (by omega)).symm

theorem mainLoop_plain (level : Level) (hdistinct : (mem.take length).Nodup)
    (hmem : length < mem.length) : ∀ (fuel : Nat) {s s' : Compressor}, 1 ≤ s.ip →
      s.ip ≤ length → Plain s → mainLoop level mem length fuel s = .ok s' →
      Plain s' ∧ s'.ip ≤ length
  | 0, s, s', _, hinside, h, hloop => by
    cases hloop
    exact ⟨h, hinside⟩
  | fuel + 1, s, s', hip, hinside, h, hloop => by
    rw [mainLoop] at hloop
    split at hloop
    · rename_i hlen
      obtain ⟨t, hstep, hloop⟩ := C.bind_eq_ok.mp hloop
      have hcases : StepsTo level mem length s _ := step_cases hip hlen hmem h.behind
      rcases hcases with
        ⟨b, htab, -, hstep', hhtab⟩ | ⟨d, n, htab, -, hmatch, htakes, hend, -⟩
      · rw [hstep] at hstep'
        cases hstep'
        apply mainLoop_plain level hdistinct hmem fuel _ _ (h.literal b hhtab) hloop
        · rw [afterLiteral_ip]
          exact Nat.le_add_left _ _
        · rw [afterLiteral_ip]
          show s.ip + 1 ≤ length
          omega
      · exact absurd hmatch (not_isMatch hdistinct (Nat.le_of_lt hmem) htakes.long hend)
    · cases hloop
      exact ⟨h, hinside⟩

theorem leftOver_plain : ∀ (n : Nat) {s s' : Compressor}, Plain s →
    leftOver mem n s = .ok s' → Plain s' ∧ s'.ip = s.ip + n
  | 0, s, s', h, hleft => by
    cases hleft
    exact ⟨h, rfl⟩
  | n + 1, s, s', h, hleft => by
    obtain ⟨t, ht, hleft⟩ := C.bind_eq_ok.mp hleft
    obtain ⟨b, hb, -⟩ := C.bind_eq_ok.mp ht
    rw [s.literal_eq hb] at ht
    cases ht
    obtain ⟨h', hip⟩ := leftOver_plain n
      (h.literal b fun k => Nat.lt_succ_of_lt (h.behind k)) hleft
    refine ⟨h', ?_⟩
    rw [hip, afterLiteral_ip]
    show s.ip + 1 + n = s.ip + (n + 1)
    omega

/-- **The worst case**: with no byte twice, the compressor needs a byte for each 32 and one more. -/
theorem compress_distinct {data : Bytes} (hdistinct : data.Nodup) (hne : data ≠ [])
    (hmax : data.length < 2 ^ 31) (b : UInt8) (after : Bytes) :
    ∃ w, compress (data ++ b :: after) data.length = .ok w ∧
      w.high = data.length + 1 + data.length / maxCopy := by
  have hpos := List.length_pos_iff.mpr hne
  have hmem : data.length < (data ++ b :: after).length := by
    rw [List.length_append, List.length_cons]
    omega
  by_cases h4 : data.length < 4
  · refine ⟨_, compressor_short _ hpos h4 (Nat.le_of_lt hmem), ?_⟩
    show data.length + 1 = data.length + 1 + data.length / 32
    omega
  · obtain ⟨w, hw, -⟩ := compress_says hne hmax b after
    refine ⟨w, hw, ?_⟩
    rw [compress, compressor, if_neg h4] at hw
    obtain ⟨b0, -, hw⟩ := C.bind_eq_ok.mp hw
    obtain ⟨b1, -, hw⟩ := C.bind_eq_ok.mp hw
    obtain ⟨s, hloop, hw⟩ := C.bind_eq_ok.mp hw
    obtain ⟨s', hleft, hw⟩ := C.bind_eq_ok.mp hw
    have hstart : Plain (.start b0 b1) :=
      ⟨rfl, (by decide : 3 = 2 + 1 + 2 / maxCopy), rfl, fun _ => Nat.zero_lt_two⟩
    have hdistinct' : ((data ++ b :: after).take data.length).Nodup := by
      rwa [List.take_left]
    have hinside : (Compressor.start b0 b1).ip ≤ data.length := by
      show 2 ≤ data.length
      omega
    obtain ⟨hplain, hle⟩ :=
      mainLoop_plain _ hdistinct' hmem _ (Nat.le_succ 1) hinside hstart hloop
    obtain ⟨hplain', hip⟩ := leftOver_plain _ hplain hleft
    have hend : s'.ip = data.length := by omega
    cases hw
    show s'.high = _
    rw [hplain'.high, hplain'.out, hend]

end Fastlz

/-! ## The sizes of the buffers -/

open Fastlz

/-- The compressor stays in the buffer of a site behind the header, whatever the text of `n` bytes
is, and the site has room for its terminator. -/
def CompressSite.HasRoom (bound : UInt64 → UInt64) (site : CompressSite) (n : Nat) : Prop :=
  ∀ (data : Bytes) (w : Written), data.length = n →
    compress (data ++ [0]) data.length = .ok w →
      4 + w.high + site.terminator ≤ (site.allocated bound (UInt64.ofNat n)).toNat

variable (bound : UInt64 → UInt64)

/-- What the compressor touches, for every text. -/
theorem compress_high {data : Bytes} {w : Written} (hmax : data.length < 2 ^ 31)
    (hw : compress (data ++ [0]) data.length = .ok w) :
    w.high ≤ data.length + 1 + data.length / 32 := by
  by_cases hne : data = []
  · subst hne
    cases hw
    exact Nat.zero_le _
  · obtain ⟨w', hw', -, -, hroom⟩ := compress_says hne hmax 0 []
    rw [hw] at hw'
    cases hw'
    exact hroom

/-- The sizes of the fastlz sites do not depend on the bound of zlib. -/
theorem allocated_fastlz {n : Nat} (hmax : n < 2 ^ 31) :
    (CompressSite.encoderFastlz.allocated bound (UInt64.ofNat n)).toNat =
      4 + max (n + n / 20) 66 + 1 ∧
    (CompressSite.fastlzCompress.allocated bound (UInt64.ofNat n)).toNat = 4 + (n + n / 20) := by
  have hn : (UInt64.ofNat n).toNat = n := by
    rw [UInt64.toNat_ofNat']
    exact Nat.mod_eq_of_lt (by omega)
  have hlt : (UInt64.ofNat n).toNat < 2 ^ 32 := by omega
  have hencoder := allocated_toNat zlibBound zlibBound_modest .encoderFastlz hlt
  have hfunction := allocated_toNat zlibBound zlibBound_modest .fastlzCompress hlt
  unfold CompressSite.exactSize at hencoder hfunction
  rw [hn] at hencoder hfunction
  exact ⟨hencoder, hfunction⟩

/-- **The buffer of the encoder** has room for every text. -/
theorem encoder_buffer_room {n : Nat} (hmax : n < 2 ^ 31) :
    CompressSite.encoderFastlz.HasRoom bound n := by
  rintro data w rfl hw
  have hhigh := compress_high hmax hw
  have hroom := room_le data.length
  rw [(allocated_fastlz bound hmax).1]
  show 4 + w.high + 1 ≤ _
  omega

/-- 63 bytes, the longest text for which the minimum of 66 counts. -/
theorem encoder_buffer_room_63 : CompressSite.encoderFastlz.HasRoom zlibBound 63 :=
  encoder_buffer_room zlibBound (by decide)

/-- Texts of up to 256 bytes need not repeat one. -/
theorem exists_distinct {n : Nat} (h : n ≤ 256) : ∃ data : Bytes, data.length = n ∧ data.Nodup := by
  refine ⟨(List.range n).map UInt8.ofNat, by simp, ?_⟩
  apply List.Nodup.map_on _ List.nodup_range
  intro i hi j hj heq
  rw [List.mem_range] at hi hj
  have hval := congrArg UInt8.toNat heq
  rw [UInt8.toNat_ofNat_of_lt' (show i < 256 by omega),
    UInt8.toNat_ofNat_of_lt' (show j < 256 by omega)] at hval
  exact hval

/-- **The buffer of the PHP function** has no minimum: it has room for the texts of a length exactly
when 5 % are a byte for each 32 and one more. -/
theorem fastlzCompress_room_iff {n : Nat} (hmax : n < 2 ^ 31) :
    CompressSite.fastlzCompress.HasRoom bound n ↔ n = 0 ∨ (20 ≤ n ∧ n ≤ 31) ∨ 40 ≤ n := by
  have hsize := (allocated_fastlz bound hmax).2
  constructor
  · intro h
    by_contra hnot
    obtain ⟨data, hlen, hdistinct⟩ := exists_distinct (by omega : n ≤ 256)
    have hne : data ≠ [] := by
      rintro rfl
      rw [List.length_nil] at hlen
      omega
    obtain ⟨w, hw, hhigh⟩ := compress_distinct hdistinct hne (by omega) 0 []
    have hroom := h data w hlen hw
    have hhigh : w.high = data.length + 1 + data.length / 32 := hhigh
    rw [hsize] at hroom
    change 4 + w.high + 0 ≤ _ at hroom
    omega
  · rintro h data w rfl hw
    rw [hsize]
    show 4 + w.high + 0 ≤ _
    by_cases hzero : data = []
    · subst hzero
      cases hw
      exact Nat.le_refl 4
    · have hpos := List.length_pos_iff.mpr hzero
      have hhigh := compress_high hmax hw
      omega

/-- 39 bytes are one too many, 40 are not. -/
theorem fastlzCompress_room_39 : ¬ CompressSite.fastlzCompress.HasRoom zlibBound 39 ∧
    CompressSite.fastlzCompress.HasRoom zlibBound 40 :=
  ⟨fun h => absurd ((fastlzCompress_room_iff zlibBound (by decide)).mp h) (by decide),
    (fastlzCompress_room_iff zlibBound (by decide)).mpr (by decide)⟩

/-- One byte is one too many for the PHP function. -/
example : compress ([65] ++ [0]) 1 = .ok ⟨[0, 65], 2⟩ := by decide +kernel

end PhpCouchbase
