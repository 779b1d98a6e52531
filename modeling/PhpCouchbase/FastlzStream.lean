import PhpCouchbase.Fastlz
import PhpCouchbase.Lib.Lz77

/-!
# The fastlz format

Both levels of `fastlz/fastlz.c` write runs of at most 32 literals and copies; they differ in the
distances and in how a long copy is written.

* `Level.Writes`, `Level.encode` — the instructions of a level, and their bytes.
* `readMatch_copy` — the operands of a copy are read back.
-/

set_option autoImplicit false

namespace PhpCouchbase

namespace Fastlz

open Lz77

/-! ## Instructions -/

/-- What a level can write. -/
def Level.Writes (level : Level) : Op UInt8 → Prop
  | .run elems => elems.length ≤ maxCopy
  | .copy d n =>
    3 ≤ n ∧
      match level with
      | .one => d ≤ Level.one.maxDistance ∧ n ≤ maxLen
      | .two => d < maxFarDistance ∧ n < 2 ^ 32

/-- The bytes of an instruction. -/
def Level.encodeOp (level : Level) : Op UInt8 → Bytes
  | .run elems => UInt8.ofNat (elems.length - 1) :: elems
  | .copy d n => level.matchBytes (d - 1) (n - 2)

def Level.encode (level : Level) (ops : List (Op UInt8)) : Bytes := ops.flatMap level.encodeOp

@[simp] theorem encode_nil (level : Level) : level.encode [] = [] := rfl

@[simp] theorem encode_cons (level : Level) (op : Op UInt8) (ops : List (Op UInt8)) :
    level.encode (op :: ops) = level.encodeOp op ++ level.encode ops := List.flatMap_cons

theorem encode_append (level : Level) (ops rest : List (Op UInt8)) :
    level.encode (ops ++ rest) = level.encode ops ++ level.encode rest := List.flatMap_append

/-! ## Bytes of a match -/

/-- Three bits of length and five bits of distance. -/
theorem ctrl_parts {l q : Nat} (hl : l < 8) (hq : q < 32) :
    (UInt8.ofNat (l <<< 5 + q)).toNat >>> 5 = l ∧ (UInt8.ofNat (l <<< 5 + q)).toNat &&& 31 = q ∧
      (UInt8.ofNat (l <<< 5 + q)).toNat = l * 32 + q := by
  have hval : (UInt8.ofNat (l <<< 5 + q)).toNat = l * 32 + q := by
    rw [Nat.shiftLeft_eq]
    exact UInt8.toNat_ofNat_of_lt' (show l * 2 ^ 5 + q < 256 by omega)
  refine ⟨?_, ?_, hval⟩
  · rw [hval, Nat.shiftRight_eq_div_pow]
    omega
  · rw [hval, show 31 = 2 ^ 5 - 1 from rfl, Nat.and_two_pow_sub_one_eq_mod]
    omega

/-- The low byte of a number. -/
theorem low_byte (n : Nat) : (UInt8.ofNat (n &&& 255)).toNat = n % 256 := by
  rw [show 255 = 2 ^ 8 - 1 from rfl, Nat.and_two_pow_sub_one_eq_mod, UInt8.toNat_ofNat']
  omega

theorem high_low (n : Nat) : (n >>> 8) <<< 8 + n % 256 = n := by
  rw [Nat.shiftRight_eq_div_pow, Nat.shiftLeft_eq]
  omega

@[simp] theorem next_cons (b : UInt8) (rest : Bytes) (left : Int) :
    Input.next ⟨b :: rest, left⟩ = .ok (b, ⟨rest, left - 1⟩) := rfl

@[simp] theorem next_nil (left : Int) : Input.next ⟨[], left⟩ = .error .outOfBounds := rfl

/-- The bytes of a length, read back. -/
theorem longLen_lenBytes (k : Nat) : ∀ (len : Nat) (tail : Bytes) (left : Int), len + k < 2 ^ 32 →
    longLen len (lenBytes k ++ tail) left =
      .ok (len + k, ⟨tail, left - (lenBytes k).length⟩) := by
  induction k using lenBytes.induct with
  | case1 k hk ih =>
    intro len tail left hlen
    have h255 : (255 : UInt8).toNat = 255 := rfl
    have hsum : len + 255 + (k - 255) = len + k := by omega
    have hleft : left - 1 - (lenBytes (k - 255)).length =
        left - ((255 :: lenBytes (k - 255)).length : Nat) := by
      rw [List.length_cons]
      push_cast
      ring
    rw [lenBytes, if_pos hk, List.cons_append, longLen]
    simp only [if_true, h255]
    rw [Nat.mod_eq_of_lt (by omega), ih _ _ _ (by omega), hsum, hleft]
  | case2 k hk =>
    intro len tail left hlen
    have hne : UInt8.ofNat k ≠ 255 := by
      intro h
      have hval := congrArg UInt8.toNat h
      rw [UInt8.toNat_ofNat_of_lt' (show k < 256 by omega)] at hval
      exact hk (Nat.le_of_eq hval.symm)
    rw [lenBytes, if_neg hk, List.singleton_append, longLen]
    simp only [if_neg hne]
    rw [UInt8.toNat_ofNat_of_lt' (show k < 256 by omega), Nat.mod_eq_of_lt (by omega)]
    rfl

/-- The control byte `c` and the bytes behind it say a match of `n` bytes; `q` are the five bits of
the distance. -/
structure ReadsLen (level : Level) (c : UInt8) (bytes : Bytes) (q n : Nat) : Prop where
  copies : 32 ≤ c.toNat
  bits : c.toNat &&& 31 = q
  reads : ∀ (rest : Bytes) (left : Int), readLen level c.toNat ⟨bytes ++ rest, left⟩ =
    .ok (n - 3, ⟨rest, left - bytes.length⟩)

/-- The bytes of a distance are read back, behind its five high bits. -/
def ReadsBack (level : Level) (q : Nat) (bytes : Bytes) (d : Nat) : Prop :=
  ∀ (rest : Bytes) (left : Int), readBack level (q <<< 8) ⟨bytes ++ rest, left⟩ =
    .ok (d - 1, ⟨rest, left - bytes.length⟩)

/-- The operands of a match behind its control byte. -/
def Reads (level : Level) (c : UInt8) (operands : Bytes) (d n : Nat) : Prop :=
  ∀ (rest : Bytes) (left : Int), readMatch level c.toNat ⟨operands ++ rest, left⟩ =
    .ok (n - 3, d - 1, ⟨rest, left - operands.length⟩)

theorem reads_append {level : Level} {c : UInt8} {bytes back : Bytes} {q d n : Nat}
    (hlen : ReadsLen level c bytes q n) (hback : ReadsBack level q back d) :
    Reads level c (bytes ++ back) d n := by
  intro rest left
  have hleft : left - bytes.length - back.length = left - ((bytes ++ back).length : Nat) := by
    rw [List.length_append]
    push_cast
    ring
  rw [readMatch, List.append_assoc, hlen.reads, C.bind_ok]
  show readBack level ((c.toNat &&& 31) <<< 8) ⟨back ++ rest, left - bytes.length⟩ >>= _ = _
  rw [hlen.bits, hback, C.bind_ok, hleft]
  rfl

/-- A short match has its length in the control byte. -/
theorem readsLen_short (level : Level) {q n : Nat} (hq : q < 32) (h3 : 3 ≤ n) (hn : n - 2 < 7) :
    ReadsLen level (UInt8.ofNat ((n - 2) <<< 5 + q)) [] q n := by
  obtain ⟨hlen, hofs, hval⟩ := ctrl_parts (by omega : n - 2 < 8) hq
  refine ⟨by omega, hofs, fun rest left => ?_⟩
  unfold readLen
  rw [hlen, if_neg (by omega), show n - 2 - 1 = n - 3 by omega]
  simp

/-- A long match has the rest of its length behind the control byte. -/
theorem readsLen_one {q n : Nat} (hq : q < 32) (h9 : ¬ n - 2 < 7) (hn : n ≤ maxLen) :
    ReadsLen .one (UInt8.ofNat (7 <<< 5 + q)) [UInt8.ofNat (n - 2 - 7)] q n := by
  have hn : n ≤ 264 := hn
  obtain ⟨hlen, hofs, hval⟩ := ctrl_parts (by omega : 7 < 8) hq
  refine ⟨by omega, hofs, fun rest left => ?_⟩
  have hcode := UInt8.toNat_ofNat_of_lt' (show n - 2 - 7 < 256 by omega)
  rw [readLen, hlen, if_pos rfl, List.singleton_append, next_cons, C.bind_ok]
  show Except.ok (7 - 1 + (UInt8.ofNat (n - 2 - 7)).toNat, _) = _
  rw [hcode, show 7 - 1 + (n - 2 - 7) = n - 3 by omega]
  rfl

theorem readsLen_two {q n : Nat} (hq : q < 32) (h9 : ¬ n - 2 < 7) (hn : n < 2 ^ 32) :
    ReadsLen .two (UInt8.ofNat (7 <<< 5 + q)) (lenBytes (n - 2 - 7)) q n := by
  obtain ⟨hlen, hofs, hval⟩ := ctrl_parts (by omega : 7 < 8) hq
  refine ⟨by omega, hofs, fun rest left => ?_⟩
  rw [readLen, hlen, if_pos rfl]
  show longLen (7 - 1) (lenBytes (n - 2 - 7) ++ rest) left = _
  rw [longLen_lenBytes _ _ _ _ (by omega), show 7 - 1 + (n - 2 - 7) = n - 3 by omega]

/-- A near distance. -/
theorem readsBack_near (level : Level) {d : Nat} (hd : level = .two → d - 1 < 8191) :
    ReadsBack level ((d - 1) >>> 8) [UInt8.ofNat (d - 1 &&& 255)] d := by
  intro rest left
  have hnotfar : ¬ (level = .two ∧ UInt8.ofNat (d - 1 &&& 255) = 255 ∧
      (d - 1) >>> 8 <<< 8 = 31 <<< 8) := by
    rintro ⟨hlevel, hcode, hofs⟩
    have hval := congrArg UInt8.toNat hcode
    have hnear := hd hlevel
    rw [low_byte, show (255 : UInt8).toNat = 255 from rfl] at hval
    rw [Nat.shiftLeft_eq, Nat.shiftRight_eq_div_pow] at hofs
    omega
  rw [readBack, List.singleton_append, next_cons, C.bind_ok]
  simp only [if_neg hnotfar, C.pure_eq, low_byte, high_low]
  rfl

/-- A far distance: level 2 writes what is above the largest near one in 16 bits. -/
theorem readsBack_far {d : Nat} (hfar : 8191 ≤ d - 1) (hdist : d < maxFarDistance) :
    ReadsBack .two 31
      [255, UInt8.ofNat ((d - 1 - 8191) >>> 8), UInt8.ofNat ((d - 1 - 8191) &&& 255)] d := by
  have hdist : d < 73725 := hdist
  intro rest left
  have hhigh : (UInt8.ofNat ((d - 1 - 8191) >>> 8)).toNat = (d - 1 - 8191) >>> 8 := by
    apply UInt8.toNat_ofNat_of_lt'
    rw [Nat.shiftRight_eq_div_pow]
    show (d - 1 - 8191) / 2 ^ 8 < 256
    omega
  have hback : d - 1 - 8191 + Level.two.maxDistance = d - 1 := by
    show d - 1 - 8191 + 8191 = d - 1
    omega
  have hleft : left - 1 - 1 - 1 = left - 3 := by ring
  rw [readBack, List.cons_append, next_cons, C.bind_ok]
  simp only [and_self, if_true, List.cons_append, List.nil_append, next_cons, C.bind_ok, C.pure_eq,
    hhigh, low_byte, high_low, hback, hleft]
  rfl

theorem matchBytesOne_reads {d n : Nat} (hdist : d ≤ Level.one.maxDistance) (hd : 1 ≤ d)
    (h3 : 3 ≤ n) (hn : n ≤ maxLen) :
    ∃ c operands, matchBytesOne (d - 1) (n - 2) = c :: operands ∧ 32 ≤ c.toNat ∧
      Reads .one c operands d n := by
  have hdist : d ≤ 8192 := hdist
  have hcut : ¬ maxLen - 2 < n - 2 := by
    have hn : n ≤ 264 := hn
    show ¬ 264 - 2 < n - 2
    omega
  have hhigh : (d - 1) >>> 8 < 32 := by
    rw [Nat.shiftRight_eq_div_pow]
    omega
  have hback : ReadsBack .one ((d - 1) >>> 8) _ d := readsBack_near .one nofun
  rw [matchBytesOne, if_neg hcut]
  by_cases hshort : n - 2 < 7
  · have hlen := readsLen_short .one hhigh h3 hshort
    exact ⟨_, _, if_pos hshort, hlen.copies, reads_append hlen hback⟩
  · have hlen := readsLen_one hhigh hshort hn
    exact ⟨_, _, if_neg hshort, hlen.copies, reads_append hlen hback⟩

theorem matchBytesTwo_reads {d n : Nat} (hdist : d < maxFarDistance) (h3 : 3 ≤ n)
    (hn : n < 2 ^ 32) :
    ∃ c operands, matchBytesTwo (d - 1) (n - 2) = c :: operands ∧ 32 ≤ c.toNat ∧
      Reads .two c operands d n := by
  have hmax : Level.two.maxDistance = 8191 := rfl
  unfold matchBytesTwo
  rw [hmax]
  by_cases hnear : d - 1 < 8191
  · have hhigh : (d - 1) >>> 8 < 32 := by
      rw [Nat.shiftRight_eq_div_pow]
      omega
    have hback := readsBack_near .two fun _ => hnear
    rw [if_pos hnear]
    by_cases hshort : n - 2 < 7
    · have hlen := readsLen_short .two hhigh h3 hshort
      exact ⟨_, _, if_pos hshort, hlen.copies, reads_append hlen hback⟩
    · have hlen := readsLen_two hhigh hshort hn
      exact ⟨_, _, if_neg hshort, hlen.copies, reads_append hlen hback⟩
  · have hback := readsBack_far (by omega) hdist
    rw [if_neg hnear]
    by_cases hshort : n - 2 < 7
    · have hlen := readsLen_short .two (by omega : 31 < 32) h3 hshort
      exact ⟨_, _, if_pos hshort, hlen.copies, reads_append hlen hback⟩
    · have hlen := readsLen_two (by omega : 31 < 32) hshort hn
      exact ⟨_, _, if_neg hshort, hlen.copies, reads_append hlen hback⟩

/-- **The operands of a copy** are read back. -/
theorem readMatch_copy {level : Level} {d n : Nat} (hd : 1 ≤ d) (h : level.Writes (.copy d n)) :
    ∃ c operands, level.encodeOp (.copy d n) = c :: operands ∧ 32 ≤ c.toNat ∧
      Reads level c operands d n := by
  obtain ⟨h3, h⟩ := h
  cases level with
  | one => exact matchBytesOne_reads h.1 hd h3 h.2
  | two => exact matchBytesTwo_reads h.1 h3 h.2

end Fastlz

end PhpCouchbase
