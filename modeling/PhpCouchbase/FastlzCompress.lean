import PhpCouchbase.FastlzDecode

/-!
# A pass of the fastlz compressor

Whatever the hash table finds, the compressor (`fastlz/fastlz.c`) compares before it writes a match.

* `matchEnd_spec` — where a match ends, the text is the one `d` bytes before.
* `step_cases` — one pass copies a literal or writes one match.
* `writesMatch` — the bytes of a match are instructions that do the copy.
-/

set_option autoImplicit false

namespace PhpCouchbase

namespace Fastlz

open Lz77

/-! ## Matches -/

/-- From `a` to `b` each byte is the one `d` before it. -/
def Same (mem : Bytes) (d a b : Nat) : Prop := ∀ j, a ≤ j → j < b → mem[j]? = mem[j - d]?

variable {mem : Bytes} {d : Nat}

theorem Same.trans {a b c : Nat} (h : Same mem d a b) (h' : Same mem d b c) : Same mem d a c := by
  intro j ha hc
  by_cases hb : j < b
  · exact h j ha hb
  · exact h' j (by omega) hc

theorem Same.cons {a b : Nat} (h : mem[a]? = mem[a - d]?) (h' : Same mem d (a + 1) b) :
    Same mem d a b := by
  intro j ha hb
  rcases Nat.eq_or_lt_of_le ha with rfl | hlt
  · exact h
  · exact h' j hlt hb

theorem Same.mono {a b c : Nat} (h : Same mem d a c) (hbc : b ≤ c) : Same mem d a b :=
  fun j ha hb => h j ha (by omega)

/-- The comparison of two places `d` apart: all the same, or it broke behind the first difference.
-/
theorem compareRun_spec (mem : Bytes) : ∀ (n ip : Nat), d ≤ ip → ip + n ≤ mem.length →
    (compareRun mem n (ip - d) ip = .ok (ip + n, false) ∧ Same mem d ip (ip + n)) ∨
    ∃ r, compareRun mem n (ip - d) ip = .ok (r, true) ∧ ip < r ∧ r ≤ ip + n ∧
      Same mem d ip (r - 1)
  | 0, ip, _, _ => Or.inl ⟨rfl, fun j ha hb => by omega⟩
  | n + 1, ip, hd, hlen => by
    have hip : ip < mem.length := by omega
    have href : ip - d < mem.length := by omega
    have hnext : ip - d + 1 = ip + 1 - d := by omega
    rw [compareRun, readU8_of_lt href, C.bind_ok, readU8_of_lt hip, C.bind_ok]
    by_cases hsame : mem[ip - d] = mem[ip]
    · have hfirst : mem[ip]? = mem[ip - d]? := by
        rw [List.getElem?_eq_getElem hip, List.getElem?_eq_getElem href, hsame]
      rw [if_neg (not_not.mpr hsame), hnext]
      rcases compareRun_spec mem n (ip + 1) (by omega) (by omega) with
        ⟨hrun, hrest⟩ | ⟨r, hrun, hlt, hle, hrest⟩
      · left
        rw [hrun, show ip + 1 + n = ip + (n + 1) by omega]
        exact ⟨rfl, .cons hfirst (hrest.mono (by omega))⟩
      · right
        exact ⟨r, hrun, by omega, by omega, .cons hfirst hrest⟩
    · right
      rw [if_pos hsame]
      exact ⟨ip + 1, rfl, by omega, by omega, fun j ha hb => by omega⟩

/-- The loop for a run: everything it passed is `x`. -/
theorem runEnd_spec (mem : Bytes) (x : UInt8) : ∀ (n ref ip : Nat), ref + n ≤ mem.length →
    ∃ k, runEnd mem x n ref ip = .ok (ip + k) ∧ k ≤ n ∧
      (∀ j, ref ≤ j → j < ref + k → mem[j]? = some x) ∧
      (0 < n → mem[ref]? = some x → 0 < k)
  | 0, ref, ip, _ => ⟨0, rfl, Nat.le_refl 0, fun j ha hb => by omega, fun h => by omega⟩
  | n + 1, ref, ip, hlen => by
    have href : ref < mem.length := by omega
    rw [runEnd, readU8_of_lt href, C.bind_ok]
    by_cases hsame : mem[ref] = x
    · obtain ⟨k, hrun, hk, hall, -⟩ := runEnd_spec mem x n (ref + 1) (ip + 1) (by omega)
      rw [if_neg (not_not.mpr hsame)]
      refine ⟨k + 1, ?_, by omega, ?_, fun _ _ => by omega⟩
      · rw [hrun, show ip + 1 + k = ip + (k + 1) by omega]
      · intro j ha hb
        rcases Nat.eq_or_lt_of_le ha with rfl | hlt
        · rw [List.getElem?_eq_getElem href, hsame]
        · exact hall j hlt (by omega)
    · rw [if_pos hsame]
      refine ⟨0, rfl, by omega, fun j ha hb => by omega, fun _ h => ?_⟩
      rw [List.getElem?_eq_getElem href, Option.some.injEq] at h
      exact absurd h hsame

/-- **Where a match ends** the text is the one `d` bytes before; `r` is one behind the match. -/
theorem matchEnd_spec (mem : Bytes) {length ip : Nat} (hd : 1 ≤ d) (hip : d ≤ ip) (hlen : ip + 8 ≤ length)
    (hmem : length ≤ mem.length) :
    ∃ r, matchEnd mem (length - 2) (ip - d) ip (d - 1) = .ok r ∧ ip < r ∧ r ≤ length ∧
      Same mem d ip (r - 1) := by
  unfold matchEnd
  by_cases hrun : d - 1 = 0
  · obtain rfl : d = 1 := by omega
    have hlast : ip - 1 < mem.length := by omega
    obtain ⟨k, hend, hk, hall, hpos⟩ := runEnd_spec mem mem[ip - 1]
      (length - 2 - ip) (ip - 1) ip (by omega)
    have hfirst := hpos (by omega) (List.getElem?_eq_getElem hlast)
    refine ⟨ip + k, ?_, by omega, by omega, ?_⟩
    · rw [if_pos hrun, readU8_of_lt hlast, C.bind_ok, hend]
    · intro j ha hb
      rw [hall j (by omega) (by omega), hall (j - 1) (by omega) (by omega)]
  · rw [if_neg hrun]
    rcases compareRun_spec mem 8 ip hip (by omega) with
      ⟨height, hsame⟩ | ⟨r, height, hlt, hle, hsame⟩
    · have hnext : ip - d + 8 = ip + 8 - d := by omega
      rw [height, C.bind_ok]
      dsimp only
      rw [if_neg Bool.false_ne_true, hnext]
      rcases compareRun_spec mem (length - 2 - (ip + 8)) (ip + 8) (by omega : d ≤ ip + 8) (by omega)
        with ⟨hrest, hmore⟩ | ⟨r, hrest, hlt, hle, hmore⟩
      · rw [hrest]
        exact ⟨ip + 8 + (length - 2 - (ip + 8)), rfl, by omega, by omega,
          (hsame.trans hmore).mono (Nat.sub_le _ _)⟩
      · rw [hrest]
        exact ⟨r, rfl, by omega, by omega, hsame.trans hmore⟩
    · rw [height, C.bind_ok]
      exact ⟨r, rfl, hlt, by omega, hsame⟩

theorem readU16_ok (mem : Bytes) (p : Nat) (h : p + 1 < mem.length) : ∃ v, readU16 mem p = .ok v := by
  rw [readU16, readU8_of_lt (by omega), C.bind_ok, readU8_of_lt h]
  exact ⟨_, rfl⟩

theorem hashFunction_ok (mem : Bytes) (p : Nat) (h : p + 2 < mem.length) :
    ∃ hval, hashFunction mem p = .ok hval := by
  obtain ⟨v, hv⟩ := readU16_ok mem p (by omega)
  obtain ⟨w, hw⟩ := readU16_ok mem (p + 1) (by omega)
  rw [hashFunction, hv, C.bind_ok, hw]
  exact ⟨_, rfl⟩

/-! ## One pass -/

namespace Compressor

/-- A literal, with the byte that is read. -/
def afterLiteral (s : Compressor) (b : UInt8) : Compressor :=
  let t := { s.put [b] with ip := s.ip + 1, copy := s.copy + 1 }
  if t.copy = maxCopy then { t.put [UInt8.ofNat (maxCopy - 1)] with copy := 0 } else t

/-- A match of `n` bytes from `d` back, and what the hash table is then. -/
def afterMatch (s : Compressor) (level : Level) (d n : Nat) (htab : Fin hashSize → Nat) :
    Compressor :=
  let t := { s with out := s.adjustCopy, copy := 0 }.put (level.matchBytes (d - 1) (n - 2))
  { t.put [UInt8.ofNat (maxCopy - 1)] with ip := s.ip + n, htab := htab }

theorem literal_eq (s : Compressor) {b : UInt8} (h : readU8 mem s.ip = .ok b) :
    s.literal mem s.ip = .ok (s.afterLiteral b) := by
  rw [literal, h, C.bind_ok, afterLiteral]
  dsimp only
  split <;> rfl

end Compressor

/-- The distances of the matches that a level takes, with the least length of a far one. -/
structure Level.Takes (level : Level) (d n : Nat) : Prop where
  near : level.tooFar d = false
  long : 3 ≤ n
  far : level.isFar d = true → 5 ≤ n

/-- A match of `n` bytes from `d` back at `ip`. -/
structure IsMatch (mem : Bytes) (ip d n : Nat) : Prop where
  pos : 1 ≤ d
  back : d ≤ ip
  same : Same mem d ip (ip + n)

theorem update_lt {htab : Fin hashSize → Nat} {hval : Fin hashSize} {p bound : Nat}
    (h : ∀ k, htab k < bound) (hp : p < bound) : ∀ k, Function.update htab hval p k < bound := by
  intro k
  rw [Function.update_apply]
  split
  · exact hp
  · exact h k

/-- **The label `match`**: the bytes compared so far are a match, and so is what is written. -/
theorem emitMatch_spec (level : Level) {length d len : Nat} {s : Compressor}
    (hmatch : IsMatch mem s.ip d len) (hlen : s.ip + len + 8 ≤ length)
    (hmem : length < mem.length) (h2 : 2 ≤ len) (hhtab : ∀ k, s.htab k < s.ip + 1) :
    ∃ n htab, s.emitMatch level mem length s.ip (s.ip + len - d) len d =
        .ok (s.afterMatch level d n htab) ∧
      len ≤ n ∧ s.ip + n < length ∧ IsMatch mem s.ip d n ∧ ∀ k, htab k < s.ip + n := by
  obtain ⟨hd, hback, hsame⟩ := hmatch
  obtain ⟨r, hend, hlt, hle, hmore⟩ :=
    matchEnd_spec mem hd (by omega : d ≤ s.ip + len) hlen (by omega)
  obtain ⟨h₁, hhash₁⟩ := hashFunction_ok mem (r - 3) (by omega)
  obtain ⟨h₂, hhash₂⟩ := hashFunction_ok mem (r - 3 + 1) (by omega)
  have hn : r - 1 - s.ip - 2 = r - 3 - s.ip := by omega
  have hip : s.ip + (r - 1 - s.ip) = r - 3 + 2 := by omega
  have hr : s.ip + (r - 1 - s.ip) = r - 1 := by omega
  refine ⟨r - 1 - s.ip, Function.update (Function.update s.htab h₁ (r - 3)) h₂ (r - 3 + 1), ?_,
    by omega, by omega, ⟨hd, hback, ?_⟩, ?_⟩
  · rw [Compressor.emitMatch, hend, C.bind_ok]
    dsimp only
    rw [hhash₁, C.bind_ok, hhash₂, C.bind_ok, Compressor.afterMatch, hn, hip]
    rfl
  · rw [hr]
    exact hsame.trans hmore
  · apply update_lt
    · apply update_lt
      · intro k
        have := hhtab k
        omega
      · omega
    · omega

/-- A word is its two bytes. -/
theorem readU16_inj {p q : Nat} {v : UInt32} (h : readU16 mem p = .ok v)
    (h' : readU16 mem q = .ok v) : mem[p]? = mem[q]? ∧ mem[p + 1]? = mem[q + 1]? := by
  have hparts : ∀ {p : Nat}, readU16 mem p = .ok v → ∃ lo hi : UInt8, mem[p]? = some lo ∧
      mem[p + 1]? = some hi ∧ v.toNat = hi.toNat * 256 + lo.toNat := by
    intro p h
    obtain ⟨lo, hlo, h⟩ := C.bind_eq_ok.mp h
    obtain ⟨hi, hhi, h⟩ := C.bind_eq_ok.mp h
    have hget : ∀ {p : Nat} {b : UInt8}, readU8 mem p = .ok b → mem[p]? = some b := by
      intro p b hb
      unfold readU8 at hb
      split at hb
      · rename_i c hc
        cases hb
        exact hc
      · cases hb
    refine ⟨lo, hi, hget hlo, hget hhi, ?_⟩
    cases h
    have hlt := lo.toNat_lt
    have hlt' := hi.toNat_lt
    have hshift : (hi.toUInt32 <<< 8).toNat = hi.toNat <<< 8 := by
      rw [UInt32.toNat_shiftLeft, UInt8.toNat_toUInt32]
      show hi.toNat <<< 8 % 2 ^ 32 = _
      rw [Nat.shiftLeft_eq]
      omega
    rw [UInt32.toNat_or, hshift, UInt8.toNat_toUInt32, Nat.or_comm,
      ← Nat.shiftLeft_add_eq_or_of_lt hlt, Nat.shiftLeft_eq]
  obtain ⟨lo, hi, hlo, hhi, hv⟩ := hparts h
  obtain ⟨lo', hi', hlo', hhi', hv'⟩ := hparts h'
  have hlt := lo.toNat_lt
  have hlt' := lo'.toNat_lt
  have heqlo : lo = lo' := UInt8.toNat_inj.mp (by omega)
  have heqhi : hi = hi' := UInt8.toNat_inj.mp (by omega)
  rw [hlo, hhi, hlo', hhi', heqlo, heqhi]
  exact ⟨rfl, rfl⟩

/-- The check for a run finds a match of three bytes with the byte before. -/
theorem isRun_spec {ip : Nat} (hip : 1 ≤ ip) (hmem : ip + 2 < mem.length) :
    isRun mem ip = .ok false ∨ isRun mem ip = .ok true ∧ IsMatch mem ip 1 3 := by
  have hlt : ip < mem.length := by omega
  have hlt' : ip - 1 < mem.length := by omega
  obtain ⟨v, hv⟩ := readU16_ok mem (ip - 1) (by omega)
  obtain ⟨w, hw⟩ := readU16_ok mem (ip + 1) (by omega)
  rw [isRun, readU8_of_lt hlt, C.bind_ok, readU8_of_lt hlt', C.bind_ok]
  split
  · rename_i hfirst
    rw [hv, C.bind_ok, hw, C.bind_ok]
    by_cases heq : v = w
    · subst heq
      right
      refine ⟨by simp, Nat.le_refl 1, hip, ?_⟩
      obtain ⟨hone, htwo⟩ := readU16_inj hv hw
      rw [Nat.sub_add_cancel hip] at htwo
      have hzero : mem[ip]? = mem[ip - 1]? := by
        rw [List.getElem?_eq_getElem hlt, List.getElem?_eq_getElem hlt', hfirst]
      intro j ha hb
      rcases (by omega : j = ip ∨ j = ip + 1 ∨ j = ip + 2) with rfl | rfl | rfl
      · exact hzero
      · rw [Nat.add_sub_cancel, ← hone, hzero]
      · have hback : ip + 2 - 1 = ip + 1 := rfl
        rw [hback, ← hone]
        exact htwo.symm.trans hzero
    · left
      simp [heq]
  · exact Or.inl rfl

/-- What one pass of the main loop can do: a literal, or a match that was compared. -/
def StepsTo (level : Level) (mem : Bytes) (length : Nat) (s : Compressor) (r : C Compressor) :
    Prop :=
  (∃ b htab, mem[s.ip]? = some b ∧ r = .ok ({ s with htab := htab }.afterLiteral b) ∧
    ∀ k, htab k < s.ip + 1) ∨
  ∃ d n htab, r = .ok (s.afterMatch level d n htab) ∧ IsMatch mem s.ip d n ∧ level.Takes d n ∧
    s.ip + n < length ∧ ∀ k, htab k < s.ip + n

/-- **One pass.** -/
theorem step_cases {level : Level} {length : Nat} {s : Compressor} (hip : 1 ≤ s.ip)
    (hlen : s.ip + 12 < length) (hmem : length < mem.length) (hhtab : ∀ k, s.htab k < s.ip) :
    StepsTo level mem length s (s.step level mem length) := by
  have hlt : s.ip < mem.length := by omega
  obtain ⟨hval, hhash⟩ := hashFunction_ok mem s.ip (by omega)
  have hbound : ∀ k, Function.update s.htab hval s.ip k < s.ip + 1 :=
    update_lt (fun k => Nat.lt_succ_of_lt (hhtab k)) (Nat.lt_succ_self _)
  have hliteral : StepsTo level mem length s ((s.remember hval s.ip).literal mem s.ip) := by
    left
    refine ⟨mem[s.ip], _, List.getElem?_eq_getElem hlt, ?_, hbound⟩
    exact Compressor.literal_eq (s.remember hval s.ip) (readU8_of_lt hlt)
  -- the part behind the check for a run
  have hhashed : StepsTo level mem length s (do
      let hval ← hashFunction mem s.ip
      let ref := s.htab hval
      let distance := s.ip - ref
      let s' := s.remember hval s.ip
      if distance = 0 ∨ level.tooFar distance then s'.literal mem s.ip
      else if (← compareRun mem 3 ref s.ip).2 then s'.literal mem s.ip
      else if level.isFar distance then
        if (← compareRun mem 2 (ref + 3) (s.ip + 3)).2 then s'.literal mem s.ip
        else s'.emitMatch level mem length s.ip (ref + 5) 5 distance
      else s'.emitMatch level mem length s.ip (ref + 3) 3 distance) := by
    have hrefd : s.htab hval = s.ip - (s.ip - s.htab hval) := by
      have := hhtab hval
      omega
    rw [hhash, C.bind_ok]
    generalize hd : s.ip - s.htab hval = d at *
    dsimp only
    rw [hd]
    split
    · exact hliteral
    rename_i hnear
    rw [not_or] at hnear
    have hnearFalse : level.tooFar d = false := by simpa using hnear.2
    rw [hrefd]
    rcases compareRun_spec mem 3 s.ip (by omega : d ≤ s.ip) (by omega) with
      ⟨hthree, hsame⟩ | ⟨r, hthree, -⟩
    swap
    · rw [hthree, C.bind_ok, if_pos rfl]
      exact hliteral
    rw [hthree, C.bind_ok, if_neg Bool.false_ne_true]
    have hmatch : ∀ len, 3 ≤ len → len ≤ 5 → (level.isFar d = true → 5 ≤ len) →
        Same mem d s.ip (s.ip + len) → StepsTo level mem length s
          ((s.remember hval s.ip).emitMatch level mem length s.ip (s.ip + len - d) len d) := by
      intro len h3 h5 hfar hsame
      have hcompared : IsMatch mem (s.remember hval s.ip).ip d len :=
        ⟨by omega, by show d ≤ s.ip; omega, hsame⟩
      have hroom : (s.remember hval s.ip).ip + len + 8 ≤ length := by
        show s.ip + len + 8 ≤ length
        omega
      obtain ⟨n, htab, hemit, hn, hend, hmatch, hhtab'⟩ :=
        emitMatch_spec level hcompared hroom hmem (by omega) hbound
      right
      refine ⟨d, n, htab, ?_, hmatch, ⟨hnearFalse, by omega, fun h => ?_⟩, hend, hhtab'⟩
      · exact hemit
      · have := hfar h
        omega
    split
    · rename_i hfar
      have hfive : s.ip - d + 3 = s.ip + 3 - d := by omega
      have hfive' : s.ip - d + 5 = s.ip + 5 - d := by omega
      rw [hfive, hfive']
      rcases compareRun_spec mem 2 (s.ip + 3) (by omega : d ≤ s.ip + 3) (by omega) with
        ⟨htwo, hsame'⟩ | ⟨r, htwo, -⟩
      · rw [htwo, C.bind_ok, if_neg Bool.false_ne_true]
        exact hmatch 5 (by omega) (by omega) (fun _ => Nat.le_refl 5) (hsame.trans hsame')
      · rw [htwo, C.bind_ok, if_pos rfl]
        exact hliteral
    · rename_i hfar
      have hthree' : s.ip - d + 3 = s.ip + 3 - d := by omega
      rw [hthree']
      exact hmatch 3 (by omega) (by omega) (fun h => absurd h hfar) hsame
  unfold Compressor.step
  dsimp only
  cases level with
  | one => exact hhashed
  | two =>
    rw [if_pos rfl]
    rcases isRun_spec hip (by omega : s.ip + 2 < mem.length) with hrun | ⟨hrun, hmatch⟩
    · rw [hrun, C.bind_ok, if_neg Bool.false_ne_true]
      exact hhashed
    · obtain ⟨n, htab, hemit, hn, hend, hmatch, hhtab'⟩ := emitMatch_spec .two
        hmatch (by omega) hmem (by omega) fun k => Nat.lt_succ_of_lt (hhtab k)
      have href : s.ip - 1 + 3 = s.ip + 3 - 1 := by omega
      rw [hrun, C.bind_ok, if_pos rfl, href]
      exact Or.inr ⟨1, n, htab, hemit, hmatch, ⟨rfl, hn, nofun⟩, hend, hhtab'⟩

/-! ## The bytes of a match -/

theorem length_lenBytes (k : Nat) : (lenBytes k).length ≤ k + 1 := by
  induction k using lenBytes.induct with
  | case1 k hk ih =>
    rw [lenBytes, if_pos hk, List.length_cons]
    omega
  | case2 k hk =>
    rw [lenBytes, if_neg hk, List.length_singleton]
    omega

/-- A match is written in fewer bytes than it has. -/
theorem length_matchBytesTwo {d n : Nat} (h3 : 3 ≤ n) (hfar : 8191 ≤ d → 5 ≤ n) :
    (matchBytesTwo (d - 1) (n - 2)).length + 1 ≤ n := by
  have hmax : Level.two.maxDistance = 8191 := rfl
  have hlen := length_lenBytes (n - 2 - 7)
  unfold matchBytesTwo
  rw [hmax]
  split
  · split
    · exact h3
    · simp only [List.length_append, List.length_cons, List.length_nil]
      omega
  · have h5 := hfar (by omega)
    dsimp only
    split
    · exact h5
    · simp only [List.length_append, List.length_cons, List.length_nil]
      omega

/-- The bytes of a match are instructions that do the copy. -/
structure WritesMatch (level : Level) (d n : Nat) (ops : List (Op UInt8)) : Prop where
  bytes : level.matchBytes (d - 1) (n - 2) = level.encode ops
  shorter : (level.matchBytes (d - 1) (n - 2)).length + 1 ≤ n
  writes : ∀ op ∈ ops, level.Writes op
  fit : ∀ out : Bytes, d ≤ out.length → Fit ops out
  copies : ∀ out : Bytes, d ≤ out.length → expand ops out = copyBack d n out

theorem writesMatch_single {level : Level} {d n : Nat} (hd : 1 ≤ d)
    (hshorter : (level.matchBytes (d - 1) (n - 2)).length + 1 ≤ n)
    (hwrites : level.Writes (.copy d n)) : WritesMatch level d n [.copy d n] where
  bytes := by rw [encode_cons, encode_nil, List.append_nil]; rfl
  shorter := hshorter
  writes := by simpa using hwrites
  fit out hlen := ⟨⟨hd, hlen, Nat.le_trans (by decide) hwrites.1⟩, trivial⟩
  copies out _ := rfl

/-- Level 1 cuts a long match into copies of 262 bytes. -/
theorem writesMatch_one {d : Nat} (hd : 1 ≤ d) (hdist : d < Level.one.maxDistance) (n : Nat)
    (h3 : 3 ≤ n) : ∃ ops, WritesMatch .one d n ops := by
  have hdist : d < 8192 := hdist
  have hmax : maxLen - 2 = 262 := rfl
  induction n using Nat.strongRecOn with
  | ind n ih =>
    by_cases hlong : 262 < n - 2
    · obtain ⟨ops, hops⟩ := ih (n - 262) (by omega) (by omega)
      have hfull : Level.one.encodeOp (.copy d 262) = [UInt8.ofNat (7 <<< 5 + (d - 1) >>> 8),
          UInt8.ofNat (maxLen - 2 - 7 - 2), UInt8.ofNat (d - 1 &&& 255)] := by
        show matchBytesOne (d - 1) 260 = _
        rw [matchBytesOne, if_neg (by decide), if_neg (by decide)]
        rfl
      have hcut : n - 2 - 262 = n - 262 - 2 := by omega
      have hbytes : matchBytesOne (d - 1) (n - 2) =
          Level.one.encodeOp (.copy d 262) ++ matchBytesOne (d - 1) (n - 262 - 2) := by
        rw [matchBytesOne, if_pos (by omega), hfull, hmax, hcut]
      have hrest : matchBytesOne (d - 1) (n - 262 - 2) = Level.one.encode ops := hops.bytes
      refine ⟨.copy d 262 :: ops, ?_, ?_, ?_, ?_, ?_⟩
      · rw [encode_cons, ← hrest]
        exact hbytes
      · have hshorter : (matchBytesOne (d - 1) (n - 262 - 2)).length + 1 ≤ n - 262 := hops.shorter
        show (matchBytesOne (d - 1) (n - 2)).length + 1 ≤ n
        rw [hbytes, hfull, List.length_append]
        simp only [List.length_cons, List.length_nil]
        omega
      · rw [List.forall_mem_cons]
        exact ⟨⟨by decide, Nat.le_of_lt hdist, by decide⟩, hops.writes⟩
      · intro out hlen
        refine ⟨⟨hd, hlen, by decide⟩, hops.fit _ ?_⟩
        rw [Op.apply, length_copyBack hd _ hlen]
        omega
      · intro out hlen
        have hparts := copyBack_add hd 262 (n - 262) hlen
        rw [show 262 + (n - 262) = n by omega] at hparts
        rw [expand_cons, hparts]
        apply hops.copies
        rw [Op.apply, length_copyBack hd _ hlen]
        omega
    · refine ⟨_, writesMatch_single hd ?_ ⟨h3, Nat.le_of_lt hdist, ?_⟩⟩
      · show (matchBytesOne (d - 1) (n - 2)).length + 1 ≤ n
        rw [matchBytesOne, if_neg (by omega)]
        split
        · exact h3
        · simp only [List.length_cons, List.length_nil]
          omega
      · show n ≤ 264
        omega

/-- **Every match that is taken is written.** -/
theorem writesMatch {level : Level} {d n : Nat} (hd : 1 ≤ d) (htakes : level.Takes d n)
    (hn : n < 2 ^ 32) : ∃ ops, WritesMatch level d n ops := by
  cases level with
  | one => exact writesMatch_one hd (by simpa [Level.tooFar] using htakes.near) n htakes.long
  | two =>
    have hdist : d < maxFarDistance := by simpa [Level.tooFar] using htakes.near
    have hfar : 8191 ≤ d → 5 ≤ n := fun h => htakes.far (decide_eq_true h)
    exact ⟨_, writesMatch_single hd (length_matchBytesTwo htakes.long hfar)
      ⟨htakes.long, hdist, hn⟩⟩

end Fastlz

end PhpCouchbase
