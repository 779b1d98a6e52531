import PhpCouchbase.FastlzStream

/-!
# The fastlz decompressor

The loop of `fastlz/fastlz.c` that reads instructions.

* `matchPass_eq` — a copy in the output buffer is `copyBack`, whether it goes byte by byte, word by
  word or repeats one byte.
* `decompress_word_copies` — the build that copies words decompresses to the same output.
* `decompress_padded` — two NUL bytes behind any input keep the decompressor inside its buffers.
-/

set_option autoImplicit false

namespace PhpCouchbase

namespace Fastlz

open Lz77

/-! ## Copies in the output -/

theorem readU8_of_lt {mem : Bytes} {p : Nat} (h : p < mem.length) : readU8 mem p = .ok mem[p] := by
  rw [readU8, List.getElem?_eq_getElem h]

theorem copyBytes_eq {d : Nat} (hd : 1 ≤ d) : ∀ (n : Nat) {out : Bytes}, d ≤ out.length →
    copyBytes n (out.length - d) out = .ok (copyBack d n out)
  | 0, _, _ => rfl
  | n + 1, out, hlen => by
    have hlt : out.length - d < out.length := by omega
    have hnext : out.length - d + 1 = (out ++ [out[out.length - d]]).length - d := by
      rw [List.length_append, List.length_singleton]
      omega
    rw [copyBytes, readU8_of_lt hlt, C.bind_ok, hnext, copyBack_succ hd hlen]
    apply copyBytes_eq hd n
    rw [List.length_append]
    omega

/-- A word that does not reach what it writes. -/
theorem copyBack_two {d : Nat} (h2 : 2 ≤ d) {out : Bytes} (hlen : d ≤ out.length) :
    ∃ lo hi, readU8 out (out.length - d) = .ok lo ∧ readU8 out (out.length - d + 1) = .ok hi ∧
      copyBack d 2 out = out ++ [lo, hi] := by
  have hlo : out.length - d < out.length := by omega
  have hhi : out.length - d + 1 < out.length := by omega
  refine ⟨_, _, readU8_of_lt hlo, readU8_of_lt hhi, ?_⟩
  rw [copyBack_word 2 h2 hlen, List.take_add_one, List.take_add_one]
  simp [List.getElem?_eq_getElem hlo, List.getElem?_eq_getElem hhi]

theorem copyWords_eq {d : Nat} (h2 : 2 ≤ d) : ∀ (n : Nat) {out : Bytes}, d ≤ out.length →
    copyWords n (out.length - d) out = .ok (copyBack d (2 * n) out)
  | 0, _, _ => rfl
  | n + 1, out, hlen => by
    obtain ⟨lo, hi, hreadlo, hreadhi, hword⟩ := copyBack_two h2 hlen
    have hnext : out.length - d + 2 = (out ++ [lo, hi]).length - d := by
      simp only [List.length_append, List.length_cons, List.length_nil]
      omega
    have hlen' : d ≤ (out ++ [lo, hi]).length := by
      rw [List.length_append]
      omega
    rw [copyWords, hreadlo, C.bind_ok, hreadhi, C.bind_ok, hnext, copyWords_eq h2 n hlen',
      show 2 * (n + 1) = 2 + 2 * n by ring, copyBack_add (by omega) 2 (2 * n) hlen, hword]

/-- **Bytes or words**: a copy from at least two bytes back. -/
theorem copyMatch_eq (strictAlign : Bool) {d : Nat} (h2 : 2 ≤ d) (len : Nat) {out : Bytes}
    (hlen : d ≤ out.length) :
    copyMatch strictAlign (out.length - d) len out = .ok (copyBack d (3 + len) out) := by
  have hstep : ∀ (n : Nat) {o : Bytes}, d ≤ o.length →
      o.length - d + n = (copyBack d n o).length - d ∧ d ≤ (copyBack d n o).length := by
    intro n o ho
    rw [length_copyBack (by omega) n ho]
    omega
  obtain ⟨hthree, hlen3⟩ := hstep 3 hlen
  rw [copyMatch, copyBytes_eq (by omega) 3 hlen, C.bind_ok, hthree,
    copyBack_add (by omega) 3 len hlen]
  cases strictAlign with
  | true => exact copyBytes_eq (by omega) len hlen3
  | false =>
    obtain ⟨hodd, hlenOdd⟩ := hstep (len &&& 1) hlen3
    have hparts : (len &&& 1) + 2 * (len >>> 1) = len := by
      rw [Nat.and_one_is_mod, Nat.shiftRight_eq_div_pow]
      omega
    rw [if_neg Bool.false_ne_true, copyBytes_eq (by omega) _ hlen3, C.bind_ok, hodd,
      copyWords_eq h2 _ hlenOdd, ← copyBack_add (by omega) _ _ hlen3, hparts]

/-- **A run** repeats the last byte. -/
theorem copyBack_run {out : Bytes} (hne : 1 ≤ out.length) (len : Nat) :
    ∃ b, readU8 out (out.length - 1) = .ok b ∧
      out ++ [b, b, b] ++ List.replicate len b = copyBack 1 (len + 3) out := by
  have hlast : out.length - 1 < out.length := by omega
  refine ⟨_, readU8_of_lt hlast, ?_⟩
  have hsplit : out = out.dropLast ++ [out[out.length - 1]] := by
    rw [← List.getLast_eq_getElem (List.length_pos_iff.mp hne)]
    exact (List.dropLast_append_getLast _).symm
  generalize out[out.length - 1] = b at hsplit ⊢
  rw [hsplit, copyBack_one, Nat.add_comm, List.replicate_add]
  simp [List.replicate]

/-- **The copy of a match** is the same in both builds. -/
theorem copyBehind_eq (strictAlign : Bool) (len : Nat) {back : Nat} {out : Bytes}
    (hback : back + 1 ≤ out.length) :
    copyBehind strictAlign back len out = .ok (copyBack (back + 1) (len + 3) out) := by
  unfold copyBehind
  split
  · rename_i hzero
    obtain ⟨b, hread, hrun⟩ := copyBack_run (by omega : 1 ≤ out.length) len
    rw [hread, C.bind_ok, hrun, hzero]
    rfl
  · rw [Nat.sub_sub, copyMatch_eq strictAlign (by omega) len hback, Nat.add_comm 3 len]

theorem store_of_le {maxout : Int} {out : Bytes} (h : (out.length : Int) ≤ maxout) :
    store maxout out = .ok out := if_pos h

/-- What a match does: the checks, the next instruction and the output. -/
def matchEnds (maxout : Int) (len back : Nat) (ip : Input) (out : Bytes) : C Pass :=
  if maxout < out.length + len + 3 then .ok .failed
  else if out.length < back + 1 then .ok .failed
  else do
    let control ← ip.control
    return .wrote control (copyBack (back + 1) (len + 3) out)

theorem matchPass_eq (level : Level) (strictAlign : Bool) (maxout : Int) (ctrl : Nat) (ip : Input)
    (out : Bytes) :
    matchPass level strictAlign maxout ctrl ip out =
      (readMatch level ctrl ip >>= fun r => matchEnds maxout r.1 r.2.1 r.2.2 out) := by
  unfold matchPass
  congr 1
  funext r
  obtain ⟨len, back, ip⟩ := r
  unfold matchEnds
  dsimp only
  split
  · rfl
  split
  · rfl
  rename_i hroom hback
  have hlen := length_copyBack (by omega : 1 ≤ back + 1) (len + 3) (by omega : back + 1 ≤ out.length)
  have hfits : ((copyBack (back + 1) (len + 3) out).length : Int) ≤ maxout := by omega
  simp only [copyBehind_eq strictAlign len (by omega : back + 1 ≤ out.length), C.bind_ok,
    store_of_le hfits]

/-- What a run of literals does. -/
def literalEnds (maxout : Int) (ctrl : Nat) (ip : Input) (out : Bytes) : C Pass :=
  if maxout < out.length + ((ctrl + 1 : Nat) : Int) then .ok .failed
  else if ip.left < ((ctrl + 1 : Nat) : Int) then .ok .failed
  else do
    let literals ← prefixOf ip.rest ((ctrl + 1 : Nat) : Int)
    let control ← Input.control ⟨ip.rest.drop (ctrl + 1), ip.left - ((ctrl + 1 : Nat) : Int)⟩
    return .wrote control (out ++ literals)

theorem literalPass_eq (maxout : Int) (ctrl : Nat) (ip : Input) (out : Bytes) :
    literalPass maxout ctrl ip out = literalEnds maxout ctrl ip out := by
  unfold literalPass literalEnds
  dsimp only
  split
  · rfl
  split
  · rfl
  rename_i hroom hleft
  cases hliterals : prefixOf ip.rest ((ctrl + 1 : Nat) : Int) with
  | error e => rfl
  | ok literals =>
    obtain ⟨-, hlen⟩ := prefixOf_eq_ok hliterals
    rw [C.bind_ok, C.bind_ok, store_of_le]
    · rfl
    · rw [List.length_append]
      push_cast at hroom hlen ⊢
      omega

/-! ## The loop -/

/-- The loop with as many passes as it needs. -/
def run (level : Level) (strictAlign : Bool) (maxout : Int) (ctrl : Nat) (ip : Input)
    (out : Bytes) : C Bytes :=
  loop level strictAlign maxout (ip.rest.length + 1) ctrl ip out

/-- `ip'` is where `ip` comes after reading these bytes. -/
structure Input.Moves (ip : Input) (bytes : Bytes) (ip' : Input) : Prop where
  rest : ip.rest = bytes ++ ip'.rest
  left : ip'.left = ip.left - bytes.length

theorem Input.Moves.trans {ip ip' ip'' : Input} {bytes more : Bytes} (h : ip.Moves bytes ip')
    (h' : ip'.Moves more ip'') : ip.Moves (bytes ++ more) ip'' := by
  refine ⟨by rw [h.rest, h'.rest, List.append_assoc], ?_⟩
  rw [h'.left, h.left, List.length_append]
  push_cast
  ring

theorem Input.Moves.length {ip ip' : Input} {bytes : Bytes} (h : ip.Moves bytes ip') :
    ip.rest.length = bytes.length + ip'.rest.length := by
  rw [h.rest, List.length_append]

theorem next_moves {ip ip' : Input} {b : UInt8} (h : ip.next = .ok (b, ip')) :
    ip.Moves [b] ip' := by
  obtain ⟨rest, left⟩ := ip
  cases rest with
  | nil => cases h
  | cons c rest =>
    cases h
    exact ⟨rfl, rfl⟩

theorem longLen_moves {rest : Bytes} : ∀ {len : Nat} {left : Int} {r : Nat × Input},
    longLen len rest left = .ok r → ∃ bytes, Input.Moves ⟨rest, left⟩ bytes r.2 := by
  induction rest with
  | nil => intro len left r h; cases h
  | cons code rest ih =>
    intro len left r h
    rw [longLen] at h
    split at h
    · obtain ⟨bytes, hmoves⟩ := ih h
      have hfirst : Input.Moves ⟨code :: rest, left⟩ [code] ⟨rest, left - 1⟩ := ⟨rfl, rfl⟩
      exact ⟨_, hfirst.trans hmoves⟩
    · cases h
      exact ⟨[code], rfl, rfl⟩

theorem readLen_moves {level : Level} {ctrl : Nat} {ip : Input} {r : Nat × Input}
    (h : readLen level ctrl ip = .ok r) : ∃ bytes, ip.Moves bytes r.2 := by
  unfold readLen at h
  dsimp only at h
  split at h
  · cases level with
    | one =>
      obtain ⟨⟨b, ip'⟩, hnext, h⟩ := C.bind_eq_ok.mp h
      cases h
      exact ⟨_, next_moves hnext⟩
    | two => exact longLen_moves h
  · cases h
    exact ⟨[], rfl, by simp⟩

theorem readBack_moves {level : Level} {ofs : Nat} {ip : Input} {r : Nat × Input}
    (h : readBack level ofs ip = .ok r) : ∃ bytes, ip.Moves bytes r.2 := by
  obtain ⟨⟨code, ip₁⟩, hcode, h⟩ := C.bind_eq_ok.mp h
  dsimp only at h
  split at h
  · obtain ⟨⟨hi, ip₂⟩, hhi, h⟩ := C.bind_eq_ok.mp h
    obtain ⟨⟨lo, ip₃⟩, hlo, h⟩ := C.bind_eq_ok.mp h
    cases h
    exact ⟨_, ((next_moves hcode).trans (next_moves hhi)).trans (next_moves hlo)⟩
  · cases h
    exact ⟨_, next_moves hcode⟩

theorem readMatch_moves {level : Level} {ctrl : Nat} {ip : Input} {r : Nat × Nat × Input}
    (h : readMatch level ctrl ip = .ok r) : ∃ bytes, ip.Moves bytes r.2.2 := by
  obtain ⟨⟨len, ip₁⟩, hlen, h⟩ := C.bind_eq_ok.mp h
  obtain ⟨⟨back, ip₂⟩, hback, h⟩ := C.bind_eq_ok.mp h
  cases h
  obtain ⟨bytes, hmoves⟩ := readLen_moves hlen
  obtain ⟨more, hmoves'⟩ := readBack_moves hback
  exact ⟨_, hmoves.trans hmoves'⟩

/-- The next instruction is the next byte before the limit. -/
theorem control_some {ip ip' : Input} {ctrl : Nat} (h : ip.control = .ok (some (ctrl, ip'))) :
    0 < ip.left ∧ ∃ b : UInt8, b.toNat = ctrl ∧ ip.Moves [b] ip' := by
  unfold Input.control at h
  split at h
  · rename_i hleft
    obtain ⟨⟨b, ip₁⟩, hnext, h⟩ := C.bind_eq_ok.mp h
    cases h
    exact ⟨hleft, b, rfl, next_moves hnext⟩
  · cases h

/-- **What a pass does** when it does not return 0: it appends, within `maxout`, and it reads on. -/
theorem pass_wrote {level : Level} {strictAlign : Bool} {maxout : Int} {ctrl : Nat} {ip : Input}
    {out out' : Bytes} {control : Option (Nat × Input)}
    (h : pass level strictAlign maxout ctrl ip out = .ok (.wrote control out')) :
    out <+: out' ∧ out.length < out'.length ∧ (out'.length : Int) ≤ maxout ∧
      ∀ c ip', control = some (c, ip') → ip'.rest.length < ip.rest.length := by
  unfold pass at h
  split at h
  · rw [matchPass_eq] at h
    obtain ⟨⟨len, back, ip₁⟩, hread, h⟩ := C.bind_eq_ok.mp h
    obtain ⟨bytes, hmoves⟩ := readMatch_moves hread
    dsimp only at h
    unfold matchEnds at h
    split at h
    · cases h
    split at h
    · cases h
    rename_i hroom hback
    obtain ⟨control', hcontrol, h⟩ := C.bind_eq_ok.mp h
    cases h
    have hlen := length_copyBack (by omega : 1 ≤ back + 1) (len + 3) (by omega :
      back + 1 ≤ out.length)
    refine ⟨prefix_copyBack _ _ _, by omega, by omega, ?_⟩
    rintro c ip' rfl
    obtain ⟨-, b, -, hnext⟩ := control_some hcontrol
    have h₁ := hmoves.length
    have h₂ := hnext.length
    rw [List.length_singleton] at h₂
    dsimp only at h₁ h₂
    omega
  · rw [literalPass_eq] at h
    unfold literalEnds at h
    split at h
    · cases h
    split at h
    · cases h
    rename_i hroom hleft
    obtain ⟨literals, hliterals, h⟩ := C.bind_eq_ok.mp h
    obtain ⟨control', hcontrol, h⟩ := C.bind_eq_ok.mp h
    cases h
    obtain ⟨-, hlen⟩ := prefixOf_eq_ok hliterals
    refine ⟨List.prefix_append _ _, ?_, ?_, ?_⟩
    · rw [List.length_append]
      omega
    · rw [List.length_append]
      push_cast at hroom hlen ⊢
      omega
    · rintro c ip' rfl
      obtain ⟨-, b, -, hnext⟩ := control_some hcontrol
      have h₂ := hnext.length
      rw [List.length_drop, List.length_singleton] at h₂
      omega

/-- Passes enough are as good as more. -/
theorem loop_enough (level : Level) (strictAlign : Bool) (maxout : Int) : ∀ (m n ctrl : Nat)
    (ip : Input) (out : Bytes), ip.rest.length < m → ip.rest.length < n →
    loop level strictAlign maxout m ctrl ip out = loop level strictAlign maxout n ctrl ip out := by
  intro m
  induction m with
  | zero => intro n ctrl ip out hm hn; omega
  | succ m ih =>
    intro n ctrl ip out hm hn
    obtain ⟨n, rfl⟩ : ∃ k, n = k + 1 := ⟨n - 1, by omega⟩
    rw [loop, loop]
    cases hpass : pass level strictAlign maxout ctrl ip out with
    | error e => rfl
    | ok p =>
      rw [C.bind_ok, C.bind_ok]
      cases p with
      | failed => rfl
      | wrote control out' =>
        cases control with
        | none => rfl
        | some r =>
          obtain ⟨c, ip'⟩ := r
          have hlt := (pass_wrote hpass).2.2.2 c ip' rfl
          exact ih n c ip' out' (by omega) (by omega)

/-- **One pass of the loop.** -/
theorem run_eq (level : Level) (strictAlign : Bool) (maxout : Int) (ctrl : Nat) (ip : Input)
    (out : Bytes) :
    run level strictAlign maxout ctrl ip out =
      (pass level strictAlign maxout ctrl ip out >>= fun p =>
        match p with
        | .failed => .ok []
        | .wrote none out => .ok out
        | .wrote (some (ctrl, ip)) out => run level strictAlign maxout ctrl ip out) := by
  rw [run, loop]
  cases hpass : pass level strictAlign maxout ctrl ip out with
  | error e => rfl
  | ok p =>
    rw [C.bind_ok, C.bind_ok]
    cases p with
    | failed => rfl
    | wrote control out' =>
      cases control with
      | none => rfl
      | some r =>
        obtain ⟨c, ip'⟩ := r
        have hlt := (pass_wrote hpass).2.2.2 c ip' rfl
        exact loop_enough _ _ _ _ _ c ip' out' hlt (by omega)

variable {level : Level} {strictAlign : Bool} {maxout : Int}

/-! ## Both builds -/

theorem pass_build (strictAlign' : Bool) (ctrl : Nat) (ip : Input) (out : Bytes) :
    pass level strictAlign maxout ctrl ip out = pass level strictAlign' maxout ctrl ip out := by
  unfold pass
  rw [matchPass_eq, matchPass_eq]

theorem loop_build (strictAlign' : Bool) : ∀ (fuel ctrl : Nat) (ip : Input) (out : Bytes),
    loop level strictAlign maxout fuel ctrl ip out =
      loop level strictAlign' maxout fuel ctrl ip out
  | 0, _, _, _ => rfl
  | fuel + 1, ctrl, ip, out => by
    rw [loop, loop, pass_build strictAlign']
    congr 1
    funext p
    cases p with
    | failed => rfl
    | wrote control out' =>
      cases control with
      | none => rfl
      | some r => exact loop_build strictAlign' fuel r.1 r.2 out'

/-- **The build that copies words**, which is the one for 32-bit x86, decompresses every memory
alike, also where it is refused or read past its end. -/
theorem decompress_word_copies (mem : Bytes) (length maxout : Int) :
    decompress false mem length maxout = decompress true mem length maxout := by
  have hlevel : ∀ level, decompressor level false mem length maxout =
      decompressor level true mem length maxout := by
    intro level
    unfold decompressor
    congr 1
    funext r
    exact loop_build true _ _ _ _
  unfold decompress
  rw [hlevel, hlevel]

/-! ## Reading with more memory behind -/

def Input.extend (ip : Input) (after : Bytes) : Input := ⟨ip.rest ++ after, ip.left⟩

theorem next_extend (after : Bytes) {ip ip' : Input} {b : UInt8} (h : ip.next = .ok (b, ip')) :
    (ip.extend after).next = .ok (b, ip'.extend after) := by
  obtain ⟨rest, left⟩ := ip
  cases rest with
  | nil => cases h
  | cons c rest =>
    cases h
    rfl

theorem longLen_extend (after : Bytes) {rest : Bytes} : ∀ {len : Nat} {left : Int} {r : Nat × Input},
    longLen len rest left = .ok r →
      longLen len (rest ++ after) left = .ok (r.1, r.2.extend after) := by
  induction rest with
  | nil => intro len left r h; cases h
  | cons code rest ih =>
    intro len left r h
    rw [List.cons_append, longLen]
    rw [longLen] at h
    split at h
    · rename_i hcode
      rw [if_pos hcode]
      exact ih h
    · rename_i hcode
      rw [if_neg hcode]
      cases h
      rfl

theorem readLen_extend (after : Bytes) {ctrl : Nat} {ip : Input} {r : Nat × Input}
    (h : readLen level ctrl ip = .ok r) :
    readLen level ctrl (ip.extend after) = .ok (r.1, r.2.extend after) := by
  unfold readLen at h ⊢
  dsimp only at h ⊢
  split at h
  · rename_i hlong
    rw [if_pos hlong]
    cases level with
    | one =>
      obtain ⟨⟨b, ip'⟩, hnext, h⟩ := C.bind_eq_ok.mp h
      cases h
      dsimp only
      rw [next_extend after hnext]
      rfl
    | two => exact longLen_extend after h
  · rename_i hshort
    rw [if_neg hshort]
    cases h
    rfl

theorem readBack_extend (after : Bytes) {ofs : Nat} {ip : Input} {r : Nat × Input}
    (h : readBack level ofs ip = .ok r) :
    readBack level ofs (ip.extend after) = .ok (r.1, r.2.extend after) := by
  obtain ⟨⟨code, ip₁⟩, hcode, h⟩ := C.bind_eq_ok.mp h
  dsimp only at h
  rw [readBack, next_extend after hcode, C.bind_ok]
  dsimp only
  split at h
  · rename_i hfar
    obtain ⟨⟨hi, ip₂⟩, hhi, h⟩ := C.bind_eq_ok.mp h
    obtain ⟨⟨lo, ip₃⟩, hlo, h⟩ := C.bind_eq_ok.mp h
    cases h
    dsimp only at hlo ⊢
    rw [if_pos hfar, next_extend after hhi, C.bind_ok]
    dsimp only
    rw [next_extend after hlo]
    rfl
  · rename_i hnear
    rw [if_neg hnear]
    cases h
    rfl

theorem readMatch_extend (after : Bytes) {ctrl : Nat} {ip : Input} {r : Nat × Nat × Input}
    (h : readMatch level ctrl ip = .ok r) :
    readMatch level ctrl (ip.extend after) = .ok (r.1, r.2.1, r.2.2.extend after) := by
  obtain ⟨⟨len, ip₁⟩, hlen, h⟩ := C.bind_eq_ok.mp h
  obtain ⟨⟨back, ip₂⟩, hback, h⟩ := C.bind_eq_ok.mp h
  cases h
  rw [readMatch, readLen_extend after hlen, C.bind_ok]
  dsimp only at hback ⊢
  rw [readBack_extend after hback]
  rfl

theorem control_extend (after : Bytes) {ip : Input} {control : Option (Nat × Input)}
    (h : ip.control = .ok control) :
    (ip.extend after).control = .ok (control.map fun r => (r.1, r.2.extend after)) := by
  unfold Input.control at h ⊢
  split at h
  · rename_i hleft
    obtain ⟨⟨b, ip'⟩, hnext, h⟩ := C.bind_eq_ok.mp h
    cases h
    have hleft' : 0 < (ip.extend after).left := hleft
    rw [if_pos hleft', next_extend after hnext]
    rfl
  · rename_i hleft
    cases h
    have hleft' : ¬ 0 < (ip.extend after).left := hleft
    rw [if_neg hleft']
    rfl

def Pass.extend (after : Bytes) : Pass → Pass
  | .failed => .failed
  | .wrote control out => .wrote (control.map fun r => (r.1, r.2.extend after)) out

theorem pass_extend (after : Bytes) {ctrl : Nat} {ip : Input} {out : Bytes} {p : Pass}
    (h : pass level strictAlign maxout ctrl ip out = .ok p) :
    pass level strictAlign maxout ctrl (ip.extend after) out = .ok (p.extend after) := by
  unfold pass at h ⊢
  split at h
  · rename_i hcopy
    rw [if_pos hcopy]
    rw [matchPass_eq] at h ⊢
    obtain ⟨⟨len, back, ip₁⟩, hread, h⟩ := C.bind_eq_ok.mp h
    rw [readMatch_extend after hread, C.bind_ok]
    dsimp only at h ⊢
    unfold matchEnds at h ⊢
    split at h
    · rename_i hroom
      rw [if_pos hroom]
      cases h
      rfl
    rename_i hroom
    rw [if_neg hroom]
    split at h
    · rename_i hback
      rw [if_pos hback]
      cases h
      rfl
    rename_i hback
    rw [if_neg hback]
    obtain ⟨control, hcontrol, h⟩ := C.bind_eq_ok.mp h
    cases h
    rw [control_extend after hcontrol]
    rfl
  · rename_i hcopy
    rw [if_neg hcopy]
    rw [literalPass_eq] at h ⊢
    unfold literalEnds at h ⊢
    split at h
    · rename_i hroom
      rw [if_pos hroom]
      cases h
      rfl
    rename_i hroom
    rw [if_neg hroom]
    split at h
    · rename_i hleft
      have hleft' : (ip.extend after).left < ((ctrl + 1 : Nat) : Int) := hleft
      rw [if_pos hleft']
      cases h
      rfl
    rename_i hleft
    have hleft' : ¬ (ip.extend after).left < ((ctrl + 1 : Nat) : Int) := hleft
    rw [if_neg hleft']
    obtain ⟨literals, hliterals, h⟩ := C.bind_eq_ok.mp h
    obtain ⟨control, hcontrol, h⟩ := C.bind_eq_ok.mp h
    cases h
    obtain ⟨hpre, hlen⟩ := prefixOf_eq_ok hliterals
    have hle := hpre.length_le
    have hliterals' : prefixOf (ip.extend after).rest ((ctrl + 1 : Nat) : Int) = .ok literals := by
      rw [← hliterals, Input.extend,
        prefixOf_of_le (by omega) (by rw [List.length_append]; omega),
        prefixOf_of_le (by omega) (by omega), List.take_append_of_le_length (by omega)]
    have hdrop : (ip.extend after).rest.drop (ctrl + 1) = ip.rest.drop (ctrl + 1) ++ after :=
      List.drop_append_of_le_length (by omega)
    have hcontrol' := control_extend after hcontrol
    rw [Input.extend] at hcontrol'
    rw [hliterals', C.bind_ok, hdrop]
    show Input.control ⟨ip.rest.drop (ctrl + 1) ++ after, ip.left - ((ctrl + 1 : Nat) : Int)⟩ >>= _ = _
    rw [hcontrol']
    rfl

theorem run_extend (after : Bytes) : ∀ (n ctrl : Nat) (ip : Input) (out r : Bytes),
    ip.rest.length < n → run level strictAlign maxout ctrl ip out = .ok r →
      run level strictAlign maxout ctrl (ip.extend after) out = .ok r := by
  intro n
  induction n with
  | zero => intro ctrl ip out r hn h; omega
  | succ n ih =>
    intro ctrl ip out r hn h
    rw [run_eq] at h ⊢
    obtain ⟨p, hpass, h⟩ := C.bind_eq_ok.mp h
    rw [pass_extend after hpass, C.bind_ok]
    cases p with
    | failed => exact h
    | wrote control out' =>
      cases control with
      | none => exact h
      | some c =>
        have hlt := (pass_wrote hpass).2.2.2 c.1 c.2 rfl
        exact ih c.1 c.2 out' r (by omega) h

/-- **What is behind the input does not matter** where the decompressor stays inside it. -/
theorem decompress_append {mem : Bytes} {length : Int} {r : Bytes} (after : Bytes)
    (h : decompress strictAlign mem length maxout = .ok r) :
    decompress strictAlign (mem ++ after) length maxout = .ok r := by
  have hlevel : ∀ level, decompressor level strictAlign mem length maxout = .ok r →
      decompressor level strictAlign (mem ++ after) length maxout = .ok r := by
    intro level h
    obtain ⟨⟨ctrl, ip⟩, hnext, h⟩ := C.bind_eq_ok.mp h
    have hnext' := next_extend after hnext
    rw [Input.extend] at hnext'
    rw [decompressor, hnext', C.bind_ok]
    exact run_extend after _ _ ip [] r (Nat.lt_succ_self _) h
  obtain ⟨first, hfirst, h⟩ := C.bind_eq_ok.mp h
  have hread : readU8 (mem ++ after) 0 = .ok first := by
    cases mem with
    | nil => cases hfirst
    | cons b mem => exact hfirst
  rw [decompress, hread, C.bind_ok]
  dsimp only at h ⊢
  split at h
  · rename_i hone
    rw [if_pos hone]
    exact hlevel .one h
  rename_i hone
  rw [if_neg hone]
  split at h
  · rename_i htwo
    rw [if_pos htwo]
    exact hlevel .two h
  rename_i htwo
  rw [if_neg htwo]
  exact h

/-! ## Staying inside the buffers -/

theorem run_length : ∀ (n ctrl : Nat) (ip : Input) (out r : Bytes), ip.rest.length < n →
    run level strictAlign maxout ctrl ip out = .ok r → (r.length : Int) ≤ max maxout 0 := by
  intro n
  induction n with
  | zero => intro ctrl ip out r hn h; omega
  | succ n ih =>
    intro ctrl ip out r hn h
    rw [run_eq] at h
    obtain ⟨p, hpass, h⟩ := C.bind_eq_ok.mp h
    cases p with
    | failed =>
      cases h
      simp
    | wrote control out' =>
      obtain ⟨-, -, hroom, hlt⟩ := pass_wrote hpass
      cases control with
      | none =>
        cases h
        omega
      | some c => exact ih c.1 c.2 out' r (by have := hlt c.1 c.2 rfl; omega) h

/-- Two NUL bytes behind the limit. -/
def Input.Padded (ip : Input) : Prop := ∃ r : Bytes, ip.rest = r ++ [0, 0] ∧ ip.left = r.length

/-- The next byte of a padded input, which is a NUL behind the limit. -/
theorem next_padded {ip : Input} (h : ip.Padded) :
    ∃ b ip', ip.next = .ok (b, ip') ∧
      (ip'.Padded ∨ b = 0 ∧ ip'.rest = [0] ∧ ip'.left < 0) := by
  obtain ⟨rest, left⟩ := ip
  obtain ⟨r, hrest, hleft⟩ := h
  cases hrest
  cases hleft
  cases r with
  | nil => exact ⟨_, _, rfl, Or.inr ⟨rfl, rfl, by decide⟩⟩
  | cons c r => exact ⟨_, _, rfl, Or.inl ⟨r, rfl, by simp⟩⟩

/-- The long length stops at a NUL. -/
theorem longLen_padded (r : Bytes) : ∀ len : Nat,
    ∃ s : Nat × Input, longLen len (r ++ [0, 0]) r.length = .ok s ∧
      (s.2.Padded ∨ s.2.rest = [0] ∧ s.2.left < 0) := by
  induction r with
  | nil =>
    intro len
    have hleft : ((0 : Nat) : Int) - 1 < 0 := by decide
    exact ⟨_, rfl, Or.inr ⟨rfl, hleft⟩⟩
  | cons code r ih =>
    intro len
    have hleft : ((code :: r).length : Int) - 1 = r.length := by simp
    rw [List.cons_append, longLen, hleft]
    split
    · exact ih _
    · exact ⟨_, rfl, Or.inl ⟨r, rfl, rfl⟩⟩

theorem readLen_padded (level : Level) (ctrl : Nat) {ip : Input} (h : ip.Padded) :
    ∃ r, readLen level ctrl ip = .ok r ∧ (r.2.Padded ∨ r.2.rest = [0] ∧ r.2.left < 0) := by
  unfold readLen
  dsimp only
  split
  · cases level with
    | one =>
      obtain ⟨b, ip', hnext, hpadded⟩ := next_padded h
      refine ⟨(ctrl >>> 5 - 1 + b.toNat, ip'), ?_, hpadded.imp id fun h => h.2⟩
      dsimp only
      rw [hnext]
      rfl
    | two =>
      obtain ⟨r, hrest, hleft⟩ := h
      dsimp only
      rw [hrest, hleft]
      exact longLen_padded r _
  · exact ⟨_, rfl, Or.inl h⟩

/-- The last NUL. -/
theorem next_last {ip : Input} (h : ip.rest = [0] ∧ ip.left < 0) :
    ∃ ip', ip.next = .ok (0, ip') ∧ ip'.left ≤ 0 := by
  obtain ⟨rest, left⟩ := ip
  obtain ⟨hrest, hleft⟩ := h
  cases hrest
  dsimp only at hleft
  refine ⟨⟨[], left - 1⟩, rfl, ?_⟩
  show left - 1 ≤ 0
  omega

/-- A far distance begins before the limit, so three bytes of it end behind the second NUL at most.
-/
theorem readBack_padded (level : Level) (ofs : Nat) {ip : Input}
    (h : ip.Padded ∨ ip.rest = [0] ∧ ip.left < 0) :
    ∃ r, readBack level ofs ip = .ok r ∧ (r.2.Padded ∨ r.2.left ≤ 0) := by
  have hzero : ¬ (level = .two ∧ (0 : UInt8) = 255 ∧ ofs = 31 <<< 8) := by
    rintro ⟨-, h, -⟩
    exact absurd h (by decide)
  rcases h with h | h
  · obtain ⟨b, ip₁, hnext₁, h₁⟩ := next_padded h
    rw [readBack, hnext₁, C.bind_ok]
    dsimp only
    split
    · rename_i hfar
      rcases h₁ with h₁ | ⟨rfl, -⟩
      · obtain ⟨hi, ip₂, hnext₂, h₂⟩ := next_padded h₁
        rw [hnext₂, C.bind_ok]
        dsimp only
        rcases h₂ with h₂ | ⟨-, h₂⟩
        · obtain ⟨lo, ip₃, hnext₃, h₃⟩ := next_padded h₂
          rw [hnext₃]
          exact ⟨_, rfl, h₃.imp id fun h => Int.le_of_lt h.2.2⟩
        · obtain ⟨ip₃, hnext₃, h₃⟩ := next_last h₂
          rw [hnext₃]
          exact ⟨_, rfl, Or.inr h₃⟩
      · exact absurd hfar hzero
    · exact ⟨_, rfl, h₁.imp id fun h => Int.le_of_lt h.2.2⟩
  · obtain ⟨ip₁, hnext, hleft⟩ := next_last h
    rw [readBack, hnext, C.bind_ok]
    dsimp only
    rw [if_neg hzero]
    exact ⟨_, rfl, Or.inr hleft⟩

theorem readMatch_padded (level : Level) (ctrl : Nat) {ip : Input} (h : ip.Padded) :
    ∃ r, readMatch level ctrl ip = .ok r ∧ (r.2.2.Padded ∨ r.2.2.left ≤ 0) := by
  obtain ⟨⟨len, ip₁⟩, hlen, h₁⟩ := readLen_padded level ctrl h
  obtain ⟨⟨back, ip₂⟩, hback, h₂⟩ := readBack_padded level ((ctrl &&& 31) <<< 8) h₁
  refine ⟨(len, back, ip₂), ?_, h₂⟩
  rw [readMatch, hlen, C.bind_ok]
  dsimp only at hback ⊢
  rw [hback]
  rfl

theorem control_padded {ip : Input} (h : ip.Padded ∨ ip.left ≤ 0) :
    ∃ control, ip.control = .ok control ∧ ∀ c ip', control = some (c, ip') → ip'.Padded := by
  unfold Input.control
  split
  · rename_i hleft
    rcases h with h | h
    · obtain ⟨r, hrest, hlen⟩ := h
      cases r with
      | nil =>
        rw [hlen] at hleft
        exact absurd hleft (by decide)
      | cons b r =>
        obtain ⟨rest, left⟩ := ip
        cases hrest
        cases hlen
        refine ⟨_, rfl, ?_⟩
        rintro c ip' heq
        cases heq
        exact ⟨r, rfl, by simp⟩
    · omega
  · exact ⟨none, rfl, nofun⟩

/-- **A pass over padded input** stays inside it, and leaves padded input. -/
theorem pass_padded (ctrl : Nat) {ip : Input} (out : Bytes) (h : ip.Padded) :
    ∃ p, pass level strictAlign maxout ctrl ip out = .ok p ∧
      ∀ c ip' out', p = .wrote (some (c, ip')) out' → ip'.Padded := by
  unfold pass
  split
  · obtain ⟨⟨len, back, ip₁⟩, hread, hpadded⟩ := readMatch_padded level ctrl h
    rw [matchPass_eq, hread, C.bind_ok]
    dsimp only at hpadded ⊢
    unfold matchEnds
    split
    · exact ⟨_, rfl, nofun⟩
    split
    · exact ⟨_, rfl, nofun⟩
    obtain ⟨control, hcontrol, hnext⟩ := control_padded hpadded
    rw [hcontrol]
    refine ⟨_, rfl, ?_⟩
    rintro c ip' out' heq
    cases heq
    exact hnext c ip' rfl
  · rw [literalPass_eq]
    unfold literalEnds
    split
    · exact ⟨_, rfl, nofun⟩
    split
    · exact ⟨_, rfl, nofun⟩
    rename_i hleft
    obtain ⟨r, hrest, hlen⟩ := h
    have hle : ctrl + 1 ≤ r.length := by omega
    have hliterals : prefixOf ip.rest ((ctrl + 1 : Nat) : Int) = .ok _ :=
      prefixOf_of_le (by omega) (by rw [hrest, List.length_append]; omega)
    have hpadded : Input.Padded ⟨ip.rest.drop (ctrl + 1), ip.left - ((ctrl + 1 : Nat) : Int)⟩ := by
      refine ⟨r.drop (ctrl + 1), ?_, ?_⟩
      · dsimp only
        rw [hrest, List.drop_append_of_le_length hle]
      · dsimp only
        rw [hlen, List.length_drop]
        omega
    obtain ⟨control, hcontrol, hnext⟩ := control_padded (Or.inl hpadded)
    rw [hliterals, C.bind_ok, hcontrol]
    refine ⟨_, rfl, ?_⟩
    rintro c ip' out' heq
    cases heq
    exact hnext c ip' rfl

theorem run_padded : ∀ (n ctrl : Nat) (ip : Input) (out : Bytes), ip.rest.length < n →
    ip.Padded → ∃ r, run level strictAlign maxout ctrl ip out = .ok r := by
  intro n
  induction n with
  | zero => intro ctrl ip out hn h; omega
  | succ n ih =>
    intro ctrl ip out hn h
    obtain ⟨p, hpass, hnext⟩ := pass_padded ctrl out h
    rw [run_eq, hpass, C.bind_ok]
    cases p with
    | failed => exact ⟨_, rfl⟩
    | wrote control out' =>
      cases control with
      | none => exact ⟨_, rfl⟩
      | some c =>
        have hlt := (pass_wrote hpass).2.2.2 c.1 c.2 rfl
        exact ih c.1 c.2 out' (by omega) (hnext c.1 c.2 out' rfl)

theorem decompressor_length {mem : Bytes} {length : Int} {r : Bytes}
    (h : decompressor level strictAlign mem length maxout = .ok r) :
    (r.length : Int) ≤ max maxout 0 := by
  obtain ⟨⟨ctrl, ip⟩, -, h⟩ := C.bind_eq_ok.mp h
  exact run_length _ _ ip [] r (Nat.lt_succ_self _) h

/-- **The output buffer is kept**: nothing is written past `maxout`. -/
theorem decompress_length {mem : Bytes} {length : Int} {r : Bytes}
    (h : decompress strictAlign mem length maxout = .ok r) : (r.length : Int) ≤ max maxout 0 := by
  obtain ⟨first, -, h⟩ := C.bind_eq_ok.mp h
  dsimp only at h
  split at h
  · exact decompressor_length h
  split at h
  · exact decompressor_length h
  · cases h
    simp

theorem decompressor_padded (level : Level) (strictAlign : Bool) (input : Bytes) (maxout : Int) :
    ∃ r, decompressor level strictAlign (input ++ [0, 0]) input.length maxout = .ok r := by
  have hpadded : Input.Padded ⟨input ++ [0, 0], input.length⟩ := ⟨input, rfl, rfl⟩
  obtain ⟨ctrl, ip, hnext, h⟩ := next_padded hpadded
  rw [decompressor, hnext, C.bind_ok]
  rcases h with h | ⟨rfl, hrest, hleft⟩
  · exact run_padded _ _ ip [] (Nat.lt_succ_self _) h
  · -- an empty input is read as a run of one literal, which the limit refuses
    dsimp only
    rw [loop]
    have hrefused : pass level strictAlign maxout ((0 : UInt8).toNat &&& 31) ip [] =
        .ok .failed := by
      have hzero : (0 : UInt8).toNat &&& 31 = 0 := rfl
      have hlimit : ip.left < ((0 + 1 : Nat) : Int) := by
        push_cast
        omega
      rw [hzero, pass, if_neg (by decide), literalPass_eq, literalEnds, if_pos hlimit]
      split <;> rfl
    rw [hrefused]
    exact ⟨_, rfl⟩

/-- **Two NUL bytes behind any input** are enough: the decompressor then neither reads past them nor
writes past `maxout`, whatever the input is. -/
theorem decompress_padded (strictAlign : Bool) (input : Bytes) (maxout : Int) :
    ∃ r, decompress strictAlign (input ++ [0, 0]) input.length maxout = .ok r ∧
      (r.length : Int) ≤ max maxout 0 := by
  have hok : ∃ r, decompress strictAlign (input ++ [0, 0]) input.length maxout = .ok r := by
    have hfirst : 0 < (input ++ [0, 0] : Bytes).length := by
      rw [List.length_append]
      exact Nat.lt_of_lt_of_le (by decide : 0 < 2) (Nat.le_add_left _ _)
    rw [decompress, readU8_of_lt hfirst, C.bind_ok]
    dsimp only
    split
    · exact decompressor_padded .one strictAlign input maxout
    split
    · exact decompressor_padded .two strictAlign input maxout
    · exact ⟨_, rfl⟩
  obtain ⟨r, hr⟩ := hok
  exact ⟨r, hr, decompress_length hr⟩

/-- One NUL is not enough for the match that begins in the last byte. -/
example : decompress true ([0, 65, 0xE0] ++ [0]) 3 10 = .error .outOfBounds := by decide +kernel

end Fastlz

end PhpCouchbase
