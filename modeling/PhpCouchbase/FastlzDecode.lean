import PhpCouchbase.FastlzDecompress

/-!
# What the decompressor makes of a stream

The decompressor of `fastlz/fastlz.c` on the bytes that its compressor can write.

* `decode_encode` — the bytes of a stream decompress to what the stream says.
* `decode_cut` — a part of the bytes decompresses to a proper part of it, or not at all.
* `decompress_stream`, `decompress_cut` — the same of `fastlz_decompress`, with the marker of the
  level in the first byte.
-/

set_option autoImplicit false

namespace PhpCouchbase

namespace Fastlz

open Lz77

variable {level : Level} {strictAlign : Bool} {maxout : Int}

/-- The loop on whole input: the first byte is the control byte. -/
def decode (level : Level) (strictAlign : Bool) (maxout : Int) : Bytes → Bytes → C Bytes
  | [], out => .ok out
  | c :: rest, out => run level strictAlign maxout c.toNat ⟨rest, rest.length⟩ out

/-- A pass that ends where the rest of the stream begins. -/
theorem run_of_wrote {ctrl : Nat} {ip : Input} {out out' tail : Bytes}
    (h : pass level strictAlign maxout ctrl ip out =
      (Input.control ⟨tail, tail.length⟩ >>= fun control => .ok (.wrote control out'))) :
    run level strictAlign maxout ctrl ip out = decode level strictAlign maxout tail out' := by
  rw [run_eq, h]
  cases tail with
  | nil => rfl
  | cons c rest =>
    have hleft : (0 : Int) < ((c :: rest).length : Nat) := by
      rw [List.length_cons]
      omega
    have hrest : (((c :: rest).length : Nat) : Int) - 1 = rest.length := by
      rw [List.length_cons]
      omega
    unfold Input.control
    rw [if_pos hleft, next_cons, hrest]
    rfl

/-- A run of literals. -/
theorem decode_run {elems out : Bytes} (tail : Bytes) (hne : elems ≠ [])
    (hlen : elems.length ≤ maxCopy) (hroom : ((out ++ elems).length : Int) ≤ maxout) :
    decode level strictAlign maxout (level.encodeOp (.run elems) ++ tail) out =
      decode level strictAlign maxout tail (out ++ elems) := by
  have hpos := List.length_pos_iff.mpr hne
  have hlen : elems.length ≤ 32 := hlen
  have hctrl : (UInt8.ofNat (elems.length - 1)).toNat = elems.length - 1 :=
    UInt8.toNat_ofNat_of_lt' (show elems.length - 1 < 256 by omega)
  rw [List.length_append] at hroom
  have hcount : ((elems.length - 1 + 1 : Nat) : Int) = elems.length := by omega
  have hliterals := prefixOf_append_length elems tail
  have hleft : (((elems ++ tail).length : Nat) : Int) - elems.length = tail.length := by
    rw [List.length_append]
    omega
  show run level strictAlign maxout (UInt8.ofNat (elems.length - 1)).toNat
    ⟨elems ++ tail, ((elems ++ tail).length : Nat)⟩ out = _
  apply run_of_wrote
  rw [pass, hctrl, if_neg (by omega), literalPass_eq, literalEnds]
  dsimp only
  rw [hcount, if_neg (by push_cast at hroom; omega), if_neg (by omega), hliterals, C.bind_ok, hleft,
    Nat.sub_add_cancel hpos, List.drop_left]
  rfl

/-- A copy. -/
theorem decode_copy {d n : Nat} {out : Bytes} (tail : Bytes) (hd : 1 ≤ d) (hback : d ≤ out.length)
    (hwrites : level.Writes (.copy d n)) (hroom : ((copyBack d n out).length : Int) ≤ maxout) :
    decode level strictAlign maxout (level.encodeOp (.copy d n) ++ tail) out =
      decode level strictAlign maxout tail (copyBack d n out) := by
  obtain ⟨c, operands, hbytes, hcopies, hreads⟩ := readMatch_copy hd hwrites
  have h3 : 3 ≤ n := hwrites.1
  have hlen : (n : Int) = (n - 3 : Nat) + 3 := by omega
  have hleft : (((operands ++ tail).length : Nat) : Int) - operands.length = tail.length := by
    rw [List.length_append]
    omega
  rw [length_copyBack hd n hback] at hroom
  rw [hbytes, List.cons_append]
  show run level strictAlign maxout c.toNat ⟨operands ++ tail, ((operands ++ tail).length : Nat)⟩
    out = _
  apply run_of_wrote
  rw [pass, if_pos hcopies, matchPass_eq, hreads, C.bind_ok, hleft]
  dsimp only
  rw [matchEnds, if_neg (by push_cast at hroom; omega), if_neg (by omega), Nat.sub_add_cancel hd,
    Nat.sub_add_cancel h3]
  rfl

/-- **One instruction.** -/
theorem decode_op {op : Op UInt8} {out : Bytes} (tail : Bytes) (hfits : op.Fits out)
    (hwrites : level.Writes op) (hroom : ((op.apply out).length : Int) ≤ maxout) :
    decode level strictAlign maxout (level.encodeOp op ++ tail) out =
      decode level strictAlign maxout tail (op.apply out) := by
  cases op with
  | run elems => exact decode_run tail hfits hwrites hroom
  | copy d n => exact decode_copy tail hfits.1 hfits.2.1 hwrites hroom

/-- **A stream decompresses to what it says.** -/
theorem decode_encode {ops : List (Op UInt8)} {out : Bytes} (hfit : Fit ops out)
    (hwrites : ∀ op ∈ ops, level.Writes op) (hroom : ((expand ops out).length : Int) ≤ maxout) :
    decode level strictAlign maxout (level.encode ops) out = .ok (expand ops out) := by
  induction ops generalizing out with
  | nil => rfl
  | cons op ops ih =>
    rw [List.forall_mem_cons] at hwrites
    have hle := length_le_expand ops (op.apply out)
    rw [expand_cons] at hroom ⊢
    rw [encode_cons, decode_op _ hfit.1 hwrites.1 (by omega), ih hfit.2 hwrites.2 hroom]

/-! ## Cut streams -/

/-- The operands of a match are not read from a part of them. -/
theorem readMatch_cut {c : UInt8} {operands p : Bytes} {d n : Nat}
    (hreads : Reads level c operands d n) (hp : p <+: operands) (hne : p ≠ operands) (left : Int)
    (r : Nat × Nat × Input) : readMatch level c.toNat ⟨p, left⟩ ≠ .ok r := by
  intro h
  obtain ⟨q, rfl⟩ := hp
  have hextend := readMatch_extend q h
  have hwhole := hreads [] left
  rw [List.append_nil] at hwhole
  rw [Input.extend, hwhole, Except.ok.injEq, Prod.mk.injEq, Prod.mk.injEq] at hextend
  have hrest := congrArg Input.rest hextend.2.2
  have hq : q = [] := (List.append_eq_nil_iff.mp hrest.symm).2
  exact hne (by rw [hq, List.append_nil])

/-- A part of one instruction is refused, or it is read past its end. -/
theorem decode_op_cut {op : Op UInt8} {out cut r : Bytes} (hfits : op.Fits out)
    (hwrites : level.Writes op) (hcut : cut <+: level.encodeOp op) (hne : cut ≠ level.encodeOp op)
    (hstarted : cut ≠ []) (h : decode level strictAlign maxout cut out = .ok r) : r = [] := by
  cases cut with
  | nil => exact absurd rfl hstarted
  | cons c p =>
    cases op with
    | run elems =>
      obtain ⟨rfl, hp⟩ := List.cons_prefix_cons.mp hcut
      have hlt : p.length < elems.length := by
        have hle := hp.length_le
        rcases Nat.lt_or_eq_of_le hle with hlt | heq
        · exact hlt
        · exact absurd (congrArg _ (hp.eq_of_length heq)) hne
      have hlen : elems.length ≤ 32 := hwrites
      have hctrl : (UInt8.ofNat (elems.length - 1)).toNat = elems.length - 1 :=
        UInt8.toNat_ofNat_of_lt' (show elems.length - 1 < 256 by omega)
      have hfailed : pass level strictAlign maxout (elems.length - 1) ⟨p, p.length⟩ out =
          .ok .failed := by
        have hlimit : (p.length : Int) < ((elems.length - 1 + 1 : Nat) : Int) := by omega
        rw [pass, if_neg (by omega), literalPass_eq, literalEnds, if_pos hlimit]
        split <;> rfl
      change run level strictAlign maxout (UInt8.ofNat (elems.length - 1)).toNat ⟨p, p.length⟩ out =
        .ok r at h
      rw [hctrl, run_eq, hfailed, C.bind_ok] at h
      cases h
      rfl
    | copy d n =>
      obtain ⟨c', operands, hbytes, hcopies, hreads⟩ := readMatch_copy hfits.1 hwrites
      rw [hbytes] at hcut hne
      obtain ⟨rfl, hp⟩ := List.cons_prefix_cons.mp hcut
      have hpart : p ≠ operands := fun heq => hne (by rw [heq])
      change run level strictAlign maxout c.toNat ⟨p, p.length⟩ out = .ok r at h
      rw [run_eq] at h
      obtain ⟨ps, hpass, -⟩ := C.bind_eq_ok.mp h
      rw [pass, if_pos hcopies, matchPass_eq] at hpass
      obtain ⟨s, hs, -⟩ := C.bind_eq_ok.mp hpass
      exact absurd hs (readMatch_cut hreads hp hpart _ s)

/-- **A part of a stream decompresses to a proper part of what it says**, or not at all. -/
theorem decode_cut {ops : List (Op UInt8)} {out cut r : Bytes} (hfit : Fit ops out)
    (hwrites : ∀ op ∈ ops, level.Writes op) (hroom : ((expand ops out).length : Int) ≤ maxout)
    (hcut : cut <+: level.encode ops) (hne : cut ≠ level.encode ops)
    (h : decode level strictAlign maxout cut out = .ok r) :
    r <+: expand ops out ∧ r.length < (expand ops out).length := by
  induction ops generalizing out cut with
  | nil => exact absurd (List.prefix_nil.mp hcut) hne
  | cons op ops ih =>
    have hlonger : out.length < (expand (op :: ops) out).length :=
      hfit.length_lt (List.cons_ne_nil _ _)
    rw [List.forall_mem_cons] at hwrites
    rw [encode_cons] at hcut hne
    have hle := length_le_expand ops (op.apply out)
    rw [expand_cons] at hroom hlonger ⊢
    rcases List.prefix_or_prefix_of_prefix hcut (List.prefix_append _ _) with hpart | hwhole
    · by_cases hop : cut = level.encodeOp op
      · -- the cut is between two instructions
        subst hop
        have htail : ops ≠ [] := by
          rintro rfl
          exact hne (by simp)
        have hstep : decode level strictAlign maxout (level.encodeOp op ++ []) _ = _ :=
          decode_op [] hfit.1 hwrites.1 (by omega)
        rw [List.append_nil, h] at hstep
        cases hstep
        exact ⟨prefix_expand ops _, hfit.2.length_lt htail⟩
      · by_cases hstarted : cut = []
        · subst hstarted
          cases h
          exact ⟨(op.prefix_apply _).trans (prefix_expand ops _), hlonger⟩
        · obtain rfl := decode_op_cut hfit.1 hwrites.1 hpart hop hstarted h
          exact ⟨List.nil_prefix, Nat.lt_of_le_of_lt (Nat.zero_le _) hlonger⟩
    · obtain ⟨cut', rfl⟩ := hwhole
      rw [decode_op _ hfit.1 hwrites.1 (by omega)] at h
      exact ih hfit.2 hwrites.2 hroom ((List.prefix_append_right_inj _).mp hcut)
        (fun heq => hne (by rw [heq])) h

/-! ## The marker of the level -/

/-- The marker is above the control bits of a first run. -/
theorem mark_bits : ∀ n : Fin 32,
    UInt8.ofNat n >>> 5 + 1 = 1 ∧ (UInt8.ofNat n ||| 32) >>> 5 + 1 = 2 ∧
      (UInt8.ofNat n).toNat &&& 31 = (UInt8.ofNat n).toNat ∧
      (UInt8.ofNat n ||| 32).toNat &&& 31 = (UInt8.ofNat n).toNat := by
  decide

/-- **The marker chooses the level** and does not disturb the first run. -/
theorem decompress_mark {c : UInt8} (hc : c.toNat < 32) (rest : Bytes) :
    decompress strictAlign (level.mark (c :: rest)) ((c :: rest).length : Nat) maxout =
      decode level strictAlign maxout (c :: rest) [] := by
  obtain ⟨hone, htwo, hplain, hmarked⟩ := mark_bits ⟨c.toNat, hc⟩
  have hofNat : UInt8.ofNat c.toNat = c := UInt8.ofNat_toNat
  have hleft : (((c :: rest).length : Nat) : Int) - 1 = rest.length := by
    rw [List.length_cons]
    omega
  dsimp only at hone htwo hplain hmarked
  rw [hofNat] at hone htwo hplain hmarked
  cases level with
  | one =>
    show decompress strictAlign (c :: rest) _ maxout = _
    rw [decompress, readU8_of_lt (by rw [List.length_cons]; omega), C.bind_ok]
    dsimp only [List.getElem_cons_zero]
    rw [if_pos hone, decompressor, next_cons, C.bind_ok, hleft]
    dsimp only
    rw [hplain]
    rfl
  | two =>
    have hnot : ¬ (c ||| 32) >>> 5 + 1 = 1 := by
      rw [htwo]
      decide
    show decompress strictAlign ((c ||| 32) :: rest) _ maxout = _
    rw [decompress, readU8_of_lt (by rw [List.length_cons]; omega), C.bind_ok]
    dsimp only [List.getElem_cons_zero]
    rw [if_neg hnot, if_pos htwo, decompressor, next_cons, C.bind_ok, hleft]
    dsimp only
    rw [hmarked]
    rfl

/-- A stream that begins with literals, as a compressor writes it. -/
structure Stream (level : Level) (ops : List (Op UInt8)) : Prop where
  fit : Fit ops []
  writes : ∀ op ∈ ops, level.Writes op
  starts : ∃ elems rest, ops = .run elems :: rest

theorem Stream.head {ops : List (Op UInt8)} (h : Stream level ops) :
    ∃ c rest, level.encode ops = c :: rest ∧ c.toNat < 32 := by
  obtain ⟨elems, rest, rfl⟩ := h.starts
  have hne : elems ≠ [] := h.fit.1
  have hpos := List.length_pos_iff.mpr hne
  have hlen : elems.length ≤ 32 := h.writes (.run elems) (by simp)
  refine ⟨UInt8.ofNat (elems.length - 1), elems ++ level.encode rest, rfl, ?_⟩
  rw [UInt8.toNat_ofNat_of_lt' (show elems.length - 1 < 256 by omega)]
  omega

theorem length_mark (out : Bytes) : (level.mark out).length = out.length := by
  cases level with
  | one => rfl
  | two => exact List.length_modify _ _ _

/-- **`fastlz_decompress` undoes a stream.** -/
theorem decompress_stream {ops : List (Op UInt8)} (h : Stream level ops)
    (hroom : ((expand ops []).length : Int) ≤ maxout) :
    decompress strictAlign (level.mark (level.encode ops)) ((level.encode ops).length : Nat)
      maxout = .ok (expand ops []) := by
  obtain ⟨c, rest, hbytes, hc⟩ := h.head
  rw [hbytes, decompress_mark hc, ← hbytes]
  exact decode_encode h.fit h.writes hroom

/-- **A cut stream** is not decompressed, or to a proper part. -/
theorem decompress_cut {ops : List (Op UInt8)} {cut r : Bytes} (h : Stream level ops)
    (hroom : ((expand ops []).length : Int) ≤ maxout)
    (hcut : cut <+: level.mark (level.encode ops)) (hne : cut ≠ level.mark (level.encode ops))
    (hr : decompress strictAlign cut cut.length maxout = .ok r) :
    r <+: expand ops [] ∧ r.length < (expand ops []).length := by
  obtain ⟨c, rest, hbytes, hc⟩ := h.head
  have hmark : ∃ m, ∀ p, level.mark (c :: p) = m :: p := by
    cases level with
    | one => exact ⟨c, fun p => rfl⟩
    | two => exact ⟨c ||| 32, fun p => rfl⟩
  obtain ⟨m, hm⟩ := hmark
  rw [hbytes, hm] at hcut hne
  cases cut with
  | nil =>
    -- the first byte is read in any case
    cases hr
  | cons b p =>
    obtain ⟨rfl, hp⟩ := List.cons_prefix_cons.mp hcut
    have hlen : (((b :: p).length : Nat) : Int) = ((c :: p).length : Nat) := rfl
    rw [← hm, length_mark, decompress_mark hc] at hr
    have hcut' : c :: p <+: level.encode ops := by
      rw [hbytes]
      exact List.cons_prefix_cons.mpr ⟨rfl, hp⟩
    have hne' : c :: p ≠ level.encode ops := by
      rw [hbytes]
      exact fun heq => hne (by rw [(List.cons.inj heq).2])
    exact decode_cut h.fit h.writes hroom hcut' hne' hr

end Fastlz

end PhpCouchbase
