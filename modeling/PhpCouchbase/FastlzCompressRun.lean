import PhpCouchbase.FastlzCompress

/-!
# The runs of the fastlz compressor

The main loop of `fastlz/fastlz.c`, pass by pass.

* `Holds` — the output says the text up to `ip`: instructions, and literals whose count is not
  written yet.
* `mainLoop_ends` — the main loop ends, and still holds.
* `compressor_stream` — the output is a stream that says the text, and it needs no more than one byte
  for each 32 and one more.
-/

set_option autoImplicit false

namespace PhpCouchbase

namespace Fastlz

open Lz77

variable {level : Level} {mem : Bytes} {length : Nat}

/-! ## The output so far -/

/-- The instructions, with the run that is not finished. -/
def pending (ops : List (Op UInt8)) (run : Bytes) : List (Op UInt8) :=
  if run = [] then ops else ops ++ [.run run]

@[simp] theorem pending_nil (ops : List (Op UInt8)) : pending ops [] = ops := if_pos rfl

theorem pending_of_ne {ops : List (Op UInt8)} {run : Bytes} (h : run ≠ []) :
    pending ops run = ops ++ [.run run] := if_neg h

theorem expand_pending (ops : List (Op UInt8)) (run : Bytes) :
    expand (pending ops run) [] = expand ops [] ++ run := by
  by_cases hrun : run = []
  · rw [hrun, pending_nil, List.append_nil]
  · rw [pending_of_ne hrun, expand_append]
    rfl

theorem fit_pending {ops : List (Op UInt8)} {run : Bytes} (h : Fit ops []) :
    Fit (pending ops run) [] := by
  by_cases hrun : run = []
  · rwa [hrun, pending_nil]
  · rw [pending_of_ne hrun, fit_append]
    exact ⟨h, hrun, trivial⟩

theorem writes_pending {ops : List (Op UInt8)} {run : Bytes} (h : ∀ op ∈ ops, level.Writes op)
    (hrun : run.length ≤ maxCopy) : ∀ op ∈ pending ops run, level.Writes op := by
  unfold pending
  split
  · exact h
  · rw [List.forall_mem_append, List.forall_mem_singleton]
    exact ⟨h, hrun⟩

theorem length_adjustCopy (s : Compressor) : s.adjustCopy.length ≤ s.out.length := by
  unfold Compressor.adjustCopy
  split
  · rw [List.length_set]
  · rw [List.length_dropLast]
    exact Nat.sub_le _ _

/-- The output says the text up to `ip`.  It has a byte for each byte of the text, one for each 32
literals, and the place of one more count. -/
structure Holds (level : Level) (mem : Bytes) (length : Nat) (ops : List (Op UInt8)) (run : Bytes)
    (s : Compressor) : Prop where
  out : s.out = level.encode ops ++ UInt8.ofNat (maxCopy - 1) :: run
  copy : s.copy = run.length
  few : run.length < maxCopy
  text : expand ops [] ++ run = mem.take s.ip
  fit : Fit ops []
  writes : ∀ op ∈ ops, level.Writes op
  behind : ∀ k, s.htab k < s.ip
  inside : s.ip ≤ length
  written : s.out.length ≤ s.high
  high : s.high ≤ s.ip + 1 + (s.ip - s.copy) / maxCopy

namespace Holds

variable {ops : List (Op UInt8)} {run : Bytes} {s : Compressor}

theorem few' (h : Holds level mem length ops run s) : run.length < 32 := h.few

theorem copy_le (h : Holds level mem length ops run s) (hmem : length ≤ mem.length) :
    run.length ≤ s.ip := by
  have hlen := congrArg List.length h.text
  have hinside := h.inside
  rw [List.length_append, List.length_take] at hlen
  omega

/-- With the count of its last literals, the output is a stream. -/
theorem adjustCopy_eq (h : Holds level mem length ops run s) :
    s.adjustCopy = level.encode (pending ops run) := by
  have hlen : s.out.length - s.copy - 1 = (level.encode ops).length := by
    rw [h.out, h.copy, List.length_append, List.length_cons]
    omega
  unfold Compressor.adjustCopy
  by_cases hrun : run = []
  · have hzero : s.copy = 0 := by rw [h.copy, hrun, List.length_nil]
    rw [if_neg (not_not.mpr hzero), h.out, hrun, pending_nil, List.dropLast_concat]
  · have hcopy : s.copy ≠ 0 := by
      rw [h.copy]
      exact fun hzero => hrun (List.length_eq_zero_iff.mp hzero)
    rw [if_pos hcopy, hlen, h.out, List.set_append_right _ _ (Nat.le_refl _), Nat.sub_self,
      List.set_cons_zero, h.copy, pending_of_ne hrun, encode_append, encode_cons, encode_nil,
      List.append_nil]
    rfl

/-- The next text, with one more literal. -/
theorem text_literal (h : Holds level mem length ops run s) {b : UInt8}
    (hb : mem[s.ip]? = some b) : expand ops [] ++ (run ++ [b]) = mem.take (s.ip + 1) := by
  rw [← List.append_assoc, h.text, List.take_add_one, hb]
  rfl

end Holds

/-- It holds, with some instructions and some literals. -/
def Holding (level : Level) (mem : Bytes) (length : Nat) (s : Compressor) : Prop :=
  ∃ ops run, Holds level mem length ops run s

/-! ## Steps -/

@[simp] theorem put_ip (s : Compressor) (bytes : Bytes) : (s.put bytes).ip = s.ip := rfl

@[simp] theorem put_out (s : Compressor) (bytes : Bytes) : (s.put bytes).out = s.out ++ bytes := rfl

@[simp] theorem put_high (s : Compressor) (bytes : Bytes) :
    (s.put bytes).high = max s.high (s.out.length + bytes.length) := rfl

@[simp] theorem put_htab (s : Compressor) (bytes : Bytes) : (s.put bytes).htab = s.htab := rfl

@[simp] theorem put_copy (s : Compressor) (bytes : Bytes) : (s.put bytes).copy = s.copy := rfl

theorem afterLiteral_few {s : Compressor} (b : UInt8) (h : s.copy + 1 ≠ maxCopy) :
    s.afterLiteral b = { s.put [b] with ip := s.ip + 1, copy := s.copy + 1 } := if_neg h

theorem afterLiteral_full {s : Compressor} (b : UInt8) (h : s.copy + 1 = maxCopy) :
    s.afterLiteral b =
      { (s.put [b]).put [UInt8.ofNat (maxCopy - 1)] with ip := s.ip + 1, copy := 0 } := if_pos h

theorem afterLiteral_ip (s : Compressor) (b : UInt8) : (s.afterLiteral b).ip = s.ip + 1 := by
  unfold Compressor.afterLiteral
  dsimp only
  split <;> rfl

/-- **A literal.**  The 32nd makes the run an instruction. -/
theorem Holding.literal {s : Compressor} {b : UInt8} {htab : Fin hashSize → Nat}
    (h : Holding level mem length s) (hb : mem[s.ip]? = some b) (hip : s.ip < length)
    (hmem : length ≤ mem.length) (hhtab : ∀ k, htab k < s.ip + 1) :
    Holding level mem length ({ s with htab := htab }.afterLiteral b) := by
  obtain ⟨ops, run, h⟩ := h
  have hcopy := h.copy
  have hfew := h.few'
  have hle := h.copy_le hmem
  have hwritten := h.written
  have hhigh : s.high ≤ s.ip + 1 + (s.ip - s.copy) / 32 := h.high
  have hlen : (run ++ [b]).length = s.copy + 1 := by
    rw [List.length_append, List.length_singleton, hcopy]
  by_cases hfull : s.copy + 1 = maxCopy
  · have hne : run ++ [b] ≠ [] := List.append_ne_nil_of_right_ne_nil _ (List.cons_ne_nil _ _)
    have hcount : s.copy + 1 = 32 := hfull
    rw [afterLiteral_full (s := { s with htab := htab }) b hfull]
    refine ⟨ops ++ [.run (run ++ [b])], [], ?_, rfl, by decide, ?_, ?_, ?_, hhtab, hip, ?_, ?_⟩
    · have hlast : (run ++ [b]).length - 1 = maxCopy - 1 := by rw [hlen, hfull]
      simp only [put_out]
      rw [h.out, encode_append, encode_cons, encode_nil, List.append_nil, Level.encodeOp, hlast]
      simp only [List.append_assoc, List.cons_append, List.nil_append]
    · rw [expand_append, List.append_nil]
      exact h.text_literal hb
    · rw [fit_append]
      exact ⟨h.fit, hne, trivial⟩
    · rw [List.forall_mem_append, List.forall_mem_singleton]
      exact ⟨h.writes, by show (run ++ [b]).length ≤ maxCopy; rw [hlen, hfull]⟩
    · simp only [put_out, put_high, List.length_append, List.length_singleton]
      exact Nat.le_max_right _ _
    · simp only [put_out, put_high, List.length_append, List.length_singleton]
      show max (max s.high (s.out.length + 1)) (s.out.length + 1 + 1) ≤
        s.ip + 1 + 1 + (s.ip + 1 - 0) / 32
      omega
  · rw [afterLiteral_few (s := { s with htab := htab }) b hfull]
    refine ⟨ops, run ++ [b], ?_, hlen.symm, ?_, h.text_literal hb, h.fit, h.writes, hhtab, hip, ?_, ?_⟩
    · simp only [put_out]
      rw [h.out, List.append_assoc, List.cons_append]
    · rw [hlen]
      have hcount : s.copy + 1 ≠ 32 := hfull
      show s.copy + 1 < 32
      omega
    · simp only [put_out, put_high, List.length_append, List.length_singleton]
      exact Nat.le_max_right _ _
    · simp only [put_high, List.length_singleton]
      show max s.high (s.out.length + 1) ≤ s.ip + 1 + 1 + (s.ip + 1 - (s.copy + 1)) / 32
      omega

/-- **A match.**  The run before it is finished, and it is written in fewer bytes than it has. -/
theorem Holding.matched {s : Compressor} {d n : Nat} {htab : Fin hashSize → Nat}
    (h : Holding level mem length s) (hmatch : IsMatch mem s.ip d n) (htakes : level.Takes d n)
    (hip : s.ip + n ≤ length) (hmem : length ≤ mem.length) (hmax : length < 2 ^ 31)
    (hhtab : ∀ k, htab k < s.ip + n) :
    Holding level mem length (s.afterMatch level d n htab) := by
  obtain ⟨ops, run, h⟩ := h
  obtain ⟨copies, hcopies⟩ := writesMatch hmatch.pos htakes (by omega)
  have htext : expand (pending ops run) [] = mem.take s.ip := by rw [expand_pending, h.text]
  have hlen : (mem.take s.ip).length = s.ip := by
    have hinside := h.inside
    rw [List.length_take]
    omega
  have hback : d ≤ (expand (pending ops run) []).length := by
    rw [htext, hlen]
    exact hmatch.back
  have hadjust := length_adjustCopy s
  have hshorter := hcopies.shorter
  have hwritten := h.written
  have hhigh : s.high ≤ s.ip + 1 + (s.ip - s.copy) / 32 := h.high
  refine ⟨pending ops run ++ copies, [], ?_, rfl, by decide, ?_, ?_, ?_, hhtab, hip, ?_, ?_⟩
  · show s.adjustCopy ++ level.matchBytes (d - 1) (n - 2) ++ [UInt8.ofNat (maxCopy - 1)] = _
    rw [h.adjustCopy_eq, hcopies.bytes, encode_append]
  · rw [expand_append, hcopies.copies _ hback, htext, List.append_nil]
    exact copyBack_take hmatch.pos n s.ip hmatch.back (by omega) hmatch.same
  · rw [fit_append]
    exact ⟨fit_pending h.fit, hcopies.fit _ hback⟩
  · rw [List.forall_mem_append]
    exact ⟨writes_pending h.writes (Nat.le_of_lt h.few), hcopies.writes⟩
  · simp only [Compressor.afterMatch, put_out, put_high, List.length_append]
    exact Nat.le_max_right _ _
  · simp only [Compressor.afterMatch, put_out, put_high, List.length_append, List.length_singleton]
    show max (max s.high (s.adjustCopy.length + _)) (s.adjustCopy.length + _ + 1) ≤
      s.ip + n + 1 + (s.ip + n - 0) / 32
    omega

/-- **One pass** goes on, and still holds. -/
theorem Holding.step {s : Compressor} (h : Holding level mem length s) (hip : 1 ≤ s.ip)
    (hlen : s.ip + 12 < length) (hmem : length < mem.length) (hmax : length < 2 ^ 31) :
    ∃ s', s.step level mem length = .ok s' ∧ s.ip < s'.ip ∧ Holding level mem length s' := by
  obtain ⟨ops, run, hholds⟩ := id h
  rcases step_cases hip hlen hmem hholds.behind with
    ⟨b, htab, hb, hstep, hhtab⟩ | ⟨d, n, htab, hstep, hmatch, htakes, hend, hhtab⟩
  · refine ⟨_, hstep, ?_, h.literal hb (by omega) (by omega) hhtab⟩
    rw [afterLiteral_ip]
    exact Nat.lt_succ_self _
  · refine ⟨_, hstep, ?_, h.matched hmatch htakes (by omega) (by omega) hmax hhtab⟩
    have hlong := htakes.long
    show s.ip < s.ip + n
    omega

/-! ## Runs -/

/-- **The main loop** ends within 12 bytes of the end. -/
theorem mainLoop_ends (level : Level) (hmem : length < mem.length) (hmax : length < 2 ^ 31) :
    ∀ (fuel : Nat) {s : Compressor}, 1 ≤ s.ip → length ≤ fuel + s.ip →
      Holding level mem length s →
      ∃ s', mainLoop level mem length fuel s = .ok s' ∧ length ≤ s'.ip + 12 ∧
        Holding level mem length s'
  | 0, s, _, hfuel, h => ⟨s, rfl, by omega, h⟩
  | fuel + 1, s, hip, hfuel, h => by
    rw [mainLoop]
    by_cases hlen : s.ip + 12 < length
    · obtain ⟨s', hstep, hlt, h'⟩ := h.step hip hlen hmem hmax
      rw [if_pos hlen, hstep, C.bind_ok]
      exact mainLoop_ends level hmem hmax fuel (by omega) (by omega) h'
    · rw [if_neg hlen]
      exact ⟨s, rfl, by omega, h⟩

/-- **The left-over** are literals up to the end. -/
theorem leftOver_ends (hmem : length ≤ mem.length) : ∀ (n : Nat) {s : Compressor},
    s.ip + n = length → Holding level mem length s →
    ∃ s', leftOver mem n s = .ok s' ∧ s'.ip = length ∧ Holding level mem length s'
  | 0, s, hip, h => ⟨s, rfl, hip, h⟩
  | n + 1, s, hip, h => by
    have hlt : s.ip < mem.length := by omega
    obtain ⟨ops, run, hholds⟩ := id h
    rw [leftOver, s.literal_eq (readU8_of_lt hlt), C.bind_ok]
    apply leftOver_ends hmem n
    · rw [afterLiteral_ip]
      omega
    · exact h.literal (List.getElem?_eq_getElem hlt) (by omega) hmem fun k =>
        Nat.lt_succ_of_lt (hholds.behind k)

theorem start_holds {b c : UInt8} (hb : mem[0]? = some b) (hc : mem[1]? = some c)
    (h2 : 2 ≤ length) : Holding level mem length (.start b c) := by
  have hfew : 2 < maxCopy := by decide
  refine ⟨[], [b, c], rfl, rfl, hfew, ?_, trivial, ?_, fun _ => Nat.zero_lt_two, h2,
    Nat.le_refl 3, ?_⟩
  · show [b, c] = mem.take 2
    rw [List.take_add_one, List.take_add_one, hb, hc]
    rfl
  · intro op hop
    cases hop
  · exact Nat.le_add_right 3 _

/-- What fits the empty output begins with a run. -/
theorem stream_of_fit {ops : List (Op UInt8)} (hfit : Fit ops [])
    (hwrites : ∀ op ∈ ops, level.Writes op) (hne : ops ≠ []) : Stream level ops := by
  refine ⟨hfit, hwrites, ?_⟩
  cases ops with
  | nil => exact absurd rfl hne
  | cons op ops =>
    cases op with
    | run elems => exact ⟨elems, ops, rfl⟩
    | copy d n =>
      obtain ⟨hd, hlen, -⟩ : 1 ≤ d ∧ d ≤ 0 ∧ 1 ≤ n := hfit.1
      omega

/-- `w` is a stream of the level that says `text`, and the buffer it needs is little longer. -/
structure Says (level : Level) (text : Bytes) (w : Written) : Prop where
  stream : ∃ ops, Stream level ops ∧ w.out = level.mark (level.encode ops) ∧ expand ops [] = text
  written : w.out.length ≤ w.high
  room : w.high ≤ text.length + 1 + text.length / maxCopy

/-- **The compressor writes a stream that says its input**, inside a buffer that is little longer.
It reads one byte behind the input. -/
theorem compressor_stream (level : Level) (h4 : 4 ≤ length) (hmem : length < mem.length)
    (hmax : length < 2 ^ 31) :
    ∃ w, compressor level mem length = .ok w ∧ Says level (mem.take length) w := by
  have hzero : 0 < mem.length := by omega
  have hone : 1 < mem.length := by omega
  obtain ⟨s, hloop, -, h⟩ := mainLoop_ends level hmem hmax length
    (s := .start mem[0] mem[1]) (Nat.le_succ 1) (Nat.le_add_right _ _)
    (start_holds (List.getElem?_eq_getElem hzero) (List.getElem?_eq_getElem hone) (by omega))
  have hinside : s.ip ≤ length := by
    obtain ⟨ops, run, h⟩ := h
    exact h.inside
  obtain ⟨s', hleft, hip, ops, run, h'⟩ := leftOver_ends (by omega) (length - s.ip)
    (by omega) h
  have htext : expand (pending ops run) [] = mem.take length := by
    rw [expand_pending, h'.text, hip]
  have hlen : (mem.take length).length = length := by
    rw [List.length_take]
    omega
  have hne : pending ops run ≠ [] := by
    intro hnil
    rw [hnil, expand_nil] at htext
    rw [← htext, List.length_nil] at hlen
    omega
  refine ⟨⟨level.mark s'.adjustCopy, s'.high⟩, ?_, ⟨pending ops run, ?_, ?_, htext⟩, ?_, ?_⟩
  · rw [compressor, if_neg (by omega), readU8_of_lt hzero, C.bind_ok, readU8_of_lt hone, C.bind_ok,
      hloop, C.bind_ok, hleft, C.bind_ok]
    rfl
  · exact stream_of_fit (fit_pending h'.fit)
      (writes_pending h'.writes (Nat.le_of_lt h'.few)) hne
  · rw [h'.adjustCopy_eq]
  · rw [length_mark]
    exact Nat.le_trans (length_adjustCopy s') h'.written
  · have hhigh : s'.high ≤ s'.ip + 1 + (s'.ip - s'.copy) / 32 := h'.high
    rw [hlen]
    show s'.high ≤ length + 1 + length / 32
    omega

end Fastlz

end PhpCouchbase
