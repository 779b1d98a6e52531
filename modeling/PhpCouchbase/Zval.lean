import Mathlib.Data.List.TakeWhile
import Mathlib.Tactic.Ring

/-!
# PHP values as the extension sees them

The extension (`couchbase.h`) is built against PHP 7 on a 64-bit little-endian platform (`zend_long`
is 64 bits wide, `int` 32 bits).  This module has what every other one uses: byte strings, values,
the C outcomes that PHP code never sees, and the narrowing of lengths to `int`.

A C function of the extension is modelled by a total function into `Except Fault`: a `Fault` is
undefined behaviour that the source reaches (a null pointer read, a wrong member of the value
union, memory past a buffer).  No theorem treats a fault as a result.
-/

set_option autoImplicit false

namespace PhpCouchbase

abbrev Bytes := List UInt8

/-- The bytes of an ASCII literal of the source. -/
def ascii (s : String) : Bytes := s.toList.map fun c => UInt8.ofNat c.toNat

/-- Undefined behaviour of the C code. -/
inductive Fault where
  /-- a null pointer is dereferenced -/
  | nullPointer
  /-- `Z_STRLEN`, `Z_LVAL`, `Z_OBJ` … of a value of another type -/
  | wrongType
  /-- memory outside the buffer is read -/
  | outOfBounds
  /-- a library is called with a length that is not the buffer's (a negative `int`) -/
  | badLength
  /-- a local variable is read before it is written -/
  | uninitialised
  /-- an object is read after its destructor ran -/
  | freed
  /-- `efree` of a pointer that the allocator did not give out -/
  | badFree
  deriving DecidableEq, Repr

/-- The outcome of a C function: a value, or undefined behaviour. -/
abbrev C (α : Type) := Except Fault α

namespace C

variable {α β : Type}

@[simp] theorem pure_eq (a : α) : (pure a : C α) = .ok a := rfl

@[simp] theorem bind_ok (a : α) (f : α → C β) : ((.ok a : C α) >>= f) = f a := rfl

@[simp] theorem bind_error (e : Fault) (f : α → C β) : ((.error e : C α) >>= f) = .error e := rfl

theorem bind_eq_ok {x : C α} {f : α → C β} {b : β} :
    (x >>= f) = .ok b ↔ ∃ a, x = .ok a ∧ f a = .ok b := by
  cases x <;> simp

theorem mapM_eq_map {f : α → C β} {g : α → β} {l : List α} (h : ∀ a ∈ l, f a = .ok (g a)) :
    l.mapM f = .ok (l.map g) := by
  induction l with
  | nil => rfl
  | cons a l ih =>
    rw [List.mapM_cons, h a (by simp), bind_ok, ih fun b hb => h b (by simp [hb])]
    rfl

theorem mapM_eq_error {f : α → C β} {l : List α} {a : α} {e : Fault} (ha : a ∈ l)
    (he : f a = .error e) : ∃ e', l.mapM f = .error e' := by
  induction l with
  | nil => cases ha
  | cons b l ih =>
    rw [List.mapM_cons]
    cases hb : f b with
    | error e' => exact ⟨e', rfl⟩
    | ok c =>
      have hmem : a ∈ l := by
        rcases List.mem_cons.mp ha with rfl | h
        · rw [he] at hb
          cases hb
        · exact h
      obtain ⟨e', h⟩ := ih hmem
      exact ⟨e', by rw [bind_ok, h, bind_error]⟩

theorem mapM_eq_ok_map_iff {f : α → C β} {g : α → β} {l : List α} :
    l.mapM f = .ok (l.map g) ↔ ∀ a ∈ l, f a = .ok (g a) := by
  constructor
  · intro h
    induction l with
    | nil => simp
    | cons a l ih =>
      rw [List.mapM_cons, bind_eq_ok] at h
      obtain ⟨b, hb, h⟩ := h
      obtain ⟨bs, hbs, h⟩ := bind_eq_ok.mp h
      obtain ⟨rfl, rfl⟩ := List.cons.inj (Except.ok.inj h)
      exact List.forall_mem_cons.mpr ⟨hb, ih hbs⟩
  · exact mapM_eq_map

/-- Two passes that succeed are one pass that succeeds. -/
theorem mapM_bind_mapM {γ : Type} {f : α → C β} {g : β → C γ} {l : List α} {cs : List γ} :
    (l.mapM f >>= fun bs => bs.mapM g) = .ok cs ↔ (l.mapM fun a => f a >>= g) = .ok cs := by
  induction l generalizing cs with
  | nil => rfl
  | cons a l ih =>
    simp only [List.mapM_cons, bind_eq_ok, pure_eq] at ih ⊢
    constructor
    · rintro ⟨_, ⟨b, hb, bs, hbs, hcons⟩, hrun⟩
      obtain rfl := Except.ok.inj hcons
      rw [List.mapM_cons, bind_eq_ok] at hrun
      obtain ⟨c, hc, hrun⟩ := hrun
      obtain ⟨cs, hcs, h⟩ := bind_eq_ok.mp hrun
      exact ⟨c, ⟨b, hb, hc⟩, cs, ih.mp ⟨bs, hbs, hcs⟩, h⟩
    · rintro ⟨c, ⟨b, hb, hc⟩, cs, hcs, h⟩
      obtain ⟨bs, hbs, hcs⟩ := ih.mpr hcs
      exact ⟨b :: bs, ⟨b, hb, bs, hbs, rfl⟩, by
        rw [List.mapM_cons, hc, bind_ok, hcs]
        exact h⟩

/-- The code reaches no undefined behaviour. -/
def Defined (x : C α) : Prop := ∃ a, x = .ok a

@[simp] theorem defined_ok (a : α) : Defined (.ok a : C α) := ⟨a, rfl⟩

@[simp] theorem not_defined_error (e : Fault) : ¬Defined (.error e : C α) := by
  rintro ⟨a, h⟩
  cases h

theorem defined_bind {x : C α} {f : α → C β} :
    Defined (x >>= f) ↔ ∃ a, x = .ok a ∧ Defined (f a) := by
  cases x with
  | error e => simp
  | ok a => simp

theorem map_eq_ok {x : C α} {f : α → β} {b : β} :
    Except.map f x = .ok b ↔ ∃ a, x = .ok a ∧ f a = b := by
  cases x <;> simp [Except.map]

theorem defined_map {x : C α} {f : α → β} : Defined (Except.map f x) ↔ Defined x := by
  cases x with
  | error e => exact iff_of_false (not_defined_error e) (not_defined_error e)
  | ok a => exact iff_of_true (defined_ok (f a)) (defined_ok a)

/-- Results that are kept under a key. -/
theorem mapM_keyed_iff {κ : Type} {f : α → C β} {k : α → κ} {l : List α} {vs : List (κ × β)} :
    (l.mapM fun a => f a >>= fun v => (.ok (k a, v) : C (κ × β))) = .ok vs ↔
      vs.map Prod.fst = l.map k ∧ l.mapM f = .ok (vs.map Prod.snd) := by
  induction l generalizing vs with
  | nil =>
    simp only [List.mapM_nil, pure_eq, Except.ok.injEq, List.map_nil, List.map_eq_nil_iff]
    constructor
    · rintro rfl
      exact ⟨rfl, rfl⟩
    · exact fun h => h.1.symm
  | cons a l ih =>
    simp only [List.mapM_cons, bind_eq_ok, pure_eq]
    constructor
    · rintro ⟨_, ⟨v, hv, hpair⟩, rest, hrest, hcons⟩
      obtain rfl := Except.ok.inj hpair
      obtain rfl := Except.ok.inj hcons
      obtain ⟨hkeys, hvals⟩ := ih.mp hrest
      exact ⟨congrArg (k a :: ·) hkeys, v, hv, _, hvals, rfl⟩
    · rintro ⟨hkeys, v, hv, vals, hvals, hcons⟩
      cases vs with
      | nil => cases hkeys
      | cons p vs =>
        obtain ⟨hkey, hkeys⟩ := List.cons.inj hkeys
        obtain ⟨rfl, rfl⟩ := List.cons.inj (Except.ok.inj hcons)
        refine ⟨p, ⟨_, hv, ?_⟩, vs, ih.mpr ⟨hkeys, hvals⟩, rfl⟩
        rw [← hkey]

end C

/-- Keys of a PHP array. -/
inductive ArrayKey where
  | index (i : Int64)
  | str (s : Bytes)
  deriving DecidableEq, Repr

/-- PHP values.  A double is its bit pattern: the extension only prints, scans and copies it.  An
element of an array that a variable shares (`[&$x]`) is a reference, with a type of its own. -/
inductive Zval where
  | undef
  | null
  | false
  | true
  | long (n : Int64)
  | double (bits : UInt64)
  | string (s : Bytes)
  | array (elems : List (ArrayKey × Zval))
  | object (cls : Bytes) (props : List (Bytes × Zval))
  | reference (value : Zval)
  deriving Repr, Inhabited

namespace Zval

/-- The values that reach the serializer of the transcoder. -/
def isComposite : Zval → Bool
  | .array _ => Bool.true
  | .object _ _ => Bool.true
  | _ => Bool.false

/-- `ZVAL_DEREF` -/
def deref : Zval → Zval
  | .reference value => value
  | value => value

/-- `Z_STRLEN` and `Z_STRVAL`: only a string has them. -/
def strval : Zval → C Bytes
  | .string s => .ok s
  | _ => .error .wrongType

/-- `Z_LVAL`: only a long has one. -/
def lval : Zval → C Int64
  | .long n => .ok n
  | _ => .error .wrongType

/-- The values that go to a serializer: not a string, a number or a boolean. -/
def needsSerializer : Zval → Bool
  | .string _ | .long _ | .double _ | .true | .false => Bool.false
  | .undef | .null | .array _ | .object _ _ | .reference _ => Bool.true

end Zval

/-! ## JSON -/

/-- What `PCBC_JSON_ENCODE` leaves behind: the text in the buffer, which is not there at all while
nothing is written to it, whether the error code is set, and whether a `jsonSerialize()` threw,
which sets no error code (PHP 7.0 writes "null" for its object, from 7.1 on the text just stops). -/
structure JsonEncoding where
  text : Bytes
  failed : Bool
  thrown : Bool
  deriving DecidableEq, Repr

namespace JsonEncoding

/-- The text is the whole JSON text of the value. -/
def complete (r : JsonEncoding) : Bool := !r.failed && !r.thrown

theorem complete_iff {r : JsonEncoding} : r.complete = true ↔ r.failed = false ∧ r.thrown = false := by
  rw [complete, Bool.and_eq_true, Bool.not_eq_true', Bool.not_eq_true']

/-- The text that a caller goes on with who looks at the error code. -/
def unfailed (r : JsonEncoding) : Option Bytes := if r.failed then none else some r.text

/-- A value that is encoded. -/
def done (text : Bytes) : JsonEncoding := ⟨text, false, false⟩

/-- A value that sets the error code. -/
def refused : JsonEncoding := ⟨[], true, false⟩

@[simp] theorem unfailed_done (text : Bytes) : (done text).unfailed = some text := rfl

@[simp] theorem unfailed_refused : refused.unfailed = none := rfl

end JsonEncoding

/-! ## C strings -/

/-- What a `char *` spells: bytes without a NUL. -/
structure CString where
  bytes : Bytes
  no_nul : 0 ∉ bytes
  deriving DecidableEq

/-- A byte string handed over as a `char *` ends at its first NUL. -/
def CString.ofBytes (s : Bytes) : CString where
  bytes := s.takeWhile (· ≠ 0)
  no_nul h := by simpa using List.mem_takeWhile_imp h

@[ext] theorem CString.ext {s t : CString} (h : s.bytes = t.bytes) : s = t := by
  cases s
  cases t
  simpa using h

/-- What occurs is another byte than one that does not. -/
theorem decide_ne_of_not_mem {s : Bytes} {b : UInt8} (h : b ∉ s) :
    ∀ c ∈ s, decide (c ≠ b) = true :=
  fun _ hc => decide_eq_true fun heq => h (heq ▸ hc)

theorem takeWhile_of_no_nul {s : Bytes} (h : 0 ∉ s) : s.takeWhile (· ≠ 0) = s :=
  List.takeWhile_eq_self_iff.mpr (decide_ne_of_not_mem h)

theorem ofBytes_bytes (s : CString) : CString.ofBytes s.bytes = s :=
  CString.ext (takeWhile_of_no_nul s.no_nul)

/-! ## Lengths as `int` -/

/-- A `size_t` passed where the callee declares `int`. -/
def narrowInt (n : Nat) : Int :=
  if n % 2 ^ 32 < 2 ^ 31 then (n % 2 ^ 32 : Nat) else (n % 2 ^ 32 : Nat) - 2 ^ 32

theorem narrowInt_of_lt {n : Nat} (h : n < 2 ^ 31) : narrowInt n = n := by
  unfold narrowInt
  rw [Nat.mod_eq_of_lt (by omega), if_pos h]

theorem narrowInt_lt (n : Nat) : narrowInt n < 2 ^ 31 := by
  unfold narrowInt
  split <;> omega

/-- A length of 2^31 or more does not survive the narrowing: it turns negative or too small. -/
theorem narrowInt_of_ge {n : Nat} (h : 2 ^ 31 ≤ n) : narrowInt n < n := by
  have := narrowInt_lt n
  omega

theorem narrowInt_nonneg_iff (n : Nat) : 0 ≤ narrowInt n ↔ n % 2 ^ 32 < 2 ^ 31 := by
  unfold narrowInt
  split
  · omega
  · omega

theorem narrowInt_le (n : Nat) : narrowInt n ≤ n := by
  have := Nat.mod_le n (2 ^ 32)
  unfold narrowInt
  split
  · omega
  · omega

theorem narrowInt_eq_iff (n : Nat) : narrowInt n = n ↔ n < 2 ^ 31 := by
  constructor
  · intro h
    have := narrowInt_lt n
    omega
  · exact narrowInt_of_lt

/-- A library call on a buffer with a length: the first `len` bytes, when the buffer has them. -/
def prefixOf (buf : Bytes) (len : Int) : C Bytes :=
  if 0 ≤ len ∧ len ≤ buf.length then .ok (buf.take len.toNat) else .error .badLength

theorem prefixOf_length (buf : Bytes) : prefixOf buf buf.length = .ok buf := by
  simp [prefixOf]

theorem prefixOf_narrowInt {buf : Bytes} (h : buf.length < 2 ^ 31) :
    prefixOf buf (narrowInt buf.length) = .ok buf := by
  rw [narrowInt_of_lt h, prefixOf_length]

/-- What a caller with a too long buffer gets is a proper prefix of it. -/
theorem prefixOf_eq_ok {buf p : Bytes} {len : Int} (h : prefixOf buf len = .ok p) :
    p <+: buf ∧ (p.length : Int) = len := by
  unfold prefixOf at h
  split at h
  · rename_i hlen
    cases h
    refine ⟨List.take_prefix _ _, ?_⟩
    rw [List.length_take]
    omega
  · cases h

theorem prefixOf_ne_of_ge {buf : Bytes} (h : 2 ^ 31 ≤ buf.length) :
    prefixOf buf (narrowInt buf.length) ≠ .ok buf := by
  intro heq
  have := (prefixOf_eq_ok heq).2
  have := narrowInt_of_ge h
  omega

/-- A length that fits a buffer. -/
theorem prefixOf_of_le {buf : Bytes} {len : Int} (h0 : 0 ≤ len) (h : len ≤ buf.length) :
    prefixOf buf len = .ok (buf.take len.toNat) := if_pos ⟨h0, h⟩

theorem prefixOf_of_neg {buf : Bytes} {len : Int} (h : ¬0 ≤ len) :
    prefixOf buf len = .error .badLength := if_neg fun hle => h hle.1

/-- Reading a text, with more memory behind it. -/
theorem prefixOf_append_length (text rest : Bytes) :
    prefixOf (text ++ rest) text.length = .ok text := by
  have hle : (text.length : Int) ≤ (text ++ rest).length := by
    rw [List.length_append]
    omega
  rw [prefixOf_of_le (by omega) hle, Int.toNat_natCast, List.take_left]

/-- The narrowed length of a text asks for a part of the text. -/
theorem prefixOf_append_narrowInt (text rest : Bytes) :
    prefixOf (text ++ rest) (narrowInt text.length) =
      if 0 ≤ narrowInt text.length then .ok (text.take (narrowInt text.length).toNat)
      else .error .badLength := by
  have hle := narrowInt_le text.length
  unfold prefixOf
  split
  · rename_i h
    rw [if_pos h.1, List.take_append_of_le_length (by omega)]
  · rename_i h
    rw [if_neg]
    intro h0
    exact h ⟨h0, by rw [List.length_append]; omega⟩

end PhpCouchbase
