import PhpCouchbase.Zval
import Mathlib.Logic.Function.Basic

/-!
# fastlz

Model of `fastlz/fastlz.c`, which includes itself twice, once for each level of the format; what the
two differ in are the `#if`s of the macro `FASTLZ_LEVEL`, here the argument `Level`.

* `compressor`, `compress` — `FASTLZ_COMPRESSOR` and `fastlz_compress`.
* `decompressor`, `decompress` — `FASTLZ_DECOMPRESSOR` and `fastlz_decompress`.

A pointer is an offset into its buffer.  The input is the memory from its pointer on, and reading
past the end of it is a fault; so is reading output that was not written, and writing output past
`maxout`.
-/

set_option autoImplicit false

namespace PhpCouchbase

namespace Fastlz

/-- `FASTLZ_LEVEL` -/
inductive Level where
  | one
  | two
  deriving DecidableEq, Repr

def maxCopy : Nat := 32
def maxLen : Nat := 264
def hashSize : Nat := 2 ^ 13

/-- `MAX_DISTANCE` -/
def Level.maxDistance : Level → Nat
  | .one => 8192
  | .two => 8191

def maxFarDistance : Nat := 65535 + Level.two.maxDistance - 1

/-- `*(mem + p)` -/
def readU8 (mem : Bytes) (p : Nat) : C UInt8 :=
  match mem[p]? with
  | some b => .ok b
  | none => .error .outOfBounds

/-- `FASTLZ_READU16` -/
def readU16 (mem : Bytes) (p : Nat) : C UInt32 := do
  let lo ← readU8 mem p
  let hi ← readU8 mem (p + 1)
  return lo.toUInt32 ||| hi.toUInt32 <<< 8

/-! ## Compressing -/

/-- `HASH_MASK` keeps the value inside the table. -/
def hashMask (v : UInt32) : Fin hashSize :=
  ⟨(v &&& 8191).toNat, by
    rw [UInt32.toNat_and]
    exact Nat.lt_of_le_of_lt Nat.and_le_right (by decide)⟩

/-- `HASH_FUNCTION` -/
def hashFunction (mem : Bytes) (p : Nat) : C (Fin hashSize) := do
  let v ← readU16 mem p
  let w ← readU16 mem (p + 1)
  return hashMask (v ^^^ (w ^^^ (v >>> 3)))

/-- The variables of the compressor.  `op` is the length of `out`; `high` is how far into the output
buffer it has written. -/
structure Compressor where
  ip : Nat
  out : Bytes
  high : Nat
  htab : Fin hashSize → Nat
  copy : Nat

namespace Compressor

/-- `*op++ = b`, once for each byte. -/
def put (s : Compressor) (bytes : Bytes) : Compressor :=
  { s with out := s.out ++ bytes, high := max s.high (s.out.length + bytes.length) }

/-- `htab[hval] = p` -/
def remember (s : Compressor) (hval : Fin hashSize) (p : Nat) : Compressor :=
  { s with htab := Function.update s.htab hval p }

/-- The label `literal`; the copy of the left-over does the same. -/
def literal (mem : Bytes) (anchor : Nat) (s : Compressor) : C Compressor := do
  let b ← readU8 mem anchor
  let s := { s.put [b] with ip := anchor + 1, copy := s.copy + 1 }
  if s.copy = maxCopy then
    return { s.put [UInt8.ofNat (maxCopy - 1)] with copy := 0 }
  else return s

/-- The copy count of the literals is written, or its place is given back. -/
def adjustCopy (s : Compressor) : Bytes :=
  if s.copy ≠ 0 then s.out.set (s.out.length - s.copy - 1) (UInt8.ofNat (s.copy - 1))
  else s.out.dropLast

end Compressor

/-- `if(*ref++ != *ip++) break;`, at most so many times: where `ip` ends, and whether it broke. -/
def compareRun (mem : Bytes) : Nat → Nat → Nat → C (Nat × Bool)
  | 0, _, ip => .ok (ip, false)
  | n + 1, ref, ip => do
    if (← readU8 mem ref) ≠ (← readU8 mem ip) then return (ip + 1, true)
    else compareRun mem n (ref + 1) (ip + 1)

/-- The loop for a run: `ip` stays where it breaks. -/
def runEnd (mem : Bytes) (x : UInt8) : Nat → Nat → Nat → C Nat
  | 0, _, ip => .ok ip
  | n + 1, ref, ip => do
    if (← readU8 mem ref) ≠ x then return ip
    else runEnd mem x n (ref + 1) (ip + 1)

/-- The extension of a match: eight bytes without a look at the bound, then up to the bound. -/
def matchEnd (mem : Bytes) (bound ref ip distance : Nat) : C Nat :=
  if distance = 0 then do
    let x ← readU8 mem (ip - 1)
    runEnd mem x (bound - ip) ref ip
  else do
    let eight ← compareRun mem 8 ref ip
    if eight.2 then return eight.1
    else return (← compareRun mem (bound - eight.1) (ref + 8) eight.1).1

/-- `for(len-=7; len >= 255; len-= 255) *op++ = 255; *op++ = len;` -/
def lenBytes (len : Nat) : Bytes :=
  if 255 ≤ len then 255 :: lenBytes (len - 255) else [UInt8.ofNat len]

/-- The encoding of a match at level 2; `distance` is biased. -/
def matchBytesTwo (distance len : Nat) : Bytes :=
  if distance < Level.two.maxDistance then
    if len < 7 then
      [UInt8.ofNat (len <<< 5 + distance >>> 8), UInt8.ofNat (distance &&& 255)]
    else
      [UInt8.ofNat (7 <<< 5 + distance >>> 8)] ++ lenBytes (len - 7) ++
        [UInt8.ofNat (distance &&& 255)]
  else
    let far := distance - Level.two.maxDistance
    if len < 7 then
      [UInt8.ofNat (len <<< 5 + 31), 255, UInt8.ofNat (far >>> 8), UInt8.ofNat (far &&& 255)]
    else
      [UInt8.ofNat (7 <<< 5 + 31)] ++ lenBytes (len - 7) ++
        [255, UInt8.ofNat (far >>> 8), UInt8.ofNat (far &&& 255)]

/-- The encoding of a match at level 1, which cuts a long one. -/
def matchBytesOne (distance len : Nat) : Bytes :=
  if maxLen - 2 < len then
    [UInt8.ofNat (7 <<< 5 + distance >>> 8), UInt8.ofNat (maxLen - 2 - 7 - 2),
      UInt8.ofNat (distance &&& 255)] ++ matchBytesOne distance (len - (maxLen - 2))
  else if len < 7 then
    [UInt8.ofNat (len <<< 5 + distance >>> 8), UInt8.ofNat (distance &&& 255)]
  else
    [UInt8.ofNat (7 <<< 5 + distance >>> 8), UInt8.ofNat (len - 7), UInt8.ofNat (distance &&& 255)]
termination_by len
decreasing_by
  have : 0 < maxLen - 2 := by decide
  omega

def Level.matchBytes : Level → Nat → Nat → Bytes
  | .one => matchBytesOne
  | .two => matchBytesTwo

/-- From the label `match` on: the match starts at `anchor`, `len` bytes of it are compared, `ref`
is behind the bytes they were compared with. -/
def Compressor.emitMatch (level : Level) (mem : Bytes) (length anchor ref len distance : Nat)
    (s : Compressor) : C Compressor := do
  let ip ← matchEnd mem (length - 2) ref (anchor + len) (distance - 1)
  let s := { s with out := s.adjustCopy, copy := 0 }
  let ip := ip - 3
  let s := s.put (level.matchBytes (distance - 1) (ip - anchor))
  let s := s.remember (← hashFunction mem ip) ip
  let s := s.remember (← hashFunction mem (ip + 1)) (ip + 1)
  return { s.put [UInt8.ofNat (maxCopy - 1)] with ip := ip + 2 }

/-- The check for a run at level 2. -/
def isRun (mem : Bytes) (ip : Nat) : C Bool := do
  if (← readU8 mem ip) = (← readU8 mem (ip - 1)) then
    return (← readU16 mem (ip - 1)) == (← readU16 mem (ip + 1))
  else return false

/-- A distance that the level cannot write. -/
def Level.tooFar : Level → Nat → Bool
  | .one, distance => Level.one.maxDistance ≤ distance
  | .two, distance => maxFarDistance ≤ distance

/-- Far matches of level 2 need five bytes. -/
def Level.isFar : Level → Nat → Bool
  | .one, _ => false
  | .two, distance => Level.two.maxDistance ≤ distance

/-- One pass of the main loop. -/
def Compressor.step (level : Level) (mem : Bytes) (length : Nat) (s : Compressor) :
    C Compressor := do
  let anchor := s.ip
  if ← (if level = .two then isRun mem anchor else .ok false) then
    s.emitMatch level mem length anchor (anchor - 1 + 3) 3 1
  else
    let hval ← hashFunction mem anchor
    let ref := s.htab hval
    let distance := anchor - ref
    let s := s.remember hval anchor
    if distance = 0 ∨ level.tooFar distance then s.literal mem anchor
    else if (← compareRun mem 3 ref anchor).2 then s.literal mem anchor
    else if level.isFar distance then
      if (← compareRun mem 2 (ref + 3) (anchor + 3)).2 then s.literal mem anchor
      else s.emitMatch level mem length anchor (ref + 5) 5 distance
    else s.emitMatch level mem length anchor (ref + 3) 3 distance

/-- The main loop.  Each pass moves `ip`, so `length` passes are enough (`mainLoop_ends`). -/
def mainLoop (level : Level) (mem : Bytes) (length : Nat) : Nat → Compressor → C Compressor
  | 0, s => .ok s
  | fuel + 1, s => do
    if s.ip + 12 < length then mainLoop level mem length fuel (← s.step level mem length)
    else return s

/-- The left-over as literal copy. -/
def leftOver (mem : Bytes) : Nat → Compressor → C Compressor
  | 0, s => .ok s
  | n + 1, s => do leftOver mem n (← s.literal mem s.ip)

/-- What the compressor wrote, and how far into the buffer it wrote on the way. -/
structure Written where
  out : Bytes
  high : Nat
  deriving DecidableEq, Repr

/-- The marker of level 2 in the first byte. -/
def Level.mark : Level → Bytes → Bytes
  | .one, out => out
  | .two, out => out.modify 0 (· ||| 32)

/-- The variables before the main loop: two literals are copied. -/
def Compressor.start (b c : UInt8) : Compressor :=
  ⟨2, [UInt8.ofNat (maxCopy - 1), b, c], 3, fun _ => 0, 2⟩

/-- `FASTLZ_COMPRESSOR` -/
def compressor (level : Level) (mem : Bytes) (length : Nat) : C Written :=
  if length < 4 then
    if length = 0 then .ok ⟨[], 0⟩
    else do
      let literals ← prefixOf mem length
      return ⟨UInt8.ofNat (length - 1) :: literals, length + 1⟩
  else do
    let s ← mainLoop level mem length length (.start (← readU8 mem 0) (← readU8 mem 1))
    let s ← leftOver mem (length - s.ip) s
    return ⟨level.mark s.adjustCopy, s.high⟩

/-- The level that `fastlz_compress` chooses. -/
def levelFor (length : Nat) : Level := if length < 65536 then .one else .two

/-- `fastlz_compress` -/
def compress (mem : Bytes) (length : Nat) : C Written := compressor (levelFor length) mem length

/-! ## Decompressing -/

/-- `ip` and `ip_limit`: the memory from `ip` on, and how far away the limit is. -/
structure Input where
  rest : Bytes
  left : Int

/-- `*ip++` -/
def Input.next : Input → C (UInt8 × Input)
  | ⟨b :: rest, left⟩ => .ok (b, ⟨rest, left - 1⟩)
  | ⟨[], _⟩ => .error .outOfBounds

/-- The bytes of a long match at level 2: `len += code` until a byte that is not 255. -/
def longLen : Nat → Bytes → Int → C (Nat × Input)
  | _, [], _ => .error .outOfBounds
  | len, code :: rest, left =>
    let len := (len + code.toNat) % 2 ^ 32
    if code = 255 then longLen len rest (left - 1) else .ok (len, ⟨rest, left - 1⟩)

/-- The length of a match, less three. -/
def readLen (level : Level) (ctrl : Nat) (ip : Input) : C (Nat × Input) :=
  let len := ctrl >>> 5 - 1
  if len = 7 - 1 then
    match level with
    | .one => do
      let (code, ip) ← ip.next
      return (len + code.toNat, ip)
    | .two => longLen len ip.rest ip.left
  else .ok (len, ip)

/-- How far `ref` is behind `op`; level 2 has matches with a distance of 16 bits. -/
def readBack (level : Level) (ofs : Nat) (ip : Input) : C (Nat × Input) := do
  let (code, ip) ← ip.next
  if level = .two ∧ code = 255 ∧ ofs = 31 <<< 8 then
    let (hi, ip) ← ip.next
    let (lo, ip) ← ip.next
    return (hi.toNat <<< 8 + lo.toNat + Level.two.maxDistance, ip)
  else return (ofs + code.toNat, ip)

/-- Both. -/
def readMatch (level : Level) (ctrl : Nat) (ip : Input) : C (Nat × Nat × Input) := do
  let (len, ip) ← readLen level ctrl ip
  let (back, ip) ← readBack level ((ctrl &&& 31) <<< 8) ip
  return (len, back, ip)

/-- `*op++ = *ref++`, so many times. -/
def copyBytes : Nat → Nat → Bytes → C Bytes
  | 0, _, out => .ok out
  | n + 1, ref, out => do copyBytes n (ref + 1) (out ++ [← readU8 out ref])

/-- `*q++ = *p++` with words of 16 bits, so many times. -/
def copyWords : Nat → Nat → Bytes → C Bytes
  | 0, _, out => .ok out
  | n + 1, ref, out => do
    let lo ← readU8 out ref
    let hi ← readU8 out (ref + 1)
    copyWords n (ref + 2) (out ++ [lo, hi])

/-- The copy of a match from `ref` on, three bytes and `len` more.  Only a build without
`FASTLZ_STRICT_ALIGN`, which is one for 32-bit x86, copies words, after a byte that makes their
number even. -/
def copyMatch (strictAlign : Bool) (ref len : Nat) (out : Bytes) : C Bytes := do
  let out ← copyBytes 3 ref out
  if strictAlign then copyBytes len (ref + 3) out
  else
    let out' ← copyBytes (len &&& 1) (ref + 3) out
    copyWords (len >>> 1) (ref + 3 + (len &&& 1)) out'

/-- One pass of the loop: it returns 0, or it has written more output.  The next instruction is read
before a match is copied, and there is none at the limit. -/
inductive Pass where
  | failed
  | wrote (control : Option (Nat × Input)) (out : Bytes)

/-- The next instruction, if the limit is not reached. -/
def Input.control (ip : Input) : C (Option (Nat × Input)) :=
  if 0 < ip.left then do
    let (ctrl, ip) ← ip.next
    return some (ctrl.toNat, ip)
  else .ok none

/-- The copy behind `op`: one byte repeated where `ref` is `op`. -/
def copyBehind (strictAlign : Bool) (back len : Nat) (out : Bytes) : C Bytes :=
  if back = 0 then do
    let b ← readU8 out (out.length - 1)
    return out ++ [b, b, b] ++ List.replicate len b
  else copyMatch strictAlign (out.length - back - 1) len out

/-- What a pass has written so far, in a buffer of `maxout` bytes. -/
def store (maxout : Int) (out : Bytes) : C Bytes :=
  if (out.length : Int) ≤ maxout then .ok out else .error .outOfBounds

/-- A match: both checks of `FASTLZ_SAFE`, the next instruction, the copy. -/
def matchPass (level : Level) (strictAlign : Bool) (maxout : Int) (ctrl : Nat) (ip : Input)
    (out : Bytes) : C Pass := do
  let (len, back, ip) ← readMatch level ctrl ip
  if maxout < out.length + len + 3 then return .failed
  else if out.length < back + 1 then return .failed
  else
    let control ← ip.control
    return .wrote control (← store maxout (← copyBehind strictAlign back len out))

/-- A run of literals. -/
def literalPass (maxout : Int) (ctrl : Nat) (ip : Input) (out : Bytes) : C Pass :=
  let ctrl := ctrl + 1
  if maxout < out.length + ctrl then .ok .failed
  else if ip.left < ctrl then .ok .failed
  else do
    let literals ← prefixOf ip.rest ctrl
    let out ← store maxout (out ++ literals)
    let control ← Input.control ⟨ip.rest.drop ctrl, ip.left - ctrl⟩
    return .wrote control out

def pass (level : Level) (strictAlign : Bool) (maxout : Int) (ctrl : Nat) (ip : Input)
    (out : Bytes) : C Pass :=
  if 32 ≤ ctrl then matchPass level strictAlign maxout ctrl ip out
  else literalPass maxout ctrl ip out

/-- The loop; the empty output is the answer 0.  Each pass that goes on has read a byte, so the
number of bytes is enough (`loop_enough`). -/
def loop (level : Level) (strictAlign : Bool) (maxout : Int) : Nat → Nat → Input → Bytes → C Bytes
  | 0, _, _, _ => .ok []
  | fuel + 1, ctrl, ip, out => do
    match ← pass level strictAlign maxout ctrl ip out with
    | .failed => return []
    | .wrote none out => return out
    | .wrote (some (ctrl, ip)) out => loop level strictAlign maxout fuel ctrl ip out

/-- `FASTLZ_DECOMPRESSOR` -/
def decompressor (level : Level) (strictAlign : Bool) (mem : Bytes) (length maxout : Int) :
    C Bytes := do
  let (ctrl, ip) ← Input.next ⟨mem, length⟩
  loop level strictAlign maxout (ip.rest.length + 1) (ctrl.toNat &&& 31) ip []

/-- `fastlz_decompress`; a third level is an error. -/
def decompress (strictAlign : Bool) (mem : Bytes) (length maxout : Int) : C Bytes := do
  let first ← readU8 mem 0
  let level := first >>> 5 + 1
  if level = 1 then decompressor .one strictAlign mem length maxout
  else if level = 2 then decompressor .two strictAlign mem length maxout
  else return []

end Fastlz

end PhpCouchbase
