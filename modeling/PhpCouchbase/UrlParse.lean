import PhpCouchbase.PoolRefs

/-!
# URLs of connection strings

A connection string is read by `php_url_parse` (in `pool.c`) as
`scheme://host[:port][/path][?query]`.  The function is PHP's: it stands here for what it does with
such texts, and the connection strings are studied over any parser that splits them correctly.

* `Url.render` — the text of a URL, and `Url.WellFormed` — the URLs whose text can be split again.
* `urlParse_render` — a parser that does so.
-/

set_option autoImplicit false

namespace PhpCouchbase

/-! ## URLs and their texts -/

/-- `scheme://host[:port][/path][?query]` -/
def Url.render (u : Url) : Bytes :=
  u.authority ++ (u.path.elim [] CString.bytes) ++ u.querySuffix

def isSchemeChar (c : UInt8) : Bool :=
  decide (65 ≤ c.toNat ∧ c.toNat ≤ 90) || decide (97 ≤ c.toNat ∧ c.toNat ≤ 122) || isDigit c ||
    c = 43 || c = 45 || c = 46

def isControl (c : UInt8) : Bool := decide (c.toNat < 32) || c = 127

/-- What ends a host: a slash, a question mark or a hash. -/
def endsHost (c : UInt8) : Bool := c = 47 || c = 63 || c = 35

/-- A host in brackets, as an IPv6 address is written. -/
def bracketed (h : Bytes) : Bool := h.head? = some 91 && h.getLast? = some 93

/-- A list of hosts.  Without a port behind it there is no colon in it, except in brackets. -/
structure HostText (port : UInt16) (h : Bytes) : Prop where
  nonempty : h ≠ []
  chars : ∀ c ∈ h, endsHost c = false ∧ c ≠ 64 ∧ isControl c = false
  colon : port = 0 → 58 ∉ h ∨ bracketed h = true

/-- A URL whose text can be split at its delimiters. -/
structure Url.WellFormed (u : Url) : Prop where
  scheme : ∃ s, u.scheme = some s ∧ s.bytes ≠ [] ∧ ∀ c ∈ s.bytes, isSchemeChar c = true
  host : ∃ h, u.host = some h ∧ HostText u.port h.bytes
  path : ∀ p, u.path = some p → p.bytes.head? = some 47 ∧
    ∀ c ∈ p.bytes, c ≠ 63 ∧ c ≠ 35 ∧ isControl c = false
  query : ∀ q, u.query = some q → q.bytes ≠ [] ∧ ∀ c ∈ q.bytes, c ≠ 35 ∧ isControl c = false

/-- The same URL with another path. -/
def Url.withPath (u : Url) (path : Option CString) : Url := { u with path }

/-- The part of the text behind the host and the port. -/
def Url.tail (u : Url) : Bytes := u.path.elim [] CString.bytes ++ u.querySuffix

/-- The part between the scheme and that. -/
def Url.hostPort (u : Url) (h : CString) : Bytes :=
  h.bytes ++ if u.port ≠ 0 then ascii ":" ++ decimal u.port.toNat else []

theorem Url.render_eq {u : Url} {s h : CString} (hs : u.scheme = some s) (hh : u.host = some h) :
    u.render = s.bytes ++ (ascii "://" ++ (u.hostPort h ++ u.tail)) := by
  simp only [Url.render, Url.authority, Url.hostPort, Url.tail, hs, hh, List.append_assoc]

/-! ## A parser -/

/-- The scheme, and what follows `://`. -/
def splitScheme (s : Bytes) : Option (Bytes × Bytes) :=
  match s.dropWhile (· ≠ 58) with
  | 58 :: 47 :: 47 :: rest =>
    let scheme := s.takeWhile (· ≠ 58)
    if scheme ≠ [] ∧ scheme.all isSchemeChar then some (scheme, rest) else none
  | _ => none

/-- What is before and behind the last colon. -/
def splitLastColon (s : Bytes) : Option (Bytes × Bytes) :=
  match s.reverse.dropWhile (· ≠ 58) with
  | _ :: before => some (before.reverse, (s.reverse.takeWhile (· ≠ 58)).reverse)
  | [] => none

/-- A port is a number below 2^16 and not 0, or nothing. -/
def readPort (digits : Bytes) : Option UInt16 :=
  if digits = [] then some 0
  else (digits.mapM digitVal).bind fun ds =>
    let n := Numeral.evalFrom 10 0 ds
    if 0 < n ∧ n < 2 ^ 16 then some (UInt16.ofNat n) else none

def splitPort (auth : Bytes) : Option (Bytes × UInt16) :=
  if bracketed auth then some (auth, 0)
  else
    match splitLastColon auth with
    | none => some (auth, 0)
    | some (host, digits) => (readPort digits).map fun port => (host, port)

def textOption (s : Bytes) : Option CString := if s = [] then none else some (.ofBytes s)

/-- The path and the query of what follows the host; a fragment is dropped. -/
def splitTail (t : Bytes) : Option CString × Option CString :=
  let t := t.takeWhile (· ≠ 35)
  (textOption (t.takeWhile (· ≠ 63)), textOption (t.dropWhile (· ≠ 63)).tail)

/-- `php_url_parse` on texts with a scheme and on bare paths, without control characters. -/
def urlParse (s : Bytes) : Option Url :=
  match splitScheme s with
  | none => some ⟨none, none, 0, (splitTail s).1, (splitTail s).2⟩
  | some (scheme, rest) =>
    (splitPort (rest.takeWhile fun c => !endsHost c)).bind fun (host, port) =>
      let tail := splitTail (rest.dropWhile fun c => !endsHost c)
      if host = [] then none
      else some ⟨some (.ofBytes scheme), some (.ofBytes host), port, tail.1, tail.2⟩

/-! ## Splitting a rendered URL -/

/-- A run of bytes that ends where the next text begins. -/
theorem span_append {p : UInt8 → Bool} {l r : Bytes} (hl : ∀ c ∈ l, p c = true)
    (hr : ∀ c, r.head? = some c → p c = false) :
    (l ++ r).takeWhile p = l ∧ (l ++ r).dropWhile p = r := by
  rw [List.takeWhile_append_of_pos hl, List.dropWhile_append_of_pos hl]
  cases r with
  | nil => simp
  | cons c r => simp [hr c rfl]

theorem isSchemeChar_ne_colon {c : UInt8} (h : isSchemeChar c = true) : (decide (c ≠ 58)) = true := by
  have hne : c ≠ 58 := by
    rintro rfl
    cases h
  simpa using hne

theorem splitScheme_append {s rest : Bytes} (hne : s ≠ []) (hs : ∀ c ∈ s, isSchemeChar c = true) :
    splitScheme (s ++ (ascii "://" ++ rest)) = some (s, rest) := by
  obtain ⟨htake, hdrop⟩ := span_append (p := (· ≠ 58)) (r := ascii "://" ++ rest)
    (fun c hc => isSchemeChar_ne_colon (hs c hc)) (by rintro c hc; cases hc; rfl)
  have hall : s.all isSchemeChar = true := List.all_eq_true.mpr hs
  rw [splitScheme, hdrop, htake]
  exact if_pos ⟨hne, hall⟩

theorem mapM_digitVal_decimal (n : Nat) :
    (decimal n).mapM digitVal = some (Numeral.emit 10 20 n []) := by
  have hlt : ∀ d ∈ Numeral.emit 10 20 n [], d < 10 := Numeral.lt_of_mem_emit (by omega) (by simp)
  unfold decimal
  generalize Numeral.emit 10 20 n [] = ds at hlt
  induction ds with
  | nil => rfl
  | cons d ds ih =>
    obtain ⟨hd, hds⟩ := List.forall_mem_cons.mp hlt
    rw [List.map_cons, List.mapM_cons, digitVal_digitByte hd, ih hds]
    rfl

theorem decimal_ne_nil (n : Nat) : decimal n ≠ [] := by
  intro h
  exact Numeral.emit_ne_nil (b := 10) (by omega) n [] (List.map_eq_nil_iff.mp h)

theorem readPort_decimal {port : UInt16} (h : port ≠ 0) :
    readPort (decimal port.toNat) = some port := by
  have hlt := port.toNat_lt
  have hpos : 0 < port.toNat := by
    rw [Nat.pos_iff_ne_zero]
    intro h0
    exact h (UInt16.toNat_inj.mp h0)
  have hval : Numeral.evalFrom 10 0 (Numeral.emit 10 20 port.toNat []) = port.toNat := by
    rw [Numeral.evalFrom_emit (by omega) (by omega) (by omega), Numeral.evalFrom_nil]
  rw [readPort, if_neg (decimal_ne_nil _), mapM_digitVal_decimal, Option.bind_some]
  simp only [hval]
  rw [if_pos ⟨hpos, by omega⟩]
  simp

theorem splitLastColon_append {h digits : Bytes} (hd : 58 ∉ digits) :
    splitLastColon (h ++ (58 :: digits)) = some (h, digits) := by
  have hrev : (h ++ 58 :: digits).reverse = digits.reverse ++ 58 :: h.reverse := by simp
  obtain ⟨htake, hdrop⟩ := span_append (p := (· ≠ 58)) (l := digits.reverse) (r := 58 :: h.reverse)
    (decide_ne_of_not_mem fun hmem => hd (List.mem_reverse.mp hmem))
    (by rintro c hc; cases hc; rfl)
  rw [splitLastColon, hrev, hdrop, htake]
  simp

theorem splitLastColon_none {h : Bytes} (hd : 58 ∉ h) : splitLastColon h = none := by
  have hdrop : h.reverse.dropWhile (· ≠ 58) = [] :=
    List.dropWhile_eq_nil_iff.mpr
      (decide_ne_of_not_mem fun hmem => hd (List.mem_reverse.mp hmem))
  rw [splitLastColon, hdrop]

theorem isDigit_getLast_decimal {n : Nat} {h : Bytes} :
    ∃ c, (h ++ (58 :: decimal n)).getLast? = some c ∧ isDigit c = true := by
  have hne := decimal_ne_nil n
  refine ⟨(decimal n).getLast hne, ?_, isDigit_of_mem_decimal (List.getLast_mem hne)⟩
  rw [List.getLast?_append, List.getLast?_cons, List.getLast?_eq_some_getLast hne]
  rfl

/-- The host and the port of a rendered URL. -/
theorem splitPort_hostPort {u : Url} {h : CString} (hh : HostText u.port h.bytes) :
    splitPort (u.hostPort h) = some (h.bytes, u.port) := by
  unfold Url.hostPort
  by_cases hport : u.port = 0
  · rw [if_neg (not_not.mpr hport), List.append_nil, splitPort, hport]
    split
    · rfl
    · rename_i hbracket
      have hcolon := (hh.colon hport).resolve_right hbracket
      rw [splitLastColon_none hcolon]
  · rw [if_pos hport]
    have htext : h.bytes ++ (ascii ":" ++ decimal u.port.toNat) =
        h.bytes ++ (58 :: decimal u.port.toNat) := rfl
    obtain ⟨c, hlast, hdigit⟩ := isDigit_getLast_decimal (n := u.port.toNat) (h := h.bytes)
    have hbracket : bracketed (h.bytes ++ (58 :: decimal u.port.toNat)) = false := by
      have hne : c ≠ 93 := by
        rintro rfl
        cases hdigit
      simp [bracketed, hlast, hne]
    have hcolon : 58 ∉ decimal u.port.toNat := fun hmem =>
      absurd (isDigit_of_mem_decimal hmem) (by decide)
    rw [htext, splitPort, hbracket, splitLastColon_append hcolon]
    simp [readPort_decimal hport]

theorem textOption_of_ne {t : CString} (h : t.bytes ≠ []) : textOption t.bytes = some t := by
  rw [textOption, if_neg h, ofBytes_bytes]

/-- The path and the query of a rendered URL. -/
theorem splitTail_tail {u : Url} (hu : u.WellFormed) : splitTail u.tail = (u.path, u.query) := by
  have hpath : ∀ c ∈ u.path.elim [] CString.bytes, c ≠ 63 ∧ c ≠ 35 := by
    cases hp : u.path with
    | none => simp
    | some p => exact fun c hc => ⟨((hu.path p hp).2 c hc).1, ((hu.path p hp).2 c hc).2.1⟩
  have hquery : ∀ c ∈ u.querySuffix, c ≠ 35 := by
    unfold Url.querySuffix
    cases hq : u.query with
    | none => simp
    | some q =>
      intro c hc
      rcases List.mem_append.mp hc with hc | hc
      · rw [List.mem_singleton.mp hc]
        decide
      · exact ((hu.query q hq).2 c hc).1
  have hfragment : u.tail.takeWhile (· ≠ 35) = u.tail := by
    rw [List.takeWhile_eq_self_iff]
    intro c hc
    have hne : c ≠ 35 := (List.mem_append.mp hc).elim (fun h => (hpath c h).2) (hquery c)
    simpa using hne
  obtain ⟨htake, hdrop⟩ := span_append (p := (· ≠ 63)) (l := u.path.elim [] CString.bytes)
    (r := u.querySuffix) (fun c hc => by simpa using (hpath c hc).1) (by
      unfold Url.querySuffix
      cases u.query with
      | none => simp
      | some q => rintro c hc; cases hc; rfl)
  rw [splitTail]
  simp only [hfragment]
  rw [Url.tail, htake, hdrop]
  congr 1
  · cases hp : u.path with
    | none => rfl
    | some p =>
      refine textOption_of_ne fun hnil => ?_
      have hhead := (hu.path p hp).1
      rw [hnil] at hhead
      cases hhead
  · unfold Url.querySuffix
    cases hq : u.query with
    | none => rfl
    | some q => exact textOption_of_ne (hu.query q hq).1

/-- What follows the host of a rendered URL ends it. -/
theorem endsHost_head_tail {u : Url} (hu : u.WellFormed) {c : UInt8} (h : u.tail.head? = some c) :
    endsHost c = true := by
  unfold Url.tail Url.querySuffix at h
  cases hp : u.path with
  | none =>
    cases hq : u.query with
    | none =>
      rw [hp, hq] at h
      cases h
    | some q =>
      rw [hp, hq] at h
      cases h
      rfl
  | some p =>
    have hhead := (hu.path p hp).1
    rw [hp, Option.elim_some, List.head?_append, hhead] at h
    cases h
    rfl

theorem not_endsHost_hostPort {u : Url} {h : CString} (hh : HostText u.port h.bytes) :
    ∀ c ∈ u.hostPort h, (!endsHost c) = true := by
  have hdigits : ∀ c ∈ decimal u.port.toNat, (!endsHost c) = true := by
    intro c hc
    have hdigit := isDigit_of_mem_decimal hc
    cases hends : endsHost c with
    | false => rfl
    | true =>
      simp only [endsHost, Bool.or_eq_true, decide_eq_true_eq] at hends
      rcases hends with (rfl | rfl) | rfl <;> cases hdigit
  intro c hc
  unfold Url.hostPort at hc
  rcases List.mem_append.mp hc with hc | hc
  · rw [(hh.chars c hc).1]
    rfl
  · split at hc
    · rcases List.mem_append.mp hc with hc | hc
      · rw [List.mem_singleton.mp hc]
        rfl
      · exact hdigits c hc
    · cases hc

/-- **The text of a well-formed URL is split into its parts.** -/
theorem urlParse_render {u : Url} (hu : u.WellFormed) : urlParse u.render = some u := by
  obtain ⟨s, hs, hsne, hschars⟩ := hu.scheme
  obtain ⟨h, hh, hhost⟩ := hu.host
  obtain ⟨htake, hdrop⟩ := span_append (p := fun c => !endsHost c) (l := u.hostPort h) (r := u.tail)
    (not_endsHost_hostPort hhost) (fun c hc => by rw [endsHost_head_tail hu hc]; rfl)
  rw [Url.render_eq hs hh, urlParse, splitScheme_append hsne hschars]
  simp only [htake, hdrop, splitPort_hostPort hhost, splitTail_tail hu, Option.bind_some]
  rw [if_neg hhost.nonempty, ofBytes_bytes, ofBytes_bytes, ← hs, ← hh]

end PhpCouchbase
