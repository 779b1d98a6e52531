import PhpCouchbase.Opcookie
import PhpCouchbase.Lib.LinkedList

/-!
# The list of an operation cookie

A cookie (`opcookie.c`) keeps its results in a linked list: each callback allocates one and pushes
it behind the last. The call then goes over the list, once or several times, and frees it.

* `opcookiePush`, `opcookieNextRes`, `foreachOpcookieRes`, `opcookieDestroy` — the operations on cells;
  a cell that was freed, or a null tail, is a fault.
* `Represents.push` — the list in memory follows the list of results.
* `foreach_eq` — the macro goes over the results in their order and ends.
* `opcookie_complete` — every sequence of pushes.
-/

set_option autoImplicit false

namespace PhpCouchbase

open LinkedList

variable {ρ σ : Type}

/-! ## The operations -/

/-- `opcookie`: the cells of the results with `res_head` and `res_tail`, and `first_error`. -/
structure CookieList (ρ : Type) where
  res : LinkedList ρ
  firstError : LcbError

/-- `opcookie_init` -/
def opcookieInit : CookieList ρ := ⟨.empty, .success⟩

/-- The result, in a cell that was just allocated, is linked behind the tail. -/
def opcookieLink (l : LinkedList ρ) (res : ρ) : C (LinkedList ρ) :=
  match l.head with
  | none => .ok (l.attach res)
  | some _ =>
    match l.tail with
    | none => .error .nullPointer
    | some t =>
      if (l.read t).isSome then .ok ((l.setNext t l.cells.length).attach res) else .error .freed

/-- `opcookie_push` -/
def opcookiePush (err : ρ → LcbError) (cookie : CookieList ρ) (res : ρ) : C (CookieList ρ) := do
  let l ← opcookieLink cookie.res res
  return {
    res := l
    firstError :=
      if err res ≠ .success ∧ cookie.firstError = .success then err res else cookie.firstError }

/-- `opcookie_get_first_error` -/
def opcookieGetFirstError (cookie : CookieList ρ) : LcbError := cookie.firstError

/-- `opcookie_next_res` -/
def opcookieNextRes (cookie : CookieList ρ) : Option Nat → C (Option Nat)
  | none => .ok cookie.res.head
  | some cur =>
    match cookie.res.read cur with
    | some n => .ok n.next
    | none => .error .freed

/-- `FOREACH_OPCOOKIE_RES`, started with a null `Res`; `none` is a loop that has not ended. -/
def foreachOpcookieRes (cookie : CookieList ρ) (body : σ → Nat → C σ) :
    Nat → Option Nat → σ → Option (C σ)
  | 0, _, _ => none
  | fuel + 1, res, s =>
    match opcookieNextRes cookie res with
    | .error e => some (.error e)
    | .ok none => some (.ok s)
    | .ok (some p) =>
      match body s p with
      | .error e => some (.error e)
      | .ok s' => foreachOpcookieRes cookie body fuel (some p) s'

/-- `opcookie_destroy`, with the cells that it freed, in order. -/
def opcookieDestroy (cookie : CookieList ρ) (fuel : Nat) : Option (C (LinkedList ρ × List Nat)) :=
  dismantleFrom .freed fuel cookie.res.head cookie.res []

/-! ## The list in memory -/

theorem opcookieLink_eq {l : LinkedList ρ} {xs : List ρ} (h : Holds l xs) (res : ρ) :
    ∃ l', opcookieLink l res = .ok l' ∧ Holds l' (xs ++ [res]) := by
  obtain ⟨l', hpush, hl'⟩ := holds_push h res
  refine ⟨l', ?_, hl'⟩
  obtain ⟨ps, hps⟩ := h
  unfold LinkedList.push at hpush
  unfold opcookieLink
  cases hhead : l.head with
  | none =>
    -- no head, no tail
    obtain rfl : ps = [] := List.head?_eq_none_iff.mp (hps.head.symm.trans hhead)
    have htail : l.tail = none := hps.tail
    rw [htail] at hpush
    exact congrArg Except.ok (Option.some.inj hpush)
  | some p =>
    cases htail : l.tail with
    | none =>
      obtain rfl : ps = [] := List.getLast?_eq_none_iff.mp (hps.tail.symm.trans htail)
      rw [hps.head] at hhead
      cases hhead
    | some t =>
      simp only [htail] at hpush ⊢
      split at hpush
      · rename_i hread
        rw [if_pos hread, Option.some.inj hpush]
      · cases hpush

/-- A cookie in memory has the results and the error of a cookie that is a list. -/
structure Represents (cookie : CookieList ρ) (list : Opcookie ρ) : Prop where
  results : Holds cookie.res list.results
  firstError : cookie.firstError = list.firstError

theorem represents_init : Represents (opcookieInit : CookieList ρ) Opcookie.init where
  results := holds_empty
  firstError := rfl

theorem Represents.push {cookie : CookieList ρ} {list : Opcookie ρ} (h : Represents cookie list)
    (err : ρ → LcbError) (res : ρ) :
    ∃ cookie', opcookiePush err cookie res = .ok cookie' ∧ Represents cookie' (list.push err res) := by
  obtain ⟨l, hlink, hl⟩ := opcookieLink_eq h.results res
  refine ⟨_, by rw [opcookiePush, hlink, C.bind_ok, C.pure_eq], hl, ?_⟩
  simp only [Opcookie.push, h.firstError]

/-- The pushes of all callbacks of a call. -/
def pushAll (err : ρ → LcbError) (rs : List ρ) : C (CookieList ρ) :=
  rs.foldlM (opcookiePush err) opcookieInit

/-- **Refinement.**  The list in memory follows the list of results. -/
theorem represents_pushAll (err : ρ → LcbError) (rs : List ρ) :
    ∃ cookie, pushAll err rs = .ok cookie ∧ Represents cookie (Opcookie.collect err rs) := by
  have hrun : ∀ {cookie : CookieList ρ} {list : Opcookie ρ}, Represents cookie list →
      ∃ cookie', rs.foldlM (opcookiePush err) cookie = .ok cookie' ∧
        Represents cookie' (rs.foldl (Opcookie.push err) list) := by
    induction rs with
    | nil => exact fun h => ⟨_, rfl, h⟩
    | cons r rs ih =>
      intro cookie list h
      obtain ⟨cookie₁, hpush, h₁⟩ := h.push err r
      obtain ⟨cookie', hrest, h'⟩ := ih h₁
      exact ⟨cookie', by rw [List.foldlM_cons, hpush, C.bind_ok, hrest], h'⟩
  exact hrun represents_init

/-! ## Going over the list -/

/-- The `Res` that the macro has before the result at position `i`. -/
def cursor (ps : List Nat) : Nat → Option Nat
  | 0 => none
  | i + 1 => ps[i]?

theorem nextRes_cursor {cookie : CookieList ρ} {ps : List Nat} {xs : List ρ}
    (h : HoldsAt cookie.res ps xs) {i : Nat} (hi : i ≤ xs.length) :
    opcookieNextRes cookie (cursor ps i) = .ok ps[i]? := by
  cases i with
  | zero => rw [cursor, opcookieNextRes, h.head, List.head?_eq_getElem?]
  | succ i =>
    have hlt : i < ps.length := by
      rw [h.length]
      omega
    have hp : ps[i]? = some ps[i] := List.getElem?_eq_getElem hlt
    have hv : xs[i]? = some xs[i] := List.getElem?_eq_getElem _
    rw [cursor, hp, opcookieNextRes, h.node i _ _ hp hv]

/-- **The macro** runs its body on every result, in their order, and ends. -/
theorem foreach_eq {cookie : CookieList ρ} {ps : List Nat} {xs : List ρ}
    (h : HoldsAt cookie.res ps xs) (body : σ → Nat → C σ) {i fuel : Nat} (hi : i ≤ xs.length)
    (hfuel : xs.length < fuel + i) (s : σ) :
    foreachOpcookieRes cookie body fuel (cursor ps i) s = some ((ps.drop i).foldlM body s) := by
  induction fuel generalizing i s with
  | zero => omega
  | succ fuel ih =>
    rw [foreachOpcookieRes, nextRes_cursor h hi]
    by_cases hlt : i < ps.length
    · rw [List.getElem?_eq_getElem hlt, List.drop_eq_getElem_cons hlt, List.foldlM_cons]
      cases hbody : body s ps[i] with
      | error e =>
        simp only [hbody]
        rfl
      | ok s' =>
        have hcur : some ps[i] = cursor ps (i + 1) := (List.getElem?_eq_getElem hlt).symm
        simp only [hbody]
        rw [hcur, ih (by rw [← h.length]; omega) (by omega)]
        rfl
    · rw [List.getElem?_eq_none (by omega), List.drop_eq_nil_of_le (by omega)]
      rfl

/-! ## Every sequence of pushes -/

/-- **A complete cookie**: its cells `ps` are the results, each once.  The macro runs any body on
all of them in their order, and ends; it only reads the cookie, so it can be run again, and `ps` are
also the cells that are freed in the end. -/
structure CompleteCookie (err : ρ → LcbError) (rs : List ρ) (cookie : CookieList ρ) (ps : List Nat) :
    Prop where
  nodup : ps.Nodup
  values : (ps.map fun p => (cookie.res.read p).map LinkedNode.value) = rs.map some
  iterates : ∀ {σ : Type} (body : σ → Nat → C σ) (s : σ) (fuel : Nat), rs.length < fuel →
    foreachOpcookieRes cookie body fuel none s = some (ps.foldlM body s)
  firstError : opcookieGetFirstError cookie =
    ((rs.find? fun r => err r ≠ .success).map err).getD .success
  destroyed : ∀ fuel, rs.length ≤ fuel → ∃ l, opcookieDestroy cookie fuel = some (.ok (l, ps)) ∧
    ∀ p, l.read p = if p ∈ ps then none else cookie.res.read p

theorem values_of_holdsAt {l : LinkedList ρ} {ps : List Nat} {xs : List ρ} (h : HoldsAt l ps xs) :
    (ps.map fun p => (l.read p).map LinkedNode.value) = xs.map some := by
  apply List.ext_getElem
  · rw [List.length_map, List.length_map, h.length]
  · intro i hi hi'
    rw [List.length_map] at hi hi'
    rw [List.getElem_map, List.getElem_map,
      h.node i _ _ (List.getElem?_eq_getElem hi) (List.getElem?_eq_getElem hi')]
    rfl

/-- **The results of a call.**  For every sequence of pushes on a fresh cookie, the macro yields
every result once and in order, the first error is that of the first failed result, and the
destructor frees every result once. -/
theorem opcookie_complete (err : ρ → LcbError) (rs : List ρ) :
    ∃ cookie ps, pushAll err rs = .ok cookie ∧ CompleteCookie err rs cookie ps := by
  obtain ⟨cookie, hpush, hrep⟩ := represents_pushAll err rs
  have hresults := hrep.results
  rw [Opcookie.collect_results] at hresults
  obtain ⟨ps, hps⟩ := hresults
  refine ⟨cookie, ps, hpush, hps.nodup, values_of_holdsAt hps, ?_, ?_, ?_⟩
  · intro σ body s fuel hfuel
    exact foreach_eq hps body (i := 0) (Nat.zero_le _) hfuel s
  · exact hrep.firstError.trans (Opcookie.collect_firstError_eq err rs)
  · intro fuel hfuel
    exact hps.dismantle Fault.freed hfuel

end PhpCouchbase
