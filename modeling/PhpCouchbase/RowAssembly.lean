import PhpCouchbase.QueryRows
import PhpCouchbase.Lib.FallibleFold
import PhpCouchbase.Lib.LastWrite

/-!
# The rows of a result

A query (`bucket/n1ql.c`, `cbft.c`, `view.c`) gives back all of its rows or throws: the result of a
call has what the rows that are not final decode to, in the order in which they came, and there is
no result when a row came with an error.

* `RowReading` — what a service makes of a response, and for which responses it is defined.
* `assembled_iff` — what a call comes to, for any such service.
* `query_rows_iff` — the four services of `Bucket::query`.
-/

set_option autoImplicit false

namespace PhpCouchbase

open OrderedMap FallibleFold

/-! ## A service -/

/-- **What a service is for**, on a response: a row with an error, the final row, or a row that
decodes to something. -/
structure RowMeaning (σ : Type) where
  accepted : σ → Prop
  decoded : σ → Option Zval

/-- **A call assembles its rows**: it throws, or returns a result when all rows were accepted, with
what the rows that are not final decode to. -/
def Assembled {σ : Type} (m : RowMeaning σ) (x : RowExchange σ) (run : C QueryOutcome) : Prop :=
  ∃ outcome, run = .ok outcome ∧ ∀ result, outcome = .returned result →
    x.started = .success ∧ (∀ r ∈ x.rows, m.accepted r) ∧ result.rows = x.rows.filterMap m.decoded

/-- What a service can read: the responses of which the callback finds its way through the body, and
those of which the loop does. -/
structure RowLimits (σ : Type) where
  readable : σ → Prop
  complete : σ → Prop

/-- The responses of a call are readable: each one by the callback, and by the loop if none is an
error. -/
def ReadsAll {σ : Type} (m : RowMeaning σ) (l : RowLimits σ) (x : RowExchange σ) : Prop :=
  (∀ r ∈ x.rows, l.readable r) ∧
    ((∀ r ∈ x.rows, m.accepted r) → ∀ r ∈ x.rows, l.complete r)

/-- How a service reads a response: `res` is the result that the callback pushes. -/
structure RowReading {σ ρ : Type} (s : RowService σ ρ) (m : RowMeaning σ) (l : RowLimits σ) where
  res : σ → ρ
  callback_res : ∀ r p, s.callback r = .ok p → p.1 = res r
  callback_defined : ∀ r, (s.callback r).Defined ↔ l.readable r
  err_res : ∀ r, s.err (res r) = .success ↔ m.accepted r
  add_defined : ∀ q r, m.accepted r → ((s.add q (res r)).Defined ↔ l.complete r)
  add_rows : ∀ q q' r, m.accepted r → s.add q (res r) = .ok q' →
    q'.rows = q.rows ++ (m.decoded r).toList

namespace RowReading

variable {σ ρ : Type} {s : RowService σ ρ} {m : RowMeaning σ} {l : RowLimits σ}
  (reading : RowReading s m l)

include reading

/-- One response. -/
theorem deliver_defined (r : σ) (c : RowCookie ρ) : C.Defined (s.deliver c r) ↔ l.readable r := by
  rw [← reading.callback_defined, RowService.deliver, C.defined_bind]
  exact exists_congr fun p => and_iff_left (C.defined_ok _)

theorem deliver_cookie {c c' : RowCookie ρ} {r : σ} (h : s.deliver c r = .ok c') :
    c'.cookie = c.cookie.push s.err (reading.res r) := by
  obtain ⟨p, hp, h⟩ := C.bind_eq_ok.mp h
  rw [← reading.callback_res r p hp, ← Except.ok.inj h]

/-- **All responses**: each one is readable, and the cookie has their results. -/
theorem delivered_iff (rows : List σ) (c : RowCookie ρ) :
    C.Defined (rows.foldlM s.deliver c) ↔ ∀ r ∈ rows, l.readable r :=
  exists_foldlM_iff (fun r _ => reading.deliver_defined r) c

theorem delivered {rows : List σ} {c : RowCookie ρ}
    (h : rows.foldlM s.deliver ⟨Opcookie.init, none⟩ = .ok c) :
    c.cookie = Opcookie.collect s.err (rows.map reading.res) := by
  rw [view_foldlM RowCookie.cookie (fun cookie r => cookie.push s.err (reading.res r))
    (fun _ _ _ _ => reading.deliver_cookie) h]
  exact List.foldl_map.symm

/-- **The loop**, over the results of accepted responses. -/
theorem added_iff {rows : List σ} (haccepted : ∀ r ∈ rows, m.accepted r) (q : QueryResult) :
    C.Defined ((rows.map reading.res).foldlM s.add q) ↔ ∀ r ∈ rows, l.complete r := by
  rw [List.foldlM_map]
  exact exists_foldlM_iff (fun r hr q => reading.add_defined q r (haccepted r hr)) q

theorem added {rows : List σ} (haccepted : ∀ r ∈ rows, m.accepted r) {q : QueryResult}
    (h : (rows.map reading.res).foldlM s.add QueryResult.empty = .ok q) :
    q.rows = rows.filterMap m.decoded := by
  rw [List.foldlM_map] at h
  rw [view_foldlM QueryResult.rows (fun l r => l ++ (m.decoded r).toList)
    (fun r hr q q' => reading.add_rows q q' r (haccepted r hr)) h,
    LastWrite.foldl_append_flatMap, List.filterMap_eq_flatMap_toList]
  rfl

/-- The first error of the responses. -/
theorem firstError_iff (rows : List σ) :
    (Opcookie.collect s.err (rows.map reading.res)).firstError = .success ↔
      ∀ r ∈ rows, m.accepted r := by
  rw [Opcookie.collect_firstError_iff, List.forall_mem_map]
  exact forall₂_congr fun r _ => reading.err_res r

/-- **Exactly when a call assembles its rows.** -/
theorem assembled_iff (x : RowExchange σ) :
    Assembled m x (queryRequest s x) ↔ x.started ≠ .success ∨ ReadsAll m l x := by
  by_cases hstarted : x.started = .success
  · rw [or_iff_right (not_not.mpr hstarted), queryRequest, if_neg (not_not.mpr hstarted)]
    constructor
    · rintro ⟨outcome, hrun, -⟩
      obtain ⟨c, hc, hrun⟩ := C.bind_eq_ok.mp hrun
      refine ⟨(reading.delivered_iff x.rows _).mp ⟨c, hc⟩, fun haccepted => ?_⟩
      rw [reading.delivered hc, if_pos ((reading.firstError_iff x.rows).mpr haccepted),
        Opcookie.collect_results] at hrun
      obtain ⟨result, hresult, -⟩ := C.bind_eq_ok.mp hrun
      exact (reading.added_iff haccepted _).mp ⟨result, hresult⟩
    · rintro ⟨hreadable, hcomplete⟩
      obtain ⟨c, hc⟩ := (reading.delivered_iff x.rows ⟨Opcookie.init, none⟩).mpr hreadable
      unfold Assembled
      rw [hc, C.bind_ok, reading.delivered hc]
      by_cases haccepted : ∀ r ∈ x.rows, m.accepted r
      · obtain ⟨result, hresult⟩ := (reading.added_iff haccepted _).mpr (hcomplete haccepted)
        rw [if_pos ((reading.firstError_iff x.rows).mpr haccepted), Opcookie.collect_results,
          hresult]
        refine ⟨.returned result, rfl, fun q hq => ⟨hstarted, haccepted, ?_⟩⟩
        rw [← QueryOutcome.returned.inj hq]
        exact reading.added haccepted hresult
      · rw [if_neg fun h => haccepted ((reading.firstError_iff x.rows).mp h)]
        exact ⟨_, rfl, fun q hq => nomatch hq⟩
  · rw [queryRequest, if_pos hstarted]
    exact iff_of_true ⟨_, rfl, fun q hq => nomatch hq⟩ (.inl hstarted)

end RowReading

/-! ## Errors in a body -/

def IsArray (z : Zval) : Prop := ∃ elems, z = .array elems

/-- A member that is a string or null, if it is there. -/
def TextMember (fields : List (ArrayKey × Zval)) (key : Bytes) : Prop :=
  ∀ z, phpArrayFetch fields key = some z → z.IsText

/-- An array whose message is a text. -/
def ErrorReadable (err : Zval) : Prop := ∃ fields, err = .array fields ∧ TextMember fields (ascii "msg")

/-- The errors are an array, and the first of them is a readable one if it is there. -/
def ErrorsReadable (errors : Zval) : Prop :=
  ∃ elems, errors = .array elems ∧
    ∀ err, phpArrayFetch elems (ascii "0") = some err → ErrorReadable err

/-- The first of the errors has a code and a message. -/
def Reports (php : QueryPhp) (errors : Zval) : Prop :=
  ∃ elems err, errors = .array elems ∧ phpArrayFetch elems (ascii "0") = some (.array err) ∧
    (∃ code, phpArrayFetch err (ascii "code") = some code ∧ php.toLong code ≠ 0) ∧
      (phpArrayFetch err (ascii "msg")).isSome

section Bodies

variable {php : QueryPhp}

theorem arrval_array (elems : List (ArrayKey × Zval)) : arrval (.ok (.array elems)) = .ok elems := rfl

theorem arrval_defined (z : Zval) : C.Defined (arrval (.ok z)) ↔ IsArray z := by
  cases z with
  | array elems => exact iff_of_true (C.defined_ok elems) ⟨elems, rfl⟩
  | _ =>
    refine iff_of_false (C.not_defined_error _) ?_
    rintro ⟨elems, h⟩
    cases h

theorem not_isArray_fault {z : Zval} (h : ¬IsArray z) : ∃ e, arrval (.ok z) = .error e := by
  cases harr : arrval (.ok z) with
  | error e => exact ⟨e, rfl⟩
  | ok elems => exact absurd ((arrval_defined z).mp ⟨elems, harr⟩) h

/-- A number in an array: 0 if it is not there. -/
theorem fetchLong_array (fields : List (ArrayKey × Zval)) (key : Bytes) :
    phpArrayFetchLong php (.ok (.array fields)) key =
      .ok (((phpArrayFetch fields key).map php.toLong).getD 0) := by
  rw [phpArrayFetchLong, arrval_array, C.bind_ok]
  cases phpArrayFetch fields key <;> rfl

/-- A text in an array. -/
theorem fetchString_array (fields : List (ArrayKey × Zval)) (key : Bytes) :
    phpArrayFetchString php.toHttpPhp (.ok (.array fields)) key =
      .ok ((phpArrayFetch fields key).map (phpArrayZvalToString php.toHttpPhp)) := rfl

/-- What was found can be freed exactly when it was a text. -/
theorem releaseFound_defined (fields : List (ArrayKey × Zval)) (key : Bytes) :
    C.Defined (releaseFound ((phpArrayFetch fields key).map (phpArrayZvalToString php.toHttpPhp))) ↔
      TextMember fields key := by
  unfold TextMember
  cases phpArrayFetch fields key with
  | none => exact iff_of_true (C.defined_ok ()) fun _ h => nomatch h
  | some z =>
    refine (release_defined php.toHttpPhp z).trans ⟨fun h z' hz => ?_, fun h => h z rfl⟩
    rw [← Option.some.inj hz]
    exact h

theorem htstatus_defined (htresp : Option HttpResponse) :
    C.Defined (htstatus htresp) ↔ htresp.isSome := by
  cases htresp <;> simp [htstatus]

/-- Whether the first of the errors, an array, has a code and a message. -/
theorem reports_iff {elems err : List (ArrayKey × Zval)}
    (hfirst : phpArrayFetch elems (ascii "0") = some (.array err)) :
    Reports php (.array elems) ↔
      ((phpArrayFetch err (ascii "code")).map php.toLong).getD 0 ≠ 0 ∧
        (phpArrayFetch err (ascii "msg")).isSome := by
  constructor
  · rintro ⟨elems', err', helems, hfirst', ⟨code, hcode, hne⟩, hmsg⟩
    obtain rfl := Zval.array.inj helems
    obtain rfl := Zval.array.inj (Option.some.inj (hfirst.symm.trans hfirst'))
    exact ⟨by rw [hcode]; exact hne, hmsg⟩
  · rintro ⟨hne, hmsg⟩
    refine ⟨elems, err, rfl, hfirst, ?_, hmsg⟩
    cases hcode : phpArrayFetch err (ascii "code") with
    | none =>
      rw [hcode] at hne
      exact absurd rfl hne
    | some code =>
      rw [hcode] at hne
      exact ⟨code, rfl, hne⟩

/-- What comes of a message: it is freed when the exception is made. -/
theorem reportErrors_first {elems err : List (ArrayKey × Zval)}
    (hfirst : phpArrayFetch elems (ascii "0") = some (.array err)) (service : Bytes)
    (htresp : Option HttpResponse) :
    reportErrors php service (.array elems) htresp =
      match (phpArrayFetch err (ascii "msg")).map (phpArrayZvalToString php.toHttpPhp) with
      | none => .ok none
      | some msg =>
        codedException service (((phpArrayFetch err (ascii "code")).map php.toLong).getD 0) msg.text
          htresp >>= fun exc => msg.release >>= fun _ => .ok exc := by
  rw [reportErrors, arrval_array, C.bind_ok, hfirst]
  simp only [fetchLong_array, fetchString_array, C.bind_ok]
  rfl

/-- The first of the errors, when it is an array. -/
theorem reportErrors_array {elems err : List (ArrayKey × Zval)}
    (hfirst : phpArrayFetch elems (ascii "0") = some (.array err)) (service : Bytes)
    (htresp : Option HttpResponse) :
    (¬TextMember err (ascii "msg") ∧
        ∃ e, reportErrors php service (.array elems) htresp = .error e) ∨
      (TextMember err (ascii "msg") ∧ Reports php (.array elems) ∧ ∃ exc : Nat → QueryThrown,
        reportErrors php service (.array elems) htresp =
          (htstatus htresp).map fun status => some (exc status)) ∨
      (TextMember err (ascii "msg") ∧ ¬Reports php (.array elems) ∧
        reportErrors php service (.array elems) htresp = .ok none) := by
  rw [reports_iff hfirst, reportErrors_first hfirst, ← @releaseFound_defined php]
  cases phpArrayFetch err (ascii "msg") with
  | none => exact .inr (.inr ⟨C.defined_ok (), by simp, rfl⟩)
  | some z =>
    generalize hcode : ((phpArrayFetch err (ascii "code")).map php.toLong).getD 0 = code
    show (¬C.Defined (phpArrayZvalToString php.toHttpPhp z).release ∧ _) ∨
      (C.Defined (phpArrayZvalToString php.toHttpPhp z).release ∧ _) ∨
      (C.Defined (phpArrayZvalToString php.toHttpPhp z).release ∧ _)
    simp only [Option.map_some, Option.isSome_some, and_true, ne_eq]
    generalize phpArrayZvalToString php.toHttpPhp z = msg
    cases hrelease : msg.release with
    | error e =>
      refine .inl ⟨C.not_defined_error e, ?_⟩
      cases codedException service code msg.text htresp with
      | error e' => exact ⟨e', rfl⟩
      | ok exc => exact ⟨e, rfl⟩
    | ok u =>
      refine .inr ?_
      unfold codedException
      by_cases hzero : code = 0
      · rw [if_pos hzero]
        exact .inr ⟨C.defined_ok u, not_not.mpr hzero, rfl⟩
      · rw [if_neg hzero]
        refine .inl ⟨C.defined_ok u, hzero, ?_⟩
        cases htresp with
        | none => exact ⟨fun _ => .lcb .success, rfl⟩
        | some http => exact ⟨fun _ => _, rfl⟩

/-- **The errors of a body**: unreadable, reported with the status of the response, or passed over.
-/
theorem reportErrors_cases (service : Bytes) (errors : Zval) (htresp : Option HttpResponse) :
    (¬ErrorsReadable errors ∧ ∃ e, reportErrors php service errors htresp = .error e) ∨
      (ErrorsReadable errors ∧ Reports php errors ∧
        ∃ exc : Nat → QueryThrown, reportErrors php service errors htresp =
          (htstatus htresp).map fun status => some (exc status)) ∨
      (ErrorsReadable errors ∧ ¬Reports php errors ∧
        reportErrors php service errors htresp = .ok none) := by
  by_cases harray : IsArray errors
  · obtain ⟨elems, rfl⟩ := harray
    cases hfirst : phpArrayFetch elems (ascii "0") with
    | none =>
      refine .inr (.inr ⟨⟨elems, rfl, fun err h => nomatch hfirst.symm.trans h⟩, ?_, ?_⟩)
      · rintro ⟨elems', err, helems, h, -⟩
        obtain rfl := Zval.array.inj helems
        cases hfirst.symm.trans h
      · rw [reportErrors, arrval_array, C.bind_ok, hfirst]
        rfl
    | some err =>
      have hreadable : ErrorsReadable (.array elems) ↔ ErrorReadable err := by
        constructor
        · rintro ⟨elems', helems, h⟩
          obtain rfl := Zval.array.inj helems
          exact h err hfirst
        · intro h
          refine ⟨elems, rfl, fun err' herr => ?_⟩
          obtain rfl := Option.some.inj (hfirst.symm.trans herr)
          exact h
      rw [hreadable]
      by_cases herr : IsArray err
      · obtain ⟨fields, rfl⟩ := herr
        have htext : ErrorReadable (.array fields) ↔ TextMember fields (ascii "msg") := by
          constructor
          · rintro ⟨fields', hfields, h⟩
            obtain rfl := Zval.array.inj hfields
            exact h
          · exact fun h => ⟨fields, rfl, h⟩
        rw [htext]
        exact reportErrors_array hfirst service htresp
      · refine .inl ⟨?_, ?_⟩
        · rintro ⟨fields, hfields, -⟩
          exact herr ⟨fields, hfields⟩
        · obtain ⟨e, he⟩ := not_isArray_fault herr
          refine ⟨e, ?_⟩
          rw [reportErrors, arrval_array, C.bind_ok, hfirst]
          simp only [phpArrayFetchLong, he, C.bind_error]
  · obtain ⟨e, he⟩ := not_isArray_fault harray
    refine .inl ⟨?_, e, ?_⟩
    · rintro ⟨elems, rfl, -⟩
      exact harray ⟨elems, rfl⟩
    · rw [reportErrors, he, C.bind_error]

theorem reportErrors_defined (service : Bytes) (errors : Zval) (htresp : Option HttpResponse) :
    C.Defined (reportErrors php service errors htresp) ↔
      ErrorsReadable errors ∧ (Reports php errors → htresp.isSome) := by
  rcases @reportErrors_cases php service errors htresp with
    ⟨hbad, e, he⟩ | ⟨hgood, hrep, exc, heq⟩ | ⟨hgood, hrep, heq⟩
  · rw [he]
    exact iff_of_false (C.not_defined_error e) fun h => hbad h.1
  · rw [heq]
    cases htresp with
    | none => exact iff_of_false (C.not_defined_error _) fun h => nomatch h.2 hrep
    | some http => exact iff_of_true ⟨_, rfl⟩ ⟨hgood, fun _ => rfl⟩
  · rw [heq]
    exact iff_of_true ⟨_, rfl⟩ ⟨hgood, fun h => absurd h hrep⟩

/-- The errors of a row are readable. -/
def RowErrorsReadable (row : Zval) : Prop := ∀ errors, rowErrors row = some errors → ErrorsReadable errors

theorem rowException_defined (service : Bytes) (row : Zval) (htresp : Option HttpResponse) :
    C.Defined (rowException php service row htresp) ↔ RowErrorsReadable row ∧
      ∀ errors, rowErrors row = some errors → Reports php errors → htresp.isSome := by
  unfold rowException RowErrorsReadable
  cases rowErrors row with
  | none => exact iff_of_true (C.defined_ok _) ⟨by simp, by simp⟩
  | some errors => simpa using reportErrors_defined service errors htresp

/-- An exception has the status of the response in it. -/
theorem isSome_of_reported {service : Bytes} {row : Zval} {htresp : Option HttpResponse}
    {exc : QueryThrown} (h : rowException php service row htresp = .ok (some exc)) :
    htresp.isSome := by
  unfold rowException at h
  split at h
  · rename_i errors _
    rcases @reportErrors_cases php service errors htresp with
      ⟨-, e, he⟩ | ⟨-, -, exc', heq⟩ | ⟨-, -, heq⟩
    · cases he.symm.trans h
    · cases htresp with
      | none => cases heq.symm.trans h
      | some http => rfl
    · cases heq.symm.trans h
  · cases h

end Bodies

/-! ## Rows -/

section Rows

/-- A callback reads the body of an error alone. -/
theorem callback_defined_iff {ρ : Type} {err : LcbError} {res res' : ρ} {x : C (Option QueryThrown)} :
    C.Defined (if err = .success then .ok (res, none) else x.map fun exc => (res', exc)) ↔
      (err ≠ .success → C.Defined x) := by
  split
  · rename_i hok
    exact iff_of_true (C.defined_ok _) fun h => absurd hok h
  · rename_i herr
    rw [C.defined_map, imp_iff_right herr]

/-- What it pushes. -/
theorem callback_fst {ρ : Type} {err : LcbError} {res res' : ρ} {x : C (Option QueryThrown)}
    {p : ρ × Option QueryThrown}
    (h : (if err = .success then .ok (res, none) else x.map fun exc => (res', exc)) = .ok p) :
    p.1 = if err = .success then res else res' := by
  split at h
  · rename_i hok
    rw [← Except.ok.inj h, if_pos hok]
  · rename_i herr
    obtain ⟨exc, -, rfl⟩ := C.map_eq_ok.mp h
    rw [if_neg herr]

/-- What a row decodes to: a text that is no JSON stands for itself. -/
def decoded (php : QueryPhp) (jsonAssoc : Bool) (text : Bytes) : Zval :=
  (php.decode jsonAssoc text).getD (.string text)

/-- A member of an array is added beside the rows. -/
theorem addMember_array (elems : List (ArrayKey × Zval)) (q : QueryResult) (names : String × String) :
    ∃ q', addMember (.array elems) q names = .ok q' ∧ q'.rows = q.rows := by
  rw [addMember, arrval_array, C.bind_ok]
  cases phpArrayFetch elems (ascii names.1) with
  | none => exact ⟨q, rfl, rfl⟩
  | some val => exact ⟨_, rfl, rfl⟩

theorem addMembers_array (elems : List (ArrayKey × Zval)) (names : List (String × String))
    (q : QueryResult) :
    ∃ q', names.foldlM (addMember (.array elems)) q = .ok q' ∧ q'.rows = q.rows := by
  induction names generalizing q with
  | nil => exact ⟨q, rfl, rfl⟩
  | cons n names ih =>
    obtain ⟨q₁, hq₁, hrows₁⟩ := addMember_array elems q n
    obtain ⟨q', hq', hrows⟩ := ih q₁
    refine ⟨q', ?_, hrows.trans hrows₁⟩
    rw [List.foldlM_cons, hq₁, C.bind_ok, hq']

/-- The first member is looked up in whatever the final row is. -/
theorem addMembers_defined (row : Zval) (n : String × String) (names : List (String × String))
    (q : QueryResult) : C.Defined ((n :: names).foldlM (addMember row) q) ↔ IsArray row := by
  constructor
  · intro h
    rw [List.foldlM_cons, C.defined_bind] at h
    obtain ⟨q₁, hq₁, -⟩ := h
    obtain ⟨elems, harr, -⟩ := C.bind_eq_ok.mp hq₁
    exact (arrval_defined row).mp ⟨elems, harr⟩
  · rintro ⟨elems, rfl⟩
    obtain ⟨q', hq', -⟩ := addMembers_array elems (n :: names) q
    exact ⟨q', hq'⟩

theorem addN1qlRow_defined (q : QueryResult) (p : RowRes) :
    C.Defined (addN1qlRow q p) ↔ (p.final = true → IsArray p.row) := by
  unfold addN1qlRow
  split
  · rename_i hfinal
    rw [addMembers_defined, imp_iff_right hfinal]
  · rename_i hfinal
    exact iff_of_true (C.defined_ok _) fun h => absurd h hfinal

theorem addN1qlRow_rows {q q' : QueryResult} {p : RowRes} (h : addN1qlRow q p = .ok q') :
    q'.rows = q.rows ++ if p.final then [] else [p.row] := by
  unfold addN1qlRow at h
  by_cases hfinal : p.final = true
  · rw [if_pos hfinal] at h ⊢
    obtain ⟨elems, harr⟩ := (addMembers_defined _ _ _ _).mp ⟨q', h⟩
    obtain ⟨q₁, hq₁, hrows⟩ := addMembers_array elems _ q
    rw [harr] at h
    obtain rfl := Except.ok.inj (hq₁.symm.trans h)
    rw [hrows, List.append_nil]
  · rw [if_neg hfinal] at h ⊢
    rw [← Except.ok.inj h]
    rfl

/-- The metadata is decoded to arrays, whatever the options are. -/
theorem final_isArray_iff {php : QueryPhp} {jsonAssoc : Bool} (r : RowResponse) :
    (r.final = true → IsArray (decoded php (jsonAssoc || r.final) r.row)) ↔
      (r.final = true → IsArray (decoded php true r.row)) := by
  refine forall_congr' fun hfinal => ?_
  rw [hfinal, Bool.or_true]

/-- What a row adds to the result. -/
theorem final_rows_eq {php : QueryPhp} {jsonAssoc : Bool} (r : RowResponse) :
    (if r.final then [] else [decoded php (jsonAssoc || r.final) r.row]) =
      (if r.final then none else some (decoded php jsonAssoc r.row)).toList := by
  cases r.final with
  | true => rfl
  | false =>
    rw [Bool.or_false]
    rfl

end Rows

/-! ## N1QL and Analytics -/

section N1ql

variable (php : QueryPhp) (isCbas jsonAssoc : Bool)

/-- The service of N1QL and of Analytics, which is called for JSON. -/
def n1qlService : RowService RowResponse RowRes where
  err := RowRes.err
  callback := n1qlrowCallback php isCbas ⟨true, jsonAssoc⟩
  add := addN1qlRow

/-- Analytics accepts that the server closes the socket. -/
def n1qlMeaning : RowMeaning RowResponse where
  accepted r := r.rc = .success ∨
    (isCbas = true ∧ (r.rc = .esockshutdown ∨ r.rc = .networkError))
  decoded r := if r.final then none else some (decoded php jsonAssoc r.row)

/-- The status of every error is read; the metadata is in an array. -/
def n1qlLimits : RowLimits RowResponse where
  readable r := ¬(n1qlMeaning php isCbas jsonAssoc).accepted r →
    RowErrorsReadable (decoded php (jsonAssoc || r.final) r.row) ∧ r.htresp.isSome
  complete r := r.final = true → IsArray (decoded php true r.row)

variable {php isCbas jsonAssoc}

theorem n1qlException_defined (row : Zval) (htresp : Option HttpResponse) :
    C.Defined (n1qlException php row htresp) ↔ RowErrorsReadable row ∧ htresp.isSome := by
  rw [n1qlException, C.defined_bind]
  constructor
  · rintro ⟨exc, hexc, hdef⟩
    refine ⟨((rowException_defined _ row htresp).mp ⟨exc, hexc⟩).1, ?_⟩
    cases exc with
    | some exc => exact isSome_of_reported hexc
    | none =>
      obtain ⟨status, hstatus, -⟩ := C.defined_bind.mp hdef
      exact (htstatus_defined htresp).mp ⟨status, hstatus⟩
  · rintro ⟨hreadable, hsome⟩
    obtain ⟨exc, hexc⟩ :=
      (rowException_defined (ascii "N1QL") row htresp).mpr ⟨hreadable, fun _ _ _ => hsome⟩
    refine ⟨exc, hexc, ?_⟩
    cases exc with
    | some exc => exact C.defined_ok _
    | none =>
      obtain ⟨status, hstatus⟩ := (htstatus_defined htresp).mpr hsome
      exact C.defined_bind.mpr ⟨status, hstatus, C.defined_ok _⟩

theorem n1qlErr_success_iff (isCbas : Bool) (rc : LcbError) :
    n1qlErr isCbas rc = .success ↔ rc = .success ∨
      (isCbas = true ∧ (rc = .esockshutdown ∨ rc = .networkError)) := by
  unfold n1qlErr
  split
  · rename_i h
    exact iff_of_true rfl (.inr h)
  · rename_i h
    exact (or_iff_left h).symm

/-- The reading of N1QL and of Analytics. -/
def n1qlReading : RowReading (n1qlService php isCbas jsonAssoc) (n1qlMeaning php isCbas jsonAssoc)
    (n1qlLimits php isCbas jsonAssoc) where
  res r := ⟨n1qlErr isCbas r.rc, r.final, decoded php (jsonAssoc || r.final) r.row⟩
  callback_res r p h := (callback_fst h).trans (ite_self _)
  callback_defined r := by
    have hacc : n1qlErr isCbas r.rc = .success ↔ (n1qlMeaning php isCbas jsonAssoc).accepted r :=
      n1qlErr_success_iff isCbas r.rc
    refine callback_defined_iff.trans (imp_congr (not_congr hacc) ?_)
    exact n1qlException_defined _ r.htresp
  err_res r := n1qlErr_success_iff isCbas r.rc
  add_defined q r _ := (addN1qlRow_defined q _).trans (final_isArray_iff r)
  add_rows q q' r _ h := by
    rw [addN1qlRow_rows h]
    exact congrArg _ (final_rows_eq r)

end N1ql

/-! ## Search -/

section Fts

variable (php : QueryPhp) (jsonAssoc : Bool)

def ftsService : RowService RowResponse RowRes where
  err := RowRes.err
  callback := ftsrowCallback php ⟨true, jsonAssoc⟩
  add := addFtsRow php

def ftsMeaning : RowMeaning RowResponse where
  accepted r := r.rc = .success
  decoded r := if r.final then none else some (decoded php jsonAssoc r.row)

/-- The status is read for an HTTP error, and unless there are errors that are passed over. -/
def ftsLimits : RowLimits RowResponse where
  readable r := r.rc ≠ .success →
    RowErrorsReadable (decoded php (jsonAssoc || r.final) r.row) ∧
      ((r.rc = .httpError ∨ ∀ errors, rowErrors (decoded php (jsonAssoc || r.final) r.row) = some errors →
        Reports php errors) → r.htresp.isSome)
  complete r := r.final = true → IsArray (decoded php true r.row)

variable {php jsonAssoc}

theorem ftsException_defined (row : Zval) (htresp : Option HttpResponse) :
    C.Defined (ftsException php row htresp) ↔ RowErrorsReadable row ∧
      ((∀ errors, rowErrors row = some errors → Reports php errors) → htresp.isSome) := by
  unfold ftsException RowErrorsReadable
  cases rowErrors row with
  | none =>
    dsimp only
    rw [C.defined_bind, ← htstatus_defined]
    constructor
    · rintro ⟨status, hstatus, -⟩
      exact ⟨fun _ h => (nomatch h), fun _ => ⟨status, hstatus⟩⟩
    · rintro ⟨-, h⟩
      obtain ⟨status, hstatus⟩ := h fun _ h => nomatch h
      exact ⟨status, hstatus, C.defined_ok _⟩
  | some errors => simpa using reportErrors_defined (ascii "FTS") errors htresp

/-- The search callback logs the status of an HTTP error before it decodes the row. -/
theorem ftsrowCallback_defined (options : CookieOptions) (r : RowResponse) :
    C.Defined (ftsrowCallback php options r) ↔
      (r.rc ≠ .success → RowErrorsReadable (decodeRow php options r.final r.row) ∧
        ((r.rc = .httpError ∨
          ∀ errors, rowErrors (decodeRow php options r.final r.row) = some errors → Reports php errors) →
            r.htresp.isSome)) := by
  rw [ftsrowCallback, C.defined_bind, logHttpError]
  simp only [callback_defined_iff, ftsException_defined]
  by_cases hhttp : r.rc = .httpError
  · have herr : r.rc ≠ .success := by
      rw [hhttp]
      decide
    rw [if_pos hhttp]
    constructor
    · rintro ⟨status, hstatus, h⟩ -
      exact ⟨(h herr).1, fun _ => (htstatus_defined _).mp ⟨status, hstatus⟩⟩
    · intro h
      obtain ⟨hreadable, hsome⟩ := h herr
      obtain ⟨status, hstatus⟩ := (htstatus_defined r.htresp).mpr (hsome (.inl hhttp))
      exact ⟨status, hstatus, fun _ => ⟨hreadable, fun _ => hsome (.inl hhttp)⟩⟩
  · rw [if_neg hhttp, or_iff_right hhttp]
    simp only [Except.ok.injEq, exists_eq_left']

theorem ftsrowCallback_res {options : CookieOptions} {r : RowResponse}
    {p : RowRes × Option QueryThrown} (h : ftsrowCallback php options r = .ok p) :
    p.1 = ⟨r.rc, r.final, decodeRow php options r.final r.row⟩ := by
  obtain ⟨-, -, h⟩ := C.bind_eq_ok.mp h
  exact (callback_fst h).trans (ite_self _)

theorem fetchDouble_array (fields : List (ArrayKey × Zval)) (key : Bytes) :
    C.Defined (phpArrayFetchDouble php (.ok (.array fields)) key) := by
  rw [phpArrayFetchDouble, arrval_array, C.bind_ok]
  cases phpArrayFetch fields key with
  | none => exact C.defined_ok _
  | some z => exact C.defined_ok _

/-- The final row of a search, when it is an array. -/
theorem addFtsRow_array {p : RowRes} (hfinal : p.final = true) {elems : List (ArrayKey × Zval)}
    (harray : p.row = .array elems) (q : QueryResult) :
    ∃ q', addFtsRow php q p = .ok q' ∧ q'.rows = q.rows := by
  obtain ⟨q₁, hq₁, hrows⟩ := addMembers_array elems [("status", "status"), ("facets", "facets")] q
  obtain ⟨score, hscore⟩ := @fetchDouble_array php elems (ascii "max_score")
  rw [addFtsRow, if_pos hfinal, harray, hq₁]
  simp only [C.bind_ok, fetchLong_array, hscore]
  exact ⟨_, rfl, hrows⟩

theorem addFtsRow_defined (q : QueryResult) (p : RowRes) :
    C.Defined (addFtsRow php q p) ↔ (p.final = true → IsArray p.row) := by
  by_cases hfinal : p.final = true
  · rw [imp_iff_right hfinal]
    constructor
    · intro h
      rw [addFtsRow, if_pos hfinal, C.defined_bind] at h
      obtain ⟨q₁, hq₁, -⟩ := h
      exact (addMembers_defined _ _ _ _).mp ⟨q₁, hq₁⟩
    · rintro ⟨elems, harray⟩
      obtain ⟨q', hq', -⟩ := @addFtsRow_array php p hfinal elems harray q
      exact ⟨q', hq'⟩
  · rw [addFtsRow, if_neg hfinal]
    exact iff_of_true (C.defined_ok _) fun h => absurd h hfinal

theorem addFtsRow_rows {q q' : QueryResult} {p : RowRes} (h : addFtsRow php q p = .ok q') :
    q'.rows = q.rows ++ if p.final then [] else [p.row] := by
  by_cases hfinal : p.final = true
  · obtain ⟨elems, harray⟩ := (addFtsRow_defined q p).mp ⟨q', h⟩ hfinal
    obtain ⟨q₁, hq₁, hrows⟩ := @addFtsRow_array php p hfinal elems harray q
    obtain rfl := Except.ok.inj (hq₁.symm.trans h)
    rw [if_pos hfinal, hrows, List.append_nil]
  · rw [addFtsRow, if_neg hfinal] at h
    rw [if_neg hfinal, ← Except.ok.inj h]
    rfl

/-- The reading of a search. -/
def ftsReading : RowReading (ftsService php jsonAssoc) (ftsMeaning php jsonAssoc)
    (ftsLimits php jsonAssoc) where
  res r := ⟨r.rc, r.final, decoded php (jsonAssoc || r.final) r.row⟩
  callback_res _ _ h := ftsrowCallback_res h
  callback_defined r := ftsrowCallback_defined ⟨true, jsonAssoc⟩ r
  err_res _ := Iff.rfl
  add_defined q r _ := (addFtsRow_defined q _).trans (final_isArray_iff r)
  add_rows q q' r _ h := by
    rw [addFtsRow_rows h]
    exact congrArg _ (final_rows_eq r)

end Fts

/-! ## Views -/

section View

variable (php : QueryPhp) (jsonAssoc : Bool)

def viewService : RowService ViewResponse ViewRowRes where
  err := ViewRowRes.err
  callback := viewrowCallback php ⟨true, jsonAssoc⟩
  add := addViewRow

/-- A key or a value of a view, null if it is not there. -/
def decodedPart (text : Bytes) : Zval := if text = [] then .null else decoded php jsonAssoc text

def viewMeaning : RowMeaning ViewResponse where
  accepted r := r.rc = .success
  decoded r := if r.final then none else some (viewRowObject (.string r.docid)
    (decodedPart php jsonAssoc r.key) (decodedPart php jsonAssoc r.value))

/-- An array whose error and reason are texts. -/
def ViewErrorReadable (errval : Zval) : Prop :=
  ∃ fields, errval = .array fields ∧ TextMember fields (ascii "error") ∧
    TextMember fields (ascii "reason")

/-- The body of every error is read, with a length that is not negative as an `int`, and what it is
as JSON is readable. -/
def viewLimits : RowLimits ViewResponse where
  readable r := r.rc ≠ .success → ∃ http, r.htresp = some http ∧ (http.body ≠ [] →
    0 ≤ narrowInt http.body.length ∧ ∀ errval,
      php.jsonDecode (http.body.take (narrowInt http.body.length).toNat) = some errval →
        ViewErrorReadable errval)
  complete _ := True

variable {php jsonAssoc}

/-- The members of an error of a view. -/
theorem viewReport_defined (rc : LcbError) (errval : Zval) :
    C.Defined (do
      let error ← phpArrayFetchString php.toHttpPhp (.ok errval) (ascii "error")
      let reason ← phpArrayFetchString php.toHttpPhp (.ok errval) (ascii "reason")
      releaseFound error
      releaseFound reason
      return viewReport rc error reason) ↔ ViewErrorReadable errval := by
  by_cases harray : IsArray errval
  · obtain ⟨fields, rfl⟩ := harray
    have hreadable : ViewErrorReadable (.array fields) ↔
        TextMember fields (ascii "error") ∧ TextMember fields (ascii "reason") := by
      constructor
      · rintro ⟨fields', hfields, h⟩
        obtain rfl := Zval.array.inj hfields
        exact h
      · exact fun h => ⟨fields, rfl, h⟩
    rw [hreadable, ← @releaseFound_defined php, ← @releaseFound_defined php]
    simp only [fetchString_array, C.bind_ok, C.defined_bind, C.pure_eq]
    constructor
    · rintro ⟨u, hu, v, hv, -⟩
      exact ⟨⟨u, hu⟩, ⟨v, hv⟩⟩
    · rintro ⟨⟨u, hu⟩, ⟨v, hv⟩⟩
      exact ⟨u, hu, v, hv, C.defined_ok _⟩
  · obtain ⟨e, he⟩ := not_isArray_fault harray
    refine iff_of_false ?_ ?_
    · rw [phpArrayFetchString, he]
      exact C.not_defined_error e
    · rintro ⟨fields, hfields, -⟩
      exact harray ⟨fields, hfields⟩

/-- The body of an error of a view. -/
theorem reportView_defined (rc : LcbError) (body : Bytes) :
    C.Defined (reportView php rc body) ↔ 0 ≤ narrowInt body.length ∧ ∀ errval,
      php.jsonDecode (body.take (narrowInt body.length).toNat) = some errval →
        ViewErrorReadable errval := by
  unfold reportView
  by_cases hlen : 0 ≤ narrowInt body.length
  · rw [and_iff_right hlen, prefixOf_of_le hlen (narrowInt_le _), C.bind_ok]
    cases php.jsonDecode (body.take (narrowInt body.length).toNat) with
    | none => exact iff_of_true (C.defined_ok _) fun _ h => nomatch h
    | some errval =>
      refine (viewReport_defined rc errval).trans ⟨fun h errval' heq => ?_, fun h => h errval rfl⟩
      rw [← Option.some.inj heq]
      exact h
  · refine iff_of_false ?_ fun h => hlen h.1
    rw [prefixOf, if_neg fun h => hlen h.1, C.bind_error]
    exact C.not_defined_error _

theorem viewException_defined (rc : LcbError) (htresp : Option HttpResponse) :
    C.Defined (viewException php rc htresp) ↔ ∃ http, htresp = some http ∧ (http.body ≠ [] →
      0 ≤ narrowInt http.body.length ∧ ∀ errval,
        php.jsonDecode (http.body.take (narrowInt http.body.length).toNat) = some errval →
          ViewErrorReadable errval) := by
  cases htresp with
  | none => exact iff_of_false (C.not_defined_error _) fun ⟨http, h, _⟩ => nomatch h
  | some http =>
    have hbody : C.Defined (viewException php rc (some http)) ↔
        (http.body ≠ [] → C.Defined (reportView php rc http.body)) := by
      unfold viewException
      dsimp only
      split
      · rename_i hne
        rw [imp_iff_right hne]
      · rename_i hnil
        exact iff_of_true (C.defined_ok _) fun h => absurd h hnil
    rw [hbody, reportView_defined]
    constructor
    · exact fun h => ⟨http, rfl, h⟩
    · rintro ⟨http', hhttp, h⟩
      obtain rfl := Option.some.inj hhttp
      exact h

/-- The row of a view that is not final. -/
theorem viewRow_object {r : ViewResponse} (hfinal : r.final = false) :
    viewRowObject (viewRow php ⟨true, jsonAssoc⟩ r).id (viewRow php ⟨true, jsonAssoc⟩ r).key
        (viewRow php ⟨true, jsonAssoc⟩ r).value =
      viewRowObject (.string r.docid) (decodedPart php jsonAssoc r.key)
        (decodedPart php jsonAssoc r.value) := by
  have hdecode : ∀ text, decodeRow php ⟨true, jsonAssoc⟩ false text = decoded php jsonAssoc text := by
    intro text
    show decoded php (jsonAssoc || false) text = _
    rw [Bool.or_false]
  simp [viewRow, decodedPart, hfinal, hdecode]

/-- The final row of a view is looked at before it is read. -/
theorem addViewRow_spec (q : QueryResult) (p : ViewRowRes) :
    ∃ q', addViewRow q p = .ok q' ∧
      q'.rows = q.rows ++ if p.final then [] else [viewRowObject p.id p.key p.value] := by
  unfold addViewRow
  split
  · rename_i hfinal
    rw [List.append_nil]
    split
    · rename_i elems _
      exact addMember_array elems q _
    · exact ⟨q, rfl, rfl⟩
  · exact ⟨_, rfl, rfl⟩

/-- The reading of a view. -/
def viewReading : RowReading (viewService php jsonAssoc) (viewMeaning php jsonAssoc)
    (viewLimits php) where
  res r := if r.rc = .success then viewRow php ⟨true, jsonAssoc⟩ r
    else ⟨r.rc, r.final, .null, .null, .null⟩
  callback_res r p h := callback_fst h
  callback_defined r :=
    callback_defined_iff.trans (imp_congr Iff.rfl (viewException_defined r.rc r.htresp))
  err_res r := by
    split
    · exact Iff.rfl
    · exact Iff.rfl
  add_defined q r _ := by
    obtain ⟨q', hq', -⟩ := addViewRow_spec q (if r.rc = .success then viewRow php ⟨true, jsonAssoc⟩ r
      else ⟨r.rc, r.final, .null, .null, .null⟩)
    exact iff_of_true ⟨q', hq'⟩ trivial
  add_rows q q' r hacc h := by
    have hrc : r.rc = .success := hacc
    rw [if_pos hrc] at h
    obtain ⟨q₁, hq₁, hrows⟩ := addViewRow_spec q (viewRow php ⟨true, jsonAssoc⟩ r)
    obtain rfl := Except.ok.inj (hq₁.symm.trans h)
    rw [hrows]
    refine congrArg _ ?_
    change (if r.final = true then _ else _) = (if r.final = true then _ else _ : Option Zval).toList
    split
    · rfl
    · rename_i hfinal
      rw [Bool.not_eq_true] at hfinal
      rw [viewRow_object hfinal]
      rfl

end View

/-! ## Queries -/

/-- A call of `Bucket::query`, with what libcouchbase does for it. -/
inductive RowQuery where
  | n1ql (jsonAssoc : Bool) (x : RowExchange RowResponse)
  | analytics (jsonAssoc : Bool) (x : RowExchange RowResponse)
  | search (jsonAssoc : Bool) (x : RowExchange RowResponse)
  | view (jsonAssoc : Bool) (x : RowExchange ViewResponse)

namespace RowQuery

variable (php : QueryPhp)

def run : RowQuery → C QueryOutcome
  | .n1ql jsonAssoc x => queryRequest (n1qlService php false jsonAssoc) x
  | .analytics jsonAssoc x => queryRequest (n1qlService php true jsonAssoc) x
  | .search jsonAssoc x => queryRequest (ftsService php jsonAssoc) x
  | .view jsonAssoc x => queryRequest (viewService php jsonAssoc) x

/-- The call throws, or returns all of its rows. -/
def RowsComplete (q : RowQuery) : Prop :=
  match q with
  | .n1ql jsonAssoc x => Assembled (n1qlMeaning php false jsonAssoc) x (q.run php)
  | .analytics jsonAssoc x => Assembled (n1qlMeaning php true jsonAssoc) x (q.run php)
  | .search jsonAssoc x => Assembled (ftsMeaning php jsonAssoc) x (q.run php)
  | .view jsonAssoc x => Assembled (viewMeaning php jsonAssoc) x (q.run php)

/-- The request is refused, or its responses are readable. -/
def RowsReadable : RowQuery → Prop
  | .n1ql jsonAssoc x => x.started ≠ .success ∨
      ReadsAll (n1qlMeaning php false jsonAssoc) (n1qlLimits php false jsonAssoc) x
  | .analytics jsonAssoc x => x.started ≠ .success ∨
      ReadsAll (n1qlMeaning php true jsonAssoc) (n1qlLimits php true jsonAssoc) x
  | .search jsonAssoc x => x.started ≠ .success ∨
      ReadsAll (ftsMeaning php jsonAssoc) (ftsLimits php jsonAssoc) x
  | .view jsonAssoc x => x.started ≠ .success ∨
      ReadsAll (viewMeaning php jsonAssoc) (viewLimits php) x

end RowQuery

/-- **Exactly when a query throws or returns all of its rows**: every error has its HTTP response
and a body that is as nested as it is read, and the metadata of a success is an array. -/
theorem query_rows_iff (php : QueryPhp) (q : RowQuery) : q.RowsComplete php ↔ q.RowsReadable php := by
  cases q with
  | n1ql jsonAssoc x => exact n1qlReading.assembled_iff x
  | analytics jsonAssoc x => exact n1qlReading.assembled_iff x
  | search jsonAssoc x => exact ftsReading.assembled_iff x
  | view jsonAssoc x => exact viewReading.assembled_iff x

/-- PHP on the texts that occur below. -/
def emptyQueryPhp : QueryPhp where
  jsonDecode text := if text = ascii "\x7b\x7d" then some (.array []) else none
  jsonDecodeObjects text :=
    if text = ascii "\x7b\x7d" then some (.object (ascii "stdClass") []) else none
  jsonEncode _ := none
  convertToString _ := []
  toLong := numberConversions.toLong
  toDouble := numberConversions.toDouble

/-- An analytics service that closes the socket has an empty final row, which is accepted and read
as an array; a N1QL query that fails before the first byte has no HTTP response, of which the status
is logged. -/
theorem closed_socket_undefined :
    ¬(RowQuery.analytics false ⟨.success, [⟨.esockshutdown, true, [], none⟩]⟩).RowsComplete
        emptyQueryPhp ∧
      ¬(RowQuery.n1ql false ⟨.success, [⟨.networkError, true, [], none⟩]⟩).RowsComplete
        emptyQueryPhp := by
  constructor
  · rintro ⟨outcome, hrun, -⟩
    have hfault : (RowQuery.analytics false ⟨.success, [⟨.esockshutdown, true, [], none⟩]⟩).run
        emptyQueryPhp = .error .wrongType := rfl
    cases hfault.symm.trans hrun
  · rintro ⟨outcome, hrun, -⟩
    have hfault : (RowQuery.n1ql false ⟨.success, [⟨.networkError, true, [], none⟩]⟩).run
        emptyQueryPhp = .error .nullPointer := rfl
    cases hfault.symm.trans hrun

end PhpCouchbase
