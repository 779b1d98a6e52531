import PhpCouchbase.SearchQueryMeaning

/-!
# Range queries

`DateRangeSearchQuery`, `NumericRangeSearchQuery` and `TermRangeSearchQuery`
(`search/date_range_query.c`, `numeric_range_query.c`, `term_range_query.c`) are three copies of one
interval: two ends, each with a value and a flag that says whether it belongs to the interval.

* `interval` — what a sequence of calls says of an interval, for values of any type.
* `printed_eq_meaning_iff_reports` — a query reports an interval exactly when its two ends are printed
  as they are meant.
* `range_queries_report_iff` — when each of the three classes does.
-/

set_option autoImplicit false

namespace PhpCouchbase

open OrderedMap LastWrite

/-! ## Intervals -/

section Intervals

variable {α : Type}

/-- A call that sets one end: `none` is a value that the method refuses. -/
structure RangeCall (α : Type) where
  side : Side
  value : Option α
  inclusive : Option Bool

/-- What a call stores for an end.  The lower end is inclusive by default, the upper end is not. -/
def RangeCall.accepted (side : Side) (c : RangeCall α) : Option (α × Bool) :=
  if c.side = side then c.value.map fun v => (v, side.inclusive c.inclusive) else none

/-- **The interval of a sequence of calls**: each end is that of the last call that was accepted. -/
def interval (calls : List (RangeCall α)) (side : Side) : Option (α × Bool) :=
  last (RangeCall.accepted side) calls

/-- A call that throws changes nothing. -/
theorem interval_append_refused (calls : List (RangeCall α)) {c : RangeCall α} (h : c.value = none) :
    interval (calls ++ [c]) = interval calls := by
  funext side
  rw [interval, last_append_singleton, RangeCall.accepted, h]
  simp [interval]

/-- A call leaves the other end as it is, with its flag. -/
theorem interval_append_other (calls : List (RangeCall α)) {c : RangeCall α} {side : Side}
    (h : c.side ≠ side) : interval (calls ++ [c]) side = interval calls side := by
  rw [interval, last_append_singleton, RangeCall.accepted, if_neg h]
  rfl

/-- A call that is accepted sets its end. -/
theorem interval_append_self (calls : List (RangeCall α)) {c : RangeCall α} {v : α}
    (h : c.value = some v) :
    interval (calls ++ [c]) c.side = some (v, c.side.inclusive c.inclusive) := by
  rw [interval, last_append_singleton, RangeCall.accepted, if_pos rfl, h]
  rfl

end Intervals

/-! ## The three classes -/

inductive RangeClass where
  | date
  | numeric
  | term
  deriving DecidableEq, Repr

namespace RangeClass

variable {ι : Type} (formatDate : Int64 → CString)

/-- The static constructor of the class. -/
def ctor : RangeClass → QueryConstructor ι
  | .date => .dateRange
  | .numeric => .numericRange
  | .term => .termRange

/-- The variables of one end. -/
def bound (side : Side) : RangeClass → QueryMember ι
  | .date => .date side
  | .numeric => .number side
  | .term => .term side

/-- The name under which an end is printed. -/
def key (side : Side) : RangeClass → Bytes
  | .date => ascii side.dateKey
  | _ => ascii side.key

/-- The name under which its flag is printed. -/
def inclusiveKey (side : Side) : RangeClass → Bytes
  | .date => ascii side.inclusiveDateKey
  | _ => ascii side.inclusiveKey

/-- A call of a setter of the class as a call on an interval; any other call is none. -/
def call? (cls : RangeClass) (c : QueryCall ι) : Option (RangeCall Json) :=
  match cls, c with
  | .date, .date side value inclusive =>
    some ⟨side, (dateText formatDate value).map .string, inclusive⟩
  | .numeric, .number side bits inclusive => some ⟨side, some (.double bits), inclusive⟩
  | .term, .term side s inclusive => some ⟨side, some (.string s), inclusive⟩
  | _, _ => none

/-- The interval that the calls ask for. -/
def meaning (cls : RangeClass) (calls : List (QueryCall ι)) : Side → Option (Json × Bool) :=
  interval (calls.filterMap (cls.call? formatDate))

/-- **The printed query reports the interval**: each end under its name with its flag, or neither.
-/
def Reports (cls : RangeClass) (calls : List (QueryCall ι)) (j : Json) : Prop :=
  ∀ side, j.member (cls.key side) = (cls.meaning formatDate calls side).map Prod.fst ∧
    j.member (cls.inclusiveKey side) = (cls.meaning formatDate calls side).map fun p => .bool p.2

/-- When a class reports the interval: always for numbers. -/
def Faithful (cls : RangeClass) (calls : List (QueryCall ι)) : Prop :=
  match cls with
  -- a date ends at its first NUL; `start` has to be asked to be exclusive, and the last call of `start`
  -- or `end`, accepted or not, has to ask for the flag of `end`
  | .date => ∀ side d flag, last (QueryCall.dateArgs? formatDate side) calls = some (d, flag) →
      0 ∉ d ∧ match side with
        | .lower => flag = some false
        | .upper => (last (QueryCall.dateInclusive? .upper) calls).getD false = flag.getD false
  | .numeric => True
  -- `min` is exclusive by default, and the length of a term is an `int`
  | .term => ∀ side s flag, last (QueryCall.termArgs? side) calls = some (s, flag) →
      s.length < 2 ^ 31 ∧ side.inclusive flag = flag.getD false

end RangeClass

/-! ## Reporting -/

section Reporting

variable {ι : Type} {formatDate : Int64 → CString} {code : ι → C Json}

namespace RangeClass

theorem meaning_date (calls : List (QueryCall ι)) (side : Side) :
    RangeClass.date.meaning formatDate calls side =
      (last (QueryCall.dateArgs? formatDate side) calls).map fun p =>
        (.string p.1, side.inclusive p.2) := by
  rw [meaning, interval, last, List.filterMap_filterMap, ← last_map, last]
  congr 2
  funext c
  cases c with
  | date side' value inclusive =>
    simp only [call?, QueryCall.dateArgs?, RangeCall.accepted, Option.bind_some]
    split
    · cases dateText formatDate value <;> rfl
    · rfl
  | _ => rfl

theorem meaning_numeric (calls : List (QueryCall ι)) (side : Side) :
    RangeClass.numeric.meaning formatDate calls side =
      (last (QueryCall.number? side) calls).map fun p => (.double p.1, p.2) := by
  rw [meaning, interval, last, List.filterMap_filterMap, ← last_map, last]
  congr 2
  funext c
  cases c with
  | number side' bits inclusive =>
    simp only [call?, QueryCall.number?, RangeCall.accepted, Option.bind_some]
    split <;> rfl
  | _ => rfl

theorem meaning_term (calls : List (QueryCall ι)) (side : Side) :
    RangeClass.term.meaning formatDate calls side =
      (last (QueryCall.termArgs? side) calls).map fun p =>
        (.string p.1, side.inclusive p.2) := by
  rw [meaning, interval, last, List.filterMap_filterMap, ← last_map, last]
  congr 2
  funext c
  cases c with
  | term side' s inclusive =>
    simp only [call?, QueryCall.termArgs?, RangeCall.accepted, Option.bind_some]
    split <;> rfl
  | _ => rfl

/-- What the two slots of an end should hold. -/
theorem bound_meaning (cls : RangeClass) (side : Side) (sub : ι → Json)
    (calls : List (QueryCall ι)) :
    (cls.bound side).meaning formatDate sub calls =
      [(cls.key side, (cls.meaning formatDate calls side).map Prod.fst),
        (cls.inclusiveKey side, (cls.meaning formatDate calls side).map fun p => .bool p.2)] := by
  cases cls with
  | date =>
    simp only [meaning_date, Option.map_map]
    rfl
  | numeric =>
    simp only [meaning_numeric, Option.map_map]
    rfl
  | term =>
    simp only [meaning_term, Option.map_map]
    rfl

/-- An end has two slots. -/
theorem bound_printed {cls : RangeClass} {side : Side} {calls : List (QueryCall ι)} {s : Slots}
    (h : (cls.bound side).printed formatDate code calls = .ok s) :
    ∃ v w, s = [(cls.key side, v), (cls.inclusiveKey side, w)] := by
  have hnames := names_printed h
  have hlen : s.names = [cls.key side, cls.inclusiveKey side] := by
    rw [hnames]
    cases cls <;> rfl
  match s, hlen with
  | [(k, v), (k', w)], hlen =>
    obtain ⟨hk, hlen⟩ := List.cons.inj hlen
    obtain ⟨hk', -⟩ := List.cons.inj hlen
    exact ⟨v, w, by rw [← hk, ← hk']⟩

/-- The ends come first in every class; nothing can go wrong behind them. -/
theorem ctor_init (formatDate : Int64 → CString) (code : ι → C Json) (cls : RangeClass) :
    ∃ rest : List (QueryMember ι),
    cls.ctor.init = cls.bound .lower :: cls.bound .upper :: rest ∧
      ∀ calls, ∃ slots, rest.mapM (QueryMember.printed formatDate code calls) = .ok slots := by
  have hfield : ∀ calls : List (QueryCall ι), ∃ slots,
      [QueryMember.text "field" .field, .boost].mapM (QueryMember.printed formatDate code calls) =
        .ok slots := fun calls => ⟨_, rfl⟩
  cases cls with
  | date => exact ⟨_, rfl, fun calls => ⟨_, rfl⟩⟩
  | numeric => exact ⟨_, rfl, hfield⟩
  | term => exact ⟨_, rfl, hfield⟩

/-- The members of a printed query are those of its ends. -/
theorem serialized_bounds {cls : RangeClass} {n : Nat} {parts : Fin n → SearchQueryPart}
    {calls : List (QueryCall (Fin n))} {j : Json}
    (h : (SearchQueryPart.mk n parts cls.ctor calls).jsonSerialize formatDate = .ok j) (side : Side) :
    ∃ v w, (cls.bound side).printed formatDate (fun i => (parts i).jsonSerialize formatDate) calls =
        .ok [(cls.key side, v), (cls.inclusiveKey side, w)] ∧
      j.member (cls.key side) = v ∧ j.member (cls.inclusiveKey side) = w := by
  obtain ⟨slots, hslots, rfl⟩ := jsonSerialize_eq_ok_iff.mp h
  have hnodup : (Slots.names slots.flatten).Nodup := by
    rw [(mapM_printed (fun _ => Json.null) hslots).1]
    exact nodup_names cls.ctor
  obtain ⟨rest, hinit, -⟩ := ctor_init formatDate (fun i => (parts i).jsonSerialize formatDate) cls
  rw [hinit, List.mapM_cons, C.bind_eq_ok] at hslots
  obtain ⟨lower, hlower, hslots⟩ := hslots
  rw [List.mapM_cons, C.bind_eq_ok] at hslots
  obtain ⟨tail, hslots, heq⟩ := hslots
  obtain ⟨upper, hupper, hslots⟩ := C.bind_eq_ok.mp hslots
  obtain ⟨others, -, htail⟩ := C.bind_eq_ok.mp hslots
  obtain rfl := Except.ok.inj htail
  obtain rfl := Except.ok.inj heq
  obtain ⟨v, w, rfl⟩ := bound_printed hlower
  obtain ⟨v', w', rfl⟩ := bound_printed hupper
  cases side with
  | lower => exact ⟨v, w, hlower, member_struct hnodup (by simp), member_struct hnodup (by simp)⟩
  | upper => exact ⟨v', w', hupper, member_struct hnodup (by simp), member_struct hnodup (by simp)⟩

/-- **A query reports its interval** exactly when both ends are printed as they are meant. -/
theorem printed_eq_meaning_iff_reports (cls : RangeClass) {n : Nat} (parts : Fin n → SearchQueryPart)
    (calls : List (QueryCall (Fin n))) :
    (∃ j, (SearchQueryPart.mk n parts cls.ctor calls).jsonSerialize formatDate = .ok j ∧
        cls.Reports formatDate calls j) ↔
      ∀ side, (cls.bound side).printed formatDate (fun i => (parts i).jsonSerialize formatDate) calls =
        .ok ((cls.bound side).meaning formatDate (fun i => (parts i).meaning formatDate) calls) := by
  constructor
  · rintro ⟨j, hj, hreports⟩ side
    obtain ⟨v, w, hprinted, hv, hw⟩ := serialized_bounds hj side
    obtain ⟨hvalue, hflag⟩ := hreports side
    rw [hprinted, bound_meaning, ← hv, ← hw, hvalue, hflag]
  · intro h
    obtain ⟨rest, hinit, hrest⟩ := ctor_init formatDate
      (fun i => (parts i).jsonSerialize formatDate) cls
    obtain ⟨others, hothers⟩ := hrest calls
    have hj : ∃ j, (SearchQueryPart.mk n parts cls.ctor calls).jsonSerialize formatDate = .ok j := by
      let slots (side : Side) : Slots :=
        (cls.bound side).meaning formatDate (fun i => (parts i).meaning formatDate) calls
      refine ⟨_, jsonSerialize_eq_ok_iff.mpr ⟨slots .lower :: slots .upper :: others, ?_, rfl⟩⟩
      rw [hinit, List.mapM_cons, h .lower, C.bind_ok, List.mapM_cons, h .upper, C.bind_ok, hothers]
      rfl
    obtain ⟨j, hj⟩ := hj
    refine ⟨j, hj, fun side => ?_⟩
    obtain ⟨v, w, hprinted, hv, hw⟩ := serialized_bounds hj side
    rw [h side, bound_meaning] at hprinted
    have heq := Except.ok.inj hprinted
    simp only [List.cons.injEq, Prod.mk.injEq, true_and, and_true] at heq
    exact ⟨hv.trans heq.1.symm, hw.trans heq.2.symm⟩

end RangeClass

end Reporting

/-- `start` prints its end as exclusive; the flag of `end` is that of the last call. -/
theorem date_flag_iff {ι : Type} (side : Side) (flag : Option Bool) (calls : List (QueryCall ι)) :
    side.inclusive flag = (last (QueryCall.dateInclusive? side) calls).getD false ↔
      match side with
      | .lower => flag = some false
      | .upper => (last (QueryCall.dateInclusive? .upper) calls).getD false = flag.getD false := by
  cases side with
  | lower =>
    have hnever : last (QueryCall.dateInclusive? .lower) calls = none := by
      have hnone : ∀ c : QueryCall ι, QueryCall.dateInclusive? .lower c = none := by
        intro c
        cases c with
        | date side _ _ => cases side <;> rfl
        | _ => rfl
      rw [last, List.filterMap_eq_nil_iff.mpr fun c _ => hnone c]
      rfl
    rw [hnever]
    cases flag with
    | none => simp [Side.inclusive]
    | some b => cases b <;> simp [Side.inclusive]
  | upper =>
    change flag.getD false = _ ↔ _
    exact eq_comm

/-- **When the three classes report their interval**: numbers always; dates and terms exactly under
the condition. -/
theorem range_queries_report_iff (formatDate : Int64 → CString) (cls : RangeClass) (n : Nat)
    (parts : Fin n → SearchQueryPart) (calls : List (QueryCall (Fin n))) :
    (∃ j, (SearchQueryPart.mk n parts cls.ctor calls).jsonSerialize formatDate = .ok j ∧
        cls.Reports formatDate calls j) ↔ cls.Faithful formatDate calls := by
  rw [RangeClass.printed_eq_meaning_iff_reports]
  cases cls with
  | date =>
    refine forall_congr' fun side => ?_
    have hprinted := @printed_date_iff (Fin n) formatDate
      (fun i => (parts i).jsonSerialize formatDate) (fun i => (parts i).meaning formatDate)
      (fun _ => True) side calls
    refine hprinted.trans (Prod.forall.trans ?_)
    refine forall_congr' fun d => forall_congr' fun flag => imp_congr_right fun _ => ?_
    exact and_congr_right' (date_flag_iff side flag calls)
  | numeric =>
    refine iff_of_true (fun side => ?_) trivial
    simp only [RangeClass.bound, QueryMember.printed, QueryMember.init, C.bind_ok, QueryField.after,
      QueryField.slots, QueryMember.meaning, Option.or_none]
  | term =>
    refine forall_congr' fun side => ?_
    have hprinted := @printed_term_iff (Fin n) formatDate
      (fun i => (parts i).jsonSerialize formatDate) (fun i => (parts i).meaning formatDate)
      (fun _ => True) side calls
    exact hprinted.trans Prod.forall

/-- `dateRange()->start("2010")`; no date is formatted. -/
def startCall : List (QueryCall (Fin 0)) := [.date .lower (.string (ascii "2010")) none]

/-- It is printed as exclusive. -/
theorem start_is_exclusive :
    ¬∃ j, (SearchQueryPart.mk 0 Fin.elim0 RangeClass.date.ctor startCall).jsonSerialize
          (fun _ => .ofBytes []) = .ok j ∧
        RangeClass.date.Reports (fun _ => .ofBytes []) startCall j := by
  rw [RangeClass.printed_eq_meaning_iff_reports]
  intro h
  have hslots := Except.ok.inj (h .lower)
  have hflag := (Prod.mk.inj (List.cons.inj (List.cons.inj hslots).2).1).2
  -- `inclusive_start` is `false`, the default of a lower end is `true`
  cases hflag

end PhpCouchbase
