import PhpCouchbase.SearchQueryMeaning

/-!
# Facets of a search query

A facet (`search/term_facet.c`, `date_range_facet.c`, `numeric_range_facet.c`) has a field and a
limit that the constructor copies as `int`, and the date and numeric facets have a list of ranges
that `addRange` appends to.

* `foldl_addRange` — the ranges are the accepted calls in order.
* `facet_eq_meaning_iff` — a facet is printed as it is meant exactly when the field and the limit
  survive the constructor.
-/

set_option autoImplicit false

namespace PhpCouchbase

open LastWrite

/-- A facet with the calls of `addRange` in order.  A date is any value; of a number `none` is
`NULL`. -/
inductive SearchFacet where
  | term (field : Bytes) (limit : Int64)
  | dateRange (field : Bytes) (limit : Int64) (ranges : List (Bytes × Zval × Zval))
  | numericRange (field : Bytes) (limit : Int64)
      (ranges : List (Bytes × Option UInt64 × Option UInt64))

namespace SearchFacet

def field : SearchFacet → Bytes
  | .term field _ | .dateRange field _ _ | .numericRange field _ _ => field

def limit : SearchFacet → Int64
  | .term _ limit | .dateRange _ limit _ | .numericRange _ limit _ => limit

end SearchFacet

section

variable (formatDate : Int64 → CString)

/-! ## The code -/

/-- One end of a range as `DateRangeSearchFacet::addRange` takes it; another type throws. -/
def rangeDate (key : String) : Zval → Option (Bytes × Option Json)
  | .string s => some (slot key (some (.string s)))
  | .long n => some (slot key (some (.string (formatDate n).bytes)))
  | .null => some (slot key none)
  | _ => none

/-- `DateRangeSearchFacet::addRange`; a range that throws is dropped. -/
def addDateRange (ranges : List Json) (r : Bytes × Zval × Zval) : List Json :=
  match rangeDate formatDate "start" r.2.1, rangeDate formatDate "end" r.2.2 with
  | some lower, some upper =>
      ranges ++ [structJson (present [slot "name" (some (.string r.1)), lower, upper])]
  | _, _ => ranges

/-- `NumericRangeSearchFacet::addRange` -/
def addNumericRange (ranges : List Json) (r : Bytes × Option UInt64 × Option UInt64) : List Json :=
  ranges ++ [structJson (present
    [slot "name" (some (.string r.1)), slot "min" (r.2.1.map .double),
      slot "max" (r.2.2.map .double)])]

/-- The list of ranges under its name. -/
def SearchFacet.ranges : SearchFacet → Slots
  | .term _ _ => []
  | .dateRange _ _ ranges =>
      [slot "date_ranges" (some (.list (ranges.foldl (addDateRange formatDate) [])))]
  | .numericRange _ _ ranges =>
      [slot "numeric_ranges" (some (.list (ranges.foldl addNumericRange [])))]

/-- `pcbc_*_search_facet_init` and `jsonSerialize` of the three facets.  The length of the field and
the limit are declared `int`. -/
def SearchFacet.jsonSerialize (f : SearchFacet) : C Json := do
  let copy ← prefixOf f.field (narrowInt f.field.length)
  .ok (structJson (present (
    [slot "field" (some (assocString copy)), slot "size" (some (.long f.limit.toInt32.toInt))] ++
      f.ranges formatDate)))

/-! ## The meaning -/

/-- An end of a range: a date, or open. -/
def rangeEnd : Zval → Option (Option Bytes)
  | .null => some none
  | z => (dateText formatDate z).map some

/-- A range with two ends that are accepted. -/
def dateRangeMeaning (r : Bytes × Zval × Zval) : Option Json := do
  let lower ← rangeEnd formatDate r.2.1
  let upper ← rangeEnd formatDate r.2.2
  some (.object (present [slot "name" (some (.string r.1)), slot "start" (lower.map .string),
    slot "end" (upper.map .string)]))

def numericRangeMeaning (r : Bytes × Option UInt64 × Option UInt64) : Json :=
  .object (present [slot "name" (some (.string r.1)), slot "min" (r.2.1.map .double),
    slot "max" (r.2.2.map .double)])

def SearchFacet.rangesMeaning : SearchFacet → Slots
  | .term _ _ => []
  | .dateRange _ _ ranges =>
      [slot "date_ranges" (some (.list (ranges.filterMap (dateRangeMeaning formatDate))))]
  | .numericRange _ _ ranges =>
      [slot "numeric_ranges" (some (.list (ranges.map numericRangeMeaning)))]

/-- The JSON meaning of a facet. -/
def SearchFacet.meaning (f : SearchFacet) : Json :=
  .object (present (
    [slot "field" (some (.string f.field)), slot "size" (some (.long f.limit.toInt))] ++
      f.rangesMeaning formatDate))

/-- When a facet is printed as it is meant. -/
def SearchFacet.Faithful (f : SearchFacet) : Prop :=
  f.field.length < 2 ^ 31 ∧ 0 ∉ f.field ∧ -2 ^ 31 ≤ f.limit.toInt ∧ f.limit.toInt < 2 ^ 31

end

/-! ## The agreement -/

section

variable {formatDate : Int64 → CString}

theorem rangeDate_eq (key : String) (z : Zval) :
    rangeDate formatDate key z =
      (rangeEnd formatDate z).map fun d => slot key (d.map .string) := by
  cases z <;> rfl

theorem addDateRange_eq (ranges : List Json) (r : Bytes × Zval × Zval) :
    addDateRange formatDate ranges r = ranges ++ (dateRangeMeaning formatDate r).toList := by
  unfold addDateRange dateRangeMeaning
  rw [rangeDate_eq, rangeDate_eq]
  cases rangeEnd formatDate r.2.1 with
  | none => simp
  | some lower =>
    cases rangeEnd formatDate r.2.2 with
    | none => simp
    | some upper => simp [slot, structJson_cons]

theorem addNumericRange_eq (ranges : List Json) (r : Bytes × Option UInt64 × Option UInt64) :
    addNumericRange ranges r = ranges ++ [numericRangeMeaning r] := by
  simp [addNumericRange, numericRangeMeaning, slot, structJson_cons]

/-- **The ranges** of a facet are the accepted ones in the order of the calls. -/
theorem foldl_addRange (f : SearchFacet) : f.ranges formatDate = f.rangesMeaning formatDate := by
  cases f with
  | term field limit => rfl
  | dateRange field limit ranges =>
    have hstep : addDateRange formatDate =
        fun l r => l ++ (dateRangeMeaning formatDate r).toList :=
      funext₂ addDateRange_eq
    rw [SearchFacet.ranges, SearchFacet.rangesMeaning, hstep, foldl_append_flatMap,
      List.nil_append, List.filterMap_eq_flatMap_toList]
  | numericRange field limit ranges =>
    have hstep : addNumericRange = fun l r => l ++ [numericRangeMeaning r] :=
      funext₂ addNumericRange_eq
    rw [SearchFacet.ranges, SearchFacet.rangesMeaning, hstep, foldl_append_flatMap,
      List.nil_append, List.map_eq_flatMap]

theorem toInt32_eq_iff (n : Int64) :
    n.toInt32.toInt = n.toInt ↔ -2 ^ 31 ≤ n.toInt ∧ n.toInt < 2 ^ 31 := by
  have hlt := Int32.toInt_lt n.toInt32
  have hle := Int32.le_toInt n.toInt32
  constructor
  · intro h
    omega
  · rintro ⟨h1, h2⟩
    rw [Int64.toInt_toInt32]
    apply Int.bmod_eq_of_le <;> omega

/-- **One facet.** -/
theorem facet_eq_meaning_iff (f : SearchFacet) :
    f.jsonSerialize formatDate = .ok (f.meaning formatDate) ↔ f.Faithful := by
  unfold SearchFacet.jsonSerialize SearchFacet.meaning SearchFacet.Faithful
  rw [foldl_addRange, copy_eq_ok_iff, ← assocString_eq_iff, ← toInt32_eq_iff]
  · simp [slot, structJson_cons]
  · intro p hp heq
    have hmembers := (structJson_eq_object_iff.mp heq).1
    have hfield := (Prod.mk.inj (List.cons.inj hmembers).1).2
    exact assocString_ne_of_length_lt hp hfield

end

end PhpCouchbase
