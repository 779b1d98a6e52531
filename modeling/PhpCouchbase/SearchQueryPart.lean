import PhpCouchbase.Json
import PhpCouchbase.Lib.LastWrite

/-!
# The parts of a search query

Each static constructor of `SearchQuery` (`search_query.c`) makes an object of a class of its own,
in a file of `search/` such as `search/match_query.c`; its setters store into the C struct and
`jsonSerialize` prints the struct.  The classes are written from the same few pieces, so a class is
the list of its members in the order of its `jsonSerialize`, and each kind of member has one
initialiser, one setter and one printer.

An object refers to its sub-queries by a handle.  A tree of objects is printed from the root: only
what a query still refers to is printed.
-/

set_option autoImplicit false

namespace PhpCouchbase

/-! ## Calls -/

/-- Setters that keep a string: `field`, `analyzer`, `dateTimeParser`. -/
inductive TextSetter where
  | field
  | analyzer
  | dateTimeParser
  deriving DecidableEq, Repr

/-- Setters that keep an integer: `prefixLength`, `fuzziness`, and `min` of a disjunction. -/
inductive IntSetter where
  | prefixLength
  | fuzziness
  | min
  deriving DecidableEq, Repr

/-- Setters that append sub-queries: `every` and `either`. -/
inductive AddSetter where
  | every
  | either
  deriving DecidableEq, Repr

/-- Setters of a boolean query; each call starts a new list. -/
inductive ClauseSetter where
  | must
  | mustNot
  | should
  deriving DecidableEq, Repr

/-- The two ends of a range: `start` and `end`, `min` and `max`. -/
inductive Side where
  | lower
  | upper
  deriving DecidableEq, Repr

/-- A call of a setter after its arguments are parsed.  A variadic method needs one argument at
least; `none` is an argument that is no `SearchQueryPart`.  A call that a class does not have throws
and changes nothing. -/
inductive QueryCall (ι : Type) where
  | text (setter : TextSetter) (value : Bytes)
  | int (setter : IntSetter) (value : Int64)
  | boost (bits : UInt64)
  | docIds (id : Zval) (ids : List Zval)
  | add (setter : AddSetter) (query : Option ι) (queries : List (Option ι))
  | clause (setter : ClauseSetter) (query : Option ι) (queries : List (Option ι))
  | date (side : Side) (value : Zval) (inclusive : Option Bool)
  | number (side : Side) (bits : UInt64) (inclusive : Option Bool)
  | term (side : Side) (value : Bytes) (inclusive : Option Bool)

/-- The arguments that are strings; another one is skipped with a warning. -/
def stringArgs (args : List Zval) : List Bytes :=
  args.filterMap fun
    | .string s => some s
    | _ => none

/-- The arguments that are queries; another one is skipped with a warning. -/
def queryArgs {ι : Type} (args : List (Option ι)) : List ι := args.reduceOption

/-- The date that `start`, `end` and `addRange` take: a string, or a timestamp that goes through
`php_format_date`. -/
def dateText (formatDate : Int64 → CString) : Zval → Option Bytes
  | .string s => some s
  | .long n => some (formatDate n).bytes
  | _ => none

namespace QueryCall

variable {ι : Type} (formatDate : Int64 → CString)

/-! What a call stores in each variable.  `none` leaves the variable alone. -/

def text? (m : TextSetter) : QueryCall ι → Option Bytes
  | .text m' s => if m' = m then some s else none
  | _ => none

/-- The variable is an `int`. -/
def int? (m : IntSetter) : QueryCall ι → Option Int64
  | .int m' n => if m' = m then some n else none
  | _ => none

def boost? : QueryCall ι → Option UInt64
  | .boost bits => some bits
  | _ => none

def ids : QueryCall ι → List Bytes
  | .docIds id ids => stringArgs (id :: ids)
  | _ => []

def added (m : AddSetter) : QueryCall ι → List ι
  | .add m' q qs => if m' = m then queryArgs (q :: qs) else []
  | _ => []

def clause? (m : ClauseSetter) : QueryCall ι → Option (List ι)
  | .clause m' q qs => if m' = m then some (queryArgs (q :: qs)) else none
  | _ => none

/-- A value of another type throws. -/
def date? (side : Side) : QueryCall ι → Option Bytes
  | .date side' value _ => if side' = side then dateText formatDate value else none
  | _ => none

/-- `start` and `end` both write `inclusive_end`, before they look at the date; `inclusive_start` is
never written. -/
def dateInclusive? (side : Side) : QueryCall ι → Option Bool
  | .date .lower _ inclusive => if side = .upper then some (inclusive.getD true) else none
  | .date .upper _ inclusive => if side = .upper then some (inclusive.getD false) else none
  | _ => none

/-- `min` is inclusive by default, `max` is not. -/
def number? (side : Side) : QueryCall ι → Option (UInt64 × Bool)
  | .number side' bits inclusive =>
      if side' = side then some (bits, inclusive.getD (side = .lower)) else none
  | _ => none

/-- Neither end is inclusive by default. -/
def term? (side : Side) : QueryCall ι → Option (Bytes × Bool)
  | .term side' s inclusive => if side' = side then some (s, inclusive.getD false) else none
  | _ => none

end QueryCall

/-! ## The members of a class -/

/-- A member of a class: what the constructor is given for it and the name it is printed under. -/
inductive QueryMember (ι : Type) where
  /-- `ADD_ASSOC_NULL_EX` -/
  | null (key : String)
  | flag (key : String) (value : Bool)
  | point (key : String) (longitude latitude : UInt64)
  /-- a string of the constructor that is printed up to its first NUL -/
  | arg (key : String) (value : Bytes)
  /-- a string of the constructor that is printed with its length -/
  | sizedArg (key : String) (value : Bytes)
  | terms (key : String) (term : Zval) (terms : List Zval)
  | docIds (key : String) (id : Zval) (ids : List Zval)
  | queries (key : String) (setter : AddSetter) (query : Option ι) (queries : List (Option ι))
  | clause (key : String) (setter : ClauseSetter)
  | text (key : String) (setter : TextSetter)
  | int (key : String) (setter : IntSetter)
  | boost
  | date (side : Side)
  | number (side : Side)
  | term (side : Side)

/-- The variables of the C struct behind a member. -/
inductive QueryField (ι : Type) where
  /-- only the constructor writes it -/
  | fixed (key : String) (value : Json)
  | docIds (key : String) (ids : List Bytes)
  | queries (key : String) (setter : AddSetter) (queries : List ι)
  | clause (key : String) (setter : ClauseSetter) (queries : Option (List ι))
  | text (key : String) (setter : TextSetter) (value : Option Bytes)
  | int (key : String) (setter : IntSetter) (value : Int32)
  | boost (bits : UInt64)
  | date (side : Side) (value : Option Bytes) (inclusive : Bool)
  | number (side : Side) (value : Option (UInt64 × Bool))
  | term (side : Side) (value : Option (Bytes × Bool))

/-- What `ADD_ASSOC_STRING` makes of a buffer. -/
def assocString (s : Bytes) : Json := .string (CString.ofBytes s).bytes

/-- `-1.0` -/
def minusOne : UInt64 := 0xBFF0000000000000

/-- `x >= 0` for a double: not negative and not a NaN, or the negative zero. -/
def geZero (bits : UInt64) : Bool := bits ≤ 0x7FF0000000000000 || bits = 0x8000000000000000

/-- The member of `pcbc_*_search_query_init`.  A string is copied with `estrndup` and a length that
is declared `int`. -/
def QueryMember.init {ι : Type} : QueryMember ι → C (QueryField ι)
  | .null key => .ok (.fixed key .null)
  | .flag key b => .ok (.fixed key (.bool b))
  | .point key longitude latitude => .ok (.fixed key (.list [.double longitude, .double latitude]))
  | .arg key s => do
      let copy ← prefixOf s (narrowInt s.length)
      .ok (.fixed key (assocString copy))
  | .sizedArg key s => do
      let copy ← prefixOf s (narrowInt s.length)
      .ok (.fixed key (.string copy))
  | .terms key t ts => .ok (.fixed key (.list ((stringArgs (t :: ts)).map .string)))
  | .docIds key i ids => .ok (.docIds key (stringArgs (i :: ids)))
  | .queries key m q qs => .ok (.queries key m (queryArgs (q :: qs)))
  | .clause key m => .ok (.clause key m none)
  | .text key m => .ok (.text key m none)
  | .int key m => .ok (.int key m (-1))
  | .boost => .ok (.boost minusOne)
  | .date side => .ok (.date side none false)
  | .number side => .ok (.number side none)
  | .term side => .ok (.term side none)

namespace QueryField

variable {ι : Type} (formatDate : Int64 → CString)

/-- The setters: what a call makes of the variables. -/
def call (c : QueryCall ι) : QueryField ι → QueryField ι
  | .fixed key v => .fixed key v
  | .docIds key ids => .docIds key (ids ++ c.ids)
  | .queries key m qs => .queries key m (qs ++ c.added m)
  | .clause key m qs => .clause key m ((c.clause? m).or qs)
  | .text key m s => .text key m ((c.text? m).or s)
  | .int key m n => .int key m (((c.int? m).map Int64.toInt32).getD n)
  | .boost bits => .boost (c.boost?.getD bits)
  | .date side d inclusive =>
      .date side ((c.date? formatDate side).or d) ((c.dateInclusive? side).getD inclusive)
  | .number side v => .number side ((c.number? side).or v)
  | .term side v => .term side ((c.term? side).or v)

end QueryField

/-- `start` or `end` -/
def Side.dateKey : Side → String
  | .lower => "start"
  | .upper => "end"

/-- `inclusive_start` or `inclusive_end` -/
def Side.inclusiveDateKey : Side → String
  | .lower => "inclusive_start"
  | .upper => "inclusive_end"

/-- `min` or `max` -/
def Side.key : Side → String
  | .lower => "min"
  | .upper => "max"

/-- `inclusive_min` or `inclusive_max` -/
def Side.inclusiveKey : Side → String
  | .lower => "inclusive_min"
  | .upper => "inclusive_max"

/-- An `int` that is printed if it is not negative. -/
def intJson (n : Int32) : Option Json := if 0 ≤ n.toInt then some (.long n.toInt) else none

/-- A member under a literal name. -/
def slot (key : String) (v : Option Json) : Bytes × Option Json := (ascii key, v)

/-- The lines of `jsonSerialize`.  `sub` prints a sub-query. -/
def QueryField.slots {ι : Type} (sub : ι → C Json) : QueryField ι → C Slots
  | .fixed key v => .ok [slot key (some v)]
  | .docIds key ids => .ok [slot key (some (.list (ids.map .string)))]
  | .queries key _ qs => do
      let elems ← qs.mapM sub
      .ok [slot key (some (.list elems))]
  | .clause key _ none => .ok [slot key none]
  | .clause key _ (some qs) => do
      let elems ← qs.mapM sub
      .ok [slot key (some (.list elems))]
  | .text key _ s => .ok [slot key (s.map assocString)]
  | .int key _ n => .ok [slot key (intJson n)]
  | .boost bits => .ok [slot "boost" (if geZero bits then some (.double bits) else none)]
  | .date side d inclusive =>
      .ok [slot side.dateKey (d.map assocString),
        slot side.inclusiveDateKey (d.map fun _ => .bool inclusive)]
  | .number side v =>
      .ok [slot side.key (v.map fun p => .double p.1),
        slot side.inclusiveKey (v.map fun p => .bool p.2)]
  | .term side none => .ok [slot side.key none, slot side.inclusiveKey none]
  | .term side (some (s, inclusive)) => do
      -- the length of the copy is kept in an `int`
      let copy ← prefixOf s (narrowInt s.length)
      .ok [slot side.key (some (.string copy)), slot side.inclusiveKey (some (.bool inclusive))]

/-! ## The classes -/

section Classes

variable {ι : Type}

def matchSearchQuery (text : Bytes) : List (QueryMember ι) :=
  [.arg "match" text, .text "field" .field, .text "analyzer" .analyzer,
    .int "prefix_length" .prefixLength, .int "fuzziness" .fuzziness, .boost]

def matchPhraseSearchQuery (matchPhrase : Bytes) : List (QueryMember ι) :=
  [.arg "match_phrase" matchPhrase, .text "field" .field, .text "analyzer" .analyzer, .boost]

def queryStringSearchQuery (queryString : Bytes) : List (QueryMember ι) :=
  [.arg "query" queryString, .boost]

def regexpSearchQuery (regexp : Bytes) : List (QueryMember ι) :=
  [.arg "regexp" regexp, .text "field" .field, .boost]

def prefixSearchQuery (text : Bytes) : List (QueryMember ι) :=
  [.arg "prefix" text, .text "field" .field, .boost]

def wildcardSearchQuery (wildcard : Bytes) : List (QueryMember ι) :=
  [.arg "wildcard" wildcard, .text "field" .field, .boost]

def termSearchQuery (text : Bytes) : List (QueryMember ι) :=
  [.arg "term" text, .text "field" .field, .int "prefix_length" .prefixLength,
    .int "fuzziness" .fuzziness, .boost]

def booleanFieldSearchQuery (value : Bool) : List (QueryMember ι) :=
  [.flag "bool" value, .text "field" .field, .boost]

def booleanSearchQuery : List (QueryMember ι) :=
  [.clause "must" .must, .clause "must_not" .mustNot, .clause "should" .should, .boost]

def conjunctionSearchQuery (query : Option ι) (queries : List (Option ι)) : List (QueryMember ι) :=
  [.queries "conjuncts" .every query queries, .boost]

def disjunctionSearchQuery (query : Option ι) (queries : List (Option ι)) : List (QueryMember ι) :=
  [.queries "disjuncts" .either query queries, .int "min" .min, .boost]

def docIdSearchQuery (id : Zval) (ids : List Zval) : List (QueryMember ι) :=
  [.docIds "ids" id ids, .text "field" .field, .boost]

def phraseSearchQuery (term : Zval) (terms : List Zval) : List (QueryMember ι) :=
  [.terms "terms" term terms, .text "field" .field, .boost]

def geoDistanceSearchQuery (longitude latitude : UInt64) (distance : Bytes) :
    List (QueryMember ι) :=
  [.sizedArg "distance" distance, .point "location" longitude latitude, .text "field" .field,
    .boost]

def geoBoundingBoxSearchQuery (topLeftLongitude topLeftLatitude bottomRightLongitude
    bottomRightLatitude : UInt64) : List (QueryMember ι) :=
  [.point "top_left" topLeftLongitude topLeftLatitude,
    .point "bottom_right" bottomRightLongitude bottomRightLatitude, .text "field" .field, .boost]

def matchAllSearchQuery : List (QueryMember ι) := [.null "match_all", .boost]

def matchNoneSearchQuery : List (QueryMember ι) := [.null "match_none", .boost]

def dateRangeSearchQuery : List (QueryMember ι) :=
  [.date .lower, .date .upper, .text "datetime_parser" .dateTimeParser, .text "field" .field,
    .boost]

def numericRangeSearchQuery : List (QueryMember ι) :=
  [.number .lower, .number .upper, .text "field" .field, .boost]

def termRangeSearchQuery : List (QueryMember ι) :=
  [.term .lower, .term .upper, .text "field" .field, .boost]

end Classes

/-- A call of a static constructor of `SearchQuery`. -/
inductive QueryConstructor (ι : Type) where
  | matchNone
  | matchAll
  | matchText (text : Bytes)
  | matchPhrase (text : Bytes)
  | queryString (text : Bytes)
  | regexp (text : Bytes)
  | prefixText (text : Bytes)
  | wildcard (text : Bytes)
  | term (text : Bytes)
  | booleanField (value : Bool)
  | boolean
  | conjuncts (query : Option ι) (queries : List (Option ι))
  | disjuncts (query : Option ι) (queries : List (Option ι))
  | docId (id : Zval) (ids : List Zval)
  | phrase (term : Zval) (terms : List Zval)
  | geoDistance (longitude latitude : UInt64) (distance : Bytes)
  | geoBoundingBox (topLeftLongitude topLeftLatitude bottomRightLongitude
      bottomRightLatitude : UInt64)
  | dateRange
  | numericRange
  | termRange

/-- The class whose `init` a constructor calls. -/
def QueryConstructor.init {ι : Type} : QueryConstructor ι → List (QueryMember ι)
  | .matchNone => matchNoneSearchQuery
  -- this constructor calls `pcbc_match_none_search_query_init` too
  | .matchAll => matchNoneSearchQuery
  | .matchText s => matchSearchQuery s
  | .matchPhrase s => matchPhraseSearchQuery s
  | .queryString s => queryStringSearchQuery s
  | .regexp s => regexpSearchQuery s
  | .prefixText s => prefixSearchQuery s
  | .wildcard s => wildcardSearchQuery s
  | .term s => termSearchQuery s
  | .booleanField b => booleanFieldSearchQuery b
  | .boolean => booleanSearchQuery
  | .conjuncts q qs => conjunctionSearchQuery q qs
  | .disjuncts q qs => disjunctionSearchQuery q qs
  | .docId i ids => docIdSearchQuery i ids
  | .phrase t ts => phraseSearchQuery t ts
  | .geoDistance longitude latitude distance => geoDistanceSearchQuery longitude latitude distance
  | .geoBoundingBox a b c d => geoBoundingBoxSearchQuery a b c d
  | .dateRange => dateRangeSearchQuery
  | .numericRange => numericRangeSearchQuery
  | .termRange => termRangeSearchQuery

/-! ## Trees of queries -/

/-- A query after all its calls: how it was constructed, its calls in order, and the queries that
its arguments refer to.  The queries are taken as they are when the tree is printed. -/
inductive SearchQueryPart where
  | mk (n : Nat) (sub : Fin n → SearchQueryPart) (ctor : QueryConstructor (Fin n))
      (calls : List (QueryCall (Fin n)))

/-- A call on an object. -/
def callQuery {ι : Type} (formatDate : Int64 → CString) (o : List (QueryField ι))
    (c : QueryCall ι) : List (QueryField ι) :=
  o.map (QueryField.call formatDate c)

/-- The methods `jsonSerialize` of the classes, all the way down. -/
def SearchQueryPart.jsonSerialize (formatDate : Int64 → CString) : SearchQueryPart → C Json
  | .mk _ sub ctor calls => do
      let o ← ctor.init.mapM QueryMember.init
      let slots ← (calls.foldl (callQuery formatDate) o).mapM
        (QueryField.slots fun i => (sub i).jsonSerialize formatDate)
      .ok (structJson (present slots.flatten))

end PhpCouchbase
