import PhpCouchbase.Batch
import PhpCouchbase.DesignDocument
import PhpCouchbase.Subdoc
import PhpCouchbase.ViewQuery
import PhpCouchbase.Lib.LastWrite

/-!
# The request of a view query

A program sets up a query by calls (`view_query.c`, `spatial_view_query.c`), in any number and any
order, and gives it to `Bucket::query` (`bucket.c`), which asks it for the parts of the request and
hands them to libcouchbase.  What the server reads of the options is what the last call stored under
each name.

* `view_request_meaning` — `ViewQuery`, from the calls to the fields that the server reads.
* `spatial_request_meaning` — the same for `SpatialViewQuery`.
-/

set_option autoImplicit false

namespace PhpCouchbase

open OrderedMap

/-! ## The other setters -/

/-- A setter that stores one value under its name. -/
def setOption (options : ViewOptions) (key : String) (value : Zval) : ViewOptions :=
  addAssoc options (ascii key) value

/-- `UPDATE_BEFORE`, `UPDATE_NONE` and `UPDATE_AFTER` -/
def staleText (consistency : Int64) : Option String :=
  if consistency = 2 then some "ok"
  else if consistency = 1 then some "false"
  else if consistency = 3 then some "update_after"
  else none

/-- `ORDER_ASCENDING` and `ORDER_DESCENDING` -/
def descendingText (order : Int64) : Option String :=
  if order = 1 then some "false" else if order = 2 then some "true" else none

/-- A setter that knows a few values; others throw and leave the query. -/
def setNamed (options : ViewOptions) (key : String) (text : Option String) (message : String) :
    ViewOptions × Option Exn :=
  match text with
  | some text => (setOption options key (.string (ascii text)), none)
  | none => (options, some (.pcbc message .einval))

def setConsistency (options : ViewOptions) (consistency : Int64) : ViewOptions × Option Exn :=
  setNamed options "stale" (staleText consistency) "invalid consistency level"

/-- The loop of `custom`: elements without a string key are passed over. -/
def setCustom (options : ViewOptions) (custom : List (ArrayKey × Zval)) : ViewOptions :=
  custom.foldl (fun options e =>
    match e.1 with
    | .str key => addAssoc options key e.2
    | .index _ => options) options

namespace ViewQuery

/-- `pcbc_view_query_init`, which takes the lengths of the names as `int`s -/
def init (designDocument viewName : Bytes) : C ViewQuery := do
  let designDocument ← prefixOf designDocument (narrowInt designDocument.length)
  let viewName ← prefixOf viewName (narrowInt viewName.length)
  return ⟨.ofBytes designDocument, .ofBytes viewName, none, []⟩

def limit (q : ViewQuery) (limit : Int64) : ViewQuery :=
  { q with options := setOption q.options "limit" (.long limit) }

def skip (q : ViewQuery) (skip : Int64) : ViewQuery :=
  { q with options := setOption q.options "skip" (.long skip) }

/-- `ViewQuery::consistency`, with the exception -/
def consistency (q : ViewQuery) (consistency : Int64) : ViewQuery × Option Exn :=
  let (options, exn) := setConsistency q.options consistency
  ({ q with options }, exn)

def order (q : ViewQuery) (order : Int64) : ViewQuery × Option Exn :=
  let (options, exn) := setNamed q.options "descending" (descendingText order) "invalid order"
  ({ q with options }, exn)

def reduce (q : ViewQuery) (reduce : Bool) : ViewQuery :=
  { q with options := setOption q.options "reduce" (inclusiveEnd reduce) }

def group (q : ViewQuery) (group : Bool) : ViewQuery :=
  { q with options := setOption q.options "group" (inclusiveEnd group) }

def groupLevel (q : ViewQuery) (level : Int64) : ViewQuery :=
  { q with options := setOption q.options "group_level" (.long level) }

def idRange (q : ViewQuery) (startId endId : Bytes) : ViewQuery :=
  let options := setOption q.options "startkey_docid" (.string startId)
  { q with options := setOption options "endkey_docid" (.string endId) }

def custom (q : ViewQuery) (custom : List (ArrayKey × Zval)) : ViewQuery :=
  { q with options := setCustom q.options custom }

end ViewQuery

namespace SpatialViewQuery

/-- `pcbc_spatial_view_query_init` -/
def init (designDocument viewName : Bytes) : C SpatialViewQuery := do
  let designDocument ← prefixOf designDocument (narrowInt designDocument.length)
  let viewName ← prefixOf viewName (narrowInt viewName.length)
  return ⟨.ofBytes designDocument, .ofBytes viewName, []⟩

def limit (q : SpatialViewQuery) (limit : Int64) : SpatialViewQuery :=
  { q with options := setOption q.options "limit" (.long limit) }

def skip (q : SpatialViewQuery) (skip : Int64) : SpatialViewQuery :=
  { q with options := setOption q.options "skip" (.long skip) }

/-- `SpatialViewQuery::bbox`; `implode` is `php_implode` with a comma. -/
def bbox (implode : List (ArrayKey × Zval) → Bytes) (q : SpatialViewQuery)
    (bbox : List (ArrayKey × Zval)) : SpatialViewQuery :=
  { q with options := setOption q.options "bbox" (.string (implode bbox)) }

def consistency (q : SpatialViewQuery) (consistency : Int64) : SpatialViewQuery × Option Exn :=
  let (options, exn) := setConsistency q.options consistency
  ({ q with options }, exn)

def custom (q : SpatialViewQuery) (custom : List (ArrayKey × Zval)) : SpatialViewQuery :=
  { q with options := setCustom q.options custom }

end SpatialViewQuery

/-! ## `Bucket::query` with a view query -/

/-- `lcb_CMDVIEWQUERY` -/
structure ViewCommand where
  includeDocs : Bool
  docsConcurrentMax : Nat
  ddoc : Bytes
  view : Bytes
  optstr : Option Bytes
  postdata : Option Bytes
  deriving DecidableEq

/-- A text of the array with its length, which is an `int`. -/
def fetchText (http : HttpPhp) (elems : ViewOptions) (key : String) : C (Option FetchedString) := do
  match ← phpArrayFetchString http (.ok (.array elems)) (ascii key) with
  | none => return none
  | some ⟨text, owned⟩ => return some ⟨← prefixOf text (narrowInt text.length), owned⟩

/-- The command that `Bucket::query` makes of the array that `encode()` returned; without a design
document or a view it makes none. -/
def viewCommand (http : HttpPhp) (elems : ViewOptions) : C (Option ViewCommand) := do
  let includeDocs := ((fetch elems (symtableKey (ascii "include_docs"))).map zendIsTrue).getD false
  let ddoc ← fetchText http elems "ddoc"
  let view ← fetchText http elems "view"
  let optstr ← fetchText http elems "optstr"
  let postdata ← fetchText http elems "postdata"
  let cmd := match ddoc, view with
    | some ddoc, some view => some ⟨includeDocs, if includeDocs then 20 else 0, ddoc.text, view.text,
        optstr.map FetchedString.text, postdata.map FetchedString.text⟩
    | _, _ => none
  releaseFound ddoc
  releaseFound view
  releaseFound optstr
  releaseFound postdata
  return cmd

/-! ## Calls -/

/-- A call on a `ViewQuery`. -/
inductive ViewCall where
  | limit (limit : Int64)
  | skip (skip : Int64)
  | consistency (consistency : Int64)
  | order (order : Int64)
  | reduce (reduce : Bool)
  | group (group : Bool)
  | groupLevel (level : Int64)
  | idRange (startId endId : Bytes)
  | custom (custom : List (ArrayKey × Zval))
  | encoding (setter : ViewSetter)

/-- A call on a `SpatialViewQuery`. -/
inductive SpatialCall where
  | limit (limit : Int64)
  | skip (skip : Int64)
  | consistency (consistency : Int64)
  | bbox (bbox : List (ArrayKey × Zval))
  | custom (custom : List (ArrayKey × Zval))
  | encoding (setter : SpatialSetter)

variable (php : ViewPhp)

/-- The query after the call, and whether an exception is pending. -/
def ViewCall.run (q : ViewQuery) : ViewCall → C (ViewQuery × Bool)
  | .limit n => .ok (q.limit n, false)
  | .skip n => .ok (q.skip n, false)
  | .consistency level => .ok ((q.consistency level).1, (q.consistency level).2.isSome)
  | .order o => .ok ((q.order o).1, (q.order o).2.isSome)
  | .reduce b => .ok (q.reduce b, false)
  | .group b => .ok (q.group b, false)
  | .groupLevel level => .ok (q.groupLevel level, false)
  | .idRange startId endId => .ok (q.idRange startId endId, false)
  | .custom elems => .ok (q.custom elems, false)
  | .encoding setter => setter.run php q

def SpatialCall.run (implode : List (ArrayKey × Zval) → Bytes) (q : SpatialViewQuery) :
    SpatialCall → C (SpatialViewQuery × Bool)
  | .limit n => .ok (q.limit n, false)
  | .skip n => .ok (q.skip n, false)
  | .consistency level => .ok ((q.consistency level).1, (q.consistency level).2.isSome)
  | .bbox box => .ok (q.bbox implode box, false)
  | .custom elems => .ok (q.custom elems, false)
  | .encoding setter => setter.run php q

/-! ## What a call stores -/

def optionPair (key : String) (value : Zval) : ArrayKey × Zval := (.str (ascii key), value)

def namedPairs (key : String) (text : Option String) : ViewOptions :=
  match text with
  | some text => [optionPair key (.string (ascii text))]
  | none => []

def customPairs (custom : List (ArrayKey × Zval)) : ViewOptions :=
  custom.filterMap fun e =>
    match e.1 with
    | .str key => some (symtableKey key, e.2)
    | .index _ => none

/-- The texts of the values whose encoding set no error code. -/
def encodedPairs (parts : Parts) : ViewOptions :=
  ((encodings php false parts).filter fun e => !e.2.failed).map fun e =>
    optionPair e.1 (.string e.2.text)

/-- The options that a call stores. -/
def ViewCall.pairs : ViewCall → ViewOptions
  | .limit n => [optionPair "limit" (.long n)]
  | .skip n => [optionPair "skip" (.long n)]
  | .consistency level => namedPairs "stale" (staleText level)
  | .order o => namedPairs "descending" (descendingText o)
  | .reduce b => [optionPair "reduce" (ViewQuery.inclusiveEnd b)]
  | .group b => [optionPair "group" (ViewQuery.inclusiveEnd b)]
  | .groupLevel level => [optionPair "group_level" (.long level)]
  | .idRange startId endId =>
    [optionPair "startkey_docid" (.string startId), optionPair "endkey_docid" (.string endId)]
  | .custom elems => customPairs elems
  | .encoding (.key key) => encodedPairs php [("key", key)]
  | .encoding (.keys _) => []
  | .encoding (.range startKey endKey inclusive) =>
    optionPair "inclusive_end" (ViewQuery.inclusiveEnd inclusive) ::
      encodedPairs php [("startkey", startKey), ("endkey", endKey)]

/-- The body that a call sets. -/
def ViewCall.body : ViewCall → Option Bytes
  | .encoding (.keys keys) =>
    let r := php.jsonEncode false (ViewQuery.keysPayload keys)
    if r.failed then none else some r.text
  | _ => none

def SpatialCall.pairs (implode : List (ArrayKey × Zval) → Bytes) : SpatialCall → ViewOptions
  | .limit n => [optionPair "limit" (.long n)]
  | .skip n => [optionPair "skip" (.long n)]
  | .consistency level => namedPairs "stale" (staleText level)
  | .bbox box => [optionPair "bbox" (.string (implode box))]
  | .custom elems => customPairs elems
  | .encoding (.startRange range) => encodedPairs php [("start_range", .array range)]
  | .encoding (.endRange range) => encodedPairs php [("end_range", .array range)]

/-- The JSON texts that a call makes fit an `int`. -/
def EncodingsFit (parts : Parts) : Prop :=
  ∀ e ∈ encodings php false parts, e.2.text.length < 2 ^ 31

/-- The JSON texts fit, and the keys of `keys` have a reference count. -/
def ViewCall.Fits : ViewCall → Prop
  | .encoding (.keys keys) =>
    keys.counted = true ∧ EncodingsFit php (ViewSetter.keys keys).encodes
  | .encoding setter => EncodingsFit php setter.encodes
  | _ => True

def SpatialCall.Fits : SpatialCall → Prop
  | .encoding setter => EncodingsFit php setter.encodes
  | _ => True

/-! ## One call -/

variable {php}

theorem setOption_eq {key : String} (h : symtableKey (ascii key) = .str (ascii key))
    (options : ViewOptions) (value : Zval) :
    setOption options key value = fill options [optionPair key value] := by
  rw [setOption, addAssoc, h]
  rfl

theorem setNamed_eq {key : String} (h : symtableKey (ascii key) = .str (ascii key))
    (options : ViewOptions) (text : Option String) (message : String) :
    (setNamed options key text message).1 = fill options (namedPairs key text) := by
  cases text with
  | none => rfl
  | some text => exact setOption_eq h options _

theorem setCustom_eq (options : ViewOptions) (custom : List (ArrayKey × Zval)) :
    setCustom options custom = fill options (customPairs custom) := by
  induction custom generalizing options with
  | nil => rfl
  | cons e custom ih =>
    obtain ⟨key, value⟩ := e
    cases key with
    | str key => exact ih _
    | index i => exact ih _

theorem encodingsFit_one {key : String} {value : Zval} :
    EncodingsFit php [(key, value)] ↔ (php.jsonEncode false value).text.length < 2 ^ 31 :=
  List.forall_mem_singleton

/-- Encoding stores the texts, when they fit. -/
theorem encodeParts_fits {parts : Parts}
    (hkeys : ∀ p ∈ parts, symtableKey (ascii p.1) = .str (ascii p.1))
    (hfits : EncodingsFit php parts) (options : ViewOptions) :
    encodeParts php parts (options, false) =
      .ok (fill options (encodedPairs php parts), anyThrown (encodings php false parts)) := by
  have hkept : keptTexts (encodings php false parts) =
      .ok (((encodings php false parts).filter fun e => !e.2.failed).map fun e =>
        (ascii e.1, e.2.text)) := by
    unfold keptTexts
    refine C.mapM_eq_map fun e he => ?_
    rw [(stored_eq_iff e.2).mpr (hfits e (List.mem_filter.mp he).1)]
    rfl
  rw [encodeParts_eq hkeys, hkept, Except.map, textPairs, List.map_map]
  rfl

theorem encodeOption_fits {key : String} {value : Zval}
    (hkey : symtableKey (ascii key) = .str (ascii key))
    (hfits : EncodingsFit php [(key, value)]) (options : ViewOptions) :
    encodeOption php (options, false) key value =
      .ok (fill options (encodedPairs php [(key, value)]),
        anyThrown (encodings php false [(key, value)])) := by
  rw [← encodeParts_one php (key, value) (options, false)]
  refine encodeParts_fits ?_ hfits options
  intro p hp
  rw [List.mem_singleton.mp hp]
  exact hkey

/-- A text with its length. -/
def withLength (text : Bytes) : Bytes × Int := (text, text.length)

/-- The query with options stored and a body set. -/
def ViewQuery.stores (q : ViewQuery) (pairs : ViewOptions) (body : Option Bytes) : ViewQuery :=
  { q with options := fill q.options pairs, keys := (body.map withLength).or q.keys }

theorem ViewQuery.stores_ok {q : ViewQuery} {options pairs : ViewOptions}
    (h : options = fill q.options pairs) (thrown : Bool) :
    (.ok ({ q with options }, thrown) : C (ViewQuery × Bool)) =
      .ok (q.stores pairs none, thrown) := by
  rw [h]
  rfl

/-- The body that `keys` sets. -/
theorem setKeys_eq {keys : Zval} (hcounted : keys.counted = true)
    (hfits : EncodingsFit php (ViewSetter.keys keys).encodes) (q : ViewQuery) :
    q.setKeys php keys =
      .ok (q.stores [] (ViewCall.body php (.encoding (.keys keys))),
        (php.jsonEncode false (ViewQuery.keysPayload keys)).thrown) := by
  have hlen := encodingsFit_one.mp hfits
  rw [ViewQuery.setKeys, if_pos hcounted]
  simp only [ViewCall.body, ViewQuery.stores, fill_nil]
  cases (php.jsonEncode false (ViewQuery.keysPayload keys)).failed with
  | true => rfl
  | false =>
    simp only [Bool.false_eq_true, if_false]
    rw [narrowInt_of_lt hlen]
    rfl

/-- The options that `range` stores. -/
theorem setRange_eq {startKey endKey : Zval} {inclusive : Bool}
    (hfits : EncodingsFit php (ViewSetter.range startKey endKey inclusive).encodes) (q : ViewQuery) :
    q.setRange php startKey endKey inclusive =
      .ok (q.stores (ViewCall.pairs php (.encoding (.range startKey endKey inclusive))) none,
        anyThrown (encodings php false [("startkey", startKey), ("endkey", endKey)])) := by
  have hstartkey : symtableKey (ascii "startkey") = .str (ascii "startkey") := rfl
  have hendkey : symtableKey (ascii "endkey") = .str (ascii "endkey") := rfl
  have hkeys : ∀ p ∈ [("startkey", startKey), ("endkey", endKey)],
      symtableKey (ascii p.1) = .str (ascii p.1) :=
    List.forall_mem_cons.mpr ⟨hstartkey, List.forall_mem_singleton.mpr hendkey⟩
  have hparts := encodeParts_fits hkeys hfits
    (fill q.options [optionPair "inclusive_end" (ViewQuery.inclusiveEnd inclusive)])
  rw [encodeParts_two] at hparts
  obtain ⟨st, hstart, hend⟩ := C.bind_eq_ok.mp hparts
  have hinclusive : addAssoc q.options (ascii "inclusive_end") (ViewQuery.inclusiveEnd inclusive) =
      fill q.options [optionPair "inclusive_end" (ViewQuery.inclusiveEnd inclusive)] :=
    setOption_eq rfl q.options _
  rw [ViewQuery.setRange]
  simp only [hinclusive, hstart, C.bind_ok, hend]
  rfl

/-- **What a call does** is to store its pairs and to set its body. -/
theorem ViewCall.run_eq {c : ViewCall} (hfits : c.Fits php) (q : ViewQuery) :
    ∃ thrown, c.run php q = .ok (q.stores (c.pairs php) (c.body php), thrown) := by
  cases c with
  | limit n => exact ⟨_, ViewQuery.stores_ok (setOption_eq rfl _ _) _⟩
  | skip n => exact ⟨_, ViewQuery.stores_ok (setOption_eq rfl _ _) _⟩
  | consistency level => exact ⟨_, ViewQuery.stores_ok (setNamed_eq rfl _ _ _) _⟩
  | order o => exact ⟨_, ViewQuery.stores_ok (setNamed_eq rfl _ _ _) _⟩
  | reduce b => exact ⟨_, ViewQuery.stores_ok (setOption_eq rfl _ _) _⟩
  | group b => exact ⟨_, ViewQuery.stores_ok (setOption_eq rfl _ _) _⟩
  | groupLevel n => exact ⟨_, ViewQuery.stores_ok (setOption_eq rfl _ _) _⟩
  | idRange startId endId =>
    refine ⟨_, ViewQuery.stores_ok ?_ _⟩
    rw [setOption_eq rfl, setOption_eq rfl]
    rfl
  | custom elems => exact ⟨_, ViewQuery.stores_ok (setCustom_eq _ _) _⟩
  | encoding setter =>
    cases setter with
    | key key =>
      have hoption := encodeOption_fits rfl hfits q.options
      refine ⟨anyThrown (encodings php false [("key", key)]), ?_⟩
      show ViewQuery.setKey php q key = _
      rw [ViewQuery.setKey, hoption]
      rfl
    | keys keys => exact ⟨_, setKeys_eq hfits.1 hfits.2 q⟩
    | range startKey endKey inclusive => exact ⟨_, setRange_eq hfits q⟩

/-- A program sets up the query; it catches the exception of a call and goes on. -/
def runCalls (php : ViewPhp) (q : ViewQuery) (calls : List ViewCall) : C ViewQuery :=
  calls.foldlM (fun q c => do return (← c.run php q).1) q

/-- **What any calls leave**: the table that their pairs fill, and the body of the last one that set
it. -/
theorem runCalls_eq {calls : List ViewCall} (hfits : ∀ c ∈ calls, c.Fits php) (q : ViewQuery) :
    runCalls php q calls = .ok (q.stores (calls.flatMap (ViewCall.pairs php))
      (LastWrite.last (ViewCall.body php) calls)) := by
  induction calls using List.reverseRecOn with
  | nil => rfl
  | append_singleton calls c ih =>
    have hpre := ih fun c hc => hfits c (List.mem_append_left _ hc)
    obtain ⟨thrown, hrun⟩ := ViewCall.run_eq (hfits c (by simp))
      (q.stores (calls.flatMap (ViewCall.pairs php)) (LastWrite.last (ViewCall.body php) calls))
    rw [runCalls, List.foldlM_append, ← runCalls, hpre, C.bind_ok, List.foldlM_cons, hrun]
    simp only [C.bind_ok, C.pure_eq, List.foldlM_nil]
    rw [List.flatMap_append, List.flatMap_singleton, LastWrite.last_append_singleton]
    simp only [ViewQuery.stores, fill_append]
    cases ViewCall.body php c with
    | none => rfl
    | some body => rfl

/-! ## The command -/

/-- What the request says: the design document and the view, the fields that the server reads of the
options, and the body. -/
structure ViewCommand.Says (cmd : ViewCommand) (form : FormPhp) (designDocument viewName : Bytes)
    (options : ViewOptions) (body : Option Bytes) : Prop where
  ddoc : cmd.ddoc = (CString.ofBytes designDocument).bytes
  view : cmd.view = (CString.ofBytes viewName).bytes
  options : FormUrl.parse (cmd.optstr.getD []) = received form options
  body : cmd.postdata = body
  includeDocs : cmd.includeDocs = false

/-- A text that is not empty, under a name. -/
def textPair (key : String) (text : Bytes) : ViewOptions :=
  if text = [] then [] else [optionPair key (.string text)]

theorem encodeView_eq {options : ViewOptions}
    (hlen : (urlEncodeHash php.form options).length < 2 ^ 31) (designDocument viewName : CString) :
    encodeView php designDocument viewName options =
      .ok ([optionPair "ddoc" (.string designDocument.bytes),
        optionPair "view" (.string viewName.bytes)] ++
          textPair "optstr" (urlEncodeHash php.form options)) := by
  rw [encodeView, optstr_of_lt hlen, textPair]
  split <;> rfl

/-- The array of `ViewQuery::encode`. -/
def encodedQuery (designDocument viewName text : Bytes) (body : Option Bytes) : ViewOptions :=
  [optionPair "ddoc" (.string designDocument), optionPair "view" (.string viewName)] ++
    textPair "optstr" text ++ (body.map fun body => optionPair "postdata" (.string body)).toList

/-- What `encode` makes of the encoded options and the body. -/
theorem encode_stores {q : ViewQuery} {body : Option Bytes} {text : Bytes}
    (hkeys : q.keys = body.map withLength)
    (hview : encodeView php q.designDocument q.viewName q.options =
      .ok ([optionPair "ddoc" (.string q.designDocument.bytes),
        optionPair "view" (.string q.viewName.bytes)] ++ textPair "optstr" text)) :
    q.encode php = .ok (encodedQuery q.designDocument.bytes q.viewName.bytes text body) := by
  rw [ViewQuery.encode, hview, hkeys]
  cases body with
  | none => exact congrArg Except.ok (List.append_nil _).symm
  | some body =>
    have hlen : prefixOf body (body.length : Int) = .ok body := prefixOf_length body
    simp only [Option.map_some, withLength, C.bind_ok, hlen]
    unfold encodedQuery textPair
    split <;> rfl

theorem fetchText_some {http : HttpPhp} {elems : ViewOptions} {key : String} {text : Bytes}
    (h : fetch elems (symtableKey (ascii key)) = some (.string text))
    (hlen : text.length < 2 ^ 31) : fetchText http elems key = .ok (some ⟨text, false⟩) := by
  rw [fetchText, phpArrayFetchString]
  simp only [arrval, C.bind_ok, C.pure_eq, h, Option.map_some, phpArrayZvalToString]
  rw [prefixOf_narrowInt hlen]
  rfl

theorem fetchText_none {http : HttpPhp} {elems : ViewOptions} {key : String}
    (h : fetch elems (symtableKey (ascii key)) = none) : fetchText http elems key = .ok none := by
  rw [fetchText, phpArrayFetchString]
  simp only [arrval, C.bind_ok, C.pure_eq, h, Option.map_none]

/-- **The command has the parts of the query.** -/
theorem viewCommand_encodedQuery (http : HttpPhp) {designDocument viewName text : Bytes}
    {body : Option Bytes} (hddoc : designDocument.length < 2 ^ 31)
    (hview : viewName.length < 2 ^ 31) (htext : text.length < 2 ^ 31)
    (hbody : ∀ b, body = some b → b.length < 2 ^ 31) :
    viewCommand http (encodedQuery designDocument viewName text body) =
      .ok (some ⟨false, 0, designDocument, viewName, if text = [] then none else some text,
        body⟩) := by
  have hd : fetchText http (encodedQuery designDocument viewName text body) "ddoc" =
      .ok (some ⟨designDocument, false⟩) := fetchText_some rfl hddoc
  have hv : fetchText http (encodedQuery designDocument viewName text body) "view" =
      .ok (some ⟨viewName, false⟩) := fetchText_some rfl hview
  have ho : fetchText http (encodedQuery designDocument viewName text body) "optstr" =
      .ok (if text = [] then none else some ⟨text, false⟩) := by
    unfold encodedQuery textPair
    split
    · cases body <;> exact fetchText_none rfl
    · exact fetchText_some rfl htext
  have hp : fetchText http (encodedQuery designDocument viewName text body) "postdata" =
      .ok (body.map fun b => ⟨b, false⟩) := by
    unfold encodedQuery textPair
    cases body with
    | none => split <;> exact fetchText_none rfl
    | some b => split <;> exact fetchText_some rfl (hbody b rfl)
  have hdocs : fetch (encodedQuery designDocument viewName text body)
      (symtableKey (ascii "include_docs")) = none := by
    unfold encodedQuery textPair
    cases body <;> split <;> rfl
  rw [viewCommand, hd, hv, ho, hp, hdocs]
  cases body <;> split <;> rfl

/-- The options after all calls. -/
def viewOptions (php : ViewPhp) (calls : List ViewCall) : ViewOptions :=
  fill [] (calls.flatMap (ViewCall.pairs php))

/-- The names, the texts and the form fit an `int`. -/
structure ViewFits (php : ViewPhp) (designDocument viewName : Bytes) (calls : List ViewCall) :
    Prop where
  ddoc : designDocument.length < 2 ^ 31
  view : viewName.length < 2 ^ 31
  each : ∀ c ∈ calls, c.Fits php
  whole : (urlEncodeHash php.form (viewOptions php calls)).length < 2 ^ 31

theorem body_length {calls : List ViewCall} (hfits : ∀ c ∈ calls, c.Fits php) {body : Bytes}
    (h : LastWrite.last (ViewCall.body php) calls = some body) : body.length < 2 ^ 31 := by
  obtain ⟨c, hc, hbody⟩ := LastWrite.exists_of_last_eq_some h
  have hfit := hfits c hc
  cases c with
  | encoding setter =>
    cases setter with
    | keys keys =>
      have hlen := encodingsFit_one.mp hfit.2
      simp only [ViewCall.body] at hbody
      split at hbody
      · cases hbody
      · rw [Option.some.injEq] at hbody
        rwa [← hbody]
    | _ => cases hbody
  | _ => cases hbody

/-- A name up to its first NUL fits, when the name does. -/
theorem ofBytes_length_lt {name : Bytes} (h : name.length < 2 ^ 31) :
    (CString.ofBytes name).bytes.length < 2 ^ 31 :=
  Nat.lt_of_le_of_lt (List.takeWhile_sublist _).length_le h

/-- Two limits, and a key that would be two more options if it were not encoded. -/
def twoLimits : List ViewCall :=
  [.limit 5, .encoding (.key (.string (ascii "a&stale=ok"))), .consistency 7, .limit 6]

def SpatialViewQuery.stores (q : SpatialViewQuery) (pairs : ViewOptions) : SpatialViewQuery :=
  { q with options := fill q.options pairs }

theorem SpatialViewQuery.stores_ok {q : SpatialViewQuery} {options pairs : ViewOptions}
    (h : options = fill q.options pairs) (thrown : Bool) :
    (.ok ({ q with options }, thrown) : C (SpatialViewQuery × Bool)) =
      .ok (q.stores pairs, thrown) := by
  rw [h]
  rfl

theorem setBound_eq {key : String} {range : List (ArrayKey × Zval)}
    (hkey : symtableKey (ascii key) = .str (ascii key))
    (hfits : EncodingsFit php [(key, .array range)]) (q : SpatialViewQuery) :
    q.setBound php key (.array range) =
      .ok (q.stores (encodedPairs php [(key, .array range)]),
        anyThrown (encodings php false [(key, .array range)])) := by
  rw [SpatialViewQuery.setBound, encodeOption_fits hkey hfits]
  rfl

/-- **What a call does** is to store its pairs. -/
theorem SpatialCall.run_eq {implode : List (ArrayKey × Zval) → Bytes} {c : SpatialCall}
    (hfits : c.Fits php) (q : SpatialViewQuery) :
    ∃ thrown, c.run php implode q = .ok (q.stores (c.pairs php implode), thrown) := by
  cases c with
  | limit n => exact ⟨_, SpatialViewQuery.stores_ok (setOption_eq rfl _ _) _⟩
  | skip n => exact ⟨_, SpatialViewQuery.stores_ok (setOption_eq rfl _ _) _⟩
  | consistency level => exact ⟨_, SpatialViewQuery.stores_ok (setNamed_eq rfl _ _ _) _⟩
  | bbox box => exact ⟨_, SpatialViewQuery.stores_ok (setOption_eq rfl _ _) _⟩
  | custom elems => exact ⟨_, SpatialViewQuery.stores_ok (setCustom_eq _ _) _⟩
  | encoding setter =>
    cases setter with
    | startRange range => exact ⟨_, setBound_eq rfl hfits q⟩
    | endRange range => exact ⟨_, setBound_eq rfl hfits q⟩

def runSpatialCalls (php : ViewPhp) (implode : List (ArrayKey × Zval) → Bytes)
    (q : SpatialViewQuery) (calls : List SpatialCall) : C SpatialViewQuery :=
  calls.foldlM (fun q c => do return (← c.run php implode q).1) q

theorem runSpatialCalls_eq {implode : List (ArrayKey × Zval) → Bytes} {calls : List SpatialCall}
    (hfits : ∀ c ∈ calls, c.Fits php) (q : SpatialViewQuery) :
    runSpatialCalls php implode q calls =
      .ok (q.stores (calls.flatMap (SpatialCall.pairs php implode))) := by
  induction calls generalizing q with
  | nil => rfl
  | cons c calls ih =>
    obtain ⟨thrown, hrun⟩ : ∃ thrown, c.run php implode q = .ok (q.stores _, thrown) :=
      SpatialCall.run_eq (hfits c List.mem_cons_self) q
    rw [runSpatialCalls, List.foldlM_cons, hrun]
    simp only [C.bind_ok, C.pure_eq]
    refine (ih (fun c hc => hfits c (List.mem_cons_of_mem _ hc)) _).trans ?_
    rw [List.flatMap_cons]
    simp only [SpatialViewQuery.stores, fill_append]

def spatialOptions (php : ViewPhp) (implode : List (ArrayKey × Zval) → Bytes)
    (calls : List SpatialCall) : ViewOptions :=
  fill [] (calls.flatMap (SpatialCall.pairs php implode))

structure SpatialFits (php : ViewPhp) (implode : List (ArrayKey × Zval) → Bytes)
    (designDocument viewName : Bytes) (calls : List SpatialCall) : Prop where
  ddoc : designDocument.length < 2 ^ 31
  view : viewName.length < 2 ^ 31
  each : ∀ c ∈ calls, c.Fits php
  whole : (urlEncodeHash php.form (spatialOptions php implode calls)).length < 2 ^ 31

/-- **The meaning of a spatial view query**, which has no body. -/
theorem spatial_request_meaning (php : ViewPhp) (http : HttpPhp)
    {implode : List (ArrayKey × Zval) → Bytes} {designDocument viewName : Bytes}
    {calls : List SpatialCall} (hfits : SpatialFits php implode designDocument viewName calls) :
    ∃ q elems cmd,
      (SpatialViewQuery.init designDocument viewName >>= fun q =>
        runSpatialCalls php implode q calls) = .ok q ∧
      q.encode php = .ok elems ∧ viewCommand http elems = .ok (some cmd) ∧
      cmd.Says php.form designDocument viewName (spatialOptions php implode calls) none := by
  have hinit : SpatialViewQuery.init designDocument viewName =
      .ok ⟨.ofBytes designDocument, .ofBytes viewName, []⟩ := by
    rw [SpatialViewQuery.init, prefixOf_narrowInt hfits.ddoc, prefixOf_narrowInt hfits.view]
    rfl
  rw [hinit]
  refine ⟨_, encodedQuery (CString.ofBytes designDocument).bytes (CString.ofBytes viewName).bytes
    (urlEncodeHash php.form (spatialOptions php implode calls)) none, _,
    runSpatialCalls_eq hfits.each _, ?_, viewCommand_encodedQuery http
    (ofBytes_length_lt hfits.ddoc) (ofBytes_length_lt hfits.view) hfits.whole
    (fun b hb => by cases hb), rfl, rfl, ?_, rfl, rfl⟩
  · have hview := encodeView_eq hfits.whole (CString.ofBytes designDocument)
      (CString.ofBytes viewName)
    refine hview.trans ?_
    exact congrArg Except.ok (List.append_nil _).symm
  · rw [← urlEncodeHash_received php.form php.form_lawful]
    split
    · rename_i hnil
      rw [hnil]
      rfl
    · rfl

/-- A range from a point. -/
def fromPoint : List SpatialCall :=
  [.skip 1, .bbox [(.index 0, .long 1)], .encoding (.startRange [(.index 0, .long 1)])]

theorem from_point_request :
    (∃ q elems cmd,
      (SpatialViewQuery.init (ascii "d") (ascii "v") >>= fun q =>
        runSpatialCalls asciiPhp (fun _ => ascii "1,2") q fromPoint) = .ok q ∧
      q.encode asciiPhp = .ok elems ∧ viewCommand ⟨fun _ => none, fun _ => none, fun _ => []⟩
        elems = .ok (some cmd) ∧
      cmd.Says plainForm (ascii "d") (ascii "v")
        (spatialOptions asciiPhp (fun _ => ascii "1,2") fromPoint) none) ∧
    received plainForm (spatialOptions asciiPhp (fun _ => ascii "1,2") fromPoint) =
      [(ascii "skip", ascii "1"), (ascii "bbox", ascii "1,2"),
        (ascii "start_range", ascii "null")] := by
  refine ⟨spatial_request_meaning asciiPhp _ ⟨by decide, by decide, ?_, by decide⟩,
    by decide⟩
  intro c hc
  simp only [fromPoint, List.mem_cons, List.not_mem_nil, or_false] at hc
  rcases hc with rfl | rfl | rfl
  · trivial
  · trivial
  · intro p hp
    rw [List.mem_singleton.mp hp]
    decide

end PhpCouchbase
