import PhpCouchbase.CompressionDecision
import PhpCouchbase.DesignDocument
import PhpCouchbase.Paramparser

/-!
# Rows of a query

`Bucket::query` hands a request to libcouchbase and waits while a callback (`bucket/n1ql.c`,
`cbft.c` or `view.c`) takes in one row after the other.  The rows and the first error go to the
cookie of the call, and so does the exception that a callback makes of the body of an error.  When
all rows are there, a loop over the cookie puts the result together: the final row has the metadata,
the others are the rows of the result.

* `n1qlrowCallback`, `ftsrowCallback`, `viewrowCallback` — one response.
* `addN1qlRow`, `addFtsRow`, `addViewRow` — the body of the loop of `proc_*_results`.
* `queryRequest` — a call, from the request to the result or the exception.
-/

set_option autoImplicit false

namespace PhpCouchbase

open OrderedMap

/-! ## Responses -/

/-- The codes that the callbacks look at, by their numbers in the PHP constants. -/
def LcbError.networkError : LcbError := .other 16
def LcbError.esockshutdown : LcbError := .other 45
def LcbError.httpError : LcbError := .other 59

/-- `lcb_RESPN1QL` and `lcb_RESPFTS`: `final` is the flag `LCB_RESP_F_FINAL`, and the HTTP response
may not be attached. -/
structure RowResponse where
  rc : LcbError
  final : Bool
  row : Bytes
  htresp : Option HttpResponse

/-- `lcb_RESPVIEWQUERY` -/
structure ViewResponse where
  rc : LcbError
  final : Bool
  docid : Bytes
  key : Bytes
  value : Bytes
  htresp : Option HttpResponse

/-- What the callbacks call of PHP itself: `jsonDecode` makes arrays of objects, `jsonDecodeObjects`
leaves them. -/
structure QueryPhp extends HttpPhp, Conversions where
  jsonDecodeObjects : Bytes → Option Zval

/-- `PCBC_JSON_COPY_DECODE` with or without `PHP_JSON_OBJECT_AS_ARRAY`. -/
def QueryPhp.decode (php : QueryPhp) (objectAsArray : Bool) (text : Bytes) : Option Zval :=
  if objectAsArray then php.jsonDecode text else php.jsonDecodeObjects text

/-- The options of a cookie: `json_response`, and `PHP_JSON_OBJECT_AS_ARRAY` in `json_options`. -/
structure CookieOptions where
  jsonResponse : Bool
  jsonAssoc : Bool

/-- The exceptions of a query. -/
inductive QueryThrown where
  /-- `throw_lcb_exception` -/
  | lcb (code : LcbError)
  /-- `pcbc_exception_init` with the code of the response -/
  | pcbc (message : Bytes) (code : LcbError)
  /-- `pcbc_exception_init` with a code from the body -/
  | coded (message : Bytes) (code : Int64)

/-- `"%*s"` with the length of a text: the length is the width of the field, an `int`, and the text
ends at its first NUL. -/
def printStar (text : Bytes) : Bytes :=
  let shown := (CString.ofBytes text).bytes
  let width := narrowInt text.length
  let padding := List.replicate (width.natAbs - shown.length) 32
  if width < 0 then shown ++ padding else padding ++ shown

/-- `htresp->htstatus` -/
def htstatus : Option HttpResponse → C Nat
  | none => .error .nullPointer
  | some http => .ok http.htstatus

variable (php : QueryPhp)

/-- `php_array_fetch_long` -/
def phpArrayFetchLong (value : C Zval) (key : Bytes) : C Int64 := do
  match phpArrayFetch (← arrval value) key with
  | none => return 0
  | some z => return php.toLong z

/-- `php_array_fetch_double` -/
def phpArrayFetchDouble (value : C Zval) (key : Bytes) : C UInt64 := do
  match phpArrayFetch (← arrval value) key with
  | none => return 0
  | some z => return php.toDouble z

/-! ## Callbacks -/

/-- The text of a row is decoded; the metadata of the final row is made of arrays.  What is no JSON
is taken as a string. -/
def decodeRow (options : CookieOptions) (final : Bool) (text : Bytes) : Zval :=
  if options.jsonResponse then (php.decode (options.jsonAssoc || final) text).getD (.string text)
  else .string text

/-- `opcookie_n1qlrow_res` and `opcookie_ftsrow_res` -/
structure RowRes where
  err : LcbError
  final : Bool
  row : Zval

/-- The exception with the code and the message of an error. -/
def codedException (service : Bytes) (code : Int64) (msg : Bytes) (htresp : Option HttpResponse) :
    C (Option QueryThrown) :=
  if code = 0 then .ok none
  else (htstatus htresp).map fun status =>
    some (.coded (ascii "Failed to perform " ++ service ++ ascii " query. HTTP " ++
      printLong (Int64.ofNat status) ++ ascii ": code: " ++ printLong code.toInt32.toInt64 ++
      ascii ", message: \"" ++ printStar msg ++ ascii "\"") code)

/-- The exception for the first of the errors in a body. -/
def reportErrors (service : Bytes) (errors : Zval) (htresp : Option HttpResponse) :
    C (Option QueryThrown) := do
  match phpArrayFetch (← arrval (.ok errors)) (ascii "0") with
  | none => return none
  | some err =>
    let code ← phpArrayFetchLong php (.ok err) (ascii "code")
    match ← phpArrayFetchString php.toHttpPhp (.ok err) (ascii "msg") with
    | none => return none
    | some msg =>
      let exc ← codedException service code msg.text htresp
      msg.release
      return exc

/-- The member `errors` of a row that is an array. -/
def rowErrors : Zval → Option Zval
  | .array elems => phpArrayFetch elems (ascii "errors")
  | _ => none

/-- The exception for the errors of a row, if it has some. -/
def rowException (service : Bytes) (row : Zval) (htresp : Option HttpResponse) :
    C (Option QueryThrown) :=
  match rowErrors row with
  | some errors => reportErrors php service errors htresp
  | none => .ok none

/-- The error of a response: a socket that the analytics service closes counts as a success. -/
def n1qlErr (isCbas : Bool) (rc : LcbError) : LcbError :=
  if isCbas ∧ (rc = .esockshutdown ∨ rc = .networkError) then .success else rc

/-- The exception of a N1QL row that is an error; one that is not reported is logged with the
status. -/
def n1qlException (row : Zval) (htresp : Option HttpResponse) : C (Option QueryThrown) := do
  match ← rowException php (ascii "N1QL") row htresp with
  | some exc => return some exc
  | none =>
    let _ ← htstatus htresp
    return none

/-- `n1qlrow_callback` -/
def n1qlrowCallback (isCbas : Bool) (options : CookieOptions) (resp : RowResponse) :
    C (RowRes × Option QueryThrown) :=
  let res : RowRes :=
    ⟨n1qlErr isCbas resp.rc, resp.final, decodeRow php options resp.final resp.row⟩
  if res.err = .success then .ok (res, none)
  else (n1qlException php res.row resp.htresp).map fun exc => (res, exc)

/-- The exception of a search row that is an error; one without errors is logged with the status. -/
def ftsException (row : Zval) (htresp : Option HttpResponse) : C (Option QueryThrown) :=
  match rowErrors row with
  | some errors => reportErrors php (ascii "FTS") errors htresp
  | none => do
    let _ ← htstatus htresp
    return none

/-- An HTTP error is logged with the status. -/
def logHttpError (rc : LcbError) (htresp : Option HttpResponse) : C Nat :=
  if rc = .httpError then htstatus htresp else .ok 0

/-- `ftsrow_callback` -/
def ftsrowCallback (options : CookieOptions) (resp : RowResponse) :
    C (RowRes × Option QueryThrown) := do
  let _ ← logHttpError resp.rc resp.htresp
  let res : RowRes := ⟨resp.rc, resp.final, decodeRow php options resp.final resp.row⟩
  if res.err = .success then .ok (res, none)
  else (ftsException php res.row resp.htresp).map fun exc => (res, exc)

/-- `opcookie_viewrow_res` -/
structure ViewRowRes where
  err : LcbError
  final : Bool
  id : Zval
  key : Zval
  value : Zval

/-- The row of a response that is a success.  The key of the final row is left out. -/
def viewRow (options : CookieOptions) (resp : ViewResponse) : ViewRowRes where
  err := resp.rc
  final := resp.final
  id := .string resp.docid
  key :=
    if options.jsonResponse then
      if resp.key ≠ [] ∧ resp.final = false then decodeRow php options false resp.key else .null
    else .string resp.key
  value :=
    if options.jsonResponse then
      if resp.value ≠ [] then decodeRow php options resp.final resp.value else .null
    else .string resp.value

/-- The exception with the error and the reason of a view. -/
def viewReport (rc : LcbError) : Option FetchedString → Option FetchedString → Option QueryThrown
  | some error, some reason =>
    some (.pcbc (ascii "Failed to perform VIEW query. error: " ++ printStar error.text ++
      ascii ": reason: \"" ++ printStar reason.text ++ ascii "\"") rc)
  | _, _ => none

/-- The exception for the body of an error, which is read with a length that is an `int`. -/
def reportView (rc : LcbError) (body : Bytes) : C (Option QueryThrown) := do
  match php.jsonDecode (← prefixOf body (narrowInt body.length)) with
  | none => return none
  | some errval =>
    let error ← phpArrayFetchString php.toHttpPhp (.ok errval) (ascii "error")
    let reason ← phpArrayFetchString php.toHttpPhp (.ok errval) (ascii "reason")
    let exc := viewReport rc error reason
    releaseFound error
    releaseFound reason
    return exc

/-- The exception of a view row that is an error; one without a body has none. -/
def viewException (rc : LcbError) : Option HttpResponse → C (Option QueryThrown)
  | none => .error .nullPointer
  | some http => if http.body ≠ [] then reportView php rc http.body else .ok none

/-- `viewrow_callback` -/
def viewrowCallback (options : CookieOptions) (resp : ViewResponse) :
    C (ViewRowRes × Option QueryThrown) :=
  if resp.rc = .success then .ok (viewRow php options resp, none)
  else (viewException php resp.rc resp.htresp).map fun exc =>
    (⟨resp.rc, resp.final, .null, .null, .null⟩, exc)

/-! ## Results -/

/-- The object that a query returns: the elements of `rows` (of `hits`, for a search) in order, and
the properties beside it. -/
structure QueryResult where
  rows : List Zval
  props : List (Bytes × Zval)

def QueryResult.empty : QueryResult := ⟨[], []⟩

/-- `add_next_index_zval` -/
def QueryResult.addRow (result : QueryResult) (row : Zval) : QueryResult :=
  { result with rows := result.rows ++ [row] }

/-- `add_property_zval` with a member of the final row, if it is there. -/
def addMember (row : Zval) (result : QueryResult) (names : String × String) : C QueryResult := do
  match phpArrayFetch (← arrval (.ok row)) (ascii names.1) with
  | none => return result
  | some val => return { result with props := update result.props (ascii names.2) val }

/-- The loop of `proc_n1qlrow_results` -/
def addN1qlRow (result : QueryResult) (res : RowRes) : C QueryResult :=
  if res.final then
    [("requestID", "requestId"), ("status", "status"), ("signature", "signature"),
      ("metrics", "metrics")].foldlM (addMember res.row) result
  else .ok (result.addRow res.row)

/-- The loop of `proc_ftsrow_results` -/
def addFtsRow (result : QueryResult) (res : RowRes) : C QueryResult :=
  if res.final then do
    let result ← [("status", "status"), ("facets", "facets")].foldlM (addMember res.row) result
    let totalHits ← phpArrayFetchLong php (.ok res.row) (ascii "total_hits")
    let maxScore ← phpArrayFetchDouble php (.ok res.row) (ascii "max_score")
    let took ← phpArrayFetchLong php (.ok res.row) (ascii "took")
    let metrics := .array [(.str (ascii "total_hits"), .long totalHits),
      (.str (ascii "max_score"), .double maxScore), (.str (ascii "took"), .long took)]
    return { result with props := update result.props (ascii "metrics") metrics }
  else .ok (result.addRow res.row)

/-- The row of a view in the result. -/
def viewRowObject (id key value : Zval) : Zval :=
  .object (ascii "stdClass") [(ascii "id", id), (ascii "key", key), (ascii "value", value)]

/-- The loop of `proc_viewrow_results`, the only one that looks at the type of the final row. -/
def addViewRow (result : QueryResult) (res : ViewRowRes) : C QueryResult :=
  if res.final then
    match res.value with
    | .array elems => addMember (.array elems) result ("total_rows", "total_rows")
    | _ => .ok result
  else .ok (result.addRow (viewRowObject res.id res.key res.value))

/-! ## Calls -/

/-- A service: its callback, and the loop over its results. -/
structure RowService (σ ρ : Type) where
  err : ρ → LcbError
  callback : σ → C (ρ × Option QueryThrown)
  add : QueryResult → ρ → C QueryResult

/-- A cookie with the exception of the callbacks. -/
structure RowCookie (ρ : Type) where
  cookie : Opcookie ρ
  exc : Option QueryThrown

/-- What libcouchbase does with a request: the code of the call that sends it, and the responses
that come while the caller waits. -/
structure RowExchange (σ : Type) where
  started : LcbError
  rows : List σ

/-- How a call ends. -/
inductive QueryOutcome where
  | returned (result : QueryResult)
  | thrown (exc : QueryThrown)

section Calls

variable {σ ρ : Type} (s : RowService σ ρ)

/-- A response is taken in: the callback, then `opcookie_push`. -/
def RowService.deliver (c : RowCookie ρ) (resp : σ) : C (RowCookie ρ) := do
  let (res, exc) ← s.callback resp
  return ⟨c.cookie.push s.err res, exc.or c.exc⟩

/-- The exception of a call that failed. -/
def throwFirst (err : LcbError) (exc : Option QueryThrown) : QueryOutcome :=
  .thrown (exc.getD (.lcb err))

/-- `pcbc_bucket_n1ql_request`, `pcbc_bucket_cbft_request` and `pcbc_bucket_view_request` -/
def queryRequest (x : RowExchange σ) : C QueryOutcome :=
  if x.started ≠ .success then .ok (throwFirst x.started none)
  else do
    let c ← x.rows.foldlM s.deliver ⟨Opcookie.init, none⟩
    if c.cookie.firstError = .success then
      let result ← c.cookie.results.foldlM s.add QueryResult.empty
      return .returned result
    else return throwFirst c.cookie.firstError c.exc

end Calls

end PhpCouchbase
