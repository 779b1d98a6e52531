import PhpCouchbase.LongText
import PhpCouchbase.Opcookie
import PhpCouchbase.Lib.OrderedMap

/-!
# Design documents

`BucketManager::insertDesignDocument` (`bucket_manager.c`) asks the server for the document first
and puts the new one when the answer has a member `error`.  The answer is whatever its body decodes
to: neither the status nor the type of the value is looked at.

* `insert_cases` — everything that the method can do, by the value of the first request.
* `insert_never_overwrites_iff` — a document is never overwritten exactly when the first request
  answered that there is none, or its body is an array without a member `error`.
* `document_with_error_overwritten` — a document with a member `error` is overwritten.
-/

set_option autoImplicit false

namespace PhpCouchbase

open OrderedMap

/-! ## HTTP requests -/

/-- What the requests call of PHP itself. -/
structure HttpPhp where
  /-- `PCBC_JSON_COPY_DECODE` with `PHP_JSON_OBJECT_AS_ARRAY`; `none` when it sets an error code -/
  jsonDecode : Bytes → Option Zval
  /-- `PCBC_JSON_ENCODE`: the buffer, which is not there while nothing is written to it; `none` when
  it sets an error code -/
  jsonEncode : Zval → Option Bytes
  /-- `convert_to_string` of a value that is neither null nor a string -/
  convertToString : Zval → Bytes

inductive HttpMethod where
  | get
  | put
  deriving DecidableEq, Repr

/-- `lcb_CMDHTTP` for the views. -/
structure HttpCommand where
  method : HttpMethod
  path : Bytes
  contentType : Bytes
  body : Option Bytes
  deriving DecidableEq, Repr

/-- `lcb_RESPHTTP`; nothing reads the status. -/
structure HttpResponse where
  rc : LcbError
  htstatus : Nat
  body : Bytes
  deriving DecidableEq, Repr

/-- `opcookie_http_res` -/
structure HttpRes where
  err : LcbError
  bytes : Zval

/-- What comes of a request: `lcb_http3` refuses it, or it is answered once. -/
inductive Exchange where
  | refused (err : LcbError)
  | answered (resp : HttpResponse)

variable (php : HttpPhp)

/-- `http_callback` -/
def httpCallback (jsonResponse : Bool) (resp : HttpResponse) : HttpRes where
  err := resp.rc
  bytes :=
    if resp.body ≠ [] then
      if jsonResponse then (php.jsonDecode resp.body).getD .null else .string resp.body
    else .null

/-- `proc_http_results`; without a result the return value stays as it is. -/
def procHttpResults (returnValue : C Zval) (cookie : Opcookie HttpRes) : C Zval × LcbError :=
  if cookie.firstError = .success then
    match cookie.results with
    | [] => (returnValue, .success)
    | [res] => (.ok res.bytes, .success)
    | res :: _ => (.ok res.bytes, .error)
  else (returnValue, cookie.firstError)

/-- `pcbc_http_request`: the return value and the error that is thrown, which does not end the
caller. -/
def httpRequest (returnValue : C Zval) (jsonResponse : Bool) : Exchange → C Zval × Option LcbError
  | .refused err => (returnValue, some err)
  | .answered resp =>
    let (value, err) := procHttpResults returnValue
      (Opcookie.collect HttpRes.err [httpCallback php jsonResponse resp])
    (value, if err = .success then none else some err)

theorem httpRequest_answered (returnValue : C Zval) (jsonResponse : Bool) (resp : HttpResponse) :
    httpRequest php returnValue jsonResponse (.answered resp) =
      if resp.rc = .success then (.ok (httpCallback php jsonResponse resp).bytes, none)
      else (returnValue, some resp.rc) := by
  have herr : (httpCallback php jsonResponse resp).err = resp.rc := rfl
  by_cases h : resp.rc = .success
  · simp [httpRequest, procHttpResults, Opcookie.collect, Opcookie.push, Opcookie.init, herr, h]
  · simp [httpRequest, procHttpResults, Opcookie.collect, Opcookie.push, Opcookie.init, herr, h]

/-! ## Arrays -/

/-- The hash table of `Z_ARRVAL_P`: only an array has one. -/
def arrval (value : C Zval) : C (List (ArrayKey × Zval)) := do
  match ← value with
  | .array elems => return elems
  | _ => .error .wrongType

/-- `php_array_exists` -/
def phpArrayExists (value : C Zval) (key : Bytes) : C Bool := do
  return (fetch (← arrval value) (symtableKey key)).isSome

/-- What `php_array_fetch_string` hands out: a text, and whether the caller has to free it. -/
structure FetchedString where
  text : Bytes
  owned : Bool

/-- `php_array_zval_to_string`: null and a string are handed out as they are, the others are copied.
-/
def phpArrayZvalToString : Zval → FetchedString
  | .null => ⟨[], false⟩
  | .string s => ⟨s, false⟩
  | z => ⟨php.convertToString z, true⟩

/-- `php_array_fetch_string` -/
def phpArrayFetchString (value : C Zval) (key : Bytes) : C (Option FetchedString) := do
  return (fetch (← arrval value) (symtableKey key)).map (phpArrayZvalToString php)

/-- The caller frees a text of its own.  The pointer that it has is `Z_STRVAL` of the copy, inside
the string that was allocated. -/
def FetchedString.release (s : FetchedString) : C Unit := if s.owned then .error .badFree else .ok ()

/-- A text that was found is freed if it is the caller's. -/
def releaseFound : Option FetchedString → C Unit
  | none => .ok ()
  | some text => text.release

/-- A value that is handed out as it is. -/
def Zval.IsText : Zval → Prop
  | .null => True
  | .string _ => True
  | _ => False

theorem release_defined (z : Zval) : C.Defined (phpArrayZvalToString php z).release ↔ z.IsText := by
  cases z with
  | null => exact iff_of_true (C.defined_ok ()) trivial
  | string s => exact iff_of_true (C.defined_ok ()) trivial
  | _ => exact iff_of_false (C.not_defined_error .badFree) id

/-! ## The method -/

/-- The exceptions of the method. -/
inductive Thrown where
  | lcb (code : LcbError)
  | pcbc (message : Bytes) (code : LcbError)

/-- `"/_design/%*s"`: the length of the name is the width of the field, an `int`, and the name ends
at its first NUL. -/
def designPath (name : Bytes) : Bytes :=
  let text := (CString.ofBytes name).bytes
  let width := narrowInt name.length
  let padding := List.replicate (width.natAbs - text.length) 32
  ascii "/_design/" ++ if width < 0 then text ++ padding else padding ++ text

/-- The server of the views: its design documents by path, which a GET does not change. -/
structure ViewServer (σ : Type) where
  handle : σ → HttpCommand → σ × Exchange
  stored : σ → Bytes → Option Bytes
  get_keeps : ∀ s cmd, cmd.method = .get → stored (handle s cmd).1 = stored s

/-- A call of the method: the commands that it sent, the server after it, the exception that it
threw and the value that it returned. -/
structure Insertion (σ : Type) where
  sent : List HttpCommand
  server : σ
  thrown : Option Thrown
  returned : C Zval

variable {σ : Type} (server : ViewServer σ)

def designGet (name : Bytes) : HttpCommand where
  method := .get
  path := designPath name
  contentType := ascii "application/x-www-form-urlencoded"
  body := none

def designPut (name body : Bytes) : HttpCommand where
  method := .put
  path := designPath name
  contentType := ascii "application/json"
  body := some body

/-- `BucketManager::insertDesignDocument` -/
def insertDesignDocument (s : σ) (name : Bytes) (document : Zval) : Insertion σ :=
  let get := designGet name
  let (s₁, answer) := server.handle s get
  let (value, err) := httpRequest php (.ok .null) true answer
  let thrown := err.map Thrown.lcb
  match phpArrayExists value (ascii "error") with
  | .error e => ⟨[get], s₁, thrown, .error e⟩
  | .ok false =>
    ⟨[get], s₁, some (.pcbc (ascii "Design document already exists") .keyEexists), .ok .null⟩
  | .ok true =>
    match php.jsonEncode document with
    | none => ⟨[get], s₁, thrown, .ok .null⟩
    -- `PCBC_SMARTSTR_SET` reads the string of the buffer
    | some [] => ⟨[get], s₁, thrown, .error .nullPointer⟩
    | some body =>
      let put := designPut name body
      let (s₂, answer) := server.handle s₁ put
      -- the return value was destroyed, and is not null
      let (value, err) := httpRequest php (.error .freed) true answer
      let thrown := (err.map Thrown.lcb).or thrown
      match phpArrayFetchString php value (ascii "error") with
      | .error e => ⟨[get, put], s₂, thrown, .error e⟩
      | .ok none => ⟨[get, put], s₂, thrown, value⟩
      | .ok (some error) =>
        ⟨[get, put], s₂, some (.pcbc error.text .error), error.release >>= fun _ => .ok .null⟩

/-! ## What it can do -/

/-- The value of the first request, and the error that it threw. -/
def firstAnswer (s : σ) (name : Bytes) : C Zval × Option LcbError :=
  httpRequest php (.ok .null) true (server.handle s (designGet name)).2

/-- Everything that a call can do, by what the lookup of `error` finds. -/
inductive Inserted (s : σ) (name : Bytes) (document : Zval) : C Bool → Insertion σ → Prop where
  /-- the value is no array -/
  | fault (e : Fault) (thrown : Option Thrown) :
      Inserted s name document (.error e)
        ⟨[designGet name], (server.handle s (designGet name)).1, thrown, .error e⟩
  | refused (e : Thrown) :
      Inserted s name document (.ok false)
        ⟨[designGet name], (server.handle s (designGet name)).1, some e, .ok .null⟩
  /-- the new document is not JSON: nothing is put, and nothing thrown -/
  | unencodable (h : php.jsonEncode document = none) :
      Inserted s name document (.ok true)
        ⟨[designGet name], (server.handle s (designGet name)).1,
          (firstAnswer php server s name).2.map Thrown.lcb, .ok .null⟩
  /-- the new document has no text -/
  | textless (h : php.jsonEncode document = some []) (thrown : Option Thrown) :
      Inserted s name document (.ok true)
        ⟨[designGet name], (server.handle s (designGet name)).1, thrown, .error .nullPointer⟩
  | put {body : Bytes} (h : php.jsonEncode document = some body) {run : Insertion σ}
      (hsent : run.sent = [designGet name, designPut name body]) :
      Inserted s name document (.ok true) run

theorem insert_cases (s : σ) (name : Bytes) (document : Zval) :
    Inserted php server s name document
      (phpArrayExists (firstAnswer php server s name).1 (ascii "error"))
      (insertDesignDocument php server s name document) := by
  unfold insertDesignDocument
  dsimp only
  change Inserted php server s name document _
    (match phpArrayExists (firstAnswer php server s name).1 (ascii "error") with
      | .error e => _
      | .ok false => _
      | .ok true => _)
  cases phpArrayExists (firstAnswer php server s name).1 (ascii "error") with
  | error e => exact .fault e _
  | ok found =>
    cases found with
    | false => exact .refused _
    | true =>
      dsimp only
      cases hbody : php.jsonEncode document with
      | none => exact .unencodable hbody
      | some body =>
        cases body with
        | nil => exact .textless hbody _
        | cons c body =>
          apply Inserted.put hbody
          dsimp only
          split <;> rfl

/-! ## When nothing is overwritten -/

/-- The request established that there is no document: it was answered with the status 404. -/
def Exchange.NotFound : Exchange → Prop
  | .refused _ => False
  | .answered resp => resp.rc = .success ∧ resp.htstatus = 404

/-- The body of the answer is an array without a member `error`. -/
def Exchange.PlainDocument : Exchange → Prop
  | .refused _ => False
  | .answered resp => resp.rc = .success ∧ resp.body ≠ [] ∧
      ∃ elems, php.jsonDecode resp.body = some (.array elems) ∧
        fetch elems (symtableKey (ascii "error")) = none

/-- **Nothing is overwritten**: a PUT is sent only when the first request established that there is
no document; else the call throws, and what is stored stays as it is. -/
structure NeverOverwrites (s : σ) (name : Bytes) (run : Insertion σ) : Prop where
  put_only : ∀ cmd ∈ run.sent, cmd.method = .put →
    (server.handle s (designGet name)).2.NotFound
  otherwise : ¬ (server.handle s (designGet name)).2.NotFound →
    run.thrown.isSome ∧ (∃ v, run.returned = .ok v) ∧
      server.stored run.server = server.stored s

/-- The value of an answer. -/
theorem firstAnswer_eq {s : σ} {name : Bytes} {resp : HttpResponse}
    (h : (server.handle s (designGet name)).2 = .answered resp) (hrc : resp.rc = .success) :
    firstAnswer php server s name = (.ok (httpCallback php true resp).bytes, none) := by
  rw [firstAnswer, h, httpRequest_answered, if_pos hrc]

/-- The lookup does not find `error` exactly in an array without such a member. -/
theorem exists_error_iff (s : σ) (name : Bytes) :
    phpArrayExists (firstAnswer php server s name).1 (ascii "error") = .ok false ↔
      (server.handle s (designGet name)).2.PlainDocument php := by
  cases hget : (server.handle s (designGet name)).2 with
  | refused err =>
    constructor
    · intro h
      rw [firstAnswer, hget] at h
      cases h
    · intro h
      cases h
  | answered resp =>
    by_cases hrc : resp.rc = .success
    · rw [firstAnswer_eq php server hget hrc]
      by_cases hbody : resp.body = []
      · simp [Exchange.PlainDocument, httpCallback, hbody, phpArrayExists, arrval]
      · cases hdec : php.jsonDecode resp.body with
        | none =>
          simp [Exchange.PlainDocument, httpCallback, hbody, hdec, phpArrayExists, arrval]
        | some v =>
          cases v <;>
            simp [Exchange.PlainDocument, httpCallback, hbody, hdec, phpArrayExists, arrval, hrc]
    · rw [firstAnswer, hget, httpRequest_answered, if_neg hrc]
      simp [Exchange.PlainDocument, hrc, phpArrayExists, arrval]

/-- When the lookup finds `error`, no exception is pending. -/
theorem not_thrown_of_exists {s : σ} {name : Bytes}
    (h : phpArrayExists (firstAnswer php server s name).1 (ascii "error") = .ok true) :
    (firstAnswer php server s name).2 = none := by
  cases hget : (server.handle s (designGet name)).2 with
  | refused err =>
    rw [firstAnswer, hget] at h
    cases h
  | answered resp =>
    by_cases hrc : resp.rc = .success
    · rw [firstAnswer_eq php server hget hrc]
    · rw [firstAnswer, hget, httpRequest_answered, if_neg hrc] at h
      cases h

/-- **Insertion.**  For every server, state, name and document, nothing is overwritten exactly when
the first request established that there is no document, or its body is an array without a member
`error`. -/
theorem insert_never_overwrites_iff (s : σ) (name : Bytes) (document : Zval) :
    NeverOverwrites server s name (insertDesignDocument php server s name document) ↔
      (server.handle s (designGet name)).2.NotFound ∨
        (server.handle s (designGet name)).2.PlainDocument php := by
  have hkeeps := server.get_keeps s (designGet name) rfl
  have hrun := insert_cases php server s name document
  rw [← exists_error_iff]
  have hthrown : phpArrayExists (firstAnswer php server s name).1 (ascii "error") = .ok true →
      (firstAnswer php server s name).2 = none := not_thrown_of_exists php server
  generalize phpArrayExists (firstAnswer php server s name).1 (ascii "error") = found
    at hrun hthrown ⊢
  generalize insertDesignDocument php server s name document = run at hrun ⊢
  constructor
  · intro h
    by_contra hnot
    obtain ⟨hnotFound, hfound⟩ := not_or.mp hnot
    obtain ⟨hsome, ⟨v, hv⟩, -⟩ := h.otherwise hnotFound
    cases hrun with
    | fault e thrown => cases hv
    | refused e => exact hfound rfl
    | unencodable henc =>
      rw [hthrown rfl] at hsome
      cases hsome
    | textless => cases hv
    | @put body henc _ hsent =>
      have hmem : designPut name body ∈ run.sent := by simp [hsent]
      exact hnotFound (h.put_only _ hmem rfl)
  · rintro (hnotFound | rfl)
    · exact ⟨fun _ _ _ => hnotFound, fun habs => absurd hnotFound habs⟩
    · cases hrun with
      | refused e =>
        refine ⟨?_, fun _ => ⟨rfl, ⟨_, rfl⟩, hkeeps⟩⟩
        intro cmd hcmd hput
        rw [List.mem_singleton.mp hcmd] at hput
        cases hput

/-! ## A document with a member `error` -/

/-- The body of a design document with a member `error`. -/
def errorDocument : Bytes := ascii "\x7b\"error\":1\x7d"

/-- A server with one design document, which a PUT replaces by its body. -/
def oneDocumentServer : ViewServer Bytes where
  handle doc cmd :=
    match cmd.method with
    | .get => (doc, .answered ⟨.success, 200, doc⟩)
    | .put => (cmd.body.getD [], .answered ⟨.success, 201, ascii "\x7b\x7d"⟩)
  stored doc _ := some doc
  get_keeps doc cmd h := by
    rw [h]

/-- JSON of the one document, and of the empty array. -/
def errorPhp : HttpPhp where
  jsonDecode text :=
    if text = errorDocument then some (.array [(.str (ascii "error"), .long 1)])
    else if text = ascii "\x7b\x7d" then some (.array [])
    else none
  jsonEncode _ := some (ascii "[]")
  convertToString _ := ascii "1"

/-- **A document with a member `error` is overwritten.** -/
theorem document_with_error_overwritten :
    (insertDesignDocument errorPhp oneDocumentServer errorDocument (ascii "beers")
        (.array [])).server = ascii "[]" ∧
      ¬ NeverOverwrites oneDocumentServer errorDocument (ascii "beers")
        (insertDesignDocument errorPhp oneDocumentServer errorDocument (ascii "beers")
          (.array [])) := by
  refine ⟨rfl, ?_⟩
  intro h
  have hnot : ¬ (oneDocumentServer.handle errorDocument (designGet (ascii "beers"))).2.NotFound :=
    fun habs => absurd habs.2 (by decide)
  exact absurd (h.otherwise hnot).1 (by decide)

end PhpCouchbase
