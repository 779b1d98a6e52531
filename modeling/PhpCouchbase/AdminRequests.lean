import PhpCouchbase.QueryRows

/-!
# Requests of the managers

`ClusterManager` and `BucketManager` (`cluster_manager.c`, `bucket_manager.c`) send a request
(`bucket/http.c`) and then look at its result: a string for the users, an array for the design
documents.  The result is null when the request failed, when its body
is empty, or when the body is no JSON.

* `userResult_safe_iff` — the users' methods, by the answer.
* `insert_defined_iff` — inserting a design document, by the answers of its two requests.
* `admin_results_iff` — for every method, the answers after which its result is read at its type and
  what it returns is defined.
* `results_misread` — an answer without a body, and a design document that the server refuses.
-/

set_option autoImplicit false

namespace PhpCouchbase

open OrderedMap

variable (php : HttpPhp)

/-! ## Management requests -/

inductive AdminVerb where
  | get
  | put
  | delete
  deriving DecidableEq, Repr

/-- `lcb_CMDHTTP` -/
structure AdminRequest where
  verb : AdminVerb
  /-- `LCB_CMD_SET_KEY` with the result of `spprintf`, which is an `int` -/
  path : C Bytes
  contentType : Option Bytes
  body : Option Bytes

/-- A call of a method: the request that it sent, the exception that it threw and the value that it
returned. -/
structure AdminCall where
  sent : Option AdminRequest
  thrown : Option Thrown
  returned : C Zval

variable (send : AdminRequest → Exchange)

def requestPath (path : Bytes) : C Bytes := prefixOf path (narrowInt path.length)

def contentForm : Option Bytes := some (ascii "application/x-www-form-urlencoded")

/-- A method that returns the decoded body of its request. -/
def decodedCall (req : AdminRequest) : AdminCall :=
  let (value, err) := httpRequest php (.ok .null) true (send req)
  ⟨some req, err.map Thrown.lcb, value⟩

/-- `ClusterManager::removeBucket` -/
def removeBucket (name : Bytes) : AdminCall :=
  decodedCall php send
    ⟨.delete, requestPath (ascii "/pools/default/buckets/" ++ printStar name), contentForm, none⟩

/-- `BucketManager::removeDesignDocument` -/
def removeDesignDocument (name : Bytes) : AdminCall :=
  decodedCall php send ⟨.delete, requestPath (designPath name), contentForm, none⟩

/-! ## Users -/

/-- The path of a user, by the domain; other domains are refused. -/
def userPath (domain : Int64) (name : Bytes) : Option Bytes :=
  if domain = 1 then some (ascii "/settings/rbac/users/local/" ++ printStar name)
  else if domain = 2 then some (ascii "/settings/rbac/users/external/" ++ printStar name)
  else none

/-- The call with a domain that is none. -/
def invalidDomain : AdminCall := ⟨none, some (.pcbc (ascii "Invalid arguments.") .einval), .ok .null⟩

/-- `ClusterManager::getUser`, which sets no content type -/
def getUser (name : Bytes) (domain : Int64) : AdminCall :=
  match userPath domain name with
  | none => invalidDomain
  | some path => decodedCall php send ⟨.get, requestPath path, none, none⟩

/-- The string is empty or begins with two quotes; behind its end there is a NUL. -/
def looksEmpty (s : Bytes) : Bool := s = [] || (s.getD 0 0 = 34 && s.getD 1 0 = 34)

/-- What `removeUser` and `upsertUser` do with the answer: the exception and the value returned. -/
def userResult (answer : Exchange) : Option Thrown × C Zval :=
  let (value, err) := httpRequest php (.ok .null) false answer
  match value >>= Zval.strval with
  | .error e => (err.map Thrown.lcb, .error e)
  | .ok s =>
    if looksEmpty s then (err.map Thrown.lcb, .ok .true)
    else (some (.pcbc (CString.ofBytes s).bytes .einval), .ok .null)

/-- A request for a user, and what is done with its answer. -/
def userCall (req : AdminRequest) : AdminCall :=
  ⟨some req, (userResult php (send req)).1, (userResult php (send req)).2⟩

/-- `ClusterManager::removeUser` -/
def removeUser (name : Bytes) (domain : Int64) : AdminCall :=
  match userPath domain name with
  | none => invalidDomain
  | some path => userCall php send ⟨.delete, requestPath path, contentForm, none⟩

/-- `pcbc_user_settings_t` -/
structure UserSettings where
  fullName : Option Bytes
  password : Option Bytes
  roles : Bytes

/-- A member of the body; the length of its text is an `int`. -/
def addText (body : List (ArrayKey × Zval)) (key : String) (text : Bytes) :
    C (List (ArrayKey × Zval)) := do
  return addAssoc body (ascii key) (.string (← prefixOf text (narrowInt text.length)))

def addOptional (body : List (ArrayKey × Zval)) (key : String) :
    Option Bytes → C (List (ArrayKey × Zval))
  | none => .ok body
  | some text => addText body key text

/-- The body of `upsertUser` as an array. -/
def settingsBody (settings : UserSettings) : C (List (ArrayKey × Zval)) := do
  let body ← addOptional [] "name" settings.fullName
  let body ← addOptional body "password" settings.password
  if narrowInt settings.roles.length = 0 then return body else addText body "roles" settings.roles

/-- `ClusterManager::upsertUser`; `urlEncodeHash` is `php_url_encode_hash_ex`, which may fail. -/
def upsertUser (urlEncodeHash : List (ArrayKey × Zval) → Option Bytes) (name : Bytes)
    (settings : UserSettings) (domain : Int64) : AdminCall :=
  match userPath domain name with
  | none => invalidDomain
  | some path =>
    match settingsBody settings with
    | .error e => ⟨none, none, .error e⟩
    | .ok body =>
      match urlEncodeHash body with
      | none => ⟨none, none, .ok .null⟩
      -- nothing was appended to the buffer, and `PCBC_SMARTSTR_SET` reads its string
      | some [] => ⟨none, none, .error .nullPointer⟩
      | some text => userCall php send ⟨.put, requestPath path, contentForm, some text⟩

/-! ## Design documents -/

variable {σ : Type} (server : ViewServer σ)

/-- What `getDesignDocument` returns for the result of its request. -/
def getReturned (value : C Zval) : C Zval := do
  if ← phpArrayExists value (ascii "error") then return .false else value

/-- `BucketManager::getDesignDocument` -/
def getDesignDocument (s : σ) (name : Bytes) : Insertion σ :=
  let get := designGet name
  let (s₁, answer) := server.handle s get
  let (value, err) := httpRequest php (.ok .null) true answer
  ⟨[get], s₁, err.map Thrown.lcb, getReturned value⟩

/-- What `upsertDesignDocument` returns for the result of its request: a result with an error is
destroyed, and the method ends without `RETURN_NULL`. -/
def upsertReturned (value : C Zval) : C Zval := do
  match ← phpArrayFetchString php value (ascii "error") with
  | none => value
  | some error => do
    error.release
    .error .freed

def upsertThrown (value : C Zval) (err : Option LcbError) : Option Thrown :=
  match phpArrayFetchString php value (ascii "error") with
  | .ok (some error) => some (.pcbc error.text .error)
  | _ => err.map Thrown.lcb

/-- `BucketManager::upsertDesignDocument` -/
def upsertDesignDocument (s : σ) (name : Bytes) (document : Zval) : Insertion σ :=
  match php.jsonEncode document with
  | none => ⟨[], s, none, .ok .null⟩
  | some [] => ⟨[], s, none, .error .nullPointer⟩
  | some body =>
    let put := designPut name body
    let (s₁, answer) := server.handle s put
    let (value, err) := httpRequest php (.ok .null) true answer
    ⟨[put], s₁, upsertThrown php value err, upsertReturned php value⟩

/-! ## The users' methods -/

/-- The request succeeded, and its body is empty or two quotes. -/
def Exchange.Confirms (answer : Exchange) : Prop :=
  ∃ resp, answer = .answered resp ∧ resp.rc = .success ∧ (resp.body = [] ∨ resp.body = [34, 34])

/-- The request succeeded, and its body is a string that does not only begin with two quotes. -/
def Exchange.UserAnswer (answer : Exchange) : Prop :=
  ∃ resp, answer = .answered resp ∧ resp.rc = .success ∧ resp.body ≠ [] ∧
    ([34, 34] <+: resp.body → resp.body = [34, 34])

/-- The result is read as a string only if it is one, what is returned is defined, and it is `TRUE`
exactly after a confirmation. -/
structure UserSafe (answer : Exchange) (returned : C Zval) : Prop where
  defined : C.Defined returned
  true_iff : returned = .ok .true ↔ answer.Confirms

theorem looksEmpty_iff {s : Bytes} (h : s ≠ []) : looksEmpty s = true ↔ [34, 34] <+: s := by
  match s with
  | [] => exact absurd rfl h
  | [a] => simp [looksEmpty]
  | a :: b :: t =>
    have hcons : looksEmpty (a :: b :: t) = true ↔ a = 34 ∧ b = 34 := by simp [looksEmpty]
    rw [hcons, List.cons_prefix_cons, List.cons_prefix_cons]
    constructor
    · rintro ⟨rfl, rfl⟩
      exact ⟨rfl, rfl, List.nil_prefix⟩
    · rintro ⟨rfl, rfl, -⟩
      exact ⟨rfl, rfl⟩

theorem userResult_answered (resp : HttpResponse) (hrc : resp.rc = .success) (hbody : resp.body ≠ []) :
    (userResult php (.answered resp)).2 = .ok (if looksEmpty resp.body then .true else .null) := by
  have hstr : (httpCallback php false resp).bytes = .string resp.body := by
    rw [httpCallback, if_pos hbody]
    rfl
  unfold userResult
  rw [httpRequest_answered, if_pos hrc, hstr]
  cases h : looksEmpty resp.body <;> simp [Zval.strval, h]

/-- Without a body the value is not a string. -/
theorem userResult_fault {resp : HttpResponse} (h : ¬(resp.rc = .success ∧ resp.body ≠ [])) :
    (userResult php (.answered resp)).2 = .error .wrongType := by
  unfold userResult
  rw [httpRequest_answered]
  by_cases hrc : resp.rc = .success
  · have hbody : resp.body = [] := by
      by_contra hbody
      exact h ⟨hrc, hbody⟩
    rw [if_pos hrc, httpCallback, if_neg (not_not.mpr hbody)]
    rfl
  · rw [if_neg hrc]
    rfl

/-- **The users' methods** treat an answer well exactly when it is a string that is two quotes or
does not begin with them. -/
theorem userResult_safe_iff (answer : Exchange) :
    UserSafe answer (userResult php answer).2 ↔ answer.UserAnswer := by
  cases answer with
  | refused err =>
    constructor
    · intro h
      exact absurd h.defined (C.not_defined_error .wrongType)
    · rintro ⟨resp, habs, -⟩
      cases habs
  | answered resp =>
    by_cases hgood : resp.rc = .success ∧ resp.body ≠ []
    · obtain ⟨hrc, hbody⟩ := hgood
      have hconf : (Exchange.answered resp).Confirms ↔ resp.body = [34, 34] := by
        simp [Exchange.Confirms, hrc, hbody]
      have hanswer : (Exchange.answered resp).UserAnswer ↔
          ([34, 34] <+: resp.body → resp.body = [34, 34]) := by
        simp [Exchange.UserAnswer, hrc, hbody]
      have htrue : (.ok (if looksEmpty resp.body then .true else .null) : C Zval) = .ok .true ↔
          [34, 34] <+: resp.body := by
        rw [← looksEmpty_iff hbody]
        cases looksEmpty resp.body <;> simp
      rw [hanswer, userResult_answered php resp hrc hbody]
      constructor
      · intro h hpre
        exact hconf.mp (h.true_iff.mp (htrue.mpr hpre))
      · intro h
        refine ⟨C.defined_ok _, htrue.trans ⟨fun hpre => hconf.mpr (h hpre), fun heq => ?_⟩⟩
        exact hconf.mp heq ▸ List.prefix_rfl
    · constructor
      · intro h
        have hdef := h.defined
        rw [userResult_fault php hgood] at hdef
        exact absurd hdef (C.not_defined_error _)
      · rintro ⟨resp', heq, hrc, hbody, -⟩
        cases heq
        exact absurd ⟨hrc, hbody⟩ hgood

/-! ## The design documents' methods -/

/-- The request succeeded, and its body is an array with these elements. -/
def Exchange.Elems (answer : Exchange) (elems : List (ArrayKey × Zval)) : Prop :=
  ∃ resp, answer = .answered resp ∧ resp.rc = .success ∧ resp.body ≠ [] ∧
    php.jsonDecode resp.body = some (.array elems)

def errorMember (elems : List (ArrayKey × Zval)) : Option Zval :=
  fetch elems (symtableKey (ascii "error"))

theorem plainDocument_iff (answer : Exchange) :
    answer.PlainDocument php ↔ ∃ elems, answer.Elems php elems ∧ errorMember elems = none := by
  cases answer with
  | refused err => simp [Exchange.PlainDocument, Exchange.Elems]
  | answered resp =>
    simp only [Exchange.PlainDocument, Exchange.Elems, errorMember, Exchange.answered.injEq,
      exists_eq_left']
    constructor
    · rintro ⟨hrc, hbody, elems, hdec, hnone⟩
      exact ⟨elems, ⟨hrc, hbody, hdec⟩, hnone⟩
    · rintro ⟨elems, ⟨hrc, hbody, hdec⟩, hnone⟩
      exact ⟨hrc, hbody, elems, hdec, hnone⟩

/-- The result is an array exactly when the body of the answer is one. -/
theorem result_eq_array_iff {returnValue : C Zval} (h : ∀ elems, returnValue ≠ .ok (.array elems))
    (answer : Exchange) (elems : List (ArrayKey × Zval)) :
    (httpRequest php returnValue true answer).1 = .ok (.array elems) ↔ answer.Elems php elems := by
  cases answer with
  | refused err =>
    constructor
    · intro heq
      exact absurd heq (h elems)
    · rintro ⟨resp, habs, -⟩
      cases habs
  | answered resp =>
    rw [httpRequest_answered]
    simp only [Exchange.Elems, Exchange.answered.injEq, exists_eq_left']
    by_cases hrc : resp.rc = .success
    · by_cases hbody : resp.body = []
      · simp [hrc, httpCallback, hbody]
      · cases hdec : php.jsonDecode resp.body <;> simp [hrc, httpCallback, hbody, hdec]
    · simp [hrc, h elems]

theorem arrval_eq_ok {value : C Zval} {elems : List (ArrayKey × Zval)} :
    arrval value = .ok elems ↔ value = .ok (.array elems) := by
  unfold arrval
  cases value with
  | error e => simp
  | ok v => cases v <;> simp

theorem phpArrayExists_array (elems : List (ArrayKey × Zval)) :
    phpArrayExists (.ok (.array elems)) (ascii "error") = .ok (errorMember elems).isSome := rfl

/-- Looking for the member is defined exactly on arrays. -/
theorem defined_exists_bind {value : C Zval} {f : Bool → C Zval} :
    C.Defined (phpArrayExists value (ascii "error") >>= f) ↔
      ∃ elems, value = .ok (.array elems) ∧ C.Defined (f (errorMember elems).isSome) := by
  rw [C.defined_bind]
  constructor
  · rintro ⟨found, hfound, hf⟩
    obtain ⟨elems, helems, h⟩ := C.bind_eq_ok.mp hfound
    obtain rfl := Except.ok.inj h
    exact ⟨elems, arrval_eq_ok.mp helems, hf⟩
  · rintro ⟨elems, rfl, hf⟩
    exact ⟨_, phpArrayExists_array elems, hf⟩

theorem fetchError_array (elems : List (ArrayKey × Zval)) :
    phpArrayFetchString php (.ok (.array elems)) (ascii "error") =
      .ok ((errorMember elems).map (phpArrayZvalToString php)) := rfl

/-- So is reading it as a string. -/
theorem defined_fetchString_bind {value : C Zval} {f : Option FetchedString → C Zval} :
    C.Defined (phpArrayFetchString php value (ascii "error") >>= f) ↔
      ∃ elems, value = .ok (.array elems) ∧
        C.Defined (f ((errorMember elems).map (phpArrayZvalToString php))) := by
  rw [C.defined_bind]
  constructor
  · rintro ⟨error, herror, hf⟩
    obtain ⟨elems, helems, hvalue⟩ := C.bind_eq_ok.mp herror
    obtain rfl := arrval_eq_ok.mp helems
    rw [← Except.ok.inj hvalue] at hf
    exact ⟨elems, rfl, hf⟩
  · rintro ⟨elems, rfl, hf⟩
    exact ⟨_, fetchError_array php elems, hf⟩

theorem getReturned_defined_iff {value : C Zval} :
    C.Defined (getReturned value) ↔ ∃ elems, value = .ok (.array elems) := by
  rw [getReturned, defined_exists_bind]
  constructor
  · rintro ⟨elems, h, -⟩
    exact ⟨elems, h⟩
  · rintro ⟨elems, rfl⟩
    refine ⟨elems, rfl, ?_⟩
    cases (errorMember elems).isSome <;> exact C.defined_ok _

theorem upsertReturned_defined_iff {value : C Zval} :
    C.Defined (upsertReturned php value) ↔
      ∃ elems, value = .ok (.array elems) ∧ errorMember elems = none := by
  rw [upsertReturned, defined_fetchString_bind]
  refine exists_congr fun elems => and_congr_right fun hvalue => ?_
  subst hvalue
  cases errorMember elems with
  | none => exact iff_of_true (C.defined_ok _) rfl
  | some error =>
    refine iff_of_false ?_ fun h => nomatch h
    rintro ⟨v, hv⟩
    obtain ⟨u, -, hfreed⟩ := C.bind_eq_ok.mp hv
    cases hfreed

/-- The answer to the PUT of `insertDesignDocument`, after its GET. -/
def putAnswer (s : σ) (name body : Bytes) : Exchange :=
  (server.handle (server.handle s (designGet name)).1 (designPut name body)).2

/-- What `insertDesignDocument` returns for the result of its PUT. -/
def insertReturned (value : C Zval) : C Zval := do
  match ← phpArrayFetchString php value (ascii "error") with
  | none => value
  | some error => do
    error.release
    return .null

theorem insert_returned (s : σ) (name : Bytes) (document : Zval) :
    (insertDesignDocument php server s name document).returned =
      phpArrayExists (firstAnswer php server s name).1 (ascii "error") >>= fun found =>
        if found then
          match php.jsonEncode document with
          | none => .ok .null
          | some [] => .error .nullPointer
          | some body => insertReturned php
              (httpRequest php (.error .freed) true (putAnswer server s name body)).1
        else .ok .null := by
  unfold insertDesignDocument firstAnswer
  dsimp only
  cases phpArrayExists (httpRequest php (.ok .null) true (server.handle s (designGet name)).2).1
      (ascii "error") with
  | error e => rfl
  | ok found =>
    cases found with
    | false => rfl
    | true =>
      simp only [C.bind_ok, if_true]
      cases php.jsonEncode document with
      | none => rfl
      | some body =>
        cases body with
        | nil => rfl
        | cons c body =>
          simp only [insertReturned, putAnswer]
          cases phpArrayFetchString php (httpRequest php (.error .freed) true
              (server.handle (server.handle s (designGet name)).1 (designPut name (c :: body))).2).1
              (ascii "error") with
          | error e => rfl
          | ok error => cases error <;> rfl

/-- A text, if there is an error. -/
def ErrorIsText (elems : List (ArrayKey × Zval)) : Prop := ∀ z, errorMember elems = some z → z.IsText

theorem insertReturned_defined_iff {value : C Zval} :
    C.Defined (insertReturned php value) ↔
      ∃ elems, value = .ok (.array elems) ∧ ErrorIsText elems := by
  rw [insertReturned, defined_fetchString_bind]
  refine exists_congr fun elems => and_congr_right fun hvalue => ?_
  subst hvalue
  unfold ErrorIsText
  cases errorMember elems with
  | none => exact iff_of_true (C.defined_ok _) fun _ h => nomatch h
  | some error =>
    have hrelease : C.Defined ((phpArrayZvalToString php error).release >>= fun _ => .ok Zval.null) ↔
        error.IsText := by
      rw [C.defined_bind, ← release_defined php]
      exact ⟨fun ⟨u, hu, _⟩ => ⟨u, hu⟩, fun ⟨u, hu⟩ => ⟨u, hu, C.defined_ok _⟩⟩
    refine hrelease.trans ⟨fun h z hz => ?_, fun h => h error rfl⟩
    rw [← Option.some.inj hz]
    exact h

theorem insert_defined_iff (s : σ) (name : Bytes) (document : Zval) :
    C.Defined (insertDesignDocument php server s name document).returned ↔
      ∃ elems, (server.handle s (designGet name)).2.Elems php elems ∧
        (errorMember elems ≠ none → ∀ body, php.jsonEncode document = some body → body ≠ [] ∧
          ∃ elems', (putAnswer server s name body).Elems php elems' ∧ ErrorIsText elems') := by
  have hnull : ∀ elems, (.ok .null : C Zval) ≠ .ok (.array elems) := fun _ h => by cases h
  have hfreed : ∀ elems, (.error .freed : C Zval) ≠ .ok (.array elems) := fun _ h => by cases h
  rw [insert_returned, defined_exists_bind]
  refine exists_congr fun elems => and_congr (result_eq_array_iff php hnull _ elems) ?_
  cases errorMember elems with
  | none => exact iff_of_true (C.defined_ok _) (fun h => absurd rfl h)
  | some error =>
    simp only [Option.isSome_some, if_true, ne_eq, reduceCtorEq, not_false_eq_true, true_imp_iff]
    cases php.jsonEncode document with
    | none => exact iff_of_true (C.defined_ok _) (fun _ h => by cases h)
    | some body =>
      simp only [Option.some.injEq, forall_eq', ← result_eq_array_iff php hfreed]
      cases body with
      | nil => exact iff_of_false (C.not_defined_error _) fun h => h.1 rfl
      | cons c body =>
        rw [and_iff_right (List.cons_ne_nil c body)]
        exact insertReturned_defined_iff php

/-! ## All methods -/

/-- A call for a user treats the answer to the request that it sends well. -/
def UserCallSafe (call : AdminCall) : Prop :=
  ∀ req, call.sent = some req → UserSafe (send req) call.returned

theorem userCallSafe_iff {call : AdminCall}
    (h : ∀ req, call.sent = some req → call.returned = (userResult php (send req)).2) :
    UserCallSafe send call ↔ ∀ req, call.sent = some req → (send req).UserAnswer := by
  refine forall₂_congr fun req hreq => ?_
  rw [h req hreq, userResult_safe_iff]

theorem userCall_sent {req req' : AdminRequest} (h : (userCall php send req).sent = some req') :
    (userCall php send req).returned = (userResult php (send req')).2 := by
  cases h
  rfl

theorem upsertUser_sent {urlEncodeHash : List (ArrayKey × Zval) → Option Bytes} {name : Bytes}
    {settings : UserSettings} {domain : Int64} {req : AdminRequest}
    (h : (upsertUser php send urlEncodeHash name settings domain).sent = some req) :
    ∃ path text, userPath domain name = some path ∧
      upsertUser php send urlEncodeHash name settings domain = userCall php send req ∧
      req = ⟨.put, requestPath path, contentForm, some text⟩ := by
  unfold upsertUser at h ⊢
  cases hpath : userPath domain name with
  | none =>
    rw [hpath] at h
    cases h
  | some path =>
    simp only [hpath] at h ⊢
    cases hbody : settingsBody settings with
    | error e =>
      rw [hbody] at h
      cases h
    | ok body =>
      simp only [hbody] at h ⊢
      cases htext : urlEncodeHash body with
      | none =>
        rw [htext] at h
        cases h
      | some text =>
        cases text with
        | nil =>
          rw [htext] at h
          cases h
        | cons c text =>
          simp only [htext] at h ⊢
          cases h
          exact ⟨path, c :: text, rfl, rfl, rfl⟩

/-- **Results are read at their type** exactly after these answers: for the users, a string that is
two quotes or does not begin with them; for the design documents, an array, and one without an error
where `upsertDesignDocument` is concerned. -/
theorem admin_results_iff (send : AdminRequest → Exchange)
    (urlEncodeHash : List (ArrayKey × Zval) → Option Bytes) :
    (∀ name domain, UserCallSafe send (removeUser php send name domain) ↔
      ∀ req, (removeUser php send name domain).sent = some req → (send req).UserAnswer) ∧
    (∀ name settings domain,
      UserCallSafe send (upsertUser php send urlEncodeHash name settings domain) ↔
        ∀ req, (upsertUser php send urlEncodeHash name settings domain).sent = some req →
          (send req).UserAnswer) ∧
    (∀ s name, C.Defined (getDesignDocument php server s name).returned ↔
      ∃ elems, (server.handle s (designGet name)).2.Elems php elems) ∧
    (∀ s name document, C.Defined (upsertDesignDocument php server s name document).returned ↔
      ∀ body, php.jsonEncode document = some body → body ≠ [] ∧
        (server.handle s (designPut name body)).2.PlainDocument php) ∧
    (∀ s name document, C.Defined (insertDesignDocument php server s name document).returned ↔
      ∃ elems, (server.handle s (designGet name)).2.Elems php elems ∧
        (errorMember elems ≠ none → ∀ body, php.jsonEncode document = some body → body ≠ [] ∧
          ∃ elems', (putAnswer server s name body).Elems php elems' ∧ ErrorIsText elems')) := by
  have hnull : ∀ elems, (.ok .null : C Zval) ≠ .ok (.array elems) := fun _ h => by cases h
  refine ⟨fun name domain => userCallSafe_iff php send ?_,
    fun name settings domain => userCallSafe_iff php send ?_, fun s name => ?_,
    fun s name document => ?_, insert_defined_iff php server⟩
  · intro req hreq
    unfold removeUser at hreq ⊢
    cases hpath : userPath domain name with
    | none =>
      rw [hpath] at hreq
      cases hreq
    | some path =>
      rw [hpath] at hreq
      exact userCall_sent php send hreq
  · intro req hreq
    obtain ⟨path, text, -, hcall, -⟩ := upsertUser_sent php send hreq
    rw [hcall]
    rfl
  · simp only [← result_eq_array_iff php hnull]
    exact getReturned_defined_iff
  · unfold upsertDesignDocument
    cases php.jsonEncode document with
    | none => exact iff_of_true (C.defined_ok _) (fun _ h => by cases h)
    | some body =>
      simp only [Option.some.injEq, forall_eq', plainDocument_iff, ← result_eq_array_iff php hnull]
      cases body with
      | nil => exact iff_of_false (C.not_defined_error _) fun h => h.1 rfl
      | cons c body =>
        rw [and_iff_right (List.cons_ne_nil c body)]
        exact upsertReturned_defined_iff php

/-- A server that answers every request for a design document with an error. -/
def refusingServer : ViewServer Unit where
  handle _ _ := ((), .answered ⟨.success, 400, errorDocument⟩)
  stored _ _ := none
  get_keeps _ _ _ := rfl

/-- PHP where the error is a text. -/
def textErrorPhp : HttpPhp where
  jsonDecode _ := some (.array [(.str (ascii "error"), .string (ascii "x"))])
  jsonEncode _ := some (ascii "[]")
  convertToString _ := []

/-- The string of a result that is null is read when the body is empty; a design document that the
server refuses leaves a destroyed result behind the exception; and a number as the error is freed at
an address that was not allocated. -/
theorem results_misread :
    ¬UserCallSafe (fun _ => .answered ⟨.success, 200, []⟩)
      (removeUser errorPhp (fun _ => .answered ⟨.success, 200, []⟩) (ascii "jane") 1) ∧
    (upsertDesignDocument textErrorPhp refusingServer () (ascii "beers") (.array [])).thrown ≠ none ∧
    (upsertDesignDocument textErrorPhp refusingServer () (ascii "beers") (.array [])).returned =
      .error .freed ∧
    (insertDesignDocument errorPhp refusingServer () (ascii "beers") (.array [])).returned =
      .error .badFree := by
  refine ⟨fun h => ?_, by decide, rfl, rfl⟩
  exact absurd (h _ rfl).defined (C.not_defined_error .wrongType)

end PhpCouchbase
