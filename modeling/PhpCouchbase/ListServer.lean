import PhpCouchbase.DataStructures
import PhpCouchbase.Lib.StepSystem
import PhpCouchbase.Lib.Versioned

/-!
# A document that many calls work on

The server behind `bucket/get.c` and `bucket/subdoc.c` keeps one document under a key.  Each request
is atomic; the document gets a CAS that was never used and is not zero with each change, and a
mutation with a CAS that is not zero is done only while the document has it.  libcouchbase may
refuse a request, and a request that was done may be answered with an error, such as a timeout.

* `Step` — one request of one of the calls, or a change by somebody else.
* `Step.frame` — a step is of no consequence to a call that did not make it, except that the
  document may have changed.
-/

set_option autoImplicit false

namespace PhpCouchbase

/-! ## The document -/

/-- The document as the server sees it: a list is known by the texts of its elements. -/
inductive Content where
  | missing
  | list (elems : List Bytes)
  | other
  deriving DecidableEq, Repr

abbrev Server := Versioned Content UInt64

/-- The position that a path of one index names. -/
def pathIndex (elems : List Bytes) (path : Bytes) : Option Nat :=
  if path = lastPath then
    if elems = [] then none else some (elems.length - 1)
  else (List.range elems.length).find? fun i => path = indexPath (Int64.ofNat i)

/-- The element that a path of one index names. -/
def pathElem (elems : List Bytes) (path : Bytes) : Option Bytes :=
  (pathIndex elems path).bind fun i => elems[i]?

/-- The mutations of a list. -/
def applySpec (elems : List Bytes) (spec : SdSpec) : Option (List Bytes) :=
  match spec.sdcmd with
  | .remove => (pathIndex elems spec.path).map elems.eraseIdx
  | .replace => (pathIndex elems spec.path).map fun i => elems.set i spec.value
  | .arrayAddFirst => if spec.path = [] then some (spec.value :: elems) else none
  | .arrayAddLast => if spec.path = [] then some (elems ++ [spec.value]) else none
  | .arrayAddUnique =>
    if spec.path = [] ∧ spec.value ∉ elems then some (elems ++ [spec.value]) else none
  | _ => none

/-- All mutations of a command, or none. -/
def applySpecs (elems : List Bytes) (specs : List SdSpec) : Option (List Bytes) :=
  specs.foldlM applySpec elems

/-! ## Answers -/

/-- The stored bytes of a list: they are longer than the list, and the decoder of the bucket reads
the elements from them. -/
structure ReadsAs (bucket : BucketConf) (value : Bytes → Zval) (elems : List Bytes)
    (resp : Response) : Prop where
  size : elems.length < resp.value.length
  limit : resp.value.length < 2 ^ 31
  decoded : ∃ kvs, bucket.decoder (.string resp.value) (.long (Int64.ofNat resp.itmflags.toNat))
      (.long (Int64.ofNat resp.datatype.toNat)) = .array kvs ∧
    kvs.map Prod.snd = elems.map value

/-- What becomes of a request: libcouchbase refuses it, the answer says what the server did, or the
server did it and the answer says that it failed. -/
inductive Fate where
  | refused
  | answered
  | lost
  deriving DecidableEq, Repr

/-- The answers to a get. -/
inductive AnswersGet (bucket : BucketConf) (value : Bytes → Zval) (v : Server) :
    Fate → Answer Response → Prop where
  | refused (err : LcbError) (h : err ≠ .success) :
      AnswersGet bucket value v .refused (.refused err h)
  | failed (resp : Response) (hrc : resp.rc ≠ .success) :
      AnswersGet bucket value v .answered (.response resp)
  | list {elems : List Bytes} {resp : Response} (hc : v.content = .list elems)
      (hrc : resp.rc = .success) (hcas : resp.cas = v.version)
      (hreads : ReadsAs bucket value elems resp) : AnswersGet bucket value v .answered (.response resp)
  | other {resp : Response} (hc : v.content = .other) (hrc : resp.rc = .success)
      (hcas : resp.cas = v.version) (hlimit : resp.value.length < 2 ^ 31) :
      AnswersGet bucket value v .answered (.response resp)

/-- The answers to a subdocument command, with the document after it.  Any request may be refused,
or fail without effect. -/
inductive ServesSubdoc (v : Server) (cmd : SubdocCommand) :
    Fate → Answer SubdocResponse → Server → Prop where
  | refused (err : LcbError) (h : err ≠ .success) :
      ServesSubdoc v cmd .refused (.refused err h) v
  | failed (resp : SubdocResponse) (hrc : resp.rc ≠ .success)
      (hmulti : resp.rc ≠ .subdocMultiFailure) : ServesSubdoc v cmd .answered (.response resp) v
  | lookup {elems : List Bytes} {resp : SubdocResponse} (hl : cmd.isLookup = true)
      (hc : v.content = .list elems) (hcas : resp.cas = v.version)
      (hvalues : resp.entries.map SdEntry.value =
        cmd.specs.map fun s => (pathElem elems s.path).getD [])
      (hrc : resp.rc = if ∀ s ∈ cmd.specs, (pathElem elems s.path).isSome then .success
        else .subdocMultiFailure) : ServesSubdoc v cmd .answered (.response resp) v
  | lookupOther {resp : SubdocResponse} (hl : cmd.isLookup = true) (hc : v.content = .other)
      (hrc : resp.rc = .subdocMultiFailure) : ServesSubdoc v cmd .answered (.response resp) v
  | applied {elems elems' : List Bytes} {resp : SubdocResponse} {w : Server}
      (hl : cmd.isLookup = false) (hc : v.content = .list elems)
      (hguard : cmd.cas = 0 ∨ cmd.cas = v.version)
      (happly : applySpecs elems cmd.specs = some elems') (hw : v.Changes (.list elems') w)
      (hzero : w.version ≠ 0) (hrc : resp.rc = .success) (hcas : resp.cas = w.version) :
      ServesSubdoc v cmd .answered (.response resp) w
  | notApplied {resp : SubdocResponse} (hl : cmd.isLookup = false)
      (hguard : cmd.cas = 0 ∨ cmd.cas = v.version)
      (hnone : ∀ elems, v.content = .list elems → applySpecs elems cmd.specs = none)
      (hrc : resp.rc = .subdocMultiFailure) : ServesSubdoc v cmd .answered (.response resp) v
  | unanswered {elems elems' : List Bytes} {resp : SubdocResponse} {w : Server}
      (hl : cmd.isLookup = false) (hc : v.content = .list elems)
      (hguard : cmd.cas = 0 ∨ cmd.cas = v.version)
      (happly : applySpecs elems cmd.specs = some elems') (hw : v.Changes (.list elems') w)
      (hzero : w.version ≠ 0) (hrc : resp.rc ≠ .success) : ServesSubdoc v cmd .lost (.response resp) w

/-! ## The system -/

/-- A request that a call made, with the document before and after it. -/
structure Served (ι : Type) where
  call : ι
  isLookup : Bool
  before : Content
  after : Content

/-- The document, the calls that work on it, and the requests so far. -/
structure System (ι : Type) where
  server : Server
  procs : ι → Proc Zval
  served : List (Served ι)

/-- Who makes a step, and what becomes of the request. -/
inductive Label (ι : Type) where
  | call (i : ι) (fate : Fate)
  | other

/-- The step is one of the call. -/
def Label.By {ι : Type} (i : ι) : Label ι → Prop
  | call j _ => j = i
  | other => False

variable {ι : Type} [DecidableEq ι]

/-- A call has an answer, the document may have changed. -/
def System.answer (s : System ι) (i : ι) (isLookup : Bool) (v : Server) (p : Proc Zval) :
    System ι where
  server := v
  procs := Function.update s.procs i p
  served := s.served ++ [⟨i, isLookup, s.server.content, v.content⟩]

/-- A step: a request of one call for the key, or a change of the document by somebody else. -/
inductive Step (bucket : BucketConf) (value : Bytes → Zval) (key : Bytes) :
    System ι → Label ι → System ι → Prop where
  | get {s : System ι} {i : ι} {next : Answer Response → Proc Zval} {fate : Fate}
      {answer : Answer Response} (hp : s.procs i = .get key next)
      (ha : AnswersGet bucket value s.server fate answer) :
      Step bucket value key s (.call i fate) (s.answer i true s.server (next answer))
  | subdoc {s : System ι} {i : ι} {cmd : SubdocCommand} {next : Answer SubdocResponse → Proc Zval}
      {fate : Fate} {answer : Answer SubdocResponse} {v : Server} (hp : s.procs i = .subdoc cmd next)
      (hkey : cmd.key = key) (ha : ServesSubdoc s.server cmd fate answer v) :
      Step bucket value key s (.call i fate) (s.answer i cmd.isLookup v (next answer))
  | other {s : System ι} {c : Content} {v : Server} (hv : s.server.Changes c v)
      (hzero : v.version ≠ 0) : Step bucket value key s .other { s with server := v }

/-- The requests of a call that changed the document. -/
def changesOf (s : System ι) (i : ι) : List (Served ι) :=
  s.served.filter fun x => decide (x.call = i ∧ x.before ≠ x.after)

/-! ## What a step does -/

theorem changesOf_answer (s : System ι) (i j : ι) (isLookup : Bool) (v : Server) (p : Proc Zval) :
    changesOf (s.answer i isLookup v p) j =
      changesOf s j ++
        if i = j ∧ s.server.content ≠ v.content then
          [⟨i, isLookup, s.server.content, v.content⟩] else [] := by
  unfold changesOf System.answer
  rw [List.filter_append, List.filter_singleton]
  by_cases h : i = j ∧ s.server.content ≠ v.content <;> simp [h]

theorem changesOf_answer_same {s : System ι} (i j : ι) (isLookup : Bool) {v : Server}
    (p : Proc Zval) (hv : v.content = s.server.content) :
    changesOf (s.answer i isLookup v p) j = changesOf s j := by
  rw [changesOf_answer, hv]
  simp

@[simp] theorem procs_answer_self (s : System ι) (i : ι) (isLookup : Bool) (v : Server)
    (p : Proc Zval) : (s.answer i isLookup v p).procs i = p := by
  simp [System.answer]

theorem procs_answer_ne (s : System ι) {i j : ι} (h : j ≠ i) (isLookup : Bool) (v : Server)
    (p : Proc Zval) : (s.answer i isLookup v p).procs j = s.procs j := by
  simp [System.answer, h]

/-- The document after a request is the one before, or a change of it to a list. -/
theorem ServesSubdoc.server_eq {v w : Server} {cmd : SubdocCommand} {fate : Fate}
    {answer : Answer SubdocResponse} (h : ServesSubdoc v cmd fate answer w) :
    w = v ∨ w.version ≠ 0 ∧ ∃ c, v.Changes c w := by
  cases h with
  | refused err h => exact Or.inl rfl
  | failed resp hrc hmulti => exact Or.inl rfl
  | lookup hl hc hcas hvalues hrc => exact Or.inl rfl
  | lookupOther hl hc hrc => exact Or.inl rfl
  | applied hl hc hguard happly hw hzero hrc hcas => exact Or.inr ⟨hzero, _, hw⟩
  | notApplied hl hguard hnone hrc => exact Or.inl rfl
  | unanswered hl hc hguard happly hw hzero hrc => exact Or.inr ⟨hzero, _, hw⟩

variable {bucket : BucketConf} {value : Bytes → Zval} {key : Bytes} {s t : System ι}
  {l : Label ι}

theorem Step.server_eq (h : Step bucket value key s l t) :
    t.server = s.server ∨ t.server.version ≠ 0 ∧ ∃ c, s.server.Changes c t.server := by
  cases h with
  | get hp ha => exact Or.inl rfl
  | subdoc hp hkey ha => exact ha.server_eq
  | other hv hzero => exact Or.inr ⟨hzero, _, hv⟩

/-- The document is a later one. -/
theorem Step.later (h : Step bucket value key s l t) {v : Server} (hv : v.Later s.server) :
    v.Later t.server := by
  rcases h.server_eq with heq | ⟨-, c, hc⟩
  · rw [heq]
    exact hv
  · exact hv.changes hc

/-- A CAS is never zero. -/
theorem Step.version_ne_zero (h : Step bucket value key s l t) (hs : s.server.version ≠ 0) :
    t.server.version ≠ 0 := by
  rcases h.server_eq with heq | ⟨hzero, -⟩
  · rw [heq]
    exact hs
  · exact hzero

/-- **A call that did not make the step is where it was**, with the same changes to its name. -/
theorem Step.frame (h : Step bucket value key s l t) {j : ι} (hj : ¬l.By j) :
    t.procs j = s.procs j ∧ changesOf t j = changesOf s j := by
  cases h with
  | @get i next fate answer hp ha =>
    have hne : j ≠ i := fun hji => hj hji.symm
    exact ⟨procs_answer_ne s hne _ _ _, changesOf_answer_same i j _ _ rfl⟩
  | @subdoc i cmd next fate answer v hp hkey ha =>
    have hne : j ≠ i := fun hji => hj hji.symm
    refine ⟨procs_answer_ne s hne _ _ _, ?_⟩
    rw [changesOf_answer, if_neg fun hc => hne hc.1.symm, List.append_nil]
  | other hv hzero => exact ⟨rfl, rfl⟩

variable {fate : Fate}

/-- A call with a get pending makes its step by an answer to it. -/
theorem Step.of_get {i : ι} {k : Bytes} {next : Answer Response → Proc Zval}
    (h : Step bucket value key s (.call i fate) t) (hp : s.procs i = .get k next) :
    ∃ answer, AnswersGet bucket value s.server fate answer ∧
      t = s.answer i true s.server (next answer) := by
  cases h with
  | get hp' ha =>
    rw [hp] at hp'
    cases hp'
    exact ⟨_, ha, rfl⟩
  | subdoc hp' hkey ha =>
    rw [hp] at hp'
    cases hp'

/-- A call with a subdocument command pending makes its step by an answer to it. -/
theorem Step.of_subdoc {i : ι} {cmd : SubdocCommand} {next : Answer SubdocResponse → Proc Zval}
    (h : Step bucket value key s (.call i fate) t) (hp : s.procs i = .subdoc cmd next) :
    ∃ answer v, ServesSubdoc s.server cmd fate answer v ∧
      t = s.answer i cmd.isLookup v (next answer) := by
  cases h with
  | get hp' ha =>
    rw [hp] at hp'
    cases hp'
  | subdoc hp' hkey ha =>
    rw [hp] at hp'
    cases hp'
    exact ⟨_, _, ha, rfl⟩

theorem Step.not_done {i : ι} {o : C (Outcome Zval)}
    (h : Step bucket value key s (.call i fate) t) : s.procs i ≠ .done o := by
  intro hp
  cases h with
  | get hp' ha =>
    rw [hp] at hp'
    cases hp'
  | subdoc hp' hkey ha =>
    rw [hp] at hp'
    cases hp'

/-- An end that returns nothing but `z`. -/
def EndsWith (z : Zval) (o : C (Outcome Zval)) : Prop := ∀ z', o = .ok (.returned z') → z' = z

theorem endsWith_returned (z : Zval) : EndsWith z (.ok (.returned z)) := by
  intro z' h
  cases h
  rfl

theorem endsWith_thrown (z : Zval) (e : Exn) : EndsWith z (.ok (.thrown e)) := by
  intro z' h
  cases h

theorem endsWith_error (z : Zval) (f : Fault) : EndsWith z (.error f) := by
  intro z' h
  cases h

/-- A call throws, or returns `z`. -/
def Settles (z : Zval) (o : C (Outcome Zval)) : Prop :=
  (∃ e, o = .ok (.thrown e)) ∨ o = .ok (.returned z)

theorem Settles.endsWith {z : Zval} {o : C (Outcome Zval)} (h : Settles z o) : EndsWith z o := by
  rcases h with ⟨e, rfl⟩ | rfl
  · exact endsWith_thrown z e
  · exact endsWith_returned z

theorem Settles.defined {z : Zval} {o : C (Outcome Zval)} (h : Settles z o) (f : Fault) :
    o ≠ .error f := by
  rcases h with ⟨e, rfl⟩ | rfl
  · exact nofun
  · exact nofun

/-- The first change of a call. -/
theorem changesOf_changed (s : System ι) (i : ι) (isLookup : Bool) {v : Server} (p : Proc Zval)
    (hc : changesOf s i = []) (hne : s.server.content ≠ v.content) :
    changesOf (s.answer i isLookup v p) i = [⟨i, isLookup, s.server.content, v.content⟩] := by
  rw [changesOf_answer, hc, if_pos ⟨rfl, hne⟩]
  rfl

/-! ## Paths -/

theorem indexPath_injective {m n : Nat} (hm : m < 2 ^ 63) (hn : n < 2 ^ 63)
    (h : indexPath (Int64.ofNat m) = indexPath (Int64.ofNat n)) : m = n := by
  unfold indexPath at h
  rw [List.append_assoc, List.append_assoc] at h
  have hdigits := List.append_cancel_right (List.append_cancel_left h)
  rw [printLong_ofNat hm, printLong_ofNat hn] at hdigits
  exact decimal_injective (by omega) (by omega) hdigits

/-- The path of a position is not the path of the last element. -/
theorem indexPath_ne_lastPath {n : Nat} (hn : n < 2 ^ 63) :
    indexPath (Int64.ofNat n) ≠ lastPath := by
  intro h
  have hlast : lastPath = ascii "[" ++ ascii "-1" ++ ascii "]" := rfl
  rw [hlast, indexPath, List.append_assoc, List.append_assoc] at h
  have hdigits := List.append_cancel_right (List.append_cancel_left h)
  rw [printLong_ofNat hn] at hdigits
  have hminus : (45 : UInt8) ∈ decimal n := by
    rw [hdigits]
    decide
  have hdigit := isDigit_of_mem_decimal hminus
  revert hdigit
  decide

theorem pathIndex_indexPath {elems : List Bytes} {n : Nat} (hn : n < elems.length)
    (hlt : elems.length < 2 ^ 63) : pathIndex elems (indexPath (Int64.ofNat n)) = some n := by
  rw [pathIndex, if_neg (indexPath_ne_lastPath (by omega)), List.find?_range_eq_some]
  refine ⟨by simp, List.mem_range.mpr hn, ?_⟩
  intro j hj
  have hne : indexPath (Int64.ofNat n) ≠ indexPath (Int64.ofNat j) := by
    intro h
    have := indexPath_injective (by omega) (by omega) h
    omega
  simpa using hne

theorem pathIndex_lastPath_append (elems : List Bytes) (e : Bytes) :
    pathIndex (elems ++ [e]) lastPath = some elems.length := by
  rw [pathIndex, if_pos rfl, if_neg (by simp)]
  simp

theorem pathIndex_lastPath_nil : pathIndex [] lastPath = none := rfl

/-! ## Removals -/

/-- The command that removes one element. -/
def removeCommand (key path : Bytes) (cas : UInt64) : SubdocCommand :=
  ⟨key, [removeSpec path noOptions], cas⟩

theorem applySpecs_remove (elems : List Bytes) (path : Bytes) :
    applySpecs elems [removeSpec path noOptions] =
      (pathIndex elems path).map elems.eraseIdx := by
  rw [applySpecs, List.foldlM_cons]
  show ((pathIndex elems path).map elems.eraseIdx >>= fun l => some l) = _
  cases (pathIndex elems path).map elems.eraseIdx <;> rfl

end PhpCouchbase
