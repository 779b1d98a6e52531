import PhpCouchbase.ListServer
import PhpCouchbase.Base36Codec

/-!
# `setRemove` among other clients

`Bucket::setRemove` of `bucket.c` reads the document, looks for the value and removes the position
it found under the CAS of the reading.  Whatever `bucket/subdoc.c` leaves of the second request is
read as the answer: an error is false, also where the server did the removal, and after a request
that libcouchbase refused the return value that is read was destroyed before.

* `set_remove_linearizable` — in a run a call removes at most one element, which is identical to the
  value when it goes, and says whether it removed one, **exactly when** its removal is answered.
* `lost_removal_returns_false` — a removal that was done and timed out, and one that was refused.
-/

set_option autoImplicit false

namespace PhpCouchbase

variable {ι : Type} [DecidableEq ι]

/-! ## What is claimed of one call -/

/-- The request took one element out, which was identical to the value. -/
structure TakesIdentical (php : Php) (value : Bytes → Zval) (val : Zval) (x : Served ι) : Prop where
  taken : ∃ elems n, ∃ h : n < elems.length, x.before = .list elems ∧
    x.after = .list (elems.eraseIdx n) ∧ zendIsIdentical php val (value elems[n]) = true

/-- What a call of `setRemove` did so far, and what it said. -/
structure RemovesOne (php : Php) (value : Bytes → Zval) (val : Zval) (s : System ι) (i : ι) :
    Prop where
  once : (changesOf s i).length ≤ 1
  identical : ∀ x ∈ changesOf s i, TakesIdentical php value val x
  answers : ∀ z, s.procs i = .done (.ok (.returned z)) →
    z = .true ∧ changesOf s i ≠ [] ∨ z = .false ∧ changesOf s i = []
  throws : ∀ e, s.procs i = .done (.ok (.thrown e)) → changesOf s i = []
  defined : ∀ f, s.procs i ≠ .done (.error f)

/-- The condition: the removal of the call is answered, it is neither refused nor done and reported
as failed. -/
def RemovalAnswered (i : ι) (s : System ι) (l : Label ι) : Prop :=
  ∀ fate cmd next, l = .call i fate → s.procs i = .subdoc cmd next → fate = .answered

/-! ## The reading -/

variable {php : Php} {bucket : BucketConf} {value : Bytes → Zval} {key : Bytes} {val : Zval}

theorem setRemove_eq : setRemove php bucket (.string key) val =
    .get key (setRemoveRead php bucket key val) := rfl

theorem getOutcome_returned {answer : Answer Response} {doc : Document}
    (h : getOutcome bucket answer = .ok (.returned doc)) :
    ∃ resp, answer = .response resp ∧ resp.rc = .success ∧ getDocument bucket resp = .ok doc := by
  cases answer with
  | refused err herr => cases h
  | response resp =>
    rw [getOutcome] at h
    split at h
    · rename_i hrc
      obtain ⟨doc', hdoc, h⟩ := C.bind_eq_ok.mp h
      cases h
      exact ⟨resp, rfl, hrc, hdoc⟩
    · cases h

/-- The CAS of a document is the CAS of its response. -/
theorem getDocument_cas {resp : Response} {doc : Document}
    (h : getDocument bucket resp = .ok doc) : casDecode doc.cas = resp.cas := by
  rw [(MadeWith.decode h).properties.1, casDecode_casEncode]

/-- The document of a list has the values of its elements. -/
theorem getDocument_list {elems : List Bytes} {resp : Response} {doc : Document}
    (hreads : ReadsAs bucket value elems resp) (h : getDocument bucket resp = .ok doc) :
    ∃ kvs, doc.value = .array kvs ∧ kvs.map Prod.snd = elems.map value := by
  obtain ⟨hsize, hlimit, kvs, hdecoded, hkvs⟩ := hreads
  have hlen : narrowInt resp.value.length ≠ 0 := by
    rw [narrowInt_of_lt hlimit]
    omega
  rw [getDocument, documentInitDecode, if_pos hlen, decodeValue, prefixOf_narrowInt hlimit,
    C.bind_ok, hdecoded] at h
  cases h
  exact ⟨kvs, rfl, hkvs⟩

/-- A document of less than 2^31 bytes is decoded. -/
theorem getDocument_ok {resp : Response} (h : resp.value.length < 2 ^ 31) :
    ∃ doc, getDocument bucket resp = .ok doc := by
  rw [getDocument, documentInitDecode]
  split
  · rw [decodeValue, prefixOf_narrowInt h]
    exact ⟨_, rfl⟩
  · exact ⟨_, rfl⟩

/-- The answer to a get leaves a document or an exception. -/
theorem AnswersGet.outcome {v : Server} {fate : Fate} {answer : Answer Response}
    (ha : AnswersGet bucket value v fate answer) :
    (∃ e, getOutcome bucket answer = .ok (.thrown e)) ∨
      ∃ doc, getOutcome bucket answer = .ok (.returned doc) := by
  have hdoc : ∀ resp : Response, resp.rc = .success → resp.value.length < 2 ^ 31 →
      ∃ doc, getOutcome bucket (.response resp) = .ok (.returned doc) := by
    intro resp hrc hlimit
    obtain ⟨doc, hdoc⟩ := @getDocument_ok bucket _ hlimit
    refine ⟨doc, ?_⟩
    rw [getOutcome, if_pos hrc, hdoc]
    rfl
  cases ha with
  | refused err h => exact .inl ⟨_, rfl⟩
  | failed resp hrc => exact .inl ⟨_, if_neg hrc⟩
  | list hc hrc hcas hreads => exact .inr (hdoc _ hrc hreads.limit)
  | other hc hrc hcas hlimit => exact .inr (hdoc _ hrc hlimit)

/-- What the search found, when the document was a list. -/
def FoundIn (php : Php) (value : Bytes → Zval) (val : Zval) (v : Server) (found : Nat) : Prop :=
  ∀ elems, v.content = .list elems → elems.length < 2 ^ 31 ∧
    ∃ h : found < elems.length, zendIsIdentical php val (value elems[found]) = true

theorem searchIdentical_some {elems : List Bytes} {kvs : List (ArrayKey × Zval)} {found : Nat}
    (hkvs : kvs.map Prod.snd = elems.map value)
    (h : searchIdentical php val kvs = some found) :
    ∃ h : found < elems.length, zendIsIdentical php val (value elems[found]) = true := by
  obtain ⟨hlt, hid, -⟩ := List.findIdx?_eq_some_iff_getElem.mp h
  have hlen : kvs.length = elems.length := by
    have := congrArg List.length hkvs
    rwa [List.length_map, List.length_map] at this
  have hlt' : found < elems.length := hlen ▸ hlt
  have hval : kvs[found].2 = value elems[found] := by
    have hget := List.getElem_of_eq hkvs (by rwa [List.length_map] : found < _)
    rwa [List.getElem_map, List.getElem_map] at hget
  rw [hval] at hid
  exact ⟨hlt', hid⟩

/-- **After the reading** the call has ended, or it removes what it found under the CAS of the
document. -/
theorem setRemoveRead_spec (php : Php) (key : Bytes) (val : Zval) {v : Server} {fate : Fate}
    {answer : Answer Response}
    (ha : AnswersGet bucket value v fate answer) :
    (∃ o, setRemoveRead php bucket key val answer = .done o ∧ Settles .false o) ∨
    ∃ found, setRemoveRead php bucket key val answer =
      setRemoveFound php bucket key v.version found ∧ FoundIn php value val v found := by
  unfold setRemoveRead
  rcases ha.outcome with ⟨e, hget⟩ | ⟨doc, hget⟩
  · rw [hget]
    exact .inl ⟨_, rfl, .inl ⟨e, rfl⟩⟩
  · obtain ⟨resp, rfl, hrc, hdoc⟩ := getOutcome_returned hget
    rw [hget]
    dsimp only
    unfold setRemoveFrom
    split
    · rename_i kvs hvalue
      split
      · rename_i found hsearch
        right
        rw [getDocument_cas hdoc]
        cases ha with
        | failed _ hfailed => exact absurd hrc hfailed
        | list hc _ hcas hreads =>
          refine ⟨found, by rw [hcas], ?_⟩
          intro elems helems
          rw [hc] at helems
          cases helems
          obtain ⟨kvs', hvalue', hkvs⟩ := getDocument_list hreads hdoc
          rw [hvalue] at hvalue'
          cases hvalue'
          exact ⟨hreads.size.trans hreads.limit, searchIdentical_some hkvs hsearch⟩
        | other hc _ hcas hlimit =>
          refine ⟨found, by rw [hcas], ?_⟩
          intro elems helems
          rw [hc] at helems
          cases helems
      · exact .inl ⟨_, rfl, .inr rfl⟩
    · exact .inl ⟨_, rfl, .inr rfl⟩

/-! ## The removal -/

theorem setRemoveFound_eq (cas : UInt64) (found : Nat) :
    setRemoveFound php bucket key cas found =
      .subdoc (removeCommand key (indexPath (Int64.ofNat found)) cas) fun answer =>
        setRemoveEnd (requested php bucket
          (removeCommand key (indexPath (Int64.ofNat found)) cas) answer) :=
  bucketSubdocRequest_send php bucket (List.cons_ne_nil _ _) setRemoveEnd

theorem setRemoveEnd_error {cmd : SubdocCommand} {resp : SubdocResponse}
    (hrc : resp.rc ≠ .success) :
    setRemoveEnd (requested php bucket cmd (.response resp)) = .done (.ok (.returned .false)) := by
  have herr : (fragmentOf php bucket cmd resp).error.isSome = true :=
    Option.isSome_iff_ne_none.mpr fun h => hrc ((fragmentOf_error php bucket cmd resp).mp h)
  rw [requested, setRemoveEnd, if_pos herr]

theorem setRemoveEnd_success {cmd : SubdocCommand} {resp : SubdocResponse}
    (hrc : resp.rc = .success) :
    setRemoveEnd (requested php bucket cmd (.response resp)) = .done (.ok (.returned .true)) := by
  have herr := (fragmentOf_error php bucket cmd resp).mpr hrc
  rw [requested, setRemoveEnd, herr]
  rfl

theorem eraseIdx_ne {elems : List Bytes} {n : Nat} (h : n < elems.length) :
    elems.eraseIdx n ≠ elems := by
  intro heq
  have := congrArg List.length heq
  rw [List.length_eraseIdx_of_lt h] at this
  omega

/-- What the guard of a removal that the server carries out comes to: the document is the one that
was read, and the element that was found goes. -/
theorem removal_applied {u v : Server} {found : Nat} {elems elems' : List Bytes}
    (hzero : v.version ≠ 0) (hlater : v.Later u) (hfound : FoundIn php value val v found)
    (hc : u.content = .list elems) (hguard : v.version = 0 ∨ v.version = u.version)
    (happly : applySpecs elems [removeSpec (indexPath (Int64.ofNat found)) noOptions] = some elems') :
    ∃ h : found < elems.length, elems' = elems.eraseIdx found ∧
      zendIsIdentical php val (value elems[found]) = true := by
  obtain rfl := hlater.eq_of_version (hguard.resolve_left hzero).symm
  obtain ⟨hlen, hlt, hid⟩ := hfound elems hc
  refine ⟨hlt, ?_, hid⟩
  have hindex := pathIndex_indexPath hlt (by omega : elems.length < 2 ^ 63)
  rw [applySpecs_remove, hindex, Option.map_some] at happly
  exact (Option.some.inj happly).symm

/-- **An answered removal** either leaves the document and the call returns false, or it takes the
element that was found, which is still there, and the call returns true. -/
theorem setRemoveFound_spec (bucket : BucketConf) {u v w : Server} {found : Nat}
    {answer : Answer SubdocResponse}
    (hzero : v.version ≠ 0) (hlater : v.Later u) (hfound : FoundIn php value val v found)
    (ha : ServesSubdoc u (removeCommand key (indexPath (Int64.ofNat found)) v.version) .answered
      answer w) :
    (w.content = u.content ∧ setRemoveEnd (requested php bucket
      (removeCommand key (indexPath (Int64.ofNat found)) v.version) answer) =
        .done (.ok (.returned .false))) ∨
    (∃ elems, ∃ h : found < elems.length, u.content = .list elems ∧
      w.content = .list (elems.eraseIdx found) ∧
      zendIsIdentical php val (value elems[found]) = true ∧
      setRemoveEnd (requested php bucket
        (removeCommand key (indexPath (Int64.ofNat found)) v.version) answer) =
          .done (.ok (.returned .true))) := by
  cases ha with
  | failed resp hrc hmulti => exact .inl ⟨rfl, setRemoveEnd_error hrc⟩
  | lookup hl hc hcas hvalues hrc => cases hl
  | lookupOther hl hc hrc => cases hl
  | @notApplied resp hl hguard hnone hrc =>
    have hne : resp.rc ≠ .success := by
      rw [hrc]
      decide
    exact .inl ⟨rfl, setRemoveEnd_error hne⟩
  | @applied elems elems' resp _ hl hc hguard happly hw hwzero hrc hcas =>
    obtain ⟨hlt, herase, hid⟩ := removal_applied hzero hlater hfound hc hguard happly
    exact .inr ⟨elems, hlt, hc, by rw [hw.content, herase], hid, setRemoveEnd_success hrc⟩

/-- **A lost or a refused removal**: it takes the element and the call returns false, or the call
reads the return value that it destroyed. -/
theorem setRemoveFound_unanswered (bucket : BucketConf) {u v w : Server} {found : Nat} {fate : Fate}
    {answer : Answer SubdocResponse}
    (hzero : v.version ≠ 0) (hlater : v.Later u) (hfound : FoundIn php value val v found)
    (ha : ServesSubdoc u (removeCommand key (indexPath (Int64.ofNat found)) v.version) fate answer w)
    (hfate : fate ≠ .answered) :
    setRemoveEnd (requested php bucket
      (removeCommand key (indexPath (Int64.ofNat found)) v.version) answer) = .done (.error .freed) ∨
    (u.content ≠ w.content ∧ setRemoveEnd (requested php bucket
      (removeCommand key (indexPath (Int64.ofNat found)) v.version) answer) =
        .done (.ok (.returned .false))) := by
  cases ha with
  | refused err h => exact .inl rfl
  | @unanswered elems elems' resp _ hl hc hguard happly hw hwzero hrc =>
    obtain ⟨hlt, herase, -⟩ := removal_applied hzero hlater hfound hc hguard happly
    refine .inr ⟨?_, setRemoveEnd_error hrc⟩
    rw [hc, hw.content, herase]
    intro heq
    exact eraseIdx_ne hlt (Content.list.inj heq).symm
  | _ => exact absurd rfl hfate

/-! ## One call in a run -/

/-- Where a call of `setRemove` is. -/
inductive SetRemovePhase (php : Php) (bucket : BucketConf) (value : Bytes → Zval) (key : Bytes)
    (val : Zval) (s : System ι) (i : ι) : Prop where
  | start (hp : s.procs i = setRemove php bucket (.string key) val) (hc : changesOf s i = [])
  | found (v : Server) (found : Nat)
      (hp : s.procs i = setRemoveFound php bucket key v.version found) (hzero : v.version ≠ 0)
      (hlater : v.Later s.server) (hfound : FoundIn php value val v found)
      (hc : changesOf s i = [])
  | ended (o : C (Outcome Zval)) (hp : s.procs i = .done o) (ho : Settles .false o)
      (hc : changesOf s i = [])
  | removed (x : Served ι) (hp : s.procs i = .done (.ok (.returned .true)))
      (hx : TakesIdentical php value val x) (hc : changesOf s i = [x])

/-- A call that has not ended. -/
theorem RemovesOne.of_pending {s : System ι} {i : ι} (hp : ∀ o, s.procs i ≠ .done o)
    (hc : changesOf s i = []) : RemovesOne php value val s i where
  once := by simp [hc]
  identical := by simp [hc]
  answers z hz := absurd hz (hp _)
  throws e he := absurd he (hp _)
  defined f := hp _

theorem SetRemovePhase.removesOne {s : System ι} {i : ι}
    (h : SetRemovePhase php bucket value key val s i) : RemovesOne php value val s i := by
  cases h with
  | start hp hc =>
    refine .of_pending (fun o ho => ?_) hc
    rw [hp] at ho
    cases ho
  | found v found hp hzero hlater hfound hc =>
    refine .of_pending (fun o ho => ?_) hc
    rw [hp, setRemoveFound_eq] at ho
    cases ho
  | ended o hp ho hc =>
    refine ⟨by simp [hc], by simp [hc], ?_, fun _ _ => hc, ?_⟩
    · intro z hz
      rw [hp, Proc.done.injEq] at hz
      exact .inr ⟨ho.endsWith z hz, hc⟩
    · intro f hf
      rw [hp, Proc.done.injEq] at hf
      exact ho.defined f hf
  | removed x hp hx hc =>
    refine ⟨by simp [hc], by simpa [hc] using hx, ?_, ?_, ?_⟩
    · intro z hz
      rw [hp] at hz
      cases hz
      exact .inl ⟨rfl, by simp [hc]⟩
    · intro e he
      rw [hp] at he
      cases he
    · intro f hf
      rw [hp] at hf
      cases hf

/-- A step of somebody else. -/
theorem SetRemovePhase.frame {s t : System ι} {i : ι} {l : Label ι}
    (h : SetRemovePhase php bucket value key val s i) (hstep : Step bucket value key s l t)
    (hl : ¬l.By i) : SetRemovePhase php bucket value key val t i := by
  obtain ⟨hprocs, hchanges⟩ := hstep.frame hl
  cases h with
  | start hp hc => exact .start (hprocs.trans hp) (hchanges.trans hc)
  | found v found hp hzero hlater hfound hc =>
    exact .found v found (hprocs.trans hp) hzero (hstep.later hlater) hfound (hchanges.trans hc)
  | ended o hp ho hc => exact .ended o (hprocs.trans hp) ho (hchanges.trans hc)
  | removed x hp hx hc => exact .removed x (hprocs.trans hp) hx (hchanges.trans hc)

/-- A step of the call whose condition holds. -/
theorem SetRemovePhase.call {s t : System ι} {i : ι} {fate : Fate} (hs : s.server.version ≠ 0)
    (h : SetRemovePhase php bucket value key val s i)
    (hgood : RemovalAnswered i s (.call i fate))
    (hstep : Step bucket value key s (.call i fate) t) :
    SetRemovePhase php bucket value key val t i := by
  cases h with
  | start hp hc =>
    obtain ⟨answer, ha, rfl⟩ := hstep.of_get (hp.trans setRemove_eq)
    have hc' := fun p => (changesOf_answer_same i i true (v := s.server) p rfl).trans hc
    rcases setRemoveRead_spec php key val ha with ⟨o, ho, hfalse⟩ | ⟨found, hfound, hin⟩
    · exact .ended o ((procs_answer_self ..).trans ho) hfalse (hc' _)
    · exact .found s.server found ((procs_answer_self ..).trans hfound) hs (.refl _) hin (hc' _)
  | found v found hp hzero hlater hfound hc =>
    have hpending := hp.trans (setRemoveFound_eq v.version found)
    obtain rfl := hgood fate _ _ rfl hpending
    obtain ⟨answer, w, ha, rfl⟩ := hstep.of_subdoc hpending
    rcases setRemoveFound_spec bucket hzero hlater hfound ha with
      ⟨hsame, hend⟩ | ⟨elems, hlt, hbefore, hafter, hid, hend⟩
    · exact .ended _ ((procs_answer_self ..).trans hend) (.inr rfl)
        ((changesOf_answer_same i i _ _ hsame).trans hc)
    · have hne : s.server.content ≠ w.content := by
        rw [hbefore, hafter]
        intro heq
        exact eraseIdx_ne hlt (Content.list.inj heq).symm
      exact .removed _ ((procs_answer_self ..).trans hend)
        ⟨elems, found, hlt, hbefore, hafter, hid⟩ (changesOf_changed s i _ _ hc hne)
  | ended o hp ho hc => exact absurd hp hstep.not_done
  | removed x hp hx hc => exact absurd hp hstep.not_done

/-- A step of the call whose condition fails. -/
theorem SetRemovePhase.unanswered {s t : System ι} {i : ι} {fate : Fate} {cmd : SubdocCommand}
    {next : Answer SubdocResponse → Proc Zval} (h : SetRemovePhase php bucket value key val s i)
    (hpending : s.procs i = .subdoc cmd next) (hfate : fate ≠ .answered)
    (hstep : Step bucket value key s (.call i fate) t) : ¬RemovesOne php value val t i := by
  intro hone
  cases h with
  | start hp hc =>
    rw [hp] at hpending
    cases hpending
  | found v found hp hzero hlater hfound hc =>
    obtain ⟨answer, w, ha, rfl⟩ := hstep.of_subdoc (hp.trans (setRemoveFound_eq v.version found))
    rcases setRemoveFound_unanswered bucket hzero hlater hfound ha hfate with hfreed | ⟨hne, hend⟩
    · exact hone.defined _ ((procs_answer_self ..).trans hfreed)
    · rcases hone.answers _ ((procs_answer_self ..).trans hend) with ⟨htrue, -⟩ | ⟨-, hnone⟩
      · cases htrue
      · rw [changesOf_changed s i _ _ hc hne] at hnone
        cases hnone
  | ended o hp ho hc =>
    rw [hp] at hpending
    cases hpending
  | removed x hp hx hc =>
    rw [hp] at hpending
    cases hpending

/-- What every step keeps whose condition holds. -/
structure SetRemoveInv (php : Php) (bucket : BucketConf) (value : Bytes → Zval) (key : Bytes)
    (val : Zval) (i : ι) (s : System ι) : Prop where
  cas : s.server.version ≠ 0
  phase : SetRemovePhase php bucket value key val s i

theorem SetRemoveInv.step {s t : System ι} {i : ι} {l : Label ι}
    (h : SetRemoveInv php bucket value key val i s) (hgood : RemovalAnswered i s l)
    (hstep : Step bucket value key s l t) : SetRemoveInv php bucket value key val i t := by
  refine ⟨hstep.version_ne_zero h.cas, ?_⟩
  cases l with
  | call j fate =>
    by_cases hj : j = i
    · subst hj
      exact h.phase.call h.cas hgood hstep
    · exact h.phase.frame hstep hj
  | other => exact h.phase.frame hstep fun hl => hl

/-- **`setRemove` is linearizable** in exactly the runs in which its removal is answered, whatever
other calls and other clients do in between: in every state the call `i` has removed at most one
element, identical to the value when it went, and when it has returned it said true exactly if it
removed one. -/
theorem set_remove_linearizable {s : System ι} {i : ι} {p : List (Label ι × System ι)}
    (hcall : s.procs i = setRemove php bucket (.string key) val) (hserved : s.served = [])
    (hcas : s.server.version ≠ 0)
    (hrun : StepSystem.Path (Step bucket value key) s p) :
    (∀ x ∈ p, RemovesOne php value val x.2 i) ↔ StepSystem.Meets (RemovalAnswered i) s p := by
  have hc : changesOf s i = [] := by
    rw [changesOf, hserved]
    rfl
  have hstart : SetRemoveInv php bucket value key val i s := ⟨hcas, .start hcall hc⟩
  refine hrun.forall_iff_meets_of_inv hstart (fun s h => h.phase.removesOne)
    (fun s l t h hgood hstep => h.step hgood hstep) fun s l t h hbad hstep => ?_
  unfold RemovalAnswered at hbad
  push Not at hbad
  obtain ⟨fate, cmd, next, rfl, hpending, hfate⟩ := hbad
  exact h.phase.unanswered hpending hfate hstep

/-! ## A concrete run -/

/-- A decoder that knows one document, `["x","y"]`. -/
def setBucket : BucketConf where
  bucketname := CString.ofBytes (ascii "default")
  decoder bytes _ _ :=
    match bytes with
    | .string s =>
      if s = ascii "[" ++ quoted "x" ++ ascii "," ++ quoted "y" ++ ascii "]" then
        .array [(.index 0, .string (ascii "x")), (.index 1, .string (ascii "y"))]
      else .null
    | _ => .null

/-- The set and its CAS. -/
def setServer : Server := ⟨.list [quoted "x", quoted "y"], 7, []⟩

def setServerAfter : Server := ⟨.list [quoted "y"], 8, [7]⟩

/-- One call of `setRemove("k", "x")`. -/
def setStart : System Unit :=
  ⟨setServer, fun _ => setRemove plainPhp setBucket (.string (ascii "k")) (.string (ascii "x")), []⟩

def setGetResponse : Response :=
  ⟨.success, ascii "[" ++ quoted "x" ++ ascii "," ++ quoted "y" ++ ascii "]", 0, 0, 7, 0, none⟩

/-- The removal of position 0. -/
def setRemoveCommand : SubdocCommand := removeCommand (ascii "k") (indexPath 0) 7

def setRemoveResponse : SubdocResponse := ⟨.success, 8, none, []⟩

def setRead : System Unit :=
  setStart.answer () true setServer (setRemoveRead plainPhp setBucket (ascii "k")
    (.string (ascii "x")) (.response setGetResponse))

def setDone : System Unit :=
  setRead.answer () false setServerAfter
    (setRemoveEnd (requested plainPhp setBucket setRemoveCommand (.response setRemoveResponse)))

theorem setRead_pending : setRead.procs () = .subdoc setRemoveCommand fun answer =>
    setRemoveEnd (requested plainPhp setBucket setRemoveCommand answer) := rfl

theorem setRead_step : Step setBucket plainPhp.jsonDecode (ascii "k") setStart (.call () .answered)
    setRead := by
  have hget : AnswersGet setBucket plainPhp.jsonDecode setServer .answered
      (.response setGetResponse) :=
    .list rfl rfl rfl ⟨by decide, by decide, _, rfl, rfl⟩
  exact .get rfl hget

/-- The run of one call with a fate of its removal. -/
theorem setPath {fate : Fate} {answer : Answer SubdocResponse} {w : Server}
    (ha : ServesSubdoc setServer setRemoveCommand fate answer w) :
    StepSystem.Path (Step setBucket plainPhp.jsonDecode (ascii "k")) setStart
      [(.call () .answered, setRead), (.call () fate, setRead.answer () false w
        (setRemoveEnd (requested plainPhp setBucket setRemoveCommand answer)))] :=
  .cons setRead_step (.cons (Step.subdoc setRead_pending rfl ha) (.nil _))

theorem setRun : StepSystem.Path (Step setBucket plainPhp.jsonDecode (ascii "k")) setStart
    [(.call () .answered, setRead), (.call () .answered, setDone)] :=
  setPath (.applied rfl rfl (Or.inr rfl) rfl ⟨rfl, rfl, by decide⟩ (by decide) rfl rfl)

/-- The call removes `x` and returns true. -/
theorem set_remove_x :
    RemovesOne plainPhp plainPhp.jsonDecode (.string (ascii "x")) setDone () ∧
    setDone.procs () = .done (.ok (.returned .true)) := by
  have hmeets : StepSystem.Meets (RemovalAnswered ()) setStart
      [(.call () .answered, setRead), (.call () .answered, setDone)] := by
    refine ⟨?_, ?_, trivial⟩
    · intro fate cmd next hl _
      exact (Label.call.inj hl).2.symm
    · intro fate cmd next hl _
      exact (Label.call.inj hl).2.symm
  exact ⟨(set_remove_linearizable rfl rfl (by decide) setRun).mpr hmeets
    (.call () .answered, setDone) (by simp), rfl⟩

/-- The server removed `x`, and the answer is `LCB_ETIMEDOUT`. -/
def setLost : System Unit :=
  setRead.answer () false setServerAfter
    (setRemoveEnd (requested plainPhp setBucket setRemoveCommand (.response ⟨.other 23, 0, none, []⟩)))

/-- libcouchbase refuses the removal. -/
def setRefused : System Unit :=
  setRead.answer () false setServer
    (setRemoveEnd (requested plainPhp setBucket setRemoveCommand (.refused .error (by decide))))

/-- **A removal that was done and timed out** returns false; after one that was refused the call
reads what it destroyed. -/
theorem lost_removal_returns_false :
    (StepSystem.Path (Step setBucket plainPhp.jsonDecode (ascii "k")) setStart
      [(.call () .answered, setRead), (.call () .lost, setLost)] ∧
    setLost.server.content = .list [quoted "y"] ∧
    setLost.procs () = .done (.ok (.returned .false)) ∧
    ¬RemovesOne plainPhp plainPhp.jsonDecode (.string (ascii "x")) setLost ()) ∧
    StepSystem.Path (Step setBucket plainPhp.jsonDecode (ascii "k")) setStart
      [(.call () .answered, setRead), (.call () .refused, setRefused)] ∧
    setRefused.procs () = .done (.error .freed) ∧
    ¬RemovesOne plainPhp plainPhp.jsonDecode (.string (ascii "x")) setRefused () := by
  refine ⟨⟨setPath (.unanswered rfl rfl (Or.inr rfl) rfl ⟨rfl, rfl, by decide⟩ (by decide) (by decide)),
    rfl, rfl, ?_⟩, setPath (.refused _ _), rfl, ?_⟩
  · intro hone
    rcases hone.answers .false rfl with ⟨htrue, -⟩ | ⟨-, hnone⟩
    · cases htrue
    · cases hnone
  · intro hone
    exact hone.defined .freed rfl

end PhpCouchbase
