import PhpCouchbase.ListServer

/-!
# A queue and its clients

`queueAdd` and `queueRemove` of `bucket.c`.  `queueAdd` prepends, `queueRemove` looks at the last
element and removes it under the CAS of the lookup.  An error fragment of `bucket/subdoc.c` has no
CAS: after a lookup that found the list empty the removal goes out without one.

* `queue_safe` — nothing is lost, doubled or reordered in a run in which the list is **still empty**
  whenever a call that found it empty sends its removal, and exactly then.
* `refilled_queue_loses` — a run in which it is not: an element leaves the queue and nobody gets it.
-/

set_option autoImplicit false

namespace PhpCouchbase

variable {ι : Type} [DecidableEq ι]

/-! ## The clients -/

/-- The calls on a queue. -/
inductive QueueCall where
  | add (val : Zval)
  | remove

def QueueCall.proc (php : Php) (bucket : BucketConf) (key : Bytes) : QueueCall → Proc Zval
  | .add val => queueAdd php bucket key val
  | .remove => queueRemove php bucket key

/-- A step of one of the calls, whose request is refused, or answered as it was served. -/
def QueueStep (bucket : BucketConf) (value : Bytes → Zval) (key : Bytes) (s : System ι) (i : ι)
    (t : System ι) : Prop := ∃ fate, fate ≠ .lost ∧ Step bucket value key s (.call i fate) t

/-- The lookup of the call came upon the empty list. -/
def SawEmpty (s : System ι) (i : ι) : Prop :=
  ∃ x ∈ s.served, x.call = i ∧ x.isLookup = true ∧ x.before = .list []

/-- The condition: when the call goes on after such a lookup, the list is still empty. -/
def StillEmpty (s : System ι) (i : ι) : Prop := SawEmpty s i → s.server.content = .list []

/-! ## What is claimed of a queue -/

/-- The element that left the list with a request. -/
def Served.taken (x : Served ι) : Option Bytes :=
  match x.before, x.after with
  | .list l, .list l' => if l'.length < l.length then l.getLast? else none
  | _, _ => none

/-- The element that came into the list with a request. -/
def Served.added (x : Served ι) : Option Bytes :=
  match x.before, x.after with
  | .list l, .list l' => if l.length < l'.length then l'.head? else none
  | _, _ => none

/-- The elements that left, in their order. -/
def takenIn (s : System ι) : List Bytes := s.served.filterMap Served.taken

/-- The elements that came, in their order. -/
def addedIn (s : System ι) : List Bytes := s.served.filterMap Served.added

/-- A change of the list: one element added in front, or the last one taken by the call that
returns it. -/
inductive QueueChange (php : Php) (calls : ι → QueueCall) (s : System ι) (x : Served ι) :
    Prop where
  | added (val : Zval) (text : Bytes) (elems : List Bytes) (hcall : calls x.call = .add val)
      (htext : php.jsonEncode val = some text) (hbefore : x.before = .list elems)
      (hafter : x.after = .list (text :: elems))
  | taken (elems : List Bytes) (e : Bytes) (hcall : calls x.call = .remove)
      (hbefore : x.before = .list (elems ++ [e])) (hafter : x.after = .list elems)
      (hret : s.procs x.call = .done (.ok (.returned (entryZval php e))))

/-- Nothing was lost, doubled or reordered so far. -/
structure QueueSafe (php : Php) (calls : ι → QueueCall) (initial : List Bytes) (s : System ι) :
    Prop where
  changes : ∀ x ∈ s.served, x.before ≠ x.after → QueueChange php calls s x
  once : ∀ i, (changesOf s i).length ≤ 1
  emptyLookup : ∀ i, SawEmpty s i → changesOf s i = []
  emptyHanded : ∀ i z, calls i = .remove → changesOf s i = [] →
    s.procs i = .done (.ok (.returned z)) → z = .null
  fifo : ∃ elems, s.server.content = .list elems ∧
    takenIn s ++ elems.reverse = initial.reverse ++ addedIn s

/-! ## The requests of a queue -/

variable {php : Php} {bucket : BucketConf} {value : Bytes → Zval} {key : Bytes}

/-- The command of `queueAdd`. -/
def prependCommand (key text : Bytes) : SubdocCommand :=
  ⟨key, [⟨.arrayAddFirst, [], text, mkIntermediates⟩], 0⟩

/-- The command of the lookup. -/
def lastCommand (key : Bytes) : SubdocCommand := ⟨key, [⟨.get, lastPath, [], noOptions⟩], 0⟩

theorem queueAdd_eq {val : Zval} {text : Bytes} (h : php.jsonEncode val = some text) :
    queueAdd php bucket key val = .subdoc (prependCommand key text) fun answer =>
      mutateEnd (php.encode val).thrown (requested php bucket (prependCommand key text) answer) := by
  have hbuild : mutateInBuilderArrayPrepend php (mutateInBuilderInit key 0) [] val mkIntermediates =
      some ⟨key, 0, [⟨.arrayAddFirst, [], text, mkIntermediates⟩]⟩ := by
    unfold mutateInBuilderArrayPrepend MutateInBuilder.addEncoded encodedSpec
    rw [h]
    rfl
  unfold queueAdd listShift mutateValue
  simp only [hbuild, Option.getD_some]
  exact bucketSubdocRequest_send php bucket (List.cons_ne_nil _ _) (mutateEnd _)

theorem queueAdd_unencodable {val : Zval} (h : php.jsonEncode val = none) :
    queueAdd php bucket key val = mutateEnd (php.encode val).thrown .skipped := by
  have hbuild : mutateInBuilderArrayPrepend php (mutateInBuilderInit key 0) [] val mkIntermediates =
      none := by
    unfold mutateInBuilderArrayPrepend MutateInBuilder.addEncoded encodedSpec
    rw [h]
    rfl
  unfold queueAdd listShift mutateValue
  simp only [hbuild, Option.getD_none]
  rfl

/-- A method that drops its fragment returns null, if it does not throw. -/
theorem mutateEnd_ends (thrown : Bool) (r : Requested) :
    ∃ o, mutateEnd thrown r = .done o ∧ Settles .null o := by
  have hend : Settles .null (.ok (if thrown then .thrown .user else .returned .null)) := by
    cases thrown with
    | true => exact .inl ⟨_, rfl⟩
    | false => exact .inr rfl
  cases r with
  | skipped => exact ⟨_, rfl, hend⟩
  | threw e => exact ⟨_, rfl, .inl ⟨e, rfl⟩⟩
  | fragment f => exact ⟨_, rfl, hend⟩

theorem queueRemove_eq :
    queueRemove php bucket key = .subdoc (lastCommand key) fun answer =>
      queueRemoveRead php bucket key (requested php bucket (lastCommand key) answer) :=
  bucketSubdocRequest_send php bucket (List.cons_ne_nil _ _) _

theorem queueRemoveFound_eq (val : Zval) (f : DocumentFragment) :
    queueRemoveFound php bucket key val f =
      .subdoc (removeCommand key lastPath (casDecode f.cas)) fun answer =>
        queueRemoveEnd val f
          (requested php bucket (removeCommand key lastPath (casDecode f.cas)) answer) :=
  bucketSubdocRequest_send php bucket (List.cons_ne_nil _ _) _

/-! ## The lookup -/

/-- The value of the only entry of a lookup. -/
theorem fetchFirst_fragmentOf {cmd : SubdocCommand} {resp : SubdocResponse} {e : Bytes}
    (hl : cmd.isLookup = true) (hrc : resp.rc = .success ∨ resp.rc = .subdocMultiFailure)
    (hvalues : resp.entries.map SdEntry.value = [e]) :
    fetchFirst (fragmentOf php bucket cmd resp) = some (entryZval php e) := by
  obtain ⟨ent, hent, hvalue⟩ := List.map_eq_singleton_iff.mp hvalues
  rw [fetchFirst, fragmentOf_value_eq php bucket hrc, subdocCallback, hent, hl, ← hvalue]
  rfl

theorem fetchFirst_failed {cmd : SubdocCommand} {resp : SubdocResponse}
    (hrc : resp.rc ≠ .success) (hmulti : resp.rc ≠ .subdocMultiFailure) :
    fetchFirst (fragmentOf php bucket cmd resp) = none := by
  rw [fetchFirst, fragmentOf_value php bucket hrc hmulti]

/-- How a call of `queueRemove` goes on after its lookup of the document `v`. -/
inductive AfterLookup (php : Php) (bucket : BucketConf) (key : Bytes) (v : Server) :
    Proc Zval → Prop where
  | ended (o : C (Outcome Zval)) (ho : EndsWith .null o) : AfterLookup php bucket key v (.done o)
  | empty (f : DocumentFragment) (hc : v.content = .list []) (hcas : casDecode f.cas = 0) :
      AfterLookup php bucket key v (queueRemoveFound php bucket key .null f)
  | found (elems : List Bytes) (e : Bytes) (f : DocumentFragment)
      (hc : v.content = .list (elems ++ [e])) (hcas : casDecode f.cas = v.version) :
      AfterLookup php bucket key v (queueRemoveFound php bucket key (entryZval php e) f)

/-- Nothing at `[-1]`: the fragment of the multi failure has an entry and no CAS. -/
theorem afterLookup_empty {v : Server} {resp : SubdocResponse} (hc : v.content = .list [])
    (hvalues : resp.entries.map SdEntry.value = [[]]) (hrc : resp.rc = .subdocMultiFailure) :
    AfterLookup php bucket key v
      (queueRemoveRead php bucket key
        (requested php bucket (lastCommand key) (.response resp))) := by
  have hne : resp.rc ≠ .success := by
    rw [hrc]
    decide
  rw [requested, queueRemoveRead, fetchFirst_fragmentOf rfl (Or.inr hrc) hvalues]
  apply AfterLookup.empty _ hc
  rw [fragmentOf_cas php bucket hne]
  rfl

/-- The last element is at `[-1]`: the fragment has it and the CAS of the document. -/
theorem afterLookup_found {v : Server} {resp : SubdocResponse} {elems : List Bytes} {e : Bytes}
    (hc : v.content = .list (elems ++ [e])) (hvalues : resp.entries.map SdEntry.value = [e])
    (hrc : resp.rc = .success) (hcas : resp.cas = v.version) :
    AfterLookup php bucket key v
      (queueRemoveRead php bucket key
        (requested php bucket (lastCommand key) (.response resp))) := by
  rw [requested, queueRemoveRead, fetchFirst_fragmentOf rfl (Or.inl hrc) hvalues]
  apply AfterLookup.found elems e _ hc
  rw [fragmentOf_cas_success php bucket hrc, casDecode_casEncode, hcas]

/-- **The lookup** leaves the document.  It fails, or it finds the list empty and has no CAS, or it
has the last element and the CAS. -/
theorem queueRemove_lookup (php : Php) (bucket : BucketConf) {v w : Server} {fate : Fate}
    {answer : Answer SubdocResponse}
    (hlist : ∃ elems, v.content = .list elems)
    (ha : ServesSubdoc v (lastCommand key) fate answer w) :
    w = v ∧ AfterLookup php bucket key v
      (queueRemoveRead php bucket key (requested php bucket (lastCommand key) answer)) := by
  cases ha with
  | refused err h => exact ⟨rfl, .ended _ (endsWith_error _ _)⟩
  | failed resp hrc hmulti =>
    refine ⟨rfl, ?_⟩
    rw [requested, queueRemoveRead, fetchFirst_failed hrc hmulti]
    exact .ended _ (endsWith_returned _)
  | lookupOther hl hc hrc =>
    obtain ⟨elems, helems⟩ := hlist
    rw [hc] at helems
    cases helems
  | applied hl hc hguard happly hw hzero hrc hcas => cases hl
  | notApplied hl hguard hnone hrc => cases hl
  | unanswered hl hc hguard happly hw hzero hrc => cases hl
  | @lookup elems resp hl hc hcas hvalues hrc =>
    refine ⟨rfl, ?_⟩
    rcases List.eq_nil_or_concat elems with rfl | ⟨l, e, rfl⟩
    · exact afterLookup_empty hc hvalues hrc
    · rw [List.concat_eq_append] at hc hvalues hrc
      have helem : pathElem (l ++ [e]) lastPath = some e := by
        rw [pathElem, pathIndex_lastPath_append, Option.bind_some, List.getElem?_concat_length]
      apply afterLookup_found hc _ _ hcas
      · rw [hvalues]
        show [(pathElem (l ++ [e]) lastPath).getD []] = [e]
        rw [helem]
        rfl
      · rw [hrc, if_pos]
        intro spec hspec
        rw [List.mem_singleton.mp hspec, helem]
        rfl

/-! ## The removal -/

theorem queueRemoveEnd_error {cmd : SubdocCommand} {resp : SubdocResponse} {val : Zval}
    {f : DocumentFragment} (hrc : resp.rc ≠ .success) :
    queueRemoveEnd val f (requested php bucket cmd (.response resp)) =
      .done (.ok (.returned .null)) := by
  have herr : (fragmentOf php bucket cmd resp).error.isSome = true :=
    Option.isSome_iff_ne_none.mpr fun h => hrc ((fragmentOf_error php bucket cmd resp).mp h)
  rw [requested, queueRemoveEnd, queueRemoveReturn, if_pos herr]

theorem queueRemoveEnd_success {cmd : SubdocCommand} {resp : SubdocResponse} {val : Zval}
    {f : DocumentFragment} (hrc : resp.rc = .success) :
    queueRemoveEnd val f (requested php bucket cmd (.response resp)) =
      .done (.ok (.returned val)) := by
  have herr := (fragmentOf_error php bucket cmd resp).mpr hrc
  rw [requested, queueRemoveEnd, queueRemoveReturn, herr]
  rfl

/-- **The removal** leaves the document and the call returns no element, or it is done: then the CAS
was zero or the CAS of the document, and the last element is gone. -/
theorem queueRemove_removal (php : Php) (bucket : BucketConf) (val : Zval)
    (f : DocumentFragment) {v w : Server} {cas : UInt64} {fate : Fate}
    {answer : Answer SubdocResponse} (hfate : fate ≠ .lost)
    (ha : ServesSubdoc v (removeCommand key lastPath cas) fate answer w) :
    (w = v ∧ ∃ o, queueRemoveEnd val f
      (requested php bucket (removeCommand key lastPath cas) answer) = .done o ∧ EndsWith .null o) ∨
    ((cas = 0 ∨ cas = v.version) ∧ ∃ elems e, v.content = .list (elems ++ [e]) ∧
      w.content = .list elems ∧
      queueRemoveEnd val f (requested php bucket (removeCommand key lastPath cas) answer) =
        .done (.ok (.returned val))) := by
  cases ha with
  | refused err h => exact Or.inl ⟨rfl, _, rfl, endsWith_thrown _ _⟩
  | failed resp hrc hmulti => exact Or.inl ⟨rfl, _, queueRemoveEnd_error hrc, endsWith_returned _⟩
  | lookup hl hc hcas hvalues hrc => cases hl
  | lookupOther hl hc hrc => cases hl
  | @notApplied resp hl hguard hnone hrc =>
    have hne : resp.rc ≠ .success := by
      rw [hrc]
      decide
    exact Or.inl ⟨rfl, _, queueRemoveEnd_error hne, endsWith_returned _⟩
  | unanswered hl hc hguard happly hw hzero hrc => exact absurd rfl hfate
  | @applied elems elems' resp _ hl hc hguard happly hw hzero hrc hcas =>
    refine Or.inr ⟨hguard, ?_⟩
    rw [removeCommand, applySpecs_remove] at happly
    rcases List.eq_nil_or_concat elems with rfl | ⟨l, e, rfl⟩
    · rw [pathIndex_lastPath_nil] at happly
      cases happly
    · rw [List.concat_eq_append] at hc happly
      rw [pathIndex_lastPath_append, Option.map_some, Option.some.injEq] at happly
      refine ⟨l, e, hc, ?_, queueRemoveEnd_success hrc⟩
      rw [hw.content, ← happly, List.eraseIdx_append_of_length_le le_rfl]
      simp

/-- **The prepending** leaves the document, or the element is in front; the call returns null in
any case, unless it throws. -/
theorem queueAdd_served (php : Php) (bucket : BucketConf) (thrown : Bool) {v w : Server} {text : Bytes}
    {fate : Fate} {answer : Answer SubdocResponse} (hfate : fate ≠ .lost)
    (ha : ServesSubdoc v (prependCommand key text) fate answer w) :
    (∃ o, mutateEnd thrown (requested php bucket (prependCommand key text) answer) = .done o ∧
      Settles .null o) ∧
    (w = v ∨ ∃ elems, v.content = .list elems ∧ w.content = .list (text :: elems)) := by
  refine ⟨mutateEnd_ends _ _, ?_⟩
  cases ha with
  | refused err h => exact .inl rfl
  | failed resp hrc hmulti => exact .inl rfl
  | lookup hl hc hcas hvalues hrc => cases hl
  | lookupOther hl hc hrc => cases hl
  | notApplied hl hguard hnone hrc => exact .inl rfl
  | unanswered hl hc hguard happly hw hzero hrc => exact absurd rfl hfate
  | @applied elems elems' resp _ hl hc hguard happly hw hzero hrc hcas =>
    refine .inr ⟨elems, hc, ?_⟩
    have hprepend : some (text :: elems) = some elems' := happly
    rw [hw.content, ← Option.some.inj hprepend]

end PhpCouchbase
