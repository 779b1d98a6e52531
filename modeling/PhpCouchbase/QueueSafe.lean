import PhpCouchbase.Queue

/-!
# Runs of a queue

Runs of the calls of `queueAdd` and `queueRemove` in `bucket.c`.  Each call goes through the phases
of `QueuePhase`; a step moves the phase of its own call and leaves those of the others
(`QueuePhase.frame`).

* `queue_safe` — nothing is lost, doubled or reordered in a run in which the list is **still empty**
  whenever a call that found it empty sends its removal; a removal that finds it refilled and is
  carried out breaks that.
* `refilled_queue_loses` — a run in which an element leaves the queue and nobody gets it.
-/

set_option autoImplicit false

namespace PhpCouchbase

variable {ι : Type} [DecidableEq ι] {php : Php} {bucket : BucketConf} {value : Bytes → Zval}
  {key : Bytes}

/-! ## The order of the elements -/

/-- What came and is not gone is in the list, the oldest last. -/
def Fifo (initial : List Bytes) (s : System ι) : Prop :=
  ∃ elems, s.server.content = .list elems ∧
    takenIn s ++ elems.reverse = initial.reverse ++ addedIn s

theorem takenIn_answer (s : System ι) (i : ι) (isLookup : Bool) (v : Server) (p : Proc Zval) :
    takenIn (s.answer i isLookup v p) =
      takenIn s ++ (Served.taken ⟨i, isLookup, s.server.content, v.content⟩).toList := by
  rw [takenIn, System.answer, List.filterMap_append]
  cases h : Served.taken ⟨i, isLookup, s.server.content, v.content⟩ <;> simp [takenIn, h]

theorem addedIn_answer (s : System ι) (i : ι) (isLookup : Bool) (v : Server) (p : Proc Zval) :
    addedIn (s.answer i isLookup v p) =
      addedIn s ++ (Served.added ⟨i, isLookup, s.server.content, v.content⟩).toList := by
  rw [addedIn, System.answer, List.filterMap_append]
  cases h : Served.added ⟨i, isLookup, s.server.content, v.content⟩ <;> simp [addedIn, h]

variable {initial : List Bytes} {s t : System ι} {i j : ι}

/-- A request that leaves the document. -/
theorem Fifo.same (h : Fifo initial s) (isLookup : Bool) (p : Proc Zval) :
    Fifo initial (s.answer i isLookup s.server p) := by
  obtain ⟨elems, hc, horder⟩ := h
  refine ⟨elems, hc, ?_⟩
  have htaken : Served.taken ⟨i, isLookup, s.server.content, s.server.content⟩ = none := by
    simp [Served.taken, hc]
  have hadded : Served.added ⟨i, isLookup, s.server.content, s.server.content⟩ = none := by
    simp [Served.added, hc]
  rw [takenIn_answer, addedIn_answer, htaken, hadded]
  simpa using horder

/-- An element added in front is the youngest. -/
theorem Fifo.added (h : Fifo initial s) {isLookup : Bool} {v : Server} {p : Proc Zval}
    {elems : List Bytes} {text : Bytes} (hbefore : s.server.content = .list elems)
    (hafter : v.content = .list (text :: elems)) : Fifo initial (s.answer i isLookup v p) := by
  obtain ⟨elems', hc, horder⟩ := h
  rw [hbefore, Content.list.injEq] at hc
  subst hc
  refine ⟨text :: elems, hafter, ?_⟩
  have htaken : Served.taken ⟨i, isLookup, s.server.content, v.content⟩ = none := by
    simp [Served.taken, hbefore, hafter]
  have hadded : Served.added ⟨i, isLookup, s.server.content, v.content⟩ = some text := by
    simp [Served.added, hbefore, hafter]
  rw [takenIn_answer, addedIn_answer, htaken, hadded, List.reverse_cons]
  show takenIn s ++ [] ++ (elems.reverse ++ [text]) = initial.reverse ++ (addedIn s ++ [text])
  rw [List.append_nil, ← List.append_assoc, horder, List.append_assoc]

/-- The last element is the oldest. -/
theorem Fifo.taken (h : Fifo initial s) {isLookup : Bool} {v : Server} {p : Proc Zval}
    {elems : List Bytes} {e : Bytes} (hbefore : s.server.content = .list (elems ++ [e]))
    (hafter : v.content = .list elems) : Fifo initial (s.answer i isLookup v p) := by
  obtain ⟨elems', hc, horder⟩ := h
  rw [hbefore, Content.list.injEq] at hc
  subst hc
  refine ⟨elems, hafter, ?_⟩
  have htaken : Served.taken ⟨i, isLookup, s.server.content, v.content⟩ = some e := by
    simp [Served.taken, hbefore, hafter]
  have hadded : Served.added ⟨i, isLookup, s.server.content, v.content⟩ = none := by
    simp [Served.added, hbefore, hafter]
  rw [takenIn_answer, addedIn_answer, htaken, hadded]
  show takenIn s ++ [e] ++ elems.reverse = initial.reverse ++ (addedIn s ++ [])
  rw [List.append_nil, ← horder, List.reverse_append, List.append_assoc]
  rfl

/-! ## The phases of a call -/

/-- Where a call is. -/
inductive QueuePhase (php : Php) (bucket : BucketConf) (key : Bytes) (call : QueueCall)
    (s : System ι) (i : ι) : Prop where
  | adding (val : Zval) (text : Bytes) (hcall : call = .add val)
      (htext : php.jsonEncode val = some text) (hp : s.procs i = queueAdd php bucket key val)
      (hc : changesOf s i = []) (hs : ¬ SawEmpty s i)
  | start (hcall : call = .remove) (hp : s.procs i = queueRemove php bucket key)
      (hc : changesOf s i = []) (hs : ¬ SawEmpty s i)
  | empty (f : DocumentFragment) (hcall : call = .remove)
      (hp : s.procs i = queueRemoveFound php bucket key .null f) (hcas : casDecode f.cas = 0)
      (hc : changesOf s i = []) (hs : SawEmpty s i)
  | found (v : Server) (elems : List Bytes) (e : Bytes) (f : DocumentFragment)
      (hcall : call = .remove)
      (hp : s.procs i = queueRemoveFound php bucket key (entryZval php e) f)
      (hcas : casDecode f.cas = v.version) (hzero : v.version ≠ 0) (hlater : v.Later s.server)
      (hv : v.content = .list (elems ++ [e])) (hc : changesOf s i = []) (hs : ¬ SawEmpty s i)
  | ended (o : C (Outcome Zval)) (hp : s.procs i = .done o) (ho : EndsWith .null o)
      (hc : changesOf s i = [])
  | added (val : Zval) (text : Bytes) (elems : List Bytes) (x : Served ι) (o : C (Outcome Zval))
      (hcall : call = .add val) (htext : php.jsonEncode val = some text)
      (hp : s.procs i = .done o) (hc : changesOf s i = [x]) (hbefore : x.before = .list elems)
      (hafter : x.after = .list (text :: elems)) (hs : ¬ SawEmpty s i)
  | taken (elems : List Bytes) (e : Bytes) (x : Served ι) (hcall : call = .remove)
      (hp : s.procs i = .done (.ok (.returned (entryZval php e)))) (hc : changesOf s i = [x])
      (hbefore : x.before = .list (elems ++ [e])) (hafter : x.after = .list elems)
      (hs : ¬ SawEmpty s i)

theorem sawEmpty_answer (s : System ι) (i j : ι) (isLookup : Bool) (v : Server) (p : Proc Zval) :
    SawEmpty (s.answer i isLookup v p) j ↔
      SawEmpty s j ∨ i = j ∧ isLookup = true ∧ s.server.content = .list [] := by
  unfold SawEmpty System.answer
  simp only [List.mem_append, List.mem_singleton]
  constructor
  · rintro ⟨x, hx | rfl, hprop⟩
    · exact Or.inl ⟨x, hx, hprop⟩
    · exact Or.inr hprop
  · rintro (⟨x, hx, hprop⟩ | hprop)
    · exact ⟨x, Or.inl hx, hprop⟩
    · exact ⟨_, Or.inr rfl, hprop⟩

theorem sawEmpty_frame (hstep : QueueStep bucket value key s i t) (hj : j ≠ i) :
    SawEmpty t j ↔ SawEmpty s j := by
  obtain ⟨fate, -, hstep⟩ := hstep
  cases hstep with
  | get hp ha =>
    rw [sawEmpty_answer]
    exact or_iff_left fun h => hj h.1.symm
  | subdoc hp hkey ha =>
    rw [sawEmpty_answer]
    exact or_iff_left fun h => hj h.1.symm

/-- A step of another call. -/
theorem QueuePhase.frame {call : QueueCall} (h : QueuePhase php bucket key call s j)
    (hstep : QueueStep bucket value key s i t) (hj : j ≠ i) :
    QueuePhase php bucket key call t j := by
  have hsaw := sawEmpty_frame hstep hj
  obtain ⟨fate, -, hstep⟩ := hstep
  obtain ⟨hprocs, hchanges⟩ := hstep.frame fun hl => hj hl.symm
  cases h with
  | adding val text hcall htext hp hc hs =>
    exact .adding val text hcall htext (hprocs.trans hp) (hchanges.trans hc) (mt hsaw.mp hs)
  | start hcall hp hc hs =>
    exact .start hcall (hprocs.trans hp) (hchanges.trans hc) (mt hsaw.mp hs)
  | empty f hcall hp hcas hc hs =>
    exact .empty f hcall (hprocs.trans hp) hcas (hchanges.trans hc) (hsaw.mpr hs)
  | found v elems e f hcall hp hcas hzero hlater hv hc hs =>
    exact .found v elems e f hcall (hprocs.trans hp) hcas hzero (hstep.later hlater) hv
      (hchanges.trans hc) (mt hsaw.mp hs)
  | ended o hp ho hc => exact .ended o (hprocs.trans hp) ho (hchanges.trans hc)
  | added val text elems x o hcall htext hp hc hbefore hafter hs =>
    exact .added val text elems x o hcall htext (hprocs.trans hp) (hchanges.trans hc) hbefore
      hafter (mt hsaw.mp hs)
  | taken elems e x hcall hp hc hbefore hafter hs =>
    exact .taken elems e x hcall (hprocs.trans hp) (hchanges.trans hc) hbefore hafter
      (mt hsaw.mp hs)

/-! ## The steps of a call -/

theorem append_singleton_ne (elems : List Bytes) (e : Bytes) : elems ++ [e] ≠ elems := by
  intro h
  have := congrArg List.length h
  simp at this

theorem queueStep_of_served {cmd : SubdocCommand} {next : Answer SubdocResponse → Proc Zval}
    {answer : Answer SubdocResponse} {v : Server} (hp : s.procs i = .subdoc cmd next)
    (hkey : cmd.key = key) (ha : ServesSubdoc s.server cmd .answered answer v) :
    QueueStep bucket value key s i (s.answer i cmd.isLookup v (next answer)) :=
  ⟨.answered, by decide, .subdoc hp hkey ha⟩

/-- A request that is no lookup, or finds an element, did not see the list empty. -/
theorem not_sawEmpty_answer (hs : ¬ SawEmpty s i) {isLookup : Bool} (v : Server) (p : Proc Zval)
    (h : isLookup = true → s.server.content ≠ .list []) :
    ¬ SawEmpty (s.answer i isLookup v p) i := by
  rw [sawEmpty_answer]
  rintro (hsaw | ⟨-, hlookup, hnil⟩)
  · exact hs hsaw
  · exact h hlookup hnil

/-- A call that ends without an element after a request that leaves the document. -/
theorem QueuePhase.ends {call : QueueCall} {o : C (Outcome Zval)} {p : Proc Zval}
    (hc : changesOf s i = []) (hp : p = .done o) (ho : EndsWith .null o) (isLookup : Bool) :
    QueuePhase php bucket key call (s.answer i isLookup s.server p) i :=
  .ended o ((procs_answer_self ..).trans hp) ho ((changesOf_answer_same i i _ _ rfl).trans hc)

/-- The phase of a removal after its lookup. -/
theorem AfterLookup.phase {p : Proc Zval} (h : AfterLookup php bucket key s.server p)
    (hzero : s.server.version ≠ 0) (hc : changesOf s i = []) (hs : ¬ SawEmpty s i) :
    QueuePhase php bucket key .remove (s.answer i true s.server p) i := by
  have hchanges : ∀ p, changesOf (s.answer i true s.server p) i = [] := fun p =>
    (changesOf_answer_same i i _ p rfl).trans hc
  cases h with
  | ended o ho => exact .ends hc rfl ho true
  | empty f hempty hcas =>
    exact .empty f rfl (procs_answer_self ..) hcas (hchanges _)
      ((sawEmpty_answer ..).mpr (Or.inr ⟨rfl, rfl, hempty⟩))
  | found elems e f hfound hcas =>
    refine .found s.server elems e f rfl (procs_answer_self ..) hcas hzero (.refl _) hfound
      (hchanges _) (not_sawEmpty_answer hs _ _ fun _ => ?_)
    rw [hfound]
    simp

/-- **A step of a call** whose condition holds moves its phase and keeps the order. -/
theorem QueuePhase.step {call : QueueCall} (h : QueuePhase php bucket key call s i)
    (hzero : s.server.version ≠ 0) (hfifo : Fifo initial s) (hgood : StillEmpty s i)
    (hstep : QueueStep bucket value key s i t) :
    QueuePhase php bucket key call t i ∧ Fifo initial t := by
  obtain ⟨fate, hfate, hstep⟩ := hstep
  cases h with
  | adding val text hcall htext hp hc hs =>
    obtain ⟨answer, v, ha, rfl⟩ := hstep.of_subdoc (hp.trans (queueAdd_eq htext))
    obtain ⟨⟨o, ho, hnull⟩, hserver⟩ := queueAdd_served php bucket _ hfate ha
    rcases hserver with rfl | ⟨elems, hbefore, hafter⟩
    · exact ⟨.ends hc ho hnull.endsWith _, hfifo.same _ _⟩
    · have hne : s.server.content ≠ v.content := by
        rw [hbefore, hafter]
        intro heq
        exact List.cons_ne_self text elems (Content.list.inj heq).symm
      exact ⟨.added val text elems _ o hcall htext ((procs_answer_self ..).trans ho)
        (changesOf_changed s i _ _ hc hne) hbefore hafter
        (not_sawEmpty_answer hs _ _ (by intro hlookup; cases hlookup)),
        hfifo.added hbefore hafter⟩
  | start hcall hp hc hs =>
    subst hcall
    obtain ⟨answer, v, ha, rfl⟩ := hstep.of_subdoc (hp.trans queueRemove_eq)
    have hlist : ∃ elems, s.server.content = .list elems := hfifo.imp fun _ h => h.1
    obtain ⟨rfl, hafter⟩ := queueRemove_lookup php bucket hlist ha
    exact ⟨hafter.phase hzero hc hs, hfifo.same _ _⟩
  | empty f hcall hp hcas hc hs =>
    obtain ⟨answer, v, ha, rfl⟩ := hstep.of_subdoc (hp.trans (queueRemoveFound_eq _ f))
    have hempty := hgood hs
    rcases queueRemove_removal php bucket .null f hfate ha with
      ⟨rfl, o, ho, hnull⟩ | ⟨-, elems, e, hbefore, -, -⟩
    · exact ⟨.ends hc ho hnull _, hfifo.same _ _⟩
    · -- an empty list has no last element
      rw [hempty] at hbefore
      simp at hbefore
  | found u elems e f hcall hp hcas huzero hlater hv hc hs =>
    obtain ⟨answer, v, ha, rfl⟩ := hstep.of_subdoc (hp.trans (queueRemoveFound_eq _ f))
    rcases queueRemove_removal php bucket (entryZval php e) f hfate ha with
      ⟨rfl, o, ho, hnull⟩ | ⟨hguard, elems', e', hbefore, hafter, hend⟩
    · exact ⟨.ends hc ho hnull _, hfifo.same _ _⟩
    · -- the guard holds, so the last element is still the one that was looked up
      rw [hcas] at hguard
      obtain rfl := hlater.eq_of_version (hguard.resolve_left huzero).symm
      rw [hbefore, Content.list.injEq] at hv
      obtain ⟨rfl, rfl⟩ := List.append_singleton_inj.mp hv
      have hne : s.server.content ≠ v.content := by
        rw [hbefore, hafter]
        intro heq
        exact append_singleton_ne _ _ (Content.list.inj heq)
      exact ⟨.taken elems' e' _ hcall ((procs_answer_self ..).trans hend)
        (changesOf_changed s i _ _ hc hne) hbefore hafter
        (not_sawEmpty_answer hs _ _ (by intro hlookup; cases hlookup)),
        hfifo.taken hbefore hafter⟩
  | ended o hp ho hc => exact absurd hp hstep.not_done
  | added val text elems x o hcall htext hp hc hbefore hafter hs =>
    exact absurd hp hstep.not_done
  | taken elems e x hcall hp hc hbefore hafter hs => exact absurd hp hstep.not_done

/-! ## Runs -/

variable {calls : ι → QueueCall}

theorem mem_changesOf {x : Served ι} (hx : x ∈ s.served) (hne : x.before ≠ x.after) :
    x ∈ changesOf s x.call := by
  rw [changesOf, List.mem_filter, decide_eq_true_eq]
  exact ⟨hx, rfl, hne⟩

/-- What every step keeps whose condition holds. -/
structure QueueInv (php : Php) (bucket : BucketConf) (key : Bytes) (calls : ι → QueueCall)
    (initial : List Bytes) (s : System ι) : Prop where
  cas : s.server.version ≠ 0
  phases : ∀ i, QueuePhase php bucket key (calls i) s i
  fifo : Fifo initial s

/-- A call changes the document at most once, and not after it saw the list empty. -/
theorem QueuePhase.changes (h : QueuePhase php bucket key (calls i) s i) :
    changesOf s i = [] ∨ ∃ x, changesOf s i = [x] ∧ ¬ SawEmpty s i ∧
      (x.call = i → QueueChange php calls s x) := by
  cases h with
  | adding val text hcall htext hp hc hs => exact Or.inl hc
  | start hcall hp hc hs => exact Or.inl hc
  | empty f hcall hp hcas hc hs => exact Or.inl hc
  | found v elems e f hcall hp hcas hzero hlater hv hc hs => exact Or.inl hc
  | ended o hp ho hc => exact Or.inl hc
  | added val text elems x o hcall htext hp hc hbefore hafter hs =>
    refine Or.inr ⟨x, hc, hs, ?_⟩
    rintro rfl
    exact .added val text elems hcall htext hbefore hafter
  | taken elems e x hcall hp hc hbefore hafter hs =>
    refine Or.inr ⟨x, hc, hs, ?_⟩
    rintro rfl
    exact .taken elems e hcall hbefore hafter hp

/-- A call of `queueRemove` that changed nothing returns null. -/
theorem QueuePhase.null_of_unchanged {z : Zval}
    (h : QueuePhase php bucket key (calls i) s i) (hcall : calls i = .remove)
    (hnone : changesOf s i = []) (hret : s.procs i = .done (.ok (.returned z))) : z = .null := by
  cases h with
  | adding val text hadd htext hp hc hs =>
    rw [hcall] at hadd
    cases hadd
  | start _ hp hc hs =>
    rw [hp, queueRemove_eq] at hret
    cases hret
  | empty f _ hp hcas hc hs =>
    rw [hp, queueRemoveFound_eq] at hret
    cases hret
  | found v elems e f _ hp hcas hzero hlater hv hc hs =>
    rw [hp, queueRemoveFound_eq] at hret
    cases hret
  | ended o hp ho hc =>
    rw [hp, Proc.done.injEq] at hret
    exact ho z hret
  | added val text elems y o hadd htext hp hc hbefore hafter hs =>
    rw [hcall] at hadd
    cases hadd
  | taken elems e y _ hp hc hbefore hafter hs =>
    rw [hc] at hnone
    cases hnone

/-- The phases and the order are what is claimed. -/
theorem QueueInv.safe (h : QueueInv php bucket key calls initial s) :
    QueueSafe php calls initial s where
  changes := by
    intro x hx hne
    have hmem := mem_changesOf hx hne
    rcases (h.phases x.call).changes with hnil | ⟨y, hy, -, hchange⟩
    · rw [hnil] at hmem
      cases hmem
    · rw [hy, List.mem_singleton] at hmem
      subst hmem
      exact hchange rfl
  once := by
    intro i
    rcases (h.phases i).changes with hnil | ⟨y, hy, -⟩
    · rw [hnil]
      exact Nat.zero_le _
    · rw [hy]
      exact Nat.le_refl _
  emptyLookup := by
    intro i hsaw
    rcases (h.phases i).changes with hnil | ⟨y, -, hs, -⟩
    · exact hnil
    · exact absurd hsaw hs
  emptyHanded := fun i _ hcall hnone hret => (h.phases i).null_of_unchanged hcall hnone hret
  fifo := h.fifo

theorem QueueInv.step (h : QueueInv php bucket key calls initial s) (hgood : StillEmpty s i)
    (hstep : QueueStep bucket value key s i t) : QueueInv php bucket key calls initial t := by
  obtain ⟨hmine, hfifo⟩ := (h.phases i).step h.cas h.fifo hgood hstep
  have hcas : t.server.version ≠ 0 := by
    obtain ⟨fate, -, hserved⟩ := hstep
    exact hserved.version_ne_zero h.cas
  refine ⟨hcas, ?_, hfifo⟩
  intro j
  by_cases hj : j = i
  · subst hj
    exact hmine
  · exact (h.phases j).frame hstep hj

/-- A call before its first step. -/
theorem QueuePhase.ofCall {call : QueueCall} (hp : s.procs i = call.proc php bucket key)
    (hserved : s.served = []) : QueuePhase php bucket key call s i := by
  have hc : changesOf s i = [] := by
    rw [changesOf, hserved]
    rfl
  have hs : ¬ SawEmpty s i := by
    rintro ⟨x, hx, -⟩
    rw [hserved] at hx
    cases hx
  cases call with
  | remove => exact .start rfl hp hc hs
  | add val =>
    cases htext : php.jsonEncode val with
    | none =>
      obtain ⟨o, ho, hnull⟩ := mutateEnd_ends (php.encode val).thrown .skipped
      exact .ended o ((hp.trans (queueAdd_unencodable htext)).trans ho) hnull.endsWith hc
    | some text => exact .adding val text rfl htext hp hc hs

/-- A removal that finds the list refilled, and is carried out, takes an element that its call does
not return. -/
theorem refilled_not_safe (hstep : QueueStep bucket value key s i t) (hgood : ¬ StillEmpty s i)
    (hne : t.server.content ≠ s.server.content) : ¬ QueueSafe php calls initial t := by
  intro hsafe
  have hsaw : SawEmpty s i := by
    by_contra h
    exact hgood fun hs => absurd hs h
  obtain ⟨fate, -, hstep⟩ := hstep
  cases hstep with
  | get hp ha => exact hne rfl
  | subdoc hp hkey ha =>
    have hnone := hsafe.emptyLookup i ((sawEmpty_answer ..).mpr (Or.inl hsaw))
    rw [changesOf_answer, if_pos ⟨rfl, Ne.symm hne⟩] at hnone
    simp at hnone

/-- **When a queue is safe**, for any number of calls and every interleaving of them: in a run in
which the list is still empty whenever a call that found it empty goes on, every state is safe; and
a step that goes on when it is not, and changes the document, leads to a state that is not. -/
theorem queue_safe {p : List (ι × System ι)}
    (hcalls : ∀ i, s.procs i = (calls i).proc php bucket key) (hserved : s.served = [])
    (hcas : s.server.version ≠ 0) (hlist : s.server.content = .list initial)
    (hrun : StepSystem.Path (QueueStep bucket value key) s p) :
    (StepSystem.Meets StillEmpty s p → ∀ x ∈ p, QueueSafe php calls initial x.2) ∧
    ∀ u t i, QueueStep bucket value key u i t → ¬ StillEmpty u i →
      t.server.content ≠ u.server.content → ¬ QueueSafe php calls initial t := by
  refine ⟨?_, fun u t i => refilled_not_safe⟩
  intro hmeets
  have hstart : Fifo initial s := by
    refine ⟨initial, hlist, ?_⟩
    rw [takenIn, addedIn, hserved]
    simp
  have hinit : QueueInv php bucket key calls initial s :=
    ⟨hcas, fun i => .ofCall (hcalls i) hserved, hstart⟩
  have hinv : ∀ x ∈ p, QueueInv php bucket key calls initial x.2 :=
    hrun.invariant_of_meets hmeets hinit fun u i t h hgood hstep => h.step hgood hstep
  exact fun x hx => (hinv x hx).safe

/-! ## Concrete runs -/

def queueBucket : BucketConf := ⟨CString.ofBytes (ascii "default"), fun bytes _ _ => bytes⟩

/-- One call of each kind. -/
def queueCalls : Bool → QueueCall
  | true => .remove
  | false => .add (.string (ascii "x"))

def queueStart (elems : List Bytes) : System Bool :=
  ⟨⟨.list elems, 7, []⟩, fun i => (queueCalls i).proc plainPhp queueBucket (ascii "q"), []⟩

theorem queueStart_remove (elems : List Bytes) :
    (queueStart elems).procs true = .subdoc (lastCommand (ascii "q")) fun answer =>
      queueRemoveRead plainPhp queueBucket (ascii "q")
        (requested plainPhp queueBucket (lastCommand (ascii "q")) answer) := queueRemove_eq

/-- The answer to a request of `queueRemove` for its last element. -/
def lookupAnswer (resp : SubdocResponse) : Proc Zval :=
  queueRemoveRead plainPhp queueBucket (ascii "q")
    (requested plainPhp queueBucket (lastCommand (ascii "q")) (.response resp))

/-- The answer to its removal. -/
def removalAnswer (val : Zval) (f : DocumentFragment) (resp : SubdocResponse) : Proc Zval :=
  queueRemoveEnd val f (requested plainPhp queueBucket
    (removeCommand (ascii "q") lastPath (casDecode f.cas)) (.response resp))

/-- The lookup finds `hello`, under the CAS 7. -/
def helloResponse : SubdocResponse := ⟨.success, 7, none, [⟨quoted "hello", 0, 0⟩]⟩

def helloFragment : DocumentFragment :=
  fragmentOf plainPhp queueBucket (lastCommand (ascii "q")) helloResponse

def helloRead : System Bool :=
  (queueStart [quoted "hello"]).answer true true ⟨.list [quoted "hello"], 7, []⟩
    (lookupAnswer helloResponse)

def helloDone : System Bool :=
  helloRead.answer true false ⟨.list [], 8, [7]⟩
    (removalAnswer (.string (ascii "hello")) helloFragment ⟨.success, 8, none, []⟩)

theorem helloRun : StepSystem.Path (QueueStep queueBucket plainPhp.jsonDecode (ascii "q"))
    (queueStart [quoted "hello"]) [(true, helloRead), (true, helloDone)] := by
  have hlookup : ServesSubdoc ⟨.list [quoted "hello"], 7, []⟩ (lastCommand (ascii "q"))
      .answered (.response helloResponse) ⟨.list [quoted "hello"], 7, []⟩ := .lookup rfl rfl rfl rfl rfl
  have hremoval : ServesSubdoc ⟨.list [quoted "hello"], 7, []⟩
      (removeCommand (ascii "q") lastPath (casDecode helloFragment.cas))
      .answered (.response ⟨.success, 8, none, []⟩) ⟨.list [], 8, [7]⟩ :=
    .applied rfl rfl (Or.inr rfl) rfl ⟨rfl, rfl, by decide⟩ (by decide) rfl rfl
  have hproc : helloRead.procs true =
      .subdoc (removeCommand (ascii "q") lastPath (casDecode helloFragment.cas)) fun answer =>
        queueRemoveEnd (.string (ascii "hello")) helloFragment (requested plainPhp queueBucket
          (removeCommand (ascii "q") lastPath (casDecode helloFragment.cas)) answer) := rfl
  apply StepSystem.Path.cons (queueStep_of_served (queueStart_remove _) rfl hlookup)
  apply StepSystem.Path.cons (queueStep_of_served hproc rfl hremoval)
  exact .nil helloDone

/-- A queue with one element is safe. -/
theorem hello_queue_safe :
    QueueSafe plainPhp queueCalls [quoted "hello"] helloDone ∧
    helloDone.procs true = .done (.ok (.returned (.string (ascii "hello")))) := by
  have hmeets : StepSystem.Meets StillEmpty (queueStart [quoted "hello"])
      [(true, helloRead), (true, helloDone)] := by
    refine ⟨?_, ?_, trivial⟩
    · rintro ⟨x, hx, -⟩
      cases hx
    · rintro ⟨x, hx, -, -, hempty⟩
      rw [List.mem_singleton.mp hx] at hempty
      cases hempty
  exact ⟨(queue_safe (fun _ => rfl) rfl (by decide) rfl helloRun).1 hmeets (true, helloDone)
    (by simp), rfl⟩

/-- The lookup finds nothing. -/
def emptyResponse : SubdocResponse := ⟨.subdocMultiFailure, 7, none, [⟨[], 1, 0⟩]⟩

def emptyFragment : DocumentFragment :=
  fragmentOf plainPhp queueBucket (lastCommand (ascii "q")) emptyResponse

def emptyRead : System Bool :=
  (queueStart []).answer true true ⟨.list [], 7, []⟩ (lookupAnswer emptyResponse)

/-- The other call adds `x`. -/
def refilled : System Bool :=
  emptyRead.answer false false ⟨.list [quoted "x"], 8, [7]⟩
    (mutateEnd false (requested plainPhp queueBucket (prependCommand (ascii "q") (quoted "x"))
      (.response ⟨.success, 8, none, []⟩)))

def emptied : System Bool :=
  refilled.answer true false ⟨.list [], 9, [8, 7]⟩
    (removalAnswer .null emptyFragment ⟨.success, 9, none, []⟩)

theorem refilledRun : StepSystem.Path (QueueStep queueBucket plainPhp.jsonDecode (ascii "q"))
    (queueStart []) [(true, emptyRead), (false, refilled), (true, emptied)] := by
  have hlookup : ServesSubdoc ⟨.list [], 7, []⟩ (lastCommand (ascii "q"))
      .answered (.response emptyResponse) ⟨.list [], 7, []⟩ := .lookup rfl rfl rfl rfl rfl
  have hadd : ServesSubdoc ⟨.list [], 7, []⟩ (prependCommand (ascii "q") (quoted "x"))
      .answered (.response ⟨.success, 8, none, []⟩) ⟨.list [quoted "x"], 8, [7]⟩ :=
    .applied rfl rfl (Or.inl rfl) rfl ⟨rfl, rfl, by decide⟩ (by decide) rfl rfl
  have hremoval : ServesSubdoc ⟨.list [quoted "x"], 8, [7]⟩
      (removeCommand (ascii "q") lastPath (casDecode emptyFragment.cas))
      .answered (.response ⟨.success, 9, none, []⟩) ⟨.list [], 9, [8, 7]⟩ :=
    .applied rfl rfl (Or.inl rfl) rfl ⟨rfl, rfl, by decide⟩ (by decide) rfl rfl
  have hproc : refilled.procs true =
      .subdoc (removeCommand (ascii "q") lastPath (casDecode emptyFragment.cas)) fun answer =>
        queueRemoveEnd .null emptyFragment (requested plainPhp queueBucket
          (removeCommand (ascii "q") lastPath (casDecode emptyFragment.cas)) answer) := rfl
  have hadding : queueAdd plainPhp queueBucket (ascii "q") (.string (ascii "x")) =
      .subdoc (prependCommand (ascii "q") (quoted "x")) fun answer =>
        mutateEnd false (requested plainPhp queueBucket (prependCommand (ascii "q") (quoted "x"))
          answer) := queueAdd_eq rfl
  have hother : emptyRead.procs false = _ := hadding
  apply StepSystem.Path.cons (queueStep_of_served (queueStart_remove _) rfl hlookup)
  apply StepSystem.Path.cons (queueStep_of_served hother rfl hadd)
  apply StepSystem.Path.cons (queueStep_of_served hproc rfl hremoval)
  exact .nil emptied

/-- **An element is lost**: `queueRemove` finds the queue empty, `queueAdd` adds `x`, and the
removal that follows takes `x` away and returns null. -/
theorem refilled_queue_loses :
    StepSystem.Path (QueueStep queueBucket plainPhp.jsonDecode (ascii "q")) (queueStart [])
      [(true, emptyRead), (false, refilled), (true, emptied)] ∧
    takenIn emptied = [quoted "x"] ∧ emptied.server.content = .list [] ∧
    emptied.procs true = .done (.ok (.returned .null)) ∧
    ¬ ∀ x ∈ [(true, emptyRead), (false, refilled), (true, emptied)],
      QueueSafe plainPhp queueCalls [] x.2 := by
  refine ⟨refilledRun, rfl, rfl, rfl, ?_⟩
  intro hsafe
  have hempty : SawEmpty emptied true := ⟨_, List.mem_cons_self, rfl, rfl, rfl⟩
  have hnone : changesOf emptied true = [] :=
    (hsafe (true, emptied) (by simp)).emptyLookup true hempty
  cases hnone

end PhpCouchbase
