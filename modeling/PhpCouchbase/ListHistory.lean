import PhpCouchbase.ListMethods
import PhpCouchbase.SubdocWrites

/-!
# Histories of a list

Any number of calls of the methods of `bucket.c` with one request work on one document, and other
clients may change it in between.  A request may be refused, and its answer may be lost.

* `ListPhase.call`, `ListPhase.frame` — what a step does to a call that made it, and to another.
* `Explains.step` — a step of a call puts it behind the others in the order of a sequential execution.
* `lists_linearizable` — each call has one request, which did what the call is for or nothing; and when
  only these calls work on the document, it is what they make of it one after the other, each saying what
  it would have said in its turn.
-/

set_option autoImplicit false

namespace PhpCouchbase

variable {ι : Type} [DecidableEq ι] {php : Php} {bucket : BucketConf} {value : Bytes → Zval}
  {key : Bytes}

/-! ## Calls with their builder in memory -/

/-- A call that writes, as `mutate_in_builder.c` has it. -/
def ListCall.write (key : Bytes) : ListCall → Option WriteCall
  | push val => some (.listPush key val)
  | shift val => some (.listShift key val)
  | set index val => some (.listSet key index val)
  | remove index => some (.listRemove key index)
  | add val => some (.setAdd key val)
  | get _ => none
  | contains _ => none
  | size => none

def ListCall.method (php : Php) (bucket : BucketConf) (key : Bytes) (call : ListCall) :
    Option (Proc Zval) :=
  match call.write key with
  | some write => write.method php bucket
  | none => some (call.proc php bucket key)

/-- The lengths of what is written survive an `int`. -/
def ListCall.Fits (php : Php) (key : Bytes) (call : ListCall) : Prop :=
  ∀ write, call.write key = some write → write.Fits php

theorem ListCall.method_eq {call : ListCall} (h : call.Fits php key) :
    call.method php bucket key = some (call.proc php bucket key) := by
  cases call with
  | get index => rfl
  | contains val => rfl
  | size => rfl
  | push val => exact WriteCall.method_refines (h _ rfl)
  | shift val => exact WriteCall.method_refines (h _ rfl)
  | set index val => exact WriteCall.method_refines (h _ rfl)
  | remove index => exact WriteCall.method_refines (h _ rfl)
  | add val => exact WriteCall.method_refines (h _ rfl)

/-! ## The requests of a call -/

def servedOf (s : System ι) (i : ι) : List (Served ι) :=
  s.served.filter fun x => decide (x.call = i)

theorem servedOf_answer_self (s : System ι) (i : ι) (isLookup : Bool) (v : Server) (p : Proc Zval) :
    servedOf (s.answer i isLookup v p) i =
      servedOf s i ++ [⟨i, isLookup, s.server.content, v.content⟩] := by
  unfold servedOf System.answer
  rw [List.filter_append, List.filter_singleton]
  simp

theorem servedOf_answer_ne (s : System ι) {i j : ι} (h : j ≠ i) (isLookup : Bool) (v : Server)
    (p : Proc Zval) : servedOf (s.answer i isLookup v p) j = servedOf s j := by
  unfold servedOf System.answer
  rw [List.filter_append, List.filter_singleton]
  simp [h.symm]

/-- A step has no request of a call that did not make it. -/
theorem Step.servedOf_eq {s t : System ι} {l : Label ι} (h : Step bucket value key s l t) {j : ι}
    (hj : ¬l.By j) : servedOf t j = servedOf s j := by
  cases h with
  | @get i next fate answer hp ha => exact servedOf_answer_ne s (fun hji => hj hji.symm) _ _ _
  | @subdoc i cmd next fate answer v hp hkey ha =>
    exact servedOf_answer_ne s (fun hji => hj hji.symm) _ _ _
  | other hv hzero => rfl

/-- A step of a call is one request more. -/
theorem Step.servedOf_self {s t : System ι} {i : ι} {fate : Fate}
    (h : Step bucket value key s (.call i fate) t) :
    ∃ isLookup, servedOf t i =
      servedOf s i ++ [⟨i, isLookup, s.server.content, t.server.content⟩] := by
  cases h with
  | get hp ha => exact ⟨true, servedOf_answer_self s i _ _ _⟩
  | @subdoc _ cmd next _ answer v hp hkey ha => exact ⟨cmd.isLookup, servedOf_answer_self s i _ _ _⟩

/-! ## One call -/

/-- A call waits, or it made its one request and has ended. -/
inductive ListPhase (php : Php) (bucket : BucketConf) (value : Bytes → Zval) (key : Bytes)
    (call : ListCall) (s : System ι) (i : ι) : Prop where
  | waiting (hp : s.procs i = call.proc php bucket key) (hs : servedOf s i = [])
  | ended (x : Served ι) (o : C (Outcome Zval)) (hp : s.procs i = .done o)
      (hs : servedOf s i = [x]) (hm : Meets php value call x o)

theorem ListPhase.frame {call : ListCall} {s t : System ι} {i : ι} {l : Label ι}
    (h : ListPhase php bucket value key call s i) (hstep : Step bucket value key s l t)
    (hl : ¬l.By i) : ListPhase php bucket value key call t i := by
  obtain ⟨hprocs, -⟩ := hstep.frame hl
  have hserved := hstep.servedOf_eq hl
  cases h with
  | waiting hp hs => exact .waiting (hprocs.trans hp) (hserved.trans hs)
  | ended x o hp hs hm => exact .ended x o (hprocs.trans hp) (hserved.trans hs) hm

/-- A call that ends with the answer to its request. -/
theorem ListPhase.of_answer {call : ListCall} {s : System ι} {i : ι} {isLookup : Bool} {v : Server}
    {p : Proc Zval} {o : C (Outcome Zval)} (hs : servedOf s i = []) (hp : p = .done o)
    (hm : Meets php value call (⟨i, isLookup, s.server.content, v.content⟩ : Served ι) o) :
    ListPhase php bucket value key call (s.answer i isLookup v p) i := by
  refine .ended _ o ((procs_answer_self ..).trans hp) ?_ hm
  rw [servedOf_answer_self, hs]
  rfl

theorem ListCall.says_write {call : ListCall} (h : call.isWrite = true) (elems : List Bytes) :
    call.Says php value elems .null := by
  cases call with
  | get index => cases h
  | contains val => cases h
  | size => cases h
  | push val => rfl
  | shift val => rfl
  | set index val => rfl
  | remove index => rfl
  | add val => rfl

/-- The step of a write. -/
theorem ListPhase.write {call : ListCall} {s t : System ι} {i : ι} {fate : Fate}
    (hwrite : call.isWrite = true)
    (hp : s.procs i = call.proc php bucket key) (hs : servedOf s i = [])
    (hstep : Step bucket value key s (.call i fate) t) : ListPhase php bucket value key call t i := by
  rw [call.proc_write hwrite] at hp
  cases hop : call.op php with
  | none =>
    rw [hop] at hp
    obtain ⟨o, ho, -⟩ := mutateEnd_ends (php.throws call.value) .skipped
    exact absurd (hp.trans ho) hstep.not_done
  | some op =>
    rw [hop] at hp
    obtain ⟨answer, w, ha, rfl⟩ := hstep.of_subdoc hp
    obtain ⟨o, ho, hnull, heffect⟩ := sendOne_served php bucket _ op ha
    apply ListPhase.of_answer hs ho
    refine ⟨?_, fun z elems hz _ _ => ?_, fun e he hthrows => ?_, fun f hf => ?_⟩
    · rcases heffect with hsame | ⟨-, elems, elems', hbefore, hafter, happly⟩
      · exact Or.inl hsame
      · exact Or.inr ⟨op, elems, elems', hop, hbefore, hafter, happly⟩
    · rw [hnull.endsWith z hz]
      exact call.says_write hwrite elems
    · rcases heffect with hsame | ⟨hpending, -⟩
      · exact hsame
      · rw [hpending e he] at hthrows
        cases hthrows
    · exact absurd hf (hnull.defined f)

/-- The step of a method that reads the whole document. -/
theorem ListPhase.read {call : ListCall} {s t : System ι} {i : ι} {fate : Fate}
    {compute : Zval → Zval}
    (hp : s.procs i = readValue bucket (.string key) compute) (hs : servedOf s i = [])
    (htold : ∀ elems kvs, kvs.map Prod.snd = elems.map value →
      call.Says php value elems (compute (.array kvs)))
    (hstep : Step bucket value key s (.call i fate) t) : ListPhase php bucket value key call t i := by
  obtain ⟨answer, ha, rfl⟩ := hstep.of_get hp
  obtain ⟨o, ho, hdefined, hread⟩ := readValue_served compute ha
  apply ListPhase.of_answer hs ho
  refine ⟨Or.inl rfl, fun z elems hz hbefore _ => ?_, fun _ _ _ => rfl, fun f hf => ?_⟩
  swap
  · exact absurd hf (hdefined f)
  obtain ⟨kvs, hkvs, rfl⟩ := hread z elems hz hbefore
  exact htold elems kvs hkvs

/-- **The step of a call** is its only one. -/
theorem ListPhase.call {call : ListCall} {s t : System ι} {i : ι} {fate : Fate}
    (h : ListPhase php bucket value key call s i) (hstep : Step bucket value key s (.call i fate) t) :
    ListPhase php bucket value key call t i := by
  cases h with
  | ended x o hp hs hm => exact absurd hp hstep.not_done
  | waiting hp hs =>
    cases call with
    | push val => exact .write rfl hp hs hstep
    | shift val => exact .write rfl hp hs hstep
    | set index val => exact .write rfl hp hs hstep
    | remove index => exact .write rfl hp hs hstep
    | add val => exact .write rfl hp hs hstep
    | get index =>
      obtain ⟨answer, w, ha, rfl⟩ := hstep.of_subdoc (hp.trans (listGet_eq index))
      obtain ⟨hsame, o, ho, htold⟩ := lookup_served php bucket _ ha
      apply ListPhase.of_answer hs ho
      have hcontent : w.content = s.server.content := by rw [hsame]
      refine ⟨.inl hcontent, fun z elems hz hbefore hlt => ?_, fun _ _ _ => hcontent,
        fun _ _ => ⟨hcontent, index, rfl⟩⟩
      rcases htold z elems hz hbefore with hnull | ⟨e, hpath, hz'⟩
      · exact Or.inl hnull
      · right
        rw [pathElem, pathIndex_indexPath_eq hlt] at hpath
        obtain ⟨n, hn, he⟩ := Option.bind_eq_some_iff.mp hpath
        exact ⟨n, e, hn, he, hz'⟩
    | contains val =>
      have hp : s.procs i = readValue bucket (.string key) fun value =>
        if foundIn php val value then .true else .false := hp
      apply ListPhase.read hp hs _ hstep
      intro elems kvs hkvs
      have hfound : foundIn php val (.array kvs) = _ := searchIdentical_isSome hkvs
      show (if foundIn php val (.array kvs) = true then Zval.true else Zval.false) = _
      rw [hfound]
    | size =>
      have hp : s.procs i = readValue bucket (.string key) fun value =>
        .long (Int64.ofNat (numElements value)) := hp
      apply ListPhase.read hp hs _ hstep
      intro elems kvs hkvs
      have hlen := congrArg List.length hkvs
      rw [List.length_map, List.length_map] at hlen
      show Zval.long (Int64.ofNat kvs.length) = Zval.long (Int64.ofNat elems.length)
      rw [hlen]

theorem ListPhase.step {call : ListCall} {s t : System ι} {i : ι} {l : Label ι}
    (h : ListPhase php bucket value key call s i) (hstep : Step bucket value key s l t) :
    ListPhase php bucket value key call t i := by
  cases l with
  | call j fate =>
    by_cases hj : j = i
    · subst hj
      exact h.call hstep
    · exact h.frame hstep hj
  | other => exact h.frame hstep fun hl => hl

/-- What a call has after its step: its end, and its request. -/
theorem ListPhase.ended_of_step {call : ListCall} {s t : System ι} {i : ι} {fate : Fate}
    (h : ListPhase php bucket value key call s i) (hstep : Step bucket value key s (.call i fate) t) :
    servedOf s i = [] ∧ servedOf t i ≠ [] ∧ ∃ isLookup o, t.procs i = .done o ∧
      Meets php value call (⟨i, isLookup, s.server.content, t.server.content⟩ : Served ι) o := by
  obtain ⟨isLookup, hserved⟩ := hstep.servedOf_self
  cases h with
  | ended x o hp hs hm => exact absurd hp hstep.not_done
  | waiting hp hs =>
    rw [hs, List.nil_append] at hserved
    cases (ListPhase.waiting hp hs).call hstep with
    | waiting hp' hs' =>
      rw [hserved] at hs'
      cases hs'
    | ended x o hp' hs' hm =>
      rw [hserved, List.singleton_inj] at hs'
      subst hs'
      refine ⟨hs, ?_, isLookup, o, hp', hm⟩
      rw [hserved]
      exact List.cons_ne_nil _ _

/-! ## Sequential executions -/

/-- The list after a call that has it to itself. -/
def ListCall.effect (php : Php) (call : ListCall) (elems : List Bytes) : List Bytes :=
  ((call.op php).bind fun op => op.apply elems).getD elems

/-- The list after calls one after the other, of which some do nothing. -/
def replay (php : Php) (calls : ι → ListCall) (did : ι → Bool) (initial : List Bytes)
    (order : List ι) : List Bytes :=
  order.foldl (fun elems i => if did i then (calls i).effect php elems else elems) initial

omit [DecidableEq ι] in
theorem replay_snoc (calls : ι → ListCall) (did : ι → Bool) (initial : List Bytes) (order : List ι)
    (i : ι) : replay php calls did initial (order ++ [i]) =
      if did i then (calls i).effect php (replay php calls did initial order)
      else replay php calls did initial order := by
  rw [replay, List.foldl_append]
  rfl

/-- What a call did that is not in the order is of no consequence. -/
theorem replay_update (calls : ι → ListCall) (did : ι → Bool) (initial : List Bytes) {i : ι} (d : Bool) :
    ∀ {order : List ι}, i ∉ order →
      replay php calls (Function.update did i d) initial order = replay php calls did initial order := by
  intro order
  induction order using List.reverseRecOn with
  | nil =>
    intro _
    rfl
  | append_singleton order j ih =>
    intro hi
    rw [List.mem_append, List.mem_singleton, not_or] at hi
    rw [replay_snoc, replay_snoc, ih hi.1, Function.update_of_ne (Ne.symm hi.2)]

/-- The calls so far are explained by their order: the list is what they make of it one after the
other, and each says what it would have said in its turn. -/
structure Explains (php : Php) (value : Bytes → Zval) (calls : ι → ListCall) (initial : List Bytes)
    (s : System ι) (order : List ι) (did : ι → Bool) : Prop where
  nodup : order.Nodup
  mem : ∀ i, i ∈ order ↔ servedOf s i ≠ []
  content : s.server.content = .list (replay php calls did initial order)
  answers : ∀ pre i post z, order = pre ++ i :: post → s.procs i = .done (.ok (.returned z)) →
    (calls i).Says php value (replay php calls did initial pre) z
  throws : ∀ i ∈ order, ∀ e, s.procs i = .done (.ok (.thrown e)) →
    php.throws (calls i).value = false → did i = false

/-- The lists that a document can hold. -/
def Short (c : Content) : Prop := ∀ elems, c = .list elems → elems.length < 2 ^ 63

variable {calls : ι → ListCall} {initial : List Bytes} {s t : System ι} {order : List ι} {did : ι → Bool}

omit [DecidableEq ι] in
/-- The effect of a request that changed the list is that of its call. -/
theorem Meets.effect_eq {call : ListCall} {x : Served ι} {o : C (Outcome Zval)} {elems : List Bytes}
    (hm : Meets php value call x o) (hbefore : x.before = .list elems) (hshort : elems.length < 2 ^ 63)
    (hne : x.after ≠ x.before) : x.after = .list (call.effect php elems) := by
  rcases hm.effect with hsame | ⟨op, elems₁, elems₂, hop, hb, ha, happly⟩
  · exact absurd hsame hne
  · rw [hbefore, Content.list.injEq] at hb
    subst hb
    rw [ha, ListCall.effect, hop, Option.bind_some, happly hshort]
    rfl

/-- **A step of a call** puts it behind the others. -/
theorem Explains.step {i : ι} {fate : Fate} (h : Explains php value calls initial s order did)
    (hphase : ListPhase php bucket value key (calls i) s i) (hshort : Short s.server.content)
    (hstep : Step bucket value key s (.call i fate) t) :
    Explains php value calls initial t (order ++ [i])
      (Function.update did i (decide (t.server.content ≠ s.server.content))) := by
  obtain ⟨hnone, hserved, isLookup, o, hp, hm⟩ := hphase.ended_of_step hstep
  have hfresh : i ∉ order := fun hi => (h.mem i).mp hi hnone
  have hold := @replay_update ι _ php calls did initial i
    (decide (t.server.content ≠ s.server.content)) order hfresh
  have hlt := hshort _ h.content
  have hother : ∀ j, j ≠ i → t.procs j = s.procs j ∧ servedOf t j = servedOf s j := by
    intro j hj
    have hby : ¬(Label.call i fate).By j := fun hl => hj hl.symm
    exact ⟨(hstep.frame hby).1, hstep.servedOf_eq hby⟩
  have hpre : ∀ pre j post, order = pre ++ j :: post → i ∉ pre := by
    rintro pre j post rfl hi
    exact hfresh (List.mem_append_left _ hi)
  refine ⟨?_, ?_, ?_, ?_, ?_⟩
  · exact List.nodup_append.mpr ⟨h.nodup, List.nodup_singleton i, fun a ha b hb hab =>
      hfresh (List.mem_singleton.mp hb ▸ hab ▸ ha)⟩
  · intro j
    rw [List.mem_append, List.mem_singleton]
    by_cases hj : j = i
    · subst hj
      exact iff_of_true (.inr rfl) hserved
    · rw [or_iff_left hj, (hother j hj).2]
      exact h.mem j
  · rw [replay_snoc, hold, Function.update_self]
    by_cases hne : t.server.content = s.server.content
    · rw [if_neg (by simpa using hne), hne]
      exact h.content
    · rw [if_pos (by simpa using hne)]
      exact hm.effect_eq h.content hlt hne
  · intro pre j post z horder hret
    rcases List.eq_nil_or_concat post with rfl | ⟨post', k, rfl⟩
    · obtain ⟨rfl, rfl⟩ := List.append_singleton_inj.mp horder
      rw [hold]
      rw [hp, Proc.done.injEq] at hret
      exact hm.answer z _ hret h.content hlt
    · rw [List.concat_eq_append, ← List.cons_append, ← List.append_assoc] at horder
      obtain ⟨rfl, -⟩ := List.append_singleton_inj.mp horder
      have hj : j ≠ i := by
        rintro rfl
        exact hfresh (List.mem_append_right _ List.mem_cons_self)
      rw [replay_update calls did initial _ (hpre pre j post' rfl)]
      rw [(hother j hj).1] at hret
      exact h.answers pre j post' z rfl hret
  · intro j hj e he hthrows
    rw [List.mem_append, List.mem_singleton] at hj
    by_cases hji : j = i
    · subst hji
      rw [hp, Proc.done.injEq] at he
      rw [Function.update_self, decide_eq_false_iff_not, not_not]
      exact hm.throws e he hthrows
    · rw [Function.update_of_ne hji]
      rw [(hother j hji).1] at he
      exact h.throws j (hj.resolve_right hji) e he hthrows

/-! ## Runs -/

/-- Every call waits or has ended. -/
def AllAnswered (php : Php) (bucket : BucketConf) (value : Bytes → Zval) (key : Bytes)
    (calls : ι → ListCall) (s : System ι) : Prop :=
  ∀ i, ListPhase php bucket value key (calls i) s i

/-- What the steps of the calls keep. -/
structure ListInv (php : Php) (bucket : BucketConf) (value : Bytes → Zval) (key : Bytes)
    (calls : ι → ListCall) (initial : List Bytes) (s : System ι) : Prop where
  phases : AllAnswered php bucket value key calls s
  explained : ∃ order did, Explains php value calls initial s order did

/-- A step of one of the calls, on a list that a document can hold. -/
def CallOnly (s : System ι) (l : Label ι) : Prop :=
  (∃ i fate, l = .call i fate) ∧ Short s.server.content

/-- **The methods with one request are linearizable**, when what they write fits: in every state of
every run each call has made no request, or one that did what the call is for and that the call's answer is true of; and
when nobody else changes the document, the calls are explained by their order. -/
theorem lists_linearizable {p : List (Label ι × System ι)}
    (hcalls : ∀ i, (calls i).method php bucket key = some (s.procs i))
    (hfits : ∀ i, (calls i).Fits php key) (hserved : s.served = [])
    (hrun : StepSystem.Path (Step bucket value key) s p) :
    (∀ x ∈ p, AllAnswered php bucket value key calls x.2) ∧
      ∀ initial, s.server.content = .list initial → StepSystem.Meets CallOnly s p →
        ∀ x ∈ p, ∃ order did, Explains php value calls initial x.2 order did := by
  have hnone : ∀ i, servedOf s i = [] := by
    intro i
    rw [servedOf, hserved]
    rfl
  have hproc : ∀ i, s.procs i = (calls i).proc php bucket key := by
    intro i
    have hcall := hcalls i
    rw [ListCall.method_eq (hfits i)] at hcall
    exact (Option.some.inj hcall).symm
  have hstart : AllAnswered php bucket value key calls s := fun i => .waiting (hproc i) (hnone i)
  have hkeep : ∀ s l t, AllAnswered php bucket value key calls s → Step bucket value key s l t →
      AllAnswered php bucket value key calls t := fun s l t h hstep i => (h i).step hstep
  refine ⟨hrun.invariant hstart hkeep, fun initial hinitial hmeets => ?_⟩
  have hbegin : Explains php value calls initial s [] fun _ => false := by
    refine ⟨List.nodup_nil, fun i => ?_, hinitial, ?_, fun i hi => nomatch hi⟩
    · exact iff_of_false List.not_mem_nil (not_not.mpr (hnone i))
    · intro pre i post z hnil
      exact absurd hnil.symm (List.append_ne_nil_of_right_ne_nil pre (List.cons_ne_nil i post))
  have hinv : ∀ x ∈ p, ListInv php bucket value key calls initial x.2 := by
    refine hrun.invariant_of_meets hmeets ⟨hstart, [], _, hbegin⟩ ?_
    rintro s l t ⟨hall, order, did, h⟩ ⟨⟨i, fate, rfl⟩, hshort⟩ hstep
    exact ⟨hkeep s _ t hall hstep, _, _, h.step (hall i) hshort hstep⟩
  exact fun x hx => (hinv x hx).explained

/-! ## A concrete run -/

/-- One call pushes, the other asks for the size. -/
def listCalls : Bool → ListCall
  | true => .push (.string (ascii "y"))
  | false => .size

def listStart : System Bool where
  server := ⟨.list [quoted "x"], 7, []⟩
  procs i := (listCalls i).proc plainPhp setBucket (ascii "k")
  served := []

def listPushed : System Bool :=
  listStart.answer true false ⟨.list [quoted "x", quoted "y"], 8, [7]⟩
    (.done (.ok (.returned .null)))

def listSized : System Bool :=
  listPushed.answer false true listPushed.server (.done (.ok (.returned (.long 2))))

/-- The command of the push. -/
def pushCommand : SubdocCommand := ⟨ascii "k", [ListOp.spec (.append (quoted "y"))], 0⟩

theorem listRun : StepSystem.Path (Step setBucket plainPhp.jsonDecode (ascii "k")) listStart
    [(.call true .answered, listPushed), (.call false .answered, listSized)] := by
  have hpush : ServesSubdoc listStart.server pushCommand .answered (.response ⟨.success, 8, none, []⟩)
      listPushed.server :=
    .applied rfl rfl (Or.inl rfl) rfl ⟨rfl, rfl, by decide⟩ (by decide) rfl rfl
  have hget : AnswersGet setBucket plainPhp.jsonDecode listPushed.server .answered
      (.response { setGetResponse with cas := 8 }) :=
    .list rfl rfl rfl ⟨by decide, by decide, _, rfl, rfl⟩
  have hproc : listStart.procs true = .subdoc pushCommand fun answer =>
      mutateEnd false (requested plainPhp setBucket pushCommand answer) := rfl
  have hproc' : listPushed.procs false = mapSize setBucket (.string (ascii "k")) := rfl
  apply StepSystem.Path.cons (Step.subdoc hproc rfl hpush)
  apply StepSystem.Path.cons (Step.get hproc' hget)
  exact .nil listSized

theorem listCalls_method (i : Bool) :
    (listCalls i).method plainPhp setBucket (ascii "k") = some (listStart.procs i) := by
  cases i <;> rfl

theorem listCalls_fit (i : Bool) : (listCalls i).Fits plainPhp (ascii "k") := by
  intro write hwrite
  cases i with
  | false => cases hwrite
  | true =>
    obtain rfl := Option.some.inj hwrite
    refine ⟨by decide, by decide, fun val hval text htext => ?_⟩
    obtain rfl := Option.some.inj hval
    obtain rfl := Option.some.inj htext
    decide

/-- The size is asked for after the push: two. -/
theorem push_before_size :
    AllAnswered plainPhp setBucket plainPhp.jsonDecode (ascii "k") listCalls listSized ∧
      ∃ order did, Explains plainPhp plainPhp.jsonDecode listCalls [quoted "x"] listSized order did := by
  obtain ⟨hanswered, hexplained⟩ :=
    lists_linearizable listCalls_method listCalls_fit rfl listRun
  have hmeets : StepSystem.Meets CallOnly listStart
      [(.call true .answered, listPushed), (.call false .answered, listSized)] := by
    refine ⟨⟨⟨_, _, rfl⟩, fun elems helems => ?_⟩, ⟨⟨_, _, rfl⟩, fun elems helems => ?_⟩, trivial⟩
    · obtain rfl := Content.list.inj helems
      decide
    · obtain rfl := Content.list.inj helems
      decide
  exact ⟨hanswered (.call false .answered, listSized) (by simp),
    hexplained _ rfl hmeets (.call false .answered, listSized) (by simp)⟩

end PhpCouchbase
