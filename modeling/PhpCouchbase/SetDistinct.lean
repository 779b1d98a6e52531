import PhpCouchbase.ListHistory

/-!
# Sets stay sets

What holds of a document and is kept by every command that the methods of `bucket.c` can send holds
in every run, whether their answers arrive or not.

* `Proc.Sends` — all the commands that a method can ever send.
* `sends_run` — a property of the document that they keep is kept in every run.
* `sets_stay_distinct` — in a set that only `setAdd` and the methods that read or remove work on, no
  element is there twice.
* `sets_only_grow` — what only `setAdd` and the methods that read work on loses nothing.
-/

set_option autoImplicit false

namespace PhpCouchbase

/-! ## All commands of a method -/

/-- Whatever is answered, each command meets `P`. -/
def Proc.Sends {ρ : Type} (P : SubdocCommand → Prop) : Proc ρ → Prop
  | .done _ => True
  | .get _ next => ∀ answer, (next answer).Sends P
  | .subdoc cmd next => P cmd ∧ ∀ answer, (next answer).Sends P

/-- The command keeps a property of the document, whatever the server makes of it. -/
def SubdocCommand.Keeps (I : Content → Prop) (cmd : SubdocCommand) : Prop :=
  ∀ v fate answer w, ServesSubdoc v cmd fate answer w → I v.content → I w.content

variable {ι : Type} [DecidableEq ι] {php : Php} {bucket : BucketConf} {value : Bytes → Zval}
  {key : Bytes} {I : Content → Prop} {P : SubdocCommand → Prop}

theorem sends_request {cmd : SubdocCommand} {next : Requested → Proc Zval} (hcmd : P cmd)
    (hnext : ∀ r, (next r).Sends P) : (bucketSubdocRequest php bucket cmd next).Sends P := by
  unfold bucketSubdocRequest
  split
  · exact hnext .skipped
  · exact ⟨hcmd, fun answer => hnext _⟩

theorem sends_mutateEnd (thrown : Bool) (r : Requested) : (mutateEnd thrown r).Sends P := by
  cases r <;> trivial

theorem sends_sendOne (thrown : Bool) {spec : Option SdSpec}
    (h : ∀ s, spec = some s → P ⟨key, [s], 0⟩) : (sendOne php bucket key thrown spec).Sends P := by
  cases spec with
  | none => exact sends_mutateEnd thrown .skipped
  | some s => exact ⟨h s rfl, fun answer => sends_mutateEnd thrown _⟩

theorem sends_readValue (id : Zval) (compute : Zval → Zval) :
    (readValue bucket id compute).Sends P := by
  unfold readValue
  split
  · intro answer
    dsimp only
    split <;> trivial
  · trivial

/-- The document has the property, and every command that may still be sent keeps it. -/
structure SendsInv (I : Content → Prop) (s : System ι) : Prop where
  document : I s.server.content
  procs : ∀ i, (s.procs i).Sends (SubdocCommand.Keeps I)

theorem SendsInv.step {s t : System ι} {i : ι} {fate : Fate} (h : SendsInv I s)
    (hstep : Step bucket value key s (.call i fate) t) : SendsInv I t := by
  have hrest : ∀ (isLookup : Bool) (v : Server) (p : Proc Zval),
      p.Sends (SubdocCommand.Keeps I) →
      ∀ j, ((s.answer i isLookup v p).procs j).Sends (SubdocCommand.Keeps I) := by
    intro isLookup v p hp j
    by_cases hj : j = i
    · rw [hj, procs_answer_self]
      exact hp
    · rw [procs_answer_ne s hj]
      exact h.procs j
  have hsends := h.procs i
  cases hstep with
  | @get _ next _ answer hp ha =>
    rw [hp] at hsends
    exact ⟨h.document, hrest _ _ _ (hsends answer)⟩
  | @subdoc _ cmd next fate answer v hp hkey ha =>
    rw [hp] at hsends
    exact ⟨hsends.1 s.server fate answer v ha h.document, hrest _ _ _ (hsends.2 answer)⟩

/-- **A property that all commands keep** holds in every run of the calls. -/
theorem sends_run {s : System ι} {p : List (Label ι × System ι)} (h : SendsInv I s)
    (hrun : StepSystem.Path (Step bucket value key) s p) (hclosed : ∀ x ∈ p, ∃ i fate, x.1 = .call i fate) :
    ∀ x ∈ p, I x.2.server.content := by
  have hmeets : StepSystem.Meets (fun _ l => ∃ i fate, l = .call i fate) s p :=
    StepSystem.meets_label_iff.mpr hclosed
  have hinv : ∀ x ∈ p, SendsInv I x.2 := by
    apply hrun.invariant_of_meets hmeets h
    rintro s l t h ⟨i, fate, rfl⟩ hstep
    exact h.step hstep
  exact fun x hx => (hinv x hx).document

/-! ## Commands on a list -/

/-- A lookup keeps everything. -/
theorem keeps_lookup {cmd : SubdocCommand} (hl : cmd.isLookup = true) : cmd.Keeps I := by
  intro v fate answer w ha hv
  cases ha with
  | applied hl' => rw [hl] at hl'; cases hl'
  | unanswered hl' => rw [hl] at hl'; cases hl'
  | refused => exact hv
  | failed => exact hv
  | lookup => exact hv
  | lookupOther => exact hv
  | notApplied => exact hv

/-- A command with one spec keeps what its spec keeps. -/
theorem keeps_spec {spec : SdSpec} {cas : UInt64}
    (h : ∀ elems elems', applySpec elems spec = some elems' → I (.list elems) → I (.list elems')) :
    SubdocCommand.Keeps I ⟨key, [spec], cas⟩ := by
  intro v fate answer w ha hv
  -- the document after the change, whether it is answered or not
  have hdone : ∀ {elems elems' w}, v.content = .list elems → applySpecs elems [spec] = some elems' →
      v.Changes (.list elems') w → I w.content := by
    intro elems elems' w hc happly hw
    rw [applySpecs_singleton] at happly
    rw [hc] at hv
    rw [hw.content]
    exact h elems elems' happly hv
  cases ha with
  | refused => exact hv
  | failed => exact hv
  | lookup => exact hv
  | lookupOther => exact hv
  | notApplied => exact hv
  | applied hl hc hguard happly hw => exact hdone hc happly hw
  | unanswered hl hc hguard happly hw => exact hdone hc happly hw

/-- No element is there twice. -/
def Distinct : Content → Prop
  | .list elems => elems.Nodup
  | _ => True

theorem keeps_distinct_remove (path : Bytes) (cas : UInt64) :
    SubdocCommand.Keeps Distinct ⟨key, [removeSpec path noOptions], cas⟩ := by
  apply keeps_spec
  intro elems elems' happly hv
  change (pathIndex elems path).map elems.eraseIdx = some elems' at happly
  obtain ⟨n, -, rfl⟩ := Option.map_eq_some_iff.mp happly
  exact hv.sublist (List.eraseIdx_sublist elems n)

theorem keeps_distinct_addUnique (text : Bytes) :
    SubdocCommand.Keeps Distinct ⟨key, [ListOp.spec (.addUnique text)], 0⟩ := by
  apply keeps_spec
  intro elems elems' happly hv
  change (if [] = [] ∧ text ∉ elems then some (elems ++ [text]) else none) = some elems' at happly
  split at happly
  · rename_i hfresh
    cases happly
    show (elems ++ [text]).Nodup
    rw [List.nodup_append]
    refine ⟨hv, List.nodup_singleton text, ?_⟩
    intro a ha b hb hab
    rw [List.mem_singleton.mp hb] at hab
    exact hfresh.2 (hab ▸ ha)
  · cases happly

/-- The list has the elements it began with, in front. -/
def Extends (initial : List Bytes) (c : Content) : Prop := ∃ more, c = .list (initial ++ more)

theorem keeps_extends_addUnique (initial : List Bytes) (text : Bytes) :
    SubdocCommand.Keeps (Extends initial) ⟨key, [ListOp.spec (.addUnique text)], 0⟩ := by
  apply keeps_spec
  rintro elems elems' happly ⟨more, hmore⟩
  cases hmore
  change (if [] = [] ∧ text ∉ initial ++ more then some (initial ++ more ++ [text]) else none) =
    some elems' at happly
  split at happly
  · cases happly
    exact ⟨more ++ [text], by rw [List.append_assoc]⟩
  · cases happly

/-! ## The methods on a set -/

/-- A call on a set. -/
inductive SetCall where
  | add (val : Zval)
  | contains (val : Zval)
  | size
  | get (index : Int64)
  | remove (val : Zval)
  | removeAt (index : Int64)
  | pop

namespace SetCall

def proc (php : Php) (bucket : BucketConf) (key : Bytes) : SetCall → Proc Zval
  | add val => setAdd php bucket key val
  | contains val => setExists php bucket (.string key) val
  | size => mapSize bucket (.string key)
  | get index => listGet php bucket key index
  | remove val => setRemove php bucket (.string key) val
  | removeAt index => listRemove php bucket key index
  | pop => queueRemove php bucket key

/-- The calls that take nothing out. -/
def keepsAll : SetCall → Bool
  | remove _ => false
  | removeAt _ => false
  | pop => false
  | _ => true

theorem setAdd_sends {val : Zval} (h : ∀ text, P ⟨key, [ListOp.spec (.addUnique text)], 0⟩) :
    (setAdd php bucket key val).Sends P := by
  have hproc : ListCall.proc php bucket key (.add val) = _ := ListCall.proc_write rfl
  change setAdd php bucket key val = _ at hproc
  rw [hproc]
  apply sends_sendOne
  intro s hs
  obtain ⟨op, hop, rfl⟩ := Option.map_eq_some_iff.mp hs
  obtain ⟨text, -, rfl⟩ := Option.map_eq_some_iff.mp hop
  exact h text

theorem listGet_sends (index : Int64) (h : P (lookupCommand key (indexPath index))) :
    (listGet php bucket key index).Sends P := by
  rw [listGet_eq]
  refine ⟨h, fun answer => ?_⟩
  cases answer <;> trivial

theorem setExists_sends (val : Zval) : (setExists php bucket (.string key) val).Sends P :=
  sends_readValue (.string key) fun value => if foundIn php val value then .true else .false

theorem mapSize_sends : (mapSize bucket (.string key)).Sends P :=
  sends_readValue (.string key) fun value => .long (Int64.ofNat (numElements value))

theorem setRemove_sends (val : Zval)
    (h : ∀ path cas, P ⟨key, [removeSpec path noOptions], cas⟩) :
    (setRemove php bucket (.string key) val).Sends P := by
  rw [setRemove_eq]
  intro answer
  unfold setRemoveRead
  split
  · trivial
  · trivial
  · unfold setRemoveFrom
    split
    · split
      · apply sends_request (h _ _)
        intro r
        cases r <;> trivial
      · trivial
    · trivial

theorem queueRemove_sends (hlookup : P (lastCommand key))
    (h : ∀ path cas, P ⟨key, [removeSpec path noOptions], cas⟩) :
    (queueRemove php bucket key).Sends P := by
  rw [queueRemove_eq]
  refine ⟨hlookup, fun answer => ?_⟩
  dsimp only
  generalize requested php bucket (lastCommand key) answer = r
  cases r with
  | skipped => trivial
  | threw e => trivial
  | fragment f =>
    unfold queueRemoveRead
    dsimp only
    split
    · apply sends_request (h _ _)
      intro r
      cases r <;> trivial
    · trivial

theorem listRemove_sends (index : Int64)
    (h : ∀ path cas, P ⟨key, [removeSpec path noOptions], cas⟩) :
    (listRemove php bucket key index).Sends P := by
  apply sends_request (h _ _)
  intro r
  cases r <;> trivial

/-- **Every command of a call keeps a set a set.** -/
theorem sends_distinct (call : SetCall) :
    (call.proc php bucket key).Sends (SubdocCommand.Keeps Distinct) := by
  cases call with
  | add val => exact setAdd_sends keeps_distinct_addUnique
  | contains val => exact setExists_sends val
  | size => exact mapSize_sends
  | get index => exact listGet_sends index (keeps_lookup rfl)
  | remove val => exact setRemove_sends val keeps_distinct_remove
  | removeAt index => exact listRemove_sends index keeps_distinct_remove
  | pop => exact queueRemove_sends (keeps_lookup rfl) keeps_distinct_remove

/-- **Every command of a call that takes nothing out** keeps what is there. -/
theorem sends_extends {call : SetCall} (h : call.keepsAll = true) (initial : List Bytes) :
    (call.proc php bucket key).Sends (SubdocCommand.Keeps (Extends initial)) := by
  cases call with
  | add val => exact setAdd_sends (keeps_extends_addUnique initial)
  | contains val => exact setExists_sends val
  | size => exact mapSize_sends
  | get index => exact listGet_sends index (keeps_lookup rfl)
  | remove val => cases h
  | removeAt index => cases h
  | pop => cases h

end SetCall

/-! ## Runs -/

variable {s : System ι} {calls : ι → SetCall} {p : List (Label ι × System ι)}

/-- **Sets stay sets**: in every state of every run of calls that add with `setAdd`, read or remove,
no element of the document is there twice. -/
theorem sets_stay_distinct (hcalls : ∀ i, s.procs i = (calls i).proc php bucket key)
    (hdistinct : Distinct s.server.content)
    (hrun : StepSystem.Path (Step bucket value key) s p)
    (hclosed : ∀ x ∈ p, ∃ i fate, x.1 = .call i fate) : ∀ x ∈ p, Distinct x.2.server.content := by
  apply sends_run ⟨hdistinct, fun i => ?_⟩ hrun hclosed
  rw [hcalls i]
  exact (calls i).sends_distinct

/-- **Sets only grow** in the runs of calls that take nothing out. -/
theorem sets_only_grow {initial : List Bytes}
    (hcalls : ∀ i, s.procs i = (calls i).proc php bucket key)
    (hkeeps : ∀ i, (calls i).keepsAll = true) (hinitial : s.server.content = .list initial)
    (hrun : StepSystem.Path (Step bucket value key) s p)
    (hclosed : ∀ x ∈ p, ∃ i fate, x.1 = .call i fate) : ∀ x ∈ p, Extends initial x.2.server.content := by
  have hstart : Extends initial s.server.content := ⟨[], by rw [hinitial, List.append_nil]⟩
  apply sends_run ⟨hstart, fun i => ?_⟩ hrun hclosed
  rw [hcalls i]
  exact (calls i).sends_extends (hkeeps i) initial

/-! ## A concrete run -/

/-- Two calls of `setAdd("k", "z")` on `["x","y"]`. -/
def addCalls : Bool → SetCall := fun _ => .add (.string (ascii "z"))

def addStart : System Bool :=
  ⟨setServer, fun i => (addCalls i).proc plainPhp setBucket (ascii "k"), []⟩

def addCommand : SubdocCommand := ⟨ascii "k", [ListOp.spec (.addUnique (quoted "z"))], 0⟩

def addedServer : Server := ⟨.list [quoted "x", quoted "y", quoted "z"], 8, [7]⟩

/-- The first one adds it. -/
def addOne : System Bool := addStart.answer true false addedServer (.done (.ok (.returned .null)))

/-- The second one comes upon it. -/
def addTwo : System Bool := addOne.answer false false addedServer (.done (.ok (.returned .null)))

theorem addRun : StepSystem.Path (Step setBucket plainPhp.jsonDecode (ascii "k")) addStart
    [(.call true .answered, addOne), (.call false .answered, addTwo)] := by
  have hadd : ServesSubdoc setServer addCommand .answered (.response ⟨.success, 8, none, []⟩)
      addedServer :=
    .applied rfl rfl (Or.inl rfl) rfl ⟨rfl, rfl, by decide⟩ (by decide) rfl rfl
  have hpresent : ServesSubdoc addedServer addCommand .answered
      (.response ⟨.subdocMultiFailure, 8, none, []⟩) addedServer := by
    refine .notApplied rfl (Or.inl rfl) (fun elems helems => ?_) rfl
    obtain rfl := Content.list.inj helems
    rfl
  have hfirst : addStart.procs true = .subdoc addCommand fun answer =>
      mutateEnd false (requested plainPhp setBucket addCommand answer) := rfl
  have hsecond : addOne.procs false = .subdoc addCommand fun answer =>
      mutateEnd false (requested plainPhp setBucket addCommand answer) := rfl
  apply StepSystem.Path.cons (Step.subdoc hfirst rfl hadd)
  apply StepSystem.Path.cons (Step.subdoc hsecond rfl hpresent)
  exact .nil addTwo

theorem addRun_closed : ∀ x ∈ [(Label.call true .answered, addOne), (Label.call false .answered, addTwo)],
    ∃ i fate, x.1 = Label.call i fate := by simp

/-- `"z"` is there once. -/
theorem set_with_z_distinct : Distinct addTwo.server.content := by
  have hstart : Distinct addStart.server.content := by
    show [quoted "x", quoted "y"].Nodup
    decide
  have hcalls : ∀ i, addStart.procs i = (addCalls i).proc plainPhp setBucket (ascii "k") :=
    fun _ => rfl
  exact sets_stay_distinct hcalls hstart addRun addRun_closed (.call false .answered, addTwo) (by simp)

/-- `["x","y"]` is still there. -/
theorem set_with_z_extends : Extends [quoted "x", quoted "y"] addTwo.server.content := by
  have hcalls : ∀ i, addStart.procs i = (addCalls i).proc plainPhp setBucket (ascii "k") :=
    fun _ => rfl
  exact sets_only_grow hcalls (fun _ => rfl) rfl addRun addRun_closed
    (.call false .answered, addTwo) (by simp)

end PhpCouchbase
