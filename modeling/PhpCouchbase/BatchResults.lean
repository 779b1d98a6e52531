import PhpCouchbase.Batch

/-!
# What a key-value method returns

The ends of the loops in `bucket/get.c`, `store.c`, `remove.c`, `touch.c`, `unlock.c` and
`counter.c`.

* `loopEnd` — the scheduling loop faults, stops at one entry, or schedules every entry.
* `batch_fault`, `batch_invalid`, `batch_unscheduled`, `batch_waited` — what the call does then;
  `callEnd` — the ways in which it ends.
* `procResults_mapped`, `procResults_single`, `procResults_unreadable` — what the results become.
* `Operation.scheduledAt_id` — a command carries the id of its entry.
-/

set_option autoImplicit false

namespace PhpCouchbase

open OrderedMap EarlyExit

/-! ## Commands carry their id -/

theorem Operation.command_key (op : Operation) {lval : Zval → Int64} {e : PpEntry}
    {value : EncodedValue} {cmd : Command} (h : op.method.command lval e value = .ok cmd) :
    cmd.key = e.id := by
  have hbind : ∀ f : Option Bytes → Command, (∀ hash, (f hash).key = e.id) →
      (hashkey e >>= fun hash => (pure (f hash) : C Command)) = .ok cmd → cmd.key = e.id := by
    intro f hf hcmd
    obtain ⟨hash, -, hcmd⟩ := C.bind_eq_ok.mp hcmd
    cases hcmd
    exact hf hash
  cases op with
  | get =>
    refine hbind _ (fun hash => ?_) h
    split <;> rfl
  | touch =>
    simp only [Operation.method, PhpCouchbase.touch] at h
    split at h
    · cases h
    · exact hbind _ (fun _ => rfl) h
  | _ => exact hbind _ (fun _ => rfl) h

/-! ## The loop -/

/-- The command scheduled for entry number `k`. -/
def ScheduledAt (m : BatchMethod) (w : World) (st : PpState) (k : Nat) (cmd : Command) : Prop :=
  ∃ entry, (ppEntries st)[k]? = some entry ∧ batchEntry m w k entry = .ok (.inr cmd)

/-- Entry number `k` is reached and ends the loop. -/
def StopsAt (m : BatchMethod) (w : World) (st : PpState) (k : Nat) (s : Stop) : Prop :=
  (∀ j, j < k → ∃ cmd, ScheduledAt m w st j cmd) ∧
    ∃ entry, (ppEntries st)[k]? = some entry ∧ batchEntry m w k entry = .ok (.inl s)

/-- Every entry is scheduled. -/
def AllScheduled (m : BatchMethod) (w : World) (st : PpState) : Prop :=
  ∀ k, k < (ppEntries st).length → ∃ cmd, ScheduledAt m w st k cmd

/-- The responses to the first `n` commands can be turned into documents. -/
def Readable (m : BatchMethod) (w : World) (st : PpState) (n : Nat) : Prop :=
  ∀ k cmd, k < n → ScheduledAt m w st k cmd →
    ∃ doc, resultDocument m w.bucket (w.respond k cmd) = .ok doc

theorem passedBefore_iff {m : BatchMethod} {w : World} {st : PpState} {k : Nat} :
    PassedBefore (batchEntry m w) 0 (ppEntries st) k ↔
      ∀ j, j < k → ∃ cmd, ScheduledAt m w st j cmd := by
  constructor
  · intro h j hj
    obtain ⟨entry, cmd, he, hb⟩ := h j hj
    rw [Nat.zero_add] at hb
    exact ⟨cmd, entry, he, hb⟩
  · intro h j hj
    obtain ⟨cmd, entry, he, hb⟩ := h j hj
    exact ⟨entry, cmd, he, by rw [Nat.zero_add]; exact hb⟩

theorem ScheduledAt.unique {m : BatchMethod} {w : World} {st : PpState} {k : Nat}
    {cmd cmd' : Command} (h : ScheduledAt m w st k cmd) (h' : ScheduledAt m w st k cmd') :
    cmd = cmd' := by
  obtain ⟨e, he, hb⟩ := h
  obtain ⟨e', he', hb'⟩ := h'
  rw [he, Option.some.injEq] at he'
  subst he'
  rw [hb] at hb'
  simpa using hb'

theorem StopsAt.unique {m : BatchMethod} {w : World} {st : PpState} {k l : Nat} {s t : Stop}
    (h : StopsAt m w st k s) (h' : StopsAt m w st l t) : k = l ∧ s = t := by
  obtain ⟨hk, e, he, hb⟩ := h
  obtain ⟨hl, e', he', hb'⟩ := h'
  have hkl : k = l := by
    refine stop_unique (passedBefore_iff.mpr hk) he ?_
      (passedBefore_iff.mpr hl) he' ?_
    · intro b habs
      rw [Nat.zero_add, hb] at habs
      simp at habs
    · intro b habs
      rw [Nat.zero_add, hb'] at habs
      simp at habs
  subst hkl
  rw [he, Option.some.injEq] at he'
  subst he'
  rw [hb] at hb'
  exact ⟨rfl, by simpa using hb'⟩

theorem StopsAt.not_allScheduled {m : BatchMethod} {w : World} {st : PpState} {k : Nat} {s : Stop}
    (h : StopsAt m w st k s) : ¬ AllScheduled m w st := by
  intro hall
  obtain ⟨-, e, he, hb⟩ := h
  obtain ⟨cmd, e', he', hb'⟩ := hall k (List.getElem?_eq_some_iff.mp he).1
  rw [he, Option.some.injEq] at he'
  subst he'
  rw [hb] at hb'
  simp at hb'

/-- A failing entry does not leave the loop with success. -/
theorem batchEntry_failed_ne {m : BatchMethod} {w : World} {k : Nat} {entry : C PpEntry}
    {err : LcbError} (h : batchEntry m w k entry = .ok (.inl (.failed err))) : err ≠ .success := by
  unfold batchEntry at h
  obtain ⟨e, -, h⟩ := C.bind_eq_ok.mp h
  split at h
  · simp at h
  · obtain ⟨v, hv, h⟩ := C.bind_eq_ok.mp h
    split at h
    · simp only [C.pure_eq, Except.ok.injEq, Sum.inl.injEq] at h
      subst h
      unfold entryValue at hv
      split at hv
      · split at hv
        · cases hv
        · split at hv
          · simp at hv
          · split at hv
            · simp only [Except.ok.injEq, Sum.inl.injEq, Stop.failed.injEq] at hv
              rw [← hv]
              simp
            · simp at hv
      · simp at hv
    · obtain ⟨cmd, -, h⟩ := C.bind_eq_ok.mp h
      split at h
      · simp at h
      · rename_i hne
        simp only [C.pure_eq, Except.ok.injEq, Sum.inl.injEq, Stop.failed.injEq] at h
        rw [← h]
        exact fun habs => hne habs

/-! ## The results -/

/-- The document of a response that can be read. -/
def documentOf (m : BatchMethod) (bucket : BucketConf) (resp : Response) : Document :=
  match resultDocument m bucket resp with
  | .ok doc => doc
  | .error _ => {}

/-- The element that one command contributes to the result array. -/
def resultElem (m : BatchMethod) (w : World) (p : Command × Nat) : Bytes × Document :=
  (p.1.key.take (m.keyLen p.1.key), documentOf m w.bucket (w.respond p.2 p.1))

/-- The array that the results become. -/
def resultArray (m : BatchMethod) (w : World) (scheduled : List Command) :
    List (ArrayKey × Document) :=
  fill [] ((w.deliver scheduled.zipIdx).map fun p =>
    (.str (resultElem m w p).1, (resultElem m w p).2))

theorem foldl_bopGetReturnDoc (docs : List (Bytes × Document)) (elems : List (ArrayKey × Document)) :
    docs.foldl (fun ret (key, doc) => bopGetReturnDoc true ret key doc) (.array elems) =
      .array (fill elems (docs.map fun d => (.str d.1, d.2))) := by
  induction docs generalizing elems with
  | nil => rfl
  | cons d docs ih =>
    rw [List.foldl_cons, List.map_cons, fill_cons]
    exact ih _

theorem mem_deliver_iff (w : World) (scheduled : List Command) (cmd : Command) (k : Nat) :
    (cmd, k) ∈ w.deliver scheduled.zipIdx ↔ scheduled[k]? = some cmd := by
  rw [(w.deliver_perm _).mem_iff, List.mk_mem_zipIdx_iff_getElem?]

/-- The results of the commands `scheduled`, with the keys and documents of their own responses. -/
theorem procResults_mapM {m : BatchMethod} {w : World} {scheduled : List Command}
    (hread : ∀ k cmd, scheduled[k]? = some cmd →
      ∃ doc, resultDocument m w.bucket (w.respond k cmd) = .ok doc) :
    ((w.deliver scheduled.zipIdx).map (callback m w)).mapM
        (fun res => do return (res.key.take res.keyLen, ← resultDocument m w.bucket res.resp)) =
      (.ok ((w.deliver scheduled.zipIdx).map (resultElem m w)) : C (List (Bytes × Document))) := by
  rw [List.mapM_map]
  refine C.mapM_eq_map fun p hp => ?_
  obtain ⟨cmd, k⟩ := p
  obtain ⟨doc, hdoc⟩ := hread k cmd ((mem_deliver_iff w scheduled cmd k).mp hp)
  simp only [Function.comp, callback, hdoc, C.bind_ok, resultElem, documentOf, C.pure_eq]

theorem procResults_error {m : BatchMethod} {w : World} {scheduled : List Command} {k : Nat}
    {cmd : Command} {f : Fault} (hk : scheduled[k]? = some cmd)
    (hf : resultDocument m w.bucket (w.respond k cmd) = .error f) :
    ∃ f', ((w.deliver scheduled.zipIdx).map (callback m w)).mapM
      (fun res => do return (res.key.take res.keyLen, ← resultDocument m w.bucket res.resp)) =
        (.error f' : C (List (Bytes × Document))) := by
  rw [List.mapM_map]
  refine C.mapM_eq_error (a := (cmd, k)) ((mem_deliver_iff w scheduled cmd k).mpr hk) (e := f) ?_
  simp only [Function.comp, callback, hf, C.bind_error]

/-- The cookie of a call after the wait. -/
def callCookie (m : BatchMethod) (w : World) (scheduled : List Command) : Opcookie OpResult :=
  Opcookie.collect (·.resp.rc) ((w.deliver scheduled.zipIdx).map (callback m w))

/-- **With an array of ids** the results become an array and the errors stay in its documents. -/
theorem procResults_mapped {m : BatchMethod} {w : World} {scheduled : List Command}
    (hne : scheduled ≠ [])
    (hread : ∀ k cmd, scheduled[k]? = some cmd →
      ∃ doc, resultDocument m w.bucket (w.respond k cmd) = .ok doc) :
    procResults m w.bucket (callCookie m w scheduled) true =
      .ok (.success, .array (resultArray m w scheduled)) := by
  have hpos : (w.deliver scheduled.zipIdx).map (resultElem m w) ≠ [] := by
    rw [Ne, List.map_eq_nil_iff]
    intro hnil
    have hlen := (w.deliver_perm scheduled.zipIdx).length_eq
    rw [hnil, List.length_zipIdx] at hlen
    exact hne (List.length_eq_zero_iff.mp hlen.symm)
  unfold procResults
  simp only [if_true]
  unfold callCookie
  rw [Opcookie.collect_results, procResults_mapM hread, C.bind_ok, C.pure_eq]
  congr 2
  obtain ⟨d, docs, hdocs⟩ := List.exists_cons_of_ne_nil hpos
  have harray : resultArray m w scheduled =
      fill [] (((w.deliver scheduled.zipIdx).map (resultElem m w)).map fun d => (.str d.1, d.2)) := by
    unfold resultArray
    rw [List.map_map]
    rfl
  rw [harray, hdocs, List.foldl_cons, List.map_cons, fill_cons]
  exact foldl_bopGetReturnDoc docs _

/-- With one command the first error is the error of its response. -/
theorem callCookie_single (m : BatchMethod) (w : World) (cmd : Command) :
    (callCookie m w [cmd]).firstError = (w.respond 0 cmd).rc := by
  have hone : w.deliver [cmd].zipIdx = [(cmd, 0)] := List.perm_singleton.mp (w.deliver_perm _)
  rw [callCookie, hone]
  show (if (w.respond 0 cmd).rc ≠ .success ∧ LcbError.success = .success then (w.respond 0 cmd).rc
    else .success) = _
  split
  · rfl
  · rename_i h
    by_contra hne
    exact h ⟨fun hrc => hne hrc.symm, rfl⟩

/-- With one id as a string the document of a successful response is the result. -/
theorem procResults_single_eq {m : BatchMethod} {w : World} {cmd : Command}
    (hrc : (w.respond 0 cmd).rc = .success) :
    procResults m w.bucket (callCookie m w [cmd]) false = (do
      let doc ← resultDocument m w.bucket (w.respond 0 cmd)
      return (.success, .document doc)) := by
  have hone : w.deliver [cmd].zipIdx = [(cmd, 0)] := List.perm_singleton.mp (w.deliver_perm _)
  unfold procResults
  simp only [Bool.false_eq_true, if_false, callCookie_single, hrc, if_true]
  unfold callCookie
  rw [hone, Opcookie.collect_results, List.map_singleton, List.mapM_cons, List.mapM_nil]
  have hresp : (callback m w (cmd, 0)).resp = w.respond 0 cmd := rfl
  rw [hresp]
  cases resultDocument m w.bucket (w.respond 0 cmd) <;> rfl

/-- **With one id as a string** a successful response becomes the document of the call. -/
theorem procResults_single {m : BatchMethod} {w : World} {cmd : Command} {doc : Document}
    (hrc : (w.respond 0 cmd).rc = .success)
    (hdoc : resultDocument m w.bucket (w.respond 0 cmd) = .ok doc) :
    procResults m w.bucket (callCookie m w [cmd]) false = .ok (.success, .document doc) := by
  rw [procResults_single_eq hrc, hdoc]
  rfl

/-- With one id as a string an error is thrown. -/
theorem procResults_single_error {m : BatchMethod} {w : World} {cmd : Command}
    (hrc : (w.respond 0 cmd).rc ≠ .success) :
    procResults m w.bucket (callCookie m w [cmd]) false = .ok ((w.respond 0 cmd).rc, .null) := by
  unfold procResults
  simp only [Bool.false_eq_true, if_false, callCookie_single, if_neg hrc, C.pure_eq]

/-- A response that cannot be read ends the call in a fault: the code reads its document. -/
theorem procResults_unreadable {m : BatchMethod} {w : World} {scheduled : List Command} {k : Nat}
    {cmd : Command} {f : Fault} {isMapped : Bool} (hk : scheduled[k]? = some cmd)
    (hf : resultDocument m w.bucket (w.respond k cmd) = .error f)
    (hmap : isMapped = true ∨ scheduled.length = 1) :
    ∃ f', procResults m w.bucket (callCookie m w scheduled) isMapped = .error f' := by
  obtain ⟨f', hmapM⟩ := procResults_error (m := m) (w := w) hk hf
  have herr : (if isMapped = true then LcbError.success
      else (callCookie m w scheduled).firstError) = .success := by
    rcases hmap with rfl | hlen
    · rfl
    · split
      · rfl
      · -- the only response is a success, since its document is not an error document
        have hrc : (w.respond k cmd).rc = .success := by
          by_contra hne
          rw [resultDocument, if_neg hne] at hf
          cases hf
        rw [callCookie, Opcookie.collect_firstError_iff]
        intro r hr
        obtain ⟨⟨c, j⟩, hmem, rfl⟩ := List.mem_map.mp hr
        rw [mem_deliver_iff] at hmem
        have hj := (List.getElem?_eq_some_iff.mp hmem).1
        have hk' := (List.getElem?_eq_some_iff.mp hk).1
        obtain rfl : j = k := by omega
        rw [hk, Option.some.injEq] at hmem
        subst hmem
        exact hrc
  refine ⟨f', ?_⟩
  unfold procResults
  simp only [herr, if_true]
  unfold callCookie
  rw [Opcookie.collect_results, hmapM]
  rfl

/-! ## The call as a whole -/

theorem length_ppEntries_le {st : PpState} (h : st.isMapped = false) :
    (ppEntries st).length ≤ 1 := by
  unfold ppEntries
  unfold PpState.isMapped at h
  split
  · simp_all
  · simp
  · simp

theorem scheduledAt_of_collects {m : BatchMethod} {w : World} {st : PpState} {cmds : List Command}
    (h : Collects (batchEntry m w) 0 (ppEntries st) cmds) {k : Nat} {cmd : Command}
    (hk : cmds[k]? = some cmd) : ScheduledAt m w st k cmd := by
  obtain ⟨entry, he, hb⟩ := h k cmd hk
  rw [Nat.zero_add] at hb
  exact ⟨entry, he, hb⟩

/-- How the loop ends. -/
inductive LoopEnd (m : BatchMethod) (w : World) (st : PpState) : Prop where
  | fault (f : Fault) (h : EarlyExit.run (batchEntry m w) 0 (ppEntries st) = .error f)
  | stopped (cmds : List Command) (s : Stop)
      (h : EarlyExit.run (batchEntry m w) 0 (ppEntries st) = .ok (cmds, some s))
      (hcol : ∀ k cmd, cmds[k]? = some cmd → ScheduledAt m w st k cmd)
      (hstop : StopsAt m w st cmds.length s)
  | finished (cmds : List Command)
      (h : EarlyExit.run (batchEntry m w) 0 (ppEntries st) = .ok (cmds, none))
      (hcol : ∀ k cmd, cmds[k]? = some cmd → ScheduledAt m w st k cmd)
      (hlen : cmds.length = (ppEntries st).length) (hall : AllScheduled m w st)

theorem loopEnd (m : BatchMethod) (w : World) (st : PpState) : LoopEnd m w st := by
  cases h : EarlyExit.run (batchEntry m w) 0 (ppEntries st) with
  | error f => exact .fault f h
  | ok r =>
    obtain ⟨cmds, stop⟩ := r
    cases stop with
    | none =>
      obtain ⟨hlen, hcol⟩ := run_finished_iff.mp h
      refine .finished cmds h (fun k cmd hk => scheduledAt_of_collects hcol hk) hlen ?_
      intro k hk
      have hk' : k < cmds.length := by omega
      exact ⟨cmds[k], scheduledAt_of_collects hcol (List.getElem?_eq_getElem hk')⟩
    | some s =>
      obtain ⟨hcol, entry, he, hb⟩ := run_stopped_iff.mp h
      refine .stopped cmds s h (fun k cmd hk => scheduledAt_of_collects hcol hk) ?_
      rw [Nat.zero_add] at hb
      exact ⟨passedBefore_iff.mp hcol.passedBefore, entry, he, hb⟩

/-- The rest of a call that waits for what it scheduled. -/
def waitedRun (m : BatchMethod) (w : World) (st : PpState) (cmds : List Command)
    (stop : Option Stop) : C BatchRun := do
  let (err, ret) ← procResults m w.bucket (callCookie m w cmds) st.isMapped
  return ⟨cmds, true, finish stop err ret⟩

/-- **A loop that ends with something scheduled waits for it**, unless a check failed. -/
theorem batch_waited {m : BatchMethod} {w : World} {args : List Zval} {st : PpState}
    (hst : ppBegin m.spec args = some st) {cmds : List Command} {stop : Option Stop}
    (h : EarlyExit.run (batchEntry m w) 0 (ppEntries st) = .ok (cmds, stop)) (hne : cmds ≠ [])
    (hstop : ∀ e, stop ≠ some (.invalid e)) :
    batch m w args = waitedRun m w st cmds stop := by
  unfold batch
  rw [hst]
  simp only [h, C.bind_ok]
  cases stop with
  | none =>
    rw [if_neg hne]
    rfl
  | some s =>
    cases s with
    | invalid e => exact absurd rfl (hstop e)
    | failed err =>
      rw [if_neg hne]
      rfl
    | threw =>
      rw [if_neg hne]
      rfl

/-- A loop that ends with nothing scheduled throws its error. -/
theorem batch_unscheduled {m : BatchMethod} {w : World} {args : List Zval} {st : PpState}
    (hst : ppBegin m.spec args = some st) {stop : Option Stop}
    (h : EarlyExit.run (batchEntry m w) 0 (ppEntries st) = .ok ([], stop))
    (hstop : ∀ e, stop ≠ some (.invalid e)) :
    batch m w args =
      match loopError m stop with
      | none => .error .uninitialised
      | some err => .ok ⟨[], false, finish stop err .null⟩ := by
  unfold batch
  rw [hst]
  simp only [h, C.bind_ok]
  cases stop with
  | none => rfl
  | some s =>
    cases s with
    | invalid e => exact absurd rfl (hstop e)
    | failed err => rfl
    | threw => rfl

/-- A failed check throws at once and leaves what was scheduled alone. -/
theorem batch_invalid {m : BatchMethod} {w : World} {args : List Zval} {st : PpState}
    (hst : ppBegin m.spec args = some st) {cmds : List Command} {e : Exn}
    (h : EarlyExit.run (batchEntry m w) 0 (ppEntries st) = .ok (cmds, some (.invalid e))) :
    batch m w args = .ok ⟨cmds, false, .thrown e⟩ := by
  unfold batch
  rw [hst]
  simp only [h, C.bind_ok, C.pure_eq]

/-- A fault in the loop is a fault of the call. -/
theorem batch_fault {m : BatchMethod} {w : World} {args : List Zval} {st : PpState}
    (hst : ppBegin m.spec args = some st) {f : Fault}
    (h : EarlyExit.run (batchEntry m w) 0 (ppEntries st) = .error f) :
    batch m w args = .error f := by
  unfold batch
  rw [hst]
  simp only [h, C.bind_error]

theorem StopsAt.run {m : BatchMethod} {w : World} {st : PpState} {k : Nat} {s : Stop}
    (hstop : StopsAt m w st k s) :
    ∃ cmds, EarlyExit.run (batchEntry m w) 0 (ppEntries st) = .ok (cmds, some s) ∧
      cmds.length = k ∧ ∀ j cmd, cmds[j]? = some cmd → ScheduledAt m w st j cmd := by
  cases loopEnd m w st with
  | fault f h =>
    obtain ⟨l, entry, e, hl, he, hb⟩ := run_error_iff.mp ⟨f, h⟩
    obtain ⟨hk, entry', he', hb'⟩ := hstop
    have hkl : k = l := by
      refine stop_unique (passedBefore_iff.mpr hk) he' ?_ hl he ?_
      · intro b habs
        rw [Nat.zero_add, hb'] at habs
        simp at habs
      · intro b habs
        rw [hb] at habs
        cases habs
    subst hkl
    rw [he', Option.some.injEq] at he
    subst he
    rw [Nat.zero_add, hb'] at hb
    cases hb
  | stopped cmds s' h hcol hstop' =>
    obtain ⟨hlen, rfl⟩ := hstop'.unique hstop
    exact ⟨cmds, h, hlen, hcol⟩
  | finished cmds h hcol hlen hall => exact absurd hall hstop.not_allScheduled

theorem AllScheduled.run {m : BatchMethod} {w : World} {st : PpState} (hall : AllScheduled m w st) :
    ∃ cmds, EarlyExit.run (batchEntry m w) 0 (ppEntries st) = .ok (cmds, none) ∧
      cmds.length = (ppEntries st).length ∧
      ∀ j cmd, cmds[j]? = some cmd → ScheduledAt m w st j cmd := by
  cases loopEnd m w st with
  | fault f h =>
    obtain ⟨l, entry, e, -, he, hb⟩ := run_error_iff.mp ⟨f, h⟩
    obtain ⟨cmd, entry', he', hb'⟩ := hall l (List.getElem?_eq_some_iff.mp he).1
    rw [he', Option.some.injEq] at he
    subst he
    rw [Nat.zero_add, hb'] at hb
    cases hb
  | stopped cmds s h hcol hstop => exact absurd hall hstop.not_allScheduled
  | finished cmds h hcol hlen _ => exact ⟨cmds, h, hlen, hcol⟩

/-- A call that is left with an error after scheduling something had an array of ids. -/
theorem StopsAt.isMapped {m : BatchMethod} {w : World} {st : PpState} {k : Nat} {s : Stop}
    (h : StopsAt m w st k s) (hk : k ≠ 0) : st.isMapped = true := by
  by_contra hmap
  obtain ⟨-, entry, he, -⟩ := h
  have hlt := (List.getElem?_eq_some_iff.mp he).1
  have hle := length_ppEntries_le (by simpa using hmap)
  omega

/-- A stop that is not a failed check throws when nothing was scheduled. -/
theorem loopError_of_stopsAt {m : BatchMethod} {w : World} {st : PpState} {k : Nat} {s : Stop}
    (h : StopsAt m w st k s) (hs : ∀ e, s ≠ .invalid e) :
    ∃ err, loopError m (some s) = some err ∧ ∃ e, finish (some s) err .null = .thrown e := by
  obtain ⟨-, entry, he, hb⟩ := h
  cases s with
  | invalid e => exact absurd rfl (hs e)
  | failed err =>
    refine ⟨err, rfl, .lcb err, ?_⟩
    rw [finish, if_neg (by simp), if_neg (batchEntry_failed_ne hb)]
  | threw => exact ⟨.error, rfl, .user, rfl⟩

/-- **How a call ends** whose arguments were parsed to `st`. -/
inductive CallEnd (m : BatchMethod) (w : World) (args : List Zval) (st : PpState) : Prop where
  /-- the loop faults -/
  | fault (f : Fault) (h : batch m w args = .error f)
  /-- an entry fails a check, and what was scheduled is left alone -/
  | rejected (cmds : List Command) (e : Exn) (h : batch m w args = .ok ⟨cmds, false, .thrown e⟩)
      (hstop : StopsAt m w st cmds.length (.invalid e))
  /-- the first entry cannot be encoded or is refused -/
  | refused (s : Stop) (e : Exn) (h : batch m w args = .ok ⟨[], false, .thrown e⟩)
      (hstop : StopsAt m w st 0 s) (hs : ∀ e, s ≠ .invalid e)
  /-- there are no entries -/
  | empty (h : batch m w args =
      match m.errInit with
      | none => .error .uninitialised
      | some err => .ok ⟨[], false, finish none err .null⟩)
      (hzero : (ppEntries st).length = 0)
  /-- a later entry cannot be encoded or is refused -/
  | cut (cmds : List Command) (s : Stop) (h : batch m w args = waitedRun m w st cmds (some s))
      (hne : cmds ≠ []) (hcol : ∀ k cmd, cmds[k]? = some cmd → ScheduledAt m w st k cmd)
      (hstop : StopsAt m w st cmds.length s) (hs : ∀ e, s ≠ .invalid e)
  /-- every entry is scheduled -/
  | complete (cmds : List Command) (h : batch m w args = waitedRun m w st cmds none)
      (hne : cmds ≠ []) (hcol : ∀ k cmd, cmds[k]? = some cmd → ScheduledAt m w st k cmd)
      (hlen : cmds.length = (ppEntries st).length) (hall : AllScheduled m w st)

theorem callEnd {m : BatchMethod} {args : List Zval} {st : PpState} (w : World)
    (hst : ppBegin m.spec args = some st) : CallEnd m w args st := by
  cases loopEnd m w st with
  | fault f h => exact .fault f (batch_fault hst h)
  | stopped cmds s h hcol hstop =>
    by_cases hs : ∃ e, s = .invalid e
    · obtain ⟨e, rfl⟩ := hs
      exact .rejected cmds e (batch_invalid hst h) hstop
    push Not at hs
    have hs' : ∀ e, some s ≠ some (.invalid e) := fun e habs => hs e (Option.some.inj habs)
    by_cases hne : cmds = []
    · subst hne
      obtain ⟨err, herr, e, hfin⟩ := loopError_of_stopsAt hstop hs
      have hbatch := batch_unscheduled hst h hs'
      simp only [herr, hfin] at hbatch
      exact .refused s e hbatch hstop hs
    · exact .cut cmds s (batch_waited hst h hne hs') hne hcol hstop hs
  | finished cmds h hcol hlen hall =>
    by_cases hne : cmds = []
    · subst hne
      exact .empty (batch_unscheduled hst h (by simp)) hlen.symm
    · exact .complete cmds (batch_waited hst h hne (by simp)) hne hcol hlen hall

/-- With an array of ids the results decide nothing about `err`: they either fault or return. -/
theorem waitedRun_mapped {m : BatchMethod} {w : World} {st : PpState} {cmds : List Command}
    (stop : Option Stop) (hne : cmds ≠ []) (hmap : st.isMapped = true)
    (hread : ∀ k cmd, cmds[k]? = some cmd →
      ∃ doc, resultDocument m w.bucket (w.respond k cmd) = .ok doc) :
    waitedRun m w st cmds stop =
      .ok ⟨cmds, true, finish stop .success (.array (resultArray m w cmds))⟩ := by
  rw [waitedRun, hmap, procResults_mapped hne hread]
  rfl

theorem waitedRun_unreadable {m : BatchMethod} {w : World} {st : PpState} {cmds : List Command}
    (stop : Option Stop) (hmap : st.isMapped = true ∨ cmds.length = 1) {k : Nat} {cmd : Command}
    {f : Fault} (hk : cmds[k]? = some cmd)
    (hf : resultDocument m w.bucket (w.respond k cmd) = .error f) :
    ∃ f', waitedRun m w st cmds stop = .error f' := by
  obtain ⟨f', hproc⟩ := procResults_unreadable (m := m) (w := w) hk hf hmap
  exact ⟨f', by rw [waitedRun, hproc, C.bind_error]⟩

/-- The responses to what was scheduled can be read, or one of them cannot. -/
theorem readable_or {m : BatchMethod} {w : World} {st : PpState} {cmds : List Command}
    (hcol : ∀ k cmd, cmds[k]? = some cmd → ScheduledAt m w st k cmd) :
    (Readable m w st cmds.length ∧ ∀ k cmd, cmds[k]? = some cmd →
      ∃ doc, resultDocument m w.bucket (w.respond k cmd) = .ok doc) ∨
    (¬ Readable m w st cmds.length ∧ ∃ k cmd f, cmds[k]? = some cmd ∧
      resultDocument m w.bucket (w.respond k cmd) = .error f) := by
  by_cases hread : Readable m w st cmds.length
  · left
    refine ⟨hread, fun k cmd hk => ?_⟩
    exact hread k cmd (List.getElem?_eq_some_iff.mp hk).1 (hcol k cmd hk)
  · right
    refine ⟨hread, ?_⟩
    unfold Readable at hread
    push Not at hread
    obtain ⟨k, cmd, hk, hsch, hdoc⟩ := hread
    have hget : cmds[k]? = some cmds[k] := List.getElem?_eq_getElem hk
    have heq := hsch.unique (hcol k _ hget)
    cases hres : resultDocument m w.bucket (w.respond k cmd) with
    | ok doc => exact absurd hres (hdoc doc)
    | error f => exact ⟨k, cmd, f, by rw [hget, heq], hres⟩

/-! ## Keys of the result array -/

theorem mem_keys_resultArray {m : BatchMethod} {w : World} {cmds : List Command} {key : ArrayKey} :
    key ∈ keys (resultArray m w cmds) ↔
      ∃ cmd ∈ cmds, key = .str (cmd.key.take (m.keyLen cmd.key)) := by
  unfold resultArray
  rw [mem_keys_fill]
  simp only [keys, List.map_nil, List.not_mem_nil, false_or, List.map_map, List.mem_map]
  constructor
  · rintro ⟨⟨cmd, k⟩, hmem, rfl⟩
    rw [mem_deliver_iff] at hmem
    exact ⟨cmd, List.mem_of_getElem? hmem, rfl⟩
  · rintro ⟨cmd, hmem, rfl⟩
    obtain ⟨k, hk⟩ := List.mem_iff_getElem?.mp hmem
    exact ⟨(cmd, k), (mem_deliver_iff w cmds cmd k).mpr hk, rfl⟩

theorem Operation.keyLen_of_ne {op : Operation} (h : op ≠ .touch) (key : Bytes) :
    op.method.keyLen key = key.length := by
  cases op <;> first | rfl | exact absurd rfl h

/-- **What a scheduled entry went through**: it was read, it passed the checks, its value was
encoded and its command was filled. -/
theorem batchEntry_eq_inr {m : BatchMethod} {w : World} {k : Nat} {entry : C PpEntry} {cmd : Command}
    (h : batchEntry m w k entry = .ok (.inr cmd)) :
    ∃ e value, entry = .ok e ∧ rejection m.checks e = none ∧
      entryValue m w k e = .ok (.inr value) ∧ m.command w.lval e value = .ok cmd := by
  unfold batchEntry at h
  obtain ⟨e, hentry, hb⟩ := C.bind_eq_ok.mp h
  split at hb
  · simp at hb
  · rename_i hpass
    obtain ⟨v, hv, hbody⟩ := C.bind_eq_ok.mp hb
    split at hbody
    · simp at hbody
    · rename_i value
      obtain ⟨cmd', hcmd, hend⟩ := C.bind_eq_ok.mp hbody
      split at hend
      · simp only [C.pure_eq, Except.ok.injEq, Sum.inr.injEq] at hend
        subst hend
        exact ⟨e, value, hentry, hpass, hv, hcmd⟩
      · simp at hend

/-- A scheduled entry is a readable one, and its command carries its id. -/
theorem Operation.scheduledAt_id {op : Operation} {w : World} {st : PpState} {k : Nat}
    {cmd : Command} (h : ScheduledAt op.method w st k cmd) :
    ∃ e, (ppEntries st)[k]? = some (.ok e) ∧ cmd.key = e.id := by
  obtain ⟨entry, he, hb⟩ := h
  obtain ⟨e, value, rfl, -, -, hcmd⟩ := batchEntry_eq_inr hb
  exact ⟨e, he, op.command_key hcmd⟩

end PhpCouchbase
