import PhpCouchbase.KvServer
import PhpCouchbase.SetRemove

/-!
# Optimistic locking

A document remembers the CAS it was read with, and a write that is given this CAS is to replace
nothing but what the document shows.  The CAS goes through a string of base-36 digits in the
document (`document.c`, `base36.c`), through the options of the call, through a batch of other ids,
and through any number of requests of other clients.

* `CasProtects` — a write under the CAS of a document changes what the document shows, or nothing.
* `cas_protects` — in every run, for every document that any call gave before the write, and also for
  the commands of a call that gave up.
-/

set_option autoImplicit false

namespace PhpCouchbase

open OrderedMap

/-! ## What a call gives -/

/-- The methods that read documents. -/
inductive Reads : BatchMethod → Prop where
  | get : Reads get
  | getAndLock : Reads getAndLock
  | getAndTouch : Reads getAndTouch
  | getFromReplica : Reads getFromReplica

/-- The methods that have a `cas` option. -/
inductive TakesCas : BatchMethod → Prop where
  | replace : TakesCas replace
  | append : TakesCas append
  | prepend : TakesCas prepend
  | remove : TakesCas remove
  | unlock : TakesCas unlock

/-- The call returned the document for the key, alone or in an array. -/
def KvCall.Gives (call : KvCall) (key : Bytes) (doc : Document) : Prop :=
  ∃ run, call.run = .ok run ∧
    (run.outcome = .returned (.document doc) ∧ run.scheduled.map Command.key = [key] ∨
      ∃ elems, run.outcome = .returned (.array elems) ∧ (.str key, doc) ∈ elems)

/-- The entry of the index `k` was given the `cas` option `z`. -/
def KvCall.WithCas (call : KvCall) (k : Nat) (z : Zval) : Prop :=
  ∃ st e, ppBegin call.method.spec call.args = some st ∧ (ppEntries st)[k]? = some (.ok e) ∧
    e.arg "cas" = some z

/-- What `documentInitDecode` makes of a cell. -/
def DocumentOf (bucket : BucketConf) (u : Cell) (doc : Document) : Prop :=
  ∃ c, u.content = some c ∧ documentInitDecode bucket c.bytes (narrowInt c.bytes.length) c.flags
    c.datatype u.version none = .ok doc

variable {bucket : BucketConf} {key : Bytes} {doc : Document} {u v w : Cell} {resp : Response}

/-- The document has the masked CAS, or it is made of the cell. -/
theorem ShowsCell.documentOf (h : ShowsCell resp u) (hdoc : getDocument bucket resp = .ok doc) :
    casDecode doc.cas = maskedCas ∨ DocumentOf bucket u doc := by
  rcases h.cas with hcas | hcas
  · right
    obtain ⟨c, hc, hcarries⟩ := h.carries
    refine ⟨c, hc, ?_⟩
    rwa [getDocument, hcarries.value, hcarries.itmflags, hcarries.datatype, hcas] at hdoc
  · left
    rw [(MadeWith.decode hdoc).properties.1, casDecode_casEncode, hcas]

theorem DocumentOf.cas (h : DocumentOf bucket u doc) : casDecode doc.cas = u.version := by
  obtain ⟨c, -, hdoc⟩ := h
  rw [(MadeWith.decode hdoc).properties.1, casDecode_casEncode]

theorem Reads.document {m : BatchMethod} (h : Reads m) (bucket : BucketConf) (resp : Response) :
    m.document bucket resp = getDocument bucket resp := by
  cases h <;> rfl

theorem Reads.keyLen {m : BatchMethod} (h : Reads m) (key : Bytes) :
    key.take (m.keyLen key) = key := by
  have hlen : m.keyLen key = key.length := by cases h <;> rfl
  rw [hlen, List.take_length]

/-- The document of a reading is made of the response, or it is the one of an error. -/
theorem Reads.resultDocument {m : BatchMethod} (h : Reads m)
    (hdoc : resultDocument m bucket resp = .ok doc) :
    resp.rc = .success ∧ getDocument bucket resp = .ok doc ∨ doc.cas = .null := by
  rw [PhpCouchbase.resultDocument] at hdoc
  split at hdoc
  · rename_i hrc
    rw [h.document] at hdoc
    exact Or.inl ⟨hrc, hdoc⟩
  · cases hdoc
    exact Or.inr rfl

/-! ## The commands of a call that waits -/

variable {call : KvCall} {run : BatchRun}

theorem finish_returned {stop : Option Stop} {err : LcbError} {ret ret' : Returned}
    (h : finish stop err ret = .returned ret') : err = .success ∧ ret = ret' := by
  unfold finish at h
  split at h
  · cases h
  · split at h
    · rename_i herr
      cases h
      exact ⟨herr, rfl⟩
    · cases h

theorem waitedRun_ok {m : BatchMethod} {w : World} {st : PpState} {cmds : List Command}
    {stop : Option Stop} (h : waitedRun m w st cmds stop = .ok run) :
    run.scheduled = cmds ∧ run.waited = true := by
  obtain ⟨⟨err, ret⟩, -, h⟩ := C.bind_eq_ok.mp h
  cases h
  exact ⟨rfl, rfl⟩

/-- The end of a call that waits for what it scheduled. -/
theorem KvCall.run_waited (h : call.run = .ok run) (hwaited : run.waited = true) :
    ∃ st stop, ppBegin call.method.spec call.args = some st ∧
      waitedRun call.method call.world st run.scheduled stop = .ok run ∧ run.scheduled ≠ [] ∧
      ∀ k cmd, run.scheduled[k]? = some cmd → ScheduledAt call.method call.world st k cmd := by
  unfold KvCall.run at h
  cases hst : ppBegin call.method.spec call.args with
  | none =>
    rw [batch, hst] at h
    cases h
    cases hwaited
  | some st =>
    cases callEnd call.world hst with
    | fault f hrun =>
      rw [hrun] at h
      cases h
    | rejected cmds e hrun hstop =>
      rw [hrun] at h
      cases h
      cases hwaited
    | refused s e hrun hstop hs =>
      rw [hrun] at h
      cases h
      cases hwaited
    | empty hrun hzero =>
      rw [hrun] at h
      split at h
      · cases h
      · cases h
        cases hwaited
    | cut cmds s hrun hne hcol hstop hs =>
      rw [hrun] at h
      obtain ⟨rfl, -⟩ := waitedRun_ok h
      exact ⟨st, some s, rfl, h, hne, hcol⟩
    | complete cmds hrun hne hcol hlen hall =>
      rw [hrun] at h
      obtain ⟨rfl, -⟩ := waitedRun_ok h
      exact ⟨st, none, rfl, h, hne, hcol⟩

/-- **A call that does not wait** returns nothing, and with one id as a string it has scheduled
nothing. -/
theorem KvCall.run_left (h : call.run = .ok run) (hleft : run.waited = false) :
    (∀ ret, run.outcome = .returned ret → ret = .null) ∧
    ∀ st, ppBegin call.method.spec call.args = some st → st.isMapped = false →
      run.scheduled = [] := by
  unfold KvCall.run at h
  cases hst : ppBegin call.method.spec call.args with
  | none =>
    rw [batch, hst] at h
    cases h
    refine ⟨?_, fun _ hsome => by cases hsome⟩
    intro ret hret
    cases hret
  | some st =>
    cases callEnd call.world hst with
    | fault f hrun =>
      rw [hrun] at h
      cases h
    | rejected cmds e hrun hstop =>
      rw [hrun] at h
      cases h
      constructor
      · intro ret hret
        cases hret
      · intro st' hst' hmap
        cases hst'
        -- the entry that was rejected is the only one
        obtain ⟨-, entry, he, -⟩ := hstop
        have hlt := (List.getElem?_eq_some_iff.mp he).1
        have hle := length_ppEntries_le hmap
        apply List.length_eq_zero_iff.mp
        show cmds.length = 0
        omega
    | refused s e hrun hstop hs =>
      rw [hrun] at h
      cases h
      refine ⟨?_, fun _ _ _ => rfl⟩
      intro ret hret
      cases hret
    | empty hrun hzero =>
      rw [hrun] at h
      split at h
      · cases h
      · cases h
        refine ⟨?_, fun _ _ _ => rfl⟩
        intro ret (hret : finish none _ .null = .returned ret)
        exact (finish_returned hret).2.symm
    | cut cmds s hrun hne hcol hstop hs =>
      rw [hrun] at h
      rw [(waitedRun_ok h).2] at hleft
      cases hleft
    | complete cmds hrun hne hcol hlen hall =>
      rw [hrun] at h
      rw [(waitedRun_ok h).2] at hleft
      cases hleft

/-- **The commands of a call are those of its entries**, also when it gives up. -/
theorem KvCall.scheduledAt (h : call.run = .ok run) {k : Nat} {cmd : Command}
    (hk : run.scheduled[k]? = some cmd) :
    ∃ st, ppBegin call.method.spec call.args = some st ∧
      ScheduledAt call.method call.world st k cmd := by
  unfold KvCall.run at h
  cases hst : ppBegin call.method.spec call.args with
  | none =>
    rw [batch, hst] at h
    cases h
    cases hk
  | some st =>
    refine ⟨st, rfl, ?_⟩
    cases callEnd call.world hst with
    | fault f hrun =>
      rw [hrun] at h
      cases h
    | rejected cmds e hrun hstop =>
      obtain ⟨cmds', hloop, -, hcol⟩ := hstop.run
      rw [batch_invalid hst hloop] at h
      cases h
      exact hcol k cmd hk
    | refused s e hrun hstop hs =>
      rw [hrun] at h
      cases h
      cases hk
    | empty hrun hzero =>
      rw [hrun] at h
      split at h
      · cases h
      · cases h
        cases hk
    | cut cmds s hrun hne hcol hstop hs =>
      rw [hrun] at h
      rw [(waitedRun_ok h).1] at hk
      exact hcol k cmd hk
    | complete cmds hrun hne hcol hlen hall =>
      rw [hrun] at h
      rw [(waitedRun_ok h).1] at hk
      exact hcol k cmd hk

/-- With one id as a string there is one command. -/
theorem scheduled_one {m : BatchMethod} {w : World} {st : PpState} {cmds : List Command}
    (hmap : st.isMapped = false) (hne : cmds ≠ [])
    (hcol : ∀ k cmd, cmds[k]? = some cmd → ScheduledAt m w st k cmd) : ∃ cmd, cmds = [cmd] := by
  apply List.length_eq_one_iff.mp
  have hpos := List.length_pos_iff.mpr hne
  obtain ⟨entry, he, -⟩ := hcol (cmds.length - 1) cmds[cmds.length - 1]
    (List.getElem?_eq_getElem (by omega))
  have hlt := (List.getElem?_eq_some_iff.mp he).1
  have hle := length_ppEntries_le hmap
  omega

/-- With one command a document is that of its response. -/
theorem waitedRun_single {m : BatchMethod} {w : World} {st : PpState} {stop : Option Stop}
    {ret : Returned} {cmd : Command} (hmap : st.isMapped = false)
    (h : waitedRun m w st [cmd] stop = .ok run) (hout : run.outcome = .returned ret) :
    (w.respond 0 cmd).rc = .success ∧
      ∃ doc, resultDocument m w.bucket (w.respond 0 cmd) = .ok doc ∧ ret = .document doc := by
  rw [waitedRun, hmap] at h
  by_cases hrc : (w.respond 0 cmd).rc = .success
  · rw [procResults_single_eq hrc] at h
    obtain ⟨⟨err, ret'⟩, hres, h⟩ := C.bind_eq_ok.mp h
    obtain ⟨doc, hdoc, hres⟩ := C.bind_eq_ok.mp hres
    cases hres
    cases h
    obtain ⟨-, hret⟩ := finish_returned hout
    exact ⟨hrc, doc, hdoc, hret.symm⟩
  · rw [procResults_single_error hrc, C.bind_ok] at h
    cases h
    exact absurd (finish_returned hout).1 hrc

/-- With an array of ids the array has the documents of the responses. -/
theorem waitedRun_array {m : BatchMethod} {w : World} {st : PpState} {stop : Option Stop}
    {ret : Returned} (hmap : st.isMapped = true) (hne : run.scheduled ≠ [])
    (hcol : ∀ k cmd, run.scheduled[k]? = some cmd → ScheduledAt m w st k cmd)
    (h : waitedRun m w st run.scheduled stop = .ok run) (hout : run.outcome = .returned ret) :
    ret = .array (resultArray m w run.scheduled) ∧ ∀ k cmd, run.scheduled[k]? = some cmd →
      ∃ doc, resultDocument m w.bucket (w.respond k cmd) = .ok doc := by
  rcases readable_or hcol with ⟨-, hdocs⟩ | ⟨-, k, cmd, f, hk, hf⟩
  · rw [waitedRun_mapped stop hne hmap hdocs, Except.ok.injEq] at h
    rw [← h] at hout
    exact ⟨(finish_returned hout).2.symm, hdocs⟩
  · obtain ⟨f', hfault⟩ := waitedRun_unreadable stop (Or.inl hmap) hk hf
    rw [hfault] at h
    cases h

/-- **A document comes from the response to a command for its key.** -/
theorem KvCall.Gives.response (hwhole : ∀ key : Bytes, key.take (call.method.keyLen key) = key)
    (hgives : call.Gives key doc) (hrun : call.run = .ok run) (hwaited : run.waited = true) :
    ∃ k cmd, run.scheduled[k]? = some cmd ∧ cmd.key = key ∧
      resultDocument call.method call.world.bucket (call.world.respond k cmd) = .ok doc := by
  obtain ⟨run', hrun', hout⟩ := hgives
  rw [hrun, Except.ok.injEq] at hrun'
  subst hrun'
  obtain ⟨st, stop, hst, hend, hne, hcol⟩ := KvCall.run_waited hrun hwaited
  cases hmap : st.isMapped with
  | false =>
    obtain ⟨cmd, hone⟩ := scheduled_one hmap hne hcol
    rw [hone] at hend hout ⊢
    rcases hout with ⟨hout, hkeys⟩ | ⟨elems, hout, hmem⟩
    · obtain ⟨-, doc', hdoc, hret⟩ := waitedRun_single hmap hend hout
      cases hret
      exact ⟨0, cmd, rfl, List.singleton_inj.mp hkeys, hdoc⟩
    · obtain ⟨-, doc', -, hret⟩ := waitedRun_single hmap hend hout
      cases hret
  | true =>
    rcases hout with ⟨hout, hkeys⟩ | ⟨elems, hout, hmem⟩
    · cases (waitedRun_array hmap hne hcol hend hout).1
    · obtain ⟨hret, hdocs⟩ := waitedRun_array hmap hne hcol hend hout
      cases hret
      rcases mem_fill hmem with hmem | hmem
      · cases hmem
      · obtain ⟨⟨cmd, k⟩, hp, hpair⟩ := List.mem_map.mp hmem
        have hk := (mem_deliver_iff call.world run.scheduled cmd k).mp hp
        obtain ⟨doc', hdoc'⟩ := hdocs k cmd hk
        simp only [resultElem, Prod.mk.injEq, ArrayKey.str.injEq] at hpair
        obtain ⟨hkey, hdoc⟩ := hpair
        rw [hwhole] at hkey
        rw [documentOf, hdoc'] at hdoc
        exact ⟨k, cmd, hk, hkey, hdoc'.trans (congrArg Except.ok hdoc)⟩

/-! ## The CAS of a write -/

theorem Reads.isRead {m : BatchMethod} (h : Reads m) {lval : Zval → Int64} {e : PpEntry}
    {value : EncodedValue} {cmd : Command} (hcmd : m.command lval e value = .ok cmd) :
    cmd.isRead = true := by
  cases h with
  | getFromReplica =>
    obtain ⟨hash, -, hcmd⟩ := C.bind_eq_ok.mp hcmd
    cases hcmd
    rfl
  | _ =>
    obtain ⟨hash, -, hcmd⟩ := C.bind_eq_ok.mp hcmd
    split at hcmd <;> · cases hcmd; rfl

/-- The command names the CAS that its entry was given. -/
theorem TakesCas.command {m : BatchMethod} (h : TakesCas m) {lval : Zval → Int64} {e : PpEntry}
    {value : EncodedValue} {cmd : Command} (hcmd : m.command lval e value = .ok cmd) :
    cmd.cas = entryCas e := by
  cases h <;>
  · obtain ⟨hash, -, hcmd⟩ := C.bind_eq_ok.mp hcmd
    cases hcmd
    rfl

/-- An entry passes the checks with a `cas` option that is a string only. -/
theorem TakesCas.string {m : BatchMethod} (h : TakesCas m) {e : PpEntry} {z : Zval}
    (hpass : rejection m.checks e = none) (hz : e.arg "cas" = some z) : ∃ s, z = .string s := by
  have hcheck : checkString "cas" ∈ m.checks := by
    cases h <;> exact List.mem_cons_self
  have hnone := List.findSome?_eq_none_iff.mp hpass _ hcheck
  have harg : e.arg (checkString "cas").arg = some z := hz
  rw [Check.failure, harg] at hnone
  cases z with
  | string s => exact ⟨s, rfl⟩
  | _ => cases hnone

theorem KvCall.command_cas (htakes : TakesCas call.method) (hrun : call.run = .ok run) {k : Nat}
    {cmd : Command} (hk : run.scheduled[k]? = some cmd) {z : Zval} (hz : call.WithCas k z) :
    cmd.cas = casDecode z ∧ ∃ s, z = .string s := by
  obtain ⟨st, hst, entry, he', hbody⟩ := KvCall.scheduledAt hrun hk
  obtain ⟨st', e, hst', he, harg⟩ := hz
  rw [hst, Option.some.injEq] at hst'
  subst hst'
  rw [he, Option.some.injEq] at he'
  subst he'
  obtain ⟨e', value, heq, hpass, -, hcmd⟩ := batchEntry_eq_inr hbody
  cases heq
  refine ⟨?_, htakes.string hpass harg⟩
  rw [htakes.command hcmd, entryCas, harg]

/-! ## What is known of a key -/

variable {ι : Type} [DecidableEq ι] {allowed : World → Prop} {s t : KvSystem ι} {l : KvLabel ι}

/-- The document shows a content that the key has or had, or its CAS is the masked one. -/
def Known (bucket : BucketConf) (s : KvSystem ι) (key : Bytes) (doc : Document) : Prop :=
  casDecode doc.cas = maskedCas ∨
    ∃ u : Cell, LiveCas u.version ∧ DocumentOf bucket u doc ∧ u.Later (s.cells key)

/-- The response to a reading shows a content that the key has or had. -/
def KnownResponse (s : KvSystem ι) (p : Command) (resp : Response) : Prop :=
  p.isRead = true → resp.rc = .success →
    ∃ u : Cell, LiveCas u.version ∧ ShowsCell resp u ∧ u.Later (s.cells p.key)

theorem Known.step (h : Known bucket s key doc) (hstep : KvStep allowed s l t) :
    Known bucket t key doc :=
  h.imp_right fun ⟨u, hlive, hdoc, hu⟩ => ⟨u, hlive, hdoc, hstep.later hu⟩

theorem KnownResponse.step {p : Command} (h : KnownResponse s p resp)
    (hstep : KvStep allowed s l t) : KnownResponse t p resp := by
  intro hread hrc
  obtain ⟨u, hlive, hshows, hu⟩ := h hread hrc
  exact ⟨u, hlive, hshows, hstep.later hu⟩

/-- A reading is served from the cell, from a replica, or from the cell under its new CAS. -/
theorem ServesKv.shows {r v w : Cell} {cmd : Command} (h : ServesKv r v cmd resp w)
    (hr : r.Later v) (hrlive : LiveCas r.version) (hvlive : LiveCas v.version)
    (hread : cmd.isRead = true) (hrc : resp.rc = .success) :
    ∃ u : Cell, LiveCas u.version ∧ ShowsCell resp u ∧ u.Later w := by
  cases h with
  | failed hne => exact absurd hrc hne
  | kept hcmd hguard hcontent hshows hrc' => exact ⟨_, hvlive, hshows hread, .refl _⟩
  | readReplica hcmd hshows => exact ⟨r, hrlive, hshows, hr⟩
  | applied hguard happly hw hlive hshows hrc' hcas => exact ⟨_, hlive, hshows hread, .refl _⟩
  | unanswered hguard happly hw hlive hne => exact absurd hrc hne

omit [DecidableEq ι] in
/-- **A write under the CAS of a document** replaces what the document shows. -/
theorem ServesKv.protects {r w : Cell} {cmd : Command} (h : ServesKv r (s.cells key) cmd resp w)
    (hs : s.Sound) (hdoc : Known bucket s key doc) (hcas : cmd.cas = casDecode doc.cas)
    (hne : w.version ≠ (s.cells key).version) : DocumentOf bucket (s.cells key) doc := by
  rcases h.cell_eq with rfl | ⟨-, hguard, -⟩
  · exact absurd rfl hne
  · rcases hdoc with hmasked | ⟨u, hlive, hdoc, hu⟩
    · -- no document has the masked CAS
      rw [hcas, hmasked] at hguard
      rcases hguard with hguard | hguard
      · exact absurd hguard (by decide)
      · exact absurd hguard.symm (hs.cell key).ne_masked
    · rw [hdoc.cas] at hcas
      have hversion : (s.cells key).version = u.version := by
        rcases hguard with hguard | hguard
        · exact absurd (hcas.symm.trans hguard) hlive.ne_zero
        · rw [← hguard, hcas]
      obtain rfl := hu.eq_of_version hversion
      exact hdoc

/-! ## What every step keeps -/

/-- A write under the CAS of a document that a call gave before changes what the document shows. -/
def CasProtects : KvEvent ι → KvEvent ι → Prop
  | .returned _ reading, .served _ call p before after =>
    ∀ doc, Reads reading.method → reading.Gives p.1.key doc → TakesCas call.method →
      call.WithCas p.2 doc.cas → after.version ≠ before.version →
        DocumentOf reading.world.bucket before doc
  | _, _ => True

/-- A command that a call sent, with its number. -/
def KvCall.Sent (call : KvCall) (p : Command × Nat) : Prop :=
  ∃ run, call.run = .ok run ∧ p ∈ run.scheduled.zipIdx

/-- A client that waits: its call scheduled the pending commands, and the others were served. -/
structure Waits (allowed : World → Prop) (s : KvSystem ι) (call : KvCall)
    (pending : List (Command × Nat)) (run : BatchRun) : Prop where
  allowed : allowed call.world
  run_eq : call.run = .ok run
  waited : run.waited = true
  scheduled : ∀ p ∈ pending, p ∈ run.scheduled.zipIdx
  served : ∀ p ∈ run.scheduled.zipIdx, p ∉ pending →
    KnownResponse s p.1 (call.world.respond p.2 p.1)

/-- What every step keeps. -/
structure LockInv (allowed : World → Prop) (s : KvSystem ι) : Prop where
  sound : s.Sound
  waits : ∀ i call pending next, s.clients i = .waiting call pending next →
    ∃ run, Waits allowed s call pending run
  orphans : ∀ o ∈ s.orphans, o.call.Sent o.command
  given : ∀ i call, .returned i call ∈ s.log → Reads call.method → ∀ key doc,
    call.Gives key doc → doc.cas = .null ∨ Known call.world.bucket s key doc
  protects : s.log.Pairwise CasProtects

variable {pending : List (Command × Nat)}

theorem Waits.step (h : Waits allowed s call pending run) (hstep : KvStep allowed s l t) :
    Waits allowed t call pending run :=
  ⟨h.allowed, h.run_eq, h.waited, h.scheduled, fun p hp hn => (h.served p hp hn).step hstep⟩

omit [DecidableEq ι] in
theorem Waits.sent (h : Waits allowed s call pending run) {p : Command × Nat} (hp : p ∈ pending) :
    call.Sent p :=
  ⟨run, h.run_eq, h.scheduled p hp⟩

omit [DecidableEq ι] in
/-- The documents of a call that has all responses. -/
theorem Waits.gives (h : Waits allowed s call [] run) (hreads : Reads call.method)
    (hgives : call.Gives key doc) : doc.cas = .null ∨ Known call.world.bucket s key doc := by
  obtain ⟨k, cmd, hk, rfl, hdoc⟩ := hgives.response hreads.keyLen h.run_eq h.waited
  rcases hreads.resultDocument hdoc with ⟨hrc, hdoc⟩ | hnull
  · right
    obtain ⟨st, stop, -, -, -, hcol⟩ := KvCall.run_waited h.run_eq h.waited
    obtain ⟨entry, -, hbody⟩ := hcol k cmd hk
    obtain ⟨e, value, -, -, -, hcmd⟩ := batchEntry_eq_inr hbody
    have hmem : (cmd, k) ∈ run.scheduled.zipIdx := List.mk_mem_zipIdx_iff_getElem?.mpr hk
    obtain ⟨u, hlive, hshows, hu⟩ := h.served _ hmem List.not_mem_nil (hreads.isRead hcmd) hrc
    exact (hshows.documentOf hdoc).imp_right fun hdoc => ⟨u, hlive, hdoc, hu⟩
  · exact Or.inl hnull

/-- A pending command is served. -/
theorem Waits.serve (h : Waits allowed s call pending run) (hs : s.Sound) {p : Command × Nat}
    (hserves : ServesKv (s.replicas p.1.key) (s.cells p.1.key) p.1
      (call.world.respond p.2 p.1) w)
    (hstep : KvStep allowed s l t) (hcell : t.cells p.1.key = w) :
    Waits allowed t call (pending.erase p) run := by
  refine ⟨h.allowed, h.run_eq, h.waited, ?_, ?_⟩
  · exact fun q hq => h.scheduled q (List.mem_of_mem_erase hq)
  · intro q hq hn
    by_cases hqp : q = p
    · subst hqp
      intro hread hrc
      rw [hcell]
      exact hserves.shows (hs.behind _) (hs.replica _) (hs.cell _) hread hrc
    · refine (h.served q hq fun hpend => hn ?_).step hstep
      exact (List.mem_erase_of_ne hqp).mpr hpend

/-- The clients that wait after a step. -/
theorem LockInv.step_waits (h : LockInv allowed s) (hstep : KvStep allowed s l t) :
    ∀ i call pending next, t.clients i = .waiting call pending next →
      ∃ run, Waits allowed t call pending run := by
  intro i call pending next hp
  by_cases hl : l = .client i
  · subst hl
    cases hstep with
    | wait hrunning hallowed hrun hwaited =>
      rw [clients_setClient_self] at hp
      cases hp
      exact ⟨_, hallowed, hrun, hwaited, fun p hp => hp, fun p hp hn => absurd hp hn⟩
    | leave hrunning hallowed hwaited =>
      rw [clients_setOrphans, clients_setClient_self] at hp
      cases hp
    | serve hwaiting hmem hserves =>
      rw [clients_addEvent, clients_setCell, clients_setClient_self] at hp
      cases hp
      obtain ⟨run, hwaits⟩ := h.waits i _ _ _ hwaiting
      have hstep : KvStep allowed s (.client i) _ := .serve hwaiting hmem hserves
      exact ⟨run, hwaits.serve h.sound hserves hstep (by simp)⟩
    | finish hwaiting =>
      rw [clients_addEvent, clients_setClient_self] at hp
      cases hp
  · rw [hstep.frame hl] at hp
    obtain ⟨run, hwaits⟩ := h.waits i call pending next hp
    exact ⟨run, hwaits.step hstep⟩

/-- The commands that nobody waits for after a step. -/
theorem LockInv.step_orphans (h : LockInv allowed s) (hstep : KvStep allowed s l t) :
    ∀ o ∈ t.orphans, o.call.Sent o.command := by
  cases hstep with
  | leave hp hallowed hwaited =>
    intro o ho
    rw [orphans_setOrphans, List.mem_append] at ho
    rcases ho with ho | ho
    · exact h.orphans o ho
    · unfold leftBehind at ho
      split at ho
      · rename_i run hrun
        obtain ⟨p, hp, rfl⟩ := List.mem_map.mp ho
        exact ⟨run, hrun, hp⟩
      · cases ho
  | orphan ho hserves =>
    intro o' ho'
    refine h.orphans o' ?_
    rw [orphans_addEvent, orphans_setCell, orphans_setOrphans] at ho'
    rw [ho]
    exact ((List.Sublist.refl _).append (List.sublist_cons_self _ _)).subset ho'
  | _ => exact h.orphans

/-- A step adds at most one event: a call that waits returns, or a command that a call sent is
served. -/
theorem KvStep.log_eq (h : KvStep allowed s l t) (hinv : LockInv allowed s) :
    t.log = s.log ∨
    (∃ i call next, s.clients i = .waiting call [] next ∧ t.log = s.log ++ [.returned i call]) ∨
    ∃ i call p resp w, call.Sent p ∧
      ServesKv (s.replicas p.1.key) (s.cells p.1.key) p.1 resp w ∧
      t.log = s.log ++ [.served i call p (s.cells p.1.key) w] := by
  cases h with
  | wait hp hallowed hrun hwaited => exact Or.inl rfl
  | leave hp hallowed hwaited => exact Or.inl rfl
  | serve hp hmem hserves =>
    obtain ⟨run, hwaits⟩ := hinv.waits _ _ _ _ hp
    exact Or.inr (Or.inr ⟨_, _, _, _, _, hwaits.sent hmem, hserves, rfl⟩)
  | finish hp => exact Or.inr (Or.inl ⟨_, _, _, hp, rfl⟩)
  | orphan ho hserves =>
    have hsent := hinv.orphans _ (ho ▸ List.mem_append_right _ List.mem_cons_self)
    exact Or.inr (Or.inr ⟨_, _, _, _, _, hsent, hserves, rfl⟩)
  | replicate key => exact Or.inl rfl
  | other hw hlive => exact Or.inl rfl

/-- The documents that calls gave, after a step. -/
theorem LockInv.step_given (h : LockInv allowed s) (hstep : KvStep allowed s l t) :
    ∀ i call, .returned i call ∈ t.log → Reads call.method → ∀ key doc,
      call.Gives key doc → doc.cas = .null ∨ Known call.world.bucket t key doc := by
  intro i call hmem hreads key doc hgives
  have hold : .returned i call ∈ s.log → doc.cas = .null ∨ Known call.world.bucket t key doc :=
    fun hmem =>
      (h.given i call hmem hreads key doc hgives).imp_right fun hknown => hknown.step hstep
  rcases hstep.log_eq h with hlog | ⟨j, call', next, hp, hlog⟩ | ⟨j, call', _, _, _, -, -, hlog⟩
  · exact hold (hlog ▸ hmem)
  · rw [hlog, List.mem_append, List.mem_singleton] at hmem
    rcases hmem with hmem | heq
    · exact hold hmem
    · cases heq
      obtain ⟨run, hwaits⟩ := h.waits i call [] next hp
      exact (hwaits.gives hreads hgives).imp_right fun hknown => hknown.step hstep
  · rw [hlog, List.mem_append, List.mem_singleton] at hmem
    rcases hmem with hmem | heq
    · exact hold hmem
    · cases heq

/-- The event of a step is protected by all earlier ones. -/
theorem LockInv.step_protects (h : LockInv allowed s) (hstep : KvStep allowed s l t) :
    t.log.Pairwise CasProtects := by
  rcases hstep.log_eq h with hlog | ⟨j, call', next, hp, hlog⟩ |
    ⟨j, call, p, resp, w, ⟨run, hrun, hsent⟩, hserves, hlog⟩
  · rw [hlog]
    exact h.protects
  · rw [hlog, List.pairwise_append]
    refine ⟨h.protects, List.pairwise_singleton _ _, fun e he f hf => ?_⟩
    rw [List.mem_singleton.mp hf]
    cases e <;> trivial
  · rw [hlog, List.pairwise_append]
    refine ⟨h.protects, List.pairwise_singleton _ _, fun e he f hf => ?_⟩
    rw [List.mem_singleton.mp hf]
    cases e with
    | served i call' p' before after => trivial
    | returned i reading =>
      intro doc hreads hgives htakes hcas hne
      have hk := List.mk_mem_zipIdx_iff_getElem?.mp hsent
      obtain ⟨hcmd, text, htext⟩ := KvCall.command_cas htakes hrun hk hcas
      -- the document of a failed response has no CAS that could be given
      rcases h.given i reading he hreads _ doc hgives with hnull | hknown
      · rw [hnull] at htext
        cases htext
      · exact hserves.protects h.sound hknown hcmd hne

theorem LockInv.step (h : LockInv allowed s) (hstep : KvStep allowed s l t) : LockInv allowed t :=
  ⟨h.sound.step hstep, h.step_waits hstep, h.step_orphans hstep, h.step_given hstep,
    h.step_protects hstep⟩

/-- Nothing has happened yet, no client is in a call, and no command is left behind. -/
structure KvSystem.Fresh (s : KvSystem ι) : Prop where
  sound : s.Sound
  log : s.log = []
  orphans : s.orphans = []
  running : ∀ i, ∃ program, s.clients i = .running program

omit [DecidableEq ι] in
theorem KvSystem.Fresh.lockInv (h : s.Fresh) : LockInv allowed s := by
  refine ⟨h.sound, ?_, ?_, ?_, ?_⟩
  · intro i call pending next hp
    obtain ⟨program, hrun⟩ := h.running i
    rw [hrun] at hp
    cases hp
  · intro o ho
    rw [h.orphans] at ho
    cases ho
  · intro i call hmem
    rw [h.log] at hmem
    cases hmem
  · rw [h.log]
    exact List.Pairwise.nil

/-- **A write under the CAS of a document replaces what the document shows**, in every run of any
clients: if a call gave a document, alone or among others, from the cell or from a replica that was
behind, and later a command with the CAS of this document changes its key, then the content that it
replaces is the one that the document was made of. -/
theorem cas_protects {p : List (KvLabel ι × KvSystem ι)} (hs : s.Fresh)
    (hrun : StepSystem.Path (KvStep allowed) s p) :
    ∀ x ∈ p, x.2.log.Pairwise CasProtects := by
  have hinv : ∀ x ∈ p, LockInv allowed x.2 :=
    hrun.invariant hs.lockInv fun s l t h hstep => h.step hstep
  exact fun x hx => (hinv x hx).protects

end PhpCouchbase
