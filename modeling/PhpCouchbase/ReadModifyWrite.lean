import PhpCouchbase.BatchMap
import PhpCouchbase.OptimisticLocking

/-!
# No update is lost

A program reads a document (`bucket/get.c`), computes a new value from its value and replaces the
document under its CAS (`bucket/store.c`).  Any number of such programs work on one document, and
answers may get lost.

* `NoLostUpdate` — the document is what the updates that were applied make of it, one after another
  and each of them once, and a program whose `replace` returned is among them.
* `no_lost_update` — in every run.
-/

set_option autoImplicit false

namespace PhpCouchbase

/-! ## The program -/

/-- The document that `get($id)` returned. -/
def returnedDocument : C BatchRun → Option Document
  | .ok run =>
    match run.outcome with
    | .returned (.document doc) => some doc
    | _ => none
  | .error _ => none

/-- The arguments of `$bucket->replace($id, f($doc->value), ['cas' => $doc->cas])`. -/
def replaceArgs (id : Bytes) (f : Zval → Zval) (doc : Document) : List Zval :=
  [.string id, f doc.value, .array [(.str (ascii "cas"), doc.cas)]]

def writeBack (id : Bytes) (f : Zval → Zval) (doc : Document) : Program :=
  .call replace (replaceArgs id f doc) fun _ => .done

def afterRead (id : Bytes) (f : Zval → Zval) (out : C BatchRun) : Program :=
  match returnedDocument out with
  | some doc => writeBack id f doc
  | none => .done

/-- Read the document, compute, write it back under its CAS. -/
def readModifyWrite (id : Bytes) (f : Zval → Zval) : Program :=
  .call get [.string id] (afterRead id f)

/-! ## What is to be kept -/

/-- The value that a document shows of a content. -/
def shownValue (bucket : BucketConf) (c : EncodedValue) : Option Zval :=
  match documentInitDecode bucket c.bytes (narrowInt c.bytes.length) c.flags c.datatype 0 none with
  | .ok doc => some doc.value
  | .error _ => none

/-- What the update `f` makes of a content. -/
def applyUpdate (bucket : BucketConf) (encode : Encoder) (f : Zval → Zval) (c : EncodedValue) :
    Option EncodedValue := do
  let value ← shownValue bucket c
  encodeValue (encode (f value))

variable {ι : Type}

/-- The client whose command changed the document. -/
def KvEvent.changer (id : Bytes) : KvEvent ι → Option ι
  | .served i _ p before after =>
    if p.1.key = id ∧ after.version ≠ before.version then some i else none
  | .returned _ _ => none

/-- The clients that changed the document, in order. -/
def changers (id : Bytes) (log : List (KvEvent ι)) : List ι := log.filterMap (·.changer id)

/-- The document is the one that the changes make of `c₀`, one after another; no client made two;
and a client whose `replace` returned made one. -/
structure NoLostUpdate (bucket : BucketConf) (encode : Encoder) (id : Bytes) (f : ι → Zval → Zval)
    (c₀ : EncodedValue) (s : KvSystem ι) : Prop where
  content : ∃ c, (s.cells id).content = some c ∧
    (changers id s.log).foldlM (fun c i => applyUpdate bucket encode (f i) c) c₀ = some c
  once : (changers id s.log).Nodup
  reported : ∀ i call, .returned i call ∈ s.log → call.method = replace →
    ∀ run doc, call.run = .ok run → run.outcome = .returned (.document doc) →
      i ∈ changers id s.log

/-! ## The two calls -/

variable {bucket : BucketConf} {encoder : Nat → Encoder} {id : Bytes} {f : Zval → Zval}
  {doc : Document} {call : KvCall} {run : BatchRun} {s t : KvSystem ι}
  {pending : List (Command × Nat)} {resp : Response}

theorem DocumentOf.shownValue {u : Cell} (h : DocumentOf bucket u doc) :
    ∃ c, u.content = some c ∧ shownValue bucket c = some doc.value := by
  obtain ⟨c, hc, hdoc⟩ := h
  refine ⟨c, hc, ?_⟩
  unfold PhpCouchbase.shownValue
  unfold documentInitDecode at hdoc ⊢
  split at hdoc
  · rename_i hlen
    obtain ⟨value, hvalue, hdoc⟩ := C.bind_eq_ok.mp hdoc
    cases hdoc
    rw [if_pos hlen, hvalue]
    rfl
  · rename_i hlen
    cases hdoc
    rw [if_neg hlen]
    rfl

theorem returnedDocument_eq_some {out : C BatchRun} (h : returnedDocument out = some doc) :
    ∃ run, out = .ok run ∧ run.outcome = .returned (.document doc) := by
  cases out with
  | error fault => cases h
  | ok run =>
    refine ⟨run, rfl, ?_⟩
    rw [returnedDocument] at h
    split at h
    · rename_i doc' hout
      cases h
      exact hout
    · cases h

/-- A call that does not wait returns no document. -/
theorem returnedDocument_left (h : ∀ run, call.run = .ok run → run.waited = false) :
    returnedDocument call.run = none := by
  by_contra hne
  obtain ⟨doc, hdoc⟩ := Option.ne_none_iff_exists'.mp hne
  obtain ⟨run, hrun, hout⟩ := returnedDocument_eq_some hdoc
  cases (KvCall.run_left hrun (h run hrun)).1 _ hout

/-- **A call with one id** that waits has filled one command from its only entry, and it returns
the document of a successful response. -/
theorem KvCall.run_one {st : PpState} {e : PpEntry}
    (hst : ppBegin call.method.spec call.args = some st) (hentries : ppEntries st = [.ok e])
    (hmap : st.isMapped = false) (hrun : call.run = .ok run) (hwaited : run.waited = true) :
    ∃ cmd value, run.scheduled = [cmd] ∧
      entryValue call.method call.world 0 e = .ok (.inr value) ∧
      call.method.command call.world.lval e value = .ok cmd ∧
      ∀ ret, run.outcome = .returned ret → (call.world.respond 0 cmd).rc = .success ∧
        ∃ doc, resultDocument call.method call.world.bucket (call.world.respond 0 cmd) = .ok doc ∧
          ret = .document doc := by
  obtain ⟨st', stop, hst', hend, hne, hcol⟩ := KvCall.run_waited hrun hwaited
  rw [hst, Option.some.injEq] at hst'
  subst hst'
  obtain ⟨cmd, hone⟩ := scheduled_one hmap hne hcol
  obtain ⟨entry, he, hbody⟩ := hcol 0 cmd (by rw [hone]; rfl)
  rw [hentries] at he
  cases he
  obtain ⟨e', value, heq, -, hvalue, hcmd⟩ := batchEntry_eq_inr hbody
  cases heq
  refine ⟨cmd, value, hone, hvalue, hcmd, ?_⟩
  intro ret hout
  rw [hone] at hend
  exact waitedRun_single hmap hend hout

/-- The two programs' calls. -/
structure IsRead (id : Bytes) (call : KvCall) : Prop where
  method : call.method = get
  args : call.args = [.string id]

structure IsWrite (id : Bytes) (f : Zval → Zval) (doc : Document) (call : KvCall) : Prop where
  method : call.method = replace
  args : call.args = replaceArgs id f doc

theorem IsRead.scheduled (h : IsRead id call) (hrun : call.run = .ok run)
    (hwaited : run.waited = true) :
    run.scheduled = [plainGet id] ∧ ∀ doc, run.outcome = .returned (.document doc) →
      (call.world.respond 0 (plainGet id)).rc = .success ∧
        getDocument call.world.bucket (call.world.respond 0 (plainGet id)) = .ok doc := by
  obtain ⟨st, e, hst, hentries, hmap, hcommand⟩ :
      ∃ st e, ppBegin call.method.spec call.args = some st ∧ ppEntries st = [.ok e] ∧
        st.isMapped = false ∧ ∀ lval value, call.method.command lval e value = .ok (plainGet id) := by
    rw [h.method, h.args]
    exact ⟨_, _, rfl, rfl, rfl, fun _ _ => rfl⟩
  obtain ⟨cmd, value, hone, -, hcmd, hout⟩ := KvCall.run_one hst hentries hmap hrun hwaited
  rw [hcommand] at hcmd
  cases hcmd
  refine ⟨hone, ?_⟩
  intro doc hdoc
  obtain ⟨hrc, doc', hres, heq⟩ := hout _ hdoc
  cases heq
  rw [resultDocument, if_pos hrc, h.method] at hres
  exact ⟨hrc, hres⟩

/-- The command of the write. -/
def replaceCommand (id : Bytes) (value : EncodedValue) (cas : UInt64) : StoreCommand :=
  ⟨.replace, id, value, cas, 0, none, 0, 0⟩

theorem IsWrite.scheduled (h : IsWrite id f doc call) (hrun : call.run = .ok run)
    (hwaited : run.waited = true) :
    ∃ value, run.scheduled = [.store false (replaceCommand id value (casDecode doc.cas))] ∧
      encodeValue (call.world.encoder 0 (f doc.value)) = some value ∧
      ∀ doc', run.outcome = .returned (.document doc') →
        (call.world.respond 0
          (.store false (replaceCommand id value (casDecode doc.cas)))).rc = .success := by
  obtain ⟨st, e, hst, hentries, hmap, hencodes, hvalue, hcommand⟩ :
      ∃ st e, ppBegin call.method.spec call.args = some st ∧ ppEntries st = [.ok e] ∧
        st.isMapped = false ∧ call.method.encodes = true ∧ e.arg "value" = some (f doc.value) ∧
        ∀ lval value, call.method.command lval e value =
          .ok (.store false (replaceCommand id value (casDecode doc.cas))) := by
    rw [h.method, h.args]
    exact ⟨_, _, rfl, rfl, rfl, rfl, rfl, fun _ _ => rfl⟩
  obtain ⟨cmd, value, hone, hentry, hcmd, hout⟩ := KvCall.run_one hst hentries hmap hrun hwaited
  rw [hcommand] at hcmd
  cases hcmd
  refine ⟨value, hone, ?_, fun doc' hdoc => (hout _ hdoc).1⟩
  rw [entryValue, if_pos hencodes, hvalue] at hentry
  simp only at hentry
  split at hentry
  · cases hentry
  · split at hentry
    · cases hentry
    · rename_i hencoded
      cases hentry
      exact hencoded

/-! ## The two commands at the server -/

/-- A plain reading leaves the cell. -/
theorem ServesKv.plainGet {r v w : Cell} (h : ServesKv r v (plainGet id) resp w) : w = v := by
  rcases h.cell_eq with rfl | ⟨-, -, c, happly, -⟩
  · rfl
  · generalize v.content = content at happly
    cases happly with
    | get c hnew =>
      rcases hnew with hlock | hexptime
      · cases hlock
      · exact absurd rfl hexptime

/-- **The write** leaves the cell and fails, or it replaces what the document shows. -/
theorem ServesKv.replace {r w : Cell} {value : EncodedValue}
    (h : ServesKv r (s.cells id) (.store false (replaceCommand id value (casDecode doc.cas))) resp w)
    (hs : s.Sound) (hdoc : Known bucket s id doc) :
    w = s.cells id ∧ resp.rc ≠ .success ∨
    w.version ≠ (s.cells id).version ∧ w.content = some value ∧
      ∃ c, (s.cells id).content = some c ∧ shownValue bucket c = some doc.value := by
  have happlied : ∀ {c : Option EncodedValue},
      Applies (.store false (replaceCommand id value (casDecode doc.cas))) (s.cells id).content c →
      (s.cells id).Changes c w → w.version ≠ (s.cells id).version ∧ w.content = some value ∧
        ∃ c, (s.cells id).content = some c ∧ shownValue bucket c = some doc.value := by
    intro c happly hw
    have hne : w.version ≠ (s.cells id).version := fun heq =>
      hw.fresh (heq ▸ List.mem_cons_self)
    obtain ⟨c₀, hc₀, hshown⟩ := (h.protects hs hdoc rfl hne).shownValue
    rw [hc₀] at happly
    cases happly with
    | store hstore =>
      cases hstore
      exact ⟨hne, hw.content, c₀, hc₀, hshown⟩
  cases h with
  | failed hrc => exact Or.inl ⟨rfl, hrc⟩
  | kept hcmd hguard hcontent hshows hrc => cases hcmd
  | readReplica hcmd hshows => cases hcmd
  | applied hguard happly hw hlive hshows hrc hcas => exact Or.inr (happlied happly hw)
  | unanswered hguard happly hw hlive hrc => exact Or.inr (happlied happly hw)

/-! ## Where a client is -/

variable [DecidableEq ι] {allowed : World → Prop} {f : ι → Zval → Zval} {c₀ : EncodedValue}
  {l : KvLabel ι} {i j : ι}

inductive UpdatePhase (bucket : BucketConf) (id : Bytes) (f : Zval → Zval) (s : KvSystem ι)
    (i : ι) : Prop where
  | start (hp : s.clients i = .running (readModifyWrite id f)) (hnew : i ∉ changers id s.log)
  | reading (call : KvCall) (pending : List (Command × Nat))
      (hp : s.clients i = .waiting call pending (afterRead id f)) (hcall : IsRead id call)
      (hnew : i ∉ changers id s.log)
  | read (doc : Document) (hp : s.clients i = .running (writeBack id f doc))
      (hknown : Known bucket s id doc) (hnew : i ∉ changers id s.log)
  | writing (call : KvCall) (doc : Document) (p : Command × Nat)
      (hp : s.clients i = .waiting call [p] fun _ => .done) (hcall : IsWrite id f doc call)
      (hknown : Known bucket s id doc) (hnew : i ∉ changers id s.log)
  | written (call : KvCall) (doc : Document)
      (hp : s.clients i = .waiting call [] fun _ => .done) (hcall : IsWrite id f doc call)
      (hrc : ∀ run, call.run = .ok run → ∀ p ∈ run.scheduled.zipIdx,
        (call.world.respond p.2 p.1).rc = .success → i ∈ changers id s.log)
  | done (hp : s.clients i = .running .done)

/-- The calls are made with this bucket and this encoder. -/
structure SharesCodec (bucket : BucketConf) (encoder : Nat → Encoder) (w : World) : Prop where
  bucket_eq : w.bucket = bucket
  encoder_eq : w.encoder = encoder

/-- What every step keeps. -/
structure UpdateInv (bucket : BucketConf) (encoder : Nat → Encoder) (id : Bytes)
    (f : ι → Zval → Zval) (c₀ : EncodedValue) (s : KvSystem ι) : Prop where
  lock : LockInv (SharesCodec bucket encoder) s
  orphans : s.orphans = []
  phase : ∀ i, UpdatePhase bucket id (f i) s i
  noLoss : NoLostUpdate bucket (encoder 0) id f c₀ s

/-- A step of somebody else. -/
theorem UpdatePhase.frame {f : Zval → Zval} (h : UpdatePhase bucket id f s i)
    (hstep : KvStep allowed s l t) (hl : l ≠ .client i)
    (hchangers : i ∈ changers id t.log ↔ i ∈ changers id s.log) :
    UpdatePhase bucket id f t i := by
  have hclients := hstep.frame hl
  cases h with
  | start hp hnew => exact .start (hclients.trans hp) (hchangers.not.mpr hnew)
  | reading call pending hp hcall hnew =>
    exact .reading call pending (hclients.trans hp) hcall (hchangers.not.mpr hnew)
  | read doc hp hknown hnew =>
    exact .read doc (hclients.trans hp) (hknown.step hstep) (hchangers.not.mpr hnew)
  | writing call doc p hp hcall hknown hnew =>
    exact .writing call doc p (hclients.trans hp) hcall (hknown.step hstep) (hchangers.not.mpr hnew)
  | written call doc hp hcall hrc =>
    exact .written call doc (hclients.trans hp) hcall fun run hrun p hmem hs =>
      hchangers.mpr (hrc run hrun p hmem hs)
  | done hp => exact .done (hclients.trans hp)

/-! ## What a step does to the changes -/

section Changes

omit [DecidableEq ι]

theorem changers_append (log : List (KvEvent ι)) (e : KvEvent ι) :
    changers id (log ++ [e]) = changers id log ++ (e.changer id).toList := by
  unfold changers
  rw [List.filterMap_append]
  cases h : e.changer id <;> simp [h]

theorem changers_served {call : KvCall} {p : Command × Nat} {v w : Cell}
    (log : List (KvEvent ι)) (hkey : p.1.key = id) (hne : w.version ≠ v.version) :
    changers id (log ++ [.served i call p v w]) = changers id log ++ [i] := by
  rw [changers_append, KvEvent.changer, if_pos ⟨hkey, hne⟩]
  rfl

theorem changers_served_same (call : KvCall) (p : Command × Nat) (v : Cell)
    (log : List (KvEvent ι)) :
    changers id (log ++ [.served i call p v v]) = changers id log := by
  rw [changers_append, KvEvent.changer, if_neg fun h => h.2 rfl]
  exact List.append_nil _

theorem changers_returned (call : KvCall) (log : List (KvEvent ι)) :
    changers id (log ++ [.returned i call]) = changers id log := by
  rw [changers_append]
  exact List.append_nil _

/-- The document and its changes are as before, and no call returned. -/
theorem NoLostUpdate.same {encode : Encoder} (h : NoLostUpdate bucket encode id f c₀ s)
    (hcell : t.cells id = s.cells id) (hchangers : changers id t.log = changers id s.log)
    (hlog : ∀ i call, .returned i call ∈ t.log → .returned i call ∈ s.log) :
    NoLostUpdate bucket encode id f c₀ t := by
  constructor
  · rw [hcell, hchangers]
    exact h.content
  · rw [hchangers]
    exact h.once
  · intro i call hmem hm run doc hrun hout
    rw [hchangers]
    exact h.reported i call (hlog i call hmem) hm run doc hrun hout

/-- What a served command leaves of the system. -/
structure AfterServe (s : KvSystem ι) (i : ι) (call : KvCall) (p : Command × Nat) (w : Cell)
    (t : KvSystem ι) : Prop where
  cell : t.cells p.1.key = w
  log : t.log = s.log ++ [.served i call p (s.cells p.1.key) w]

theorem AfterServe.returned {call call' : KvCall} {p : Command × Nat} {w : Cell}
    (h : AfterServe s i call p w t) (hmem : .returned j call' ∈ t.log) :
    .returned j call' ∈ s.log := by
  rw [h.log, List.mem_append, List.mem_singleton] at hmem
  rcases hmem with hmem | heq
  · exact hmem
  · cases heq

/-- When the cell stays, nothing else changes. -/
theorem AfterServe.same {call : KvCall} {p : Command × Nat} {w : Cell} {encode : Encoder}
    (ht : AfterServe s i call p w t) (h : NoLostUpdate bucket encode id f c₀ s)
    (hw : w = s.cells p.1.key) (hkey : p.1.key = id) :
    changers id t.log = changers id s.log ∧ NoLostUpdate bucket encode id f c₀ t := by
  subst hw
  have hchangers : changers id t.log = changers id s.log := by
    rw [ht.log, changers_served_same]
  refine ⟨hchangers, h.same ?_ hchangers fun _ _ => ht.returned⟩
  rw [← hkey, ht.cell]

/-- A client that had made no change makes its own. -/
theorem NoLostUpdate.change {encode : Encoder} (h : NoLostUpdate bucket encode id f c₀ s)
    (hnew : i ∉ changers id s.log) (hchangers : changers id t.log = changers id s.log ++ [i])
    {c c' : EncodedValue} (hbefore : (s.cells id).content = some c)
    (hafter : (t.cells id).content = some c') (happly : applyUpdate bucket encode (f i) c = some c')
    (hlog : ∀ i call, .returned i call ∈ t.log → .returned i call ∈ s.log) :
    NoLostUpdate bucket encode id f c₀ t := by
  constructor
  · obtain ⟨c₁, hc₁, hfold⟩ := h.content
    rw [hbefore, Option.some.injEq] at hc₁
    subst hc₁
    refine ⟨c', hafter, ?_⟩
    rw [hchangers, List.foldlM_append, hfold]
    simp [happly]
  · rw [hchangers, List.nodup_append]
    refine ⟨h.once, List.nodup_singleton i, fun j hj k hk => ?_⟩
    rw [List.mem_singleton.mp hk]
    rintro rfl
    exact hnew hj
  · intro j call hmem hm run doc hrun hout
    rw [hchangers]
    exact List.mem_append_left _ (h.reported j call (hlog j call hmem) hm run doc hrun hout)

/-- A call returns, and if it was a `replace` that gave a document it made a change. -/
theorem NoLostUpdate.returns {encode : Encoder} (h : NoLostUpdate bucket encode id f c₀ s)
    (hcell : t.cells id = s.cells id) (hlog : t.log = s.log ++ [.returned i call])
    (hreport : call.method = replace → ∀ run doc, call.run = .ok run →
      run.outcome = .returned (.document doc) → i ∈ changers id s.log) :
    NoLostUpdate bucket encode id f c₀ t := by
  have hchangers : changers id t.log = changers id s.log := by
    rw [hlog, changers_returned]
  constructor
  · rw [hcell, hchangers]
    exact h.content
  · rw [hchangers]
    exact h.once
  · intro j call' hmem hm run doc hrun hout
    rw [hchangers]
    rw [hlog, List.mem_append, List.mem_singleton] at hmem
    rcases hmem with hmem | heq
    · exact h.reported j call' hmem hm run doc hrun hout
    · cases heq
      exact hreport hm run doc hrun hout

end Changes

/-! ## The steps of a client -/

omit [DecidableEq ι] in
/-- A client that waits is in one of the two calls. -/
theorem UpdatePhase.in_call {f : Zval → Zval} {call : KvCall} {pending : List (Command × Nat)}
    {next : C BatchRun → Program} (h : UpdatePhase bucket id f s i)
    (hp : s.clients i = .waiting call pending next) :
    (IsRead id call ∧ next = afterRead id f ∧ i ∉ changers id s.log) ∨
    ∃ doc, IsWrite id f doc call ∧ (next = fun _ => .done) ∧
      ((∃ p, pending = [p] ∧ Known bucket s id doc ∧ i ∉ changers id s.log) ∨
        (pending = [] ∧ ∀ run, call.run = .ok run → ∀ p ∈ run.scheduled.zipIdx,
          (call.world.respond p.2 p.1).rc = .success → i ∈ changers id s.log)) := by
  cases h with
  | reading call' pending' hp' hcall hnew =>
    rw [hp] at hp'
    cases hp'
    exact Or.inl ⟨hcall, rfl, hnew⟩
  | writing call' doc p hp' hcall hknown hnew =>
    rw [hp] at hp'
    cases hp'
    exact Or.inr ⟨doc, hcall, rfl, Or.inl ⟨p, rfl, hknown, hnew⟩⟩
  | written call' doc hp' hcall hrc =>
    rw [hp] at hp'
    cases hp'
    exact Or.inr ⟨doc, hcall, rfl, Or.inr ⟨rfl, hrc⟩⟩
  | start hp' hnew =>
    rw [hp] at hp'
    cases hp'
  | read doc hp' hknown hnew =>
    rw [hp] at hp'
    cases hp'
  | done hp' =>
    rw [hp] at hp'
    cases hp'

omit [DecidableEq ι] in
/-- A client that is not in a call goes on to one, or to nothing. -/
theorem UpdatePhase.next_call {f : Zval → Zval} {call : KvCall} {next : C BatchRun → Program}
    (h : UpdatePhase bucket id f s i)
    (hp : s.clients i = .running (.call call.method call.args next)) :
    i ∉ changers id s.log ∧ (IsRead id call ∧ next = afterRead id f ∨
      ∃ doc, IsWrite id f doc call ∧ Known bucket s id doc ∧ next = fun _ => .done) := by
  cases h with
  | start hp' hnew =>
    rw [hp, readModifyWrite] at hp'
    simp only [Client.running.injEq, Program.call.injEq] at hp'
    exact ⟨hnew, Or.inl ⟨⟨hp'.1, hp'.2.1⟩, hp'.2.2⟩⟩
  | read doc hp' hknown hnew =>
    rw [hp, writeBack] at hp'
    simp only [Client.running.injEq, Program.call.injEq] at hp'
    exact ⟨hnew, Or.inr ⟨doc, ⟨hp'.1, hp'.2.1⟩, hknown, hp'.2.2⟩⟩
  | reading call' pending hp' hcall hnew =>
    rw [hp] at hp'
    cases hp'
  | writing call' doc p hp' hcall hknown hnew =>
    rw [hp] at hp'
    cases hp'
  | written call' doc hp' hcall hrc =>
    rw [hp] at hp'
    cases hp'
  | done hp' =>
    rw [hp] at hp'
    cases hp'

/-- Both calls have one id. -/
theorem IsRead.parsed {call : KvCall} (h : IsRead id call) :
    ∃ st, ppBegin call.method.spec call.args = some st ∧ st.isMapped = false := by
  rw [h.method, h.args]
  exact ⟨_, rfl, rfl⟩

theorem IsWrite.parsed {f : Zval → Zval} {doc : Document} {call : KvCall}
    (h : IsWrite id f doc call) :
    ∃ st, ppBegin call.method.spec call.args = some st ∧ st.isMapped = false := by
  rw [h.method, h.args]
  exact ⟨_, rfl, rfl⟩

omit [DecidableEq ι] in
/-- A call of one id that does not wait leaves nothing behind. -/
theorem leftBehind_nil {call : KvCall}
    (hparsed : ∃ st, ppBegin call.method.spec call.args = some st ∧ st.isMapped = false)
    (hleft : ∀ run, call.run = .ok run → run.waited = false) : leftBehind i call = [] := by
  obtain ⟨st, hst, hmap⟩ := hparsed
  unfold leftBehind
  split
  · rename_i run hrun
    rw [(KvCall.run_left hrun (hleft run hrun)).2 st hst hmap]
    rfl
  · rfl

omit [DecidableEq ι] in
/-- The document that the reading gave is known. -/
theorem Waits.read_known {call : KvCall} {run run' : BatchRun} {doc : Document}
    (h : Waits allowed s call [] run) (hcall : IsRead id call) (hrun : call.run = .ok run')
    (hout : run'.outcome = .returned (.document doc)) : Known call.world.bucket s id doc := by
  rw [h.run_eq, Except.ok.injEq] at hrun
  subst hrun
  obtain ⟨hone, hgives⟩ := hcall.scheduled h.run_eq h.waited
  obtain ⟨hrc, hdoc⟩ := hgives doc hout
  have hmem : (plainGet id, 0) ∈ run.scheduled.zipIdx := by
    rw [hone]
    exact List.mem_singleton.mpr rfl
  obtain ⟨u, hlive, hshows, hu⟩ := h.served _ hmem List.not_mem_nil rfl hrc
  exact (hshows.documentOf hdoc).imp_right fun hdoc => ⟨u, hlive, hdoc, hu⟩

section Steps

variable (hinv : UpdateInv bucket encoder id f c₀ s)
include hinv

theorem UpdateInv.wait {call : KvCall} {run : BatchRun} {next : C BatchRun → Program}
    (hp : s.clients i = .running (.call call.method call.args next))
    (hallowed : SharesCodec bucket encoder call.world) (hrun : call.run = .ok run)
    (hwaited : run.waited = true) :
    UpdateInv bucket encoder id f c₀
      (s.setClient i (.waiting call run.scheduled.zipIdx next)) := by
  have hstep : KvStep (SharesCodec bucket encoder) s (.client i)
      (s.setClient i (.waiting call run.scheduled.zipIdx next)) :=
    .wait hp hallowed hrun hwaited
  refine ⟨hinv.lock.step hstep, hinv.orphans, ?_, hinv.noLoss.same rfl rfl fun _ _ h => h⟩
  intro j
  by_cases hj : i = j
  · subst hj
    obtain ⟨hnew, ⟨hcall, rfl⟩ | ⟨doc, hcall, hknown, rfl⟩⟩ := (hinv.phase i).next_call hp
    · exact .reading call _ (clients_setClient_self _ _ _) hcall hnew
    · obtain ⟨value, hone, -, -⟩ := hcall.scheduled hrun hwaited
      refine .writing call doc
        (.store false (replaceCommand id value (casDecode doc.cas)), 0) ?_ hcall
        (hknown.step hstep) hnew
      rw [clients_setClient_self, hone]
      rfl
  · exact (hinv.phase j).frame hstep (by simpa using hj) Iff.rfl

theorem UpdateInv.leave {call : KvCall} {next : C BatchRun → Program}
    (hp : s.clients i = .running (.call call.method call.args next))
    (hallowed : SharesCodec bucket encoder call.world)
    (hleft : ∀ run, call.run = .ok run → run.waited = false) :
    UpdateInv bucket encoder id f c₀
      ((s.setClient i (.running (next call.run))).setOrphans (s.orphans ++ leftBehind i call)) := by
  have hstep : KvStep (SharesCodec bucket encoder) s (.client i)
      ((s.setClient i (.running (next call.run))).setOrphans (s.orphans ++ leftBehind i call)) :=
    .leave hp hallowed hleft
  obtain ⟨hnew, hcall⟩ := (hinv.phase i).next_call hp
  refine ⟨hinv.lock.step hstep, ?_, ?_, hinv.noLoss.same rfl rfl fun _ _ h => h⟩
  · have hnil : leftBehind i call = [] := by
      rcases hcall with ⟨hcall, -⟩ | ⟨doc, hcall, -, -⟩
      · exact leftBehind_nil hcall.parsed hleft
      · exact leftBehind_nil hcall.parsed hleft
    rw [orphans_setOrphans, hinv.orphans, hnil]
    rfl
  · intro j
    by_cases hj : i = j
    · subst hj
      have hdone : next call.run = .done := by
        rcases hcall with ⟨-, rfl⟩ | ⟨doc, -, -, rfl⟩
        · rw [afterRead, returnedDocument_left hleft]
        · rfl
      apply UpdatePhase.done
      rw [clients_setOrphans, clients_setClient_self, hdone]
    · exact (hinv.phase j).frame hstep (by simpa using hj) Iff.rfl

omit [DecidableEq ι] in
/-- **The reading is served**, and the document stays. -/
theorem UpdateInv.served_read {call : KvCall} {pending : List (Command × Nat)} {run : BatchRun}
    {p : Command × Nat} {w : Cell} {t : KvSystem ι}
    (hwaits : Waits (SharesCodec bucket encoder) s call pending run) (hcall : IsRead id call)
    (hmem : p ∈ pending)
    (hserves : ServesKv (s.replicas p.1.key) (s.cells p.1.key) p.1
      (call.world.respond p.2 p.1) w) (ht : AfterServe s i call p w t) :
    changers id t.log = changers id s.log ∧ NoLostUpdate bucket (encoder 0) id f c₀ t := by
  have hread : p = (plainGet id, 0) := by
    have hsched := hwaits.scheduled p hmem
    rw [(hcall.scheduled hwaits.run_eq hwaits.waited).1] at hsched
    exact List.mem_singleton.mp hsched
  subst hread
  exact ht.same hinv.noLoss hserves.plainGet rfl

omit [DecidableEq ι] in
/-- **The write is served**: it fails and the document stays, or it is a change of the client. -/
theorem UpdateInv.served_write {call : KvCall} {run : BatchRun} {doc : Document}
    {p : Command × Nat} {w : Cell} {t : KvSystem ι}
    (hwaits : Waits (SharesCodec bucket encoder) s call [p] run) (hcall : IsWrite id (f i) doc call)
    (hknown : Known bucket s id doc) (hnew : i ∉ changers id s.log)
    (hserves : ServesKv (s.replicas p.1.key) (s.cells p.1.key) p.1
      (call.world.respond p.2 p.1) w) (ht : AfterServe s i call p w t) :
    NoLostUpdate bucket (encoder 0) id f c₀ t ∧
      (changers id t.log = changers id s.log ∧ (call.world.respond p.2 p.1).rc ≠ .success ∨
        changers id t.log = changers id s.log ++ [i]) := by
  obtain ⟨value, hone, hencoded, -⟩ := hcall.scheduled hwaits.run_eq hwaits.waited
  have hwrite : p = (.store false (replaceCommand id value (casDecode doc.cas)), 0) := by
    have hsched := hwaits.scheduled p (List.mem_singleton.mpr rfl)
    rw [hone] at hsched
    exact List.mem_singleton.mp hsched
  subst hwrite
  rcases hserves.replace hinv.lock.sound hknown with
    ⟨rfl, hfailed⟩ | ⟨hne, hafter, c, hbefore, hshown⟩
  · obtain ⟨hchangers, hnoLoss⟩ := ht.same hinv.noLoss rfl rfl
    exact ⟨hnoLoss, Or.inl ⟨hchangers, hfailed⟩⟩
  · have hchangers : changers id t.log = changers id s.log ++ [i] := by
      rw [ht.log]
      exact changers_served s.log rfl hne
    have happly : applyUpdate bucket (encoder 0) (f i) c = some value := by
      rw [hwaits.allowed.encoder_eq] at hencoded
      unfold applyUpdate
      rw [hshown]
      exact hencoded
    have hcontent : (t.cells id).content = some value :=
      (congrArg Versioned.content ht.cell).trans hafter
    exact ⟨hinv.noLoss.change hnew hchangers hbefore hcontent happly fun _ _ => ht.returned,
      Or.inr hchangers⟩

omit [DecidableEq ι] in
/-- What a served command means for the client and for the document. -/
theorem UpdateInv.served {call : KvCall} {pending : List (Command × Nat)}
    {next : C BatchRun → Program} {p : Command × Nat} {w : Cell} {t : KvSystem ι}
    (hp : s.clients i = .waiting call pending next) (hmem : p ∈ pending)
    (hserves : ServesKv (s.replicas p.1.key) (s.cells p.1.key) p.1
      (call.world.respond p.2 p.1) w)
    (hclient : t.clients i = .waiting call (pending.erase p) next)
    (ht : AfterServe s i call p w t) :
    UpdatePhase bucket id (f i) t i ∧ NoLostUpdate bucket (encoder 0) id f c₀ t ∧
      ∀ j, j ≠ i → (j ∈ changers id t.log ↔ j ∈ changers id s.log) := by
  obtain ⟨run, hwaits⟩ := hinv.lock.waits i call pending next hp
  rcases (hinv.phase i).in_call hp with ⟨hcall, rfl, hnew⟩ |
    ⟨doc, hcall, rfl, ⟨q, rfl, hknown, hnew⟩ | ⟨rfl, -⟩⟩
  · obtain ⟨hchangers, hnoLoss⟩ := hinv.served_read hwaits hcall hmem hserves ht
    rw [hchangers]
    exact ⟨.reading call _ hclient hcall (hchangers ▸ hnew), hnoLoss, fun j _ => Iff.rfl⟩
  · obtain rfl := List.mem_singleton.mp hmem
    rw [List.erase_cons_head] at hclient
    obtain ⟨hnoLoss, hend⟩ := hinv.served_write hwaits hcall hknown hnew hserves ht
    refine ⟨.written call doc hclient hcall ?_, hnoLoss, ?_⟩
    · intro run' hrun' q hq hrc
      -- the call has this command only
      have hsame : q = p := by
        rw [hwaits.run_eq, Except.ok.injEq] at hrun'
        subst hrun'
        obtain ⟨value, hone, -, -⟩ := hcall.scheduled hwaits.run_eq hwaits.waited
        have hsched := hwaits.scheduled p (List.mem_singleton.mpr rfl)
        rw [hone] at hq hsched
        exact (List.mem_singleton.mp hq).trans (List.mem_singleton.mp hsched).symm
      subst hsame
      rcases hend with ⟨-, hfailed⟩ | hchangers
      · exact absurd hrc hfailed
      · rw [hchangers]
        exact List.mem_append_right _ (List.mem_singleton.mpr rfl)
    · intro j hj
      rcases hend with ⟨hchangers, -⟩ | hchangers
      · rw [hchangers]
      · rw [hchangers, List.mem_append, List.mem_singleton]
        exact ⟨fun h => h.resolve_right hj, Or.inl⟩
  · cases hmem

/-- **A command is served**: the reading changes nothing, and the write makes the change or
fails. -/
theorem UpdateInv.serve {call : KvCall} {pending : List (Command × Nat)}
    {next : C BatchRun → Program} {p : Command × Nat} {w : Cell}
    (hp : s.clients i = .waiting call pending next) (hmem : p ∈ pending)
    (hserves : ServesKv (s.replicas p.1.key) (s.cells p.1.key) p.1
      (call.world.respond p.2 p.1) w) :
    UpdateInv bucket encoder id f c₀
      (((s.setClient i (.waiting call (pending.erase p) next)).setCell p.1.key w).addEvent
        (.served i call p (s.cells p.1.key) w)) := by
  have hstep : KvStep (SharesCodec bucket encoder) s (.client i)
      (((s.setClient i (.waiting call (pending.erase p) next)).setCell p.1.key w).addEvent
        (.served i call p (s.cells p.1.key) w)) := .serve hp hmem hserves
  obtain ⟨hphase, hnoLoss, hothers⟩ := hinv.served
    (t := ((s.setClient i (.waiting call (pending.erase p) next)).setCell p.1.key w).addEvent
      (.served i call p (s.cells p.1.key) w))
    hp hmem hserves (by simp) ⟨by simp, rfl⟩
  refine ⟨hinv.lock.step hstep, hinv.orphans, ?_, hnoLoss⟩
  intro j
  by_cases hj : i = j
  · subst hj
    exact hphase
  · exact (hinv.phase j).frame hstep (by simpa using hj) (hothers j (Ne.symm hj))

theorem UpdateInv.finish {call : KvCall} {next : C BatchRun → Program}
    (hp : s.clients i = .waiting call [] next) :
    UpdateInv bucket encoder id f c₀
      ((s.setClient i (.running (next call.run))).addEvent (.returned i call)) := by
  have hstep : KvStep (SharesCodec bucket encoder) s (.client i)
      ((s.setClient i (.running (next call.run))).addEvent (.returned i call)) := .finish hp
  obtain ⟨run, hwaits⟩ := hinv.lock.waits i call [] next hp
  have hchangers : ∀ j, j ∈ changers id (s.log ++ [.returned i call]) ↔ j ∈ changers id s.log := by
    intro j
    rw [changers_returned]
  have hself : ((s.setClient i (.running (next call.run))).addEvent
      (.returned i call)).clients i = .running (next call.run) := by
    rw [clients_addEvent, clients_setClient_self]
  have hphases : UpdatePhase bucket id (f i) ((s.setClient i (.running (next call.run))).addEvent
      (.returned i call)) i ∧ (call.method = replace → ∀ run doc, call.run = .ok run →
        run.outcome = .returned (.document doc) → i ∈ changers id s.log) := by
    rcases (hinv.phase i).in_call hp with ⟨hcall, rfl, hnew⟩ |
      ⟨doc, hcall, rfl, ⟨q, hq, -⟩ | ⟨-, hrc⟩⟩
    · constructor
      · cases hdoc : returnedDocument call.run with
        | none =>
          refine .done (hself.trans ?_)
          rw [afterRead, hdoc]
        | some doc =>
          obtain ⟨run', hrun', hout⟩ := returnedDocument_eq_some hdoc
          have hknown : Known bucket s id doc :=
            hwaits.allowed.bucket_eq ▸ hwaits.read_known hcall hrun' hout
          refine .read doc (hself.trans ?_) (hknown.step hstep) ((hchangers i).not.mpr hnew)
          rw [afterRead, hdoc]
      · intro hm
        exact absurd (congrArg BatchMethod.encodes (hm.symm.trans hcall.method)) (by decide)
    · cases hq
    · refine ⟨.done hself, ?_⟩
      intro _ run' doc' hrun' hout
      rw [hwaits.run_eq, Except.ok.injEq] at hrun'
      subst hrun'
      obtain ⟨value, hone, -, hreported⟩ := hcall.scheduled hwaits.run_eq hwaits.waited
      refine hrc run hwaits.run_eq (_, 0) ?_ (hreported doc' hout)
      rw [hone]
      exact List.mem_singleton.mpr rfl
  refine ⟨hinv.lock.step hstep, hinv.orphans, ?_, hinv.noLoss.returns rfl rfl hphases.2⟩
  intro j
  by_cases hj : i = j
  · subst hj
    exact hphases.1
  · exact (hinv.phase j).frame hstep (by simpa using hj) (hchangers j)

/-- A step, unless somebody else changes the document. -/
theorem UpdateInv.step (hstep : KvStep (SharesCodec bucket encoder) s l t) (hl : l ≠ .other id) :
    UpdateInv bucket encoder id f c₀ t := by
  have hsame : ∀ {t : KvSystem ι} {l : KvLabel ι}, KvStep (SharesCodec bucket encoder) s l t →
      (∀ i, l ≠ .client i) → t.cells id = s.cells id → t.log = s.log → t.orphans = s.orphans →
      UpdateInv bucket encoder id f c₀ t := by
    intro t l hstep hl hcell hlog horphans
    refine ⟨hinv.lock.step hstep, horphans.trans hinv.orphans, fun j => ?_,
      hinv.noLoss.same hcell (by rw [hlog]) fun _ _ h => hlog ▸ h⟩
    exact (hinv.phase j).frame hstep (hl j) (by rw [hlog])
  cases hstep with
  | wait hp hallowed hrun hwaited => exact hinv.wait hp hallowed hrun hwaited
  | leave hp hallowed hleft => exact hinv.leave hp hallowed hleft
  | serve hp hmem hserves => exact hinv.serve hp hmem hserves
  | finish hp => exact hinv.finish hp
  | orphan ho hserves =>
    rw [hinv.orphans] at ho
    cases List.append_eq_nil_iff.mp ho.symm |>.2
  | replicate key => exact hsame (.replicate key) (fun i h => by cases h) rfl rfl rfl
  | other hw hlive =>
    have hkey : id ≠ _ := fun heq => hl (congrArg KvLabel.other heq.symm)
    exact hsame (.other hw hlive) (fun i h => by cases h) (cells_setCell_ne s _ _ hkey) rfl rfl

end Steps

/-! ## The run -/

/-- Nothing has happened, and every client is about to update the document. -/
structure UpdatesOnly (id : Bytes) (f : ι → Zval → Zval) (c₀ : EncodedValue) (s : KvSystem ι) :
    Prop where
  fresh : s.Fresh
  clients : ∀ i, s.clients i = .running (readModifyWrite id (f i))
  content : (s.cells id).content = some c₀

omit [DecidableEq ι] in
theorem UpdatesOnly.updateInv (h : UpdatesOnly id f c₀ s) :
    UpdateInv bucket encoder id f c₀ s := by
  have hnone : changers id s.log = [] := by
    rw [h.fresh.log]
    rfl
  refine ⟨h.fresh.lockInv, h.fresh.orphans, ?_, ?_, ?_, ?_⟩
  · intro i
    refine .start (h.clients i) ?_
    rw [hnone]
    exact List.not_mem_nil
  · refine ⟨c₀, h.content, ?_⟩
    rw [hnone]
    rfl
  · rw [hnone]
    exact List.nodup_nil
  · intro i call hmem
    rw [h.fresh.log] at hmem
    cases hmem

/-- **No update is lost.**  Any number of clients read the document, compute and replace it under
the CAS they read, in any order of all requests and with answers that get lost.  In every state the
document is what the updates that were applied make of the original one, one after another and each
of them once; and an update that was reported is among them. -/
theorem no_lost_update {p : List (KvLabel ι × KvSystem ι)} (hs : UpdatesOnly id f c₀ s)
    (hrun : StepSystem.Path (KvStep (SharesCodec bucket encoder)) s p)
    (hothers : ∀ x ∈ p, x.1 ≠ .other id) :
    ∀ x ∈ p, NoLostUpdate bucket (encoder 0) id f c₀ x.2 := by
  have hmeets : StepSystem.Meets (fun _ l => l ≠ .other id) s p :=
    StepSystem.meets_label_iff.mpr hothers
  have hinv : ∀ x ∈ p, UpdateInv bucket encoder id f c₀ x.2 :=
    hrun.invariant_of_meets hmeets hs.updateInv fun s l t h hl hstep => h.step hstep hl
  exact fun x hx => (hinv x hx).noLoss

/-! ## A concrete run -/

/-- The first client writes `"w"`, and the second one appends `"x"`. -/
def bothUpdate : Bool → Zval → Zval
  | true, _ => .string (ascii "w")
  | false, .string s => .string (s ++ ascii "x")
  | false, value => value

/-- Two clients, and `"v"` under every key with the CAS 1. -/
def twoUpdates : KvSystem Bool where
  cells _ := ⟨some ⟨ascii "v", 0, 0⟩, 1, []⟩
  replicas _ := ⟨some ⟨ascii "v", 0, 0⟩, 1, []⟩
  clients i := .running (readModifyWrite (ascii "a") (bothUpdate i))
  orphans := []
  log := []

/-- A world that answers with the value and the CAS. -/
def answering (value : Bytes) (cas : UInt64) : World :=
  { plainWorld (fun _ _ => .success) with
    respond := fun _ _ => ⟨.success, value, 0, 0, cas, 0, none⟩ }

/-- The document of this value and this CAS. -/
def textDocument (text : Bytes) (cas : UInt64) : Document :=
  { value := .string text, flags := .long 0, cas := casEncode cas }

def readCall (text : Bytes) (cas : UInt64) : KvCall :=
  ⟨get, answering text cas, [.string (ascii "a")]⟩

/-- The update of a document by a client, which gives it the next CAS. -/
def writeCall (i : Bool) (text : Bytes) (cas : UInt64) : KvCall :=
  ⟨replace, answering [] (cas + 1), replaceArgs (ascii "a") (bothUpdate i) (textDocument text cas)⟩

def writeCommand (text : Bytes) (cas : UInt64) : Command :=
  .store false (replaceCommand (ascii "a") ⟨text, 0, 0⟩ cas)

section Run

variable (s : KvSystem Bool) (i : Bool) (call : KvCall) (cmd : Command)
  (next : C BatchRun → Program) (w : Cell)

/-- The client waits for one command. -/
def KvSystem.waitsFor : KvSystem Bool := s.setClient i (.waiting call [(cmd, 0)] next)

/-- The command was served. -/
def KvSystem.wasServed : KvSystem Bool :=
  ((s.setClient i (.waiting call [] next)).setCell (ascii "a") w).addEvent
    (.served i call (cmd, 0) (s.cells (ascii "a")) w)

/-- The call returned. -/
def KvSystem.hasReturned : KvSystem Bool :=
  (s.setClient i (.running (next call.run))).addEvent (.returned i call)

end Run

def firstReads : KvSystem Bool :=
  twoUpdates.waitsFor true (readCall (ascii "v") 1) (plainGet (ascii "a"))
    (afterRead (ascii "a") (bothUpdate true))

/-- The second client sends its reading before the first one updates the document. -/
def bothRead : KvSystem Bool :=
  firstReads.waitsFor false (readCall (ascii "w") 2) (plainGet (ascii "a"))
    (afterRead (ascii "a") (bothUpdate false))

def firstHasRead : KvSystem Bool :=
  bothRead.wasServed true (readCall (ascii "v") 1) (plainGet (ascii "a"))
    (afterRead (ascii "a") (bothUpdate true)) (bothRead.cells (ascii "a"))

def firstComputes : KvSystem Bool :=
  firstHasRead.hasReturned true (readCall (ascii "v") 1) (afterRead (ascii "a") (bothUpdate true))

def firstWrites : KvSystem Bool :=
  firstComputes.waitsFor true (writeCall true (ascii "v") 1) (writeCommand (ascii "w") 1)
    fun _ => .done

def firstWrote : KvSystem Bool :=
  firstWrites.wasServed true (writeCall true (ascii "v") 1) (writeCommand (ascii "w") 1)
    (fun _ => .done) ⟨some ⟨ascii "w", 0, 0⟩, 2, [1]⟩

def secondHasRead : KvSystem Bool :=
  firstWrote.wasServed false (readCall (ascii "w") 2) (plainGet (ascii "a"))
    (afterRead (ascii "a") (bothUpdate false)) (firstWrote.cells (ascii "a"))

def secondComputes : KvSystem Bool :=
  secondHasRead.hasReturned false (readCall (ascii "w") 2)
    (afterRead (ascii "a") (bothUpdate false))

def secondWrites : KvSystem Bool :=
  secondComputes.waitsFor false (writeCall false (ascii "w") 2) (writeCommand (ascii "wx") 2)
    fun _ => .done

/-- Both updates were applied. -/
def secondWrote : KvSystem Bool :=
  secondWrites.wasServed false (writeCall false (ascii "w") 2) (writeCommand (ascii "wx") 2)
    (fun _ => .done) ⟨some ⟨ascii "wx", 0, 0⟩, 3, [2, 1]⟩

theorem twoUpdates_updatesOnly :
    UpdatesOnly (ascii "a") bothUpdate ⟨ascii "v", 0, 0⟩ twoUpdates := by
  have hone : LiveCas 1 := ⟨by decide, by decide⟩
  exact ⟨⟨⟨fun _ => .refl _, fun _ => hone, fun _ => hone⟩, rfl, rfl, fun _ => ⟨_, rfl⟩⟩,
    fun _ => rfl, rfl⟩

/-- The bucket and the encoder of all calls. -/
def updateWorld : World := plainWorld fun _ _ => .success

/-- The steps of these clients. -/
abbrev UpdateStep : KvSystem Bool → KvLabel Bool → KvSystem Bool → Prop :=
  KvStep (SharesCodec updateWorld.bucket updateWorld.encoder)

theorem step_waitsFor {s : KvSystem Bool} {i : Bool} {call : KvCall} {cmd : Command}
    {next : C BatchRun → Program} {out : Outcome Returned}
    (hp : s.clients i = .running (.call call.method call.args next))
    (hallowed : SharesCodec updateWorld.bucket updateWorld.encoder call.world)
    (hrun : call.run = .ok ⟨[cmd], true, out⟩) :
    UpdateStep s (.client i) (s.waitsFor i call cmd next) := .wait hp hallowed hrun rfl

theorem step_wasServed {s : KvSystem Bool} {i : Bool} {call : KvCall} {cmd : Command}
    {next : C BatchRun → Program} {w : Cell} (hp : s.clients i = .waiting call [(cmd, 0)] next)
    (hkey : cmd.key = ascii "a")
    (hserves : ServesKv (s.replicas (ascii "a")) (s.cells (ascii "a")) cmd
      (call.world.respond 0 cmd) w) :
    UpdateStep s (.client i) (s.wasServed i call cmd next w) := by
  rw [← hkey] at hserves
  have h : UpdateStep s (.client i) _ := .serve hp List.mem_cons_self hserves
  rwa [List.erase_cons_head, hkey] at h

theorem serves_reading {r v : Cell} {text : Bytes} {cas : UInt64}
    (hcontent : v.content = some ⟨text, 0, 0⟩) (hcas : cas = v.version) :
    ServesKv r v (plainGet (ascii "a"))
      ((readCall text cas).world.respond 0 (plainGet (ascii "a"))) v := by
  refine .kept rfl (Or.inl rfl) (by rw [hcontent]; simp) (fun _ => ?_) rfl
  exact ⟨⟨_, hcontent, rfl, rfl, rfl, rfl⟩, Or.inl hcas⟩

theorem serves_write {r v : Cell} {i : Bool} {old text : Bytes} {c : EncodedValue}
    (hcontent : v.content = some c) (hlive : LiveCas (v.version + 1))
    (hfresh : v.version + 1 ∉ v.version :: v.past) :
    ServesKv r v (writeCommand text v.version)
      ((writeCall i old v.version).world.respond 0 (writeCommand text v.version))
      ⟨some ⟨text, 0, 0⟩, v.version + 1, v.version :: v.past⟩ := by
  refine .applied (Or.inr rfl) (.store ?_) ⟨rfl, rfl, hfresh⟩ hlive (fun h => by cases h) rfl rfl
  rw [hcontent]
  rfl

/-- Both clients update the document, one after the other. -/
theorem updateRun : StepSystem.Path UpdateStep twoUpdates
    [(.client true, firstReads), (.client false, bothRead), (.client true, firstHasRead),
      (.client true, firstComputes), (.client true, firstWrites), (.client true, firstWrote),
      (.client false, secondHasRead), (.client false, secondComputes),
      (.client false, secondWrites), (.client false, secondWrote)] := by
  have hshared : ∀ text cas, SharesCodec updateWorld.bucket updateWorld.encoder
      (answering text cas) := fun _ _ => ⟨rfl, rfl⟩
  have htwo : LiveCas 2 := ⟨by decide, by decide⟩
  have hthree : LiveCas 3 := ⟨by decide, by decide⟩
  refine .cons (step_waitsFor rfl (hshared _ _) rfl) (.cons (step_waitsFor rfl (hshared _ _) rfl) ?_)
  refine .cons (step_wasServed rfl rfl (serves_reading rfl rfl)) (.cons (.finish rfl) ?_)
  refine .cons (step_waitsFor rfl (hshared _ _) rfl) ?_
  refine .cons (step_wasServed rfl rfl (serves_write rfl htwo (by decide))) ?_
  refine .cons (step_wasServed rfl rfl (serves_reading rfl rfl)) (.cons (.finish rfl) ?_)
  refine .cons (step_waitsFor rfl (hshared _ _) rfl) ?_
  exact .cons (step_wasServed rfl rfl (serves_write rfl hthree (by decide))) (.nil _)

/-- Both updates are in the document. -/
theorem two_updates_kept :
    NoLostUpdate updateWorld.bucket (updateWorld.encoder 0) (ascii "a") bothUpdate
      ⟨ascii "v", 0, 0⟩ secondWrote ∧
    changers (ascii "a") secondWrote.log = [true, false] ∧
    (secondWrote.cells (ascii "a")).content = some ⟨ascii "wx", 0, 0⟩ := by
  refine ⟨no_lost_update twoUpdates_updatesOnly updateRun ?_ (.client false, secondWrote) ?_, rfl,
    rfl⟩
  · simp
  · simp

theorem update_protected : secondWrote.log.Pairwise CasProtects := by
  refine cas_protects twoUpdates_updatesOnly.fresh updateRun (.client false, secondWrote) ?_
  simp

end PhpCouchbase
