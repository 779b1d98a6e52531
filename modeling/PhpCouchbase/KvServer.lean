import PhpCouchbase.BatchLossless
import PhpCouchbase.StoreGet
import PhpCouchbase.Lib.StepSystem
import PhpCouchbase.Lib.Versioned

/-!
# Key-value calls among other calls

A call of several ids (`bucket/get.c`, `store.c`, `remove.c`, `touch.c`, `unlock.c`, `counter.c`) is
not atomic.  It sends one command for each id, the server answers each of them when it likes, and
the requests of other clients come in between.  The server keeps a cell for each key: the stored
value or nothing, under a CAS that was never used before.  A replica may be behind, and a locked
document is shown under a masked CAS.  A command with a CAS that is not zero is done only while the
cell has it, and it may be done although its answer does not arrive.

* `KvStep` — a call is scheduled, a command is served, a call returns, a replica catches up, or
  somebody else changes a document.
* `KvStep.later` — whatever happens, a cell only gets later.
-/

set_option autoImplicit false

namespace PhpCouchbase

/-! ## The server -/

/-- What is stored under a key. -/
abbrev Cell := Versioned (Option EncodedValue) UInt64

/-- The CAS that a command names; zero stands for none. -/
def Command.cas : Command → UInt64
  | .store _ cmd => cmd.cas
  | .remove _ cas _ => cas
  | .unlock _ cas _ => cas
  | _ => 0

/-- The value after a store. -/
def storeContent (operation : StoreOperation) (content : Option EncodedValue)
    (value : EncodedValue) : Option EncodedValue :=
  match operation, content with
  | .set, _ => some value
  | .add, none => some value
  | .add, some _ => none
  | .replace, some _ => some value
  | .append, some c => some { c with bytes := c.bytes ++ value.bytes }
  | .prepend, some c => some { c with bytes := value.bytes ++ c.bytes }
  | _, none => none

/-- What a command may make of a content, when it takes a new CAS. -/
inductive Applies : Command → Option EncodedValue → Option EncodedValue → Prop where
  | get {key : Bytes} {lock : Bool} {exptime : UInt32} {hash : Option Bytes} (c : EncodedValue)
      (h : lock = true ∨ exptime ≠ 0) : Applies (.get key lock exptime hash) (some c) (some c)
  | store {durable : Bool} {cmd : StoreCommand} {content : Option EncodedValue} {c : EncodedValue}
      (h : storeContent cmd.operation content cmd.value = some c) :
      Applies (.store durable cmd) content (some c)
  | remove {key : Bytes} {cas : UInt64} {hash : Option Bytes} (c : EncodedValue) :
      Applies (.remove key cas hash) (some c) none
  | touch {key : Bytes} {exptime : UInt32} {hash : Option Bytes} (c : EncodedValue) :
      Applies (.touch key exptime hash) (some c) (some c)
  | unlock {key : Bytes} {cas : UInt64} {hash : Option Bytes} (c : EncodedValue) :
      Applies (.unlock key cas hash) (some c) (some c)
  | counter {key : Bytes} {delta : Int64} {initial : Option UInt64} {exptime : UInt32}
      {hash : Option Bytes} {content : Option EncodedValue} (c : EncodedValue) :
      Applies (.counter key delta initial exptime hash) content (some c)

/-- The CAS under which a locked document is shown. -/
def maskedCas : UInt64 := 0xffffffffffffffff

/-- A CAS that a document has: zero and the masked one are none. -/
structure LiveCas (cas : UInt64) : Prop where
  ne_zero : cas ≠ 0
  ne_masked : cas ≠ maskedCas

/-- The response carries what is stored in the cell, with its CAS, or with the masked one. -/
structure ShowsCell (resp : Response) (u : Cell) : Prop where
  carries : ∃ c, u.content = some c ∧ Carries resp c
  cas : resp.cas = u.version ∨ resp.cas = maskedCas

/-- The commands that read a document. -/
def Command.isRead : Command → Bool
  | .get _ _ _ _ => true
  | .rget _ _ _ _ => true
  | _ => false

/-- The commands that may leave the document and its CAS: a reading, also one that locks it or that
sets the expiry, and those that set the expiry or release the lock. -/
def Command.keepsCas : Command → Bool
  | .get _ _ _ _ => true
  | .touch _ _ _ => true
  | .unlock _ _ _ => true
  | _ => false

/-- The answers to a command, with the cell `w` after it; the replica has the cell `r`. -/
inductive ServesKv (r v : Cell) (cmd : Command) (resp : Response) : Cell → Prop where
  | failed (hrc : resp.rc ≠ .success) : ServesKv r v cmd resp v
  | kept (hcmd : cmd.keepsCas = true) (hguard : cmd.cas = 0 ∨ cmd.cas = v.version)
      (hcontent : v.content ≠ none) (hshows : cmd.isRead = true → ShowsCell resp v)
      (hrc : resp.rc = .success) : ServesKv r v cmd resp v
  | readReplica {key : Bytes} {select : Bool} {index : Int32} {hash : Option Bytes}
      (hcmd : cmd = .rget key select index hash) (hshows : ShowsCell resp r) :
      ServesKv r v cmd resp v
  | applied {c : Option EncodedValue} {w : Cell} (hguard : cmd.cas = 0 ∨ cmd.cas = v.version)
      (happly : Applies cmd v.content c) (hw : v.Changes c w) (hlive : LiveCas w.version)
      (hshows : cmd.isRead = true → ShowsCell resp w) (hrc : resp.rc = .success)
      (hcas : resp.cas = w.version) : ServesKv r v cmd resp w
  /-- done, but the answer is an error, as after a timeout or a durability that was not met -/
  | unanswered {c : Option EncodedValue} {w : Cell}
      (hguard : cmd.cas = 0 ∨ cmd.cas = v.version) (happly : Applies cmd v.content c)
      (hw : v.Changes c w) (hlive : LiveCas w.version) (hrc : resp.rc ≠ .success) :
      ServesKv r v cmd resp w

/-! ## The system -/

/-- One call of a key-value method, with everything it meets. -/
structure KvCall where
  method : BatchMethod
  world : World
  args : List Zval

def KvCall.run (call : KvCall) : C BatchRun := batch call.method call.world call.args

/-- A PHP program as the server sees it: it makes a call and goes on with the result. -/
inductive Program where
  | call (method : BatchMethod) (args : List Zval) (next : C BatchRun → Program)
  | done

/-- A client runs a program, or it is in a call and waits for the pending commands. -/
inductive Client where
  | running (program : Program)
  | waiting (call : KvCall) (pending : List (Command × Nat)) (next : C BatchRun → Program)

inductive KvEvent (ι : Type) where
  | served (i : ι) (call : KvCall) (p : Command × Nat) (before after : Cell)
  | returned (i : ι) (call : KvCall)

/-- A command that nobody waits for, with its number in the call. -/
structure Orphan (ι : Type) where
  client : ι
  call : KvCall
  command : Command × Nat

/-- The cells, the clients, the commands that nobody waits for, and what happened so far. -/
structure KvSystem (ι : Type) where
  cells : Bytes → Cell
  replicas : Bytes → Cell
  clients : ι → Client
  orphans : List (Orphan ι)
  log : List (KvEvent ι)

inductive KvLabel (ι : Type) where
  | client (i : ι)
  | orphan
  | replicate
  | other (key : Bytes)

variable {ι : Type}

def KvSystem.setCell (s : KvSystem ι) (key : Bytes) (v : Cell) : KvSystem ι :=
  { s with cells := Function.update s.cells key v }

def KvSystem.addEvent (s : KvSystem ι) (e : KvEvent ι) : KvSystem ι :=
  { s with log := s.log ++ [e] }

def KvSystem.setOrphans (s : KvSystem ι) (orphans : List (Orphan ι)) : KvSystem ι :=
  { s with orphans }

section Parts

variable (s : KvSystem ι) (key : Bytes) (v : Cell) (e : KvEvent ι) (orphans : List (Orphan ι))

@[simp] theorem replicas_setCell : (s.setCell key v).replicas = s.replicas := rfl
@[simp] theorem clients_setCell : (s.setCell key v).clients = s.clients := rfl
@[simp] theorem log_setCell : (s.setCell key v).log = s.log := rfl
@[simp] theorem orphans_setCell : (s.setCell key v).orphans = s.orphans := rfl
@[simp] theorem cells_setCell_self : (s.setCell key v).cells key = v := by
  simp [KvSystem.setCell]

theorem cells_setCell_ne {k : Bytes} (h : k ≠ key) : (s.setCell key v).cells k = s.cells k := by
  simp [KvSystem.setCell, h]

@[simp] theorem cells_addEvent : (s.addEvent e).cells = s.cells := rfl
@[simp] theorem replicas_addEvent : (s.addEvent e).replicas = s.replicas := rfl
@[simp] theorem clients_addEvent : (s.addEvent e).clients = s.clients := rfl
@[simp] theorem orphans_addEvent : (s.addEvent e).orphans = s.orphans := rfl
@[simp] theorem log_addEvent : (s.addEvent e).log = s.log ++ [e] := rfl

@[simp] theorem cells_setOrphans : (s.setOrphans orphans).cells = s.cells := rfl
@[simp] theorem replicas_setOrphans : (s.setOrphans orphans).replicas = s.replicas := rfl
@[simp] theorem clients_setOrphans : (s.setOrphans orphans).clients = s.clients := rfl
@[simp] theorem log_setOrphans : (s.setOrphans orphans).log = s.log := rfl
@[simp] theorem orphans_setOrphans : (s.setOrphans orphans).orphans = orphans := rfl

end Parts

variable [DecidableEq ι]

def KvSystem.setClient (s : KvSystem ι) (i : ι) (c : Client) : KvSystem ι :=
  { s with clients := Function.update s.clients i c }

section Clients

variable (s : KvSystem ι) (i j : ι) (c : Client)

@[simp] theorem cells_setClient : (s.setClient i c).cells = s.cells := rfl
@[simp] theorem replicas_setClient : (s.setClient i c).replicas = s.replicas := rfl
@[simp] theorem log_setClient : (s.setClient i c).log = s.log := rfl
@[simp] theorem orphans_setClient : (s.setClient i c).orphans = s.orphans := rfl
@[simp] theorem clients_setClient_self : (s.setClient i c).clients i = c := by
  simp [KvSystem.setClient]

theorem clients_setClient_ne (h : j ≠ i) : (s.setClient i c).clients j = s.clients j := by
  simp [KvSystem.setClient, h]

end Clients

/-- What a call leaves to be served although it does not wait. -/
def leftBehind (i : ι) (call : KvCall) : List (Orphan ι) :=
  match call.run with
  | .ok run => run.scheduled.zipIdx.map fun p => ⟨i, call, p⟩
  | .error _ => []

/-- A step, when the calls are made where it is allowed. -/
inductive KvStep (allowed : World → Prop) : KvSystem ι → KvLabel ι → KvSystem ι → Prop where
  | wait {s : KvSystem ι} {i : ι} {call : KvCall} {run : BatchRun} {next : C BatchRun → Program}
      (hp : s.clients i = .running (.call call.method call.args next))
      (hallowed : allowed call.world) (hrun : call.run = .ok run) (hwaited : run.waited = true) :
      KvStep allowed s (.client i) (s.setClient i (.waiting call run.scheduled.zipIdx next))
  | leave {s : KvSystem ι} {i : ι} {call : KvCall} {next : C BatchRun → Program}
      (hp : s.clients i = .running (.call call.method call.args next))
      (hallowed : allowed call.world)
      (hwaited : ∀ run, call.run = .ok run → run.waited = false) :
      KvStep allowed s (.client i)
        ((s.setClient i (.running (next call.run))).setOrphans (s.orphans ++ leftBehind i call))
  | serve {s : KvSystem ι} {i : ι} {call : KvCall} {pending : List (Command × Nat)}
      {next : C BatchRun → Program} {p : Command × Nat} {w : Cell}
      (hp : s.clients i = .waiting call pending next) (hmem : p ∈ pending)
      (hserves : ServesKv (s.replicas p.1.key) (s.cells p.1.key) p.1
        (call.world.respond p.2 p.1) w) :
      KvStep allowed s (.client i)
        (((s.setClient i (.waiting call (pending.erase p) next)).setCell p.1.key w).addEvent
          (.served i call p (s.cells p.1.key) w))
  | finish {s : KvSystem ι} {i : ι} {call : KvCall} {next : C BatchRun → Program}
      (hp : s.clients i = .waiting call [] next) :
      KvStep allowed s (.client i)
        ((s.setClient i (.running (next call.run))).addEvent (.returned i call))
  | orphan {s : KvSystem ι} {o : Orphan ι} {before after : List (Orphan ι)} {resp : Response}
      {w : Cell} (ho : s.orphans = before ++ o :: after)
      (hserves : ServesKv (s.replicas o.command.1.key) (s.cells o.command.1.key) o.command.1
        resp w) :
      KvStep allowed s .orphan
        (((s.setOrphans (before ++ after)).setCell o.command.1.key w).addEvent
          (.served o.client o.call o.command (s.cells o.command.1.key) w))
  | replicate {s : KvSystem ι} (key : Bytes) :
      KvStep allowed s .replicate
        { s with replicas := Function.update s.replicas key (s.cells key) }
  | other {s : KvSystem ι} {key : Bytes} {c : Option EncodedValue} {w : Cell}
      (hw : (s.cells key).Changes c w) (hlive : LiveCas w.version) :
      KvStep allowed s (.other key) (s.setCell key w)

/-! ## Cells only get later -/

variable {allowed : World → Prop} {s t : KvSystem ι} {l : KvLabel ι}

/-- What a command leaves of a cell: the cell, or a change of it to what the command makes. -/
theorem ServesKv.cell_eq {r v w : Cell} {cmd : Command} {resp : Response}
    (h : ServesKv r v cmd resp w) :
    w = v ∨ LiveCas w.version ∧ (cmd.cas = 0 ∨ cmd.cas = v.version) ∧
      ∃ c, Applies cmd v.content c ∧ v.Changes c w := by
  cases h with
  | failed hrc => exact Or.inl rfl
  | kept hcmd hguard hcontent hshows hrc => exact Or.inl rfl
  | readReplica hcmd hshows => exact Or.inl rfl
  | applied hguard happly hw hlive hshows hrc hcas => exact Or.inr ⟨hlive, hguard, _, happly, hw⟩
  | unanswered hguard happly hw hlive hrc => exact Or.inr ⟨hlive, hguard, _, happly, hw⟩

theorem ServesKv.later {r v w : Cell} {cmd : Command} {resp : Response}
    (h : ServesKv r v cmd resp w) {u : Cell} (hu : u.Later v) : u.Later w := by
  rcases h.cell_eq with rfl | ⟨-, -, c, -, hw⟩
  · exact hu
  · exact hu.changes hw

omit [DecidableEq ι] in
/-- A cell that is set to a later one. -/
theorem later_setCell {key k : Bytes} {u w : Cell} (hu : u.Later (s.cells k))
    (hw : ∀ {u : Cell}, u.Later (s.cells key) → u.Later w) :
    u.Later ((s.setCell key w).cells k) := by
  by_cases hk : k = key
  · subst hk
    rw [cells_setCell_self]
    exact hw hu
  · rw [cells_setCell_ne s key w hk]
    exact hu

/-- **A cell only gets later**, whatever happens. -/
theorem KvStep.later (h : KvStep allowed s l t) {key : Bytes} {u : Cell}
    (hu : u.Later (s.cells key)) : u.Later (t.cells key) := by
  cases h with
  | wait hp hallowed hrun hwaited => exact hu
  | leave hp hallowed hwaited => exact hu
  | serve hp hmem hserves => exact later_setCell hu hserves.later
  | finish hp => exact hu
  | orphan ho hserves => exact later_setCell hu hserves.later
  | replicate k => exact hu
  | other hw hlive => exact later_setCell hu fun hu => hu.changes hw

/-- The replicas show what the cells have or had, and what was never there has a CAS too. -/
structure KvSystem.Sound (s : KvSystem ι) : Prop where
  behind : ∀ key, (s.replicas key).Later (s.cells key)
  cell : ∀ key, LiveCas (s.cells key).version
  replica : ∀ key, LiveCas (s.replicas key).version

omit [DecidableEq ι] in
theorem live_setCell {key k : Bytes} {w : Cell} (hs : LiveCas (s.cells k).version)
    (hw : LiveCas (s.cells key).version → LiveCas w.version) :
    LiveCas ((s.setCell key w).cells k).version := by
  by_cases hk : k = key
  · subst hk
    rw [cells_setCell_self]
    exact hw hs
  · rwa [cells_setCell_ne s key w hk]

theorem ServesKv.live {r v w : Cell} {cmd : Command} {resp : Response}
    (h : ServesKv r v cmd resp w) (hv : LiveCas v.version) : LiveCas w.version := by
  rcases h.cell_eq with rfl | ⟨hlive, -, -⟩
  · exact hv
  · exact hlive

theorem KvStep.live (h : KvStep allowed s l t) (key : Bytes) (hs : LiveCas (s.cells key).version) :
    LiveCas (t.cells key).version := by
  cases h with
  | wait hp hallowed hrun hwaited => exact hs
  | leave hp hallowed hwaited => exact hs
  | serve hp hmem hserves => exact live_setCell hs hserves.live
  | finish hp => exact hs
  | orphan ho hserves => exact live_setCell hs hserves.live
  | replicate k => exact hs
  | other hw hlive => exact live_setCell hs fun _ => hlive

/-- Only replication touches a replica. -/
theorem KvStep.replica_eq (h : KvStep allowed s l t) (key : Bytes) :
    t.replicas key = s.replicas key ∨ t.replicas key = s.cells key ∧ t.cells = s.cells := by
  cases h with
  | wait hp hallowed hrun hwaited => exact Or.inl rfl
  | leave hp hallowed hwaited => exact Or.inl rfl
  | serve hp hmem hserves => exact Or.inl rfl
  | finish hp => exact Or.inl rfl
  | orphan ho hserves => exact Or.inl rfl
  | other hw hlive => exact Or.inl rfl
  | replicate k =>
    by_cases hk : key = k
    · subst hk
      exact Or.inr ⟨by simp, rfl⟩
    · exact Or.inl (by simp [hk])

theorem KvSystem.Sound.step (hs : s.Sound) (h : KvStep allowed s l t) : t.Sound := by
  constructor
  · intro key
    rcases h.replica_eq key with heq | ⟨heq, hcells⟩
    · rw [heq]
      exact h.later (hs.behind key)
    · rw [heq, hcells]
      exact .refl _
  · exact fun key => h.live key (hs.cell key)
  · intro key
    rcases h.replica_eq key with heq | ⟨heq, -⟩
    · rw [heq]
      exact hs.replica key
    · rw [heq]
      exact hs.cell key

/-- A client changes only by its own steps. -/
theorem KvStep.frame (h : KvStep allowed s l t) {i : ι} (hl : l ≠ .client i) :
    t.clients i = s.clients i := by
  have hne : ∀ {j : ι}, KvLabel.client j ≠ .client i → i ≠ j := by
    rintro j hj rfl
    exact hj rfl
  cases h with
  | wait hp hallowed hrun hwaited => exact clients_setClient_ne _ _ _ _ (hne hl)
  | leave hp hallowed hwaited => exact clients_setClient_ne _ _ _ _ (hne hl)
  | serve hp hmem hserves => exact clients_setClient_ne _ _ _ _ (hne hl)
  | finish hp => exact clients_setClient_ne _ _ _ _ (hne hl)
  | orphan ho hserves => rfl
  | replicate key => rfl
  | other hw hlive => rfl

end PhpCouchbase
