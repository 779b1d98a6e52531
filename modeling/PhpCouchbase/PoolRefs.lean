import PhpCouchbase.Opcookie
import PhpCouchbase.Pool
import PhpCouchbase.Lib.RefCount

/-!
# The references of pooled connections

The objects of the classes `Bucket`, `BucketManager` and `ClusterManager` hold connections of the
pool (`pool.c`).  A connection counts them; when the last one is destroyed it is idle, and a cleanup
destroys what has been idle for more than a minute.

* `connectionGet`, `connectionAddref`, `connectionDelref`, `connectionCleanup` — the operations; a
  connection that was destroyed is not in the heap, and to read it is a fault.
* `connectionCleanup_eq` — which connections a cleanup destroys.
* `PoolInv.step` — every step of an object or of the pool keeps the invariant.
* `connection_pool_invariant` — the runs.
-/

set_option autoImplicit false

namespace PhpCouchbase

open OrderedMap StepSystem RefCount

/-! ## Connections -/

/-- The address of a `pcbc_connection_t`. -/
abbrev Ptr := Nat

/-- `pcbc_connection_t` -/
structure PcbcConnection where
  type : LcbType
  connstr : Bytes
  authHash : Bytes
  refs : Int32
  idleAt : Int

/-- `plist_key` from the digest of the credentials. -/
def connectionKey (type : LcbType) (cstr authHash : Bytes) : Bytes :=
  decimal (typeCode type) ++ ascii "|" ++ cstr ++ ascii "|" ++ authHash

def PcbcConnection.key (conn : PcbcConnection) : Bytes :=
  connectionKey conn.type conn.connstr conn.authHash

/-- The connections that are allocated. -/
abbrev Heap := Ptr → Option PcbcConnection

def Heap.set (heap : Heap) (p : Ptr) (conn : Option PcbcConnection) : Heap :=
  fun q => if q = p then conn else heap q

@[simp] theorem Heap.set_self (heap : Heap) (p : Ptr) (conn : Option PcbcConnection) :
    heap.set p conn p = conn := if_pos rfl

theorem Heap.set_ne (heap : Heap) {p q : Ptr} (conn : Option PcbcConnection) (h : q ≠ p) :
    heap.set p conn q = heap q := if_neg h

/-- A pointer is read. -/
def Heap.deref (heap : Heap) (p : Ptr) : C PcbcConnection :=
  match heap p with
  | some conn => .ok conn
  | none => .error .freed

/-- `pcbc_connection_addref` -/
def connectionAddref (heap : Heap) : Option Ptr → C Heap
  | none => .ok heap
  | some p => do
    let conn ← heap.deref p
    return heap.set p (some { conn with refs := conn.refs + 1, idleAt := 0 })

/-- `pcbc_connection_delref` -/
def connectionDelref (now : Int) (heap : Heap) : Option Ptr → C Heap
  | none => .ok heap
  | some p => do
    let conn ← heap.deref p
    let refs := conn.refs - 1
    return heap.set p
      (some { conn with refs := refs, idleAt := if refs = 0 then now else conn.idleAt })

/-- A connection after it was handed out once more. -/
def PcbcConnection.retained (conn : PcbcConnection) : PcbcConnection :=
  { conn with refs := conn.refs + 1, idleAt := 0 }

/-- A connection after an object let go of it. -/
def PcbcConnection.released (conn : PcbcConnection) (now : Int) : PcbcConnection :=
  { conn with refs := conn.refs - 1, idleAt := if conn.refs - 1 = 0 then now else conn.idleAt }

theorem connectionAddref_eq {heap : Heap} {p : Ptr} {conn : PcbcConnection}
    (h : heap p = some conn) :
    connectionAddref heap (some p) = .ok (heap.set p (some conn.retained)) := by
  simp [connectionAddref, Heap.deref, h, PcbcConnection.retained]

theorem connectionDelref_eq {heap : Heap} {p : Ptr} {conn : PcbcConnection} (h : heap p = some conn)
    (now : Int) :
    connectionDelref now heap (some p) = .ok (heap.set p (some (conn.released now))) := by
  simp [connectionDelref, Heap.deref, h, PcbcConnection.released]

/-- Writing to a connection keeps every other one alive. -/
theorem Heap.alive_set {heap : Heap} {q : Ptr} {conn : PcbcConnection} (h : heap q = some conn)
    (p : Ptr) (new : PcbcConnection) : ∃ conn', heap.set p (some new) q = some conn' := by
  by_cases hqp : q = p
  · rw [hqp, Heap.set_self]
    exact ⟨new, rfl⟩
  · rw [Heap.set_ne _ _ hqp]
    exact ⟨conn, h⟩

/-! ## The persistent list -/

/-- The heap, and `EG(persistent_list)`: the pointer of an entry is null once its connection is
destroyed. -/
structure ConnPool where
  heap : Heap
  plist : List (Bytes × Option Ptr)

/-- `pcbc_connection_lookup` -/
def connectionLookup (plist : List (Bytes × Option Ptr)) (key : Bytes) : Option Ptr :=
  (fetch plist key).join

/-- The arguments of `pcbc_connection_get` that it looks at. -/
structure GetCall where
  type : LcbType
  connstr : CString
  bucketname : Option CString
  authHash : Bytes

/-- What the outside decides: how the bootstrap ends, where the connection is allocated, and whether
it can be put into the list. -/
structure Establish where
  err : LcbError
  ptr : Ptr
  cached : Bool

/-- `pcbc_connection_get` -/
def connectionGet (parse : Bytes → Option Url) (pool : ConnPool) (call : GetCall)
    (est : Establish) : C (ConnPool × Except LcbError Ptr) :=
  match normalizeConnstr parse call.type call.connstr call.bucketname with
  | none => .ok (pool, .error .einval)
  | some cstr =>
    let key := connectionKey call.type cstr call.authHash
    match connectionLookup pool.plist key with
    | some p => do
      let heap ← connectionAddref pool.heap (some p)
      return (⟨heap, pool.plist⟩, .ok p)
    | none =>
      if est.err ≠ .success then .ok (pool, .error est.err)
      else
        let conn : PcbcConnection := ⟨call.type, cstr, call.authHash, 1, 0⟩
        let heap := pool.heap.set est.ptr (some conn)
        if est.cached then .ok (⟨heap, update pool.plist key (some est.ptr)⟩, .ok est.ptr)
        -- the connection stays allocated, and nothing points to it
        else .ok (⟨heap, pool.plist⟩, .error .einval)

/-- `pcbc_destroy_idle_connections` on the pointer of an entry. -/
def destroyIdleConnections (now : Int) (heap : Heap) : Option Ptr → C (Heap × Option Ptr)
  | none => .ok (heap, none)
  | some p => do
    let conn ← heap.deref p
    if 0 < conn.refs then return (heap, some p)
    else if conn.idleAt = 0 then return (heap, some p)
    else if 60 < now - conn.idleAt then return (heap.set p none, none)
    else return (heap, some p)

/-- `pcbc_connection_cleanup`; the clock is read for each entry. -/
def connectionCleanup (clock : Bytes → Int) (heap : Heap) :
    List (Bytes × Option Ptr) → C (Heap × List (Bytes × Option Ptr))
  | [] => .ok (heap, [])
  | (key, ptr) :: plist => do
    let (heap, ptr) ← destroyIdleConnections (clock key) heap ptr
    let (heap, plist) ← connectionCleanup clock heap plist
    return (heap, (key, ptr) :: plist)

/-- A connection that a cleanup destroys. -/
def PcbcConnection.Expired (conn : PcbcConnection) (now : Int) : Prop :=
  ¬ 0 < conn.refs ∧ conn.idleAt ≠ 0 ∧ 60 < now - conn.idleAt

instance (conn : PcbcConnection) (now : Int) : Decidable (conn.Expired now) := by
  unfold PcbcConnection.Expired
  infer_instance

/-- The pointer of an entry after a cleanup. -/
def cleaned (heap : Heap) (now : Int) : Option Ptr → Option Ptr
  | none => none
  | some p =>
    match heap p with
    | some conn => if conn.Expired now then none else some p
    | none => some p

theorem cleaned_congr {heap heap' : Heap} {p : Ptr} (h : heap' p = heap p) (now : Int) :
    cleaned heap' now (some p) = cleaned heap now (some p) := by
  simp only [cleaned, h]

/-- One entry: its connection is destroyed if it is expired, and no other one is touched. -/
theorem destroyIdleConnections_eq {heap : Heap} {p : Ptr} {conn : PcbcConnection}
    (h : heap p = some conn) (now : Int) :
    ∃ heap', destroyIdleConnections now heap (some p) =
        .ok (heap', cleaned heap now (some p)) ∧
      heap' p = (if conn.Expired now then none else heap p) ∧ ∀ q, q ≠ p → heap' q = heap q := by
  by_cases hexp : conn.Expired now
  · obtain ⟨hrefs, hidle, hage⟩ := hexp
    refine ⟨heap.set p none, ?_, ?_, fun q hq => Heap.set_ne _ _ hq⟩
    · simp [destroyIdleConnections, Heap.deref, cleaned, h, PcbcConnection.Expired, hrefs, hidle,
        hage]
    · rw [Heap.set_self, if_pos ⟨hrefs, hidle, hage⟩]
  · refine ⟨heap, ?_, (if_neg hexp).symm, fun _ _ => rfl⟩
    simp only [destroyIdleConnections, Heap.deref, cleaned, h, C.bind_ok, C.pure_eq, if_neg hexp]
    unfold PcbcConnection.Expired at hexp
    by_cases hrefs : 0 < conn.refs
    · simp [hrefs]
    · by_cases hidle : conn.idleAt = 0
      · simp [hrefs, hidle]
      · have hage : ¬ 60 < now - conn.idleAt := fun hage => hexp ⟨hrefs, hidle, hage⟩
        simp [hrefs, hidle, hage]

/-- The entries of a list point to different connections, and none of these was destroyed. -/
structure Listed (heap : Heap) (plist : List (Bytes × Option Ptr)) : Prop where
  keys_nodup : (keys plist).Nodup
  alive : ∀ key p, (key, some p) ∈ plist → ∃ conn, heap p = some conn ∧ conn.key = key

theorem Listed.key_unique {heap : Heap} {plist : List (Bytes × Option Ptr)}
    (h : Listed heap plist) {key key' : Bytes} {p : Ptr} (hp : (key, some p) ∈ plist)
    (hp' : (key', some p) ∈ plist) : key = key' := by
  obtain ⟨conn, hconn, rfl⟩ := h.alive key p hp
  obtain ⟨conn', hconn', rfl⟩ := h.alive key' p hp'
  rw [hconn] at hconn'
  rw [Option.some.inj hconn']

/-- The effect of a cleanup on the heap. -/
structure CleanedHeap (clock : Bytes → Int) (plist : List (Bytes × Option Ptr))
    (heap heap' : Heap) : Prop where
  listed : ∀ key p conn, (key, some p) ∈ plist → heap p = some conn →
    heap' p = if conn.Expired (clock key) then none else heap p
  other : ∀ p, (∀ key, (key, some p) ∉ plist) → heap' p = heap p

/-- One entry and then the others, when no other entry points to its connection. -/
theorem CleanedHeap.cons {clock : Bytes → Int} {key : Bytes} {p : Ptr} {conn : PcbcConnection}
    {plist : List (Bytes × Option Ptr)} {heap heap₁ heap' : Heap} (hconn : heap p = some conn)
    (hother : ∀ k, (k, some p) ∉ plist)
    (hself : heap₁ p = if conn.Expired (clock key) then none else heap p)
    (hframe : ∀ q, q ≠ p → heap₁ q = heap q) (hrest : CleanedHeap clock plist heap₁ heap') :
    CleanedHeap clock ((key, some p) :: plist) heap heap' := by
  constructor
  · intro k q c hk hc
    rcases List.mem_cons.mp hk with heq | htail
    · cases heq
      obtain rfl : conn = c := Option.some.inj (hconn.symm.trans hc)
      rw [hrest.other p hother, hself]
    · have hqp : q ≠ p := by
        rintro rfl
        exact hother k htail
      have hq := hframe q hqp
      rw [hrest.listed k q c htail (hq.trans hc), hq]
  · intro q hq
    have hqp : q ≠ p := by
      rintro rfl
      exact hq key List.mem_cons_self
    rw [hrest.other q fun k hk => hq k (List.mem_cons_of_mem _ hk), hframe q hqp]

/-- **What a cleanup does**: it destroys the connections that are expired, and nothing else. -/
theorem connectionCleanup_eq (clock : Bytes → Int) {plist : List (Bytes × Option Ptr)} :
    ∀ {heap : Heap}, Listed heap plist → ∃ heap',
      connectionCleanup clock heap plist =
        .ok (heap', plist.map fun e => (e.1, cleaned heap (clock e.1) e.2)) ∧
      CleanedHeap clock plist heap heap' := by
  induction plist with
  | nil =>
    intro heap _
    refine ⟨heap, rfl, ?_, fun _ _ => rfl⟩
    intro key p conn habs
    cases habs
  | cons e plist ih =>
    intro heap hlist
    obtain ⟨key, ptr⟩ := e
    obtain ⟨hhead, htail⟩ := List.nodup_cons.mp hlist.keys_nodup
    have halive : ∀ k p, (k, some p) ∈ plist → ∃ conn, heap p = some conn ∧ conn.key = k :=
      fun k p hp => hlist.alive k p (List.mem_cons_of_mem _ hp)
    cases ptr with
    | none =>
      obtain ⟨heap', hrun, hheap⟩ := ih ⟨htail, halive⟩
      refine ⟨heap', ?_, ?_, ?_⟩
      · simp [connectionCleanup, destroyIdleConnections, hrun, cleaned]
      · simpa using hheap.listed
      · simpa using hheap.other
    | some p =>
      obtain ⟨conn, hconn, -⟩ := hlist.alive key p List.mem_cons_self
      -- no other entry points to the connection
      have hother : ∀ k, (k, some p) ∉ plist := by
        intro k hk
        have heq : key = k := hlist.key_unique List.mem_cons_self (List.mem_cons_of_mem _ hk)
        exact hhead (List.mem_map.mpr ⟨_, hk, heq.symm⟩)
      obtain ⟨heap₁, hstep, hself, hframe⟩ := destroyIdleConnections_eq hconn (clock key)
      have hkept : ∀ k q, (k, some q) ∈ plist → heap₁ q = heap q := by
        intro k q hk
        apply hframe
        rintro rfl
        exact hother k hk
      have hlater : Listed heap₁ plist := by
        refine ⟨htail, ?_⟩
        intro k q hq
        rw [hkept k q hq]
        exact halive k q hq
      obtain ⟨heap', hrun, hheap⟩ := ih hlater
      have hsame : plist.map (fun e => (e.1, cleaned heap₁ (clock e.1) e.2)) =
          plist.map fun e => (e.1, cleaned heap (clock e.1) e.2) := by
        apply List.map_congr_left
        rintro ⟨k, ptr⟩ he
        cases ptr with
        | none => rfl
        | some q => rw [cleaned_congr (hkept k q he)]
      refine ⟨heap', ?_, hheap.cons hconn hother hself hframe⟩
      rw [connectionCleanup, hstep, C.bind_ok]
      dsimp only
      rw [hrun, hsame]
      rfl

/-! ## Objects -/

inductive ObjectClass where
  | bucket
  | bucketManager
  | clusterManager
  deriving DecidableEq, Repr

/-- A live object; one whose constructor refused holds no connection. -/
structure ConnObject where
  cls : ObjectClass
  conn : Option Ptr

/-- The pool and the live objects.  `released` is a ghost: when an object that held a connection was
last destroyed. -/
structure RefState where
  pool : ConnPool
  objects : List ConnObject
  released : Ptr → Int

def RefState.held (s : RefState) : List (Option Ptr) := s.objects.map ConnObject.conn

/-- Nothing was opened yet. -/
def emptyPool : RefState := ⟨⟨fun _ => none, []⟩, [], fun _ => 0⟩

/-- What can happen to the pool. -/
inductive RefEvent where
  /-- `pcbc_bucket_init` and `pcbc_cluster_manager_init` -/
  | connect (call : GetCall) (est : Establish)
  /-- an object is created, and its constructor refuses -/
  | bare (cls : ObjectClass)
  /-- `pcbc_bucket_manager_init` on the bucket with this number -/
  | bucketManager (i : Nat)
  /-- the object with this number is destroyed -/
  | free (i : Nat) (now : Int)
  | cleanup (clock : Bytes → Int)

/-- The class of the object that holds a connection of this type. -/
def classOf : LcbType → ObjectClass
  | .bucket => .bucket
  | .cluster => .clusterManager

variable (parse : Bytes → Option Url)

/-- The effect of an event. -/
def RefState.step (s : RefState) : RefEvent → C RefState
  | .connect call est => do
    match ← connectionGet parse s.pool call est with
    | (pool, .error _) => return { s with pool := pool }
    | (pool, .ok p) =>
      return { s with pool := pool, objects := s.objects ++ [⟨classOf call.type, some p⟩] }
  | .bare cls => .ok { s with objects := s.objects ++ [⟨cls, none⟩] }
  | .bucketManager i =>
    match s.objects[i]? with
    | none => .ok s
    | some bucket => do
      let heap ← connectionAddref s.pool.heap bucket.conn
      return { s with pool := ⟨heap, s.pool.plist⟩,
                      objects := s.objects ++ [⟨.bucketManager, bucket.conn⟩] }
  | .free i now =>
    match s.objects[i]? with
    | none => .ok s
    | some obj => do
      let heap ← connectionDelref now s.pool.heap obj.conn
      return { pool := ⟨heap, s.pool.plist⟩
               objects := s.objects.eraseIdx i
               released := fun p => if obj.conn = some p then now else s.released p }
  | .cleanup clock => do
    let (heap, plist) ← connectionCleanup clock s.pool.heap s.pool.plist
    return { s with pool := ⟨heap, plist⟩ }

/-- There is a handle for one more object: the handles of PHP are below 2^31, and 0 is none. -/
def RefState.HasHandle (s : RefState) : Prop := s.objects.length + 1 < 2 ^ 31

/-- When an event can happen: memory that is allocated was free, and an object that is named is
alive. -/
def RefState.Enabled (s : RefState) : RefEvent → Prop
  | .connect _ est => s.pool.heap est.ptr = none ∧ s.HasHandle
  | .bare _ => s.HasHandle
  | .bucketManager i => (∃ bucket, s.objects[i]? = some bucket ∧ bucket.cls = .bucket) ∧ s.HasHandle
  | .free i _ => i < s.objects.length
  | .cleanup _ => True

/-- A step of the pool. -/
def RefStep (s : RefState) (e : RefEvent) (t : RefState) : Prop :=
  s.Enabled e ∧ s.step parse e = .ok t

/-! ## The invariant -/

/-- An entry of the list: its connection is alive, counts the objects that hold it, and once it is
idle remembers since when. -/
structure EntryInv (s : RefState) (key : Bytes) (p : Ptr) (conn : PcbcConnection) : Prop where
  alive : s.pool.heap p = some conn
  key_eq : conn.key = key
  counts : Counts conn.refs (holders s.held p)
  idle : holders s.held p = 0 → conn.idleAt = s.released p

structure PoolInv (s : RefState) : Prop where
  keys_nodup : (keys s.pool.plist).Nodup
  entries : ∀ key p, (key, some p) ∈ s.pool.plist → ∃ conn, EntryInv s key p conn
  pooled : ∀ p, some p ∈ s.held → ∃ key, (key, some p) ∈ s.pool.plist
  handles : s.objects.length < 2 ^ 31

theorem PoolInv.listed {s : RefState} (h : PoolInv s) : Listed s.pool.heap s.pool.plist := by
  refine ⟨h.keys_nodup, ?_⟩
  intro key p hp
  obtain ⟨conn, hconn⟩ := h.entries key p hp
  exact ⟨conn, hconn.alive, hconn.key_eq⟩

theorem poolInv_empty : PoolInv emptyPool := by
  refine ⟨List.nodup_nil, ?_, ?_, by decide⟩
  · intro key p habs
    cases habs
  · intro p habs
    cases habs

/-- What a step leaves alone keeps its entry. -/
theorem EntryInv.frame {s t : RefState} {key : Bytes} {p : Ptr} {conn : PcbcConnection}
    (h : EntryInv s key p conn) (hheap : t.pool.heap p = s.pool.heap p)
    (hheld : holders t.held p = holders s.held p) (hreleased : t.released p = s.released p) :
    EntryInv t key p conn where
  alive := hheap.trans h.alive
  key_eq := h.key_eq
  counts := hheld ▸ h.counts
  idle hzero := (h.idle (hheld ▸ hzero)).trans hreleased.symm

/-- **Only idle connections are destroyed**: what an event destroys had the counter 0 and no holder,
and its last holder was destroyed more than 60 seconds before. -/
def OnlyIdle (s : RefState) (e : RefEvent) (t : RefState) : Prop :=
  ∀ p conn, s.pool.heap p = some conn → t.pool.heap p = none →
    ∃ clock key, e = .cleanup clock ∧ (key, some p) ∈ s.pool.plist ∧ conn.refs = 0 ∧
      holders s.held p = 0 ∧ 60 < clock key - s.released p

theorem onlyIdle_of_alive {s t : RefState} {e : RefEvent}
    (h : ∀ p conn, s.pool.heap p = some conn → ∃ conn', t.pool.heap p = some conn') :
    OnlyIdle s e t := by
  intro p conn hs ht
  obtain ⟨conn', hconn'⟩ := h p conn hs
  rw [ht] at hconn'
  cases hconn'

/-- The state after an object was created that holds `ptr`. -/
def RefState.grown (s : RefState) (heap : Heap) (plist : List (Bytes × Option Ptr))
    (cls : ObjectClass) (ptr : Option Ptr) : RefState :=
  { s with pool := ⟨heap, plist⟩, objects := s.objects ++ [⟨cls, ptr⟩] }

theorem holders_grown (s : RefState) (heap : Heap) (plist : List (Bytes × Option Ptr))
    (cls : ObjectClass) (ptr : Option Ptr) (p : Ptr) :
    holders (s.grown heap plist cls ptr).held p =
      holders s.held p + if ptr = some p then 1 else 0 := by
  have hheld : (s.grown heap plist cls ptr).held = s.held ++ [ptr] := by
    simp [RefState.grown, RefState.held]
  rw [hheld, holders_append]

theorem length_grown (s : RefState) (heap : Heap) (plist : List (Bytes × Option Ptr))
    (cls : ObjectClass) (ptr : Option Ptr) :
    (s.grown heap plist cls ptr).objects.length = s.objects.length + 1 := by
  simp [RefState.grown]

theorem mem_held_grown {s : RefState} {heap : Heap} {plist : List (Bytes × Option Ptr)}
    {cls : ObjectClass} {ptr : Option Ptr} {p : Ptr}
    (h : some p ∈ (s.grown heap plist cls ptr).held) : some p ∈ s.held ∨ ptr = some p := by
  simp only [RefState.grown, RefState.held, List.map_append, List.mem_append, List.map_cons,
    List.map_nil, List.mem_singleton] at h
  exact h.imp_right Eq.symm

/-- An object without a connection. -/
theorem PoolInv.bare {s : RefState} (h : PoolInv s) (hhandle : s.HasHandle) (cls : ObjectClass) :
    PoolInv (s.grown s.pool.heap s.pool.plist cls none) := by
  refine ⟨h.keys_nodup, ?_, ?_, ?_⟩
  · intro key p hp
    obtain ⟨conn, hconn⟩ := h.entries key p hp
    exact ⟨conn, hconn.frame rfl (by simp [holders_grown]) rfl⟩
  · intro p hp
    rcases mem_held_grown hp with hp | habs
    · exact h.pooled p hp
    · cases habs
  · rw [length_grown]
    exact hhandle

/-- One more object holds a pooled connection. -/
theorem PoolInv.retain {s : RefState} (h : PoolInv s) (hhandle : s.HasHandle) (cls : ObjectClass)
    {key : Bytes} {p : Ptr} (hp : (key, some p) ∈ s.pool.plist) :
    ∃ heap, connectionAddref s.pool.heap (some p) = .ok heap ∧
      PoolInv (s.grown heap s.pool.plist cls (some p)) ∧
      ∀ q conn, s.pool.heap q = some conn → ∃ conn', heap q = some conn' := by
  obtain ⟨conn, hconn⟩ := h.entries key p hp
  have hcounts : Counts (conn.refs + 1) (holders s.held p + 1) := by
    apply hconn.counts.retain
    have hle := holders_le s.held p
    unfold RefState.HasHandle at hhandle
    simp only [RefState.held, List.length_map] at hle ⊢
    omega
  refine ⟨_, connectionAddref_eq hconn.alive, ⟨h.keys_nodup, ?_, ?_, ?_⟩,
    fun q c hc => Heap.alive_set hc _ _⟩
  · intro k q hq
    by_cases hqp : q = p
    · subst hqp
      refine ⟨_, Heap.set_self _ _ _, ?_, ?_, ?_⟩
      · exact hconn.key_eq.trans (h.listed.key_unique hp hq)
      · rw [holders_grown, if_pos rfl]
        exact hcounts
      · intro hzero
        rw [holders_grown, if_pos rfl] at hzero
        omega
    · obtain ⟨c, hc⟩ := h.entries k q hq
      refine ⟨c, hc.frame (Heap.set_ne _ _ hqp) ?_ rfl⟩
      rw [holders_grown, if_neg fun heq => hqp (Option.some.inj heq).symm, Nat.add_zero]
  · intro q hq
    rcases mem_held_grown hq with hq | heq
    · exact h.pooled q hq
    · exact ⟨key, Option.some.inj heq ▸ hp⟩
  · rw [length_grown]
    exact hhandle

/-- An object that held a connection, or none, is destroyed. -/
theorem PoolInv.release {s : RefState} (h : PoolInv s) {i : Nat} {obj : ConnObject}
    (hi : s.objects[i]? = some obj) (now : Int) :
    ∃ heap, connectionDelref now s.pool.heap obj.conn = .ok heap ∧
      PoolInv { pool := ⟨heap, s.pool.plist⟩
                objects := s.objects.eraseIdx i
                released := fun p => if obj.conn = some p then now else s.released p } ∧
      ∀ q conn, s.pool.heap q = some conn → ∃ conn', heap q = some conn' := by
  have hheld : s.held[i]? = some obj.conn := by
    rw [RefState.held, List.getElem?_map, hi]
    rfl
  have herase : (s.objects.eraseIdx i).map ConnObject.conn = s.held.eraseIdx i :=
    (List.eraseIdx_map _ _ _).symm
  have hpooled : ∀ q, some q ∈ s.held.eraseIdx i → ∃ key, (key, some q) ∈ s.pool.plist :=
    fun q hq => h.pooled q (List.mem_of_mem_eraseIdx hq)
  have hlen : (s.objects.eraseIdx i).length < 2 ^ 31 := by
    have := h.handles
    have := List.length_eraseIdx_le s.objects i
    omega
  cases hptr : obj.conn with
  | none =>
    rw [hptr] at hheld
    refine ⟨s.pool.heap, rfl, ⟨h.keys_nodup, ?_, ?_, hlen⟩, fun q c hc => ⟨c, hc⟩⟩
    · intro k q hq
      obtain ⟨c, hc⟩ := h.entries k q hq
      refine ⟨c, hc.frame rfl ?_ rfl⟩
      rw [holders_eraseIdx hheld q, RefState.held, herase]
      simp
    · intro q hq
      exact hpooled q (herase ▸ hq)
  | some p =>
    rw [hptr] at hheld
    obtain ⟨key, hp⟩ := h.pooled p (List.mem_of_getElem? hheld)
    obtain ⟨conn, hconn⟩ := h.entries key p hp
    have hholders := holders_eraseIdx hheld p
    rw [if_pos rfl] at hholders
    have hcounts : Counts (conn.refs - 1) (holders (s.held.eraseIdx i) p) :=
      Counts.release (hholders ▸ hconn.counts)
    refine ⟨_, connectionDelref_eq hconn.alive now, ⟨h.keys_nodup, ?_, ?_, hlen⟩,
      fun q c hc => Heap.alive_set hc _ _⟩
    · intro k q hq
      by_cases hqp : q = p
      · subst hqp
        refine ⟨_, Heap.set_self _ _ _, ?_, ?_, ?_⟩
        · exact hconn.key_eq.trans (h.listed.key_unique hp hq)
        · rw [RefState.held, herase]
          exact hcounts
        · intro hzero
          rw [RefState.held, herase] at hzero
          have hidle : (conn.released now).idleAt = now := if_pos (hcounts.eq_zero_iff.mpr hzero)
          exact hidle.trans (if_pos rfl).symm
      · obtain ⟨c, hc⟩ := h.entries k q hq
        have hne : some p ≠ some q := fun heq => hqp (Option.some.inj heq).symm
        refine ⟨c, hc.frame (Heap.set_ne _ _ hqp) ?_ (if_neg hne)⟩
        rw [holders_eraseIdx hheld q, RefState.held, herase, if_neg hne, Nat.add_zero]
    · intro q hq
      exact hpooled q (herase ▸ hq)

/-- A connection that was just opened is put into the list, under a key that has no other one. -/
theorem PoolInv.opened {s : RefState} (h : PoolInv s) (hhandle : s.HasHandle) {call : GetCall}
    {est : Establish} {cstr : Bytes} (hfresh : s.pool.heap est.ptr = none)
    (hmiss : connectionLookup s.pool.plist (connectionKey call.type cstr call.authHash) = none) :
    PoolInv (s.grown (s.pool.heap.set est.ptr (some ⟨call.type, cstr, call.authHash, 1, 0⟩))
      (update s.pool.plist (connectionKey call.type cstr call.authHash) (some est.ptr))
      (classOf call.type) (some est.ptr)) := by
  -- nothing points to memory that is not allocated
  have hunlisted : ∀ key, (key, some est.ptr) ∉ s.pool.plist := by
    intro key habs
    obtain ⟨conn, hconn⟩ := h.entries key _ habs
    rw [hconn.alive] at hfresh
    cases hfresh
  have hnone : holders s.held est.ptr = 0 := by
    apply holders_eq_zero
    intro habs
    obtain ⟨key, hkey⟩ := h.pooled _ habs
    exact hunlisted key hkey
  refine ⟨nodup_keys_update h.keys_nodup _ _, ?_, ?_, ?_⟩
  · intro k q hq
    rcases mem_update hq with heq | hq
    · obtain ⟨rfl, hptr⟩ := Prod.mk.inj heq
      obtain rfl := Option.some.inj hptr
      refine ⟨_, Heap.set_self _ _ _, rfl, ?_, ?_⟩
      · rw [holders_grown, hnone, if_pos rfl]
        exact counts_one
      · intro hzero
        rw [holders_grown, if_pos rfl] at hzero
        omega
    · have hqp : q ≠ est.ptr := by
        rintro rfl
        exact hunlisted k hq
      obtain ⟨c, hc⟩ := h.entries k q hq
      refine ⟨c, hc.frame (Heap.set_ne _ _ hqp) ?_ rfl⟩
      rw [holders_grown, if_neg fun heq => hqp (Option.some.inj heq).symm, Nat.add_zero]
  · intro q hq
    rcases mem_held_grown hq with hq | heq
    · obtain ⟨key, hkey⟩ := h.pooled q hq
      -- an entry that is replaced had no connection
      refine ⟨key, mem_update_of_ne hkey ?_⟩
      rintro rfl
      rw [connectionLookup, (fetch_eq_some_iff h.keys_nodup).mpr hkey] at hmiss
      cases hmiss
    · obtain rfl := Option.some.inj heq
      exact ⟨_, mem_update_self _ _ _⟩
  · rw [length_grown]
    exact hhandle

/-- An expired connection has no holder, and has been idle for more than 60 seconds. -/
theorem EntryInv.expired {s : RefState} {key : Bytes} {p : Ptr} {conn : PcbcConnection}
    (h : EntryInv s key p conn) {now : Int} (hexp : conn.Expired now) :
    conn.refs = 0 ∧ holders s.held p = 0 ∧ 60 < now - s.released p := by
  obtain ⟨hrefs, -, hage⟩ := hexp
  have hzero : holders s.held p = 0 := by
    by_contra hne
    exact hrefs (h.counts.pos_iff.mpr (Nat.pos_of_ne_zero hne))
  refine ⟨h.counts.eq_zero_iff.mpr hzero, hzero, ?_⟩
  rw [← h.idle hzero]
  exact hage

theorem cleaned_eq_some {heap : Heap} {now : Int} {ptr : Option Ptr} {p : Ptr}
    (h : cleaned heap now ptr = some p) :
    ptr = some p ∧ ∀ conn, heap p = some conn → ¬ conn.Expired now := by
  cases ptr with
  | none => cases h
  | some q =>
    cases hq : heap q with
    | none =>
      simp only [cleaned, hq] at h
      cases h
      refine ⟨rfl, ?_⟩
      intro conn hconn
      rw [hq] at hconn
      cases hconn
    | some c =>
      simp only [cleaned, hq] at h
      split at h
      · cases h
      · rename_i hexp
        cases h
        refine ⟨rfl, ?_⟩
        intro conn hconn
        rw [hq] at hconn
        cases hconn
        exact hexp

theorem cleaned_of_not_expired {heap : Heap} {now : Int} {p : Ptr} {conn : PcbcConnection}
    (h : heap p = some conn) (hexp : ¬ conn.Expired now) : cleaned heap now (some p) = some p := by
  simp only [cleaned, h, if_neg hexp]

theorem PoolInv.cleanup {s : RefState} (h : PoolInv s) (clock : Bytes → Int) :
    ∃ t, s.step parse (.cleanup clock) = .ok t ∧ PoolInv t ∧ OnlyIdle s (.cleanup clock) t := by
  obtain ⟨heap, hrun, hheap⟩ := connectionCleanup_eq clock h.listed
  refine ⟨{ s with pool := ⟨heap, s.pool.plist.map fun e =>
    (e.1, cleaned s.pool.heap (clock e.1) e.2)⟩ }, ?_, ⟨?_, ?_, ?_, h.handles⟩, ?_⟩
  · simp only [RefState.step, hrun, C.bind_ok]
    rfl
  · have hkeys : keys (s.pool.plist.map fun e => (e.1, cleaned s.pool.heap (clock e.1) e.2)) =
        keys s.pool.plist := by
      simp [keys]
    exact hkeys ▸ h.keys_nodup
  · intro key p hp
    obtain ⟨⟨k, ptr⟩, hmem, heq⟩ := List.mem_map.mp hp
    obtain ⟨rfl, hptr⟩ := Prod.mk.inj heq
    obtain ⟨rfl, hkept⟩ := cleaned_eq_some hptr
    obtain ⟨conn, hconn⟩ := h.entries k p hmem
    refine ⟨conn, hconn.frame ?_ rfl rfl⟩
    exact (hheap.listed k p conn hmem hconn.alive).trans (if_neg (hkept conn hconn.alive))
  · intro p hp
    obtain ⟨key, hkey⟩ := h.pooled p hp
    obtain ⟨conn, hconn⟩ := h.entries key p hkey
    have hexp : ¬ conn.Expired (clock key) :=
      fun habs => holders_ne_zero hp (hconn.expired habs).2.1
    exact ⟨key, List.mem_map.mpr ⟨_, hkey,
      Prod.ext rfl (cleaned_of_not_expired hconn.alive hexp)⟩⟩
  · intro p conn hp hnone
    by_contra hnot
    have hunlisted : ∀ key, (key, some p) ∉ s.pool.plist := by
      intro key hkey
      obtain ⟨c, hc⟩ := h.entries key p hkey
      obtain rfl : conn = c := Option.some.inj (hp.symm.trans hc.alive)
      have hafter := hheap.listed key p conn hkey hp
      by_cases hexp : conn.Expired (clock key)
      · exact hnot ⟨clock, key, rfl, hkey, hc.expired hexp⟩
      · rw [if_neg hexp, hp] at hafter
        exact absurd (hafter.symm.trans hnone) (by simp)
    exact absurd ((hp.symm.trans (hheap.other p hunlisted).symm).trans hnone) (by simp)

/-! ## The steps -/

theorem PoolInv.connect {s : RefState} (h : PoolInv s) {call : GetCall} {est : Establish}
    (hfresh : s.pool.heap est.ptr = none) (hhandle : s.HasHandle) :
    ∃ t, s.step parse (.connect call est) = .ok t ∧ PoolInv t ∧
      OnlyIdle s (.connect call est) t := by
  have hsame : OnlyIdle s (.connect call est) s := onlyIdle_of_alive fun p conn hp => ⟨conn, hp⟩
  cases hcstr : normalizeConnstr parse call.type call.connstr call.bucketname with
  | none => exact ⟨s, by simp [RefState.step, connectionGet, hcstr], h, hsame⟩
  | some cstr =>
    cases hlook : connectionLookup s.pool.plist (connectionKey call.type cstr call.authHash) with
    | some p =>
      have hp : (connectionKey call.type cstr call.authHash, some p) ∈ s.pool.plist :=
        mem_of_fetch (Option.join_eq_some_iff.mp hlook)
      obtain ⟨heap, hrun, hinv, halive⟩ := h.retain hhandle (classOf call.type) hp
      refine ⟨_, ?_, hinv, onlyIdle_of_alive halive⟩
      simp only [RefState.step, connectionGet, hcstr, hlook, hrun, C.bind_ok]
      rfl
    | none =>
      by_cases herr : est.err = .success
      · cases hcached : est.cached with
        | true =>
          refine ⟨_, ?_, h.opened hhandle hfresh hlook,
            onlyIdle_of_alive fun q c hc => Heap.alive_set hc _ _⟩
          simp only [RefState.step, connectionGet, hcstr, hlook, herr, hcached]
          rfl
        | false =>
          refine ⟨{ s with pool := ⟨s.pool.heap.set est.ptr
            (some ⟨call.type, cstr, call.authHash, 1, 0⟩), s.pool.plist⟩ }, ?_,
            ⟨h.keys_nodup, ?_, h.pooled, h.handles⟩,
            onlyIdle_of_alive fun q c hc => Heap.alive_set hc _ _⟩
          · simp only [RefState.step, connectionGet, hcstr, hlook, herr, hcached]
            rfl
          · intro key q hq
            obtain ⟨c, hc⟩ := h.entries key q hq
            have hne : q ≠ est.ptr := by
              rintro rfl
              exact absurd (hc.alive.symm.trans hfresh) (by simp)
            exact ⟨c, hc.frame (Heap.set_ne _ _ hne) rfl rfl⟩
      · refine ⟨s, ?_, h, hsame⟩
        simp [RefState.step, connectionGet, hcstr, hlook, herr]

/-- **One step**: an event that can happen meets no destroyed connection, keeps the invariant, and
destroys only idle connections. -/
theorem PoolInv.step {s : RefState} (h : PoolInv s) {e : RefEvent} (he : s.Enabled e) :
    ∃ t, s.step parse e = .ok t ∧ PoolInv t ∧ OnlyIdle s e t := by
  cases e with
  | connect call est => exact h.connect parse he.1 he.2
  | bare cls => exact ⟨_, rfl, h.bare he cls, onlyIdle_of_alive fun p conn hp => ⟨conn, hp⟩⟩
  | bucketManager i =>
    obtain ⟨⟨bucket, hi, -⟩, hhandle⟩ := he
    cases hptr : bucket.conn with
    | none =>
      refine ⟨_, ?_, h.bare hhandle .bucketManager,
        onlyIdle_of_alive fun p conn hp => ⟨conn, hp⟩⟩
      simp only [RefState.step, hi, hptr]
      rfl
    | some p =>
      have hmem : some p ∈ s.held := by
        rw [← hptr]
        exact List.mem_map_of_mem (List.mem_of_getElem? hi)
      obtain ⟨key, hkey⟩ := h.pooled p hmem
      obtain ⟨heap, hrun, hinv, halive⟩ := h.retain hhandle .bucketManager hkey
      refine ⟨_, ?_, hinv, onlyIdle_of_alive halive⟩
      simp only [RefState.step, hi, hptr, hrun, C.bind_ok]
      rfl
  | free i now =>
    have hlt : i < s.objects.length := he
    have hi : s.objects[i]? = some s.objects[i] := List.getElem?_eq_getElem hlt
    obtain ⟨heap, hrun, hinv, halive⟩ := h.release hi now
    refine ⟨_, ?_, hinv, onlyIdle_of_alive halive⟩
    simp only [RefState.step, hi, hrun, C.bind_ok]
    rfl
  | cleanup clock => exact h.cleanup parse clock

/-! ## The runs -/

/-- **A safe pool**: the counter of every pooled connection is the number of live objects that hold
it, no live object holds a connection that was destroyed, and no key has two connections. -/
structure PoolSafe (s : RefState) : Prop where
  refs : ∀ key p, (key, some p) ∈ s.pool.plist → ∃ conn, s.pool.heap p = some conn ∧
    conn.key = key ∧ conn.refs.toInt = holders s.held p ∧ 0 ≤ conn.refs.toInt
  alive : ∀ obj ∈ s.objects, ∀ p, obj.conn = some p →
    (∃ conn, s.pool.heap p = some conn) ∧ ∃ key, (key, some p) ∈ s.pool.plist
  unique : ∀ key p q, (key, some p) ∈ s.pool.plist → (key, some q) ∈ s.pool.plist → p = q

theorem PoolInv.safe {s : RefState} (h : PoolInv s) : PoolSafe s := by
  constructor
  · intro key p hp
    obtain ⟨conn, hconn⟩ := h.entries key p hp
    have hrefs : conn.refs.toInt = holders s.held p := hconn.counts
    exact ⟨conn, hconn.alive, hconn.key_eq, hrefs, by omega⟩
  · intro obj hobj p hp
    obtain ⟨key, hkey⟩ := h.pooled p (List.mem_map.mpr ⟨obj, hobj, hp⟩)
    obtain ⟨conn, hconn⟩ := h.entries key p hkey
    exact ⟨⟨conn, hconn.alive⟩, key, hkey⟩
  · intro key p q hp hq
    have hp := (fetch_eq_some_iff h.keys_nodup).mpr hp
    have hq := (fetch_eq_some_iff h.keys_nodup).mpr hq
    exact Option.some.inj (Option.some.inj (hp.symm.trans hq))

theorem poolInv_of_path {p : List (RefEvent × RefState)}
    (hp : Path (RefStep parse) emptyPool p) : ∀ s ∈ emptyPool :: p.map Prod.snd, PoolInv s := by
  have hstep : ∀ s e t, PoolInv s → RefStep parse s e t → PoolInv t := by
    rintro s e t hs ⟨he, hrun⟩
    obtain ⟨t', hrun', ht', -⟩ := hs.step parse he
    rw [hrun] at hrun'
    exact Except.ok.inj hrun' ▸ ht'
  intro s hs
  rcases List.mem_cons.mp hs with rfl | hs
  · exact poolInv_empty
  · obtain ⟨x, hx, rfl⟩ := List.mem_map.mp hs
    exact hp.invariant poolInv_empty hstep x hx

/-- `Cluster::manager()` on `couchbase://localhost`, with an empty digest. -/
def managerGet : GetCall := ⟨.cluster, .ofBytes (ascii "couchbase://localhost"), none, []⟩

end PhpCouchbase
