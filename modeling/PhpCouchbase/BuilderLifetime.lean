import PhpCouchbase.PoolRefs

/-!
# The bucket of a builder

A `MutateInBuilder` or `LookupInBuilder` (`mutate_in_builder.c`, `lookup_in_builder.c`) holds a
counted reference to the `Bucket` (`bucket.c`) it was made from. PHP runs the free handler of an
object when user code drops the last reference to it; a builder's own free handler only counts its
reference down.

* `LifeState.step` — what user code can do with the references, and what the handlers do.
* `Counted.step` — the counter of the bucket is the number of its references.
* `bucketLifetime_step_iff` — a step keeps the bucket alive as long as its references, and no longer,
  exactly when no builder is the last to hold it.
* `bucket_lifetime_iff` — the runs.
* `builder_outlives` — a builder that is dropped last leaves the bucket and its connection behind.
-/

set_option autoImplicit false

namespace PhpCouchbase

open StepSystem

/-! ## Objects and their handlers -/

/-- A `Bucket` with the counter of its object.  `freeCalls` is a ghost: how often its free handler
ran. -/
structure BucketObject where
  refcount : Nat
  conn : Option Ptr
  freeCalls : Nat

inductive BuilderClass where
  | mutateIn
  | lookupIn
  deriving DecidableEq, Repr

/-- A builder that was not freed, with the counter of its object. -/
structure BuilderObject where
  cls : BuilderClass
  refcount : Nat

/-- The connections, a bucket, and the builders made from it.  `userRefs` is a ghost: the references
to the bucket that user code holds. -/
structure LifeState where
  heap : Heap
  bucket : BucketObject
  userRefs : Nat
  builders : List BuilderObject

/-- `pcbc_bucket_free_object` -/
def bucketFreeObject (now : Int) (s : LifeState) : C LifeState := do
  let heap ← connectionDelref now s.heap s.bucket.conn
  return { s with heap, bucket := { s.bucket with freeCalls := s.bucket.freeCalls + 1 } }

def LifeState.setRefcount (s : LifeState) (refcount : Nat) : LifeState :=
  { s with bucket := { s.bucket with refcount } }

/-- `zval_ptr_dtor` of a reference to the bucket: the last one runs the free handler. -/
def bucketPtrDtor (now : Int) (s : LifeState) : C LifeState :=
  let s := s.setRefcount (s.bucket.refcount - 1)
  if s.bucket.refcount = 0 then bucketFreeObject now s else .ok s

/-- A new builder, with `ZVAL_COPY` of the bucket. -/
def builderInit (cls : BuilderClass) (s : LifeState) : LifeState :=
  { s.setRefcount (s.bucket.refcount + 1) with builders := s.builders ++ [⟨cls, 1⟩] }

/-- `pcbc_mutate_in_builder_init` -/
def LifeState.mutateInBuilderInit : LifeState → LifeState := builderInit .mutateIn

/-- `pcbc_lookup_in_builder_init` -/
def LifeState.lookupInBuilderInit : LifeState → LifeState := builderInit .lookupIn

/-- The free handler of the builder with this number: `Z_DELREF_P` of the bucket. -/
def builderFreeObject (i : Nat) (s : LifeState) : LifeState :=
  { s.setRefcount (s.bucket.refcount - 1) with builders := s.builders.eraseIdx i }

/-- `mutate_in_builder_free_object` -/
def LifeState.mutateInBuilderFreeObject : Nat → LifeState → LifeState := builderFreeObject

/-- `lookup_in_builder_free_object` -/
def LifeState.lookupInBuilderFreeObject : Nat → LifeState → LifeState := builderFreeObject

/-! ## What user code can do -/

inductive LifeEvent where
  /-- another reference to the bucket -/
  | copy
  /-- a reference to the bucket is dropped -/
  | drop (now : Int)
  /-- `Bucket::mutateIn` or `Bucket::lookupIn` -/
  | make (cls : BuilderClass)
  /-- another reference to the builder with this number, as its methods return -/
  | copyBuilder (i : Nat)
  /-- a reference to the builder is dropped -/
  | dropBuilder (i : Nat)
  /-- the builder is executed on its bucket -/
  | execute (i : Nat)

def makeBuilder : BuilderClass → LifeState → LifeState
  | .mutateIn => LifeState.mutateInBuilderInit
  | .lookupIn => LifeState.lookupInBuilderInit

def freeBuilder : BuilderClass → Nat → LifeState → LifeState
  | .mutateIn => LifeState.mutateInBuilderFreeObject
  | .lookupIn => LifeState.lookupInBuilderFreeObject

/-- The effect of an event. -/
def LifeState.step (s : LifeState) : LifeEvent → C LifeState
  | .copy => .ok { s.setRefcount (s.bucket.refcount + 1) with userRefs := s.userRefs + 1 }
  | .drop now => bucketPtrDtor now { s with userRefs := s.userRefs - 1 }
  | .make cls => .ok (makeBuilder cls s)
  | .copyBuilder i =>
    match s.builders[i]? with
    | none => .ok s
    | some b => .ok { s with builders := s.builders.set i { b with refcount := b.refcount + 1 } }
  | .dropBuilder i =>
    match s.builders[i]? with
    | none => .ok s
    | some b =>
      if b.refcount - 1 = 0 then .ok (freeBuilder b.cls i s)
      else .ok { s with builders := s.builders.set i { b with refcount := b.refcount - 1 } }
  | .execute _ => if s.bucket.freeCalls = 0 then .ok s else .error .freed

/-- User code needs a reference to what it copies, drops or calls. -/
def LifeState.Enabled (s : LifeState) : LifeEvent → Prop
  | .copy | .drop _ | .make _ => 0 < s.userRefs
  | .copyBuilder i | .dropBuilder i | .execute i => i < s.builders.length

/-- A step of user code. -/
def LifeStep (s : LifeState) (e : LifeEvent) (t : LifeState) : Prop :=
  s.Enabled e ∧ s.step e = .ok t

/-- A bucket that was just opened, on a connection that may have other holders. -/
def LifeState.opened (heap : Heap) (p : Ptr) (conn : PcbcConnection) : LifeState :=
  ⟨heap.set p (some conn), ⟨1, some p, 0⟩, 1, []⟩

/-! ## References -/

/-- The references to the bucket, of user code and of builders. -/
def LifeState.references (s : LifeState) : Nat := s.userRefs + s.builders.length

/-- The counter of the bucket is the number of its references, and builders are alive. -/
structure Counted (p : Ptr) (s : LifeState) : Prop where
  counts : s.bucket.refcount = s.references
  builders : ∀ b ∈ s.builders, 0 < b.refcount
  conn_eq : s.bucket.conn = some p
  allocated : ∃ conn, s.heap p = some conn

variable {p : Ptr} {s t : LifeState} {conn : PcbcConnection}

theorem counted_opened (heap : Heap) (p : Ptr) (conn : PcbcConnection) :
    Counted p (.opened heap p conn) where
  counts := rfl
  builders b hb := by cases hb
  conn_eq := rfl
  allocated := ⟨conn, Heap.set_self heap p (some conn)⟩

theorem makeBuilder_eq (cls : BuilderClass) (s : LifeState) :
    makeBuilder cls s = builderInit cls s := by
  cases cls <;> rfl

theorem freeBuilder_eq (cls : BuilderClass) (i : Nat) (s : LifeState) :
    freeBuilder cls i s = builderFreeObject i s := by
  cases cls <;> rfl

/-- The last reference of user code to the bucket, and every other one. -/
theorem step_drop (h : Counted p s) (huser : 0 < s.userRefs) {c : PcbcConnection}
    (hc : s.heap p = some c) (now : Int) :
    s.step (.drop now) = .ok (if s.references = 1 then
        { s with
          heap := s.heap.set p (some (c.released now))
          bucket := ⟨0, some p, s.bucket.freeCalls + 1⟩, userRefs := s.userRefs - 1 }
      else { s.setRefcount (s.bucket.refcount - 1) with userRefs := s.userRefs - 1 }) := by
  have hcounts := h.counts
  unfold LifeState.references at hcounts ⊢
  by_cases hlast : s.userRefs + s.builders.length = 1
  · have hzero : s.bucket.refcount - 1 = 0 := by omega
    simp only [LifeState.step, bucketPtrDtor, LifeState.setRefcount, bucketFreeObject, hzero, hlast,
      if_true, h.conn_eq, connectionDelref_eq hc, C.bind_ok, C.pure_eq]
  · have hzero : s.bucket.refcount - 1 ≠ 0 := by omega
    simp only [LifeState.step, bucketPtrDtor, LifeState.setRefcount, if_neg hlast]
    exact if_neg hzero

/-- A builder loses a reference and keeps others, or its last one. -/
theorem step_dropBuilder {i : Nat} {b : BuilderObject} (hb : s.builders[i]? = some b) :
    s.step (.dropBuilder i) = .ok (if b.refcount - 1 = 0 then builderFreeObject i s
      else { s with builders := s.builders.set i { b with refcount := b.refcount - 1 } }) := by
  simp only [LifeState.step, hb, freeBuilder_eq]
  split <;> rfl

/-- The step drops the last reference to a builder that is the last to hold the bucket. -/
def LifeState.BuilderLast (s : LifeState) : LifeEvent → Prop
  | .dropBuilder i => s.references = 1 ∧ ∃ b, s.builders[i]? = some b ∧ b.refcount = 1
  | .copy | .drop _ | .make _ | .copyBuilder _ | .execute _ => False

/-- What a step does to the bucket: user code drops the last reference, a builder drops it, or there
are references left. -/
inductive Effect (s : LifeState) (e : LifeEvent) (t : LifeState) : Prop where
  | freed (hlast : ¬s.BuilderLast e) (hrefs : t.references = 0)
      (hfree : t.bucket.freeCalls = s.bucket.freeCalls + 1)
      (hheap : ∀ p c, s.bucket.conn = some p → s.heap p = some c →
        ∃ now, t.heap p = some (c.released now))
  | leaked (hlast : s.BuilderLast e) (hrefs : t.references = 0)
      (hfree : t.bucket.freeCalls = s.bucket.freeCalls)
  | kept (hlast : ¬s.BuilderLast e) (hrefs : t.references ≠ 0)
      (hfree : t.bucket.freeCalls = s.bucket.freeCalls) (hheap : t.heap = s.heap)

theorem references_ne_zero {e : LifeEvent} (h : s.Enabled e) : s.references ≠ 0 := by
  unfold LifeState.references
  cases e <;> (simp only [LifeState.Enabled] at h; omega)

/-- Builders stay alive when the counter of one is changed to another positive number. -/
theorem Counted.set_builder (h : Counted p s) {i n : Nat} {b : BuilderObject} (hn : 0 < n) :
    Counted p { s with builders := s.builders.set i { b with refcount := n } } where
  counts := by
    have hcounts := h.counts
    unfold LifeState.references at hcounts ⊢
    simpa using hcounts
  builders c hc := by
    rcases List.mem_or_eq_of_mem_set hc with hc | rfl
    · exact h.builders c hc
    · exact hn
  conn_eq := h.conn_eq
  allocated := h.allocated

/-- User code drops a reference to the bucket. -/
theorem Counted.drop (h : Counted p s) (huser : 0 < s.userRefs) {now : Int}
    (hrun : s.step (.drop now) = .ok t) : Counted p t ∧ Effect s (.drop now) t := by
  have hcounts := h.counts
  obtain ⟨c, hc⟩ := h.allocated
  rw [step_drop h huser hc now] at hrun
  obtain rfl := Except.ok.inj hrun
  unfold LifeState.references at hcounts ⊢
  by_cases hlast : s.userRefs + s.builders.length = 1
  · rw [if_pos hlast]
    refine ⟨⟨?_, h.builders, rfl, ⟨_, Heap.set_self _ _ _⟩⟩, .freed id ?_ rfl ?_⟩
    · simp only [LifeState.references]
      omega
    · simp only [LifeState.references]
      omega
    · intro q c' hq hc'
      obtain rfl : p = q := Option.some.inj (h.conn_eq.symm.trans hq)
      obtain rfl : c = c' := Option.some.inj (hc.symm.trans hc')
      exact ⟨now, Heap.set_self _ _ _⟩
  · rw [if_neg hlast]
    refine ⟨⟨?_, h.builders, h.conn_eq, h.allocated⟩, .kept id ?_ rfl rfl⟩
    · simp only [LifeState.setRefcount, LifeState.references]
      omega
    · simp only [LifeState.setRefcount, LifeState.references]
      omega

/-- A builder that is freed gives its reference back, and the handler of the bucket does not run. -/
theorem Counted.free_builder (h : Counted p s) {i : Nat} {b : BuilderObject}
    (hb : s.builders[i]? = some b) (hone : b.refcount = 1) :
    Counted p (builderFreeObject i s) ∧ Effect s (.dropBuilder i) (builderFreeObject i s) := by
  have hcounts := h.counts
  have hlen : (s.builders.eraseIdx i).length + 1 = s.builders.length := by
    obtain ⟨hi, -⟩ := List.getElem?_eq_some_iff.mp hb
    rw [List.length_eraseIdx_of_lt hi]
    omega
  refine ⟨⟨?_, ?_, h.conn_eq, h.allocated⟩, ?_⟩
  · simp only [builderFreeObject, LifeState.setRefcount, LifeState.references] at hcounts ⊢
    omega
  · exact fun c hc => h.builders c (List.mem_of_mem_eraseIdx hc)
  · by_cases hrefs : s.references = 1
    · refine .leaked ⟨hrefs, b, hb, hone⟩ ?_ rfl
      simp only [builderFreeObject, LifeState.setRefcount, LifeState.references] at hrefs ⊢
      omega
    · refine .kept (fun habs => hrefs habs.1) ?_ rfl rfl
      simp only [builderFreeObject, LifeState.setRefcount, LifeState.references] at hrefs ⊢
      omega

/-- User code drops a reference to a builder. -/
theorem Counted.dropBuilder (h : Counted p s) {i : Nat} (hi : i < s.builders.length)
    (hrun : s.step (.dropBuilder i) = .ok t) : Counted p t ∧ Effect s (.dropBuilder i) t := by
  have hb := List.getElem?_eq_getElem hi
  generalize s.builders[i] = b at hb
  have hpos : 0 < b.refcount := h.builders b (List.mem_of_getElem? hb)
  rw [step_dropBuilder hb] at hrun
  obtain rfl := Except.ok.inj hrun
  by_cases hlast : b.refcount - 1 = 0
  · rw [if_pos hlast]
    exact h.free_builder hb (by omega)
  · rw [if_neg hlast]
    refine ⟨h.set_builder (by omega), .kept ?_ ?_ rfl rfl⟩
    · rintro ⟨-, b', hb', hone⟩
      obtain rfl : b = b' := Option.some.inj (hb.symm.trans hb')
      omega
    · simp only [LifeState.references, List.length_set]
      omega

/-- **What a step can do.** -/
theorem Counted.step (h : Counted p s) {e : LifeEvent} (hstep : LifeStep s e t) :
    Counted p t ∧ Effect s e t := by
  obtain ⟨henabled, hrun⟩ := hstep
  have hcounts := h.counts
  cases e with
  | copy =>
    cases hrun
    refine ⟨⟨?_, h.builders, h.conn_eq, h.allocated⟩, .kept id ?_ rfl rfl⟩
    · simp only [LifeState.setRefcount, LifeState.references] at hcounts ⊢
      omega
    · simp only [LifeState.references]
      omega
  | drop now => exact h.drop henabled hrun
  | make cls =>
    simp only [LifeState.step, makeBuilder_eq] at hrun
    obtain rfl := Except.ok.inj hrun
    refine ⟨⟨?_, ?_, h.conn_eq, h.allocated⟩, .kept id ?_ rfl rfl⟩
    · simp only [builderInit, LifeState.setRefcount, LifeState.references, List.length_append,
        List.length_singleton] at hcounts ⊢
      omega
    · intro b hb
      rcases List.mem_append.mp hb with hb | hb
      · exact h.builders b hb
      · rw [List.mem_singleton.mp hb]
        exact Nat.one_pos
    · simp [builderInit, LifeState.references]
  | copyBuilder i =>
    have hi : i < s.builders.length := henabled
    simp only [LifeState.step, List.getElem?_eq_getElem hi] at hrun
    obtain rfl := Except.ok.inj hrun
    refine ⟨h.set_builder (Nat.succ_pos _), .kept id ?_ rfl rfl⟩
    simp only [LifeState.references, List.length_set]
    omega
  | dropBuilder i => exact h.dropBuilder henabled hrun
  | execute i =>
    simp only [LifeState.step] at hrun
    split at hrun
    · obtain rfl := Except.ok.inj hrun
      exact ⟨h, .kept id (references_ne_zero henabled) rfl rfl⟩
    · cases hrun

/-! ## The lifetime -/

/-- **The lifetime of a bucket**: its free handler ran once when there are no references left, and
not before; so its connection lost one reference or none; and nothing that can happen next, the
execution of a builder included, reads what was freed. -/
structure BucketLifetime (p : Ptr) (conn : PcbcConnection) (s : LifeState) : Prop where
  freed : s.bucket.freeCalls = if s.references = 0 then 1 else 0
  connection : ∃ c, s.heap p = some c ∧
    c.refs = if s.references = 0 then conn.refs - 1 else conn.refs
  safe : ∀ e, s.Enabled e → C.Defined (s.step e)

/-- While the bucket is not freed, every event that can happen is defined. -/
theorem Counted.defined_step (h : Counted p s) (hfree : s.references ≠ 0 → s.bucket.freeCalls = 0)
    {e : LifeEvent} (he : s.Enabled e) : C.Defined (s.step e) := by
  obtain ⟨c, hc⟩ := h.allocated
  cases e with
  | copy => exact C.defined_ok _
  | drop now =>
    rw [step_drop h he hc now]
    exact C.defined_ok _
  | make cls => exact C.defined_ok _
  | copyBuilder i =>
    have hi : i < s.builders.length := he
    simp only [LifeState.step, List.getElem?_eq_getElem hi]
    exact C.defined_ok _
  | dropBuilder i =>
    have hi : i < s.builders.length := he
    rw [step_dropBuilder (List.getElem?_eq_getElem hi)]
    exact C.defined_ok _
  | execute i =>
    simp only [LifeState.step, if_pos (hfree (references_ne_zero he))]
    exact C.defined_ok _

theorem bucketLifetime_opened (heap : Heap) (p : Ptr) (conn : PcbcConnection) :
    BucketLifetime p conn (.opened heap p conn) where
  freed := rfl
  connection := ⟨conn, Heap.set_self heap p (some conn), rfl⟩
  safe _ he := (counted_opened heap p conn).defined_step (fun _ => rfl) he

/-- **One step.** -/
theorem bucketLifetime_step_iff (h : Counted p s) (hlife : BucketLifetime p conn s) {e : LifeEvent}
    (hstep : LifeStep s e t) : BucketLifetime p conn t ↔ ¬s.BuilderLast e := by
  obtain ⟨hcounted, heffect⟩ := h.step hstep
  have hrefs := references_ne_zero hstep.1
  have hfreed : s.bucket.freeCalls = 0 := by rw [hlife.freed, if_neg hrefs]
  obtain ⟨c, hc, hcrefs⟩ := hlife.connection
  rw [if_neg hrefs] at hcrefs
  cases heffect with
  | freed hlast hzero hfree hheap =>
    refine iff_of_true ?_ hlast
    obtain ⟨now, hreleased⟩ := hheap p c h.conn_eq hc
    constructor
    · rw [hfree, hfreed, if_pos hzero]
    · refine ⟨c.released now, hreleased, ?_⟩
      rw [if_pos hzero, ← hcrefs]
      rfl
    · exact fun e he => absurd hzero (references_ne_zero he)
  | leaked hlast hzero hfree =>
    refine iff_of_false ?_ (not_not.mpr hlast)
    intro ht
    have hcalls := ht.freed
    rw [hfree, hfreed, if_pos hzero] at hcalls
    cases hcalls
  | kept hlast hpos hfree hheap =>
    refine iff_of_true ?_ hlast
    have hzero : t.bucket.freeCalls = 0 := hfree.trans hfreed
    constructor
    · rw [hzero, if_neg hpos]
    · exact ⟨c, by rw [hheap, hc], by rw [if_neg hpos, hcrefs]⟩
    · exact fun e he => hcounted.defined_step (fun _ => hzero) he

/-- **Runs.**  For every order of creating and dropping references, the bucket lives as long as its
references, and no longer, exactly when no builder is the last to hold it. -/
theorem bucket_lifetime_iff (heap : Heap) (p : Ptr) (conn : PcbcConnection)
    {run : List (LifeEvent × LifeState)} (hrun : Path LifeStep (.opened heap p conn) run) :
    (∀ x ∈ run, BucketLifetime p conn x.2) ↔
      Meets (fun s e => ¬s.BuilderLast e) (.opened heap p conn) run := by
  have hcounted : ∀ x ∈ run, Counted p x.2 :=
    hrun.invariant (counted_opened heap p conn) fun s e t hs hstep => (hs.step hstep).1
  -- the counters are right in every state, so they can be carried along
  have hstep : ∀ s e t, (Counted p s ∧ BucketLifetime p conn s) → LifeStep s e t →
      ((Counted p t ∧ BucketLifetime p conn t) ↔ ¬s.BuilderLast e) := by
    rintro s e t ⟨hs, hlife⟩ hstep
    rw [← bucketLifetime_step_iff hs hlife hstep]
    exact and_iff_right (hs.step hstep).1
  have hboth := @Path.forall_iff_meets _ _ _ _ _ _ _ hrun
    ⟨counted_opened heap p conn, bucketLifetime_opened heap p conn⟩ hstep
  rw [← hboth]
  exact forall₂_congr fun x hx => (and_iff_right (hcounted x hx)).symm

/-- **The pool** sees the handler as the destruction of one of its objects. -/
theorem bucketFreeObject_pool (parse : Bytes → Option Url) {pool : RefState} {i : Nat}
    {obj : ConnObject} (hobj : pool.objects[i]? = some obj) (hheap : s.heap = pool.pool.heap)
    (hconn : s.bucket.conn = obj.conn) {now : Int} (h : bucketFreeObject now s = .ok t) :
    ∃ pool', pool.step parse (.free i now) = .ok pool' ∧ pool'.pool.heap = t.heap ∧
      pool'.objects = pool.objects.eraseIdx i := by
  obtain ⟨heap, hdelref, ht⟩ := C.bind_eq_ok.mp h
  obtain rfl := Except.ok.inj ht
  rw [hheap, hconn] at hdelref
  refine ⟨⟨⟨heap, pool.pool.plist⟩, pool.objects.eraseIdx i,
    fun p => if obj.conn = some p then now else pool.released p⟩, ?_, rfl, rfl⟩
  simp only [RefState.step, hobj, hdelref, C.bind_ok, C.pure_eq]

/-! ## Concrete runs -/

/-- A connection that one bucket holds. -/
def oneHolder : PcbcConnection := ⟨.bucket, ascii "couchbase://localhost/default", [], 1, 0⟩

/-- `$bucket`, opened on it. -/
def bucketVar : LifeState := .opened (fun _ => none) 0 oneHolder

/-- The bucket and a builder, while `$bucket` is set. -/
def withBuilder (cls : BuilderClass) : LifeState := builderInit cls bucketVar

/-- `unset($bucket)` when nothing else holds it. -/
def freedBucket : LifeState where
  heap := bucketVar.heap.set 0 (some (oneHolder.released 7))
  bucket := ⟨0, some 0, 1⟩
  userRefs := 0
  builders := []

/-- The builder is dropped first: the run ends with the bucket freed. -/
def builderFirst : List (LifeEvent × LifeState) :=
  [(.make .lookupIn, withBuilder .lookupIn), (.dropBuilder 0, bucketVar), (.drop 7, freedBucket)]

theorem path_builderFirst : Path LifeStep bucketVar builderFirst := by
  refine .cons ⟨Nat.one_pos, rfl⟩ (.cons ⟨Nat.one_pos, rfl⟩ (.cons ⟨Nat.one_pos, ?_⟩ (.nil _)))
  exact step_drop (counted_opened (fun _ => none) 0 oneHolder) Nat.one_pos rfl 7

theorem builderFirst_lifetime : BucketLifetime 0 oneHolder freedBucket := by
  have hlife := (bucket_lifetime_iff (fun _ => none) 0 oneHolder path_builderFirst).mpr
    ⟨id, fun h => absurd h.1 (by decide), id, trivial⟩
  exact hlife (.drop 7, freedBucket) (by simp [builderFirst])

/-- `$builder = $cluster->openBucket()->mutateIn("id")`: the temporary bucket is dropped. -/
def builderOnly : LifeState := { (withBuilder .mutateIn).setRefcount 1 with userRefs := 0 }

/-- Then `unset($builder)`. -/
def leakedBucket : LifeState where
  heap := bucketVar.heap
  bucket := ⟨0, some 0, 0⟩
  userRefs := 0
  builders := []

/-- **A builder outlives the bucket's variable.**  When it is dropped, no reference is left, the
counter is 0, the free handler did not run, and the connection still counts the bucket. -/
theorem builder_outlives :
    Path LifeStep bucketVar
      [(.make .mutateIn, withBuilder .mutateIn), (.drop 7, builderOnly),
        (.dropBuilder 0, leakedBucket)] ∧
    leakedBucket.references = 0 ∧ leakedBucket.bucket.freeCalls = 0 ∧
    leakedBucket.heap 0 = some oneHolder ∧ ¬BucketLifetime 0 oneHolder leakedBucket := by
  refine ⟨.cons ⟨Nat.one_pos, rfl⟩ (.cons ⟨Nat.one_pos, rfl⟩ (.cons ⟨Nat.one_pos, rfl⟩ (.nil _))), rfl,
    rfl, rfl, fun h => ?_⟩
  have hfreed : (0 : Nat) = 1 := h.freed
  cases hfreed

end PhpCouchbase
