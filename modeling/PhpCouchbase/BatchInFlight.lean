import PhpCouchbase.BatchResults
import PhpCouchbase.Lib.StepSystem

/-!
# What is in flight between two calls

The commands of a call (`bucket/get.c` and its siblings) wait in the connection until `lcb_wait`
runs their callbacks, and `lcb_wait` runs the callbacks of everything that is pending.  A call that
throws from the middle of its loop does not wait, so what it had scheduled is answered during a
later call.

* `batch_settled_iff` — **exactly when** one call leaves nothing behind.
* `no_operation_in_flight` — **exactly when** a run of calls never leaves a command in flight nor
  delivers a response to the cookie of another call.
-/

set_option autoImplicit false

namespace PhpCouchbase

open EarlyExit StepSystem

/-! ## One call -/

/-- An entry other than the first fails a check, and every entry before it is scheduled. -/
def RejectedLate (m : BatchMethod) (w : World) (st : PpState) : Prop :=
  ∃ k e, 0 < k ∧ (∀ j, j < k → ∃ cmd, ScheduledAt m w st j cmd) ∧
    (ppEntries st)[k]? = some (.ok e) ∧ (rejection m.checks e).isSome = true

theorem entryValue_ne_invalid {m : BatchMethod} {w : World} {k : Nat} {e : PpEntry} (exn : Exn) :
    entryValue m w k e ≠ .ok (.inl (.invalid exn)) := by
  intro h
  unfold entryValue at h
  split at h
  · split at h
    · cases h
    · split at h
      · cases h
      · split at h <;> cases h
  · cases h

/-- A check ends the loop exactly when it is the first that the entry fails. -/
theorem batchEntry_invalid {m : BatchMethod} {w : World} {k : Nat} {entry : C PpEntry} {exn : Exn}
    (h : batchEntry m w k entry = .ok (.inl (.invalid exn))) :
    ∃ e, entry = .ok e ∧ rejection m.checks e = some exn := by
  unfold batchEntry at h
  obtain ⟨e, he, h⟩ := C.bind_eq_ok.mp h
  refine ⟨e, he, ?_⟩
  split at h
  · rename_i exn' hrej
    cases h
    exact hrej
  · obtain ⟨v, hv, h⟩ := C.bind_eq_ok.mp h
    split at h
    · cases h
      exact absurd hv (entryValue_ne_invalid exn)
    · obtain ⟨cmd, -, h⟩ := C.bind_eq_ok.mp h
      split at h <;> cases h

theorem rejectedLate_iff {m : BatchMethod} {w : World} {st : PpState} :
    RejectedLate m w st ↔ ∃ k exn, 0 < k ∧ StopsAt m w st k (.invalid exn) := by
  constructor
  · rintro ⟨k, e, hk, hbefore, he, hrej⟩
    obtain ⟨exn, hexn⟩ := Option.isSome_iff_exists.mp hrej
    refine ⟨k, exn, hk, hbefore, .ok e, he, ?_⟩
    show (Except.ok e >>= _ : C (Stop ⊕ Command)) = _
    rw [C.bind_ok, hexn]
    rfl
  · rintro ⟨k, exn, hk, hbefore, entry, he, hb⟩
    obtain ⟨e, rfl, hrej⟩ := batchEntry_invalid hb
    exact ⟨k, e, hk, hbefore, he, by rw [hrej]; rfl⟩

/-- **One call** waits for what it scheduled, or scheduled nothing, exactly when no entry is
rejected late. -/
theorem batch_settled_iff {m : BatchMethod} {w : World} {args : List Zval} {st : PpState}
    {run : BatchRun} (hst : ppBegin m.spec args = some st) (hrun : batch m w args = .ok run) :
    (run.waited = true ∨ run.scheduled = []) ↔ ¬ RejectedLate m w st := by
  have hwaited : ∀ cmds stop, batch m w args = waitedRun m w st cmds stop → run.waited = true := by
    intro cmds stop h
    rw [h] at hrun
    obtain ⟨r, -, hrun⟩ := C.bind_eq_ok.mp hrun
    cases hrun
    rfl
  -- a loop that stopped at an entry for another reason did not stop at a failed check
  have hother : ∀ l s, StopsAt m w st l s → (∀ e, s ≠ .invalid e) →
      ¬ ∃ k exn, 0 < k ∧ StopsAt m w st k (.invalid exn) := by
    rintro l s hstop hs ⟨k, exn, -, hstop'⟩
    exact hs exn (hstop.unique hstop').2
  rw [rejectedLate_iff]
  cases callEnd w hst with
  | fault f h =>
    rw [h] at hrun
    cases hrun
  | rejected cmds exn h hstop =>
    rw [h] at hrun
    cases hrun
    constructor
    · rintro hor ⟨k, exn', hk, hstop'⟩
      obtain ⟨hlen, -⟩ := hstop.unique hstop'
      rcases hor with hw | hnil
      · cases hw
      · have hzero : cmds.length = 0 := List.length_eq_zero_iff.mpr hnil
        omega
    · intro hlate
      right
      by_contra hne
      apply hlate
      exact ⟨cmds.length, exn, List.length_pos_iff.mpr hne, hstop⟩
  | refused s e h hstop hs =>
    rw [h] at hrun
    cases hrun
    exact iff_of_true (Or.inr rfl) (hother 0 s hstop hs)
  | empty h hzero =>
    have hnil : run.scheduled = [] := by
      rw [h] at hrun
      split at hrun
      · cases hrun
      · cases hrun
        rfl
    refine iff_of_true (Or.inr hnil) ?_
    rintro ⟨k, exn, -, hstop⟩
    exact hstop.not_allScheduled fun j hj => by omega
  | cut cmds s h hne hcol hstop hs =>
    exact iff_of_true (Or.inl (hwaited cmds _ h)) (hother _ s hstop hs)
  | complete cmds h hne hcol hlen hall =>
    refine iff_of_true (Or.inl (hwaited cmds _ h)) ?_
    rintro ⟨k, exn, -, hstop⟩
    exact hstop.not_allScheduled hall

/-! ## Runs of calls -/

/-- A callback: the cookie it pushes to, its command, and the cookie of the call that waits. -/
structure Completion where
  cookie : Nat
  command : Command
  during : Nat
  deriving DecidableEq

/-- The connection of a bucket between two calls, with a record of what was scheduled and completed
so far. -/
structure Connection where
  inFlight : List (Nat × Command)
  nextCookie : Nat
  scheduled : List (Nat × Command)
  completed : List Completion

def Connection.opened : Connection := ⟨[], 0, [], []⟩

/-- A call of a key-value method. -/
structure Call where
  op : Operation
  world : World
  args : List Zval

/-- The commands of a call with its cookie. -/
def Connection.tag (conn : Connection) (run : BatchRun) : List (Nat × Command) :=
  run.scheduled.map fun cmd => (conn.nextCookie, cmd)

/-- `lcb_wait`: the callbacks come in any order. -/
def Connection.wait (conn : Connection) (run : BatchRun) (order : List (Nat × Command)) :
    Connection where
  inFlight := []
  nextCookie := conn.nextCookie + 1
  scheduled := conn.scheduled ++ conn.tag run
  completed := conn.completed ++ order.map fun p => ⟨p.1, p.2, conn.nextCookie⟩

/-- A return without waiting. -/
def Connection.leave (conn : Connection) (run : BatchRun) : Connection where
  inFlight := conn.inFlight ++ conn.tag run
  nextCookie := conn.nextCookie + 1
  scheduled := conn.scheduled ++ conn.tag run
  completed := conn.completed

/-- A call that returns, with or without an exception. -/
inductive CallStep : Connection → Call → Connection → Prop where
  | waits {conn : Connection} {call : Call} {run : BatchRun} {order : List (Nat × Command)}
      (h : batch call.op.method call.world call.args = .ok run) (hw : run.waited = true)
      (horder : order.Perm (conn.inFlight ++ conn.tag run)) :
      CallStep conn call (conn.wait run order)
  | leaves {conn : Connection} {call : Call} {run : BatchRun}
      (h : batch call.op.method call.world call.args = .ok run) (hw : run.waited = false) :
      CallStep conn call (conn.leave run)

/-- **Nothing is in flight**: every scheduled command is completed, once, and each completion went
to the cookie of the call that was waiting. -/
structure Quiet (conn : Connection) : Prop where
  inFlight : conn.inFlight = []
  all : conn.scheduled.Perm (conn.completed.map fun d => (d.cookie, d.command))
  own : ∀ d ∈ conn.completed, d.cookie = d.during

/-- No entry of the call is rejected late. -/
def CleanCall (call : Call) : Prop :=
  ∀ st, ppBegin call.op.method.spec call.args = some st →
    ¬ RejectedLate call.op.method call.world st

theorem Quiet.opened : Quiet .opened := ⟨rfl, List.Perm.refl _, by simp [Connection.opened]⟩

theorem Quiet.wait {conn : Connection} (hq : Quiet conn) {run : BatchRun}
    {order : List (Nat × Command)} (horder : order.Perm (conn.inFlight ++ conn.tag run)) :
    Quiet (conn.wait run order) := by
  rw [hq.inFlight, List.nil_append] at horder
  constructor
  · rfl
  · show (conn.scheduled ++ conn.tag run).Perm _
    simp only [Connection.wait, List.map_append, List.map_map]
    have hid : (order.map ((fun d : Completion => (d.cookie, d.command)) ∘ fun p =>
        (⟨p.1, p.2, conn.nextCookie⟩ : Completion))) = order := List.map_id _
    rw [hid]
    exact hq.all.append horder.symm
  · intro d hd
    rcases List.mem_append.mp hd with hd | hd
    · exact hq.own d hd
    · obtain ⟨p, hp, rfl⟩ := List.mem_map.mp hd
      obtain ⟨cmd, -, rfl⟩ := List.mem_map.mp (horder.mem_iff.mp hp)
      rfl

theorem quiet_leave_iff {conn : Connection} (hq : Quiet conn) {run : BatchRun} :
    Quiet (conn.leave run) ↔ run.scheduled = [] := by
  constructor
  · intro h
    have hnil := h.inFlight
    rw [Connection.leave, hq.inFlight, List.nil_append] at hnil
    exact List.map_eq_nil_iff.mp hnil
  · intro h
    have htag : conn.tag run = [] := by rw [Connection.tag, h, List.map_nil]
    refine ⟨?_, ?_, hq.own⟩
    · rw [Connection.leave, hq.inFlight, htag]
      rfl
    · show (conn.scheduled ++ conn.tag run).Perm _
      rw [htag, List.append_nil]
      exact hq.all

/-- A call whose arguments cannot be parsed schedules nothing. -/
theorem batch_unparsed {m : BatchMethod} {w : World} {args : List Zval} {run : BatchRun}
    (hst : ppBegin m.spec args = none) (hrun : batch m w args = .ok run) :
    run.waited = false ∧ run.scheduled = [] := by
  unfold batch at hrun
  rw [hst] at hrun
  cases hrun
  exact ⟨rfl, rfl⟩

/-- **One step**: a quiet connection stays quiet exactly under a clean call. -/
theorem quiet_step_iff {conn conn' : Connection} {call : Call} (hq : Quiet conn)
    (hstep : CallStep conn call conn') : Quiet conn' ↔ CleanCall call := by
  have hclean : ∀ run, batch call.op.method call.world call.args = .ok run →
      (CleanCall call ↔ run.waited = true ∨ run.scheduled = []) := by
    intro run hrun
    cases hst : ppBegin call.op.method.spec call.args with
    | none =>
      obtain ⟨-, hnil⟩ := batch_unparsed hst hrun
      simp [CleanCall, hst, hnil]
    | some st =>
      rw [batch_settled_iff hst hrun]
      simp [CleanCall, hst]
  cases hstep with
  | @waits run order hrun hw horder =>
    rw [hclean run hrun]
    exact iff_of_true (hq.wait horder) (Or.inl hw)
  | @leaves run hrun hw =>
    rw [hclean run hrun, quiet_leave_iff hq, hw]
    simp

/-- **Exactly when no operation is left in flight**: in a run of calls of any operations with any
entries, every state reached is quiet if and only if every call is clean. -/
theorem no_operation_in_flight {p : List (Call × Connection)}
    (hp : Path CallStep .opened p) : (∀ x ∈ p, Quiet x.2) ↔ ∀ x ∈ p, CleanCall x.1 := by
  rw [← meets_label_iff (s := Connection.opened)]
  apply hp.forall_iff_meets Quiet.opened
  intro conn call conn' hq hstep
  exact quiet_step_iff hq hstep

/-! ## Concrete runs -/

/-- `get("a")` -/
def getCall : Call := ⟨.get, plainWorld fun _ _ => .success, [.string (ascii "a")]⟩

/-- `upsert(["a" => ["value" => "v"], "b" => ["value" => "v", "expiry" => "soon"]])` -/
def lateCall : Call where
  op := .upsert
  world := plainWorld fun _ _ => .success
  args := [.array [
    (.str (ascii "a"), .array [(.str (ascii "value"), .string (ascii "v"))]),
    (.str (ascii "b"), .array [(.str (ascii "value"), .string (ascii "v")),
      (.str (ascii "expiry"), .string (ascii "soon"))])]]

/-- The command of `getCall`. -/
def getCommand : Command := .get (ascii "a") false 0 none

/-- The command of the first entry of `lateCall`. -/
def lateCommand : Command :=
  .store false ⟨.set, ascii "a", ⟨ascii "v", 0, 0⟩, 0, 0, none, 0, 0⟩

/-- The connection after `getCall` alone. -/
def afterGet : Connection := ⟨[], 1, [(0, getCommand)], [⟨0, getCommand, 0⟩]⟩

/-- The connection after `lateCall`. -/
def afterLate : Connection := ⟨[(0, lateCommand)], 1, [(0, lateCommand)], []⟩

/-- The connection after `lateCall` and `getCall`. -/
def afterBoth : Connection where
  inFlight := []
  nextCookie := 2
  scheduled := [(0, lateCommand), (1, getCommand)]
  completed := [⟨0, lateCommand, 1⟩, ⟨1, getCommand, 1⟩]

/-- What `getCall` does. -/
def getRun : BatchRun where
  scheduled := [getCommand]
  waited := true
  outcome := .returned (.document
    { value := .string (ascii "v"), flags := .long 0, cas := casEncode 1 })

/-- What `lateCall` does. -/
def lateRun : BatchRun :=
  ⟨[lateCommand], false, .thrown (.pcbc "expiry must be an integer" .einval)⟩

theorem callStep_get (conn : Connection) (order : List (Nat × Command))
    (h : order.Perm (conn.inFlight ++ conn.tag getRun)) :
    CallStep conn getCall (conn.wait getRun order) := by
  apply CallStep.waits _ rfl h
  rfl

theorem cleanCall_get : CleanCall getCall := by
  rintro st hst ⟨k, e, hk, -, he, -⟩
  cases hst
  obtain ⟨j, rfl⟩ : ∃ j, k = j + 1 := ⟨k - 1, by omega⟩
  cases he

/-- One `get` leaves nothing in flight. -/
theorem get_is_quiet : Quiet afterGet := by
  have hget : CallStep .opened getCall afterGet :=
    callStep_get .opened [(0, getCommand)] (List.Perm.refl _)
  refine (no_operation_in_flight (.cons hget (.nil _))).mpr ?_ (getCall, _)
    (List.mem_singleton_self _)
  intro x hx
  rw [List.mem_singleton.mp hx]
  exact cleanCall_get

/-- **A late rejection leaves a command in flight**: `upsert` throws at its second entry, the
command of the first entry is sent, and its response comes during the next call, to the cookie of
`upsert`. -/
theorem late_rejection_stays_in_flight :
    Path CallStep .opened [(lateCall, afterLate), (getCall, afterBoth)] ∧
    afterLate.inFlight = [(0, lateCommand)] ∧ ⟨0, lateCommand, 1⟩ ∈ afterBoth.completed ∧
    ¬ Quiet afterLate ∧ ¬ Quiet afterBoth := by
  have hbatch : batch lateCall.op.method lateCall.world lateCall.args = .ok lateRun := rfl
  have hlate : CallStep .opened lateCall afterLate := CallStep.leaves hbatch rfl
  have hget : CallStep afterLate getCall afterBoth :=
    callStep_get afterLate [(0, lateCommand), (1, getCommand)] (List.Perm.refl _)
  refine ⟨.cons hlate (.cons hget (.nil _)), rfl, List.mem_cons_self, ?_, ?_⟩
  · intro h
    cases h.inFlight
  · intro h
    have hown := h.own ⟨0, lateCommand, 1⟩ List.mem_cons_self
    cases hown

end PhpCouchbase
