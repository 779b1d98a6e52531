import PhpCouchbase.BatchResults

/-!
# Optional arguments

The parser (`paramparser.c`) leaves a null pointer for an argument that is not given, and an
argument may have any type.  A loop body (`bucket/get.c` and its siblings) may follow the pointer
and read the value only after it has looked at both.

* `ReadsOnlyGiven` — an entry is turned into a command from what it gives alone.
* `readsOnlyGiven_iff` — for each method, when that is so.
* `run_readsOnlyGiven` — such a loop has no fault and does not depend on what is behind other values.
* `optional_arguments_iff` — all calls of all methods, and what `insert` and `upsert` accept.
-/

set_option autoImplicit false

namespace PhpCouchbase

open EarlyExit

/-! ## Reading -/

/-- The entry gives the argument a method follows, and the values that are read as longs are longs:
the command is there for any encoded value, and what `Z_LVAL` reads of other values is not in it. -/
structure ReadsOnlyGiven (m : BatchMethod) (e : PpEntry) : Prop where
  value : m.encodes = true → e.arg "value" ≠ none
  defined : ∀ lval value, ∃ cmd, m.command lval e value = .ok cmd
  typed : ∀ lval lval' value, (∀ n, lval (.long n) = lval' (.long n)) →
    m.command lval e value = m.command lval' e value

/-- An argument that is given has the type. -/
def HasKind (kind : CheckKind) (z : Option Zval) : Prop := ∀ v, z = some v → kind.accepts v = true

/-- What an entry that passes the checks has to give. -/
def OptionsGiven (e : PpEntry) : Operation → Prop
  | .touch => e.arg "expiry" ≠ none
  | .insert => e.arg "value" ≠ none ∧ HasKind .long (e.arg "persist_to") ∧
      HasKind .long (e.arg "replicate_to")
  | .upsert | .replace | .append | .prepend => e.arg "value" ≠ none
  | _ => True

theorem failure_eq_none_iff (c : Check) (e : PpEntry) :
    c.failure e = none ↔ HasKind c.kind (e.arg c.arg) := by
  unfold Check.failure HasKind
  cases e.arg c.arg with
  | none => simp
  | some v => simp

/-- An entry passes the checks when every argument that is checked and given has its type. -/
theorem rejection_eq_none_iff {checks : List Check} {e : PpEntry} :
    rejection checks e = none ↔ ∀ c ∈ checks, HasKind c.kind (e.arg c.arg) := by
  rw [rejection, List.findSome?_eq_none_iff]
  exact forall₂_congr fun c _ => failure_eq_none_iff c e

theorem hasKind_of_rejection {checks : List Check} {e : PpEntry} (h : rejection checks e = none)
    {c : Check} (hc : c ∈ checks) : HasKind c.kind (e.arg c.arg) :=
  rejection_eq_none_iff.mp h c hc

section Congr

variable {e : PpEntry} {lval lval' : Zval → Int64} (hlval : ∀ n, lval (.long n) = lval' (.long n))

include hlval

theorem lval_congr {z : Option Zval} (h : HasKind .long z) {v : Zval} (hv : z = some v) :
    lval v = lval' v := by
  have hkind := h v hv
  cases v with
  | long n => exact hlval n
  | _ => cases hkind

theorem exptime_congr {arg : String} (h : HasKind .long (e.arg arg)) :
    exptime lval e arg = exptime lval' e arg := by
  unfold exptime
  cases harg : e.arg arg with
  | none => rfl
  | some v =>
    show (lval v).toUInt64.toUInt32 = _
    rw [lval_congr hlval h harg]

theorem durability_congr {arg : String} (h : HasKind .long (e.arg arg)) :
    durability lval e arg = durability lval' e arg := by
  unfold durability
  cases harg : e.arg arg with
  | none => rfl
  | some v =>
    show (lval v).toInt8 = _
    rw [lval_congr hlval h harg]

end Congr

/-- A `groupid` that passes its check can be read. -/
theorem hashkey_of_hasKind {e : PpEntry} (h : HasKind .string (e.arg "groupid")) :
    ∃ hash, hashkey e = .ok hash := by
  unfold hashkey
  cases harg : e.arg "groupid" with
  | none => exact ⟨none, rfl⟩
  | some v =>
    have hkind := h v harg
    cases v with
    | string s => exact ⟨some s, rfl⟩
    | _ => cases hkind

/-- Every method checks the `groupid`. -/
theorem Operation.checks_groupid (op : Operation) : checkString "groupid" ∈ op.method.checks := by
  cases op <;> first
    | exact List.mem_iff_getElem?.mpr ⟨1, rfl⟩
    | exact List.mem_iff_getElem?.mpr ⟨2, rfl⟩
    | exact List.mem_iff_getElem?.mpr ⟨3, rfl⟩

/-! ## One entry -/

section Entries

variable {e : PpEntry}

/-- A method whose command is filled behind the hash key. -/
theorem readsOnlyGiven_of_hashkey {m : BatchMethod}
    {f : (Zval → Int64) → EncodedValue → Option Bytes → Command}
    (hf : ∀ lval value, m.command lval e value = (do return f lval value (← hashkey e)))
    (hvalue : m.encodes = true → e.arg "value" ≠ none) (hgroup : HasKind .string (e.arg "groupid"))
    (hlval : ∀ lval lval' : Zval → Int64, (∀ n, lval (.long n) = lval' (.long n)) →
      ∀ value hash, f lval value hash = f lval' value hash) : ReadsOnlyGiven m e := by
  obtain ⟨hash, hhash⟩ := hashkey_of_hasKind hgroup
  refine ⟨hvalue, fun lval value => ⟨f lval value hash, ?_⟩, fun lval lval' value h => ?_⟩
  · rw [hf, hhash]
    rfl
  · rw [hf, hf, hhash, C.bind_ok, C.bind_ok, hlval lval lval' h]

/-- The store methods read their options as longs. -/
theorem readsOnlyGiven_store {operation : StoreOperation} {named : List String}
    {checks : List Check} {errInit : Option LcbError} {flagged : Bool}
    (hvalue : e.arg "value" ≠ none) (hgroup : HasKind .string (e.arg "groupid"))
    (hexpiry : HasKind .long (e.arg "expiry")) (hflags : flagged = true → HasKind .long (e.arg "flags"))
    (hpersist : HasKind .long (e.arg "persist_to"))
    (hreplica : HasKind .long (e.arg "replicate_to")) :
    ReadsOnlyGiven (storeMethod operation named checks errInit flagged) e := by
  refine readsOnlyGiven_of_hashkey (fun lval value => rfl) (fun _ => hvalue) hgroup ?_
  intro lval lval' h value hash
  simp only [exptime_congr h hexpiry, durability_congr h hpersist, durability_congr h hreplica]
  cases flagged with
  | false => rfl
  | true =>
    cases harg : e.arg "flags" with
    | none => rfl
    | some v => simp only [lval_congr h (hflags rfl) harg]

theorem hasKind_of_undeclared {spec : ParamSpec} (h : OrderedMap.keys e.vals = spec.names)
    {name : String} (hname : name ∉ spec.names) (kind : CheckKind) : HasKind kind (e.arg name) := by
  rw [arg_of_undeclared h hname]
  intro v hv
  cases hv

/-- What an entry gives is enough. -/
theorem OptionsGiven.readsOnlyGiven {op : Operation}
    (hkeys : OrderedMap.keys e.vals = op.method.spec.names)
    (hpass : rejection op.method.checks e = none) (h : OptionsGiven e op) :
    ReadsOnlyGiven op.method e := by
  have hgroup : HasKind .string (e.arg "groupid") :=
    hasKind_of_rejection hpass op.checks_groupid
  have hlong : ∀ (i : Nat) arg, op.method.checks[i]? = some (checkLong arg) →
      HasKind .long (e.arg arg) :=
    fun i arg hc => hasKind_of_rejection hpass (List.mem_of_getElem? hc)
  have hnot : ∀ arg, arg ∉ op.method.spec.names → HasKind .long (e.arg arg) :=
    fun arg hname => hasKind_of_undeclared hkeys hname .long
  cases op with
  | get =>
    have hlock := hlong 0 "lockTime" rfl
    have hexpiry := hlong 1 "expiry" rfl
    refine readsOnlyGiven_of_hashkey (fun lval value => rfl) (fun h => absurd h Bool.false_ne_true) hgroup ?_
    intro lval lval' hlval value hash
    simp only [exptime_congr hlval hlock, exptime_congr hlval hexpiry]
  | getFromReplica =>
    have hindex := hlong 0 "index" rfl
    refine readsOnlyGiven_of_hashkey (fun lval value => rfl) (fun h => absurd h Bool.false_ne_true) hgroup ?_
    intro lval lval' hlval value hash
    cases harg : e.arg "index" with
    | none => rfl
    | some v => simp only [lval_congr hlval hindex harg]
  | insert =>
    exact readsOnlyGiven_store h.1 hgroup (hlong 0 "expiry" rfl)
      (fun _ => hlong 1 "flags" rfl) h.2.1 h.2.2
  | upsert =>
    exact readsOnlyGiven_store h hgroup (hlong 0 "expiry" rfl)
      (fun _ => hlong 1 "flags" rfl)
      (hlong 3 "persist_to" rfl)
      (hlong 4 "replicate_to" rfl)
  | replace =>
    exact readsOnlyGiven_store h hgroup (hlong 1 "expiry" rfl)
      (fun _ => hlong 2 "flags" rfl)
      (hlong 4 "persist_to" rfl)
      (hlong 5 "replicate_to" rfl)
  | append | prepend =>
    exact readsOnlyGiven_store h hgroup (hnot "expiry" (by decide)) (fun h => absurd h Bool.false_ne_true)
      (hlong 2 "persist_to" rfl)
      (hlong 3 "replicate_to" rfl)
  | remove | unlock =>
    exact readsOnlyGiven_of_hashkey (fun lval value => rfl) (fun h => absurd h Bool.false_ne_true) hgroup
      fun _ _ _ _ _ => rfl
  | touch =>
    obtain ⟨v, hv⟩ := Option.ne_none_iff_exists'.mp h
    have hexpiry := hlong 0 "expiry" rfl
    refine readsOnlyGiven_of_hashkey (f := fun lval _ hash =>
      .touch e.id (lval v).toUInt64.toUInt32 hash) (fun lval value => ?_) (fun h => absurd h Bool.false_ne_true)
      hgroup ?_
    · simp only [Operation.method, PhpCouchbase.touch, hv]
    · intro lval lval' hlval value hash
      simp only [lval_congr hlval hexpiry hv]
  | counter =>
    have hdelta := hlong 0 "delta" rfl
    have hinitial := hlong 1 "initial" rfl
    have hexpiry := hlong 2 "expiry" rfl
    refine readsOnlyGiven_of_hashkey (fun lval value => rfl) (fun h => absurd h Bool.false_ne_true) hgroup ?_
    intro lval lval' hlval value hash
    have hmap : ∀ g : Int64 → UInt64, (e.arg "initial").map (fun v => g (lval v)) =
        (e.arg "initial").map fun v => g (lval' v) := fun g => Option.map_congr fun v hv => by
      rw [lval_congr hlval hinitial hv]
    simp only [exptime_congr hlval hexpiry, hmap]
    cases hd : e.arg "delta" with
    | none => rfl
    | some d => simp only [lval_congr hlval hdelta hd]

/-- A durability that is read as a long is one: what `Z_LVAL` reads of anything else is in the
command. -/
theorem hasKind_of_durability {arg : String}
    (h : ∀ lval lval' : Zval → Int64, (∀ n, lval (.long n) = lval' (.long n)) →
      durability lval e arg = durability lval' e arg) : HasKind .long (e.arg arg) := by
  intro v hv
  cases v with
  | long n => rfl
  | _ =>
    have hsame := h (fun _ => 0) (fun z => if CheckKind.long.accepts z then 0 else 1) fun n => rfl
    simp only [durability, hv] at hsame
    have hbits : (0 : Int64).toInt8 = (1 : Int64).toInt8 := hsame
    exact absurd hbits (by decide)

/-- **When an entry that passes the checks is read safely.** -/
theorem readsOnlyGiven_iff {op : Operation} (hkeys : OrderedMap.keys e.vals = op.method.spec.names)
    (hpass : rejection op.method.checks e = none) :
    ReadsOnlyGiven op.method e ↔ OptionsGiven e op := by
  refine ⟨fun h => ?_, fun h => h.readsOnlyGiven hkeys hpass⟩
  cases op with
  | touch =>
    intro hnone
    obtain ⟨cmd, hcmd⟩ := h.defined (fun _ => 0) ⟨[], 0, 0⟩
    simp only [Operation.method, PhpCouchbase.touch, hnone] at hcmd
    cases hcmd
  | insert =>
    obtain ⟨hash, hhash⟩ := hashkey_of_hasKind (hasKind_of_rejection hpass
      (Operation.checks_groupid .insert))
    -- the two commands differ in nothing but what was read
    have hcommand : ∀ lval lval' : Zval → Int64, (∀ n, lval (.long n) = lval' (.long n)) →
        durability lval e "persist_to" = durability lval' e "persist_to" ∧
          durability lval e "replicate_to" = durability lval' e "replicate_to" := by
      intro lval lval' hlval
      have hsame := h.typed lval lval' ⟨[], 0, 0⟩ hlval
      simp only [Operation.method, PhpCouchbase.insert, storeMethod, hhash, C.bind_ok, C.pure_eq,
        Except.ok.injEq, Command.store.injEq, StoreCommand.mk.injEq] at hsame
      exact hsame.2.2.2.2.2.2.2
    exact ⟨h.value rfl, hasKind_of_durability fun lval lval' hlval => (hcommand lval lval' hlval).1,
      hasKind_of_durability fun lval lval' hlval => (hcommand lval lval' hlval).2⟩
  | upsert | replace | append | prepend => exact h.value rfl
  | _ => trivial

end Entries

/-! ## The loop -/

/-- The loop comes to entry number `k`. -/
def Reached (m : BatchMethod) (w : World) (st : PpState) (k : Nat) : Prop :=
  ∀ j, j < k → ∃ cmd, ScheduledAt m w st j cmd

/-- **The loop bodies of a call read safely**: every entry that is reached and passes the checks. -/
def CallReadsOnlyGiven (m : BatchMethod) (w : World) (args : List Zval) : Prop :=
  ∀ st, ppBegin m.spec args = some st → ∀ k e, Reached m w st k →
    (ppEntries st)[k]? = some (.ok e) → rejection m.checks e = none → ReadsOnlyGiven m e

/-- What the entries of a call have to give. -/
def CallOptionsGiven (op : Operation) (w : World) (args : List Zval) : Prop :=
  ∀ st, ppBegin op.method.spec args = some st → ∀ k e, Reached op.method w st k →
    (ppEntries st)[k]? = some (.ok e) → rejection op.method.checks e = none → OptionsGiven e op

theorem callReadsOnlyGiven_iff (op : Operation) (w : World) (args : List Zval) :
    CallReadsOnlyGiven op.method w args ↔ CallOptionsGiven op w args := by
  refine forall_congr' fun st => forall_congr' fun hst => forall_congr' fun k => forall_congr' fun e =>
    forall_congr' fun _ => forall_congr' fun he => forall_congr' fun hpass => ?_
  exact readsOnlyGiven_iff (keys_of_mem_ppEntries hst (List.mem_of_getElem? he)) hpass

/-- The body of the loop on an entry that is read safely has no fault. -/
theorem ReadsOnlyGiven.batchEntry_ok {m : BatchMethod} {e : PpEntry}
    (h : rejection m.checks e = none → ReadsOnlyGiven m e) (w : World) (k : Nat) :
    ∃ r, batchEntry m w k (.ok e) = .ok r := by
  rw [batchEntry, C.bind_ok]
  split
  · exact ⟨_, rfl⟩
  · rename_i hpass
    have hsafe := h hpass
    have hvalue : ∃ v, entryValue m w k e = .ok v := by
      unfold entryValue
      split
      · rename_i hencodes
        obtain ⟨v, hv⟩ := Option.ne_none_iff_exists'.mp (hsafe.value hencodes)
        rw [hv]
        dsimp only
        split
        · exact ⟨_, rfl⟩
        · split <;> exact ⟨_, rfl⟩
      · exact ⟨_, rfl⟩
    obtain ⟨v, hv⟩ := hvalue
    rw [hv, C.bind_ok]
    cases v with
    | inl stop => exact ⟨_, rfl⟩
    | inr value =>
      obtain ⟨cmd, hcmd⟩ := hsafe.defined w.lval value
      simp only [hcmd, C.bind_ok]
      split <;> exact ⟨_, rfl⟩

/-- Nor does it depend on what is behind a value that is no long. -/
theorem ReadsOnlyGiven.batchEntry_eq {m : BatchMethod} {e : PpEntry}
    (h : rejection m.checks e = none → ReadsOnlyGiven m e) (w : World) (bits : Zval → Int64) (k : Nat) :
    batchEntry m w k (.ok e) = batchEntry m { w with lvalBits := bits } k (.ok e) := by
  rw [batchEntry, batchEntry, C.bind_ok, C.bind_ok]
  split
  · rfl
  · rename_i hpass
    have hvalue : entryValue m { w with lvalBits := bits } k e = entryValue m w k e := rfl
    rw [hvalue]
    refine congrArg (entryValue m w k e >>= ·) (funext fun v => ?_)
    cases v with
    | inl stop => rfl
    | inr value =>
      have hcmd := (h hpass).typed w.lval { w with lvalBits := bits }.lval value fun n => rfl
      simp only [hcmd]

/-- **A loop that reads safely** has no fault of its own, and no memory behind a value that is no
long is in what it does. -/
theorem run_readsOnlyGiven {m : BatchMethod} {w : World} {args : List Zval} {st : PpState}
    (hst : ppBegin m.spec args = some st) (h : CallReadsOnlyGiven m w args)
    (hids : ∀ k f, Reached m w st k → (ppEntries st)[k]? ≠ some (.error f)) :
    (∃ r, EarlyExit.run (batchEntry m w) 0 (ppEntries st) = .ok r) ∧
      ∀ bits, EarlyExit.run (batchEntry m w) 0 (ppEntries st) =
        EarlyExit.run (batchEntry m { w with lvalBits := bits }) 0 (ppEntries st) := by
  constructor
  · cases hrun : EarlyExit.run (batchEntry m w) 0 (ppEntries st) with
    | ok r => exact ⟨r, rfl⟩
    | error f =>
      obtain ⟨k, entry, f', hpassed, hentry, hbody⟩ := run_error_iff.mp ⟨f, hrun⟩
      have hreached : Reached m w st k := passedBefore_iff.mp hpassed
      cases entry with
      | error f₁ => exact absurd hentry (hids k f₁ hreached)
      | ok e =>
        obtain ⟨r, hr⟩ := ReadsOnlyGiven.batchEntry_ok (h st hst k e hreached hentry) w (0 + k)
        rw [hr] at hbody
        cases hbody
  · intro bits
    refine run_congr fun k entry hentry hpassed => ?_
    have hreached : Reached m w st k := passedBefore_iff.mp hpassed
    cases entry with
    | error f => exact absurd hentry (hids k f hreached)
    | ok e => exact ReadsOnlyGiven.batchEntry_eq (h st hst k e hreached hentry) w bits (0 + k)

/-! ## `insert` and `upsert` -/

/-- No argument of the call is rejected. -/
def Accepts (m : BatchMethod) (args : List Zval) : Prop :=
  ∃ st, ppBegin m.spec args = some st ∧ ∀ e, .ok e ∈ ppEntries st → rejection m.checks e = none

/-- The durabilities of every entry are longs. -/
def DurabilitiesAreLongs (args : List Zval) : Prop :=
  ∀ st, ppBegin upsert.spec args = some st → ∀ e, .ok e ∈ ppEntries st →
    HasKind .long (e.arg "persist_to") ∧ HasKind .long (e.arg "replicate_to")

/-- `upsert` checks what `insert` checks and the two durabilities. -/
theorem rejection_upsert_iff (e : PpEntry) :
    rejection upsert.checks e = none ↔ rejection insert.checks e = none ∧
      HasKind .long (e.arg "persist_to") ∧ HasKind .long (e.arg "replicate_to") := by
  have hchecks : upsert.checks =
      insert.checks ++ [checkLong "persist_to", checkLong "replicate_to"] := rfl
  rw [rejection_eq_none_iff, rejection_eq_none_iff, hchecks, List.forall_mem_append]
  refine and_congr_right' ?_
  rw [List.forall_mem_cons, List.forall_mem_singleton]
  rfl

/-- `upsert` accepts what `insert` accepts, if the durabilities are longs. -/
theorem accepts_upsert_iff (args : List Zval) :
    Accepts upsert args ↔ Accepts insert args ∧ DurabilitiesAreLongs args := by
  constructor
  · rintro ⟨st, hst, hpass⟩
    refine ⟨⟨st, hst, fun e he => ((rejection_upsert_iff e).mp (hpass e he)).1⟩, ?_⟩
    intro st' hst' e he
    rw [hst, Option.some.injEq] at hst'
    subst hst'
    exact ((rejection_upsert_iff e).mp (hpass e he)).2
  · rintro ⟨⟨st, hst, hpass⟩, hlongs⟩
    exact ⟨st, hst, fun e he => (rejection_upsert_iff e).mpr ⟨hpass e he, hlongs st hst e he⟩⟩

/-! ## All methods -/

/-- **When optional arguments are read safely**: every entry that is reached and passes the checks
gives what its method follows.  `insert` and `upsert` agree on a call that `insert` accepts exactly
when its durabilities are longs. -/
theorem optional_arguments_iff (op : Operation) (w : World) (args : List Zval) :
    (CallReadsOnlyGiven op.method w args ↔ CallOptionsGiven op w args) ∧
    ((Accepts insert args ↔ Accepts upsert args) ↔
      (Accepts insert args → DurabilitiesAreLongs args)) := by
  refine ⟨callReadsOnlyGiven_iff op w args, ?_⟩
  rw [accepts_upsert_iff]
  exact ⟨fun h haccepts => (h.mp haccepts).2, fun h => ⟨fun hi => ⟨hi, h hi⟩, And.left⟩⟩

/-- `insert("a", "v", ["persist_to" => "x"])` -/
def textDurability : List Zval :=
  [.string (ascii "a"), .string (ascii "v"), .array [(.str (ascii "persist_to"), .string (ascii "x"))]]

/-- **Options that are read without a look at them**: `touch("a")` follows the pointer of an expiry
that is not there, and `insert` accepts a `persist_to` that is a string where `upsert` rejects it.
-/
theorem options_read_unchecked :
    batch touch (plainWorld fun _ _ => .success) [.string (ascii "a")] = .error .nullPointer ∧
      ¬CallReadsOnlyGiven touch (plainWorld fun _ _ => .success) [.string (ascii "a")] ∧
      ¬(Accepts insert textDurability ↔ Accepts upsert textDurability) := by
  refine ⟨rfl, fun h => ?_, fun h => ?_⟩
  · have hsafe := h ⟨.string (ascii "a"), ppVals touch.spec [.string (ascii "a")] []⟩ rfl 0
      ⟨ascii "a", ppVals touch.spec [.string (ascii "a")] []⟩ (fun j hj => absurd hj (Nat.not_lt_zero j))
      rfl rfl
    obtain ⟨cmd, hcmd⟩ := hsafe.defined (fun _ => 0) ⟨[], 0, 0⟩
    cases hcmd
  · have hinsert : Accepts insert textDurability := by
      refine ⟨_, rfl, fun e he => ?_⟩
      rw [Except.ok.inj (List.mem_singleton.mp he)]
      rfl
    obtain ⟨st, hst, hpass⟩ := h.mp hinsert
    obtain rfl := Option.some.inj hst
    have hrejected := hpass _ (List.mem_singleton.mpr rfl)
    cases hrejected

end PhpCouchbase
