import PhpCouchbase.BatchResults
import PhpCouchbase.SearchQuery

/-!
# Options that are numbers

A number that a call is given ends up in a variable of a command (`bucket/get.c` and its siblings,
`bucket/durability.c`), of a printed query (`search_query.c`) or of a document, and each variable
has a type of its own.

* `narrow_eq_iff` — when a variable keeps the number.
* `command_number` — which number a key-value method places in its command.
* `durabilityLoop_eq` — what the loop of `Bucket::durability` leaves in the options of the call.
* `numbers_kept_iff` — when the numbers of a call arrive.
-/

set_option autoImplicit false

namespace PhpCouchbase

open OrderedMap LastWrite

/-! ## Variables -/

/-- The numeric options of the key-value methods. -/
inductive NumericOption where
  | expiry
  | lockTime
  | flags
  | persistTo
  | replicateTo
  | delta
  | initial
  | index
  deriving DecidableEq, Repr

namespace NumericOption

/-- The name under which a method takes the option. -/
def name : NumericOption → String
  | .expiry => "expiry"
  | .lockTime => "lockTime"
  | .flags => "flags"
  | .persistTo => "persist_to"
  | .replicateTo => "replicate_to"
  | .delta => "delta"
  | .initial => "initial"
  | .index => "index"

/-- What the assignment to the field of the command leaves of a number. -/
def narrow : NumericOption → Int64 → Int
  | .expiry, n | .lockTime, n | .flags, n => n.toUInt64.toUInt32.toNat
  | .persistTo, n | .replicateTo, n => n.toInt8.toInt
  | .delta, n => n.toInt
  | .initial, n => n.toUInt64.toNat
  | .index, n => n.toInt32.toInt

/-- The numbers that the field can hold. -/
def Fits (n : Int) : NumericOption → Prop
  | .expiry | .lockTime | .flags => 0 ≤ n ∧ n < 2 ^ 32
  | .persistTo | .replicateTo => -2 ^ 7 ≤ n ∧ n < 2 ^ 7
  | .delta => True
  | .initial => 0 ≤ n
  | .index => -2 ^ 31 ≤ n ∧ n < 2 ^ 31

end NumericOption

theorem toNat_toUInt64 (n : Int64) : (n.toUInt64.toNat : Int) = n.toInt % 2 ^ 64 := by
  have hcond := BitVec.toInt_eq_toNat_cond n.toBitVec
  have hint : n.toInt = n.toBitVec.toInt := rfl
  have hnat : n.toUInt64.toNat = n.toBitVec.toNat := rfl
  have hlt := n.toBitVec.isLt
  split at hcond <;> omega

theorem toUInt64_eq_iff (n : Int64) : (n.toUInt64.toNat : Int) = n.toInt ↔ 0 ≤ n.toInt := by
  have hlt := Int64.toInt_lt n
  rw [toNat_toUInt64]
  omega

theorem toUInt32_eq_iff (n : Int64) :
    (n.toUInt64.toUInt32.toNat : Int) = n.toInt ↔ 0 ≤ n.toInt ∧ n.toInt < 2 ^ 32 := by
  have h := toNat_toUInt64 n
  rw [UInt64.toNat_toUInt32]
  omega

theorem toUInt16_eq_iff (n : Int64) :
    (n.toUInt64.toUInt16.toNat : Int) = n.toInt ↔ 0 ≤ n.toInt ∧ n.toInt < 2 ^ 16 := by
  have h := toNat_toUInt64 n
  rw [UInt64.toNat_toUInt16]
  omega

theorem toInt8_eq_iff (n : Int64) :
    n.toInt8.toInt = n.toInt ↔ -2 ^ 7 ≤ n.toInt ∧ n.toInt < 2 ^ 7 := by
  have hlt := Int8.toInt_lt n.toInt8
  have hle := Int8.le_toInt n.toInt8
  constructor
  · intro heq
    rw [← heq]
    exact ⟨hle, hlt⟩
  · rintro ⟨h0, h1⟩
    rw [Int64.toInt_toInt8]
    apply Int.bmod_eq_of_le <;> omega

/-- **When the field keeps the number.** -/
theorem NumericOption.narrow_eq_iff (o : NumericOption) (n : Int64) :
    o.narrow n = n.toInt ↔ o.Fits n.toInt := by
  cases o with
  | expiry => exact toUInt32_eq_iff n
  | lockTime => exact toUInt32_eq_iff n
  | flags => exact toUInt32_eq_iff n
  | persistTo => exact toInt8_eq_iff n
  | replicateTo => exact toInt8_eq_iff n
  | delta => exact iff_of_true rfl trivial
  | initial => exact toUInt64_eq_iff n
  | index => exact toInt32_eq_iff n

/-! ## Key-value methods -/

/-- The methods that take numbers besides those of `Operation` share the code of `get`. -/
inductive KeyValueMethod where
  | operation (op : Operation)
  | getAndLock
  | getAndTouch
  deriving DecidableEq, Repr

def KeyValueMethod.method : KeyValueMethod → BatchMethod
  | .operation op => op.method
  | .getAndLock => PhpCouchbase.getAndLock
  | .getAndTouch => PhpCouchbase.getAndTouch

/-- The number that a command has for an option. -/
def Command.number : Command → NumericOption → Option Int
  | .get _ false exptime _, .expiry => some exptime.toNat
  | .get _ true exptime _, .lockTime => some exptime.toNat
  | .rget _ _ index _, .index => some index.toInt
  | .store _ cmd, .expiry => some cmd.exptime.toNat
  | .store _ cmd, .flags => some cmd.value.flags.toNat
  | .store _ cmd, .persistTo => some cmd.persistTo.toInt
  | .store _ cmd, .replicateTo => some cmd.replicateTo.toInt
  | .touch _ exptime _, .expiry => some exptime.toNat
  | .counter _ delta _ _ _, .delta => some delta.toInt
  | .counter _ _ initial _ _, .initial => initial.map fun n => (n.toNat : Int)
  | .counter _ _ _ exptime _, .expiry => some exptime.toNat
  | _, _ => none

/-- The command goes to `lcb_storedur3`. -/
def Command.durable : Command → Bool
  | .store durable _ => durable
  | _ => false

/-- The number that an entry gives for an option. -/
def PpEntry.number (e : PpEntry) (o : NumericOption) : Option Int64 :=
  match e.arg o.name with
  | some (.long n) => some n
  | _ => none

/-- **The numbers of an entry arrive**: each number that the entry gives for an option of the method
is the one in the command, and a durability that is not zero makes the store durable. -/
def KeepsNumbers (m : BatchMethod) (e : PpEntry) (cmd : Command) : Prop :=
  ∀ o n, o.name ∈ m.spec.names → e.number o = some n →
    cmd.number o = some n.toInt ∧
      ((o = .persistTo ∨ o = .replicateTo) → n ≠ 0 → cmd.durable = true)

/-- The numbers of an entry fit their fields, and the one field for a lock time and an expiry is
asked for one of them. -/
def NumbersFit (m : BatchMethod) (e : PpEntry) : Prop :=
  (∀ o n, o.name ∈ m.spec.names → e.number o = some n → o.Fits n.toInt) ∧
    ("lockTime" ∈ m.spec.names → ∀ n, e.number .lockTime = some n → e.arg "expiry" = none)

theorem PpEntry.arg_of_number {e : PpEntry} {o : NumericOption} {n : Int64}
    (h : e.number o = some n) : e.arg o.name = some (.long n) := by
  unfold PpEntry.number at h
  split at h
  · rename_i harg
    rw [harg, Option.some.inj h]
  · cases h

/-- Every method computes the hash key first. -/
theorem of_hashkey {e : PpEntry} {f : Option Bytes → Command} {cmd : Command} {p : Command → Prop}
    (h : (hashkey e >>= fun hash => (pure (f hash) : C Command)) = .ok cmd)
    (hf : ∀ hash, p (f hash)) : p cmd := by
  obtain ⟨hash, -, hcmd⟩ := C.bind_eq_ok.mp h
  rw [← Except.ok.inj hcmd]
  exact hf hash

section Methods

variable {w : World} {e : PpEntry} {value : EncodedValue} {cmd : Command} {o : NumericOption}
  {n : Int64}

/-- An expiry is placed as it is, a lock time if there is no expiry. -/
theorem bucketGet_number {spec : ParamSpec} {checks : List Check}
    (h : (bucketGet spec checks).command w.lval e value = .ok cmd)
    (ho : o = .expiry ∨ o = .lockTime) (hn : e.number o = some n) :
    cmd.number o = if o = .lockTime ∧ e.arg "expiry" ≠ none then none else some (o.narrow n) := by
  have harg := PpEntry.arg_of_number hn
  refine of_hashkey (p := fun cmd => cmd.number o = _) h fun hash => ?_
  rcases ho with rfl | rfl
  · rw [show e.arg "expiry" = some (.long n) from harg, exptime,
      show e.arg "expiry" = some (.long n) from harg]
    rfl
  · rw [exptime, exptime, show e.arg "lockTime" = some (.long n) from harg]
    cases e.arg "expiry" <;> rfl

theorem storeMethod_number {operation : StoreOperation} {named : List String}
    {checks : List Check} {errInit : Option LcbError} {flagged : Bool}
    (h : (storeMethod operation named checks errInit flagged).command w.lval e value = .ok cmd)
    (ho : o = .expiry ∨ o = .flags ∧ flagged = true ∨ o = .persistTo ∨ o = .replicateTo)
    (hn : e.number o = some n) : cmd.number o = some (o.narrow n) := by
  have harg := PpEntry.arg_of_number hn
  refine of_hashkey (p := fun cmd => cmd.number o = _) h fun hash => ?_
  rcases ho with rfl | ⟨rfl, rfl⟩ | rfl | rfl
  · simp only [Command.number, exptime, show e.arg "expiry" = some (.long n) from harg]
    rfl
  · simp only [Command.number, if_true, show e.arg "flags" = some (.long n) from harg]
    rfl
  · simp only [Command.number, durability, show e.arg "persist_to" = some (.long n) from harg]
    rfl
  · simp only [Command.number, durability, show e.arg "replicate_to" = some (.long n) from harg]
    rfl

/-- The store is durable when one of the two numbers is left. -/
theorem storeMethod_durable {operation : StoreOperation} {named : List String}
    {checks : List Check} {errInit : Option LcbError} {flagged : Bool}
    (h : (storeMethod operation named checks errInit flagged).command w.lval e value = .ok cmd) :
    cmd.durable = true ↔
      cmd.number .persistTo ≠ some 0 ∨ cmd.number .replicateTo ≠ some 0 := by
  refine of_hashkey (p := fun cmd => cmd.durable = true ↔
    cmd.number .persistTo ≠ some 0 ∨ cmd.number .replicateTo ≠ some 0) h fun hash => ?_
  have hzero : ∀ i : Int8, i ≠ 0 ↔ some i.toInt ≠ some (0 : Int) := by
    intro i
    rw [Ne, Ne, Option.some.injEq, ← Int8.toInt_inj]
    rfl
  simp only [Command.durable, Command.number, Bool.or_eq_true, decide_eq_true_eq, hzero]

end Methods

/-- **What a method places in its command**: a number narrowed to its field, unless it is a lock
time that gives way to an expiry. -/
theorem command_number (m : KeyValueMethod) {w : World} {e : PpEntry} {value : EncodedValue}
    {cmd : Command} (h : m.method.command w.lval e value = .ok cmd) {o : NumericOption} {n : Int64}
    (ho : o.name ∈ m.method.spec.names) (hn : e.number o = some n) :
    cmd.number o = if o = .lockTime ∧ e.arg "expiry" ≠ none then none else some (o.narrow n) := by
  have harg := PpEntry.arg_of_number hn
  -- only the methods that share the code of `get` declare a lock time
  have hget : ∀ {spec checks}, (bucketGet spec checks).command w.lval e value = .ok cmd →
      o.name ∈ ["lockTime", "expiry", "groupid"] →
      cmd.number o = if o = .lockTime ∧ e.arg "expiry" ≠ none then none else some (o.narrow n) := by
    intro spec checks hcmd hmem
    refine bucketGet_number hcmd ?_ hn
    cases o <;> first | exact .inl rfl | exact .inr rfl | exact absurd hmem (by decide)
  cases m with
  | getAndLock =>
    refine hget h ?_
    cases o <;> first | decide | exact absurd ho (by decide)
  | getAndTouch =>
    refine hget h ?_
    cases o <;> first | decide | exact absurd ho (by decide)
  | operation op =>
    by_cases hop : op = .get
    · subst hop
      exact hget h ho
    · have hlock : o ≠ .lockTime := by
        rintro rfl
        cases op <;> first | exact hop rfl | exact absurd ho (by decide)
      rw [if_neg fun hand => hlock hand.1]
      cases op with
      | get => exact absurd rfl hop
      | getFromReplica =>
        refine of_hashkey (p := fun cmd => cmd.number o = _) h fun hash => ?_
        cases o <;> first | exact absurd ho (by decide) | skip
        simp only [Command.number, show e.arg "index" = some (.long n) from harg]
        rfl
      | insert | upsert | replace =>
        refine storeMethod_number h ?_ hn
        cases o <;> first | exact absurd ho (by decide) | simp
      | append | prepend =>
        refine storeMethod_number h ?_ hn
        cases o <;> first | exact absurd ho (by decide) | simp
      | remove | unlock => cases o <;> exact absurd ho (by decide)
      | touch =>
        cases o <;> first | exact absurd ho (by decide) | skip
        simp only [Operation.method, KeyValueMethod.method, PhpCouchbase.touch,
          show e.arg "expiry" = some (.long n) from harg] at h
        exact of_hashkey (p := fun cmd => cmd.number .expiry = _) h fun hash => rfl
      | counter =>
        refine of_hashkey (p := fun cmd => cmd.number o = _) h fun hash => ?_
        cases o <;> first | exact absurd ho (by decide) | skip
        · simp only [Command.number, exptime, show e.arg "expiry" = some (.long n) from harg]
          rfl
        · simp only [Command.number, show e.arg "delta" = some (.long n) from harg]
          rfl
        · simp only [Command.number, show e.arg "initial" = some (.long n) from harg]
          rfl

/-- A method that takes a durability selects the durable store by the two numbers of its command. -/
theorem command_durable (m : KeyValueMethod) {w : World} {e : PpEntry} {value : EncodedValue}
    {cmd : Command} (h : m.method.command w.lval e value = .ok cmd) {o : NumericOption}
    (hdur : o = .persistTo ∨ o = .replicateTo) (ho : o.name ∈ m.method.spec.names)
    (hne : cmd.number o ≠ some 0) : cmd.durable = true := by
  have hstore : ∀ {operation named checks errInit flagged},
      (storeMethod operation named checks errInit flagged).command w.lval e value = .ok cmd →
      cmd.durable = true := by
    intro _ _ _ _ _ hcmd
    rw [storeMethod_durable hcmd]
    rcases hdur with rfl | rfl
    · exact .inl hne
    · exact .inr hne
  have hname : o.name = "persist_to" ∨ o.name = "replicate_to" := by
    rcases hdur with rfl | rfl
    · exact .inl rfl
    · exact .inr rfl
  cases m with
  | getAndLock | getAndTouch =>
    rcases hname with hname | hname <;> exact absurd (hname ▸ ho) (by decide)
  | operation op =>
    cases op with
    | insert | upsert | replace | append | prepend => exact hstore h
    | _ => rcases hname with hname | hname <;> exact absurd (hname ▸ ho) (by decide)

/-- **When the numbers of an entry arrive.** -/
theorem keepsNumbers_iff (m : KeyValueMethod) {w : World} {e : PpEntry} {value : EncodedValue}
    {cmd : Command} (h : m.method.command w.lval e value = .ok cmd) :
    KeepsNumbers m.method e cmd ↔ NumbersFit m.method e := by
  constructor
  · intro hkeeps
    refine ⟨fun o n ho hn => ?_, fun ho n hn => ?_⟩
    · have hnumber := command_number m h ho hn
      rw [(hkeeps o n ho hn).1] at hnumber
      split at hnumber
      · cases hnumber
      · exact (o.narrow_eq_iff n).mp (Option.some.inj hnumber).symm
    · by_contra hexpiry
      have hnumber := command_number (o := .lockTime) m h ho hn
      rw [(hkeeps .lockTime n ho hn).1, if_pos ⟨rfl, hexpiry⟩] at hnumber
      cases hnumber
  · rintro ⟨hfits, hlock⟩ o n ho hn
    have hnumber : cmd.number o = some n.toInt := by
      rw [command_number m h ho hn, if_neg, (o.narrow_eq_iff n).mpr (hfits o n ho hn)]
      rintro ⟨rfl, hexpiry⟩
      exact hexpiry (hlock ho n hn)
    refine ⟨hnumber, fun hdur hne => command_durable m h hdur ho ?_⟩
    rw [hnumber, Ne, Option.some.injEq]
    exact fun hzero => hne (Int64.toInt_inj.mp hzero)

/-! ## `Bucket::durability` -/

/-- `lcb_durability_cmd_t` -/
structure DurabilityCommand where
  key : Bytes
  cas : UInt64
  hashkey : Option Bytes

/-- `lcb_durability_opts_t`: the options of the whole call. -/
structure DurabilityOptions where
  persistTo : UInt16
  replicateTo : UInt16

def durabilitySpec : ParamSpec := ⟨[], [], ["cas", "groupid", "persist_to", "replicate_to"]⟩

def durabilityChecks : List Check :=
  [checkString "cas", checkString "groupid", checkLong "persist_to", checkLong "replicate_to"]

/-- `if (zpersist) opts.v.v0.persist_to = (lcb_U16)Z_LVAL_P(zpersist)` -/
def durabilityOption (lval : Zval → Int64) (e : PpEntry) (o : NumericOption) (old : UInt16) : UInt16 :=
  match e.arg o.name with
  | some z => (lval z).toUInt64.toUInt16
  | none => old

/-- What an entry writes into the options. -/
def DurabilityOptions.write (lval : Zval → Int64) (opts : DurabilityOptions) (e : PpEntry) :
    DurabilityOptions where
  persistTo := durabilityOption lval e .persistTo opts.persistTo
  replicateTo := durabilityOption lval e .replicateTo opts.replicateTo

/-- The loop of the method: the commands and the options that `lcb_durability_poll` is given. -/
def durabilityLoop (lval : Zval → Int64) (opts : DurabilityOptions) :
    List (C PpEntry) → C (Exn ⊕ DurabilityOptions × List DurabilityCommand)
  | [] => .ok (.inr (opts, []))
  | entry :: entries => do
    let e ← entry
    match rejection durabilityChecks e with
    | some exn => .ok (.inl exn)
    | none =>
      let hash ← hashkey e
      match ← durabilityLoop lval (opts.write lval e) entries with
      | .inl exn => .ok (.inl exn)
      | .inr (opts, cmds) => .ok (.inr (opts, ⟨e.id, entryCas e, hash⟩ :: cmds))

/-- `Bucket::durability` up to `lcb_durability_poll`. -/
def bucketDurability (w : World) (args : List Zval) :
    C (Exn ⊕ DurabilityOptions × List DurabilityCommand) :=
  match ppBegin durabilitySpec args with
  | none => .ok (.inl (.pcbc "Invalid arguments." .einval))
  | some st => durabilityLoop w.lval ⟨0, 0⟩ (ppEntries st)

/-- The number of an option in the options of the call. -/
def DurabilityOptions.number (opts : DurabilityOptions) : NumericOption → Option Int
  | .persistTo => some opts.persistTo.toNat
  | .replicateTo => some opts.replicateTo.toNat
  | _ => none

/-- An option that passes its check is a long, if it is given. -/
theorem arg_eq_number {e : PpEntry} {checks : List Check} {o : NumericOption}
    (h : rejection checks e = none) (ho : checkLong o.name ∈ checks) :
    e.arg o.name = (e.number o).map .long := by
  have hpass := List.findSome?_eq_none_iff.mp h _ ho
  unfold Check.failure checkLong at hpass
  unfold PpEntry.number
  cases harg : e.arg o.name with
  | none => rfl
  | some z =>
    rw [harg] at hpass
    cases z with
    | long n => rfl
    | _ => cases hpass

theorem durabilityOption_eq {w : World} {e : PpEntry} {o : NumericOption}
    (h : rejection durabilityChecks e = none) (ho : checkLong o.name ∈ durabilityChecks)
    (old : UInt16) :
    durabilityOption w.lval e o old =
      ((e.number o).map fun n => n.toUInt64.toUInt16).getD old := by
  rw [durabilityOption, arg_eq_number h ho]
  cases e.number o <;> rfl

/-- What the last entry that gives an option says of it. -/
def lastNumber (es : List PpEntry) (o : NumericOption) (old : UInt16) : UInt16 :=
  ((last (fun e : PpEntry => e.number o) es).map fun n => n.toUInt64.toUInt16).getD old

/-- An option of the call is what the last entry that gives it says. -/
theorem foldl_write {w : World} {es : List PpEntry}
    (hes : ∀ e ∈ es, rejection durabilityChecks e = none) (opts : DurabilityOptions) :
    es.foldl (DurabilityOptions.write w.lval) opts =
      ⟨lastNumber es .persistTo opts.persistTo, lastNumber es .replicateTo opts.replicateTo⟩ := by
  let pack (p : UInt16 × UInt16) : DurabilityOptions := ⟨p.1, p.2⟩
  let stored (o : NumericOption) (e : PpEntry) : Option UInt16 :=
    (e.number o).map fun n => n.toUInt64.toUInt16
  have hstep : ∀ (opts : DurabilityOptions) (e : PpEntry), e ∈ es →
      opts.write w.lval e = ⟨(stored .persistTo e).getD opts.persistTo,
        (stored .replicateTo e).getD opts.replicateTo⟩ := by
    intro opts e he
    have hchecked : ∀ o, o = NumericOption.persistTo ∨ o = .replicateTo →
        checkLong o.name ∈ durabilityChecks := by
      rintro o (rfl | rfl) <;> simp [durabilityChecks, NumericOption.name]
    rw [DurabilityOptions.write, durabilityOption_eq (hes e he) (hchecked _ (.inl rfl)),
      durabilityOption_eq (hes e he) (hchecked _ (.inr rfl))]
  have hrun := foldl_pair (fun old e => (stored .persistTo e).getD old)
    (fun old e => (stored .replicateTo e).getD old) opts.persistTo opts.replicateTo es
  rw [foldl_getD, foldl_getD, last_map, last_map] at hrun
  rw [List.foldl_ext _ _ opts hstep]
  refine (List.foldl_hom pack ?_).trans (congrArg pack hrun)
  exact fun _ _ => rfl

/-- **The loop of the method** reads every entry and writes it into the options of the call. -/
theorem durabilityLoop_eq {w : World} {opts opts' : DurabilityOptions} {entries : List (C PpEntry)}
    {cmds : List DurabilityCommand}
    (h : durabilityLoop w.lval opts entries = .ok (.inr (opts', cmds))) :
    ∃ es : List PpEntry, entries = es.map .ok ∧
      cmds.map DurabilityCommand.key = es.map PpEntry.id ∧
      (∀ e ∈ es, rejection durabilityChecks e = none) ∧
      opts' = es.foldl (DurabilityOptions.write w.lval) opts := by
  induction entries generalizing opts cmds with
  | nil =>
    obtain ⟨rfl, rfl⟩ := Prod.mk.inj (Sum.inr.inj (Except.ok.inj h))
    exact ⟨[], rfl, rfl, by simp, rfl⟩
  | cons entry entries ih =>
    rw [durabilityLoop] at h
    obtain ⟨e, rfl, hbody⟩ := C.bind_eq_ok.mp h
    split at hbody
    · cases Except.ok.inj hbody
    · rename_i hpass
      obtain ⟨hash, -, hloop⟩ := C.bind_eq_ok.mp hbody
      obtain ⟨r, hr, hend⟩ := C.bind_eq_ok.mp hloop
      cases r with
      | inl exn => cases Except.ok.inj hend
      | inr r =>
        obtain ⟨opts₁, cmds₁⟩ := r
        obtain ⟨rfl, rfl⟩ := Prod.mk.inj (Sum.inr.inj (Except.ok.inj hend))
        obtain ⟨es, rfl, hkeys, hes, rfl⟩ := ih hr
        refine ⟨e :: es, rfl, ?_, List.forall_mem_cons.mpr ⟨hpass, hes⟩, rfl⟩
        rw [List.map_cons, List.map_cons, hkeys]

/-- **When the durability of a call is the one of its entries**: all entries that give an option
give one number, and it fits. -/
theorem durability_kept_iff {w : World} {args : List Zval} {st : PpState} {opts : DurabilityOptions}
    {cmds : List DurabilityCommand} (hst : ppBegin durabilitySpec args = some st)
    (h : bucketDurability w args = .ok (.inr (opts, cmds))) {o : NumericOption}
    (ho : o = .persistTo ∨ o = .replicateTo) :
    (∀ e n, .ok e ∈ ppEntries st → e.number o = some n → opts.number o = some n.toInt) ↔
      ∃ k : Int, 0 ≤ k ∧ k < 2 ^ 16 ∧
        ∀ e n, .ok e ∈ ppEntries st → e.number o = some n → n.toInt = k := by
  rw [bucketDurability, hst] at h
  obtain ⟨es, hentries, -, hes, hopts⟩ := durabilityLoop_eq h
  rw [foldl_write hes] at hopts
  have hnumber : opts.number o = some ((lastNumber es o 0).toNat : Int) := by
    rw [hopts]
    rcases ho with rfl | rfl <;> rfl
  have hmem : ∀ e, .ok e ∈ ppEntries st ↔ e ∈ es := by
    intro e
    rw [hentries, List.mem_map]
    exact ⟨fun ⟨e', he', heq⟩ => Except.ok.inj heq ▸ he', fun he => ⟨e, he, rfl⟩⟩
  simp only [hmem, hnumber, Option.some.injEq]
  constructor
  · intro hkept
    have hlt := (lastNumber es o 0).toNat_lt
    exact ⟨_, by omega, by omega, fun e n he hn => (hkept e n he hn).symm⟩
  · rintro ⟨k, h0, hk, hsame⟩ e n he hn
    -- an entry gives the option, so there is a last one
    cases hlast : last (fun e : PpEntry => e.number o) es with
    | none =>
      have hnone := List.filterMap_eq_nil_iff.mp (List.getLast?_eq_none_iff.mp hlast) e he
      rw [hn] at hnone
      cases hnone
    | some m =>
      obtain ⟨e', he', hm⟩ := exists_of_last_eq_some hlast
      have hmk := hsame e' m he' hm
      rw [hsame e n he hn, ← hmk, lastNumber, hlast, Option.map_some, Option.getD_some,
        toUInt16_eq_iff]
      omega

/-! ## Numbers that leave the extension -/

/-- The value of a counter document is a PHP integer. -/
theorem counter_document_iff {bucket : BucketConf} {resp : Response} {doc : Document}
    (hrc : resp.rc = .success) (h : resultDocument counter bucket resp = .ok doc) :
    (∃ n : Int64, doc.value = .long n ∧ n.toInt = resp.counter.toNat) ↔
      resp.counter.toNat < 2 ^ 63 := by
  rw [resultDocument, if_pos hrc] at h
  have hvalue : doc.value = .long resp.counter.toInt64 := by
    rw [← Except.ok.inj h]
    rfl
  have hcond := BitVec.toInt_eq_toNat_cond resp.counter.toBitVec
  have hint : resp.counter.toInt64.toInt = resp.counter.toBitVec.toInt := rfl
  have hnat : resp.counter.toNat = resp.counter.toBitVec.toNat := rfl
  rw [hvalue]
  simp only [Zval.long.injEq, exists_eq_left', hint, hnat]
  have hlt := resp.counter.toBitVec.isLt
  split at hcond <;> omega

/-- The options of a search query that are numbers. -/
inductive SearchNumber where
  | limit
  | skip
  | serverSideTimeout
  deriving DecidableEq, Repr

namespace SearchNumber

/-- The number that a call gives. -/
def given? : SearchNumber → SearchQueryCall → Option Int64
  | .limit => SearchQueryCall.limit?
  | .skip => SearchQueryCall.skip?
  | .serverSideTimeout => SearchQueryCall.serverSideTimeout?

/-- The number in a printed query. -/
def reported (j : Json) : SearchNumber → Option Json
  | .limit => j.member (ascii "size")
  | .skip => j.member (ascii "from")
  | .serverSideTimeout => (j.member (ascii "ctl")).bind (·.member (ascii "timeout"))

end SearchNumber

/-- An object that is there only if it has a member. -/
theorem member_objectOf {s : Slots} (hnodup : s.names.Nodup) {k : Bytes} {v : Option Json}
    (h : (k, v) ∈ s) : (objectOf s).bind (·.member k) = v := by
  have hfetch := fetch_present hnodup h
  unfold objectOf
  split
  · rename_i hnil
    rw [hnil] at hfetch
    exact hfetch
  · exact hfetch

/-- A printed query has the number that was given last, if the `int` that keeps it is not negative.
-/
theorem reported_eq {formatDate : Int64 → CString} {indexName : Bytes} {queryPart : SearchQueryPart}
    {calls : List SearchQueryCall} {j : Json}
    (h : (calls.foldl SearchQuery.call (SearchQuery.construct indexName queryPart)).jsonSerialize
      formatDate = .ok j) (s : SearchNumber) :
    s.reported j = intJson (((last s.given? calls).map Int64.toInt32).getD (-1)) := by
  rw [foldl_call_eq_after] at h
  obtain ⟨facets, -, hrest⟩ := C.bind_eq_ok.mp h
  obtain ⟨query, -, hj⟩ := C.bind_eq_ok.mp hrest
  obtain rfl := Except.ok.inj hj
  have hnodup : (Slots.names
      ((SearchQuery.after indexName queryPart calls).slots facets query)).Nodup := by
    show [ascii "indexName", ascii "explain", ascii "size", ascii "from", ascii "ctl", ascii "fields",
      ascii "sort", ascii "facets", ascii "highlight", ascii "query"].Nodup
    decide
  cases s with
  | limit => exact member_struct hnodup (List.mem_iff_getElem?.mpr ⟨2, rfl⟩)
  | skip => exact member_struct hnodup (List.mem_iff_getElem?.mpr ⟨3, rfl⟩)
  | serverSideTimeout =>
    have hctl := member_struct hnodup (List.mem_iff_getElem?.mpr ⟨4, rfl⟩)
    rw [SearchNumber.reported, hctl, control_eq]
    refine member_objectOf ?_ (List.mem_iff_getElem?.mpr ⟨0, rfl⟩)
    show [ascii "timeout", ascii "consistency"].Nodup
    decide

theorem reported_iff {formatDate : Int64 → CString} {indexName : Bytes} {queryPart : SearchQueryPart}
    {calls : List SearchQueryCall} {j : Json}
    (h : (calls.foldl SearchQuery.call (SearchQuery.construct indexName queryPart)).jsonSerialize
      formatDate = .ok j) {s : SearchNumber} {n : Int64} (hn : last s.given? calls = some n) :
    s.reported j = some (.long n.toInt) ↔ 0 ≤ n.toInt ∧ n.toInt < 2 ^ 31 := by
  rw [reported_eq h, hn, Option.map_some, Option.getD_some, intJson]
  have hsame := toInt32_eq_iff n
  split
  · rw [Option.some.injEq, Json.long.injEq]
    omega
  · simp only [reduceCtorEq, false_iff]
    omega

/-! ## Every number of a call -/

/-- **When the numbers of a call arrive**: in the commands of the key-value methods, in the options
of `Bucket::durability`, in the document of a counter and in a printed search. -/
theorem numbers_kept_iff (w : World) (formatDate : Int64 → CString) :
    (∀ (m : KeyValueMethod) (st : PpState) (k : Nat) (e : PpEntry) (cmd : Command),
      (ppEntries st)[k]? = some (.ok e) → ScheduledAt m.method w st k cmd →
        (KeepsNumbers m.method e cmd ↔ NumbersFit m.method e)) ∧
    (∀ (args : List Zval) (st : PpState) (opts : DurabilityOptions)
      (cmds : List DurabilityCommand) (o : NumericOption), ppBegin durabilitySpec args = some st →
      bucketDurability w args = .ok (.inr (opts, cmds)) → o = .persistTo ∨ o = .replicateTo →
        ((∀ e n, .ok e ∈ ppEntries st → e.number o = some n → opts.number o = some n.toInt) ↔
          ∃ k : Int, 0 ≤ k ∧ k < 2 ^ 16 ∧
            ∀ e n, .ok e ∈ ppEntries st → e.number o = some n → n.toInt = k)) ∧
    (∀ (resp : Response) (doc : Document), resp.rc = .success →
      resultDocument counter w.bucket resp = .ok doc →
        ((∃ n : Int64, doc.value = .long n ∧ n.toInt = resp.counter.toNat) ↔
          resp.counter.toNat < 2 ^ 63)) ∧
    ∀ (indexName : Bytes) (queryPart : SearchQueryPart)
      (calls : List SearchQueryCall) (j : Json) (s : SearchNumber) (n : Int64),
      (calls.foldl SearchQuery.call (SearchQuery.construct indexName queryPart)).jsonSerialize
        formatDate = .ok j → last s.given? calls = some n →
        (s.reported j = some (.long n.toInt) ↔ 0 ≤ n.toInt ∧ n.toInt < 2 ^ 31) := by
  refine ⟨?_, ?_, ?_, ?_⟩
  · rintro m st k e cmd he ⟨entry, hentry, hbatch⟩
    rw [he, Option.some.injEq] at hentry
    subst hentry
    obtain ⟨e', value, he', -, -, hcmd⟩ := batchEntry_eq_inr hbatch
    rw [Except.ok.inj he']
    exact keepsNumbers_iff m hcmd
  · exact fun args st opts cmds o hst h ho => durability_kept_iff hst h ho
  · exact fun resp doc hrc h => counter_document_iff hrc h
  · exact fun indexName queryPart calls j s n h hn => reported_iff h hn

/-- `upsert("a", "v", ["persist_to" => n])` -/
def persistEntry (n : Int64) : PpEntry :=
  ⟨ascii "a", ppVals upsert.spec [.string (ascii "a"), .string (ascii "v")]
    [(.str (ascii "persist_to"), .long n)]⟩

def persistState (n : Int64) : PpState := ⟨.string (ascii "a"), (persistEntry n).vals⟩

/-- The command of that call. -/
def persistCommand (durable : Bool) (persistTo : Int8) : Command :=
  .store durable ⟨.set, ascii "a", ⟨ascii "v", 0, 0⟩, 0, 0, none, persistTo, 0⟩

/-- Two servers are two servers in the command. -/
theorem persist_two_kept : KeepsNumbers upsert (persistEntry 2) (persistCommand true 2) := by
  refine ((numbers_kept_iff (plainWorld fun _ _ => .success) fun _ => CString.ofBytes []).1
    (.operation .upsert) (persistState 2) 0 (persistEntry 2) (persistCommand true 2) rfl
    ⟨.ok (persistEntry 2), rfl, rfl⟩).mpr ⟨?_, fun h => absurd h (by decide)⟩
  intro o n ho hn
  cases o with
  | persistTo =>
    cases hn
    exact ⟨by decide, by decide⟩
  | _ => cases hn

/-- **A durability that is lost**: 256 servers become none, and the store is not durable. -/
theorem persist_256_lost :
    ScheduledAt upsert (plainWorld fun _ _ => .success) (persistState 256) 0
        (persistCommand false 0) ∧
      ¬KeepsNumbers upsert (persistEntry 256) (persistCommand false 0) := by
  refine ⟨⟨.ok (persistEntry 256), rfl, rfl⟩, fun h => ?_⟩
  have hdurable := (h .persistTo 256 (by decide) rfl).2 (.inl rfl) (by decide)
  cases hdurable

end PhpCouchbase
