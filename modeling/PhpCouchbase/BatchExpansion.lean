import PhpCouchbase.NumericOptions
import PhpCouchbase.ParamparserLoop

/-!
# The expansion of a batch

A key-value method makes one step of `paramparser.c` for each id of its call, with the arguments of
that id.

* `batchExpands_iff` — exactly when the parser does that, for any declaration that fits its table.
* `batch_expansion_iff` — the declarations of the methods.
-/

set_option autoImplicit false

namespace PhpCouchbase

open OrderedMap

/-! ## What the steps are for -/

/-- The arguments of an id: its own ones, and those of the call for the others. -/
def withOwn (vals : List (String × Option Zval)) (own : List (ArrayKey × Zval)) :
    List (String × Option Zval) :=
  vals.map fun (name, val) => (name, (phpArrayFetch own (ascii name)).or val)

/-- The id of an element is its key, and its own arguments are its value, which a variable may
share.  A string behind an integer key is an id of a list. -/
def expandElement (vals : List (String × Option Zval)) (kd : ArrayKey × Zval) : PpEntry :=
  match kd.1, kd.2.deref with
  | .str id, .array own => ⟨id, withOwn vals own⟩
  | .str id, _ => ⟨id, vals⟩
  | .index _, .string id => ⟨id, vals⟩
  | .index n, .array own => ⟨printLong n, withOwn vals own⟩
  | .index n, _ => ⟨printLong n, vals⟩

/-- One step for each id, in the order of the array. -/
def expand (zids : Zval) (vals : List (String × Option Zval)) : List PpEntry :=
  match zids with
  | .array elems => elems.map (expandElement vals)
  | .string id => [⟨id, vals⟩]
  | _ => []

/-- A call has its required arguments, its ids are a string or an array, and what follows the
positional arguments is an array. -/
def AcceptsCall (spec : ParamSpec) (args : List Zval) : Prop :=
  1 + spec.required.length ≤ args.length ∧ (ppOptions spec args).isSome ∧
    ((∃ id, args[0]? = some (.string id)) ∨ ∃ elems, args[0]? = some (.array elems))

/-- **What the parser is for**, on a call: a table for the calls that are accepted, and then a step
for each id with the arguments that it has, whatever was in the variables before. -/
def BatchExpands (text : Bytes) (spec : ParamSpec) (args : List Zval) : Prop :=
  ∃ r, ppBeginText text args = .ok r ∧ (r.isSome ↔ AcceptsCall spec args) ∧
    ∀ st zids options, r = some st → args[0]? = some zids → ppOptions spec args = some options →
      st.keycount = (expand zids (ppVals spec args options)).length ∧
      ∀ vars fuel, (expand zids (ppVals spec args options)).length < fuel →
        (ppSteps fuel st vars).map (Except.map (callerEntries spec)) =
          some (.ok (expand zids (ppVals spec args options)))

section Condition

variable {spec : ParamSpec} {vals : List (String × Option Zval)}

/-- The options give no argument that the call does not give. -/
def AddsNothing (vals : List (String × Option Zval)) (own : List (ArrayKey × Zval)) : Prop :=
  ∀ arg ∈ vals, ∀ v, phpArrayFetch own (ascii arg.1) = some v → arg.2 = some v

/-- An element whose id is a string of which no byte is cut, and whose own arguments are not behind
a reference. -/
def ReadableId (vals : List (String × Option Zval)) : ArrayKey × Zval → Prop
  | (.str id, .reference (.array own)) => id.length < 2 ^ 32 ∧ AddsNothing vals own
  | (.str id, _) => id.length < 2 ^ 32
  | (.index _, data) => ∃ id, data = .string id ∧ id.length < 2 ^ 32

/-- The ids of a call are readable, and their number is an `int`. -/
def ReadableIds (vals : List (String × Option Zval)) : Option Zval → Prop
  | some (.string id) => id.length < 2 ^ 32
  | some (.array elems) => elems.length < 2 ^ 31 ∧ ∀ kd ∈ elems, ReadableId vals kd
  | _ => True

/-- The arguments that a call gives to all its ids. -/
def callVals (spec : ParamSpec) (args : List Zval) : List (String × Option Zval) :=
  ppVals spec args ((ppOptions spec args).getD [])

theorem ppId_eq_iff (id : Bytes) : ppId id = id ↔ id.length < 2 ^ 32 := by
  rw [ppId]
  constructor
  · intro h
    have hlen := congrArg List.length h
    rw [List.length_take] at hlen
    omega
  · intro h
    rw [Nat.mod_eq_of_lt h, List.take_length]

theorem cut_eq_iff {id : Bytes} {vals : List (String × Option Zval)} :
    (Except.map cutEntry (.ok ⟨id, vals⟩) : C PpEntry) = .ok ⟨id, vals⟩ ↔ id.length < 2 ^ 32 := by
  rw [← ppId_eq_iff]
  constructor
  · intro h
    exact congrArg PpEntry.id (Except.ok.inj h)
  · intro h
    exact congrArg (fun i => (.ok ⟨i, vals⟩ : C PpEntry)) h

theorem withOwn_eq_self_iff (own : List (ArrayKey × Zval)) :
    withOwn vals own = vals ↔ AddsNothing vals own := by
  have hself : withOwn vals own = vals ↔
      ∀ arg ∈ vals, (arg.1, (phpArrayFetch own (ascii arg.1)).or arg.2) = id arg := by
    rw [← List.map_inj_left, List.map_id]
    rfl
  refine hself.trans (forall₂_congr fun arg _ => ?_)
  cases phpArrayFetch own (ascii arg.1) with
  | none => exact iff_of_true rfl fun _ h => nomatch h
  | some v =>
    rw [Option.some_or]
    constructor
    · intro h v' hv
      exact (congrArg Prod.snd h).symm.trans hv
    · intro h
      exact Prod.ext rfl (h v rfl).symm

/-- **Options behind a reference** are not looked at. -/
theorem referenced_options_iff (id : Bytes) (own : List (ArrayKey × Zval)) :
    (Except.map cutEntry (.ok ⟨id, vals⟩) : C PpEntry) = .ok ⟨id, withOwn vals own⟩ ↔
      id.length < 2 ^ 32 ∧ AddsNothing vals own := by
  rw [← ppId_eq_iff, ← withOwn_eq_self_iff]
  constructor
  · intro h
    have hentry := Except.ok.inj h
    exact ⟨congrArg PpEntry.id hentry, (congrArg PpEntry.vals hentry).symm⟩
  · rintro ⟨hid, hvals⟩
    rw [hvals]
    exact congrArg (fun i => (.ok ⟨i, vals⟩ : C PpEntry)) hid

/-- **An element gives the entry it stands for** exactly when its id is readable. -/
theorem element_iff (zids : Zval) (kd : ArrayKey × Zval) :
    (ppElement ⟨zids, vals⟩ kd.1 kd.2).map cutEntry = .ok (expandElement vals kd) ↔
      ReadableId vals kd := by
  obtain ⟨k, data⟩ := kd
  cases k with
  | str id =>
    cases data with
    | array own => exact cut_eq_iff
    | reference value =>
      cases value with
      | array own => exact referenced_options_iff id own
      | _ => exact cut_eq_iff
    | _ => exact cut_eq_iff
  | index n =>
    cases data with
    | string id =>
      refine cut_eq_iff.trans ⟨fun h => ⟨id, rfl, h⟩, ?_⟩
      rintro ⟨id', hid, h⟩
      rw [Zval.string.inj hid]
      exact h
    | _ =>
      refine iff_of_false (fun h => nomatch h) ?_
      rintro ⟨id, hid, -⟩
      cases hid

/-- The calls that `ppBegin` accepts. -/
theorem ppBegin_isSome_iff (spec : ParamSpec) (args : List Zval) :
    (ppBegin spec args).isSome ↔ AcceptsCall spec args := by
  rw [ppBegin_eq, AcceptsCall]
  split
  · refine iff_of_false (by simp) fun h => ?_
    have := h.1
    omega
  · cases hopt : ppOptions spec args with
    | none => simp
    | some options =>
      rw [Option.bind_some]
      cases hids : (args[0]? : Option Zval) with
      | none => simp
      | some zids => cases zids <;> simp <;> omega

/-- What it binds. -/
theorem ppBegin_eq_some {args : List Zval} {st : PpState} (h : ppBegin spec args = some st) :
    ∃ options, ppOptions spec args = some options ∧ args[0]? = some st.zids ∧
      st.vals = ppVals spec args options := by
  rw [ppBegin_eq] at h
  split at h
  · cases h
  · obtain ⟨options, hopt, hids⟩ := Option.bind_eq_some_iff.mp h
    refine ⟨options, hopt, ?_⟩
    split at hids
    · rename_i heq
      rw [← Option.some.inj hids]
      exact ⟨heq, rfl⟩
    · rename_i heq
      rw [← Option.some.inj hids]
      exact ⟨heq, rfl⟩
    · cases hids

/-- The steps over the ids are the expansion exactly when the ids are readable. -/
theorem entries_iff (zids : Zval) (vals : List (String × Option Zval)) :
    ((ppEntries ⟨zids, vals⟩).mapM fun e => e.map cutEntry) = .ok (expand zids vals) ↔
      match zids with
      | .string id => id.length < 2 ^ 32
      | .array elems => ∀ kd ∈ elems, ReadableId vals kd
      | _ => True := by
  cases zids with
  | array elems =>
    rw [ppEntries, List.mapM_map, expand]
    refine C.mapM_eq_ok_map_iff.trans (forall₂_congr fun kd _ => ?_)
    exact element_iff (.array elems) kd
  | string id =>
    refine Iff.trans ?_ (@cut_eq_iff id vals)
    show ((Except.map cutEntry (.ok ⟨id, vals⟩) : C PpEntry) >>= fun e => .ok [e]) = .ok [_] ↔ _
    simp [Except.map]
  | _ => exact iff_of_true rfl trivial

/-- The count of the ids. -/
theorem keycount_iff (spec : ParamSpec) {zids : Zval} {vals : List (String × Option Zval)} :
    (tableOf spec ⟨zids, vals⟩).keycount = (expand zids vals).length ↔
      match zids with
      | .array elems => elems.length < 2 ^ 31
      | _ => True := by
  cases zids with
  | array elems =>
    rw [expand, List.length_map]
    exact narrowInt_eq_iff elems.length
  | _ => exact iff_of_true rfl trivial

theorem length_expand (zids : Zval) (vals : List (String × Option Zval)) :
    (expand zids vals).length = (ppEntries ⟨zids, vals⟩).length := by
  cases zids with
  | array elems => rw [expand, ppEntries, List.length_map, List.length_map]
  | _ => rfl

/-- The count and the steps of a call that is accepted. -/
theorem expands_iff {args : List Zval} {zids : Zval} {vals : List (String × Option Zval)}
    (hbegin : ppBegin spec args = some ⟨zids, vals⟩) :
    ((tableOf spec ⟨zids, vals⟩).keycount = (expand zids vals).length ∧
      ∀ vars fuel, (expand zids vals).length < fuel →
        (ppSteps fuel (tableOf spec ⟨zids, vals⟩) vars).map (Except.map (callerEntries spec)) =
          some (.ok (expand zids vals))) ↔ ReadableIds vals (some zids) := by
  have hsteps : (∀ vars fuel, (expand zids vals).length < fuel →
      (ppSteps fuel (tableOf spec ⟨zids, vals⟩) vars).map (Except.map (callerEntries spec)) =
        some (.ok (expand zids vals))) ↔
      ((ppEntries ⟨zids, vals⟩).mapM fun e => e.map cutEntry) = .ok (expand zids vals) := by
    rw [length_expand]
    constructor
    · intro h
      have hrun := h (fun _ => none) _ (Nat.lt_succ_self _)
      rw [ppSteps_eq hbegin (Nat.lt_succ_self _)] at hrun
      exact Option.some.inj hrun
    · intro h vars fuel hfuel
      rw [ppSteps_eq hbegin hfuel, h]
  rw [hsteps, entries_iff, keycount_iff]
  cases zids with
  | array elems => exact Iff.rfl
  | string id => exact and_iff_right trivial
  | _ => exact and_iff_right trivial

/-- **Exactly when the parser does what it is for.** -/
theorem batchExpands_iff {spec : ParamSpec} (h : spec.WellFormed) (args : List Zval) :
    BatchExpands spec.text spec args ↔
      args.length ≤ ppMaxArgs ∧
        (AcceptsCall spec args → ReadableIds (callVals spec args) args[0]?) := by
  by_cases hargs : args.length ≤ ppMaxArgs
  · have hbegin := ppBeginText_eq h hargs
    rw [and_iff_right hargs, ← ppBegin_isSome_iff]
    unfold BatchExpands
    rw [hbegin, ← ppBegin_isSome_iff]
    cases hst : ppBegin spec args with
    | none =>
      refine iff_of_true ⟨none, rfl, Iff.rfl, fun st _ _ hr => nomatch hr⟩ fun hsome => nomatch hsome
    | some st =>
      obtain ⟨zids, vals⟩ := st
      obtain ⟨options, hopt, hids, hvals⟩ := ppBegin_eq_some hst
      simp only at hids hvals
      subst hvals
      have hmeets := expands_iff hst
      have hcall : callVals spec args = ppVals spec args options := by
        rw [callVals, hopt, Option.getD_some]
      rw [hids, hcall]
      constructor
      · rintro ⟨r, hr, -, hall⟩ -
        rw [Option.map_some] at hr
        exact hmeets.mp (hall _ _ _ (Except.ok.inj hr).symm rfl hopt)
      · intro hreadable
        refine ⟨_, rfl, Iff.rfl, fun st zids' options' hr hzids hopt' => ?_⟩
        obtain rfl := Option.some.inj hr
        obtain rfl := Option.some.inj hzids
        obtain rfl := Option.some.inj (hopt.symm.trans hopt')
        exact hmeets.mpr (hreadable rfl)
  · refine iff_of_false ?_ fun hand => hargs hand.1
    rintro ⟨r, hr, -⟩
    rw [ppBeginText, if_pos (by omega)] at hr
    cases hr

end Condition

/-! ## The methods of a bucket -/

/-- The methods that parse their arguments this way. -/
inductive PpMethod where
  | get
  | getAndLock
  | getAndTouch
  | getFromReplica
  | insert
  | upsert
  | replace
  | append
  | prepend
  | remove
  | unlock
  | touch
  | counter
  | durability
  deriving DecidableEq, Repr

namespace PpMethod

/-- The declaration in the source. -/
def text : PpMethod → Bytes
  | .get => ascii "id||lockTime,expiry,groupid"
  | .getAndLock => ascii "id,lockTime||groupid"
  | .getAndTouch => ascii "id,expiry||groupid"
  | .getFromReplica => ascii "id||index,groupid"
  | .insert => ascii "id|value|expiry,flags,groupid,persist_to,replicate_to"
  | .upsert => ascii "id|value|expiry,flags,groupid,persist_to,replicate_to"
  | .replace => ascii "id|value|cas,expiry,flags,groupid,persist_to,replicate_to"
  | .append => ascii "id|value|cas,groupid,persist_to,replicate_to"
  | .prepend => ascii "id|value|cas,groupid,persist_to,replicate_to"
  | .remove => ascii "id||cas,groupid"
  | .unlock => ascii "id||cas,groupid"
  | .touch => ascii "id|expiry|groupid"
  | .counter => ascii "id|delta|initial,expiry,groupid"
  | .durability => ascii "id||cas,groupid,persist_to,replicate_to"

/-- The arguments that it declares. -/
def spec : PpMethod → ParamSpec
  | .get => PhpCouchbase.get.spec
  | .getAndLock => PhpCouchbase.getAndLock.spec
  | .getAndTouch => PhpCouchbase.getAndTouch.spec
  | .getFromReplica => PhpCouchbase.getFromReplica.spec
  | .insert => PhpCouchbase.insert.spec
  | .upsert => PhpCouchbase.upsert.spec
  | .replace => PhpCouchbase.replace.spec
  | .append => PhpCouchbase.append.spec
  | .prepend => PhpCouchbase.prepend.spec
  | .remove => PhpCouchbase.remove.spec
  | .unlock => PhpCouchbase.unlock.spec
  | .touch => PhpCouchbase.touch.spec
  | .counter => PhpCouchbase.counter.spec
  | .durability => durabilitySpec

theorem text_eq (m : PpMethod) : m.text = m.spec.text := by cases m <;> rfl

end PpMethod

theorem PpMethod.wellFormed (m : PpMethod) : m.spec.WellFormed := by
  constructor
  · cases m <;> decide
  · cases m <;> decide

/-- **Exactly when a call of a method steps over its ids with the arguments of each**: at most ten
arguments, and readable ids. -/
theorem batch_expansion_iff (m : PpMethod) (args : List Zval) :
    BatchExpands m.text m.spec args ↔
      args.length ≤ ppMaxArgs ∧
        (AcceptsCall m.spec args → ReadableIds (callVals m.spec args) args[0]?) := by
  rw [m.text_eq]
  exact batchExpands_iff m.wellFormed args

/-- `get(["1" => ["expiry" => 10]])` reads the options as a string. -/
theorem numeric_id_with_options :
    ¬BatchExpands PpMethod.get.text PpMethod.get.spec
      [.array [(.index 1, .array [(.str (ascii "expiry"), .long 10)])]] := by
  rw [PpMethod.get.text_eq, batchExpands_iff PpMethod.get.wellFormed]
  rintro ⟨-, hreadable⟩
  have haccepts : AcceptsCall PpMethod.get.spec
      [.array [(.index 1, .array [(.str (ascii "expiry"), .long 10)])]] :=
    ⟨by decide, rfl, Or.inr ⟨_, rfl⟩⟩
  obtain ⟨-, hids⟩ := hreadable haccepts
  obtain ⟨id, hid, -⟩ := hids _ (List.mem_singleton_self _)
  cases hid

end PhpCouchbase
