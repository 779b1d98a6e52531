import Mathlib.Logic.Function.Basic
import PhpCouchbase.Paramparser

/-!
# The loops of the parameter parser

`pcbc_pp_begin` (`paramparser.c`) reads the declaration of the arguments character by character and
fills a table of ten slots; each `pcbc_pp_next` stores the values of one id in variables of the
caller, which all steps share.

* `scanSpec_text` — the scan of a declaration.
* `ppBeginText_eq`, `ppSteps_eq` — the loops do what `ppBegin` and `ppEntries` say.
-/

set_option autoImplicit false

namespace PhpCouchbase

open OrderedMap

/-! ## `pcbc_pp_begin` -/

/-- `PCBC_PP_MAX_ARGS` -/
def ppMaxArgs : Nat := 10

/-- The size of `arg_name`. -/
def ppNameSize : Nat := 16

/-- `pcbc_pp_state_arg`; the pointer of a slot is the variable with its number. -/
structure PpSlot where
  name : Bytes
  val : Option Zval

/-- The local variables of the scan, and the counters of the state. -/
structure SpecScan where
  argName : Bytes := []
  argType : Nat := 0
  slots : List PpSlot := []
  argReq : Nat := 0
  argOpt : Nat := 0
  argNamed : Nat := 0

/-- The end of a name, `none` is `FAILURE`: the name gets its NUL and goes to the next slot, with
the positional argument of the call. -/
def finishArg (args : List Zval) (s : SpecScan) : C (Option SpecScan) :=
  if s.argName = [] then .ok (some s)
  else if ppNameSize ≤ s.argName.length ∨ ppMaxArgs ≤ s.slots.length then .error .outOfBounds
  else if s.slots = [] ∧ s.argName ≠ ascii "id" then .ok none
  else
    let argNum := s.slots.length
    let val := if 0 < argNum ∧ argNum < args.length ∧ s.argType < 2 then args[argNum]? else none
    .ok (some { s with
      argName := []
      slots := s.slots ++ [⟨s.argName, val⟩]
      argReq := if s.argType = 0 then s.argReq + 1 else s.argReq
      argOpt := if s.argType = 1 then s.argOpt + 1 else s.argOpt
      argNamed := if s.argType = 2 then s.argNamed + 1 else s.argNamed })

/-- The loop over the characters of the declaration. -/
def scanSpec (args : List Zval) : Bytes → SpecScan → C (Option SpecScan)
  | [], s => finishArg args s
  | c :: spec, s =>
    if c = 44 ∨ c = 124 then do
      match ← finishArg args s with
      | none => .ok none
      | some s =>
        scanSpec args spec
          { s with argType := if c = 124 ∧ s.argType < 2 then s.argType + 1 else s.argType }
    else if s.argName.length < ppNameSize then
      scanSpec args spec { s with argName := s.argName ++ [c] }
    else .error .outOfBounds

/-- The loop over the named arguments, from slot `aii` on. -/
def bindNamed (znamed : Option (List (ArrayKey × Zval))) : Nat → Nat → List PpSlot → C (List PpSlot)
  | 0, _, slots => .ok slots
  | n + 1, aii, slots =>
    match slots[aii]? with
    | none => .error .uninitialised
    | some arg =>
      bindNamed znamed n (aii + 1)
        (slots.set aii { arg with val := znamed.bind (phpArrayFetch · arg.name) })

/-- `pcbc_pp_state` as it is in memory. -/
structure PpTable where
  slots : List PpSlot
  argTotal : Nat
  curIdx : Nat
  zids : Zval
  hashPos : Nat

/-- The ids have to be an array or a string. -/
def checkIds (slots : List PpSlot) (argTotal : Nat) : Option Zval → Option PpTable
  | some (.array elems) => some ⟨slots, argTotal, 0, .array elems, 0⟩
  | some (.string id) => some ⟨slots, argTotal, 0, .string id, 0⟩
  | _ => none

/-- `pcbc_pp_begin`; `none` is `FAILURE`.  First the arguments of the call are copied to an array of
ten. -/
def ppBeginText (spec : Bytes) (args : List Zval) : C (Option PpTable) :=
  if ppMaxArgs < args.length then .error .outOfBounds
  else do
    match ← scanSpec args spec {} with
    | none => .ok none
    | some s =>
      if args.length < s.argReq then .ok none
      else
        let argUnnamed := s.argReq + s.argOpt
        let argTotal := argUnnamed + s.argNamed
        match args[argUnnamed]? with
        | none => do
          let slots ← bindNamed none s.argNamed argUnnamed s.slots
          .ok (checkIds slots argTotal args[0]?)
        | some (.array options) => do
          let slots ← bindNamed (some options) s.argNamed argUnnamed s.slots
          .ok (checkIds slots argTotal args[0]?)
        | some _ => .ok none

/-! ## `pcbc_pp_next` -/

/-- `pcbc_pp_keycount`, an `int`. -/
def PpTable.keycount (st : PpTable) : Int :=
  match st.zids with
  | .string _ => 1
  | .array elems => narrowInt elems.length
  | _ => 0

/-- The variables of the caller behind the slots. -/
abbrev PpVars := Nat → Option Zval

/-- A loop over `n` slots from `ii` on that stores in the variable of a slot what there is for it.
-/
def storeArgs (slots : List PpSlot) (value : PpSlot → Option (Option Zval)) :
    Nat → Nat → PpVars → C PpVars
  | 0, _, vars => .ok vars
  | n + 1, ii, vars =>
    match slots[ii]? with
    | none => .error .uninitialised
    | some arg =>
      storeArgs slots value n (ii + 1)
        (match value arg with
        | some v => Function.update vars ii v
        | none => vars)

/-- `id_ptr->str` and `id_ptr->len`, which is a `uint`. -/
def ppId (id : Bytes) : Bytes := id.take (id.length % 2 ^ 32)

/-- The switch of `pcbc_pp_next`: the id, the variables and the state of a step; `none` is the end.
-/
def ppSwitch (st : PpTable) (vars : PpVars) : C (Option (Bytes × PpVars × PpTable)) :=
  match st.zids with
  | .array elems =>
    match elems[st.hashPos]? with
    | none => .ok none
    | some (.str key, .array own) => do
      let vars ← storeArgs st.slots (fun arg => (phpArrayFetch own arg.name).map some)
        (st.argTotal - 1) 1 vars
      .ok (some (ppId key, vars, { st with hashPos := st.hashPos + 1 }))
    | some (.str key, _) => .ok (some (ppId key, vars, { st with hashPos := st.hashPos + 1 }))
    | some (.index _, data) => do
      let id ← data.strval
      .ok (some (ppId id, vars, { st with hashPos := st.hashPos + 1 }))
  | .string id =>
    if st.curIdx > 0 then .ok none
    else .ok (some (ppId id, vars, { st with curIdx := st.curIdx + 1 }))
  | _ => .ok none

/-- `pcbc_pp_next`: first everything is set to its base value. -/
def ppNext (st : PpTable) (vars : PpVars) : C (Option (Bytes × PpVars × PpTable)) := do
  let vars ← storeArgs st.slots (fun arg => some arg.val) (st.argTotal - 1) 1 vars
  ppSwitch st vars

/-- `while (pcbc_pp_next(&pp_state))`: the ids and the variables of its steps.  `none` is a loop
that has not come to its end. -/
def ppSteps : Nat → PpTable → PpVars → Option (C (List (Bytes × PpVars)))
  | 0, _, _ => none
  | fuel + 1, st, vars =>
    match ppNext st vars with
    | .error e => some (.error e)
    | .ok none => some (.ok [])
    | .ok (some (id, vars', st')) =>
      (ppSteps fuel st' vars').map fun rest => rest.map ((id, vars') :: ·)

/-! ## The text of a declaration -/

/-- Names with commas between them. -/
def joinNames : List String → Bytes
  | [] => []
  | [name] => ascii name
  | name :: names => ascii name ++ 44 :: joinNames names

/-- A declaration as the methods write it. -/
def ParamSpec.text (spec : ParamSpec) : Bytes :=
  joinNames ("id" :: spec.required) ++ 124 :: (joinNames spec.optional ++ 124 :: joinNames spec.named)

/-- A name that fits `arg_name` and has no separator in it. -/
structure PpName (name : String) : Prop where
  ne_nil : ascii name ≠ []
  length : (ascii name).length < ppNameSize
  plain : ∀ c ∈ ascii name, c ≠ 44 ∧ c ≠ 124

instance (name : String) : Decidable (PpName name) :=
  decidable_of_iff (ascii name ≠ [] ∧ (ascii name).length < ppNameSize ∧
      (ascii name).all (fun c => c != 44 && c != 124) = true)
    ⟨fun h => ⟨h.1, h.2.1, fun c hc => by simpa using List.all_eq_true.mp h.2.2 c hc⟩,
      fun h => ⟨h.ne_nil, h.length, List.all_eq_true.mpr fun c hc => by simpa using h.plain c hc⟩⟩

/-- A declaration that fits the table. -/
structure ParamSpec.WellFormed (spec : ParamSpec) : Prop where
  names : ∀ name ∈ spec.names, PpName name
  count : spec.names.length < ppMaxArgs

/-! ## The scan -/

section Scan

variable {args : List Zval}

/-- The value of a slot when it is filled. -/
def slotVal (args : List Zval) (argType argNum : Nat) : Option Zval :=
  if 0 < argNum ∧ argNum < args.length ∧ argType < 2 then args[argNum]? else none

/-- The next slot gets a name. -/
def addArg (args : List Zval) (s : SpecScan) (name : String) : SpecScan where
  argName := []
  argType := s.argType
  slots := s.slots ++ [⟨ascii name, slotVal args s.argType s.slots.length⟩]
  argReq := if s.argType = 0 then s.argReq + 1 else s.argReq
  argOpt := if s.argType = 1 then s.argOpt + 1 else s.argOpt
  argNamed := if s.argType = 2 then s.argNamed + 1 else s.argNamed

theorem finishArg_nil {s : SpecScan} (h : s.argName = []) : finishArg args s = .ok (some s) := if_pos h

/-- A name that is read to its end. -/
theorem finishArg_name {s : SpecScan} {name : String} (hname : PpName name)
    (hroom : s.slots.length < ppMaxArgs) (hfirst : s.slots = [] → name = "id") :
    finishArg args { s with argName := ascii name } = .ok (some (addArg args s name)) := by
  have hlen := hname.length
  rw [finishArg, if_neg hname.ne_nil, if_neg (by
    show ¬(ppNameSize ≤ (ascii name).length ∨ ppMaxArgs ≤ s.slots.length)
    omega), if_neg fun h => h.2 (by rw [hfirst h.1])]
  rfl

/-- The characters of a name. -/
theorem scanSpec_append (w rest : Bytes) {s : SpecScan} (hplain : ∀ c ∈ w, c ≠ 44 ∧ c ≠ 124)
    (hlen : s.argName.length + w.length ≤ ppNameSize) :
    scanSpec args (w ++ rest) s = scanSpec args rest { s with argName := s.argName ++ w } := by
  induction w generalizing s with
  | nil => rw [List.nil_append, List.append_nil]
  | cons c w ih =>
    obtain ⟨hc, hw⟩ := List.forall_mem_cons.mp hplain
    rw [List.length_cons] at hlen
    rw [List.cons_append, scanSpec, if_neg fun h => h.elim hc.1 hc.2, if_pos (by omega), ih hw]
    · rw [List.append_assoc]
      rfl
    · rw [List.length_append, List.length_singleton]
      omega

/-- A name up to its separator, or up to the end of the declaration. -/
theorem scanSpec_name {s : SpecScan} {name : String} (hs : s.argName = []) (hname : PpName name)
    (hroom : s.slots.length < ppMaxArgs) (hfirst : s.slots = [] → name = "id") {rest : Bytes}
    (hrest : ∀ c ∈ rest.head?, c = 44 ∨ c = 124) :
    scanSpec args (ascii name ++ rest) s = scanSpec args rest (addArg args s name) := by
  have hlen := hname.length
  have hfinish := @finishArg_name args s name hname hroom hfirst
  have hdone := @finishArg_nil args (addArg args s name) rfl
  rw [scanSpec_append _ _ hname.plain (by rw [hs, List.length_nil]; omega), hs, List.nil_append]
  cases rest with
  | nil => rw [scanSpec, scanSpec, hfinish, hdone]
  | cons c rest =>
    have hc := hrest c rfl
    rw [scanSpec, scanSpec, if_pos hc, if_pos hc, hfinish, hdone]

/-- Names with commas between them. -/
theorem scanSpec_names {names : List String} {s : SpecScan} (hs : s.argName = [])
    (hnames : ∀ name ∈ names, PpName name) (hroom : s.slots.length + names.length ≤ ppMaxArgs)
    (hfirst : s.slots = [] → ∀ name ∈ names.head?, name = "id") {rest : Bytes}
    (hrest : ∀ c ∈ rest.head?, c = 44 ∨ c = 124) :
    scanSpec args (joinNames names ++ rest) s = scanSpec args rest (names.foldl (addArg args) s) := by
  induction names generalizing s with
  | nil => rfl
  | cons name names ih =>
    obtain ⟨hname, hnames⟩ := List.forall_mem_cons.mp hnames
    rw [List.length_cons] at hroom
    have hone : s.slots.length < ppMaxArgs := by omega
    have hid : s.slots = [] → name = "id" := fun h => hfirst h name rfl
    cases names with
    | nil => exact scanSpec_name hs hname hone hid hrest
    | cons next names =>
      have hjoin : joinNames (name :: next :: names) ++ rest =
          ascii name ++ 44 :: (joinNames (next :: names) ++ rest) := by
        rw [joinNames, List.append_assoc, List.cons_append]
        · simp
      have hcomma : (44 : UInt8) = 44 ∨ (44 : UInt8) = 124 := Or.inl rfl
      have hstep : scanSpec args (44 :: (joinNames (next :: names) ++ rest)) (addArg args s name) =
          scanSpec args (joinNames (next :: names) ++ rest) (addArg args s name) := by
        rw [scanSpec, if_pos hcomma, finishArg_nil rfl]
        rfl
      rw [hjoin, scanSpec_name hs hname hone hid (by simp), hstep,
        ih rfl hnames (by
          show (s.slots ++ [_]).length + _ ≤ _
          rw [List.length_append, List.length_singleton]
          omega) fun h => absurd h (List.append_ne_nil_of_right_ne_nil _ (List.cons_ne_nil _ _))]
      rfl

/-- The slots of names from number `n` on. -/
def namesSlots (args : List Zval) (argType : Nat) (names : List String) (n : Nat) : List PpSlot :=
  (names.zipIdx n).map fun (name, i) => ⟨ascii name, slotVal args argType i⟩

theorem namesSlots_cons (args : List Zval) (argType : Nat) (name : String) (names : List String)
    (n : Nat) : namesSlots args argType (name :: names) n =
      ⟨ascii name, slotVal args argType n⟩ :: namesSlots args argType names (n + 1) := rfl

/-- The slots and the counters after some names. -/
theorem foldl_addArg (names : List String) (argType : Nat) (slots : List PpSlot)
    (argReq argOpt argNamed : Nat) :
    names.foldl (addArg args) ⟨[], argType, slots, argReq, argOpt, argNamed⟩ =
      ⟨[], argType, slots ++ namesSlots args argType names slots.length,
        if argType = 0 then argReq + names.length else argReq,
        if argType = 1 then argOpt + names.length else argOpt,
        if argType = 2 then argNamed + names.length else argNamed⟩ := by
  induction names generalizing slots argReq argOpt argNamed with
  | nil => simp [namesSlots]
  | cons name names ih =>
    have hcount : ∀ t n : Nat, (if argType = t then (if argType = t then n + 1 else n) + names.length
        else if argType = t then n + 1 else n) = if argType = t then n + (name :: names).length else n := by
      intro t n
      split
      · rw [List.length_cons]
        omega
      · rfl
    rw [List.foldl_cons, addArg, ih, hcount, hcount, hcount, List.length_append, List.length_singleton,
      List.append_assoc]
    rfl

/-- A group of names up to its bar, or up to the end of the declaration. -/
theorem scanSpec_group {names : List String} (hnames : ∀ name ∈ names, PpName name) (argType : Nat)
    {slots : List PpSlot} (argReq argOpt argNamed : Nat)
    (hroom : slots.length + names.length ≤ ppMaxArgs)
    (hfirst : slots = [] → ∀ name ∈ names.head?, name = "id") {rest : Bytes}
    (hrest : ∀ c ∈ rest.head?, c = 44 ∨ c = 124) :
    scanSpec args (joinNames names ++ rest) ⟨[], argType, slots, argReq, argOpt, argNamed⟩ =
      scanSpec args rest ⟨[], argType, slots ++ namesSlots args argType names slots.length,
        if argType = 0 then argReq + names.length else argReq,
        if argType = 1 then argOpt + names.length else argOpt,
        if argType = 2 then argNamed + names.length else argNamed⟩ := by
  rw [scanSpec_names rfl hnames hroom hfirst hrest, foldl_addArg]

theorem scanSpec_bar {argType : Nat} (ht : argType < 2) (slots : List PpSlot)
    (argReq argOpt argNamed : Nat) (rest : Bytes) :
    scanSpec args (124 :: rest) ⟨[], argType, slots, argReq, argOpt, argNamed⟩ =
      scanSpec args rest ⟨[], argType + 1, slots, argReq, argOpt, argNamed⟩ := by
  have hbar : (124 : UInt8) = 44 ∨ (124 : UInt8) = 124 := Or.inr rfl
  have hnext : (124 : UInt8) = 124 ∧ argType < 2 := ⟨rfl, ht⟩
  rw [scanSpec, if_pos hbar, finishArg_nil rfl, C.bind_ok]
  show scanSpec args rest ⟨[], if (124 : UInt8) = 124 ∧ argType < 2 then _ else _, _, _, _, _⟩ = _
  rw [if_pos hnext]

/-- **The scan of a declaration**: the slot of the id, the positional arguments of the call, and the
names of the others. -/
theorem scanSpec_text {spec : ParamSpec} (h : spec.WellFormed) :
    scanSpec args spec.text {} = .ok (some
      ⟨[], 2,
        ⟨ascii "id", none⟩ :: (namesSlots args 0 spec.required 1 ++
          namesSlots args 1 spec.optional (1 + spec.required.length) ++
          namesSlots args 2 spec.named (1 + spec.required.length + spec.optional.length)),
        1 + spec.required.length, spec.optional.length, spec.named.length⟩) := by
  have hcount := h.count
  rw [ParamSpec.names, List.length_append, List.length_append] at hcount
  have hid : PpName "id" := by decide
  have hrequired : ∀ name ∈ "id" :: spec.required, PpName name :=
    List.forall_mem_cons.mpr ⟨hid, fun name hname => h.names name (by simp [ParamSpec.names, hname])⟩
  have hoptional : ∀ name ∈ spec.optional, PpName name := fun name hname =>
    h.names name (by simp [ParamSpec.names, hname])
  have hnamed : ∀ name ∈ spec.named, PpName name := fun name hname =>
    h.names name (by simp [ParamSpec.names, hname])
  have hlen : ∀ t (names : List String) n, (namesSlots args t names n).length = names.length := by
    intro t names n
    rw [namesSlots, List.length_map, List.length_zipIdx]
  have hslots : ([] : List PpSlot) ++ namesSlots args 0 ("id" :: spec.required) ([] : List PpSlot).length =
      ⟨ascii "id", none⟩ :: namesSlots args 0 spec.required 1 := rfl
  show scanSpec args spec.text ⟨[], 0, [], 0, 0, 0⟩ = _
  have hrest : ∀ (rest : Bytes), ∀ c ∈ (124 :: rest).head?, c = 44 ∨ c = 124 := by simp
  -- the required arguments up to the first bar, the optional ones up to the second, the named ones
  rw [ParamSpec.text, scanSpec_group hrequired 0 0 0 0 (by
      rw [List.length_nil, List.length_cons]
      omega) (by simp) (hrest _), scanSpec_bar (by decide), hslots,
    scanSpec_group hoptional (0 + 1) _ _ _ (by
      rw [List.length_cons, hlen]
      omega) (by simp) (hrest _), scanSpec_bar (by decide),
    ← List.append_nil (joinNames spec.named), scanSpec_group hnamed (0 + 1 + 1) _ _ _ (by
      rw [List.length_append, List.length_cons, hlen, hlen]
      omega) (by simp) (by simp), scanSpec, finishArg_nil rfl]
  simp [hlen, Nat.add_comm, Nat.add_left_comm, Nat.add_assoc]

end Scan

/-! ## Binding the arguments -/

/-- The loop over the named arguments sets the slots from `pre.length` on. -/
theorem bindNamed_eq (znamed : Option (List (ArrayKey × Zval))) (pre post : List PpSlot) :
    bindNamed znamed post.length pre.length (pre ++ post) =
      .ok (pre ++ post.map fun arg => { arg with val := znamed.bind (phpArrayFetch · arg.name) }) := by
  induction post generalizing pre with
  | nil => rfl
  | cons arg post ih =>
    have hget : (pre ++ arg :: post)[pre.length]? = some arg := by
      rw [List.getElem?_append_right (Nat.le_refl _), Nat.sub_self, List.getElem?_cons_zero]
    have hset : ∀ arg', (pre ++ arg :: post).set pre.length arg' = (pre ++ [arg']) ++ post := by
      intro arg'
      rw [List.set_append_right _ _ (Nat.le_refl _), Nat.sub_self, List.set_cons_zero, List.append_assoc,
        List.singleton_append]
    rw [List.length_cons, bindNamed, hget]
    simp only [hset]
    have hnext := ih (pre ++ [{ arg with val := znamed.bind (phpArrayFetch · arg.name) }])
    rw [List.length_append, List.length_singleton] at hnext
    rw [hnext, List.map_cons, List.append_assoc, List.singleton_append]

/-- The slot of an argument with its value. -/
def slotOf (arg : String × Option Zval) : PpSlot := ⟨ascii arg.1, arg.2⟩

/-- The slots of a bound call: the id and its arguments. -/
def argSlots (vals : List (String × Option Zval)) : List PpSlot :=
  ⟨ascii "id", none⟩ :: vals.map slotOf

/-- The table of a bound call. -/
def tableOf (spec : ParamSpec) (st : PpState) : PpTable :=
  ⟨argSlots st.vals, 1 + spec.names.length, 0, st.zids, 0⟩

/-- The positional slots have the arguments of the call. -/
theorem namesSlots_positional (args : List Zval) {argType : Nat} (ht : argType < 2)
    (names : List String) (n : Nat) :
    namesSlots args argType names (n + 1) =
      ((names.zipIdx n).map fun (name, i) => (name, args[i + 1]?)).map slotOf := by
  have hval : ∀ i, slotVal args argType (i + 1) = args[i + 1]? := by
    intro i
    unfold slotVal
    split
    · rfl
    · rw [List.getElem?_eq_none (by omega)]
  induction names generalizing n with
  | nil => rfl
  | cons name names ih =>
    rw [namesSlots_cons, hval, ih (n + 1), List.zipIdx_cons, List.map_cons, List.map_cons]
    rfl

/-- The other slots have a name and no value yet. -/
theorem namesSlots_named (args : List Zval) (names : List String) (n : Nat) :
    namesSlots args 2 names n = names.map fun name => ⟨ascii name, none⟩ := by
  have hval : ∀ i, slotVal args 2 i = none := fun i => if_neg (by omega)
  induction names generalizing n with
  | nil => rfl
  | cons name names ih =>
    rw [namesSlots_cons, hval, ih, List.map_cons]

/-- The slots after both loops. -/
theorem bindNamed_slots (spec : ParamSpec) (args : List Zval)
    (znamed : Option (List (ArrayKey × Zval))) :
    bindNamed znamed spec.named.length (1 + spec.required.length + spec.optional.length)
        (⟨ascii "id", none⟩ :: (namesSlots args 0 spec.required 1 ++
          namesSlots args 1 spec.optional (1 + spec.required.length) ++
          namesSlots args 2 spec.named (1 + spec.required.length + spec.optional.length))) =
      .ok (argSlots (ppVals spec args (znamed.getD []))) := by
  have hpositional : namesSlots args 0 spec.required 1 ++
      namesSlots args 1 spec.optional (1 + spec.required.length) =
      ((spec.required ++ spec.optional).zipIdx.map fun (name, i) => (name, args[i + 1]?)).map slotOf := by
    rw [List.zipIdx_append, List.map_append, List.map_append, Nat.zero_add, Nat.add_comm 1,
      ← namesSlots_positional args (by decide : 0 < 2), ← namesSlots_positional args (by decide : 1 < 2)]
  have hbind := bindNamed_eq znamed (⟨ascii "id", none⟩ ::
    ((spec.required ++ spec.optional).zipIdx.map fun (name, i) => (name, args[i + 1]?)).map slotOf)
    (spec.named.map fun name => ⟨ascii name, none⟩)
  rw [List.length_cons, List.length_map, List.length_map, List.length_map, List.length_zipIdx,
    List.length_append] at hbind
  have hnum : 1 + spec.required.length + spec.optional.length =
      spec.required.length + spec.optional.length + 1 := by omega
  rw [hpositional, namesSlots_named, hnum, ← List.cons_append, hbind, argSlots, ppVals, List.map_append,
    List.map_map, List.map_map, List.map_map, List.cons_append]
  congr 3
  refine List.map_congr_left fun name _ => ?_
  cases znamed <;> rfl

/-- `ppBegin` by the options and the ids of the call. -/
theorem ppBegin_eq (spec : ParamSpec) (args : List Zval) :
    ppBegin spec args =
      if args.length < 1 + spec.required.length then none
      else (ppOptions spec args).bind fun options =>
        match (args[0]? : Option Zval) with
        | some (.array ids) => some ⟨.array ids, ppVals spec args options⟩
        | some (.string id) => some ⟨.string id, ppVals spec args options⟩
        | _ => none := by
  unfold ppBegin
  cases ppOptions spec args with
  | none => rfl
  | some options =>
    cases args with
    | nil => rfl
    | cons zids args => cases zids <;> rfl

/-- **`pcbc_pp_begin`** on a call that fits its array of arguments. -/
theorem ppBeginText_eq {spec : ParamSpec} (h : spec.WellFormed) {args : List Zval}
    (hargs : args.length ≤ ppMaxArgs) :
    ppBeginText spec.text args = .ok ((ppBegin spec args).map (tableOf spec)) := by
  have htotal : 1 + spec.required.length + spec.optional.length + spec.named.length =
      1 + spec.names.length := by
    rw [ParamSpec.names, List.length_append, List.length_append]
    omega
  rw [ppBeginText, if_neg (by omega), scanSpec_text h, C.bind_ok, ppBegin_eq]
  simp only
  split
  · rfl
  · unfold ppOptions
    cases hznamed : args[1 + spec.required.length + spec.optional.length]? with
    | none =>
      simp only [bindNamed_slots, C.bind_ok, htotal, Option.getD_none, Option.bind_some]
      cases args[0]? with
      | none => rfl
      | some zids => cases zids <;> rfl
    | some znamed =>
      cases znamed with
      | array options =>
        simp only [bindNamed_slots, C.bind_ok, htotal, Option.getD_some, Option.bind_some]
        cases args[0]? with
        | none => rfl
        | some zids => cases zids <;> rfl
      | _ => rfl

/-! ## Stepping -/

/-- A loop over slots changes their variables and no others. -/
theorem storeArgs_eq (slots : List PpSlot) (value : PpSlot → Option (Option Zval)) {n ii : Nat}
    (h : ii + n ≤ slots.length) (vars : PpVars) :
    storeArgs slots value n ii vars = .ok fun j =>
      if ii ≤ j ∧ j < ii + n then (slots[j]?.bind value).getD (vars j) else vars j := by
  induction n generalizing ii vars with
  | zero =>
    rw [storeArgs]
    congr 1
    funext j
    rw [if_neg (by omega)]
  | succ n ih =>
    have hget : slots[ii]? = some slots[ii] := List.getElem?_eq_getElem (by omega)
    rw [storeArgs, hget]
    simp only
    rw [ih (by omega)]
    congr 1
    funext j
    by_cases hj : j = ii
    · subst hj
      rw [if_neg (by omega), if_pos (by omega), hget, Option.bind_some]
      cases value slots[j] with
      | none => rfl
      | some v => exact Function.update_self j v vars
    · have hvars : (match value slots[ii] with
          | some v => Function.update vars ii v
          | none => vars) j = vars j := by
        cases value slots[ii] with
        | none => rfl
        | some v => exact Function.update_of_ne hj v vars
      rw [hvars]
      by_cases hin : ii + 1 ≤ j ∧ j < ii + 1 + n
      · rw [if_pos hin, if_pos (by omega)]
      · rw [if_neg hin, if_neg (by omega)]

section Steps

variable {spec : ParamSpec} {vals : List (String × Option Zval)}

/-- What the caller finds in its variables after a step. -/
def callerEntry (spec : ParamSpec) (id : Bytes) (vars : PpVars) : PpEntry :=
  ⟨id, spec.names.zipIdx.map fun (name, i) => (name, vars (i + 1))⟩

/-- A loop over all slots but the first. -/
theorem storeArgs_slots (h : keys vals = spec.names) (value : PpSlot → Option (Option Zval))
    (vars : PpVars) :
    ∃ vars', storeArgs (argSlots vals) value (1 + spec.names.length - 1) 1 vars = .ok vars' ∧
      ∀ i arg, vals[i]? = some arg → vars' (i + 1) = (value (slotOf arg)).getD (vars (i + 1)) := by
  have hlen : vals.length = spec.names.length := by rw [← h, keys, List.length_map]
  refine ⟨_, storeArgs_eq _ value (n := 1 + spec.names.length - 1) ?_ vars, fun i arg harg => ?_⟩
  · rw [argSlots, List.length_cons, List.length_map, hlen]
    omega
  · have hi := (List.getElem?_eq_some_iff.mp harg).1
    have hslot : (argSlots vals)[i + 1]? = some (slotOf arg) := by
      rw [argSlots, List.getElem?_cons_succ, List.getElem?_map, harg]
      rfl
    simp only [hslot, Option.bind_some]
    rw [if_pos (by omega)]

/-- The entry that the variables stand for. -/
theorem callerEntry_eq (h : keys vals = spec.names) (id : Bytes) {vars : PpVars}
    {val : String × Option Zval → Option Zval}
    (hvars : ∀ i arg, vals[i]? = some arg → vars (i + 1) = val arg) :
    callerEntry spec id vars = ⟨id, vals.map fun arg => (arg.1, val arg)⟩ := by
  rw [callerEntry, ← h]
  congr 1
  refine List.ext_getElem? fun i => ?_
  rw [List.getElem?_map, List.getElem?_map, List.getElem?_zipIdx, keys, List.getElem?_map]
  cases harg : vals[i]? with
  | none => rfl
  | some arg =>
    simp only [Option.map_some, Nat.zero_add]
    rw [hvars i arg harg]

/-- The base values. -/
theorem ppNext_base (h : keys vals = spec.names) (curIdx : Nat) (zids : Zval) (pos : Nat)
    (vars : PpVars) : ∃ base,
      ppNext ⟨argSlots vals, 1 + spec.names.length, curIdx, zids, pos⟩ vars =
        ppSwitch ⟨argSlots vals, 1 + spec.names.length, curIdx, zids, pos⟩ base ∧
      (∀ i arg, vals[i]? = some arg → base (i + 1) = arg.2) ∧
      ∀ id, callerEntry spec id base = ⟨id, vals⟩ := by
  obtain ⟨base, hbase, hvals⟩ := storeArgs_slots h (fun arg => some arg.val) vars
  refine ⟨base, ?_, hvals, fun id => ?_⟩
  · rw [ppNext, hbase, C.bind_ok]
  · rw [callerEntry_eq h id hvals]
    exact congrArg (PpEntry.mk id) (List.map_id vals)

/-- The length of an id is cut to a `uint`. -/
def cutEntry (e : PpEntry) : PpEntry := { e with id := ppId e.id }

/-- The table before a step over an array. -/
def tableAt (spec : ParamSpec) (vals : List (String × Option Zval)) (elems : List (ArrayKey × Zval))
    (pos : Nat) : PpTable :=
  ⟨argSlots vals, 1 + spec.names.length, 0, .array elems, pos⟩

/-- **One step over an array of ids.** -/
theorem ppNext_element (h : keys vals = spec.names) {elems : List (ArrayKey × Zval)} {pos : Nat}
    {k : ArrayKey} {data : Zval} (hpos : elems[pos]? = some (k, data)) (vars : PpVars) :
    match ppElement ⟨.array elems, vals⟩ k data with
    | .error e => ppNext (tableAt spec vals elems pos) vars = .error e
    | .ok e => ∃ vars', ppNext (tableAt spec vals elems pos) vars =
        .ok (some (ppId e.id, vars', tableAt spec vals elems (pos + 1))) ∧
          callerEntry spec (ppId e.id) vars' = cutEntry e := by
  obtain ⟨base, hnext, hvals, hentry⟩ := ppNext_base h 0 (.array elems) pos vars
  rw [tableAt, hnext, ppSwitch]
  simp only [hpos]
  cases k with
  | index n =>
    cases data with
    | string id => exact ⟨base, rfl, hentry _⟩
    | _ => rfl
  | str id =>
    cases data with
    | array own =>
      obtain ⟨vars', hown, hvals'⟩ :=
        storeArgs_slots h (fun arg => (phpArrayFetch own arg.name).map some) base
      refine ⟨vars', by simp only [hown, C.bind_ok]; rfl, callerEntry_eq h (ppId id) fun i arg harg => ?_⟩
      rw [hvals' i arg harg, hvals i arg harg]
      show ((phpArrayFetch own (ascii arg.1)).map some).getD arg.2 = _
      cases phpArrayFetch own (ascii arg.1) <;> rfl
    | _ => exact ⟨base, rfl, hentry _⟩

/-- The end of an array. -/
theorem ppNext_end (h : keys vals = spec.names) {elems : List (ArrayKey × Zval)} {pos : Nat}
    (hpos : elems.length ≤ pos) (vars : PpVars) : ppNext (tableAt spec vals elems pos) vars = .ok none := by
  obtain ⟨base, hnext, -⟩ := ppNext_base h 0 (.array elems) pos vars
  rw [tableAt, hnext, ppSwitch]
  simp only [List.getElem?_eq_none hpos]

/-- What the caller reads in all steps. -/
def callerEntries (spec : ParamSpec) (steps : List (Bytes × PpVars)) : List PpEntry :=
  steps.map fun (id, vars) => callerEntry spec id vars

/-- The steps over an array from a position on. -/
theorem ppSteps_array (h : keys vals = spec.names) {elems : List (ArrayKey × Zval)} {fuel pos : Nat}
    (hpos : pos ≤ elems.length) (hfuel : elems.length < fuel + pos) (vars : PpVars) :
    (ppSteps fuel (tableAt spec vals elems pos) vars).map (Except.map (callerEntries spec)) =
      some ((elems.drop pos).mapM fun (k, data) =>
        (ppElement ⟨.array elems, vals⟩ k data).map cutEntry) := by
  induction fuel generalizing pos vars with
  | zero => omega
  | succ fuel ih =>
    by_cases hlt : pos < elems.length
    · obtain ⟨⟨k, data⟩, hkd⟩ : ∃ kd, elems[pos] = kd := ⟨_, rfl⟩
      have hget : elems[pos]? = some (k, data) := by rw [List.getElem?_eq_getElem hlt, hkd]
      have hstep := ppNext_element h hget vars
      rw [List.drop_eq_getElem_cons hlt, hkd, List.mapM_cons, ppSteps]
      simp only
      cases helem : ppElement ⟨.array elems, vals⟩ k data with
      | error e =>
        rw [helem] at hstep
        rw [hstep]
        rfl
      | ok e =>
        rw [helem] at hstep
        obtain ⟨vars', hnext, hentry⟩ := hstep
        have hrest := ih (show pos + 1 ≤ elems.length from hlt) (by omega) vars'
        rw [hnext]
        simp only
        cases hsteps : ppSteps fuel (tableAt spec vals elems (pos + 1)) vars' with
        | none =>
          rw [hsteps] at hrest
          cases hrest
        | some r =>
          rw [hsteps, Option.map_some, Option.some.injEq] at hrest
          rw [← hrest]
          cases r with
          | error e => rfl
          | ok steps =>
            show some (Except.ok (callerEntry spec (ppId e.id) vars' :: callerEntries spec steps)) = _
            rw [hentry]
            rfl
    · rw [ppSteps, ppNext_end h (by omega), List.drop_eq_nil_of_le (by omega)]
      rfl

/-- **The steps of `pcbc_pp_next`** are the entries, with their ids cut, up to a fault. -/
theorem ppSteps_eq {args : List Zval} {st : PpState} (hbegin : ppBegin spec args = some st)
    {fuel : Nat} (hfuel : (ppEntries st).length < fuel) (vars : PpVars) :
    (ppSteps fuel (tableOf spec st) vars).map (Except.map (callerEntries spec)) =
      some ((ppEntries st).mapM fun e => e.map cutEntry) := by
  have h := keys_of_ppBegin hbegin
  obtain ⟨zids, vals⟩ := st
  cases zids with
  | array elems =>
    have hlen : (ppEntries ⟨.array elems, vals⟩).length = elems.length := List.length_map _
    rw [hlen] at hfuel
    have harray := ppSteps_array h (Nat.zero_le _) (by omega : elems.length < fuel + 0) vars
    rw [List.drop_zero] at harray
    rw [ppEntries, List.mapM_map]
    exact harray
  | string id =>
    obtain ⟨fuel, rfl⟩ : ∃ n, fuel = n + 2 := ⟨fuel - 2, by
      have : (ppEntries ⟨.string id, vals⟩).length = 1 := rfl
      omega⟩
    obtain ⟨base, hnext, -, hentry⟩ := ppNext_base h 0 (.string id) 0 vars
    obtain ⟨base', hnext', -, -⟩ := ppNext_base h 1 (.string id) 0 base
    have hend : ppSteps (fuel + 1) ⟨argSlots vals, 1 + spec.names.length, 1, .string id, 0⟩ base =
        some (.ok []) := by
      rw [ppSteps, hnext']
      rfl
    rw [tableOf, ppSteps, hnext]
    show ((ppSteps (fuel + 1) ⟨argSlots vals, 1 + spec.names.length, 1, .string id, 0⟩ base).map
      _).map _ = _
    rw [hend]
    show some (Except.ok [callerEntry spec (ppId id) base]) = _
    rw [hentry]
    rfl
  | _ =>
    rw [ppBegin_eq] at hbegin
    split at hbegin
    · cases hbegin
    · obtain ⟨options, -, hids⟩ := Option.bind_eq_some_iff.mp hbegin
      split at hids <;> cases hids

end Steps

end PhpCouchbase
