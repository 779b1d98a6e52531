import Mathlib.Data.List.Find
import PhpCouchbase.MutationState
import PhpCouchbase.Lib.LastWrite

/-!
# Options of N1QL queries

A `N1qlQuery` (`n1ql_query.c`) keeps one array of options, which is sent to the server as it is.
The statement, the positional and the named parameters and the consistency all go into this array.

* `run_eq_fill` — a sequence of calls fills the array with the pairs that each call adds.
* `n1ql_options_iff` — the array says what the calls said exactly when the statement fits an `int`,
  the last consistency does not replace scan vectors, and every named parameter has a string key
  without a NUL.
* `stale_scan_vectors` — `consistentWith` and then `consistency` leaves the scan vectors.
-/

set_option autoImplicit false

namespace PhpCouchbase

open OrderedMap LastWrite

namespace N1qlQuery

/-! ## The calls -/

/-- The `options` property. -/
abbrev Options := List (ArrayKey × Zval)

/-- `pcbc_n1ql_query_init`, which takes the length of the statement as an `int` -/
def init (statement : Bytes) : C Options := do
  return addAssoc [] (ascii "statement")
    (.string (← prefixOf statement (narrowInt statement.length)))

/-- `"$%s"`: the key ends at its first NUL -/
def prefixedKey (key : Bytes) : Bytes := 36 :: (CString.ofBytes key).bytes

def positionalParams (options : Options) (params : List (ArrayKey × Zval)) : Options :=
  addAssoc options (ascii "args") (.array params)

/-- The body of the loop of `namedParams`. -/
def namedParam (options : Options) : ArrayKey × Zval → Options
  | (.str key, entry) => addAssoc options (prefixedKey key) entry
  | (.index _, _) => options

def namedParams (options : Options) (params : List (ArrayKey × Zval)) : Options :=
  params.foldl namedParam options

def setConsistency (options : Options) (value : String) : Options :=
  addAssoc options (ascii "scan_consistency") (.string (ascii value))

def consistency (options : Options) (consistency : Int64) : Options × Option Exn :=
  if consistency = 1 then (setConsistency options "not_bounded", none)
  else if consistency = 2 then (setConsistency options "request_plus", none)
  else if consistency = 3 then (setConsistency options "statement_plus", none)
  else (options, some (.pcbc "Invalid scan consistency value" .einval))

/-- The scan vectors as the PHP array that `pcbc_mutation_state_export_for_n1ql` fills. -/
def scanVectors (state : TokenList) : Zval :=
  .array ((exportForN1ql state).map fun g => (g.1, .array (g.2.map fun pair =>
    (pair.1, .array [(.index 0, .long pair.2.1), (.index 1, .string pair.2.2)]))))

def consistentWith (options : Options) (state : TokenList) : Options × Option Exn :=
  if state.length = 0 then
    (options, some (.pcbc "Mutation state have to contain at least one token" .einval))
  else
    (addAssoc (setConsistency options "at_plus") (ascii "scan_vectors") (scanVectors state), none)

/-- A call of one of the four setters. -/
inductive Call where
  | positionalParams (params : List (ArrayKey × Zval))
  | namedParams (params : List (ArrayKey × Zval))
  | consistency (consistency : Int64)
  | consistentWith (state : TokenList)
  /-- `zend_parse_parameters` refuses the arguments -/
  | refused

/-- The options after a call, and the exception that it threw. -/
def step (options : Options) : Call → Options × Option Exn
  | .positionalParams params => (positionalParams options params, none)
  | .namedParams params => (namedParams options params, none)
  | .consistency n => consistency options n
  | .consistentWith state => consistentWith options state
  | .refused => (options, none)

/-- The options after `fromString` and a sequence of calls, whether they throw or not. -/
def run (statement : Bytes) (calls : List Call) : C Options := do
  return calls.foldl (fun options call => (step options call).1) (← init statement)

/-! ## What the calls say -/

/-- What a call that succeeds sets the consistency to: a level, or the tokens to wait for. -/
def Call.setting : Call → Option (Option TokenList)
  | .consistency n => if n = 1 ∨ n = 2 ∨ n = 3 then some none else none
  | .consistentWith state => if state.length = 0 then none else some (some state)
  | _ => none

def Call.positional : Call → Option (List (ArrayKey × Zval))
  | .positionalParams params => some params
  | _ => none

def Call.named : Call → List (ArrayKey × Zval)
  | .namedParams params => params
  | _ => []

/-- The name of an entry of the array that `namedParams` takes. -/
def paramName : ArrayKey → Bytes
  | .str key => key
  | .index i => printLong i

/-- The last value under a name. -/
def lastValue (entries : List (ArrayKey × Zval)) (name : Bytes) : Option Zval :=
  (entries.reverse.find? fun e => paramName e.1 = name).map Prod.snd

def option (options : Options) (key : String) : Option Zval := fetch options (.str (ascii key))

/-- **The options say what the calls said.** -/
structure Faithful (statement : Bytes) (calls : List Call) (options : Options) : Prop where
  statement : option options "statement" = some (.string statement)
  vectors_iff : (option options "scan_vectors").isSome ↔
    option options "scan_consistency" = some (.string (ascii "at_plus"))
  atPlus_iff : option options "scan_consistency" = some (.string (ascii "at_plus")) ↔
    ∃ state, last Call.setting calls = some (some state)
  vectors : ∀ state, last Call.setting calls = some (some state) →
    option options "scan_vectors" = some (scanVectors state)
  named : ∀ e ∈ calls.flatMap Call.named,
    fetch options (.str (36 :: paramName e.1)) =
      lastValue (calls.flatMap Call.named) (paramName e.1)
  args : option options "args" = (last Call.positional calls).map .array

def hasStringKey (e : ArrayKey × Zval) : Bool :=
  match e.1 with
  | .str _ => true
  | .index _ => false

/-- When they do: the statement fits, a level does not replace scan vectors, and each name has no
NUL and gets its last value from an entry with a string key. -/
structure Keeps (statement : Bytes) (calls : List Call) : Prop where
  fits : statement.length < 2 ^ 31
  fresh : last Call.setting calls = some none →
    ∀ call ∈ calls, ∀ state, call.setting ≠ some (some state)
  names : ∀ e ∈ calls.flatMap Call.named, 0 ∉ paramName e.1 ∧
    lastValue ((calls.flatMap Call.named).filter hasStringKey) (paramName e.1) =
      lastValue (calls.flatMap Call.named) (paramName e.1)

/-! ## The calls fill the array -/

theorem symtableKey_prefixed (s : Bytes) : symtableKey (36 :: s) = .str (36 :: s) := by
  have hdigit : (36 :: s).mapM digitVal = none := by
    rw [List.mapM_cons, show digitVal 36 = none by decide]
    rfl
  have hnone : handleNumericStr (36 :: s) = none := by
    unfold handleNumericStr
    simp only [List.head?_cons, show ¬(some (36 : UInt8) = some 45) by decide, decide_false,
      Bool.false_eq_true, if_false, hdigit]
    split <;> rfl
  rw [symtableKey, hnone]

def namedPair : ArrayKey × Zval → Option (ArrayKey × Zval)
  | (.str key, entry) => some (.str (prefixedKey key), entry)
  | (.index _, _) => none

/-- The text of the consistency that a call sets, beside the setting. -/
def Call.settingText : Call → Option (String × Option TokenList)
  | .consistency n =>
    if n = 1 then some ("not_bounded", none)
    else if n = 2 then some ("request_plus", none)
    else if n = 3 then some ("statement_plus", none)
    else none
  | .consistentWith state => if state.length = 0 then none else some ("at_plus", some state)
  | _ => none

/-- The pairs that set a consistency. -/
def settingPairs (p : String × Option TokenList) : Options :=
  (.str (ascii "scan_consistency"), .string (ascii p.1)) ::
    (p.2.map fun state => (.str (ascii "scan_vectors"), scanVectors state)).toList

def positionalPairs (params : List (ArrayKey × Zval)) : Options :=
  [(.str (ascii "args"), .array params)]

/-- The pairs that a call adds to the array. -/
def Call.pairs : Call → Options
  | .positionalParams params => positionalPairs params
  | .namedParams params => params.filterMap namedPair
  | call => call.settingText.elim [] settingPairs

theorem namedParams_eq_fill (options : Options) (params : List (ArrayKey × Zval)) :
    namedParams options params = fill options (params.filterMap namedPair) := by
  unfold namedParams
  induction params generalizing options with
  | nil => rfl
  | cons e params ih =>
    obtain ⟨key, entry⟩ := e
    rw [List.foldl_cons, ih]
    cases key with
    | index i => rfl
    | str key =>
      rw [namedParam, addAssoc, prefixedKey, symtableKey_prefixed]
      rfl

theorem setConsistency_eq_fill (options : Options) (value : String) :
    setConsistency options value =
      fill options [(.str (ascii "scan_consistency"), .string (ascii value))] := by
  have hkey : symtableKey (ascii "scan_consistency") = .str (ascii "scan_consistency") := by decide
  rw [setConsistency, addAssoc, hkey]
  rfl

theorem step_eq_fill (options : Options) (call : Call) :
    (step options call).1 = fill options call.pairs := by
  cases call with
  | positionalParams params =>
    have hkey : symtableKey (ascii "args") = .str (ascii "args") := by decide
    rw [step, positionalParams, addAssoc, hkey]
    rfl
  | namedParams params => exact namedParams_eq_fill options params
  | consistency n =>
    simp only [step, consistency, Call.pairs, Call.settingText]
    split_ifs
    · exact setConsistency_eq_fill options _
    · exact setConsistency_eq_fill options _
    · exact setConsistency_eq_fill options _
    · rfl
  | consistentWith state =>
    simp only [step, consistentWith, Call.pairs, Call.settingText]
    split_ifs
    · rfl
    · have hkey : symtableKey (ascii "scan_vectors") = .str (ascii "scan_vectors") := by decide
      rw [addAssoc, hkey, setConsistency_eq_fill]
      rfl
  | refused => rfl

/-- **A sequence of calls fills the array** with the pairs of all calls, in order. -/
theorem run_eq_fill (statement : Bytes) (calls : List Call) :
    run statement calls =
      (prefixOf statement (narrowInt statement.length)).map fun text =>
        fill [(.str (ascii "statement"), .string text)] (calls.flatMap Call.pairs) := by
  have hfill : ∀ options, calls.foldl (fun options call => (step options call).1) options =
      fill options (calls.flatMap Call.pairs) := by
    induction calls with
    | nil => intro options; rfl
    | cons call calls ih =>
      intro options
      rw [List.foldl_cons, ih, step_eq_fill, List.flatMap_cons, fill, fill, fill, List.foldl_append]
  have hkey : symtableKey (ascii "statement") = .str (ascii "statement") := by decide
  simp only [run, init, addAssoc, hfill, hkey]
  cases prefixOf statement (narrowInt statement.length) <;> rfl

/-! ## Key by key -/

theorem head_of_mem_named {params : List (ArrayKey × Zval)} {k : ArrayKey}
    (h : k ∈ keys (params.filterMap namedPair)) : ∃ key, k = .str (prefixedKey key) := by
  obtain ⟨p, hp, rfl⟩ := List.mem_map.mp h
  obtain ⟨⟨key, entry⟩, -, he⟩ := List.mem_filterMap.mp hp
  cases key with
  | index i => cases he
  | str key =>
    cases he
    exact ⟨key, rfl⟩

/-- The named parameters stay away from the other options. -/
theorem fetch_named_other (params : List (ArrayKey × Zval)) {key : Bytes} (h : key.head? ≠ some 36) :
    fetch (fill [] (params.filterMap namedPair)) (.str key) = none := by
  rw [fetch_eq_none, mem_keys_fill]
  rintro (hnil | hmem)
  · cases hnil
  · obtain ⟨name, hname⟩ := head_of_mem_named hmem
    cases hname
    exact h rfl

/-- Under a key that is no named parameter there is what a setting or a positional list puts there.
-/
theorem fetch_pairs (call : Call) {key : Bytes} (h : key.head? ≠ some 36) :
    fetch (fill [] call.pairs) (.str key) =
      (fetch (fill [] (call.settingText.elim [] settingPairs)) (.str key)).or
        (fetch (fill [] (call.positional.elim [] positionalPairs)) (.str key)) := by
  cases call with
  | namedParams params => exact fetch_named_other params h
  | positionalParams params => rfl
  | refused => rfl
  | consistency n => exact Option.or_none.symm
  | consistentWith state => exact Option.or_none.symm

theorem fetch_scan_consistency (call : Call) :
    fetch (fill [] call.pairs) (.str (ascii "scan_consistency")) =
      call.settingText.map fun p => .string (ascii p.1) := by
  rw [fetch_pairs call (by decide)]
  cases call.settingText with
  | none => cases call.positional <;> rfl
  | some p =>
    obtain ⟨text, state⟩ := p
    cases state <;> rfl

theorem fetch_scan_vectors (call : Call) :
    fetch (fill [] call.pairs) (.str (ascii "scan_vectors")) =
      (call.settingText.bind Prod.snd).map scanVectors := by
  rw [fetch_pairs call (by decide)]
  cases call.settingText with
  | none => cases call.positional <;> rfl
  | some p =>
    obtain ⟨text, state⟩ := p
    cases state <;> cases call.positional <;> rfl

theorem fetch_args (call : Call) :
    fetch (fill [] call.pairs) (.str (ascii "args")) = call.positional.map .array := by
  rw [fetch_pairs call (by decide)]
  cases call.settingText with
  | none => cases call.positional <;> rfl
  | some p =>
    obtain ⟨text, state⟩ := p
    cases state <;> cases call.positional <;> rfl

theorem fetch_statement (call : Call) :
    fetch (fill [] call.pairs) (.str (ascii "statement")) = none := by
  rw [fetch_pairs call (by decide)]
  cases call.settingText with
  | none => cases call.positional <;> rfl
  | some p =>
    obtain ⟨text, state⟩ := p
    cases state <;> cases call.positional <;> rfl

theorem setting_eq (call : Call) : call.setting = call.settingText.map Prod.snd := by
  cases call with
  | positionalParams params => rfl
  | namedParams params => rfl
  | refused => rfl
  | consistency n =>
    simp only [Call.setting, Call.settingText]
    split_ifs <;> simp_all
  | consistentWith state =>
    simp only [Call.setting, Call.settingText]
    split_ifs <;> rfl

/-- Only the setting of a mutation state has the text `at_plus`. -/
theorem settingText_atPlus {call : Call} {p : String × Option TokenList}
    (h : call.settingText = some p) : ascii p.1 = ascii "at_plus" ↔ p.2.isSome := by
  cases call with
  | positionalParams params => cases h
  | namedParams params => cases h
  | refused => cases h
  | consistency n =>
    simp only [Call.settingText] at h
    split_ifs at h <;> cases h <;> decide
  | consistentWith state =>
    simp only [Call.settingText] at h
    split_ifs at h
    cases h
    exact iff_of_true rfl rfl

/-- The array that a statement and a sequence of calls fill. -/
def filled (text : Bytes) (calls : List Call) : Options :=
  fill [(.str (ascii "statement"), .string text)] (calls.flatMap Call.pairs)

variable {text : Bytes} {calls : List Call}

theorem option_statement : option (filled text calls) "statement" = some (.string text) := by
  have hnone : last (fun call : Call => fetch (fill [] call.pairs) (.str (ascii "statement")))
      calls = none := by
    simp [last, fetch_statement]
  rw [option, filled, fetch_fill_flatMap, hnone]
  rfl

theorem option_args :
    option (filled text calls) "args" = (last Call.positional calls).map .array := by
  rw [option, filled, fetch_fill_flatMap]
  simp only [fetch_args, last_map]
  exact Option.or_none

theorem option_scan_consistency : option (filled text calls) "scan_consistency" =
    (last Call.settingText calls).map fun p => .string (ascii p.1) := by
  rw [option, filled, fetch_fill_flatMap]
  simp only [fetch_scan_consistency, last_map]
  exact Option.or_none

theorem option_scan_vectors : option (filled text calls) "scan_vectors" =
    (last (fun call : Call => call.settingText.bind Prod.snd) calls).map scanVectors := by
  rw [option, filled, fetch_fill_flatMap]
  simp only [fetch_scan_vectors, last_map]
  exact Option.or_none

theorem last_setting : last Call.setting calls = (last Call.settingText calls).map Prod.snd := by
  rw [← last_map]
  exact congrArg (last · calls) (funext setting_eq)

theorem scan_consistency_atPlus_iff :
    option (filled text calls) "scan_consistency" = some (.string (ascii "at_plus")) ↔
      ∃ state, last Call.setting calls = some (some state) := by
  rw [option_scan_consistency, last_setting]
  cases h : last Call.settingText calls with
  | none => simp
  | some p =>
    obtain ⟨call, -, hcall⟩ := exists_of_last_eq_some h
    simp only [Option.map_some, Option.some.injEq, Zval.string.injEq]
    rw [settingText_atPlus hcall, Option.isSome_iff_exists]

theorem last_vectors {state : TokenList} (h : last Call.setting calls = some (some state)) :
    last (fun call : Call => call.settingText.bind Prod.snd) calls = some state := by
  induction calls using List.reverseRecOn with
  | nil => cases h
  | append_singleton calls call ih =>
    rw [last_append_singleton, setting_eq] at h
    rw [last_append_singleton]
    cases hcall : call.settingText with
    | none =>
      rw [hcall] at h
      exact ih h
    | some p =>
      rw [hcall] at h
      have hstate : p.2 = some state := Option.some.inj h
      rw [Option.bind_some, hstate]
      rfl

/-- There are scan vectors as soon as one call has set a mutation state. -/
theorem scan_vectors_isSome_iff : (option (filled text calls) "scan_vectors").isSome ↔
    ∃ call ∈ calls, ∃ state, call.setting = some (some state) := by
  have hpick : ∀ call : Call, (call.settingText.bind Prod.snd).isSome ↔
      ∃ state, call.setting = some (some state) := by
    intro call
    rw [setting_eq]
    cases call.settingText <;> simp [Option.isSome_iff_exists]
  rw [option_scan_vectors, Option.isSome_map, last_isSome_iff]
  simp only [hpick]

/-! ## Named parameters -/

theorem filterMap_namedPair (entries : List (ArrayKey × Zval)) :
    entries.filterMap namedPair = (entries.filter hasStringKey).map fun e =>
      (.str (prefixedKey (paramName e.1)), e.2) := by
  induction entries with
  | nil => rfl
  | cons e entries ih =>
    obtain ⟨key, entry⟩ := e
    cases key with
    | index i => exact ih
    | str key => exact congrArg (_ :: ·) ih

/-- Under the name of a parameter there is what the named entries put there. -/
theorem fetch_prefixed (name : Bytes) :
    fetch (filled text calls) (.str (36 :: name)) =
      (((calls.flatMap Call.named).filter hasStringKey).reverse.find? fun e =>
        prefixedKey (paramName e.1) = 36 :: name).map Prod.snd := by
  have hcall : ∀ call : Call, fetch (fill [] call.pairs) (.str (36 :: name)) =
      fetch (fill [] (call.named.filterMap namedPair)) (.str (36 :: name)) := by
    intro call
    cases call with
    | positionalParams params => rfl
    | namedParams params => rfl
    | refused => rfl
    | consistency n =>
      simp only [Call.pairs, Call.settingText]
      split_ifs <;> rfl
    | consistentWith state =>
      simp only [Call.pairs, Call.settingText]
      split_ifs <;> rfl
  have hfill : fetch (filled text calls) (.str (36 :: name)) =
      fetch (fill [] ((calls.flatMap Call.named).filterMap namedPair)) (.str (36 :: name)) := by
    rw [List.filterMap_flatMap, fetch_fill_flatMap, filled, fetch_fill_flatMap]
    simp only [hcall]
    rfl
  rw [hfill, filterMap_namedPair, fetch_fill_map]
  simp only [ArrayKey.str.injEq]

theorem fetch_prefixed_of_nul {name : Bytes} (h : 0 ∈ name) :
    fetch (filled text calls) (.str (36 :: name)) = none := by
  rw [fetch_prefixed, Option.map_eq_none_iff, List.find?_eq_none]
  intro e _ he
  obtain ⟨-, rfl⟩ := List.cons.inj (of_decide_eq_true he)
  exact (CString.ofBytes _).no_nul h

/-- Without NULs the entries with a string key are under their full names. -/
theorem fetch_prefixed_of_no_nul
    (h : ∀ e ∈ calls.flatMap Call.named, 0 ∉ paramName e.1) (name : Bytes) :
    fetch (filled text calls) (.str (36 :: name)) =
      lastValue ((calls.flatMap Call.named).filter hasStringKey) name := by
  rw [fetch_prefixed, lastValue]
  congr 1
  apply List.find?_congr
  intro e he
  have hmem := List.mem_of_mem_filter (List.mem_reverse.mp he)
  have hcut : (CString.ofBytes (paramName e.1)).bytes = paramName e.1 :=
    takeWhile_of_no_nul (h e hmem)
  rw [prefixedKey, hcut]
  simp

theorem lastValue_isSome {entries : List (ArrayKey × Zval)} {e : ArrayKey × Zval}
    (h : e ∈ entries) : (lastValue entries (paramName e.1)).isSome := by
  rw [lastValue, Option.isSome_map, List.find?_isSome]
  exact ⟨e, List.mem_reverse.mpr h, decide_eq_true rfl⟩

/-- **The named parameters are kept** exactly when no name has a NUL and each gets its last value
from an entry with a string key. -/
theorem named_kept_iff :
    (∀ e ∈ calls.flatMap Call.named, fetch (filled text calls) (.str (36 :: paramName e.1)) =
      lastValue (calls.flatMap Call.named) (paramName e.1)) ↔
    ∀ e ∈ calls.flatMap Call.named, 0 ∉ paramName e.1 ∧
      lastValue ((calls.flatMap Call.named).filter hasStringKey) (paramName e.1) =
        lastValue (calls.flatMap Call.named) (paramName e.1) := by
  constructor
  · intro h
    have hnul : ∀ e ∈ calls.flatMap Call.named, 0 ∉ paramName e.1 := by
      intro e he hmem
      have hsome := lastValue_isSome he
      rw [← h e he, fetch_prefixed_of_nul hmem] at hsome
      cases hsome
    intro e he
    exact ⟨hnul e he, by rw [← fetch_prefixed_of_no_nul hnul, h e he]⟩
  · intro h e he
    rw [fetch_prefixed_of_no_nul (fun e he => (h e he).1)]
    exact (h e he).2

/-! ## All options -/

theorem faithful_filled_iff : Faithful text calls (filled text calls) ↔
    (last Call.setting calls = some none →
        ∀ call ∈ calls, ∀ state, call.setting ≠ some (some state)) ∧
      ∀ e ∈ calls.flatMap Call.named, 0 ∉ paramName e.1 ∧
        lastValue ((calls.flatMap Call.named).filter hasStringKey) (paramName e.1) =
          lastValue (calls.flatMap Call.named) (paramName e.1) := by
  constructor
  · intro h
    refine ⟨fun hlast call hcall state hstate => ?_, named_kept_iff.mp h.named⟩
    have hvec : (option (filled text calls) "scan_vectors").isSome :=
      scan_vectors_isSome_iff.mpr ⟨call, hcall, state, hstate⟩
    obtain ⟨state', hstate'⟩ := h.atPlus_iff.mp (h.vectors_iff.mp hvec)
    rw [hlast] at hstate'
    cases hstate'
  · rintro ⟨hfresh, hnames⟩
    refine ⟨option_statement, ?_, scan_consistency_atPlus_iff, ?_, named_kept_iff.mpr hnames,
      option_args⟩
    · rw [scan_vectors_isSome_iff, scan_consistency_atPlus_iff]
      constructor
      · rintro ⟨call, hcall, state, hstate⟩
        cases hlast : last Call.setting calls with
        | none =>
          have hmem : some state ∈ calls.filterMap Call.setting :=
            List.mem_filterMap.mpr ⟨call, hcall, hstate⟩
          rw [last, List.getLast?_eq_none_iff] at hlast
          rw [hlast] at hmem
          cases hmem
        | some setting =>
          cases setting with
          | none => exact absurd hstate (hfresh hlast call hcall state)
          | some state' => exact ⟨state', rfl⟩
      · rintro ⟨state, hlast⟩
        obtain ⟨call, hcall, hstate⟩ := exists_of_last_eq_some hlast
        exact ⟨call, hcall, state, hstate⟩
    · intro state hlast
      rw [option_scan_vectors, last_vectors hlast]
      rfl

/-- **The options of a query say what the calls said** exactly when the statement fits, a level does
not replace scan vectors, and the names of the parameters are kept. -/
theorem n1ql_options_iff (statement : Bytes) (calls : List Call) :
    (∃ options, run statement calls = .ok options ∧ Faithful statement calls options) ↔
      Keeps statement calls := by
  rw [run_eq_fill]
  constructor
  · rintro ⟨options, hrun, h⟩
    obtain ⟨text, htext, rfl⟩ := C.map_eq_ok.mp hrun
    obtain rfl : text = statement := by
      have hstatement : option (filled text calls) "statement" = some (.string statement) :=
        h.statement
      rw [option_statement] at hstatement
      cases hstatement
      rfl
    obtain ⟨hfresh, hnames⟩ := faithful_filled_iff.mp h
    refine ⟨?_, hfresh, hnames⟩
    by_contra hlong
    exact prefixOf_ne_of_ge (Nat.le_of_not_lt hlong) htext
  · intro h
    refine ⟨filled statement calls, ?_, faithful_filled_iff.mpr ⟨h.fresh, h.names⟩⟩
    rw [prefixOf_narrowInt h.fits]
    rfl

/-- `consistentWith` and then `consistency` leaves the scan vectors of the first. -/
theorem stale_scan_vectors :
    ¬∃ options, run (ascii "SELECT 1") [.consistentWith [⟨.ofBytes (ascii "b"), ⟨1, 2, 3⟩⟩],
        .consistency 2] = .ok options ∧
      Faithful (ascii "SELECT 1") [.consistentWith [⟨.ofBytes (ascii "b"), ⟨1, 2, 3⟩⟩],
        .consistency 2] options := by
  rintro ⟨options, hrun, h⟩
  rw [run_eq_fill, prefixOf_narrowInt (by decide)] at hrun
  cases hrun
  have hvec : (option (filled (ascii "SELECT 1") [.consistentWith [⟨.ofBytes (ascii "b"), ⟨1, 2, 3⟩⟩],
      .consistency 2]) "scan_vectors").isSome :=
    scan_vectors_isSome_iff.mpr ⟨_, List.mem_cons_self, _, rfl⟩
  obtain ⟨state, hstate⟩ := h.atPlus_iff.mp (h.vectors_iff.mp hvec)
  cases hstate

end N1qlQuery

end PhpCouchbase
