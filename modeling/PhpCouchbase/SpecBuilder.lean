import PhpCouchbase.MultiValue
import PhpCouchbase.Lib.LinkedList

/-!
# The spec list of a builder

The builders of `mutate_in_builder.c` and `lookup_in_builder.c` keep their specs in a linked list
with a tail pointer and a counter beside it.  Every method allocates a spec, copies the path and the
value and appends it; `pcbc_bucket_subdoc_request` of `bucket/subdoc.c` walks the list and copies
the specs into an array that has the size of the counter.

* `run_keeps`, `runAll_keeps` — one call and a sequence of calls on a builder.
* `subdocRequest_eq` — what is sent.
* `runAll_refines` — the builder in memory behaves like the one that is a list of specs.
* `spec_builder_invariant` — builders after any calls that fit.
-/

set_option autoImplicit false

namespace PhpCouchbase

/-! ## The builder in memory -/

/-- `pcbc_mutate_in_builder_t` and `pcbc_lookup_in_builder_t`, which has no CAS. -/
structure SpecBuilder where
  id : Bytes
  cas : UInt64
  nspecs : Int32
  list : LinkedList SdSpec

/-- `pcbc_mutate_in_builder_init`, and `pcbc_lookup_in_builder_init` up to its paths. -/
def specBuilderInit (id : Bytes) (cas : UInt64) : C SpecBuilder := do
  let copy ← prefixOf id (narrowInt id.length)
  .ok ⟨copy, cas, 0, .empty⟩

/-- `PCBC_SDSPEC_COPY_PATH` in a C function, which takes the length as an `int`. -/
def copyPath (path : Bytes) : C Bytes := prefixOf path (narrowInt path.length)

/-- `PCBC_JSON_ENCODE` and `PCBC_SDSPEC_SET_VALUE_SMARTSTR`, whose length is an `int`; `none` is an
error of the encoder. -/
def encodedValue (php : Php) (value : Zval) : C (Option Bytes) :=
  match php.jsonEncode value with
  | none => .ok none
  | some text => do
    let copy ← prefixOf text (narrowInt text.length)
    .ok (some copy)

/-- The same for the items of an array. -/
def strippedValue (php : Php) (value : Zval) : C (Option Bytes) :=
  match php.jsonEncode value with
  | none => .ok none
  | some text => stripBrackets text

/-- A call on a builder after its arguments are parsed; `refused` is a call whose arguments are not
accepted. -/
inductive SpecCall where
  | refused
  | mutate (call : BuilderCall)
  /-- `LookupInBuilder::get` -/
  | get (path : Bytes) (options : Option Zval)
  /-- `LookupInBuilder::exists` -/
  | pathExists (path : Bytes) (options : Option Zval)

namespace SpecBuilder

variable (php : Php)

/-- `tail->next = spec`, `tail = spec`, `head = tail` if there is none, `nspecs++` -/
def append (b : SpecBuilder) (spec : SdSpec) : C SpecBuilder :=
  match b.list.push spec with
  | none => .error .freed
  | some list => .ok { b with list := list, nspecs := b.nspecs + 1 }

/-- The common shape: a spec is allocated, gets its path and its value and is appended.  Without a
value it is freed. -/
def queue (b : SpecBuilder) (sdcmd : SdCommand) (flags : SdOptions) (path : C Bytes)
    (value : C (Option Bytes)) : C (SpecBuilder × Bool) := do
  let path ← path
  match ← value with
  | none => .ok ({ b with list := b.list.discard }, false)
  | some value => do
    let b ← b.append ⟨sdcmd, path, value, flags⟩
    .ok (b, true)

/-- `if (rv == FAILURE) RETURN_NULL()` behind the encoding of a value, if there is one. -/
def orNull (value : Option Zval) (r : C (SpecBuilder × Bool)) : C (SpecBuilder × BuilderResult) := do
  let (b, ok) ← r
  .ok (b, .leave (php.throws value) (if ok then .this else .null))

/-- The methods of `MutateInBuilder`.  Six of them call a C function, which takes the length of the
path as an `int`. -/
def mutate (b : SpecBuilder) : BuilderCall → C (SpecBuilder × BuilderResult)
  | .remove path options =>
    orNull php none (b.queue .remove (subdocOptionsToFlags false options) (copyPath path) (.ok (some [])))
  | .counter path delta options =>
    orNull php none (b.queue .counter (subdocOptionsToFlags false options) (.ok path)
      (.ok (some (printLong delta))))
  | .insert path value options =>
    orNull php (some value) (b.queue .dictAdd (subdocOptionsToFlags false options) (.ok path)
      (encodedValue php value))
  | .upsert path value options =>
    orNull php (some value) (b.queue .dictUpsert (subdocOptionsToFlags false options) (copyPath path)
      (encodedValue php value))
  | .replace path value options =>
    orNull php (some value) (b.queue .replace (subdocOptionsToFlags false options) (copyPath path)
      (encodedValue php value))
  | .arrayInsert path value options =>
    orNull php (some value) (b.queue .arrayInsert (subdocOptionsToFlags false options) (.ok path)
      (encodedValue php value))
  | .arrayInsertAll path value options =>
    orNull php (some value) (b.queue .arrayInsert (subdocOptionsToFlags false options) (.ok path)
      (strippedValue php value))
  | .arrayAddUnique path value options =>
    orNull php (some value) (b.queue .arrayAddUnique (subdocOptionsToFlags false options) (copyPath path)
      (encodedValue php value))
  -- the result of the C function is ignored
  | .arrayPrepend path value options => do
    let (b, _) ← b.queue .arrayAddFirst (subdocOptionsToFlags false options) (copyPath path)
      (encodedValue php value)
    .ok (b, .leave (php.throws (some value)) .this)
  | .arrayPrependAll path value options =>
    orNull php (some value) (b.queue .arrayAddFirst (subdocOptionsToFlags false options) (.ok path)
      (strippedValue php value))
  | .arrayAppend path value options =>
    orNull php (some value) (b.queue .arrayAddLast (subdocOptionsToFlags false options) (copyPath path)
      (encodedValue php value))
  | .arrayAppendAll path value options =>
    orNull php (some value) (b.queue .arrayAddLast (subdocOptionsToFlags false options) (.ok path)
      (strippedValue php value))

/-- `pcbc_lookup_in_builder_get` -/
def lookupGet (b : SpecBuilder) (path : Bytes) (options : Option Zval) : C (SpecBuilder × Bool) :=
  b.queue .get (subdocOptionsToFlags true options) (copyPath path) (.ok (some []))

/-- A call of a method. -/
def run (b : SpecBuilder) : SpecCall → C (SpecBuilder × BuilderResult)
  | .refused => .ok (b, .null)
  | .mutate call => b.mutate php call
  | .get path options => orNull php none (b.lookupGet path options)
  | .pathExists path options =>
    orNull php none (b.queue .pathExists (subdocOptionsToFlags true options) (.ok path) (.ok (some [])))

/-- Calls in their order, with their results. -/
def runAll (b : SpecBuilder) : List SpecCall → C (SpecBuilder × List BuilderResult)
  | [] => .ok (b, [])
  | call :: calls => do
    let (b, r) ← b.run php call
    let (b, rs) ← runAll b calls
    .ok (b, r :: rs)

/-- The loop of `pcbc_lookup_in_builder_init` over the paths of `retrieveIn`: what is no string is
skipped. -/
def addPaths (b : SpecBuilder) : List Zval → C SpecBuilder
  | [] => .ok b
  | .string path :: args => do
    let (b, _) ← b.lookupGet path none
    addPaths b args
  | _ :: args => addPaths b args

/-! ## The request -/

/-- `memcpy(cmd.specs + i, &spec->s, sizeof(lcb_SDSPEC))`, `i++`; the array is not initialised. -/
def copySpec (s : List (Option SdSpec) × Nat) (spec : SdSpec) : C (List (Option SdSpec) × Nat) :=
  if s.2 < s.1.length then .ok (s.1.set s.2 (some spec), s.2 + 1) else .error .outOfBounds

/-- libcouchbase reads all specs of the array. -/
def readSpecs : List (Option SdSpec) → C (List SdSpec)
  | [] => .ok []
  | none :: _ => .error .uninitialised
  | some spec :: slots => do
    let specs ← readSpecs slots
    .ok (spec :: specs)

/-- `pcbc_bucket_subdoc_request` up to `lcb_subdoc3`: `none` is a loop that does not end, and
without specs nothing is sent. -/
def subdocRequest (isLookup : Bool) (fuel : Nat) (b : SpecBuilder) :
    Option (C (Option SubdocCommand)) :=
  if b.nspecs = 0 then some (.ok none)
  else if b.nspecs.toInt < 0 then some (.error .badLength)
  else
    (b.list.walk .freed copySpec fuel b.list.head
      (List.replicate b.nspecs.toInt.toNat none, 0)).map fun copied => do
        let (slots, _) ← copied
        let specs ← readSpecs slots
        .ok (some ⟨b.id, specs, if isLookup then 0 else b.cas⟩)

end SpecBuilder

/-- `pcbc_lookup_in_builder_init` -/
def lookupBuilderInit (id : Bytes) (args : List Zval) : C SpecBuilder := do
  let b ← specBuilderInit id 0
  b.addPaths args

/-! ## What a call asks for -/

namespace BuilderCall

/-- The path that a C function takes with an `int` beside it. -/
def intPath : BuilderCall → Option Bytes
  | remove path _ => some path
  | upsert path _ _ => some path
  | replace path _ _ => some path
  | arrayAddUnique path _ _ => some path
  | arrayPrepend path _ _ => some path
  | arrayAppend path _ _ => some path
  | _ => none

end BuilderCall

namespace SpecCall

/-- The spec that a call asks for, when there is one: a call that throws asks for nothing. -/
def spec (php : Php) : SpecCall → Option SdSpec
  | .refused => none
  | .mutate call => if php.throws call.value then none else call.spec php
  | .get path options => some ⟨.get, path, [], subdocOptionsToFlags true options⟩
  | .pathExists path options => some ⟨.pathExists, path, [], subdocOptionsToFlags true options⟩

/-- What a call returns. -/
def result (php : Php) : SpecCall → BuilderResult
  | .refused => .null
  | .mutate call => call.result php
  | .get _ _ => .this
  | .pathExists _ _ => .this

/-- The encoder sets its error code, or it leaves the text of the value, whose length survives an
`int`; no `jsonSerialize()` threw. -/
def ValueFits (php : Php) (v : Zval) : Prop := (php.encode v).failed = true ∨
  (php.encode v).thrown = false ∧ (php.encode v).text ≠ [] ∧ (php.encode v).text.length < 2 ^ 31

/-- What goes through an `int` survives it, and the text of a value is its encoding. -/
structure Fits (php : Php) (call : SpecCall) : Prop where
  path : ∀ p, (match call with
    | .mutate m => m.intPath
    | .get path _ => some path
    | _ => none) = some p → p.length < 2 ^ 31
  value : ∀ v, (match call with
    | .mutate m => m.value
    | _ => none) = some v → ValueFits php v

/-- The calls that `retrieveIn` stands for. -/
def ofArgs (args : List Zval) : List SpecCall :=
  args.filterMap fun
    | .string path => some (.get path none)
    | _ => none

end SpecCall

/-! ## One call -/

namespace SpecBuilder

/-- **The invariant**: the list is what was queued, and the counter is its length. -/
structure Keeps (b : SpecBuilder) (xs : List SdSpec) : Prop where
  count : b.nspecs.toInt = xs.length
  list : b.list.Holds xs

/-- The fields of the builder and the specs in memory are as they were. -/
structure SameAs (b b' : SpecBuilder) : Prop where
  id : b'.id = b.id
  cas : b'.cas = b.cas
  nspecs : b'.nspecs = b.nspecs
  head : b'.list.head = b.list.head
  tail : b'.list.tail = b.list.tail
  read : ∀ p n, b.list.read p = some n → b'.list.read p = some n

theorem SameAs.refl (b : SpecBuilder) : SameAs b b := ⟨rfl, rfl, rfl, rfl, rfl, fun _ _ h => h⟩

theorem SameAs.discard (b : SpecBuilder) : SameAs b { b with list := b.list.discard } :=
  ⟨rfl, rfl, rfl, rfl, rfl, fun _ _ h => LinkedList.read_discard h⟩

/-- What a call leaves: its spec behind the others if it has one, else the builder as it was. -/
structure Extends (b b' : SpecBuilder) (xs : List SdSpec) (spec : Option SdSpec) : Prop where
  keeps : b'.Keeps (xs ++ spec.toList)
  id : b'.id = b.id
  cas : b'.cas = b.cas
  same : spec = none → SameAs b b'

variable {php : Php} {b : SpecBuilder} {xs : List SdSpec}

theorem toInt_add_one {n : Int32} {k : Nat} (hn : n.toInt = k) (hk : k + 1 < 2 ^ 31) :
    (n + 1).toInt = (k + 1 : Nat) := by
  rw [Int32.toInt_add, hn]
  have hone : (1 : Int32).toInt = 1 := rfl
  rw [hone, Int.bmod_eq_of_le (by omega) (by omega)]
  omega

theorem append_keeps (h : b.Keeps xs) (spec : SdSpec) (hcount : xs.length + 1 < 2 ^ 31) :
    ∃ b', b.append spec = .ok b' ∧ Extends b b' xs (some spec) := by
  obtain ⟨list, hpush, hlist⟩ := LinkedList.holds_push h.list spec
  refine ⟨{ b with list := list, nspecs := b.nspecs + 1 }, ?_, ⟨?_, hlist⟩, rfl, rfl, ?_⟩
  · rw [append, hpush]
  · rw [Option.toList_some, List.length_append, List.length_singleton]
    exact toInt_add_one h.count hcount
  · intro hnone
    cases hnone

/-- **The common shape** on a path and a value that were copied. -/
theorem queue_keeps (h : b.Keeps xs) (sdcmd : SdCommand) (flags : SdOptions) (path : Bytes)
    (value : Option Bytes)
    (hcount : (xs ++ (value.map fun v => SdSpec.mk sdcmd path v flags).toList).length < 2 ^ 31) :
    ∃ b', b.queue sdcmd flags (.ok path) (.ok value) = .ok (b', value.isSome) ∧
      Extends b b' xs (value.map fun v => ⟨sdcmd, path, v, flags⟩) := by
  cases value with
  | none =>
    refine ⟨{ b with list := b.list.discard }, rfl, ⟨?_, ?_⟩, rfl, rfl, fun _ => SameAs.discard b⟩
    · rw [Option.map_none, Option.toList_none, List.append_nil]
      exact h.count
    · rw [Option.map_none, Option.toList_none, List.append_nil]
      exact LinkedList.holds_discard h.list
  | some v =>
    rw [Option.map_some, Option.toList_some, List.length_append, List.length_singleton] at hcount
    obtain ⟨b', happend, hext⟩ := append_keeps h ⟨sdcmd, path, v, flags⟩ hcount
    refine ⟨b', ?_, hext⟩
    rw [queue]
    simp only [C.bind_ok, happend, Option.isSome_some]

theorem copyPath_eq {path : Bytes} (h : path.length < 2 ^ 31) : copyPath path = .ok path :=
  prefixOf_narrowInt h

theorem text_of_fits {value : Zval} (h : SpecCall.ValueFits php value) :
    php.jsonEncode value = none ∨ ∃ text, php.jsonEncode value = some text ∧ text ≠ [] ∧
      text.length < 2 ^ 31 := by
  cases hfailed : (php.encode value).failed with
  | true => exact .inl (jsonEncode_of_failed hfailed)
  | false =>
    rcases h with h | ⟨-, hne, hlt⟩
    · rw [hfailed] at h
      cases h
    · exact .inr ⟨_, jsonEncode_of_not_failed hfailed, hne, hlt⟩

theorem encodedValue_eq {value : Zval} (h : SpecCall.ValueFits php value) :
    encodedValue php value = .ok (php.jsonEncode value) := by
  rw [encodedValue]
  rcases text_of_fits h with hnone | ⟨text, htext, -, hlt⟩
  · rw [hnone]
  · rw [htext]
    simp only [prefixOf_narrowInt hlt, C.bind_ok]

theorem strippedValue_eq {value : Zval} (h : SpecCall.ValueFits php value) :
    strippedValue php value = .ok ((php.jsonEncode value).bind arrayItems) := by
  rw [strippedValue]
  rcases text_of_fits h with hnone | ⟨text, htext, hne, hlt⟩
  · rw [hnone]
    rfl
  · rw [htext]
    refine stripBrackets_eq hne ?_
    rw [narrowInt_of_lt hlt]
    omega

/-- A call that fits asks for what the builder appends. -/
theorem spec_mutate {call : BuilderCall} (hfit : (SpecCall.mutate call).Fits php) :
    (SpecCall.mutate call).spec php = call.spec php := by
  rw [SpecCall.spec]
  split
  · rename_i hthrows
    have hnone : ∀ value, call.value = some value → php.jsonEncode value = none := by
      intro value hvalue
      rw [hvalue] at hthrows
      rcases hfit.value value hvalue with hfailed | ⟨hthrown, -⟩
      · exact jsonEncode_of_failed hfailed
      · rw [Php.throws, hthrown] at hthrows
        cases hthrows
    cases call with
    | remove path options => cases hthrows
    | counter path delta options => cases hthrows
    | _ => simp only [BuilderCall.spec, encodedSpec, multivalueSpec, hnone _ rfl, Option.map_none,
        Option.bind_none]
  · rfl

/-- A method that returns null where nothing was queued. -/
theorem orNull_keeps (h : b.Keeps xs) {sdcmd : SdCommand} {flags : SdOptions} {path : C Bytes}
    {value : C (Option Bytes)} {encoded : Option Zval} {p : Bytes} {v : Option Bytes}
    (hpath : path = .ok p)
    (hvalue : value = .ok v) {spec : Option SdSpec}
    (hspec : spec = v.map fun v => ⟨sdcmd, p, v, flags⟩)
    (hcount : (xs ++ spec.toList).length < 2 ^ 31) :
    ∃ b', orNull php encoded (b.queue sdcmd flags path value) =
        .ok (b', .leave (php.throws encoded) (if spec.isSome || false then .this else .null)) ∧
      Extends b b' xs spec := by
  subst hpath hvalue hspec
  obtain ⟨b', hqueue, hext⟩ := queue_keeps h sdcmd flags p v hcount
  refine ⟨b', ?_, hext⟩
  rw [orNull, hqueue, C.bind_ok, Option.isSome_map, Bool.or_false]

/-- The methods of `MutateInBuilder`. -/
theorem mutate_keeps (h : b.Keeps xs) (call : BuilderCall) (hfit : (SpecCall.mutate call).Fits php)
    (hcount : (xs ++ (call.spec php).toList).length < 2 ^ 31) :
    ∃ b', b.mutate php call = .ok (b', (SpecCall.mutate call).result php) ∧
      Extends b b' xs (call.spec php) := by
  cases call with
  | remove path options =>
    exact orNull_keeps h (copyPath_eq (hfit.path path rfl)) rfl rfl hcount
  | counter path delta options => exact orNull_keeps h rfl rfl rfl hcount
  | insert path value options =>
    exact orNull_keeps h rfl (encodedValue_eq (hfit.value value rfl)) rfl hcount
  | upsert path value options =>
    exact orNull_keeps h (copyPath_eq (hfit.path path rfl))
      (encodedValue_eq (hfit.value value rfl)) rfl hcount
  | replace path value options =>
    exact orNull_keeps h (copyPath_eq (hfit.path path rfl))
      (encodedValue_eq (hfit.value value rfl)) rfl hcount
  | arrayInsert path value options =>
    exact orNull_keeps h rfl (encodedValue_eq (hfit.value value rfl)) rfl hcount
  | arrayInsertAll path value options =>
    exact orNull_keeps h rfl (strippedValue_eq (hfit.value value rfl)) rfl hcount
  | arrayAddUnique path value options =>
    exact orNull_keeps h (copyPath_eq (hfit.path path rfl))
      (encodedValue_eq (hfit.value value rfl)) rfl hcount
  | arrayPrepend path value options =>
    obtain ⟨b', hqueue, hext⟩ := queue_keeps h .arrayAddFirst (subdocOptionsToFlags false options)
      path (php.jsonEncode value) hcount
    refine ⟨b', ?_, hext⟩
    rw [mutate, copyPath_eq (hfit.path path rfl), encodedValue_eq (hfit.value value rfl), hqueue,
      SpecCall.result, BuilderCall.result, BuilderCall.isArrayPrepend, Bool.or_true, if_pos rfl]
    rfl
  | arrayPrependAll path value options =>
    exact orNull_keeps h rfl (strippedValue_eq (hfit.value value rfl)) rfl hcount
  | arrayAppend path value options =>
    exact orNull_keeps h (copyPath_eq (hfit.path path rfl))
      (encodedValue_eq (hfit.value value rfl)) rfl hcount
  | arrayAppendAll path value options =>
    exact orNull_keeps h rfl (strippedValue_eq (hfit.value value rfl)) rfl hcount

/-- **One call.** -/
theorem run_keeps (h : b.Keeps xs) (call : SpecCall) (hfit : call.Fits php)
    (hcount : (xs ++ (call.spec php).toList).length < 2 ^ 31) :
    ∃ b', b.run php call = .ok (b', call.result php) ∧ Extends b b' xs (call.spec php) := by
  cases call with
  | refused =>
    refine ⟨b, rfl, ?_, rfl, rfl, fun _ => SameAs.refl b⟩
    have hnone : SpecCall.refused.spec php = none := rfl
    rw [hnone, Option.toList_none, List.append_nil]
    exact h
  | mutate call =>
    rw [spec_mutate hfit] at hcount ⊢
    exact mutate_keeps h call hfit hcount
  | get path options => exact orNull_keeps h (copyPath_eq (hfit.path path rfl)) rfl rfl hcount
  | pathExists path options => exact orNull_keeps h rfl rfl rfl hcount

/-- **Calls in a row.** -/
theorem runAll_keeps (h : b.Keeps xs) (calls : List SpecCall) (hfit : ∀ call ∈ calls, call.Fits php)
    (hcount : (xs ++ calls.filterMap (SpecCall.spec php)).length < 2 ^ 31) :
    ∃ b', b.runAll php calls = .ok (b', calls.map (SpecCall.result php)) ∧
      b'.Keeps (xs ++ calls.filterMap (SpecCall.spec php)) ∧ b'.id = b.id ∧ b'.cas = b.cas := by
  induction calls generalizing b xs with
  | nil =>
    refine ⟨b, rfl, ?_, rfl, rfl⟩
    rw [List.filterMap_nil, List.append_nil]
    exact h
  | cons call calls ih =>
    have hsplit : xs ++ (call :: calls).filterMap (SpecCall.spec php) =
        (xs ++ (call.spec php).toList) ++ calls.filterMap (SpecCall.spec php) := by
      rw [List.append_assoc, List.filterMap_cons]
      cases call.spec php <;> rfl
    rw [hsplit] at hcount ⊢
    have hone : (xs ++ (call.spec php).toList).length < 2 ^ 31 := by
      rw [List.length_append] at hcount
      omega
    obtain ⟨b₁, hrun, hext⟩ := run_keeps h call (hfit call (List.mem_cons_self ..)) hone
    obtain ⟨b₂, hall, hkeeps, hid, hcas⟩ := ih hext.keeps
      (fun c hc => hfit c (List.mem_cons_of_mem _ hc)) hcount
    refine ⟨b₂, ?_, hkeeps, hid.trans hext.id, hcas.trans hext.cas⟩
    rw [runAll, hrun]
    simp only [C.bind_ok, hall, List.map_cons]

/-- The loop over the paths makes the calls of `get` that the strings stand for. -/
theorem addPaths_eq (b : SpecBuilder) (args : List Zval) :
    b.addPaths args = (b.runAll php (SpecCall.ofArgs args)).map Prod.fst := by
  induction args generalizing b with
  | nil => rfl
  | cons arg args ih =>
    cases arg with
    | string path =>
      show (b.lookupGet path none >>= fun r => r.1.addPaths args) =
        ((orNull php none (b.lookupGet path none)) >>= fun r =>
          (r.1.runAll php (SpecCall.ofArgs args)) >>= fun rs => .ok (rs.1, r.2 :: rs.2)).map Prod.fst
      cases b.lookupGet path none with
      | error e => rfl
      | ok r =>
        rw [orNull]
        simp only [C.bind_ok, ih]
        cases r.1.runAll php (SpecCall.ofArgs args) <;> rfl
    | undef => exact ih b
    | null => exact ih b
    | false => exact ih b
    | true => exact ih b
    | long n => exact ih b
    | double bits => exact ih b
    | array elems => exact ih b
    | object c props => exact ih b
    | reference value => exact ih b

/-! ## The request -/

/-- The loop fills as many slots as there are specs. -/
theorem copySpecs_eq (copied specs : List SdSpec) :
    specs.foldlM copySpec (copied.map some ++ List.replicate specs.length none, copied.length) =
      .ok ((copied ++ specs).map some, (copied ++ specs).length) := by
  induction specs generalizing copied with
  | nil =>
    rw [List.append_nil, List.length_nil, List.replicate_zero, List.append_nil]
    rfl
  | cons spec specs ih =>
    have hslot : copied.length <
        (copied.map some ++ List.replicate (spec :: specs).length none).length := by
      rw [List.length_append, List.length_map, List.length_replicate, List.length_cons]
      omega
    have hset : (copied.map some ++ List.replicate (spec :: specs).length none).set copied.length
        (some spec) = (copied ++ [spec]).map some ++ List.replicate specs.length none := by
      rw [List.set_append_right _ _ (by rw [List.length_map]), List.length_map, Nat.sub_self,
        List.length_cons, List.replicate_succ, List.set_cons_zero, List.map_append, List.append_assoc]
      rfl
    rw [List.foldlM_cons, copySpec, if_pos hslot, C.bind_ok, hset]
    have hnext := ih (copied ++ [spec])
    rw [List.length_append, List.length_singleton, List.append_assoc] at hnext
    exact hnext

theorem readSpecs_map_some (specs : List SdSpec) : readSpecs (specs.map some) = .ok specs := by
  induction specs with
  | nil => rfl
  | cons spec specs ih =>
    rw [List.map_cons, readSpecs, ih]
    rfl

/-- **What is sent**: the specs of the list, in their order, within the array. -/
theorem subdocRequest_eq (h : b.Keeps xs) (isLookup : Bool) {fuel : Nat} (hfuel : xs.length ≤ fuel) :
    b.subdocRequest isLookup fuel =
      some (.ok (if xs = [] then none else some ⟨b.id, xs, if isLookup then 0 else b.cas⟩)) := by
  have hcount := h.count
  by_cases hxs : xs = []
  · subst hxs
    have hzero : b.nspecs = 0 := Int32.toInt_inj.mp hcount
    rw [subdocRequest, if_pos hzero, if_pos rfl]
  · have hpos : 0 < xs.length := List.length_pos_iff_ne_nil.mpr hxs
    have hne : b.nspecs ≠ 0 := by
      intro hzero
      rw [hzero, Int32.toInt_zero] at hcount
      omega
    have hcopied := copySpecs_eq [] xs
    rw [subdocRequest, if_neg hne, if_neg (by omega), if_neg hxs, hcount, Int.toNat_natCast,
      LinkedList.walk_eq_of_holds h.list _ _ _ hfuel]
    rw [List.map_nil, List.nil_append, List.nil_append, List.length_nil] at hcopied
    rw [hcopied, Option.map_some]
    simp only [C.bind_ok, readSpecs_map_some]

/-! ## The builder that is a list -/

/-- The builder in memory stands for one that is a list of specs. -/
structure Represents (b : SpecBuilder) (a : MutateInBuilder) : Prop where
  keeps : b.Keeps a.specs
  id : b.id = a.id
  cas : b.cas = a.cas

/-- **Refinement**: the calls have the same results, and what is sent is the same command. -/
theorem runAll_refines {a : MutateInBuilder} (h : b.Represents a) (calls : List BuilderCall)
    (hfit : ∀ call ∈ calls, (SpecCall.mutate call).Fits php)
    (hcount : (BuilderCall.runAll php a calls).1.specs.length < 2 ^ 31) :
    ∃ b', b.runAll php (calls.map SpecCall.mutate) = .ok (b', (BuilderCall.runAll php a calls).2) ∧
      b'.Represents (BuilderCall.runAll php a calls).1 ∧
      ∀ fuel, (BuilderCall.runAll php a calls).1.specs.length ≤ fuel →
        b'.subdocRequest false fuel =
          some (.ok (if (BuilderCall.runAll php a calls).1.specs = [] then none
            else some (BuilderCall.runAll php a calls).1.command)) := by
  have hspecs : (calls.map SpecCall.mutate).filterMap (SpecCall.spec php) =
      calls.filterMap (BuilderCall.spec php) := by
    rw [List.filterMap_map]
    exact List.filterMap_congr fun call hcall => spec_mutate (hfit call hcall)
  have hresults : (calls.map SpecCall.mutate).map (SpecCall.result php) =
      calls.map (BuilderCall.result php) := by
    rw [List.map_map]
    rfl
  rw [runAll_eq] at hcount ⊢
  have hall : ∀ call ∈ calls.map SpecCall.mutate, call.Fits php := by
    intro call hcall
    obtain ⟨m, hm, rfl⟩ := List.mem_map.mp hcall
    exact hfit m hm
  obtain ⟨b', hrun, hkeeps, hid, hcas⟩ :=
    runAll_keeps h.keeps (calls.map SpecCall.mutate) hall (by rw [hspecs]; exact hcount)
  rw [hspecs] at hkeeps
  rw [hresults] at hrun
  refine ⟨b', hrun, ⟨hkeeps, hid.trans h.id, hcas.trans h.cas⟩, fun fuel hfuel => ?_⟩
  rw [subdocRequest_eq hkeeps false hfuel, hid.trans h.id, hcas.trans h.cas]
  rfl

/-! ## Builders after calls -/

/-- A builder that holds what was queued, and nothing else. -/
structure HoldsCalls (php : Php) (id : Bytes) (cas : UInt64) (queued : List SdSpec)
    (b : SpecBuilder) : Prop where
  /-- `nspecs` is the length of the list -/
  count : b.nspecs.toInt = queued.length
  /-- from `head` on, the list has the specs in the order of the calls -/
  list : b.list.Holds queued
  /-- `tail` is null when the list is empty -/
  tail_null : b.list.tail = none ↔ queued = []
  /-- and else points to the last node -/
  tail_last : ∀ init last, queued = init ++ [last] →
    ∃ t, b.list.tail = some t ∧ b.list.read t = some ⟨last, none⟩
  /-- a call without a spec leaves the builder as it was -/
  refused : ∀ call : SpecCall, call.Fits php → call.spec php = none →
    ∃ b', b.run php call = .ok (b', call.result php) ∧ SameAs b b'
  /-- the request sends the specs in their order, and stays within the array it allocates -/
  sent : ∀ isLookup fuel, queued.length ≤ fuel →
    b.subdocRequest isLookup fuel =
      some (.ok (if queued = [] then none else some ⟨id, queued, if isLookup then 0 else cas⟩))

theorem HoldsCalls.of_keeps (h : b.Keeps xs) (hcount : xs.length < 2 ^ 31) :
    b.HoldsCalls php b.id b.cas xs where
  count := h.count
  list := h.list
  tail_null := h.list.tail_eq_none_iff
  tail_last := by
    rintro init last rfl
    exact h.list.read_tail
  refused := by
    intro call hfit hspec
    obtain ⟨b', hrun, hext⟩ := run_keeps h call hfit (by
      rw [hspec, Option.toList_none, List.append_nil]
      exact hcount)
    exact ⟨b', hrun, hext.same hspec⟩
  sent := fun isLookup _ hfuel => subdocRequest_eq h isLookup hfuel

end SpecBuilder

/-- What the builder is for: after `mutateIn` or `lookupIn` and any calls it holds their specs, and
each call says whether it has one. -/
def BuilderMeets (php : Php) (id : Bytes) (cas : UInt64) (calls : List SpecCall) : Prop :=
  ∃ b, (specBuilderInit id cas >>= fun b => b.runAll php calls) =
      .ok (b, calls.map (SpecCall.result php)) ∧
    b.HoldsCalls php id cas (calls.filterMap (SpecCall.spec php))

/-- The same for the arguments of `retrieveIn`. -/
def RetrieveMeets (php : Php) (id : Bytes) (args : List Zval) : Prop :=
  ∃ b, lookupBuilderInit id args = .ok b ∧
    b.HoldsCalls php id 0 ((SpecCall.ofArgs args).filterMap (SpecCall.spec php))

/-- The lengths that are an `int` are the real ones: of the id, of the paths of the C functions and
of the encoded values, and the number of specs; and no value is encoded by a `jsonSerialize()` that
throws. -/
structure CallsFit (php : Php) (id : Bytes) (calls : List SpecCall) : Prop where
  id : id.length < 2 ^ 31
  each : ∀ call ∈ calls, call.Fits php
  count : (calls.filterMap (SpecCall.spec php)).length < 2 ^ 31

theorem specBuilderInit_eq {id : Bytes} (h : id.length < 2 ^ 31) (cas : UInt64) :
    specBuilderInit id cas = .ok ⟨id, cas, 0, .empty⟩ := by
  rw [specBuilderInit, prefixOf_narrowInt h]
  rfl

theorem empty_keeps (id : Bytes) (cas : UInt64) : SpecBuilder.Keeps ⟨id, cas, 0, .empty⟩ [] :=
  ⟨rfl, LinkedList.holds_empty⟩

theorem builderMeets_of_fit {php : Php} {id : Bytes} {calls : List SpecCall}
    (h : CallsFit php id calls) (cas : UInt64) : BuilderMeets php id cas calls := by
  obtain ⟨b, hrun, hkeeps, rfl, rfl⟩ :=
    SpecBuilder.runAll_keeps (empty_keeps id cas) calls h.each h.count
  refine ⟨b, ?_, SpecBuilder.HoldsCalls.of_keeps hkeeps h.count⟩
  rw [specBuilderInit_eq h.id, C.bind_ok, hrun]

theorem retrieveMeets_of_fit {php : Php} {id : Bytes} {args : List Zval}
    (h : CallsFit php id (SpecCall.ofArgs args)) : RetrieveMeets php id args := by
  obtain ⟨b, hrun, hholds⟩ := builderMeets_of_fit h 0
  refine ⟨b, ?_, hholds⟩
  rw [specBuilderInit_eq h.id, C.bind_ok] at hrun
  rw [lookupBuilderInit, specBuilderInit_eq h.id, C.bind_ok, @SpecBuilder.addPaths_eq php, hrun]
  rfl

/-- **The spec list**, after any calls whose lengths fit. -/
theorem spec_builder_invariant (php : Php) (id : Bytes) (cas : UInt64) (calls : List SpecCall)
    (args : List Zval) (hcalls : CallsFit php id calls)
    (hargs : CallsFit php id (SpecCall.ofArgs args)) :
    BuilderMeets php id cas calls ∧ RetrieveMeets php id args :=
  ⟨builderMeets_of_fit hcalls cas, retrieveMeets_of_fit hargs⟩

/-- An `upsert`, a call that is not accepted and a `remove`. -/
def someCalls : List SpecCall :=
  [.mutate (.upsert (ascii "a") (.string (ascii "x")) none), .refused,
    .mutate (.remove (ascii "b") none)]

theorem someCalls_fit : CallsFit plainPhp (ascii "d") someCalls := by
  refine ⟨by decide, ?_, by decide⟩
  intro call hcall
  simp only [someCalls, List.mem_cons, List.not_mem_nil, or_false] at hcall
  rcases hcall with rfl | rfl | rfl
  · refine ⟨fun p hp => ?_, fun v hv => ?_⟩
    · rw [← Option.some.inj hp]
      decide
    · obtain rfl := Option.some.inj hv
      exact .inr ⟨rfl, by decide, by decide⟩
  · refine ⟨fun p hp => ?_, fun v hv => nomatch hv⟩
    cases hp
  · refine ⟨fun p hp => ?_, fun v hv => nomatch hv⟩
    rw [← Option.some.inj hp]
    decide

/-- `retrieveIn("d", "a", 1)` -/
theorem someArgs_fit :
    CallsFit plainPhp (ascii "d") (SpecCall.ofArgs [.string (ascii "a"), .long 1]) := by
  refine ⟨by decide, ?_, by decide⟩
  intro call hcall
  obtain rfl := List.mem_singleton.mp hcall
  refine ⟨fun p hp => ?_, fun v hv => nomatch hv⟩
  rw [← Option.some.inj hp]
  decide

theorem some_calls_kept :
    BuilderMeets plainPhp (ascii "d") 7 someCalls ∧
      RetrieveMeets plainPhp (ascii "d") [.string (ascii "a"), .long 1] :=
  spec_builder_invariant plainPhp (ascii "d") 7 someCalls [.string (ascii "a"), .long 1] someCalls_fit
    someArgs_fit

/-- **A path of 2^31 bytes or more is not the one in the list.** -/
theorem long_path_lost (php : Php) {id path : Bytes} (cas : UInt64) (options : Option Zval)
    (h : 2 ^ 31 ≤ path.length) : ¬BuilderMeets php id cas [.mutate (.remove path options)] := by
  rintro ⟨b, hrun, hholds⟩
  unfold specBuilderInit at hrun
  cases hid : prefixOf id (narrowInt id.length) with
  | error e =>
    rw [hid] at hrun
    cases hrun
  | ok copy =>
    cases hpath : copyPath path with
    | error e =>
      rw [hid] at hrun
      simp only [C.bind_ok, SpecBuilder.runAll, SpecBuilder.run, SpecBuilder.mutate, hpath,
        SpecBuilder.queue, SpecBuilder.orNull, C.bind_error] at hrun
      cases hrun
    | ok p =>
      obtain ⟨b', hqueue, hext⟩ := SpecBuilder.queue_keeps (empty_keeps copy cas) .remove
        (subdocOptionsToFlags false options) p (some []) (by simp)
      rw [hid] at hrun
      simp only [C.bind_ok, SpecBuilder.runAll, SpecBuilder.run, SpecBuilder.mutate, hpath, hqueue,
        SpecBuilder.orNull] at hrun
      obtain rfl := (Prod.mk.inj (Except.ok.inj hrun)).1
      -- the request tells the two paths apart
      have hsent := hholds.sent false 1 (Nat.le_refl 1)
      rw [SpecBuilder.subdocRequest_eq hext.keeps false (Nat.le_refl 1)] at hsent
      have hcmd := Option.some.inj (Except.ok.inj (Option.some.inj hsent))
      have hspec := List.cons.inj (SubdocCommand.mk.inj hcmd).2.1
      obtain rfl := (SdSpec.mk.inj hspec.1).2.1
      exact prefixOf_ne_of_ge h hpath

/-- `remove(str_repeat("a", 2 ** 32 + 1))` queues the path `"a"`. -/
theorem remove_long_path_lost :
    ¬BuilderMeets plainPhp (ascii "d") 0 [.mutate (.remove (List.replicate (2 ^ 32 + 1) 97) none)] := by
  refine long_path_lost plainPhp 0 none ?_
  rw [List.length_replicate]
  decide

end PhpCouchbase
