import PhpCouchbase.SpecBuilder
import PhpCouchbase.DataStructures

/-!
# What the writing methods say of their writes

The data structure methods of `bucket.c` that write and `execute` of `mutate_in_builder.c`, with
their builder in memory and the lengths of ids, paths and values in the `int` that the code keeps
them in.  The methods drop the fragment of `bucket/subdoc.c`, and with it the error of the server;
`setRemove` and `queueRemove` beside them read it.  A builder function that returns `FAILURE` for a
value that JSON cannot encode is not looked at by these methods either, nor by `arrayPrepend`.

* `WriteCall.method_refines` — a method whose lengths fit is the one whose builder is a list.
* `writeReported_iff`, `executeReported_iff` — exactly when a normal return without an error means
  that the write is done, for every call, every value and every answer.
* `writes_reported_iff` — both.
* `failed_push_returns` — `listPush` on a document that is no list returns as if it had pushed.
-/

set_option autoImplicit false

namespace PhpCouchbase

/-! ## Running a method -/

/-- What libcouchbase and the server answer. -/
structure Answers where
  get : Bytes → Answer Response
  subdoc : SubdocCommand → Answer SubdocResponse

/-- The subdocument commands that a method sends, and how it ends. -/
def Proc.run {ρ : Type} (answers : Answers) : Proc ρ → List SubdocCommand × C (Outcome ρ)
  | .done o => ([], o)
  | .get key next => (next (answers.get key)).run answers
  | .subdoc cmd next =>
    (cmd :: ((next (answers.subdoc cmd)).run answers).1, ((next (answers.subdoc cmd)).run answers).2)

/-! ## The methods -/

/-- A call of a data structure method that writes. -/
inductive WriteCall where
  | mapAdd (id key : Bytes) (val : Zval)
  | mapRemove (id key : Bytes)
  | listPush (id : Bytes) (val : Zval)
  | listShift (id : Bytes) (val : Zval)
  | listSet (id : Bytes) (index : Int64) (val : Zval)
  | listRemove (id : Bytes) (index : Int64)
  | setAdd (id : Bytes) (val : Zval)
  | queueAdd (id : Bytes) (val : Zval)

namespace WriteCall

def proc (php : Php) (bucket : BucketConf) : WriteCall → Proc Zval
  | mapAdd id key val => PhpCouchbase.mapAdd php bucket id key val
  | mapRemove id key => PhpCouchbase.mapRemove php bucket id key
  | listPush id val => PhpCouchbase.listPush php bucket id val
  | listShift id val => PhpCouchbase.listShift php bucket id val
  | listSet id index val => PhpCouchbase.listSet php bucket id index val
  | listRemove id index => PhpCouchbase.listRemove php bucket id index
  | setAdd id val => PhpCouchbase.setAdd php bucket id val
  | queueAdd id val => PhpCouchbase.queueAdd php bucket id val

def id : WriteCall → Bytes
  | mapAdd id _ _ => id
  | mapRemove id _ => id
  | listPush id _ => id
  | listShift id _ => id
  | listSet id _ _ => id
  | listRemove id _ => id
  | setAdd id _ => id
  | queueAdd id _ => id

/-- The value that a call encodes. -/
def value : WriteCall → Option Zval
  | mapAdd _ _ val => some val
  | mapRemove _ _ => none
  | listPush _ val => some val
  | listShift _ val => some val
  | listSet _ _ val => some val
  | listRemove _ _ => none
  | setAdd _ val => some val
  | queueAdd _ val => some val

/-- The spec that a call asks for; none for a value that JSON cannot encode. -/
def spec (php : Php) : WriteCall → Option SdSpec
  | mapAdd _ key val => encodedSpec php .dictUpsert key val mkIntermediates
  | mapRemove _ key => some (removeSpec key noOptions)
  | listPush _ val => encodedSpec php .arrayAddLast [] val mkIntermediates
  | listShift _ val => encodedSpec php .arrayAddFirst [] val mkIntermediates
  | listSet _ index val => encodedSpec php .replace (indexPath index) val noOptions
  | listRemove _ index => some (removeSpec (indexPath index) noOptions)
  | setAdd _ val => encodedSpec php .arrayAddUnique [] val mkIntermediates
  | queueAdd _ val => encodedSpec php .arrayAddFirst [] val mkIntermediates

/-- The command with the spec of the call alone. -/
def command (call : WriteCall) (spec : SdSpec) : SubdocCommand := ⟨call.id, [spec], 0⟩

end WriteCall

/-! ## Specs -/

/-- What a builder is asked to queue: the path and the value as they are copied. -/
structure SpecParts where
  sdcmd : SdCommand
  flags : SdOptions
  path : C Bytes
  value : C (Option Bytes)

/-- The spec that is queued; `none` is a value that JSON cannot encode. -/
def SpecParts.narrowed (p : SpecParts) : C (Option SdSpec) := do
  let path ← p.path
  let value ← p.value
  return value.map fun value => ⟨p.sdcmd, path, value, p.flags⟩

def SpecBuilder.queueParts (b : SpecBuilder) (p : SpecParts) : C (SpecBuilder × Bool) :=
  b.queue p.sdcmd p.flags p.path p.value

/-- A spec that is queued as it is asked for. -/
theorem SpecParts.narrowed_ok {path path' : Bytes} {value : C (Option Bytes)} {v : Option Bytes}
    (sdcmd : SdCommand) (flags : SdOptions) (hpath : copyPath path = .ok path') (hvalue : value = .ok v) :
    SpecParts.narrowed ⟨sdcmd, flags, copyPath path, value⟩ =
      .ok (v.map fun v => ⟨sdcmd, path', v, flags⟩) := by
  rw [narrowed, hpath, hvalue]
  rfl

/-! ## The builder in memory -/

namespace SpecBuilder

variable {b : SpecBuilder} {xs : List SdSpec}

/-- The specs are in memory; the counter, an `int`, may have wrapped. -/
structure Lists (b : SpecBuilder) (xs : List SdSpec) : Prop where
  count : b.nspecs = Int32.ofNat xs.length
  list : b.list.Holds xs

/-- A builder of the same request with other specs. -/
structure Grown (b b' : SpecBuilder) (xs : List SdSpec) : Prop where
  lists : b'.Lists xs
  id : b'.id = b.id
  cas : b'.cas = b.cas

theorem append_lists (h : b.Lists xs) (spec : SdSpec) :
    ∃ b', b.append spec = .ok b' ∧ Grown b b' (xs ++ [spec]) := by
  obtain ⟨list, hpush, hlist⟩ := LinkedList.holds_push h.list spec
  refine ⟨{ b with list := list, nspecs := b.nspecs + 1 }, ?_, ⟨?_, hlist⟩, rfl, rfl⟩
  · rw [append, hpush]
  · rw [List.length_append, List.length_singleton, Int32.ofNat_add, h.count]
    rfl

/-- **The common shape** on any parts. -/
theorem queue_lists (h : b.Lists xs) {p : SpecParts} {spec : Option SdSpec}
    (hp : p.narrowed = .ok spec) :
    ∃ b', b.queueParts p = .ok (b', spec.isSome) ∧ Grown b b' (xs ++ spec.toList) := by
  obtain ⟨path, hpath, hp⟩ := C.bind_eq_ok.mp hp
  obtain ⟨value, hvalue, hp⟩ := C.bind_eq_ok.mp hp
  rw [C.pure_eq, Except.ok.injEq] at hp
  subst hp
  rw [queueParts, queue, hpath, hvalue, C.bind_ok, C.bind_ok]
  cases value with
  | none =>
    refine ⟨{ b with list := b.list.discard }, rfl, ⟨?_, ?_⟩, rfl, rfl⟩
    · rw [Option.map_none, Option.toList_none, List.append_nil]
      exact h.count
    · rw [Option.map_none, Option.toList_none, List.append_nil]
      exact LinkedList.holds_discard h.list
  | some value =>
    obtain ⟨b', happend, hgrown⟩ := append_lists h ⟨p.sdcmd, path, value, p.flags⟩
    refine ⟨b', ?_, hgrown⟩
    simp only [happend, C.bind_ok, Option.isSome_map, Option.isSome_some]

theorem queue_error {p : SpecParts} {f : Fault} (hp : p.narrowed = .error f) :
    b.queueParts p = .error f := by
  unfold SpecParts.narrowed at hp
  unfold queueParts queue
  cases hpath : p.path with
  | error e =>
    rw [hpath, C.bind_error] at hp
    rw [C.bind_error, Except.error.inj hp]
  | ok path =>
    rw [hpath, C.bind_ok] at hp
    rw [C.bind_ok]
    cases hvalue : p.value with
    | error e =>
      rw [hvalue, C.bind_error] at hp
      rw [C.bind_error, Except.error.inj hp]
    | ok value =>
      rw [hvalue] at hp
      cases hp

/-! ## The request -/

/-- `pcbc_bucket_subdoc_request`: a loop over the list meets no cell twice, so it ends within as
many steps as there are cells; `none` is a loop that does not. -/
def request (php : Php) (bucket : BucketConf) {ρ : Type} (b : SpecBuilder)
    (next : Requested → Proc ρ) : Option (Proc ρ) :=
  (b.subdocRequest false b.list.cells.length).map fun
    | .error f => .done (.error f)
    | .ok none => next .skipped
    | .ok (some cmd) => .subdoc cmd fun answer => next (requested php bucket cmd answer)

/-- More specs than slots. -/
theorem copySpecs_overflow (specs : List SdSpec) (slots : List (Option SdSpec)) {i : Nat}
    (hi : i ≤ slots.length) (h : slots.length < i + specs.length) :
    specs.foldlM copySpec (slots, i) = .error .outOfBounds := by
  induction specs generalizing slots i with
  | nil =>
    rw [List.length_nil] at h
    omega
  | cons spec specs ih =>
    rw [List.length_cons] at h
    rw [List.foldlM_cons, copySpec]
    by_cases hlt : i < slots.length
    · rw [if_pos hlt, C.bind_ok]
      dsimp only
      have hset : (slots.set i (some spec)).length = slots.length := List.length_set
      exact ih _ (by omega) (by omega)
    · rw [if_neg hlt, C.bind_error]

variable {php : Php} {bucket : BucketConf} {ρ : Type} (next : Requested → Proc ρ)

/-- The counter of a list that is not too long. -/
theorem request_fits (h : b.Lists xs) (hlt : xs.length < 2 ^ 31) :
    b.request php bucket next = some (bucketSubdocRequest php bucket ⟨b.id, xs, b.cas⟩ next) := by
  have hkeeps : b.Keeps xs := ⟨by rw [h.count, Int32.toInt_ofNat_of_lt hlt], h.list⟩
  rw [request, subdocRequest_eq hkeeps false h.list.length_le]
  unfold bucketSubdocRequest
  dsimp only
  split <;> rfl

/-- A counter that has come round to zero. -/
theorem request_zero (h : b.Lists xs) (hzero : Int32.ofNat xs.length = 0) :
    b.request php bucket next = some (next .skipped) := by
  rw [request, subdocRequest, if_pos (h.count.trans hzero)]
  rfl

/-- The counter as an `int`. -/
theorem toInt_ofNat_cases {n : Nat} (h : 2 ^ 31 ≤ n) :
    (Int32.ofNat n).toInt < 0 ∨ (Int32.ofNat n).toInt.toNat < n := by
  rw [Int32.toInt_ofNat', Int.bmod]
  have hsize : ((Int32.size : Nat) : Int) = 2 ^ 32 := rfl
  rw [hsize]
  omega

/-- A counter that has wrapped: a negative size, or an array that is too small. -/
theorem request_wrapped (h : b.Lists xs) (hle : 2 ^ 31 ≤ xs.length)
    (hne : Int32.ofNat xs.length ≠ 0) :
    ∃ f, b.request php bucket next = some (.done (.error f)) := by
  rw [request, subdocRequest, if_neg (h.count ▸ hne), h.count]
  by_cases hneg : (Int32.ofNat xs.length).toInt < 0
  · rw [if_pos hneg]
    exact ⟨_, rfl⟩
  · have hlt := (toInt_ofNat_cases hle).resolve_left hneg
    rw [if_neg hneg, LinkedList.walk_eq_of_holds h.list _ _ _ h.list.length_le,
      copySpecs_overflow xs _ (Nat.zero_le _) (by rw [List.length_replicate]; omega)]
    exact ⟨_, rfl⟩

theorem int32_ofNat_eq_zero_iff (n : Nat) : Int32.ofNat n = 0 ↔ 2 ^ 32 ∣ n := by
  rw [← Int32.toInt_inj, Int32.toInt_zero, Int32.toInt_ofNat', Int.bmod]
  have hsize : ((Int32.size : Nat) : Int) = 2 ^ 32 := rfl
  rw [hsize]
  omega

end SpecBuilder

/-! ## The data structure methods -/

variable {php : Php} {bucket : BucketConf} {answers : Answers}

/-- What the C functions are asked for; they take the length of the path as an `int`. -/
def WriteCall.parts (php : Php) : WriteCall → SpecParts
  | mapAdd _ key val => ⟨.dictUpsert, mkIntermediates, copyPath key, encodedValue php val⟩
  | mapRemove _ key => ⟨.remove, noOptions, copyPath key, .ok (some [])⟩
  | listPush _ val => ⟨.arrayAddLast, mkIntermediates, copyPath [], encodedValue php val⟩
  | listShift _ val => ⟨.arrayAddFirst, mkIntermediates, copyPath [], encodedValue php val⟩
  | listSet _ index val => ⟨.replace, noOptions, copyPath (indexPath index), encodedValue php val⟩
  | listRemove _ index => ⟨.remove, noOptions, copyPath (indexPath index), .ok (some [])⟩
  | setAdd _ val => ⟨.arrayAddUnique, mkIntermediates, copyPath [], encodedValue php val⟩
  | queueAdd _ val => ⟨.arrayAddFirst, mkIntermediates, copyPath [], encodedValue php val⟩

/-- A method: the builder is made and takes the spec, or fails to, and its request is made; null is
returned whatever becomes of it. -/
def WriteCall.method (php : Php) (bucket : BucketConf) (call : WriteCall) : Option (Proc Zval) :=
  match specBuilderInit call.id 0 >>= fun b => b.queueParts (call.parts php) with
  | .error f => some (.done (.error f))
  | .ok (b, _) => b.request php bucket (mutateEnd (php.throws call.value))

/-- The command that a call asks for. -/
def WriteCall.requested (php : Php) (call : WriteCall) : Option SubdocCommand :=
  (call.spec php).map call.command

/-- The same with every length in an `int`. -/
def WriteCall.narrowed (php : Php) (call : WriteCall) : C (Option SubdocCommand) := do
  let key ← prefixOf call.id (narrowInt call.id.length)
  let spec ← (call.parts php).narrowed
  return spec.map fun spec => ⟨key, [spec], 0⟩

/-- The request of a command, if there is one. -/
def dropped (php : Php) (bucket : BucketConf) (thrown : Bool) : Option SubdocCommand → Proc Zval
  | none => mutateEnd thrown .skipped
  | some cmd => bucketSubdocRequest php bucket cmd (mutateEnd thrown)

/-- **A method makes the request of its narrowed command.** -/
theorem WriteCall.method_eq (call : WriteCall) :
    call.method php bucket = some (match call.narrowed php with
      | .error f => .done (.error f)
      | .ok cmd => dropped php bucket (php.throws call.value) cmd) := by
  unfold method narrowed specBuilderInit
  cases prefixOf call.id (narrowInt call.id.length) with
  | error f => rfl
  | ok key =>
    have hempty : SpecBuilder.Lists ⟨key, 0, 0, .empty⟩ [] := ⟨rfl, LinkedList.holds_empty⟩
    simp only [C.bind_ok]
    cases hparts : (call.parts php).narrowed with
    | error f =>
      rw [SpecBuilder.queue_error hparts, C.bind_error]
    | ok spec =>
      obtain ⟨b, hqueue, hlists, hid, hcas⟩ := SpecBuilder.queue_lists hempty hparts
      have hlt : ([] ++ spec.toList).length < 2 ^ 31 := by
        cases spec <;> simp
      rw [hqueue, C.bind_ok]
      dsimp only
      rw [SpecBuilder.request_fits _ hlists hlt, hid, hcas]
      cases spec <;> rfl

/-- The path of a call. -/
def WriteCall.path : WriteCall → Bytes
  | mapAdd _ key _ => key
  | mapRemove _ key => key
  | listPush _ _ => []
  | listShift _ _ => []
  | listSet _ index _ => indexPath index
  | listRemove _ index => indexPath index
  | setAdd _ _ => []
  | queueAdd _ _ => []

/-- Every length survives an `int`. -/
structure WriteCall.Fits (php : Php) (call : WriteCall) : Prop where
  id : call.id.length < 2 ^ 31
  path : call.path.length < 2 ^ 31
  text : ∀ val, call.value = some val → ∀ text, php.jsonEncode val = some text → text.length < 2 ^ 31

theorem encodedValue_of_lt {val : Zval}
    (h : ∀ text, php.jsonEncode val = some text → text.length < 2 ^ 31) :
    encodedValue php val = .ok (php.jsonEncode val) := by
  unfold encodedValue
  cases htext : php.jsonEncode val with
  | none => rfl
  | some text =>
    dsimp only
    rw [prefixOf_narrowInt (h text htext)]
    rfl

/-- **A command that fits is sent as it is asked for.** -/
theorem WriteCall.narrowed_of_fits {call : WriteCall} (h : call.Fits php) :
    call.narrowed php = .ok (call.requested php) := by
  have hparts : (call.parts php).narrowed = .ok (call.spec php) := by
    cases call with
    | mapAdd id key val =>
      exact SpecParts.narrowed_ok _ _ (prefixOf_narrowInt h.path) (encodedValue_of_lt (h.text val rfl))
    | mapRemove id key => exact SpecParts.narrowed_ok _ _ (prefixOf_narrowInt h.path) rfl
    | listPush id val =>
      exact SpecParts.narrowed_ok _ _ (prefixOf_narrowInt h.path) (encodedValue_of_lt (h.text val rfl))
    | listShift id val =>
      exact SpecParts.narrowed_ok _ _ (prefixOf_narrowInt h.path) (encodedValue_of_lt (h.text val rfl))
    | listSet id index val =>
      exact SpecParts.narrowed_ok _ _ (prefixOf_narrowInt h.path) (encodedValue_of_lt (h.text val rfl))
    | listRemove id index => exact SpecParts.narrowed_ok _ _ (prefixOf_narrowInt h.path) rfl
    | setAdd id val =>
      exact SpecParts.narrowed_ok _ _ (prefixOf_narrowInt h.path) (encodedValue_of_lt (h.text val rfl))
    | queueAdd id val =>
      exact SpecParts.narrowed_ok _ _ (prefixOf_narrowInt h.path) (encodedValue_of_lt (h.text val rfl))
  rw [narrowed, prefixOf_narrowInt h.id, C.bind_ok, hparts]
  rfl

theorem mutateValue_dropped (sdcmd : SdCommand) (id path : Bytes) (val : Zval) (flags : SdOptions) :
    (mutateValue php bucket id val fun b =>
      MutateInBuilder.addEncoded php sdcmd b path val flags) =
      dropped php bucket (php.encode val).thrown
        ((encodedSpec php sdcmd path val flags).map fun spec => ⟨id, [spec], 0⟩) := by
  unfold mutateValue MutateInBuilder.addEncoded
  cases encodedSpec php sdcmd path val flags <;> rfl

/-- **A method whose lengths fit** is the one whose builder is a list of specs. -/
theorem WriteCall.method_refines {call : WriteCall} (h : call.Fits php) :
    call.method php bucket = some (call.proc php bucket) := by
  rw [method_eq, narrowed_of_fits h, Option.some.injEq]
  dsimp only
  cases call with
  | mapRemove id key => rfl
  | listRemove id index => rfl
  | mapAdd id key val => exact (mutateValue_dropped .dictUpsert id key val mkIntermediates).symm
  | listPush id val => exact (mutateValue_dropped .arrayAddLast id [] val mkIntermediates).symm
  | listShift id val => exact (mutateValue_dropped .arrayAddFirst id [] val mkIntermediates).symm
  | listSet id index val =>
    exact (mutateValue_dropped .replace id (indexPath index) val noOptions).symm
  | setAdd id val => exact (mutateValue_dropped .arrayAddUnique id [] val mkIntermediates).symm
  | queueAdd id val => exact (mutateValue_dropped .arrayAddFirst id [] val mkIntermediates).symm

/-! ## When null means that the write is done -/

/-- The end of a method whose fragment is dropped. -/
def droppedEnd (thrown : Bool) : Outcome Zval := if thrown then .thrown .user else .returned .null

/-- The end of the answer to its request. -/
def droppedOutcome (thrown : Bool) : Answer SubdocResponse → Outcome Zval
  | .refused err _ => .thrown (.lcb err)
  | .response _ => droppedEnd thrown

/-- The write is done: the command was sent as it was asked for, and the server reported success. -/
def WriteDone (answers : Answers) (requested : Option SubdocCommand) (sent : List SubdocCommand) :
    Prop :=
  ∃ cmd resp, requested = some cmd ∧ sent = [cmd] ∧ answers.subdoc cmd = .response resp ∧
    resp.rc = .success

/-- A call is defined, and a normal return means that its write is done. -/
def WriteReported (php : Php) (bucket : BucketConf) (answers : Answers) (call : WriteCall) : Prop :=
  ∃ p, call.method php bucket = some p ∧ C.Defined (p.run answers).2 ∧
    ∀ z, (p.run answers).2 = .ok (.returned z) →
      WriteDone answers (call.requested php) (p.run answers).1

/-- Every answer to the command is a success, and the command is the requested one. -/
def TrueSuccess (answers : Answers) (requested : Option SubdocCommand) (cmd : SubdocCommand) : Prop :=
  ∀ resp, answers.subdoc cmd = .response resp → resp.rc = .success ∧ requested = some cmd

/-- The condition: no length is negative as an `int`, and a `jsonSerialize()` throws, or a command is
sent that libcouchbase refuses, or the one that was asked for with success. -/
def WriteCall.Reports (php : Php) (answers : Answers) (call : WriteCall) : Prop :=
  ∃ sent, call.narrowed php = .ok sent ∧ (php.throws call.value = true ∨
    ∃ cmd, sent = some cmd ∧ TrueSuccess answers (call.requested php) cmd)

theorem dropped_run (thrown : Bool) {id : Bytes} {spec : SdSpec} :
    (dropped php bucket thrown (some ⟨id, [spec], 0⟩)).run answers =
      ([⟨id, [spec], 0⟩], .ok (droppedOutcome thrown (answers.subdoc ⟨id, [spec], 0⟩))) := by
  show (_ :: _, _) = _
  cases answers.subdoc ⟨id, [spec], 0⟩ <;> rfl

theorem droppedOutcome_returned {thrown : Bool} {answer : Answer SubdocResponse} :
    (∃ z, droppedOutcome thrown answer = .returned z) ↔
      thrown = false ∧ ∃ resp, answer = .response resp := by
  cases answer with
  | refused err h => exact iff_of_false (fun ⟨_, hz⟩ => nomatch hz) fun ⟨_, _, hresp⟩ => nomatch hresp
  | response resp =>
    cases thrown with
    | true => exact iff_of_false (fun ⟨_, hz⟩ => nomatch hz) fun ⟨h, _⟩ => nomatch h
    | false => exact iff_of_true ⟨.null, rfl⟩ ⟨rfl, resp, rfl⟩

/-- The command of a call has one spec. -/
theorem WriteCall.narrowed_spec {call : WriteCall} {cmd : SubdocCommand}
    (h : call.narrowed php = .ok (some cmd)) : ∃ key spec, cmd = ⟨key, [spec], 0⟩ := by
  obtain ⟨key, -, h⟩ := C.bind_eq_ok.mp h
  obtain ⟨spec, -, h⟩ := C.bind_eq_ok.mp h
  rw [C.pure_eq, Except.ok.injEq, Option.map_eq_some_iff] at h
  obtain ⟨spec, -, rfl⟩ := h
  exact ⟨key, spec, rfl⟩

/-- **Exactly when null means that the write is done.** -/
theorem writeReported_iff (call : WriteCall) :
    WriteReported php bucket answers call ↔ call.Reports php answers := by
  unfold WriteReported WriteCall.Reports
  rw [WriteCall.method_eq]
  simp only [Option.some.injEq, exists_eq_left']
  cases hnarrowed : call.narrowed php with
  | error f =>
    refine iff_of_false (fun h => C.not_defined_error f h.1) ?_
    rintro ⟨sent, hsent, -⟩
    cases hsent
  | ok sent =>
    simp only [Except.ok.injEq, exists_eq_left']
    cases sent with
    | none =>
      have hrun : (dropped php bucket (php.throws call.value) none).run answers =
          ([], .ok (droppedEnd (php.throws call.value))) := rfl
      rw [hrun]
      cases php.throws call.value with
      | true => exact iff_of_true ⟨C.defined_ok _, fun z hz => by cases hz⟩ (.inl rfl)
      | false =>
        refine iff_of_false ?_ ?_
        · rintro ⟨-, h⟩
          obtain ⟨cmd, resp, -, hsent, -⟩ := h .null rfl
          cases hsent
        · rintro (h | ⟨cmd, h, -⟩)
          · cases h
          · cases h
    | some cmd =>
      obtain ⟨key, spec, rfl⟩ := WriteCall.narrowed_spec hnarrowed
      rw [dropped_run, and_iff_right (C.defined_ok _)]
      simp only [Except.ok.injEq, Option.some.injEq, exists_eq_left']
      constructor
      · intro h
        rw [or_iff_not_imp_left, Bool.not_eq_true]
        intro hthrows resp hresp
        obtain ⟨z, hz⟩ := droppedOutcome_returned.mpr ⟨hthrows, resp, hresp⟩
        obtain ⟨cmd, resp', hrequested, hsent, hresp', hrc⟩ := h z hz
        rw [List.singleton_inj] at hsent
        subst hsent
        rw [hresp, Answer.response.injEq] at hresp'
        subst hresp'
        exact ⟨hrc, hrequested⟩
      · intro h z hz
        obtain ⟨hthrows, resp, hresp⟩ := droppedOutcome_returned.mp ⟨z, hz⟩
        rw [hthrows, or_iff_right Bool.false_ne_true] at h
        obtain ⟨hrc, hrequested⟩ := h resp hresp
        exact ⟨_, resp, hrequested, rfl, hresp, hrc⟩

/-! ## `execute` -/

/-- What a method of the builder asks for.  Six of them call a C function, which takes the length of
the path as an `int`. -/
def BuilderCall.parts (php : Php) : BuilderCall → SpecParts
  | remove path options => ⟨.remove, subdocOptionsToFlags false options, copyPath path, .ok (some [])⟩
  | counter path delta options =>
    ⟨.counter, subdocOptionsToFlags false options, .ok path, .ok (some (printLong delta))⟩
  | insert path value options =>
    ⟨.dictAdd, subdocOptionsToFlags false options, .ok path, encodedValue php value⟩
  | upsert path value options =>
    ⟨.dictUpsert, subdocOptionsToFlags false options, copyPath path, encodedValue php value⟩
  | replace path value options =>
    ⟨.replace, subdocOptionsToFlags false options, copyPath path, encodedValue php value⟩
  | arrayInsert path value options =>
    ⟨.arrayInsert, subdocOptionsToFlags false options, .ok path, encodedValue php value⟩
  | arrayInsertAll path value options =>
    ⟨.arrayInsert, subdocOptionsToFlags false options, .ok path, strippedValue php value⟩
  | arrayAddUnique path value options =>
    ⟨.arrayAddUnique, subdocOptionsToFlags false options, copyPath path, encodedValue php value⟩
  | arrayPrepend path value options =>
    ⟨.arrayAddFirst, subdocOptionsToFlags false options, copyPath path, encodedValue php value⟩
  | arrayPrependAll path value options =>
    ⟨.arrayAddFirst, subdocOptionsToFlags false options, .ok path, strippedValue php value⟩
  | arrayAppend path value options =>
    ⟨.arrayAddLast, subdocOptionsToFlags false options, copyPath path, encodedValue php value⟩
  | arrayAppendAll path value options =>
    ⟨.arrayAddLast, subdocOptionsToFlags false options, .ok path, strippedValue php value⟩

theorem SpecParts.isSome_of_narrowed {p : SpecParts} {spec : Option SdSpec} {value : Option Bytes}
    (h : p.narrowed = .ok spec) (hvalue : p.value = .ok value) : spec.isSome = value.isSome := by
  obtain ⟨path, -, h⟩ := C.bind_eq_ok.mp h
  rw [hvalue, C.bind_ok, C.pure_eq, Except.ok.injEq] at h
  rw [← h, Option.isSome_map]

theorem SpecParts.value_of_narrowed {p : SpecParts} {spec : Option SdSpec}
    (h : p.narrowed = .ok spec) : ∃ value, p.value = .ok value := by
  obtain ⟨path, -, h⟩ := C.bind_eq_ok.mp h
  obtain ⟨value, hvalue, -⟩ := C.bind_eq_ok.mp h
  exact ⟨value, hvalue⟩

theorem isSome_encodedValue {value : Zval} {v : Option Bytes} (h : encodedValue php value = .ok v) :
    v.isSome = (php.jsonEncode value).isSome := by
  unfold encodedValue at h
  cases htext : php.jsonEncode value with
  | none =>
    rw [htext] at h
    rw [← Except.ok.inj h]
  | some text =>
    rw [htext] at h
    obtain ⟨copy, -, h⟩ := C.bind_eq_ok.mp h
    rw [← Except.ok.inj h]
    rfl

/-- Where the items of a text can be read, they are those of the list of specs. -/
theorem strippedValue_eq_ok {value : Zval} {v : Option Bytes} (h : strippedValue php value = .ok v) :
    v = (php.jsonEncode value).bind arrayItems := by
  unfold strippedValue at h
  cases htext : php.jsonEncode value with
  | none =>
    rw [htext] at h
    exact (Except.ok.inj h).symm
  | some text =>
    rw [htext] at h
    dsimp only at h
    by_cases hneg : narrowInt text.length < 0
    · rw [stripBrackets_neg hneg] at h
      cases h
    · by_cases hne : text = []
      · rw [stripBrackets, if_pos hne] at h
        cases h
      · rw [stripBrackets_eq hne (not_lt.mp hneg)] at h
        exact (Except.ok.inj h).symm

/-- **A call queues something** exactly when it has a spec. -/
theorem BuilderCall.isSome_narrowed {call : BuilderCall} {spec : Option SdSpec}
    (h : (call.parts php).narrowed = .ok spec) : spec.isSome = (call.spec php).isSome := by
  obtain ⟨v, hv⟩ := SpecParts.value_of_narrowed h
  rw [SpecParts.isSome_of_narrowed h hv]
  have hencoded : ∀ {value : Zval} {sdcmd : SdCommand} {path : Bytes} {flags : SdOptions},
      encodedValue php value = .ok v → v.isSome = (encodedSpec php sdcmd path value flags).isSome := by
    intro value sdcmd path flags hvalue
    rw [isSome_encodedValue hvalue, encodedSpec, Option.isSome_map]
  have hstripped : ∀ {value : Zval} {sdcmd : SdCommand} {path : Bytes} {flags : SdOptions},
      strippedValue php value = .ok v →
        v.isSome = (multivalueSpec php sdcmd path value flags).isSome := by
    intro value sdcmd path flags hvalue
    rw [strippedValue_eq_ok hvalue, multivalueSpec, Option.isSome_map]
  cases call with
  | remove path options => rw [← Except.ok.inj hv]; rfl
  | counter path delta options => rw [← Except.ok.inj hv]; rfl
  | insert path value options => exact hencoded hv
  | upsert path value options => exact hencoded hv
  | replace path value options => exact hencoded hv
  | arrayInsert path value options => exact hencoded hv
  | arrayInsertAll path value options => exact hstripped hv
  | arrayAddUnique path value options => exact hencoded hv
  | arrayPrepend path value options => exact hencoded hv
  | arrayPrependAll path value options => exact hstripped hv
  | arrayAppend path value options => exact hencoded hv
  | arrayAppendAll path value options => exact hstripped hv

namespace SpecBuilder

variable {b : SpecBuilder} {xs : List SdSpec}

/-- Every method queues its parts, and all but `arrayPrepend` look at the result. -/
theorem mutate_eq (call : BuilderCall) :
    b.mutate php call = (b.queueParts (call.parts php)).map fun r =>
      (r.1, .leave (php.throws call.value) (if r.2 || call.isArrayPrepend then .this else .null)) := by
  have hnull : ∀ (value : Option Zval) (r : C (SpecBuilder × Bool)),
      orNull php value r = r.map fun r =>
        (r.1, .leave (php.throws value) (if r.2 || false then .this else .null)) := by
    intro value r
    cases r with
    | error f => rfl
    | ok r => simp only [orNull, C.bind_ok, Bool.or_false, Except.map]
  cases call with
  | arrayPrepend path value options =>
    have hprepend : ∀ r : C (SpecBuilder × Bool), (do
        let p ← r
        .ok (p.1, .leave (php.throws (some value)) .this) : C (SpecBuilder × BuilderResult)) =
        r.map fun r =>
          (r.1, .leave (php.throws (some value)) (if r.2 || true then .this else .null)) := by
      intro r
      cases r with
      | error f => rfl
      | ok r => simp only [C.bind_ok, Bool.or_true, if_true, Except.map]
    exact hprepend _
  | _ => exact hnull _ _

/-- **One call** on any lengths. -/
theorem mutate_lists (h : b.Lists xs) {call : BuilderCall} {spec : Option SdSpec}
    (hp : (call.parts php).narrowed = .ok spec) :
    ∃ b', b.mutate php call = .ok (b', call.result php) ∧ Grown b b' (xs ++ spec.toList) := by
  obtain ⟨b', hqueue, hgrown⟩ := queue_lists h hp
  refine ⟨b', ?_, hgrown⟩
  rw [mutate_eq, hqueue, BuilderCall.isSome_narrowed hp]
  rfl

theorem mutate_error {call : BuilderCall} {f : Fault} (hp : (call.parts php).narrowed = .error f) :
    b.mutate php call = .error f := by
  rw [mutate_eq, queue_error hp]
  rfl

/-- The specs of calls, with their lengths in an `int`. -/
def narrowedSpecs (php : Php) (calls : List BuilderCall) : C (List (Option SdSpec)) :=
  calls.mapM fun call => (call.parts php).narrowed

/-- **Calls in a row** on any lengths. -/
theorem runAll_lists (h : b.Lists xs) {calls : List BuilderCall} {specs : List (Option SdSpec)}
    (hp : narrowedSpecs php calls = .ok specs) :
    ∃ b', b.runAll php (calls.map SpecCall.mutate) = .ok (b', calls.map (BuilderCall.result php)) ∧
      Grown b b' (xs ++ specs.flatMap Option.toList) := by
  induction calls generalizing b xs specs with
  | nil =>
    rw [narrowedSpecs, List.mapM_nil, C.pure_eq, Except.ok.injEq] at hp
    subst hp
    refine ⟨b, rfl, ?_, rfl, rfl⟩
    rw [List.flatMap_nil, List.append_nil]
    exact h
  | cons call calls ih =>
    rw [narrowedSpecs, List.mapM_cons] at hp
    obtain ⟨spec, hspec, hp⟩ := C.bind_eq_ok.mp hp
    obtain ⟨rest, hrest, hp⟩ := C.bind_eq_ok.mp hp
    cases hp
    obtain ⟨b₁, hmutate, hone⟩ := mutate_lists h hspec
    obtain ⟨b₂, hall, htwo⟩ := ih hone.lists hrest
    refine ⟨b₂, ?_, ?_, htwo.id.trans hone.id, htwo.cas.trans hone.cas⟩
    · rw [List.map_cons, runAll, run, hmutate, C.bind_ok]
      dsimp only
      rw [hall]
      rfl
    · rw [List.flatMap_cons, ← List.append_assoc]
      exact htwo.lists

theorem runAll_error (h : b.Lists xs) {calls : List BuilderCall} {f : Fault}
    (hp : narrowedSpecs php calls = .error f) :
    b.runAll php (calls.map SpecCall.mutate) = .error f := by
  induction calls generalizing b xs with
  | nil => cases hp
  | cons call calls ih =>
    rw [narrowedSpecs, List.mapM_cons] at hp
    rw [List.map_cons, runAll, run]
    cases hspec : (call.parts php).narrowed with
    | error e =>
      rw [hspec, C.bind_error] at hp
      rw [mutate_error hspec, C.bind_error, Except.error.inj hp]
    | ok spec =>
      obtain ⟨b₁, hmutate, hone⟩ := mutate_lists h hspec
      rw [hspec, C.bind_ok] at hp
      rw [hmutate, C.bind_ok]
      dsimp only
      cases hrest : narrowedSpecs php calls with
      | error e =>
        rw [← narrowedSpecs, hrest, C.bind_error, Except.error.injEq] at hp
        subst hp
        rw [ih hone.lists hrest, C.bind_error]
      | ok rest =>
        rw [← narrowedSpecs, hrest] at hp
        cases hp

end SpecBuilder

/-- The builder after `mutateIn` and calls on it. -/
def builderAfter (php : Php) (id cas : Bytes) (calls : List BuilderCall) :
    C (SpecBuilder × List BuilderResult) :=
  specBuilderInit id (base36DecodeStr cas) >>= fun b => b.runAll php (calls.map SpecCall.mutate)

/-- The command that the calls ask for. -/
def commandOf (php : Php) (id cas : Bytes) (calls : List BuilderCall) : SubdocCommand :=
  ⟨id, calls.filterMap (BuilderCall.spec php), base36DecodeStr cas⟩

/-- The same with every length in an `int`. -/
def narrowedCommand (php : Php) (id cas : Bytes) (calls : List BuilderCall) : C SubdocCommand := do
  let key ← prefixOf id (narrowInt id.length)
  let specs ← SpecBuilder.narrowedSpecs php calls
  return ⟨key, specs.flatMap Option.toList, base36DecodeStr cas⟩

section Execute

variable {id cas : Bytes} {calls : List BuilderCall}

/-- **The builder holds the narrowed command**, and the calls say what they queued. -/
theorem builderAfter_ok {cmd : SubdocCommand} (h : narrowedCommand php id cas calls = .ok cmd) :
    ∃ b, builderAfter php id cas calls = .ok (b, calls.map (BuilderCall.result php)) ∧
      b.Lists cmd.specs ∧ (⟨b.id, cmd.specs, b.cas⟩ : SubdocCommand) = cmd := by
  obtain ⟨key, hkey, h⟩ := C.bind_eq_ok.mp h
  obtain ⟨specs, hspecs, h⟩ := C.bind_eq_ok.mp h
  rw [C.pure_eq, Except.ok.injEq] at h
  subst h
  have hempty : SpecBuilder.Lists ⟨key, base36DecodeStr cas, 0, .empty⟩ [] :=
    ⟨rfl, LinkedList.holds_empty⟩
  obtain ⟨b, hall, hgrown⟩ := SpecBuilder.runAll_lists hempty hspecs
  refine ⟨b, ?_, hgrown.lists, ?_⟩
  · rw [builderAfter, specBuilderInit, hkey, C.bind_ok, C.bind_ok, hall]
  · rw [hgrown.id, hgrown.cas]

theorem builderAfter_error {f : Fault} (h : narrowedCommand php id cas calls = .error f) :
    builderAfter php id cas calls = .error f := by
  unfold narrowedCommand at h
  unfold builderAfter specBuilderInit
  cases hkey : prefixOf id (narrowInt id.length) with
  | error e =>
    rw [hkey, C.bind_error, Except.error.injEq] at h
    subst h
    rfl
  | ok key =>
    rw [hkey, C.bind_ok] at h
    rw [C.bind_ok, C.bind_ok]
    cases hspecs : SpecBuilder.narrowedSpecs php calls with
    | error e =>
      rw [hspecs, C.bind_error, Except.error.injEq] at h
      subst h
      exact SpecBuilder.runAll_error ⟨rfl, LinkedList.holds_empty⟩ hspecs
    | ok specs =>
      rw [hspecs] at h
      cases h

/-- The failure of a call is seen: it returns null or throws. -/
def BuilderCall.Seen (php : Php) (call : BuilderCall) : Prop :=
  php.throws call.value = true ∨ call.isArrayPrepend = false ∧ call.spec php = none

/-- A call whose failure is seen does not return the builder. -/
theorem BuilderCall.Seen.result_ne {call : BuilderCall} (h : call.Seen php) :
    call.result php ≠ .this := by
  intro hthis
  obtain ⟨hthrows, hspec⟩ := BuilderCall.result_eq_this hthis
  rcases h with h | ⟨hprepend, hnone⟩
  · rw [hthrows] at h
    cases h
  · rw [hprepend, hnone] at hspec
    cases hspec

theorem BuilderCall.result_of_not_seen {call : BuilderCall} (h : ¬call.Seen php) :
    call.result php = .this := by
  unfold BuilderCall.Seen at h
  rw [not_or, not_and, Bool.not_eq_true] at h
  unfold BuilderCall.result
  rw [h.1, BuilderResult.leave, if_neg Bool.false_ne_true, if_pos]
  rw [Bool.or_eq_true, or_iff_not_imp_right, Bool.not_eq_true]
  intro hprepend
  exact Option.isSome_iff_ne_none.mpr (h.2 hprepend)

/-- The calls and `execute` are defined, and when all calls returned the builder, a fragment without
an error means that their specs were sent in one request and that the server reported success. -/
def ExecuteReported (php : Php) (bucket : BucketConf) (answers : Answers) (id cas : Bytes)
    (calls : List BuilderCall) : Prop :=
  ∃ built, builderAfter php id cas calls = .ok built ∧
    ((∀ r ∈ built.2, r = .this) →
      ∃ p, built.1.request php bucket executeEnd = some p ∧ C.Defined (p.run answers).2 ∧
        ∀ f, (p.run answers).2 = .ok (.returned (some f)) → f.error = none →
          (∀ call ∈ calls, (call.spec php).isSome) ∧
          WriteDone answers (some (commandOf php id cas calls)) (p.run answers).1)

/-- The condition: nothing is undefined while the specs are built, and a failure is seen, or nothing
is sent, or the specs can be counted and a success is one of all calls with what they ask for. -/
def ExecuteReports (php : Php) (answers : Answers) (id cas : Bytes) (calls : List BuilderCall) : Prop :=
  ∃ cmd, narrowedCommand php id cas calls = .ok cmd ∧
    ((∃ call ∈ calls, call.Seen php) ∨ 2 ^ 32 ∣ cmd.specs.length ∨
      cmd.specs.length < 2 ^ 31 ∧
        ∀ resp, answers.subdoc cmd = .response resp → resp.rc = .success →
          (∀ call ∈ calls, (call.spec php).isSome) ∧ commandOf php id cas calls = cmd)

/-- A fragment without an error comes of a success. -/
theorem execute_run {cmd : SubdocCommand} (hspecs : cmd.specs ≠ []) {f : DocumentFragment}
    (hf : f.error = none) :
    ((bucketSubdocRequest php bucket cmd executeEnd).run answers).2 = .ok (.returned (some f)) ↔
      ∃ resp, answers.subdoc cmd = .response resp ∧ resp.rc = .success ∧
        fragmentOf php bucket cmd resp = f := by
  rw [bucketSubdocRequest, if_neg hspecs, Proc.run]
  cases answers.subdoc cmd with
  | refused err h =>
    refine iff_of_false (fun hret => nomatch hret) ?_
    rintro ⟨resp, hresp, -⟩
    cases hresp
  | response resp =>
    constructor
    · intro hret
      cases hret
      exact ⟨resp, rfl, (fragmentOf_error php bucket cmd resp).mp hf, rfl⟩
    · rintro ⟨resp', hresp, -, rfl⟩
      cases hresp
      rfl

/-- The request of a builder is defined, and a success is one of the requested command. -/
theorem request_reports_iff {b : SpecBuilder} {cmd : SubdocCommand} (hlists : b.Lists cmd.specs)
    (hcmd : (⟨b.id, cmd.specs, b.cas⟩ : SubdocCommand) = cmd) {asked : Prop}
    {requested : SubdocCommand} :
    (∃ p, b.request php bucket executeEnd = some p ∧ C.Defined (p.run answers).2 ∧
      ∀ f, (p.run answers).2 = .ok (.returned (some f)) → f.error = none →
        asked ∧ WriteDone answers (some requested) (p.run answers).1) ↔
    2 ^ 32 ∣ cmd.specs.length ∨ cmd.specs.length < 2 ^ 31 ∧
      ∀ resp, answers.subdoc cmd = .response resp → resp.rc = .success → asked ∧ requested = cmd := by
  by_cases hdvd : 2 ^ 32 ∣ cmd.specs.length
  · -- the counter is zero: nothing is sent
    rw [SpecBuilder.request_zero _ hlists ((SpecBuilder.int32_ofNat_eq_zero_iff _).mpr hdvd)]
    refine iff_of_true ⟨_, rfl, C.defined_ok _, fun f hret => ?_⟩ (.inl hdvd)
    cases hret
  · rw [or_iff_right hdvd]
    by_cases hlt : cmd.specs.length < 2 ^ 31
    · have hspecs : cmd.specs ≠ [] := by
        intro hnil
        rw [hnil] at hdvd
        exact hdvd (Nat.dvd_zero _)
      rw [SpecBuilder.request_fits _ hlists hlt, hcmd]
      simp only [Option.some.injEq, exists_eq_left', hlt, true_and]
      have hsent : ((bucketSubdocRequest php bucket cmd executeEnd).run answers).1 = [cmd] := by
        rw [bucketSubdocRequest, if_neg hspecs, Proc.run]
        cases answers.subdoc cmd <;> rfl
      have hdefined : C.Defined ((bucketSubdocRequest php bucket cmd executeEnd).run answers).2 := by
        rw [bucketSubdocRequest, if_neg hspecs, Proc.run]
        cases answers.subdoc cmd <;> exact C.defined_ok _
      rw [and_iff_right hdefined, hsent]
      constructor
      · intro h resp hresp hrc
        have herror := (fragmentOf_error php bucket cmd resp).mpr hrc
        obtain ⟨hasked, cmd', resp', heq, hone, -⟩ :=
          h _ ((execute_run hspecs herror).mpr ⟨resp, hresp, hrc, rfl⟩) herror
        rw [List.singleton_inj] at hone
        exact ⟨hasked, (Option.some.inj heq).trans hone.symm⟩
      · intro h f hret herror
        obtain ⟨resp, hresp, hrc, -⟩ := (execute_run hspecs herror).mp hret
        obtain ⟨hasked, rfl⟩ := h resp hresp hrc
        exact ⟨hasked, requested, resp, rfl, rfl, hresp, hrc⟩
    · have hne := mt (SpecBuilder.int32_ofNat_eq_zero_iff cmd.specs.length).mp hdvd
      obtain ⟨f, hf⟩ := SpecBuilder.request_wrapped (executeEnd) hlists (not_lt.mp hlt) hne
      refine iff_of_false ?_ fun h => hlt h.1
      rintro ⟨p, hp, hdefined, -⟩
      rw [hf, Option.some.injEq] at hp
      subst hp
      exact C.not_defined_error f hdefined

/-- **Exactly when `execute` reports all calls.** -/
theorem executeReported_iff :
    ExecuteReported php bucket answers id cas calls ↔ ExecuteReports php answers id cas calls := by
  unfold ExecuteReported ExecuteReports
  cases hcmd : narrowedCommand php id cas calls with
  | error f =>
    rw [builderAfter_error hcmd]
    refine iff_of_false ?_ ?_
    · rintro ⟨built, h, -⟩
      cases h
    · rintro ⟨cmd, h, -⟩
      cases h
  | ok cmd =>
    obtain ⟨b, hafter, hlists, heq⟩ := builderAfter_ok hcmd
    rw [hafter]
    simp only [Except.ok.injEq, exists_eq_left']
    by_cases hseen : ∃ call ∈ calls, call.Seen php
    · obtain ⟨call, hcall, hcallSeen⟩ := hseen
      refine iff_of_true ?_ (.inl ⟨call, hcall, hcallSeen⟩)
      intro hthis
      exact absurd (hthis _ (List.mem_map_of_mem hcall)) hcallSeen.result_ne
    · have hthis : ∀ r ∈ calls.map (BuilderCall.result php), r = .this := by
        intro r hr
        obtain ⟨call, hcall, rfl⟩ := List.mem_map.mp hr
        exact BuilderCall.result_of_not_seen fun h => hseen ⟨call, hcall, h⟩
      rw [or_iff_right hseen, ← request_reports_iff hlists heq]
      exact ⟨fun h => h hthis, fun h _ => h⟩

end Execute

def writeBucket : BucketConf := ⟨CString.ofBytes (ascii "default"), fun bytes _ _ => bytes⟩

/-- The server answers every subdocument command with the code. -/
def answersWith (rc : LcbError) : Answers where
  get _ := .refused .einval (by decide)
  subdoc _ := .response ⟨rc, 1, none, []⟩

/-- A value that JSON cannot encode: nothing is sent, and the method returns null. -/
example : ((listPush plainPhp writeBucket (ascii "l") .null).run (answersWith .success)) =
    ([], .ok (.returned .null)) := rfl

/-- Two specs in one request. -/
example :
    (((BuilderCall.runAll plainPhp (mutateIn (ascii "d") [])
      [.upsert (ascii "a") (.string (ascii "x")) none,
        .arrayAppend (ascii "b") (.string (ascii "y")) none]).1.execute plainPhp writeBucket).run
      (answersWith .success)).1 =
    [⟨ascii "d", [⟨.dictUpsert, ascii "a", quoted "x", noOptions⟩,
      ⟨.arrayAddLast, ascii "b", quoted "y", noOptions⟩], 0⟩] := rfl

end PhpCouchbase
