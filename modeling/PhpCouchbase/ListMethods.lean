import PhpCouchbase.SetRemove
import PhpCouchbase.Queue

/-!
# The methods that make one request

All methods on a list in `bucket.c` but `setRemove` and `queueRemove` make one request.

* `listGet`, `mapSize`, `setExists` — the ones that only read.
* `ListOp` — what a write is for: a change of the list.
* `pathIndex_indexPath_eq` — the position that an index names; `-1` is the last.
* `served_meets` — the request of a call does what the call is for, and the call says what it saw.
-/

set_option autoImplicit false

namespace PhpCouchbase

/-! ## The methods that read -/

section Readers

variable (php : Php) (bucket : BucketConf)

/-- `$fragment->value[0]["value"]` is returned, or null.  A refused lookup leaves a null, whose
property is read. -/
def lookupEnd : Requested → Proc Zval
  | .fragment f => .done (.ok (.returned ((fetchFirst f).getD .null)))
  | _ => .done (.error .wrongType)

def listGet (id : Bytes) (index : Int64) : Proc Zval :=
  let b := lookupInBuilderGet (lookupInBuilderInit id) (indexPath index) none
  bucketSubdocRequest php bucket b.command lookupEnd

/-- The methods that read the whole document, with what they compute from its value. -/
def readValue (id : Zval) (compute : Zval → Zval) : Proc Zval :=
  match id with
  | .string id => .get id fun answer =>
    match getOutcome bucket answer with
    | .error f => .done (.error f)
    | .ok (.thrown e) => .done (.ok (.thrown e))
    | .ok (.returned doc) => .done (.ok (.returned (compute doc.value)))
  | _ => .done (.ok (.thrown (.pcbc "id must be a string" .einval)))

/-- The number of elements of an array, or of properties of an object. -/
def numElements : Zval → Nat
  | .array elems => elems.length
  | .object _ props => props.length
  | _ => 0

/-- `mapSize`; `listSize`, `setSize` and `queueSize` are aliases. -/
def mapSize (id : Zval) : Proc Zval :=
  readValue bucket id fun value => .long (Int64.ofNat (numElements value))

def foundIn (val value : Zval) : Bool :=
  match value with
  | .array elems => (searchIdentical php val elems).isSome
  | _ => false

/-- `setExists`; `listExists` and `queueExists` are aliases. -/
def setExists (id val : Zval) : Proc Zval :=
  readValue bucket id fun value => if foundIn php val value then .true else .false

end Readers

/-! ## Lists -/

/-- A change of a list. -/
inductive ListOp where
  | prepend (text : Bytes)
  | append (text : Bytes)
  | addUnique (text : Bytes)
  | setAt (index : Int64) (text : Bytes)
  | removeAt (index : Int64)
  deriving DecidableEq

/-- The position that an index names. -/
def position (elems : List Bytes) (index : Int64) : Option Nat :=
  if index = -1 then if elems = [] then none else some (elems.length - 1)
  else if 0 ≤ index.toInt ∧ index.toInt < elems.length then some index.toInt.toNat
  else none

/-- The changed list; none where there is nothing to change. -/
def ListOp.apply (elems : List Bytes) : ListOp → Option (List Bytes)
  | .prepend text => some (text :: elems)
  | .append text => some (elems ++ [text])
  | .addUnique text => if elems.contains text then none else some (elems ++ [text])
  | .setAt index text => (position elems index).map fun n => elems.set n text
  | .removeAt index => (position elems index).map elems.eraseIdx

/-- The spec of a change. -/
def ListOp.spec : ListOp → SdSpec
  | .prepend text => ⟨.arrayAddFirst, [], text, mkIntermediates⟩
  | .append text => ⟨.arrayAddLast, [], text, mkIntermediates⟩
  | .addUnique text => ⟨.arrayAddUnique, [], text, mkIntermediates⟩
  | .setAt index text => ⟨.replace, indexPath index, text, noOptions⟩
  | .removeAt index => removeSpec (indexPath index) noOptions

theorem indexPath_neg_one : indexPath (-1) = lastPath := by decide

theorem printLong_injective {m n : Int64} (h : printLong m = printLong n) : m = n := by
  have hm : strtol (printLong m ++ [0]) = .ok m :=
    (strtol_printLong_iff m [0]).mpr ⟨by decide, Or.inl (by decide)⟩
  have hn : strtol (printLong n ++ [0]) = .ok n :=
    (strtol_printLong_iff n [0]).mpr ⟨by decide, Or.inl (by decide)⟩
  rw [h, hn, Except.ok.injEq] at hm
  exact hm.symm

theorem indexPath_inj {m n : Int64} (h : indexPath m = indexPath n) : m = n := by
  unfold indexPath at h
  rw [List.append_assoc, List.append_assoc] at h
  exact printLong_injective (List.append_cancel_right (List.append_cancel_left h))

/-- **The path of an index** names the position of the index. -/
theorem pathIndex_indexPath_eq {elems : List Bytes} (hlt : elems.length < 2 ^ 63)
    (index : Int64) : pathIndex elems (indexPath index) = position elems index := by
  unfold position
  by_cases hlast : index = -1
  · rw [if_pos hlast, hlast, indexPath_neg_one, pathIndex, if_pos rfl]
  · rw [if_neg hlast]
    by_cases hin : 0 ≤ index.toInt ∧ index.toInt < elems.length
    · have hindex : index = Int64.ofNat index.toInt.toNat := by
        apply Int64.toInt_inj.mp
        rw [Int64.toInt_ofNat_of_lt (by omega)]
        omega
      rw [if_pos hin]
      conv_lhs => rw [hindex]
      exact pathIndex_indexPath (by omega) hlt
    · rw [if_neg hin, pathIndex, if_neg, List.find?_eq_none]
      · intro n hn
        rw [List.mem_range] at hn
        rw [decide_eq_true_eq]
        intro heq
        have hindex := congrArg Int64.toInt (indexPath_inj heq)
        rw [Int64.toInt_ofNat_of_lt (by omega)] at hindex
        omega
      · intro heq
        rw [← indexPath_neg_one] at heq
        exact hlast (indexPath_inj heq)

/-- **The spec of a change does the change.** -/
theorem applySpec_spec {elems : List Bytes} (hlt : elems.length < 2 ^ 63) (op : ListOp) :
    applySpec elems op.spec = op.apply elems := by
  cases op with
  | prepend text => rfl
  | append text => rfl
  | addUnique text =>
    show (if [] = [] ∧ text ∉ elems then some (elems ++ [text]) else none) = _
    rw [ListOp.apply]
    by_cases hmem : text ∈ elems
    · rw [if_pos (List.contains_iff_mem.mpr hmem), if_neg fun h => h.2 hmem]
    · rw [if_neg fun h => hmem (List.contains_iff_mem.mp h), if_pos ⟨rfl, hmem⟩]
  | setAt index text =>
    show (pathIndex elems (indexPath index)).map _ = _
    rw [pathIndex_indexPath_eq hlt]
    rfl
  | removeAt index =>
    show (pathIndex elems (indexPath index)).map _ = _
    rw [pathIndex_indexPath_eq hlt]
    rfl

/-! ## Calls -/

/-- A call of a method on a list, a set or a queue that makes one request. -/
inductive ListCall where
  | push (val : Zval)
  | shift (val : Zval)
  | set (index : Int64) (val : Zval)
  | remove (index : Int64)
  | add (val : Zval)
  | get (index : Int64)
  | contains (val : Zval)
  | size

namespace ListCall

def proc (php : Php) (bucket : BucketConf) (key : Bytes) : ListCall → Proc Zval
  | push val => listPush php bucket key val
  | shift val => listShift php bucket key val
  | set index val => listSet php bucket key index val
  | remove index => listRemove php bucket key index
  | add val => setAdd php bucket key val
  | get index => listGet php bucket key index
  | contains val => setExists php bucket (.string key) val
  | size => mapSize bucket (.string key)

/-- The value that a call encodes. -/
def value : ListCall → Option Zval
  | push val => some val
  | shift val => some val
  | set _ val => some val
  | add val => some val
  | _ => none

/-- The change that a call is for; none for a value that JSON cannot encode. -/
def op (php : Php) : ListCall → Option ListOp
  | push val => (php.jsonEncode val).map .append
  | shift val => (php.jsonEncode val).map .prepend
  | set index val => (php.jsonEncode val).map (.setAt index)
  | remove index => some (.removeAt index)
  | add val => (php.jsonEncode val).map .addUnique
  | get _ => none
  | contains _ => none
  | size => none

/-- What a call may say of a list.  A lookup that fails says null, as one that finds nothing. -/
def Says (php : Php) (value : Bytes → Zval) (elems : List Bytes) (z : Zval) : ListCall → Prop
  | push _ => z = .null
  | shift _ => z = .null
  | set _ _ => z = .null
  | remove _ => z = .null
  | add _ => z = .null
  | get index => z = .null ∨
    ∃ n e, position elems index = some n ∧ elems[n]? = some e ∧ z = entryZval php e
  | contains val => z = if elems.any fun e => zendIsIdentical php val (value e) then .true else .false
  | size => z = .long (Int64.ofNat elems.length)

end ListCall

/-- The request did what the call is for, or nothing; and the call says what it came upon.  An
exception of a method means that nothing was done, one of a `jsonSerialize()` does not; what
`listGet` makes of a refused lookup is undefined. -/
structure Meets {ι : Type} (php : Php) (value : Bytes → Zval) (call : ListCall) (x : Served ι)
    (o : C (Outcome Zval)) : Prop where
  effect : x.after = x.before ∨ ∃ op elems elems', call.op php = some op ∧ x.before = .list elems ∧
    x.after = .list elems' ∧ (elems.length < 2 ^ 63 → op.apply elems = some elems')
  answer : ∀ z elems, o = .ok (.returned z) → x.before = .list elems → elems.length < 2 ^ 63 →
    call.Says php value elems z
  throws : ∀ e, o = .ok (.thrown e) → php.throws call.value = false → x.after = x.before
  defined : ∀ f, o = .error f → x.after = x.before ∧ ∃ index, call = .get index

/-! ## Writes -/

variable {ι : Type} [DecidableEq ι] {php : Php} {bucket : BucketConf} {value : Bytes → Zval}
  {key : Bytes}

/-- One spec is sent, and its fragment is dropped; without a spec nothing is sent. -/
def sendOne (php : Php) (bucket : BucketConf) (key : Bytes) (thrown : Bool) :
    Option SdSpec → Proc Zval
  | none => mutateEnd thrown .skipped
  | some spec => .subdoc ⟨key, [spec], 0⟩ fun answer =>
    mutateEnd thrown (requested php bucket ⟨key, [spec], 0⟩ answer)

theorem mutateValue_eq (sdcmd : SdCommand) (path : Bytes) (val : Zval) (flags : SdOptions) :
    (mutateValue php bucket key val fun b =>
      MutateInBuilder.addEncoded php sdcmd b path val flags) =
      sendOne php bucket key (php.encode val).thrown (encodedSpec php sdcmd path val flags) := by
  unfold mutateValue MutateInBuilder.addEncoded
  cases encodedSpec php sdcmd path val flags with
  | none => rfl
  | some spec => exact bucketSubdocRequest_send php bucket (List.cons_ne_nil _ _) (mutateEnd _)

theorem encodedSpec_eq (sdcmd : SdCommand) (path : Bytes) (val : Zval) (flags : SdOptions)
    {op : Bytes → ListOp} (hop : ∀ text, (op text).spec = ⟨sdcmd, path, text, flags⟩) :
    encodedSpec php sdcmd path val flags = ((php.jsonEncode val).map op).map ListOp.spec := by
  rw [encodedSpec, Option.map_map]
  congr 1
  funext text
  exact (hop text).symm

/-- The calls that write. -/
def ListCall.isWrite : ListCall → Bool
  | get _ => false
  | contains _ => false
  | size => false
  | _ => true

/-- **A write** sends the spec of its change. -/
theorem ListCall.proc_write {call : ListCall} (h : call.isWrite = true) :
    call.proc php bucket key =
      sendOne php bucket key (php.throws call.value) ((call.op php).map ListOp.spec) := by
  cases call with
  | push val =>
    rw [op, ← encodedSpec_eq .arrayAddLast [] val mkIntermediates fun _ => rfl]
    exact mutateValue_eq .arrayAddLast [] val mkIntermediates
  | shift val =>
    rw [op, ← encodedSpec_eq .arrayAddFirst [] val mkIntermediates fun _ => rfl]
    exact mutateValue_eq .arrayAddFirst [] val mkIntermediates
  | set index val =>
    rw [op, ← encodedSpec_eq .replace (indexPath index) val noOptions fun _ => rfl]
    exact mutateValue_eq .replace (indexPath index) val noOptions
  | add val =>
    rw [op, ← encodedSpec_eq .arrayAddUnique [] val mkIntermediates fun _ => rfl]
    exact mutateValue_eq .arrayAddUnique [] val mkIntermediates
  | remove index =>
    unfold proc listRemove mutateOnce
    exact bucketSubdocRequest_send php bucket (List.cons_ne_nil _ _) (mutateEnd false)
  | get index => cases h
  | contains val => cases h
  | size => cases h

theorem applySpecs_singleton (elems : List Bytes) (spec : SdSpec) :
    applySpecs elems [spec] = applySpec elems spec := by
  rw [applySpecs, List.foldlM_cons]
  show (applySpec elems spec >>= fun l => some l) = _
  cases applySpec elems spec <;> rfl

/-- An exception behind a response is one that was pending. -/
theorem mutateEnd_response {thrown : Bool} {cmd : SubdocCommand} {resp : SubdocResponse}
    {o : C (Outcome Zval)} {e : Exn}
    (ho : mutateEnd thrown (requested php bucket cmd (.response resp)) = .done o)
    (he : o = .ok (.thrown e)) : thrown = true := by
  subst he
  cases thrown with
  | true => rfl
  | false => cases ho

/-- **The change of a write** is done at once or not at all; the call returns null. -/
theorem sendOne_served (php : Php) (bucket : BucketConf) (thrown : Bool) (op : ListOp) {v w : Server}
    {fate : Fate} {answer : Answer SubdocResponse}
    (ha : ServesSubdoc v ⟨key, [op.spec], 0⟩ fate answer w) :
    ∃ o, mutateEnd thrown (requested php bucket ⟨key, [op.spec], 0⟩ answer) = .done o ∧
      Settles .null o ∧ (w.content = v.content ∨
        (∀ e, o = .ok (.thrown e) → thrown = true) ∧ ∃ elems elems', v.content = .list elems ∧
          w.content = .list elems' ∧ (elems.length < 2 ^ 63 → op.apply elems = some elems')) := by
  have hwrite : SubdocCommand.isLookup ⟨key, [op.spec], 0⟩ = false := by
    cases op <;> rfl
  obtain ⟨o, ho, hnull⟩ := mutateEnd_ends thrown (requested php bucket ⟨key, [op.spec], 0⟩ answer)
  refine ⟨o, ho, hnull, ?_⟩
  -- the same change is done whether its answer arrives or not
  have hdone : ∀ {elems elems'}, applySpecs elems [op.spec] = some elems' →
      elems.length < 2 ^ 63 → op.apply elems = some elems' := by
    intro elems elems' happly hlt
    rw [← happly, applySpecs_singleton, applySpec_spec hlt]
  cases ha with
  | refused err h => exact .inl rfl
  | failed resp hrc hmulti => exact .inl rfl
  | lookup hl hc hcas hvalues hrc =>
    rw [hwrite] at hl
    cases hl
  | lookupOther hl hc hrc =>
    rw [hwrite] at hl
    cases hl
  | notApplied hl hguard hnone hrc => exact .inl rfl
  | applied hl hc hguard happly hw hzero hrc hcas =>
    exact .inr ⟨fun e => mutateEnd_response ho, _, _, hc, hw.content, hdone happly⟩
  | unanswered hl hc hguard happly hw hzero hrc =>
    exact .inr ⟨fun e => mutateEnd_response ho, _, _, hc, hw.content, hdone happly⟩

/-! ## Lookups -/

/-- The command that looks at one path. -/
def lookupCommand (key path : Bytes) : SubdocCommand := ⟨key, [⟨.get, path, [], noOptions⟩], 0⟩

theorem listGet_eq (index : Int64) : listGet php bucket key index =
    .subdoc (lookupCommand key (indexPath index)) fun answer =>
      lookupEnd (requested php bucket (lookupCommand key (indexPath index)) answer) := by
  unfold listGet
  exact bucketSubdocRequest_send php bucket (List.cons_ne_nil _ _) lookupEnd

/-- **A lookup** leaves the document, and says the element at its path or null. -/
theorem lookup_served (php : Php) (bucket : BucketConf) (path : Bytes) {v w : Server}
    {fate : Fate} {answer : Answer SubdocResponse}
    (ha : ServesSubdoc v (lookupCommand key path) fate answer w) :
    w = v ∧ ∃ o, lookupEnd (requested php bucket (lookupCommand key path) answer) = .done o ∧
      ∀ z elems, o = .ok (.returned z) → v.content = .list elems →
        z = .null ∨ ∃ e, pathElem elems path = some e ∧ z = entryZval php e := by
  cases ha with
  | refused err h => exact ⟨rfl, _, rfl, nofun⟩
  | failed resp hrc hmulti =>
    refine ⟨rfl, .ok (.returned .null), ?_, ?_⟩
    · rw [requested, lookupEnd, fetchFirst_failed hrc hmulti]
      rfl
    · intro z elems hz hc
      cases hz
      exact Or.inl rfl
  | lookupOther hl hc hrc =>
    refine ⟨rfl, _, rfl, fun z elems hz helems => ?_⟩
    rw [hc] at helems
    cases helems
  | applied hl hc hguard happly hw hzero hrc hcas => cases hl
  | notApplied hl hguard hnone hrc => cases hl
  | unanswered hl hc hguard happly hw hzero hrc => cases hl
  | @lookup elems resp hl hc hcas hvalues hrc =>
    have hrc' : resp.rc = .success ∨ resp.rc = .subdocMultiFailure := by
      rw [hrc]
      split
      · exact Or.inl rfl
      · exact Or.inr rfl
    refine ⟨rfl, .ok (.returned (entryZval php ((pathElem elems path).getD []))), ?_, ?_⟩
    · rw [requested, lookupEnd, fetchFirst_fragmentOf hl hrc' hvalues]
      rfl
    · intro z elems' hz helems
      rw [hc] at helems
      cases helems
      cases hz
      cases hpath : pathElem elems path with
      | none => exact Or.inl rfl
      | some e => exact Or.inr ⟨e, rfl, rfl⟩

/-! ## Documents -/

theorem searchIdentical_isSome {val : Zval} {elems : List Bytes} {kvs : List (ArrayKey × Zval)}
    (hkvs : kvs.map Prod.snd = elems.map value) :
    (searchIdentical php val kvs).isSome =
      elems.any fun e => zendIsIdentical php val (value e) := by
  have hany : kvs.any (fun entry => zendIsIdentical php val entry.2) =
      (kvs.map Prod.snd).any (zendIsIdentical php val) := by rw [List.any_map]; rfl
  rw [searchIdentical, List.findIdx?_isSome, hany, hkvs, List.any_map]
  rfl

/-- **The whole document** is read as it is at one moment. -/
theorem readValue_served (compute : Zval → Zval) {v : Server} {fate : Fate} {answer : Answer Response}
    (ha : AnswersGet bucket value v fate answer) :
    ∃ o, (match getOutcome bucket answer with
        | .error f => .done (.error f)
        | .ok (.thrown e) => .done (.ok (.thrown e))
        | .ok (.returned doc) => .done (.ok (.returned (compute doc.value))) : Proc Zval) =
          .done o ∧ (∀ f, o ≠ .error f) ∧
      ∀ z elems, o = .ok (.returned z) → v.content = .list elems →
        ∃ kvs, kvs.map Prod.snd = elems.map value ∧ z = compute (.array kvs) := by
  rcases ha.outcome with ⟨e, hget⟩ | ⟨doc, hget⟩
  · rw [hget]
    exact ⟨_, rfl, nofun, nofun⟩
  · obtain ⟨resp, rfl, hrc, hdoc⟩ := getOutcome_returned hget
    rw [hget]
    refine ⟨_, rfl, nofun, fun z elems hz helems => ?_⟩
    cases ha with
    | failed _ hfailed => exact absurd hrc hfailed
    | other hc _ _ _ =>
      rw [hc] at helems
      cases helems
    | list hc _ _ hreads =>
      rw [hc] at helems
      cases helems
      obtain ⟨kvs, hvalue, hkvs⟩ := getDocument_list hreads hdoc
      cases hz
      exact ⟨kvs, hkvs, by rw [hvalue]⟩

end PhpCouchbase
