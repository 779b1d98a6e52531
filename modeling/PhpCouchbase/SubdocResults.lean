import PhpCouchbase.Subdoc

/-!
# Results of subdocument requests

The server reports a value and a status code for the specs of a request.  `subdoc_callback`
(`bucket/subdoc.c`) collects them with the CAS and the token of the response, and the fragment takes
over what its initialiser asks for.

* `reportedAt` — the entry that a response has for a spec.
* `elementAt_subdocCallback` — it is the one at the position of the spec.
* `linesUp_iff` — when the fragment keeps all of the response.
-/

set_option autoImplicit false

namespace PhpCouchbase

open OrderedMap

/-! ## What is reported -/

/-- The JSON decoder with its error code: a text that is no JSON leaves a null. -/
structure JsonReader (php : Php) where
  decode : Bytes → Option Zval
  jsonDecode_eq : ∀ text, php.jsonDecode text = (decode text).getD .null

/-- A value that is there is what its text says; bytes that are no JSON are a value, too. -/
def JsonReader.reported {php : Php} (reader : JsonReader php) (value : Bytes) : Zval :=
  if value = [] then .null else (reader.decode value).getD (.string value)

/-- The entry of a response for spec number `i`: a lookup has one for each spec, a mutation names
the spec in the entry. -/
def reportedAt (isLookup : Bool) (entries : List SdEntry) (i : Nat) : Option SdEntry :=
  if isLookup then entries[i]? else entries.reverse.find? (·.index = Int64.ofNat i)

/-- The element of an array at a position. -/
def elementAt (z : Zval) (i : Nat) : Option Zval :=
  match z with
  | .array elems => fetch elems (.index (Int64.ofNat i))
  | _ => none

/-- **A fragment has all of a response**: the values and codes of the specs at their positions, an
error unless the response is a success, and the CAS and the token that the callback recorded. -/
structure LinesUp (php : Php) (reader : JsonReader php) (bucket : BucketConf) (cmd : SubdocCommand)
    (resp : SubdocResponse) : Prop where
  value : ∀ i, i < 2 ^ 63 → elementAt (fragmentOf php bucket cmd resp).value i =
    (reportedAt cmd.isLookup resp.entries i).map fun cur =>
      .array [(.str (ascii "value"), reader.reported cur.value), (.str (ascii "code"), .long cur.status)]
  error : (fragmentOf php bucket cmd resp).error = none ↔ resp.rc = .success
  cas : ∀ cas, (subdocCallback php bucket cmd.isLookup resp).cas = some cas →
    (fragmentOf php bucket cmd resp).cas = cas
  token : ∀ token, (subdocCallback php bucket cmd.isLookup resp).token = some token →
    (fragmentOf php bucket cmd resp).token = some token

/-! ## Positions -/

theorem ofNat_eq_iff {i j : Nat} (hi : i < 2 ^ 63) (hj : j < 2 ^ 63) :
    Int64.ofNat i = Int64.ofNat j ↔ i = j := by
  refine ⟨fun h => ?_, fun h => h ▸ rfl⟩
  have hint := congrArg Int64.toInt h
  rw [Int64.toInt_ofNat_of_lt hi, Int64.toInt_ofNat_of_lt hj] at hint
  omega

/-- The position of a counted entry. -/
theorem find_zipIdx {α : Type} {l : List α} (hlen : l.length < 2 ^ 63) {i : Nat} (hi : i < 2 ^ 63) :
    (l.zipIdx.reverse.find? fun p => Int64.ofNat p.2 = Int64.ofNat i).map Prod.fst = l[i]? := by
  induction l using List.reverseRecOn with
  | nil => rfl
  | append_singleton l a ih =>
    rw [List.length_append, List.length_singleton] at hlen
    rw [List.zipIdx_append, List.reverse_append, List.zipIdx_singleton, List.reverse_singleton,
      List.singleton_append, List.find?_cons]
    by_cases h : l.length = i
    · subst h
      simp
    · have hne : ¬Int64.ofNat (0 + l.length) = Int64.ofNat i := by
        rw [ofNat_eq_iff (by omega) hi]
        omega
      simp only [hne, decide_false]
      rw [ih (by omega), List.getElem?_append]
      split
      · rfl
      · rw [List.getElem?_eq_none (by omega), List.getElem?_eq_none (by
          rw [List.length_singleton]
          omega)]

/-- **The callback puts an entry at the position of its spec.** -/
theorem elementAt_subdocCallback (php : Php) (bucket : BucketConf) (isLookup : Bool)
    {resp : SubdocResponse} (hlen : resp.entries.length < 2 ^ 63) {i : Nat} (hi : i < 2 ^ 63) :
    elementAt (subdocCallback php bucket isLookup resp).value i =
      (reportedAt isLookup resp.entries i).map (subdocEntry php) := by
  show fetch (fill [] (resp.entries.zipIdx.map fun p =>
    (ArrayKey.index (if isLookup then Int64.ofNat p.2 else p.1.index), subdocEntry php p.1)))
    (.index (Int64.ofNat i)) = _
  rw [fetch_fill_map]
  cases isLookup with
  | true =>
    simp only [if_true, ArrayKey.index.injEq, reportedAt]
    rw [← find_zipIdx hlen hi, Option.map_map]
    rfl
  | false =>
    simp only [Bool.false_eq_true, if_false, ArrayKey.index.injEq, reportedAt]
    -- an entry of a mutation does not look at its number
    have hentries : resp.entries = resp.entries.zipIdx.map Prod.fst := (List.zipIdx_map_fst 0 _).symm
    conv_rhs => rw [hentries]
    rw [← List.map_reverse, List.find?_map, Option.map_map]
    rfl

/-! ## The fragment -/

section Fragments

variable {php : Php} {bucket : BucketConf} {cmd : SubdocCommand} {resp : SubdocResponse}

/-- The values of the entries are there after a success and after a multi failure. -/
theorem elementAt_fragmentOf (hlen : resp.entries.length < 2 ^ 63)
    (hrc : resp.rc = .success ∨ resp.rc = .subdocMultiFailure) {i : Nat} (hi : i < 2 ^ 63) :
    elementAt (fragmentOf php bucket cmd resp).value i =
      (reportedAt cmd.isLookup resp.entries i).map (subdocEntry php) := by
  rw [fragmentOf_value_eq php bucket hrc, elementAt_subdocCallback php bucket _ hlen hi]

/-- A success has the CAS and the token. -/
theorem fragmentOf_token_success (hrc : resp.rc = .success) :
    (fragmentOf php bucket cmd resp).token =
      (subdocCallback php bucket cmd.isLookup resp).token := by
  rw [fragmentOf_eq, if_pos hrc]
  rfl

/-- An error has neither. -/
theorem fragmentOf_token (hrc : resp.rc ≠ .success) :
    (fragmentOf php bucket cmd resp).token = none := by
  rw [fragmentOf_eq, if_neg hrc]
  rfl

/-- The value of an entry is the reported one unless its bytes are no JSON. -/
theorem entryZval_eq_reported_iff (reader : JsonReader php) (value : Bytes) :
    entryZval php value = reader.reported value ↔
      (value ≠ [] → (reader.decode value).isSome = true) := by
  unfold entryZval JsonReader.reported
  by_cases hnil : value = []
  · simp [hnil]
  · rw [if_neg hnil, if_neg hnil, reader.jsonDecode_eq]
    cases reader.decode value with
    | none => simp [hnil]
    | some z => simp

/-- When the element of an entry is what the server reported. -/
theorem subdocEntry_eq_iff (reader : JsonReader php) (cur : SdEntry) :
    subdocEntry php cur = .array [(.str (ascii "value"), reader.reported cur.value),
        (.str (ascii "code"), .long cur.status)] ↔
      (cur.value ≠ [] → (reader.decode cur.value).isSome = true) := by
  rw [← entryZval_eq_reported_iff]
  simp [subdocEntry]

/-- The condition: a success whose values are JSON, or an error that comes with nothing. -/
def KeepsAll (reader : JsonReader php) (cmd : SubdocCommand) (resp : SubdocResponse) : Prop :=
  match resp.rc with
  | .success => ∀ i cur, i < 2 ^ 63 → reportedAt cmd.isLookup resp.entries i = some cur →
      cur.value ≠ [] → (reader.decode cur.value).isSome = true
  -- the CAS is recorded, and the initialiser of an error does not take it
  | .subdocMultiFailure => False
  | _ => resp.token = none ∧ ∀ i, i < 2 ^ 63 → reportedAt cmd.isLookup resp.entries i = none

theorem linesUp_success_iff (reader : JsonReader php) (hlen : resp.entries.length < 2 ^ 63)
    (hrc : resp.rc = .success) :
    LinesUp php reader bucket cmd resp ↔
      ∀ i cur, i < 2 ^ 63 → reportedAt cmd.isLookup resp.entries i = some cur →
        cur.value ≠ [] → (reader.decode cur.value).isSome = true := by
  constructor
  · intro h i cur hi hcur
    have hvalue := h.value i hi
    rw [elementAt_fragmentOf hlen (.inl hrc) hi, hcur] at hvalue
    exact (subdocEntry_eq_iff reader cur).mp (Option.some.inj hvalue)
  · intro h
    refine ⟨fun i hi => ?_, fragmentOf_error php bucket cmd resp, fun cas hcas => ?_, fun token ht => ?_⟩
    · rw [elementAt_fragmentOf hlen (.inl hrc) hi]
      cases hcur : reportedAt cmd.isLookup resp.entries i with
      | none => rfl
      | some cur =>
        exact congrArg some ((subdocEntry_eq_iff reader cur).mpr (h i cur hi hcur))
    · rw [fragmentOf_cas_success php bucket hrc]
      simpa [subdocCallback, hrc] using hcas
    · rw [fragmentOf_token_success hrc, ht]

/-- The CAS of a multi failure is recorded and lost. -/
theorem not_linesUp_multiFailure (reader : JsonReader php) (hrc : resp.rc = .subdocMultiFailure) :
    ¬LinesUp php reader bucket cmd resp := by
  intro h
  have hne : resp.rc ≠ .success := by
    rw [hrc]
    decide
  have hcas := h.cas (casEncode resp.cas) (by simp [subdocCallback, hrc])
  rw [fragmentOf_cas php bucket hne] at hcas
  cases hcas

theorem linesUp_error_iff (reader : JsonReader php) (hrc : resp.rc ≠ .success)
    (hmulti : resp.rc ≠ .subdocMultiFailure) :
    LinesUp php reader bucket cmd resp ↔
      resp.token = none ∧ ∀ i, i < 2 ^ 63 → reportedAt cmd.isLookup resp.entries i = none := by
  constructor
  · intro h
    constructor
    · by_contra htoken
      obtain ⟨mt, hmt⟩ := Option.ne_none_iff_exists'.mp htoken
      have hlost := h.token ⟨bucket.bucketname, mt⟩ (by simp [subdocCallback, hmt])
      rw [fragmentOf_token hrc] at hlost
      cases hlost
    · intro i hi
      have hvalue := h.value i hi
      rw [fragmentOf_value php bucket hrc hmulti] at hvalue
      exact Option.map_eq_none_iff.mp hvalue.symm
  · rintro ⟨htoken, hnone⟩
    refine ⟨fun i hi => ?_, fragmentOf_error php bucket cmd resp, fun cas hcas => ?_, fun token ht => ?_⟩
    · rw [fragmentOf_value php bucket hrc hmulti, hnone i hi]
      rfl
    · simp [subdocCallback, hrc, hmulti] at hcas
    · simp [subdocCallback, htoken] at ht

end Fragments

/-- **When a fragment has all of a response.** -/
theorem linesUp_iff {php : Php} (reader : JsonReader php) (bucket : BucketConf) (cmd : SubdocCommand)
    (resp : SubdocResponse) (hlen : resp.entries.length < 2 ^ 63) :
    LinesUp php reader bucket cmd resp ↔ KeepsAll reader cmd resp := by
  by_cases hrc : resp.rc = .success
  · rw [linesUp_success_iff reader hlen hrc, KeepsAll, hrc]
  · by_cases hmulti : resp.rc = .subdocMultiFailure
    · rw [KeepsAll, hmulti]
      exact iff_of_false (not_linesUp_multiFailure reader hmulti) id
    · rw [linesUp_error_iff reader hrc hmulti]
      unfold KeepsAll
      split
      · rename_i h
        exact absurd h hrc
      · rename_i h
        exact absurd h hmulti
      · rfl

/-- JSON of strings without quotes in them. -/
def plainReader : JsonReader plainPhp where
  decode
    | 34 :: text => some (.string text.dropLast)
    | _ => none
  jsonDecode_eq text := by
    cases text with
    | nil => rfl
    | cons c text =>
      by_cases h : c = 34
      · subst h
        rfl
      · simp [plainPhp, h]

/-- One lookup of `a`, answered with `rc` and one value. -/
def oneLookup : SubdocCommand := ⟨ascii "id", [⟨.get, ascii "a", [], noOptions⟩], 0⟩

def oneAnswer (rc : LcbError) (value : Bytes) : SubdocResponse := ⟨rc, 1, none, [⟨value, 0, 0⟩]⟩

/-- The answer `"v"` is the string `v` in its fragment. -/
theorem linesUp_text :
    LinesUp plainPhp plainReader ⟨.ofBytes [], fun z _ _ => z⟩ oneLookup
      (oneAnswer .success (quoted "v")) := by
  refine (linesUp_iff plainReader _ _ _ (by decide)).mpr ?_
  rintro (_ | i) cur - hcur -
  · cases hcur
    rfl
  · cases hcur

/-- **Responses that lose something**: the CAS of a multi failure, and a value that is no JSON. -/
theorem responses_lose :
    ¬LinesUp plainPhp plainReader ⟨.ofBytes [], fun z _ _ => z⟩ oneLookup
        (oneAnswer .subdocMultiFailure []) ∧
      ¬LinesUp plainPhp plainReader ⟨.ofBytes [], fun z _ _ => z⟩ oneLookup
        (oneAnswer .success (ascii "v")) := by
  refine ⟨not_linesUp_multiFailure plainReader rfl, fun h => ?_⟩
  rw [linesUp_success_iff plainReader (by decide) rfl] at h
  exact absurd (h 0 ⟨ascii "v", 0, 0⟩ (by decide) rfl (by decide)) (by decide)

end PhpCouchbase
