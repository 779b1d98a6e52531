import PhpCouchbase.SearchQueryPart

/-!
# What a search query says

The JSON meaning of a tree of queries (`search/`), said from its constructors and the calls alone: a
query has the kind its constructor is named after, a string or number stands verbatim under its own
key, a list has the accepted queries in the order of the arguments, and an option has the value it
was last set to, if that is an admissible one.

* `foldl_call` — the variables of an object after a sequence of calls.
* `printed_eq_meaning_iff` — for one member, when the printed member is the meant one.
* `part_eq_meaning_iff` — for a whole tree, by induction on the tree.
-/

set_option autoImplicit false

namespace PhpCouchbase

open LastWrite

section

variable {ι : Type} (formatDate : Int64 → CString)

/-! ## The meaning -/

namespace QueryCall

/-- A date that `start` or `end` accepts and the flag that came with it. -/
def dateArgs? (side : Side) : QueryCall ι → Option (Bytes × Option Bool)
  | .date side' value inclusive =>
      if side' = side then (dateText formatDate value).map fun d => (d, inclusive) else none
  | _ => none

/-- A term and the flag that came with it. -/
def termArgs? (side : Side) : QueryCall ι → Option (Bytes × Option Bool)
  | .term side' s inclusive => if side' = side then some (s, inclusive) else none
  | _ => none

end QueryCall

/-- The lower end of a range is inclusive unless it is said otherwise, the upper end is not. -/
def Side.inclusive (side : Side) (flag : Option Bool) : Bool := flag.getD (side = .lower)

/-- An integer option that was last set to `n`; a negative number is not admissible. -/
def intMeaning (n : Option Int64) : Option Json :=
  (n.filter (0 ≤ ·.toInt)).map fun n => .long n.toInt

/-- What a member of a query means.  `sub` is the meaning of a sub-query. -/
def QueryMember.meaning (sub : ι → Json) (calls : List (QueryCall ι)) : QueryMember ι → Slots
  | .null key => [slot key (some .null)]
  | .flag key b => [slot key (some (.bool b))]
  | .point key longitude latitude => [slot key (some (.list [.double longitude, .double latitude]))]
  | .arg key s => [slot key (some (.string s))]
  | .sizedArg key s => [slot key (some (.string s))]
  | .terms key t ts => [slot key (some (.list ((stringArgs (t :: ts)).map .string)))]
  | .docIds key i ids =>
      [slot key (some (.list
        ((stringArgs (i :: ids) ++ calls.flatMap QueryCall.ids).map .string)))]
  | .queries key m q qs =>
      [slot key (some (.list ((queryArgs (q :: qs) ++ calls.flatMap (QueryCall.added m)).map sub)))]
  | .clause key m => [slot key ((last (QueryCall.clause? m) calls).map fun qs => .list (qs.map sub))]
  | .text key m => [slot key ((last (QueryCall.text? m) calls).map .string)]
  | .int key m => [slot key (intMeaning (last (QueryCall.int? m) calls))]
  | .boost => [slot "boost" (((last QueryCall.boost? calls).filter geZero).map .double)]
  | .date side =>
      let d := last (QueryCall.dateArgs? formatDate side) calls
      [slot side.dateKey (d.map fun p => .string p.1),
        slot side.inclusiveDateKey (d.map fun p => .bool (side.inclusive p.2))]
  | .number side =>
      let v := last (QueryCall.number? side) calls
      [slot side.key (v.map fun p => .double p.1), slot side.inclusiveKey (v.map fun p => .bool p.2)]
  | .term side =>
      let v := last (QueryCall.termArgs? side) calls
      [slot side.key (v.map fun p => .string p.1),
        slot side.inclusiveKey (v.map fun p => .bool (side.inclusive p.2))]

/-- The class that a constructor is named after. -/
def QueryConstructor.named : QueryConstructor ι → List (QueryMember ι)
  | .matchAll => matchAllSearchQuery
  | ctor => ctor.init

/-- The JSON meaning of a tree of queries. -/
def SearchQueryPart.meaning : SearchQueryPart → Json
  | .mk _ sub ctor calls =>
      .object (present
        (ctor.named.map (QueryMember.meaning formatDate (fun i => (sub i).meaning) calls)).flatten)

/-! ## The condition -/

/-- An `int` keeps the value or, when it is not admissible, stays negative. -/
def KeepsInt (n : Int64) : Prop := if 0 ≤ n.toInt then n.toInt < 2 ^ 31 else n.toInt32.toInt < 0

/-- When a member is printed as it is meant.  `good` says so of a sub-query. -/
def QueryMember.Faithful (good : ι → Prop) (calls : List (QueryCall ι)) : QueryMember ι → Prop
  | .arg _ s => s.length < 2 ^ 31 ∧ 0 ∉ s
  | .sizedArg _ s => s.length < 2 ^ 31
  | .queries _ m q qs =>
      ∀ i ∈ queryArgs (q :: qs) ++ calls.flatMap (QueryCall.added m), good i
  | .clause _ m => ∀ qs, last (QueryCall.clause? m) calls = some qs → ∀ i ∈ qs, good i
  | .text _ m => ∀ s, last (QueryCall.text? m) calls = some s → 0 ∉ s
  | .int _ m => ∀ n, last (QueryCall.int? m) calls = some n → KeepsInt n
  -- the flag that is printed is not the one that came with the date
  | .date side => ∀ p, last (QueryCall.dateArgs? formatDate side) calls = some p →
      0 ∉ p.1 ∧ side.inclusive p.2 = (last (QueryCall.dateInclusive? side) calls).getD false
  | .term side => ∀ p, last (QueryCall.termArgs? side) calls = some p →
      p.1.length < 2 ^ 31 ∧ side.inclusive p.2 = p.2.getD false
  | _ => True

/-- A member that is always there, or an option that is set to an admissible value. -/
def QueryMember.Given (calls : List (QueryCall ι)) : QueryMember ι → Prop
  | .clause _ m => last (QueryCall.clause? m) calls ≠ none
  | .text _ m => last (QueryCall.text? m) calls ≠ none
  | .int _ m => intMeaning (last (QueryCall.int? m) calls) ≠ none
  | .boost => (last QueryCall.boost? calls).filter geZero ≠ none
  | .date side => last (QueryCall.dateArgs? formatDate side) calls ≠ none
  | .number side => last (QueryCall.number? side) calls ≠ none
  | .term side => last (QueryCall.termArgs? side) calls ≠ none
  | _ => True

/-- When a tree is printed as it is meant. -/
def SearchQueryPart.Faithful : SearchQueryPart → Prop
  | .mk _ sub ctor calls =>
      ctor ≠ .matchAll ∧
      (∀ m ∈ ctor.named, m.Faithful formatDate (fun i => (sub i).Faithful) calls) ∧
      ∃ m ∈ ctor.named, m.Given formatDate calls

/-! ## The variables after all calls -/

namespace QueryField

/-- The variables after a sequence of calls, without the fold. -/
def after (calls : List (QueryCall ι)) : QueryField ι → QueryField ι
  | .fixed key v => .fixed key v
  | .docIds key ids => .docIds key (ids ++ calls.flatMap QueryCall.ids)
  | .queries key m qs => .queries key m (qs ++ calls.flatMap (QueryCall.added m))
  | .clause key m qs => .clause key m ((last (QueryCall.clause? m) calls).or qs)
  | .text key m s => .text key m ((last (QueryCall.text? m) calls).or s)
  | .int key m n =>
      .int key m ((last (fun c => (c.int? m).map Int64.toInt32) calls).getD n)
  | .boost bits => .boost ((last QueryCall.boost? calls).getD bits)
  | .date side d inclusive =>
      .date side ((last (QueryCall.date? formatDate side) calls).or d)
        ((last (QueryCall.dateInclusive? side) calls).getD inclusive)
  | .number side v => .number side ((last (QueryCall.number? side) calls).or v)
  | .term side v => .term side ((last (QueryCall.term? side) calls).or v)

/-- **A run of calls** on the variables of one member. -/
theorem foldl_call (calls : List (QueryCall ι)) (f : QueryField ι) :
    calls.foldl (fun f c => f.call formatDate c) f = f.after formatDate calls := by
  cases f with
  | fixed key v =>
    induction calls with
    | nil => rfl
    | cons c calls ih => exact ih
  | docIds key ids =>
    refine (List.foldl_hom (QueryField.docIds key) ?_).trans
      (congrArg (QueryField.docIds key) (foldl_append_flatMap _ ids calls))
    exact fun _ _ => rfl
  | queries key m qs =>
    refine (List.foldl_hom (QueryField.queries key m) ?_).trans
      (congrArg (QueryField.queries key m) (foldl_append_flatMap _ qs calls))
    exact fun _ _ => rfl
  | clause key m qs =>
    refine (List.foldl_hom (QueryField.clause key m) ?_).trans
      (congrArg (QueryField.clause key m) (foldl_or _ qs calls))
    exact fun _ _ => rfl
  | text key m s =>
    refine (List.foldl_hom (QueryField.text key m) ?_).trans
      (congrArg (QueryField.text key m) (foldl_or _ s calls))
    exact fun _ _ => rfl
  | int key m n =>
    refine (List.foldl_hom (QueryField.int key m) ?_).trans
      (congrArg (QueryField.int key m) (foldl_getD _ n calls))
    exact fun _ _ => rfl
  | boost bits =>
    refine (List.foldl_hom QueryField.boost ?_).trans
      (congrArg QueryField.boost (foldl_getD _ bits calls))
    exact fun _ _ => rfl
  | date side d inclusive =>
    let field (p : Option Bytes × Bool) : QueryField ι := .date side p.1 p.2
    have hrun := foldl_pair (fun d c => (c.date? formatDate side).or d)
      (fun b c => (QueryCall.dateInclusive? side c).getD b) d inclusive calls
    rw [foldl_or, foldl_getD] at hrun
    refine (List.foldl_hom field ?_).trans (congrArg field hrun)
    exact fun _ _ => rfl
  | number side v =>
    refine (List.foldl_hom (QueryField.number side) ?_).trans
      (congrArg (QueryField.number side) (foldl_or _ v calls))
    exact fun _ _ => rfl
  | term side v =>
    refine (List.foldl_hom (QueryField.term side) ?_).trans
      (congrArg (QueryField.term side) (foldl_or _ v calls))
    exact fun _ _ => rfl

end QueryField

/-! ## One member -/

/-- What `jsonSerialize` prints of a member. -/
def QueryMember.printed (sub : ι → C Json) (calls : List (QueryCall ι)) (m : QueryMember ι) :
    C Slots := do
  let f ← m.init
  (f.after formatDate calls).slots sub

theorem slot_inj {key : String} {v w : Option Json} : slot key v = slot key w ↔ v = w := by
  simp [slot]

theorem ok_slot_iff {key : String} {v w : Option Json} :
    (.ok [slot key v] : C Slots) = .ok [slot key w] ↔ v = w := by
  simp [slot]

theorem ok_slots_iff {key key' : String} {v w v' w' : Option Json} :
    (.ok [slot key v, slot key' v'] : C Slots) = .ok [slot key w, slot key' w'] ↔
      v = w ∧ v' = w' := by
  simp [slot]

theorem assocString_eq_iff (s : Bytes) : assocString s = .string s ↔ 0 ∉ s := by
  unfold assocString CString.ofBytes
  rw [Json.string.injEq, List.takeWhile_eq_self_iff]
  constructor
  · intro h hmem
    simpa using h 0 hmem
  · intro h c hc
    apply decide_eq_true
    rintro rfl
    exact h hc

theorem assocString_ne_of_length_lt {p s : Bytes} (h : p.length < s.length) :
    assocString p ≠ .string s := by
  intro heq
  have hlen : (p.takeWhile (· ≠ 0)).length ≤ p.length := (List.takeWhile_prefix _).length_le
  have hs : p.takeWhile (· ≠ 0) = s := Json.string.inj heq
  rw [hs] at hlen
  omega

/-- A copy with a length that is declared `int`: where a shorter copy is wrong, the copy is right
exactly when the length fits. -/
theorem copy_eq_ok_iff {β : Type} (s : Bytes) (f : Bytes → β) {b : β}
    (hshort : ∀ p, p.length < s.length → f p ≠ b) :
    (prefixOf s (narrowInt s.length) >>= fun copy => (.ok (f copy) : C β)) = .ok b ↔
      s.length < 2 ^ 31 ∧ f s = b := by
  by_cases hlen : s.length < 2 ^ 31
  · rw [prefixOf_narrowInt hlen, C.bind_ok, Except.ok.injEq]
    exact (and_iff_right hlen).symm
  · have hlt := narrowInt_of_ge (n := s.length) (by omega)
    rw [C.bind_eq_ok]
    constructor
    · rintro ⟨p, hp, hf⟩
      have hplen := (prefixOf_eq_ok hp).2
      exact absurd (Except.ok.inj hf) (hshort p (by omega))
    · rintro ⟨h, -⟩
      exact absurd h hlen

theorem intJson_toInt32_iff (n : Int64) :
    intJson n.toInt32 = intMeaning (some n) ↔ KeepsInt n := by
  have hbmod := Int64.toInt_toInt32 n
  have hlt := Int32.toInt_lt n.toInt32
  have hle := Int64.le_toInt n
  have hlt64 := Int64.toInt_lt n
  unfold KeepsInt intJson intMeaning
  by_cases h : 0 ≤ n.toInt
  · rw [if_pos h, Option.filter_some, if_pos (decide_eq_true h), Option.map_some]
    constructor
    · intro heq
      split at heq
      · have hsame := Json.long.inj (Option.some.inj heq)
        omega
      · cases heq
    · intro hfit
      have hsame : n.toInt32.toInt = n.toInt := by
        rw [hbmod]
        apply Int.bmod_eq_of_le <;> omega
      rw [hsame, if_pos h]
  · have hnone : (some n).filter (fun n : Int64 => decide (0 ≤ n.toInt)) = none := by
      rw [Option.filter_some, if_neg (by simpa using h)]
    rw [hnone, Option.map_none, if_neg h]
    constructor
    · intro heq
      split at heq
      · cases heq
      · omega
    · intro hneg
      rw [if_neg (by omega)]

/-- An `int` variable that starts with `-1`. -/
theorem intJson_eq_intMeaning_iff (n : Option Int64) :
    intJson ((n.map Int64.toInt32).getD (-1)) = intMeaning n ↔ ∀ m, n = some m → KeepsInt m := by
  cases n with
  | none => exact iff_of_true rfl (fun _ h => absurd h (by simp))
  | some n =>
    simp only [Option.map_some, Option.getD_some, Option.some.injEq, forall_eq']
    exact intJson_toInt32_iff n

variable {formatDate} {code : ι → C Json} {sub : ι → Json} {good : ι → Prop}

theorem printed_arg_iff (key : String) (s : Bytes) (calls : List (QueryCall ι)) :
    (QueryMember.arg key s).printed formatDate code calls =
        .ok ((QueryMember.arg key s).meaning formatDate sub calls) ↔
      s.length < 2 ^ 31 ∧ 0 ∉ s := by
  have hprint : (QueryMember.arg key s).printed formatDate code calls =
      prefixOf s (narrowInt s.length) >>= fun copy => .ok [slot key (some (assocString copy))] := by
    rw [QueryMember.printed, QueryMember.init]
    cases prefixOf s (narrowInt s.length) <;> rfl
  rw [hprint, QueryMember.meaning, copy_eq_ok_iff, ← assocString_eq_iff]
  · simp [slot]
  · intro p hp heq
    have hsame := (Prod.mk.inj (List.cons.inj heq).1).2
    exact assocString_ne_of_length_lt hp (Option.some.inj hsame)

theorem printed_sizedArg_iff (key : String) (s : Bytes) (calls : List (QueryCall ι)) :
    (QueryMember.sizedArg key s).printed formatDate code calls =
        .ok ((QueryMember.sizedArg key s).meaning formatDate sub calls) ↔
      s.length < 2 ^ 31 := by
  have hprint : (QueryMember.sizedArg key s).printed formatDate code calls =
      prefixOf s (narrowInt s.length) >>= fun copy => .ok [slot key (some (.string copy))] := by
    rw [QueryMember.printed, QueryMember.init]
    cases prefixOf s (narrowInt s.length) <;> rfl
  rw [hprint, QueryMember.meaning, copy_eq_ok_iff]
  · exact and_iff_left rfl
  · intro p hp heq
    have hsame := (Prod.mk.inj (List.cons.inj heq).1).2
    have hps := Json.string.inj (Option.some.inj hsame)
    rw [hps] at hp
    omega

theorem list_slot_iff (hsub : ∀ i, code i = .ok (sub i) ↔ good i) (key : String) (qs : List ι) :
    (qs.mapM code >>= fun elems => (.ok [slot key (some (.list elems))] : C Slots)) =
        .ok [slot key (some (.list (qs.map sub)))] ↔
      ∀ i ∈ qs, good i := by
  have hmap : (∀ i ∈ qs, good i) ↔ qs.mapM code = .ok (qs.map sub) := by
    rw [C.mapM_eq_ok_map_iff]
    exact forall₂_congr fun i _ => (hsub i).symm
  rw [hmap, C.bind_eq_ok]
  constructor
  · rintro ⟨elems, helems, heq⟩
    have hlist := Option.some.inj (slot_inj.mp (List.cons.inj (Except.ok.inj heq)).1)
    rw [helems, Json.list.inj hlist]
  · intro h
    exact ⟨_, h, rfl⟩

theorem printed_date_iff (side : Side) (calls : List (QueryCall ι)) :
    (QueryMember.date side).printed formatDate code calls =
        .ok ((QueryMember.date side).meaning formatDate sub calls) ↔
      (QueryMember.date side).Faithful formatDate good calls := by
  have hdate : QueryCall.date? formatDate side =
      fun c : QueryCall ι => (c.dateArgs? formatDate side).map Prod.fst := by
    funext c
    cases c with
    | date side' value inclusive =>
      simp only [QueryCall.date?, QueryCall.dateArgs?]
      split
      · cases dateText formatDate value <;> rfl
      · rfl
    | _ => rfl
  simp only [QueryMember.printed, QueryMember.init, C.bind_ok, QueryField.after, QueryField.slots,
    QueryMember.meaning, QueryMember.Faithful, ok_slots_iff, hdate, last_map]
  generalize last (QueryCall.dateArgs? formatDate side) calls = d
  cases d with
  | none => simp
  | some p =>
    simp only [Option.map_some, Option.or_none, Option.some.injEq, assocString_eq_iff,
      Json.bool.injEq, forall_eq']
    exact and_congr_right fun _ => eq_comm

theorem printed_term_iff (side : Side) (calls : List (QueryCall ι)) :
    (QueryMember.term side).printed formatDate code calls =
        .ok ((QueryMember.term side).meaning formatDate sub calls) ↔
      (QueryMember.term side).Faithful formatDate good calls := by
  have hterm : QueryCall.term? side = fun c : QueryCall ι =>
      (c.termArgs? side).map fun p => (p.1, p.2.getD false) := by
    funext c
    cases c with
    | term side' s inclusive =>
      simp only [QueryCall.term?, QueryCall.termArgs?]
      split <;> rfl
    | _ => rfl
  simp only [QueryMember.printed, QueryMember.init, C.bind_ok, QueryField.after,
    QueryMember.meaning, QueryMember.Faithful, hterm, last_map]
  generalize last (QueryCall.termArgs? side) calls = v
  cases v with
  | none => simp [QueryField.slots]
  | some p =>
    obtain ⟨s, flag⟩ := p
    simp only [Option.map_some, Option.or_none, QueryField.slots, Option.some.injEq, forall_eq']
    rw [copy_eq_ok_iff]
    · simp [slot, eq_comm]
    · intro p hp heq
      have hsame := Json.string.inj (Option.some.inj (slot_inj.mp (List.cons.inj heq).1))
      rw [hsame] at hp
      omega

theorem printed_boost (calls : List (QueryCall ι)) :
    QueryMember.boost.printed formatDate code calls =
      .ok (QueryMember.boost.meaning formatDate sub calls) := by
  simp only [QueryMember.printed, QueryMember.init, C.bind_ok, QueryField.after, QueryField.slots,
    QueryMember.meaning, ok_slot_iff]
  generalize last QueryCall.boost? calls = bits
  cases bits with
  | none => rfl
  | some bits =>
    rw [Option.getD_some, Option.filter_some]
    split <;> rfl

theorem printed_int_iff (key : String) (m : IntSetter) (calls : List (QueryCall ι)) :
    (QueryMember.int key m).printed formatDate code calls =
        .ok ((QueryMember.int key m).meaning formatDate sub calls) ↔
      ∀ n, last (QueryCall.int? m) calls = some n → KeepsInt n := by
  simp only [QueryMember.printed, QueryMember.init, C.bind_ok, QueryField.after, QueryField.slots,
    QueryMember.meaning, ok_slot_iff, last_map]
  exact intJson_eq_intMeaning_iff _

theorem printed_text_iff (key : String) (m : TextSetter) (calls : List (QueryCall ι)) :
    (QueryMember.text key m).printed formatDate code calls =
        .ok ((QueryMember.text key m).meaning formatDate sub calls) ↔
      ∀ s, last (QueryCall.text? m) calls = some s → 0 ∉ s := by
  simp only [QueryMember.printed, QueryMember.init, C.bind_ok, QueryField.after, QueryField.slots,
    QueryMember.meaning, ok_slot_iff]
  generalize last (QueryCall.text? m) calls = s
  cases s with
  | none => simp
  | some s => simp [assocString_eq_iff]

theorem printed_clause_iff (hsub : ∀ i, code i = .ok (sub i) ↔ good i) (key : String)
    (m : ClauseSetter) (calls : List (QueryCall ι)) :
    (QueryMember.clause key m).printed formatDate code calls =
        .ok ((QueryMember.clause key m).meaning formatDate sub calls) ↔
      ∀ qs, last (QueryCall.clause? m) calls = some qs → ∀ i ∈ qs, good i := by
  simp only [QueryMember.printed, QueryMember.init, C.bind_ok, QueryField.after,
    QueryMember.meaning]
  generalize last (QueryCall.clause? m) calls = qs
  cases qs with
  | none => simp [QueryField.slots]
  | some qs =>
    simp only [Option.some_or, Option.map_some, QueryField.slots, Option.some.injEq, forall_eq']
    exact list_slot_iff hsub key qs

/-- **One member.**  It is printed as it is meant exactly when the condition holds. -/
theorem printed_eq_meaning_iff (hsub : ∀ i, code i = .ok (sub i) ↔ good i) (m : QueryMember ι)
    (calls : List (QueryCall ι)) :
    m.printed formatDate code calls = .ok (m.meaning formatDate sub calls) ↔
      m.Faithful formatDate good calls := by
  cases m with
  | null key => exact iff_of_true rfl trivial
  | flag key b => exact iff_of_true rfl trivial
  | point key longitude latitude => exact iff_of_true rfl trivial
  | arg key s => exact printed_arg_iff key s calls
  | sizedArg key s => exact printed_sizedArg_iff key s calls
  | terms key t ts => exact iff_of_true rfl trivial
  | docIds key i ids => exact iff_of_true rfl trivial
  | queries key m q qs => exact list_slot_iff hsub key _
  | clause key m => exact printed_clause_iff hsub key m calls
  | text key m => exact printed_text_iff key m calls
  | int key m => exact printed_int_iff key m calls
  | boost => exact iff_of_true (printed_boost calls) trivial
  | date side => exact printed_date_iff side calls
  | number side =>
    refine iff_of_true ?_ trivial
    simp only [QueryMember.printed, QueryMember.init, C.bind_ok, QueryField.after,
      QueryField.slots, QueryMember.meaning, Option.or_none]
  | term side => exact printed_term_iff side calls

/-! ## One object -/

/-- The names of a member do not depend on what was called. -/
def QueryMember.names : QueryMember ι → List Bytes
  | .null key | .flag key _ | .point key _ _ | .arg key _ | .sizedArg key _ | .terms key _ _
  | .docIds key _ _ | .queries key _ _ _ | .clause key _ | .text key _ | .int key _ => [ascii key]
  | .boost => [ascii "boost"]
  | .date side => [ascii side.dateKey, ascii side.inclusiveDateKey]
  | .number side | .term side => [ascii side.key, ascii side.inclusiveKey]

theorem names_meaning (formatDate : Int64 → CString) (sub : ι → Json) (m : QueryMember ι)
    (calls : List (QueryCall ι)) :
    Slots.names (m.meaning formatDate sub calls) = m.names := by
  cases m <;> rfl

theorem names_of_bind {α : Type} {x : C α} {g : α → Slots} {names : List Bytes} {s : Slots}
    (h : (x >>= fun a => (.ok (g a) : C Slots)) = .ok s) (hg : ∀ a, Slots.names (g a) = names) :
    Slots.names s = names := by
  obtain ⟨a, -, h⟩ := C.bind_eq_ok.mp h
  rw [← Except.ok.inj h, hg]

theorem names_printed {m : QueryMember ι} {calls : List (QueryCall ι)} {s : Slots}
    (h : m.printed formatDate code calls = .ok s) : Slots.names s = m.names := by
  obtain ⟨f, hf, hs⟩ := C.bind_eq_ok.mp h
  cases m with
  | arg key t =>
    obtain ⟨copy, -, hf⟩ := C.bind_eq_ok.mp hf
    cases hf
    cases hs
    rfl
  | sizedArg key t =>
    obtain ⟨copy, -, hf⟩ := C.bind_eq_ok.mp hf
    cases hf
    cases hs
    rfl
  | queries key m q qs =>
    cases hf
    exact names_of_bind hs fun _ => rfl
  | clause key m =>
    cases hf
    rw [QueryField.after, Option.or_none] at hs
    generalize last (QueryCall.clause? m) calls = qs at hs
    cases qs with
    | none =>
      cases hs
      rfl
    | some qs => exact names_of_bind hs fun _ => rfl
  | term side =>
    cases hf
    rw [QueryField.after, Option.or_none] at hs
    generalize last (QueryCall.term? side) calls = v at hs
    cases v with
    | none =>
      cases hs
      rfl
    | some p => exact names_of_bind hs fun _ => rfl
  | _ =>
    cases hf
    cases hs
    rfl

/-- The members of an object one after another. -/
theorem mapM_printed (sub : ι → Json) {ms : List (QueryMember ι)} {calls : List (QueryCall ι)}
    {slots : List Slots} (h : ms.mapM (QueryMember.printed formatDate code calls) = .ok slots) :
    Slots.names slots.flatten = ms.flatMap QueryMember.names ∧
      (slots.flatten = (ms.map (QueryMember.meaning formatDate sub calls)).flatten →
        slots = ms.map (QueryMember.meaning formatDate sub calls)) := by
  induction ms generalizing slots with
  | nil =>
    cases h
    exact ⟨rfl, fun _ => rfl⟩
  | cons m ms ih =>
    rw [List.mapM_cons, C.bind_eq_ok] at h
    obtain ⟨s, hs, h⟩ := h
    obtain ⟨slots', hslots, h⟩ := C.bind_eq_ok.mp h
    obtain rfl := Except.ok.inj h
    obtain ⟨hnames, hflatten⟩ := ih hslots
    have hname := names_printed hs
    constructor
    · rw [List.flatten_cons, Slots.names, List.map_append, List.flatMap_cons]
      exact congrArg₂ (· ++ ·) hname hnames
    · intro heq
      have hlength : s.length = (m.meaning formatDate sub calls).length := by
        have hlen := congrArg List.length (hname.trans (names_meaning formatDate sub m calls).symm)
        simpa only [Slots.names, List.length_map] using hlen
      rw [List.flatten_cons, List.map_cons, List.flatten_cons] at heq
      obtain ⟨hhead, htail⟩ := List.append_inj heq hlength
      rw [List.map_cons, hhead, hflatten htail]

theorem present_append (s t : Slots) : present (s ++ t) = present s ++ present t :=
  List.filterMap_append

theorem present_meaning_eq_nil_iff (m : QueryMember ι) (calls : List (QueryCall ι)) :
    present (m.meaning formatDate sub calls) = [] ↔ ¬ m.Given formatDate calls := by
  cases m with
  | clause key m =>
    simp only [QueryMember.meaning, QueryMember.Given, slot]
    cases last (QueryCall.clause? m) calls <;> simp
  | text key m =>
    simp only [QueryMember.meaning, QueryMember.Given, slot]
    cases last (QueryCall.text? m) calls <;> simp
  | int key m =>
    simp only [QueryMember.meaning, QueryMember.Given, slot]
    cases intMeaning (last (QueryCall.int? m) calls) <;> simp
  | boost =>
    simp only [QueryMember.meaning, QueryMember.Given, slot]
    cases (last QueryCall.boost? calls).filter geZero <;> simp
  | date side =>
    simp only [QueryMember.meaning, QueryMember.Given, slot]
    cases last (QueryCall.dateArgs? formatDate side) calls <;> simp
  | number side =>
    simp only [QueryMember.meaning, QueryMember.Given, slot]
    cases last (QueryCall.number? side) calls <;> simp
  | term side =>
    simp only [QueryMember.meaning, QueryMember.Given, slot]
    cases last (QueryCall.termArgs? side) calls <;> simp
  | _ => simp [QueryMember.meaning, QueryMember.Given, slot]

theorem present_meanings_ne_nil_iff (sub : ι → Json) (ms : List (QueryMember ι))
    (calls : List (QueryCall ι)) :
    present (ms.map (QueryMember.meaning formatDate sub calls)).flatten ≠ [] ↔
      ∃ m ∈ ms, m.Given formatDate calls := by
  induction ms with
  | nil => simp
  | cons m ms ih =>
    rw [List.map_cons, List.flatten_cons, present_append, ne_eq, List.append_eq_nil_iff,
      present_meaning_eq_nil_iff, not_and_or, not_not, ← ne_eq, ih]
    simp

/-- **One object.**  With distinct names, all members have to be as they are meant, and one of them
has to be there. -/
theorem object_eq_meaning_iff (hsub : ∀ i, code i = .ok (sub i) ↔ good i)
    {ms : List (QueryMember ι)} (hnodup : (ms.flatMap QueryMember.names).Nodup)
    (calls : List (QueryCall ι)) :
    (∃ slots, ms.mapM (QueryMember.printed formatDate code calls) = .ok slots ∧
        structJson (present slots.flatten) =
          .object (present (ms.map (QueryMember.meaning formatDate sub calls)).flatten)) ↔
      (∀ m ∈ ms, m.Faithful formatDate good calls) ∧ ∃ m ∈ ms, m.Given formatDate calls := by
  have hfaithful : (∀ m ∈ ms, m.Faithful formatDate good calls) ↔
      ms.mapM (QueryMember.printed formatDate code calls) =
        .ok (ms.map (QueryMember.meaning formatDate sub calls)) := by
    rw [C.mapM_eq_ok_map_iff]
    exact forall₂_congr fun m _ => (printed_eq_meaning_iff hsub m calls).symm
  rw [hfaithful, ← present_meanings_ne_nil_iff sub]
  constructor
  · rintro ⟨slots, hslots, heq⟩
    obtain ⟨hmembers, hne⟩ := structJson_eq_object_iff.mp heq
    obtain ⟨hnames, hflatten⟩ := mapM_printed sub hslots
    have hmeant : Slots.names (ms.map (QueryMember.meaning formatDate sub calls)).flatten =
        ms.flatMap QueryMember.names := by
      rw [Slots.names, List.map_flatten, List.map_map, List.flatMap]
      exact congrArg List.flatten (List.map_congr_left fun m _ => names_meaning formatDate sub m calls)
    rw [present_inj (hnames.trans hmeant.symm) (hnames ▸ hnodup)] at hmembers
    rw [hslots, hflatten hmembers]
    exact ⟨rfl, hne⟩
  · rintro ⟨hprinted, hne⟩
    exact ⟨_, hprinted, structJson_eq_object_iff.mpr ⟨rfl, hne⟩⟩

/-! ## Trees -/

theorem nodup_names (ctor : QueryConstructor ι) : (ctor.init.flatMap QueryMember.names).Nodup := by
  cases ctor <;> exact of_decide_eq_true rfl

/-- The object of a constructor after its calls, member by member. -/
theorem serialize_eq_ok_iff {ms : List (QueryMember ι)} {calls : List (QueryCall ι)}
    {slots : List Slots} :
    (ms.mapM QueryMember.init >>= fun o =>
        (calls.foldl (callQuery formatDate) o).mapM (QueryField.slots code)) = .ok slots ↔
      ms.mapM (QueryMember.printed formatDate code calls) = .ok slots := by
  have hrun : (fun o : List (QueryField ι) =>
      (calls.foldl (callQuery formatDate) o).mapM (QueryField.slots code)) =
      fun o => o.mapM fun f => (f.after formatDate calls).slots code := by
    funext o
    have hmap := foldl_map_step (QueryField.call formatDate) o calls
    simp only [QueryField.foldl_call] at hmap
    rw [show callQuery formatDate = fun o c => o.map (QueryField.call formatDate c) from rfl, hmap,
      List.mapM_map]
    rfl
  rw [hrun]
  exact C.mapM_bind_mapM

theorem jsonSerialize_eq_ok_iff {n : Nat} {parts : Fin n → SearchQueryPart}
    {ctor : QueryConstructor (Fin n)} {calls : List (QueryCall (Fin n))} {j : Json} :
    (SearchQueryPart.mk n parts ctor calls).jsonSerialize formatDate = .ok j ↔
      ∃ slots, ctor.init.mapM (QueryMember.printed formatDate
          (fun i => (parts i).jsonSerialize formatDate) calls) = .ok slots ∧
        structJson (present slots.flatten) = j := by
  rw [SearchQueryPart.jsonSerialize]
  constructor
  · intro h
    obtain ⟨o, ho, h⟩ := C.bind_eq_ok.mp h
    obtain ⟨slots, hslots, h⟩ := C.bind_eq_ok.mp h
    exact ⟨slots, serialize_eq_ok_iff.mp (C.bind_eq_ok.mpr ⟨o, ho, hslots⟩), Except.ok.inj h⟩
  · rintro ⟨slots, hslots, rfl⟩
    obtain ⟨o, ho, hslots⟩ := C.bind_eq_ok.mp (serialize_eq_ok_iff.mpr hslots)
    exact C.bind_eq_ok.mpr ⟨o, ho, C.bind_eq_ok.mpr ⟨slots, hslots, rfl⟩⟩

/-- `matchAll` makes a query that matches nothing. -/
theorem matchAll_ne_meaning {n : Nat} (parts : Fin n → SearchQueryPart)
    (calls : List (QueryCall (Fin n))) :
    (SearchQueryPart.mk n parts .matchAll calls).jsonSerialize formatDate ≠
      .ok ((SearchQueryPart.mk n parts .matchAll calls).meaning formatDate) := by
  intro h
  obtain ⟨slots, hslots, hjson⟩ := jsonSerialize_eq_ok_iff.mp h
  have hmembers := (structJson_eq_object_iff.mp hjson).1
  rw [QueryConstructor.init, matchNoneSearchQuery, List.mapM_cons, C.bind_eq_ok] at hslots
  obtain ⟨s, hs, hslots⟩ := hslots
  obtain ⟨rest, -, hslots⟩ := C.bind_eq_ok.mp hslots
  cases hs
  cases hslots
  have hkey : ascii "match_none" = ascii "match_all" := (Prod.mk.inj (List.cons.inj hmembers).1).1
  exact absurd hkey (by decide)

/-- **A tree of queries** is printed as it is meant exactly when the condition holds.  The induction
is on the tree. -/
theorem part_eq_meaning_iff (formatDate : Int64 → CString) (q : SearchQueryPart) :
    q.jsonSerialize formatDate = .ok (q.meaning formatDate) ↔ q.Faithful formatDate := by
  induction q with
  | mk n parts ctor calls ih =>
    by_cases hall : ctor = .matchAll
    · subst hall
      exact iff_of_false (matchAll_ne_meaning parts calls) fun h => h.1 rfl
    · have hnamed : ctor.named = ctor.init := by
        cases ctor with
        | matchAll => exact absurd rfl hall
        | _ => rfl
      rw [jsonSerialize_eq_ok_iff, SearchQueryPart.meaning, SearchQueryPart.Faithful, hnamed,
        object_eq_meaning_iff ih (nodup_names ctor)]
      exact (and_iff_right hall).symm

end

end PhpCouchbase
