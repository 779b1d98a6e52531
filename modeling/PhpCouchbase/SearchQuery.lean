import PhpCouchbase.SearchFacet

/-!
# Search queries

A `SearchQuery` (`search_query.c`) has the name of an index, the body of the query and options that
its setters overwrite or append to.  `jsonSerialize` prints the struct, and `json_encode` goes on
into the facets and the body.

* `foldl_call_eq_after` — the struct after a sequence of setters, by induction on the sequence.
* `searchQuery_eq_meaning_iff` — the query is printed as it is meant exactly when the condition holds.
* `search_compiles_iff` — the same for trees of queries and for whole search queries.
-/

set_option autoImplicit false

namespace PhpCouchbase

open OrderedMap LastWrite

/-! ## The struct and its setters -/

/-- `pcbc_search_query_t` -/
structure SearchQuery where
  indexName : Bytes
  limit : Int32
  skip : Int32
  explain : Bool
  serverSideTimeout : Int32
  consistency : Option Consistency
  fields : Option (List Bytes)
  sort : Option (List Bytes)
  facets : Option (List (ArrayKey × SearchFacet))
  /-- `highlight_style` and `highlight_fields`, which are always set together -/
  highlight : Option (Bytes × List Bytes)
  queryPart : SearchQueryPart

/-- A call of a setter after its arguments are parsed.  A style that is `NULL` is `none`. -/
inductive SearchQueryCall where
  | limit (value : Int64)
  | skip (value : Int64)
  | explain (value : Bool)
  | serverSideTimeout (value : Int64)
  | consistentWith (state : TokenList)
  | fields (field : Zval) (fields : List Zval)
  | sort (field : Zval) (fields : List Zval)
  | addFacet (name : Bytes) (facet : SearchFacet)
  | highlight (style : Option Bytes) (field : Zval) (fields : List Zval)

namespace SearchQuery

/-- `SearchQuery::__construct` -/
def construct (indexName : Bytes) (queryPart : SearchQueryPart) : SearchQuery where
  indexName := indexName
  limit := -1
  skip := -1
  explain := false
  serverSideTimeout := -1
  consistency := none
  fields := none
  sort := none
  facets := none
  highlight := none
  queryPart := queryPart

/-- The setters of `SearchQuery`. -/
def call (q : SearchQuery) : SearchQueryCall → SearchQuery
  | .limit n => { q with limit := n.toInt32 }
  | .skip n => { q with skip := n.toInt32 }
  | .explain b => { q with explain := b }
  | .serverSideTimeout n => { q with serverSideTimeout := n.toInt32 }
  | .consistentWith state =>
      match PhpCouchbase.consistentWith (.ofBytes q.indexName) state with
      | .returned c => { q with consistency := some c }
      | .thrown _ => q
  | .fields f fs => { q with fields := some (q.fields.getD [] ++ stringArgs (f :: fs)) }
  | .sort f fs => { q with sort := some (q.sort.getD [] ++ stringArgs (f :: fs)) }
  | .addFacet name facet =>
      { q with facets := some (update (q.facets.getD []) (symtableKey name) facet) }
  -- the parameter is parsed as a string, so that `NULL` becomes the empty string
  | .highlight style f fs => { q with highlight := some (style.getD [], stringArgs (f :: fs)) }

end SearchQuery

/-! ## The printed query -/

def Consistency.json (c : Consistency) : Json :=
  structJson [(ascii "level", .string c.level),
    (ascii "vectors", arrayJson (c.vectors.map fun p =>
      (p.1, arrayJson (p.2.map fun e => (e.1, .long e.2.toInt)))))]

/-- A list of strings. -/
def stringsJson (l : List Bytes) : Json := .list (l.map .string)

/-- The array of facets, each printed by its own `jsonSerialize`. -/
def facetsJson (formatDate : Int64 → CString) :
    Option (List (ArrayKey × SearchFacet)) → C (Option Json)
  | none => .ok none
  | some facets => do
      let elems ← facets.mapM fun p => do
        let v ← p.2.jsonSerialize formatDate
        .ok (p.1, v)
      .ok (some (arrayJson elems))

namespace SearchQuery

/-- `ctl` -/
def control (q : SearchQuery) : Option Json :=
  if 0 ≤ q.serverSideTimeout.toInt ∨ q.consistency.isSome then
    some (structJson (present [slot "timeout" (intJson q.serverSideTimeout),
      slot "consistency" (q.consistency.map Consistency.json)]))
  else none

/-- The members of `SearchQuery::jsonSerialize` around the printed facets and the printed body. -/
def slots (q : SearchQuery) (facets : Option Json) (query : Json) : Slots :=
  [slot "indexName" (some (assocString q.indexName)),
    slot "explain" (if q.explain then some (.bool q.explain) else none),
    slot "size" (intJson q.limit),
    slot "from" (intJson q.skip),
    slot "ctl" q.control,
    slot "fields" (q.fields.map stringsJson),
    slot "sort" (q.sort.map stringsJson),
    slot "facets" facets,
    slot "highlight" (q.highlight.map fun p =>
      structJson [(ascii "style", assocString p.1), (ascii "fields", stringsJson p.2)]),
    slot "query" (some query)]

/-- `SearchQuery::jsonSerialize`, and `json_encode` on what it returns. -/
def jsonSerialize (formatDate : Int64 → CString) (q : SearchQuery) : C Json := do
  let facets ← facetsJson formatDate q.facets
  let query ← q.queryPart.jsonSerialize formatDate
  .ok (structJson (present (q.slots facets query)))

end SearchQuery

/-! ## The meaning -/

namespace SearchQueryCall

/-! What a call says of each option. -/

@[simp] def limit? : SearchQueryCall → Option Int64
  | .limit n => some n
  | _ => none

@[simp] def skip? : SearchQueryCall → Option Int64
  | .skip n => some n
  | _ => none

@[simp] def explain? : SearchQueryCall → Option Bool
  | .explain b => some b
  | _ => none

@[simp] def serverSideTimeout? : SearchQueryCall → Option Int64
  | .serverSideTimeout n => some n
  | _ => none

/-- A state without a token is refused. -/
@[simp] def consistentWith? : SearchQueryCall → Option TokenList
  | .consistentWith state => if state = [] then none else some state
  | _ => none

@[simp] def fields? : SearchQueryCall → Option (List Bytes)
  | .fields f fs => some (stringArgs (f :: fs))
  | _ => none

@[simp] def sort? : SearchQueryCall → Option (List Bytes)
  | .sort f fs => some (stringArgs (f :: fs))
  | _ => none

def facet? : SearchQueryCall → Option (List (Bytes × SearchFacet))
  | .addFacet name facet => some [(name, facet)]
  | _ => none

@[simp] def highlight? : SearchQueryCall → Option (Option Bytes × List Bytes)
  | .highlight style f fs => some (style, stringArgs (f :: fs))
  | _ => none

end SearchQueryCall

/-- The facets of a query by name: of two with one name the later one counts. -/
def namedFacets (calls : List SearchQueryCall) : Option (List (Bytes × SearchFacet)) :=
  (gathered SearchQueryCall.facet? calls).map (fill [])

/-- A mutation state as the consistency of a query on an index: the last sequence number of each
vbucket and uuid. -/
def consistencyMeaning (indexName : Bytes) (state : TokenList) : Json :=
  .object [(ascii "level", .string (ascii "at_plus")),
    (ascii "vectors", .object [(indexName, .object ((fill [] (state.map fun t =>
      (searchText t.mt.vbid (decimal t.mt.uuid.toNat), t.mt.seqno.toNat))).map fun p =>
        (p.1, .long p.2)))])]

/-- An object that is there if it has a member. -/
def objectOf (s : Slots) : Option Json := if present s = [] then none else some (.object (present s))

def highlightMeaning (style : Bytes) (fields : List Bytes) : Json :=
  .object [(ascii "style", .string style), (ascii "fields", stringsJson fields)]

/-- The members of a search query.  `explain` is a switch, and a style that is `NULL` switches the
highlighting off. -/
def searchSlots (formatDate : Int64 → CString) (indexName : Bytes) (queryPart : SearchQueryPart)
    (calls : List SearchQueryCall) : Slots :=
  [slot "indexName" (some (.string indexName)),
    slot "explain" (((last SearchQueryCall.explain? calls).filter id).map .bool),
    slot "size" (intMeaning (last SearchQueryCall.limit? calls)),
    slot "from" (intMeaning (last SearchQueryCall.skip? calls)),
    slot "ctl" (objectOf
      [slot "timeout" (intMeaning (last SearchQueryCall.serverSideTimeout? calls)),
        slot "consistency"
          ((last SearchQueryCall.consistentWith? calls).map (consistencyMeaning indexName))]),
    slot "fields" ((gathered SearchQueryCall.fields? calls).map stringsJson),
    slot "sort" ((gathered SearchQueryCall.sort? calls).map stringsJson),
    slot "facets" ((namedFacets calls).map fun facets =>
      .object (facets.map fun p => (p.1, p.2.meaning formatDate))),
    slot "highlight" ((last SearchQueryCall.highlight? calls).bind fun p =>
      p.1.map fun style => highlightMeaning style p.2),
    slot "query" (some (queryPart.meaning formatDate))]

/-- The JSON meaning of a search query. -/
def searchMeaning (formatDate : Int64 → CString) (indexName : Bytes) (queryPart : SearchQueryPart)
    (calls : List SearchQueryCall) : Json :=
  .object (present (searchSlots formatDate indexName queryPart calls))

/-! ## The condition -/

/-- The names `"0"`, `"1"`, `"2"`, … in this order. -/
def CountsUp (names : List Bytes) : Prop := names.map symtableKey = listKeys names.length

/-- When a search query is printed as it is meant. -/
structure SearchFaithful (formatDate : Int64 → CString) (indexName : Bytes)
    (queryPart : SearchQueryPart) (calls : List SearchQueryCall) : Prop where
  indexName : 0 ∉ indexName
  limit : ∀ n, last SearchQueryCall.limit? calls = some n → KeepsInt n
  skip : ∀ n, last SearchQueryCall.skip? calls = some n → KeepsInt n
  serverSideTimeout : ∀ n, last SearchQueryCall.serverSideTimeout? calls = some n → KeepsInt n
  /-- the keys of a consistency end with a terminator -/
  consistency : last SearchQueryCall.consistentWith? calls = none
  facets : ∀ facets, namedFacets calls = some facets →
    ¬ CountsUp (keys facets) ∧ ∀ p ∈ facets, p.2.Faithful
  highlight : ∀ p, last SearchQueryCall.highlight? calls = some p →
    ∃ style, p.1 = some style ∧ 0 ∉ style
  query : queryPart.Faithful formatDate

/-! ## The struct after all calls -/

/-- The struct after a sequence of setters, without the fold. -/
def SearchQuery.after (indexName : Bytes) (queryPart : SearchQueryPart)
    (calls : List SearchQueryCall) : SearchQuery where
  indexName := indexName
  limit := ((last SearchQueryCall.limit? calls).map Int64.toInt32).getD (-1)
  skip := ((last SearchQueryCall.skip? calls).map Int64.toInt32).getD (-1)
  explain := (last SearchQueryCall.explain? calls).getD false
  serverSideTimeout := ((last SearchQueryCall.serverSideTimeout? calls).map Int64.toInt32).getD (-1)
  consistency := (last SearchQueryCall.consistentWith? calls).map fun state => {
    level := ascii "at_plus"
    vectors := update [] (symtableKey ((CString.ofBytes indexName).bytes ++ [0]))
      (exportForSearch state) }
  fields := gathered SearchQueryCall.fields? calls
  sort := gathered SearchQueryCall.sort? calls
  facets := (namedFacets calls).map fun facets => facets.map fun p => (symtableKey p.1, p.2)
  highlight := (last SearchQueryCall.highlight? calls).map fun p => (p.1.getD [], p.2)
  queryPart := queryPart

theorem namedFacets_append_singleton (calls : List SearchQueryCall) (c : SearchQueryCall) :
    namedFacets (calls ++ [c]) =
      match c with
      | .addFacet name facet => some (update ((namedFacets calls).getD []) name facet)
      | _ => namedFacets calls := by
  unfold namedFacets
  rw [gathered_append_singleton]
  cases c with
  | addFacet name facet =>
    cases gathered SearchQueryCall.facet? calls with
    | none => rfl
    | some l =>
      show some (fill [] (l ++ [(name, facet)])) = _
      rw [fill, List.foldl_append]
      rfl
  | _ => rfl

/-- **A run of setters.** -/
theorem foldl_call_eq_after (indexName : Bytes) (queryPart : SearchQueryPart)
    (calls : List SearchQueryCall) :
    calls.foldl SearchQuery.call (SearchQuery.construct indexName queryPart) =
      SearchQuery.after indexName queryPart calls := by
  induction calls using List.reverseRecOn with
  | nil => rfl
  | append_singleton calls c ih =>
    rw [List.foldl_append, ih, List.foldl_cons, List.foldl_nil]
    have hrest := namedFacets_append_singleton calls c
    cases c with
    | addFacet name facet =>
      have htable : update ((SearchQuery.after indexName queryPart calls).facets.getD [])
          (symtableKey name) facet =
          (update ((namedFacets calls).getD []) name facet).map fun p => (symtableKey p.1, p.2) := by
        rw [← update_map_key fun _ _ => symtableKey_injective]
        cases h : namedFacets calls <;> simp [SearchQuery.after, h]
      rw [SearchQuery.call, htable]
      simp [SearchQuery.after, hrest, last_append_singleton, gathered_append_singleton]
    | consistentWith state =>
      rw [SearchQuery.call, consistentWith]
      by_cases h : state = []
      · subst h
        simp [SearchQuery.after, hrest, last_append_singleton, gathered_append_singleton]
      · simp [SearchQuery.after, hrest, last_append_singleton, gathered_append_singleton, h]
    | _ =>
      simp [SearchQuery.call, SearchQuery.after, hrest, last_append_singleton,
        gathered_append_singleton]

/-! ## Member by member -/

theorem objectOf_inj {a b : Slots} (hnames : a.names = b.names) (hnodup : a.names.Nodup) :
    objectOf a = objectOf b ↔ a = b := by
  rw [← present_inj hnames hnodup]
  unfold objectOf
  cases present a with
  | nil => cases present b <;> simp
  | cons p ps => cases present b <;> simp

theorem control_eq (q : SearchQuery) :
    q.control = objectOf [slot "timeout" (intJson q.serverSideTimeout),
      slot "consistency" (q.consistency.map Consistency.json)] := by
  unfold SearchQuery.control objectOf intJson
  by_cases h : 0 ≤ q.serverSideTimeout.toInt
  · simp [h, slot, structJson_cons]
  · cases q.consistency <;> simp [h, slot, structJson_cons]

/-- The keys of the printed consistency end with a terminator, those of the meant one do not. -/
theorem consistency_ne_meaning (indexName key : Bytes) {level : Bytes} {state : TokenList}
    (hne : state ≠ []) :
    Consistency.json { level, vectors := update [] (symtableKey key) (exportForSearch state) } ≠
      consistencyMeaning indexName state := by
  intro h
  rw [Consistency.json, structJson_cons, consistencyMeaning, Json.object.injEq] at h
  have hvectors := (Prod.mk.inj (List.cons.inj (List.cons.inj h).2).1).2
  obtain ⟨-, hvectors⟩ := arrayJson_eq_object_iff.mp hvectors
  have hinner := (Prod.mk.inj (List.cons.inj hvectors).1).2
  obtain ⟨-, htokens⟩ := arrayJson_eq_object_iff.mp hinner
  obtain ⟨t, l, rfl⟩ := List.exists_cons_of_ne_nil hne
  obtain ⟨seqno, hseqno⟩ := fetch_searchKey (List.mem_cons_self (a := t) (l := l))
  have hmem := List.mem_map_of_mem (f := fun e : ArrayKey × Json => (e.1.text, e.2))
    (List.mem_map_of_mem (f := fun e : ArrayKey × Int64 => (e.1, Json.long e.2.toInt))
      (mem_of_fetch hseqno))
  rw [htokens] at hmem
  obtain ⟨p, hp, heq⟩ := List.mem_map.mp hmem
  have hkey : p.1 ∈ keys (fill [] ((t :: l).map fun t =>
      (searchText t.mt.vbid (decimal t.mt.uuid.toNat), t.mt.seqno.toNat))) :=
    List.mem_map_of_mem hp
  rw [mem_keys_fill] at hkey
  obtain hkey | hkey := hkey
  · cases hkey
  · obtain ⟨q, hq, hqp⟩ := List.mem_map.mp hkey
    obtain ⟨u, -, rfl⟩ := List.mem_map.mp hq
    have htext : p.1 = (searchKey t).text := (Prod.mk.inj heq).1
    rw [← hqp, searchKey_eq] at htext
    have hnul := nul_not_mem_searchText u.mt.vbid u.mt.uuid.toNat
    rw [show searchText u.mt.vbid (decimal u.mt.uuid.toNat) = _ from htext] at hnul
    simp [ArrayKey.text] at hnul

theorem control_iff (indexName : Bytes) (queryPart : SearchQueryPart)
    (calls : List SearchQueryCall) :
    (SearchQuery.after indexName queryPart calls).control = objectOf
        [slot "timeout" (intMeaning (last SearchQueryCall.serverSideTimeout? calls)),
          slot "consistency"
            ((last SearchQueryCall.consistentWith? calls).map (consistencyMeaning indexName))] ↔
      (∀ n, last SearchQueryCall.serverSideTimeout? calls = some n → KeepsInt n) ∧
        last SearchQueryCall.consistentWith? calls = none := by
  have hconsistency : (last SearchQueryCall.consistentWith? calls = none) ↔
      (SearchQuery.after indexName queryPart calls).consistency.map Consistency.json =
        (last SearchQueryCall.consistentWith? calls).map (consistencyMeaning indexName) := by
    rw [SearchQuery.after]
    cases hlast : last SearchQueryCall.consistentWith? calls with
    | none => simp
    | some state =>
      obtain ⟨c, -, hc⟩ := exists_of_last_eq_some hlast
      have hne : state ≠ [] := by
        cases c with
        | consistentWith state' =>
          by_cases h : state' = []
          · simp [h] at hc
          · rw [SearchQueryCall.consistentWith?, if_neg h] at hc
            rw [← Option.some.inj hc]
            exact h
        | _ => cases hc
      refine iff_of_false (by simp) ?_
      intro h
      exact consistency_ne_meaning indexName _ hne (Option.some.inj h)
  rw [control_eq, ← intJson_eq_intMeaning_iff, hconsistency]
  refine (objectOf_inj ?_ ?_).trans ?_
  · rfl
  · exact of_decide_eq_true rfl
  · simp [slot, SearchQuery.after]

theorem facetsJson_iff (formatDate : Int64 → CString) (facets : List (Bytes × SearchFacet)) :
    facetsJson formatDate (some (facets.map fun p => (symtableKey p.1, p.2))) =
        .ok (some (.object (facets.map fun p => (p.1, p.2.meaning formatDate)))) ↔
      ¬ CountsUp (keys facets) ∧ ∀ p ∈ facets, p.2.Faithful := by
  have hfaithful : (∀ p ∈ facets, p.2.Faithful) ↔
      (facets.mapM fun p => p.2.jsonSerialize formatDate) =
        .ok (facets.map fun p => p.2.meaning formatDate) := by
    rw [C.mapM_eq_ok_map_iff]
    exact forall₂_congr fun p _ => (facet_eq_meaning_iff p.2).symm
  have hkeys : keys facets = facets.map Prod.fst := rfl
  rw [hfaithful, facetsJson, List.mapM_map, C.bind_eq_ok]
  constructor
  · rintro ⟨elems, helems, heq⟩
    obtain ⟨hfst, hsnd⟩ := C.mapM_keyed_iff.mp helems
    have harray := Option.some.inj (Except.ok.inj heq)
    obtain ⟨hlist, hmembers⟩ := arrayJson_eq_object_iff.mp harray
    have hvals : elems.map Prod.snd = facets.map fun p => p.2.meaning formatDate := by
      have hmap := congrArg (List.map Prod.snd) hmembers
      rw [List.map_map, List.map_map] at hmap
      exact hmap
    rw [← hvals]
    refine ⟨?_, hsnd⟩
    rw [CountsUp, hkeys, List.map_map, List.length_map]
    have hlen : elems.length = facets.length := by
      simpa only [List.length_map] using congrArg List.length hfst
    rw [← hlen]
    intro h
    exact hlist (hfst.trans h)
  · rintro ⟨hlist, hvals⟩
    refine ⟨facets.map fun p => (symtableKey p.1, p.2.meaning formatDate), ?_, ?_⟩
    · refine C.mapM_keyed_iff.mpr ⟨?_, ?_⟩
      · rw [List.map_map]
        rfl
      · rw [List.map_map]
        exact hvals
    · refine congrArg (fun j => (.ok (some j) : C (Option Json))) (arrayJson_eq_object_iff.mpr ⟨?_, ?_⟩)
      · rw [CountsUp, hkeys, List.map_map, List.length_map] at hlist
        rw [List.map_map, List.length_map]
        exact hlist
      · rw [List.map_map]
        apply List.map_congr_left
        intro p _
        exact congrArg (fun t => (t, p.2.meaning formatDate)) (text_symtableKey p.1)

theorem highlight_iff (h : Option (Option Bytes × List Bytes)) :
    ((h.map fun p => (p.1.getD [], p.2)).map fun p =>
        structJson [(ascii "style", assocString p.1), (ascii "fields", stringsJson p.2)]) =
      (h.bind fun p => p.1.map fun style => highlightMeaning style p.2) ↔
      ∀ p, h = some p → ∃ style, p.1 = some style ∧ 0 ∉ style := by
  cases h with
  | none => simp
  | some p =>
    obtain ⟨style, fields⟩ := p
    cases style with
    | none => simp
    | some style =>
      simp [structJson_cons, highlightMeaning, assocString_eq_iff]

theorem explain_eq (b : Option Bool) :
    (if b.getD false then some (Json.bool (b.getD false)) else none) = (b.filter id).map .bool := by
  cases b with
  | none => rfl
  | some b => cases b <;> rfl

/-! ## The whole query -/

theorem namedFacets_iff (formatDate : Int64 → CString) (indexName : Bytes)
    (queryPart : SearchQueryPart) (calls : List SearchQueryCall) :
    facetsJson formatDate (SearchQuery.after indexName queryPart calls).facets =
        .ok ((namedFacets calls).map fun facets =>
          .object (facets.map fun p => (p.1, p.2.meaning formatDate))) ↔
      ∀ facets, namedFacets calls = some facets →
        ¬ CountsUp (keys facets) ∧ ∀ p ∈ facets, p.2.Faithful := by
  rw [SearchQuery.after]
  cases namedFacets calls with
  | none => exact iff_of_true rfl fun _ h => absurd h (by simp)
  | some facets =>
    simp only [Option.map_some, Option.some.injEq, forall_eq']
    exact facetsJson_iff formatDate facets

/-- The struct is printed as it is meant exactly when each member is. -/
theorem after_eq_meaning_iff (formatDate : Int64 → CString) (indexName : Bytes)
    (queryPart : SearchQueryPart) (calls : List SearchQueryCall) :
    (SearchQuery.after indexName queryPart calls).jsonSerialize formatDate =
        .ok (searchMeaning formatDate indexName queryPart calls) ↔
      ∃ facets, facetsJson formatDate (SearchQuery.after indexName queryPart calls).facets =
          .ok facets ∧
        ∃ query, queryPart.jsonSerialize formatDate = .ok query ∧
          (SearchQuery.after indexName queryPart calls).slots facets query =
            searchSlots formatDate indexName queryPart calls := by
  have hslots : ∀ facets query,
      structJson (present ((SearchQuery.after indexName queryPart calls).slots facets query)) =
          searchMeaning formatDate indexName queryPart calls ↔
        (SearchQuery.after indexName queryPart calls).slots facets query =
          searchSlots formatDate indexName queryPart calls := by
    intro facets query
    rw [searchMeaning, structJson_eq_object_iff]
    have hne : present (searchSlots formatDate indexName queryPart calls) ≠ [] := by
      rw [searchSlots, slot, present_cons_some]
      exact List.cons_ne_nil _ _
    rw [and_iff_left hne]
    apply present_inj
    · rfl
    · exact of_decide_eq_true rfl
  rw [SearchQuery.jsonSerialize, C.bind_eq_ok]
  refine exists_congr fun facets => and_congr_right fun _ => ?_
  rw [C.bind_eq_ok]
  refine exists_congr fun query => and_congr_right fun _ => ?_
  rw [Except.ok.injEq, hslots]

/-- **A search query.**  After any sequence of setters it is printed as it is meant exactly when the
condition holds. -/
theorem searchQuery_eq_meaning_iff (formatDate : Int64 → CString) (indexName : Bytes)
    (queryPart : SearchQueryPart) (calls : List SearchQueryCall) :
    (calls.foldl SearchQuery.call (SearchQuery.construct indexName queryPart)).jsonSerialize
        formatDate = .ok (searchMeaning formatDate indexName queryPart calls) ↔
      SearchFaithful formatDate indexName queryPart calls := by
  rw [foldl_call_eq_after, after_eq_meaning_iff]
  constructor
  · rintro ⟨facets, hfacets, query, hquery, hslots⟩
    simp only [SearchQuery.slots, searchSlots, List.cons.injEq, slot_inj, and_true] at hslots
    obtain ⟨hindex, -, hlimit, hskip, hctl, -, -, rfl, hhighlight, hpart⟩ := hslots
    obtain rfl := Option.some.inj hpart
    have hcontrol := (control_iff indexName queryPart calls).mp hctl
    exact {
      indexName := (assocString_eq_iff indexName).mp (Option.some.inj hindex)
      limit := (intJson_eq_intMeaning_iff _).mp hlimit
      skip := (intJson_eq_intMeaning_iff _).mp hskip
      serverSideTimeout := hcontrol.1
      consistency := hcontrol.2
      facets := (namedFacets_iff formatDate indexName queryPart calls).mp hfacets
      highlight := (highlight_iff _).mp hhighlight
      query := (part_eq_meaning_iff formatDate queryPart).mp hquery }
  · intro h
    refine ⟨_, (namedFacets_iff formatDate indexName queryPart calls).mpr h.facets, _,
      (part_eq_meaning_iff formatDate queryPart).mpr h.query, ?_⟩
    simp only [SearchQuery.slots, searchSlots, List.cons.injEq, slot_inj, and_true, true_and]
    refine ⟨?_, ?_, ?_, ?_, ?_, rfl, rfl, ?_⟩
    · exact congrArg some ((assocString_eq_iff indexName).mpr h.indexName)
    · exact explain_eq _
    · exact (intJson_eq_intMeaning_iff _).mpr h.limit
    · exact (intJson_eq_intMeaning_iff _).mpr h.skip
    · exact (control_iff indexName queryPart calls).mpr ⟨h.serverSideTimeout, h.consistency⟩
    · exact (highlight_iff _).mpr h.highlight

/-- **Compilation of searches.**  A tree of queries, and a search query after any sequence of
setters, compiles to its JSON meaning exactly when the condition holds. -/
theorem search_compiles_iff (formatDate : Int64 → CString) :
    (∀ q : SearchQueryPart,
      q.jsonSerialize formatDate = .ok (q.meaning formatDate) ↔ q.Faithful formatDate) ∧
    ∀ (indexName : Bytes) (queryPart : SearchQueryPart) (calls : List SearchQueryCall),
      (calls.foldl SearchQuery.call (SearchQuery.construct indexName queryPart)).jsonSerialize
          formatDate = .ok (searchMeaning formatDate indexName queryPart calls) ↔
        SearchFaithful formatDate indexName queryPart calls :=
  ⟨part_eq_meaning_iff formatDate, searchQuery_eq_meaning_iff formatDate⟩

/-- A query without sub-queries. -/
def leafQuery (ctor : QueryConstructor (Fin 0)) (calls : List (QueryCall (Fin 0))) : SearchQueryPart :=
  .mk 0 Fin.elim0 ctor calls

example :
    (SearchQuery.call (SearchQuery.construct (ascii "search") (leafQuery (.matchText (ascii "foo")) []))
      (.sort (.string (ascii "hello")) [.null, .string (ascii "-_score")])).jsonSerialize
        (fun _ => .ofBytes []) =
      .ok (.object [(ascii "indexName", .string (ascii "search")),
        (ascii "sort", .list [.string (ascii "hello"), .string (ascii "-_score")]),
        (ascii "query", .object [(ascii "match", .string (ascii "foo"))])]) := rfl

/-- **The wrong searches.**  `matchAll` compiles to `match_none`, the text of a match ends at its
first NUL, and a facet that is named `0` makes the facets a list. -/
theorem searches_miscompiled :
    ((leafQuery .matchAll []).jsonSerialize (fun _ => .ofBytes []) =
        .ok (.object [(ascii "match_none", .null)]) ∧
      (leafQuery .matchAll []).meaning (fun _ => .ofBytes []) =
        .object [(ascii "match_all", .null)]) ∧
    ((leafQuery (.matchText [97, 0, 98]) []).jsonSerialize (fun _ => .ofBytes []) =
        .ok (.object [(ascii "match", .string [97])]) ∧
      (leafQuery (.matchText [97, 0, 98]) []).meaning (fun _ => .ofBytes []) =
        .object [(ascii "match", .string [97, 0, 98])]) ∧
    (facetsJson (fun _ => .ofBytes [])
        (SearchQuery.call (SearchQuery.construct (ascii "beers") (leafQuery .matchNone []))
          (.addFacet (ascii "0") (.term (ascii "name") 3))).facets =
        .ok (some (.list [.object
          [(ascii "field", .string (ascii "name")), (ascii "size", .long 3)]]))) ∧
    (leafQuery .matchAll []).jsonSerialize (fun _ => .ofBytes []) ≠
      .ok ((leafQuery .matchAll []).meaning fun _ => .ofBytes []) :=
  ⟨⟨rfl, rfl⟩, ⟨rfl, rfl⟩, rfl, matchAll_ne_meaning Fin.elim0 []⟩

end PhpCouchbase
