import PhpCouchbase.MutationStateCovers

/-!
# Mutation states in search queries

A second export of a mutation state (`mutation_state.c`, `search_query.c`) is flat: one key
`vbucket/uuid` for each token. `SearchQuery::consistentWith` embeds it under the name of the index.
Both keys are added with a length that counts the terminator, which PHP 7 takes for a part of the
key.

* `fetch_exportForSearch` — the flat vector holds the last token of each key.
* `search_export_agrees_iff` — the two exports agree exactly when there is nothing to export.
* `search_export_up_to_nul` — up to the terminator they agree exactly when the tokens of each vbucket
  have one uuid.
-/

set_option autoImplicit false

namespace PhpCouchbase

open OrderedMap

/-! ## The export -/

/-- `"%d/%llu"` -/
def searchText (vbid : UInt16) (uuid : Bytes) : Bytes := decimal vbid.toNat ++ ascii "/" ++ uuid

/-- The array key of a token: the length that is passed is `token_key_len + 1`. -/
def searchKey (t : MutationToken) : ArrayKey :=
  symtableKey (searchText t.mt.vbid (decimal t.mt.uuid.toNat) ++ [0])

abbrev SearchVector := List (ArrayKey × Int64)

/-- `pcbc_mutation_state_export_for_search` -/
def exportForSearch (state : TokenList) : SearchVector :=
  state.foldl (fun sv t => update sv (searchKey t) t.mt.seqno.toInt64) []

/-- The `consistency` of a search query. -/
structure Consistency where
  level : Bytes
  vectors : List (ArrayKey × SearchVector)

/-- `SearchQuery::consistentWith`; the name of the index is added with `strlen + 1`. -/
def consistentWith (indexName : CString) (state : TokenList) : Outcome Consistency :=
  if state = [] then
    .thrown (.pcbc "Mutation state have to contain at least one token" .einval)
  else
    .returned {
      level := ascii "at_plus"
      vectors := update [] (symtableKey (indexName.bytes ++ [0])) (exportForSearch state) }

/-! ## What it holds -/

theorem searchKey_eq (t : MutationToken) :
    searchKey t = .str (searchText t.mt.vbid (decimal t.mt.uuid.toNat) ++ [0]) :=
  symtableKey_append_nul _

theorem nul_not_mem_searchText (vbid : UInt16) (n : Nat) : 0 ∉ searchText vbid (decimal n) := by
  have h1 := nul_not_mem_decimal vbid.toNat
  have h2 := nul_not_mem_decimal n
  simp [searchText, ascii, h1, h2]

theorem searchText_injective {v w : UInt16} {x y : Bytes} (h : searchText v x = searchText w y) :
    v = w ∧ x = y := by
  have hslash : ∀ n : Nat, (47 : UInt8) ∉ decimal n :=
    fun n hn => absurd (isDigit_of_mem_decimal hn) (by decide)
  have hsplit : ∀ (u : UInt16) (z : Bytes),
      (searchText u z).takeWhile (· ≠ 47) = decimal u.toNat := by
    intro u z
    have hall : ∀ c ∈ decimal u.toNat, decide (c ≠ 47) = true :=
      fun c hc => decide_eq_true fun heq => hslash _ (heq ▸ hc)
    rw [searchText, List.append_assoc, List.takeWhile_append_of_pos hall]
    simp [ascii]
  have hvb : decimal v.toNat = decimal w.toNat := by rw [← hsplit v x, h, hsplit w y]
  obtain rfl : v = w := vbucketKey_injective (congrArg ArrayKey.str hvb)
  exact ⟨rfl, List.append_cancel_left h⟩

/-- **The flat vector holds the last token** of each key. -/
theorem fetch_exportForSearch (l : TokenList) (key : ArrayKey) :
    fetch (exportForSearch l) key =
      (l.reverse.find? fun t => searchKey t = key).map fun t => t.mt.seqno.toInt64 := by
  induction l using List.reverseRecOn with
  | nil => rfl
  | append_singleton l t ih =>
    rw [exportForSearch, List.foldl_append, List.foldl_cons, List.foldl_nil, fetch_update,
      ← exportForSearch, ih, List.reverse_append, List.reverse_singleton, List.singleton_append,
      List.find?_cons]
    by_cases h : searchKey t = key <;> simp [h]

/-- Every token has an entry. -/
theorem fetch_searchKey {l : TokenList} {t : MutationToken} (ht : t ∈ l) :
    ∃ seqno, fetch (exportForSearch l) (searchKey t) = some seqno := by
  rw [fetch_exportForSearch]
  have hsome : (l.reverse.find? fun u => searchKey u = searchKey t).isSome :=
    List.find?_isSome.mpr ⟨t, List.mem_reverse.mpr ht, decide_eq_true rfl⟩
  obtain ⟨u, hu⟩ := Option.isSome_iff_exists.mp hsome
  exact ⟨_, by rw [hu]; rfl⟩

/-! ## The agreement of the two exports -/

/-- What the key of an array spells in JSON. -/
def ArrayKey.text : ArrayKey → Bytes
  | .index i => printLong i
  | .str s => s

/-- **The two exports agree**: the flat vector has the key `vbucket/uuid` with the seqno of each
entry of the scan vectors and no other key, no seqno is negative, and it is embedded under the name
of the index. -/
structure ExportsAgree (indexName bucket : CString) (state : TokenList) : Prop where
  tokens : ∀ key seqno, fetch (exportForSearch state) key = some seqno ↔
    ∃ vbid uuid, key = .str (searchText vbid uuid) ∧
      exportEntry (exportForN1ql state) (bucket, vbid) = some (seqno, uuid)
  seqnos : ∀ key seqno, fetch (exportForSearch state) key = some seqno → 0 ≤ seqno.toInt
  embedded : ∀ c, consistentWith indexName state = .returned c →
    c.vectors.map (fun p => (p.1.text, p.2)) = [(indexName.bytes, exportForSearch state)]

theorem addToken_ne_nil (l : TokenList) (t : MutationToken) : addToken l t ≠ [] := by
  have hadded := addToken_cases l t
  generalize addToken l t = l' at hadded ⊢
  cases hadded with
  | seen h =>
    obtain ⟨u, hu, -⟩ := h
    exact List.ne_nil_of_mem hu
  | fresh _ _ => simp
  | lower _ _ _ _ => simp

theorem addTokens_eq_nil {tokens : List MutationToken} : addTokens [] tokens = [] ↔ tokens = [] := by
  constructor
  · intro h
    induction tokens using List.reverseRecOn with
    | nil => rfl
    | append_singleton tokens t _ =>
      rw [addTokens_append] at h
      exact absurd h (addToken_ne_nil _ _)
  · rintro rfl
    rfl

/-- A key of the flat vector ends with a terminator, the text of an entry does not. -/
theorem not_exportsAgree {indexName bucket : CString} {state : TokenList} (hne : state ≠ []) :
    ¬ ExportsAgree indexName bucket state := by
  intro h
  obtain ⟨t, l, rfl⟩ := List.exists_cons_of_ne_nil hne
  obtain ⟨seqno, hseqno⟩ := fetch_searchKey (List.mem_cons_self (a := t) (l := l))
  obtain ⟨vbid, uuid, hkey, hentry⟩ := (h.tokens _ _).mp hseqno
  rw [exportEntry_eq, Option.map_eq_some_iff] at hentry
  obtain ⟨u, -, hpair⟩ := hentry
  obtain rfl : decimal u.mt.uuid.toNat = uuid := congrArg Prod.snd hpair
  rw [searchKey_eq] at hkey
  have htext := ArrayKey.str.inj hkey
  have hnul := nul_not_mem_searchText vbid u.mt.uuid.toNat
  rw [← htext] at hnul
  simp at hnul

theorem exportsAgree_nil (indexName bucket : CString) : ExportsAgree indexName bucket [] := by
  constructor
  · intro key seqno
    constructor
    · intro h
      cases h
    · rintro ⟨vbid, uuid, -, h⟩
      cases h
  · intro key seqno h
    cases h
  · intro c h
    cases h

/-- **The exports.**  For every state reached by `from` and `add` the two exports agree exactly when
no source carried a token, whatever the bucket of the tokens. -/
theorem search_export_agrees_iff {first : TokenSource} {rest : List TokenSource}
    {state : TokenList} (indexName bucket : CString)
    (hrun : mutationState first rest = .ok (some state)) :
    ExportsAgree indexName bucket state ↔ ∀ src ∈ first :: rest, src.tokens = [] := by
  have hstate := mutationState_tokens hrun
  rw [← List.flatMap_eq_nil_iff, ← addTokens_eq_nil, ← hstate]
  constructor
  · intro h
    by_contra hne
    exact not_exportsAgree hne h
  · rintro rfl
    exact exportsAgree_nil indexName bucket

/-- A document that was read has no token: both exports are empty. -/
theorem tokenless_exports_agree :
    ExportsAgree (.ofBytes (ascii "beers")) (.ofBytes (ascii "default")) [] := by
  have hrun : mutationState (.object (.document none)) [] = .ok (some []) := rfl
  refine (search_export_agrees_iff _ _ hrun).mpr ?_
  intro src hsrc
  rw [List.mem_singleton.mp hsrc]
  rfl

/-- **A terminator in the key.**  One token is exported under `1/77` and a NUL byte. -/
theorem one_token_exports_differ :
    mutationState (.object (.mutationToken (tokenOf 1 5 77))) [] = .ok (some [tokenOf 1 5 77]) ∧
      exportForSearch [tokenOf 1 5 77] = [(.str (ascii "1/77" ++ [0]), 5)] ∧
      ¬ ExportsAgree (.ofBytes (ascii "beers")) (.ofBytes (ascii "default")) [tokenOf 1 5 77] :=
  ⟨rfl, rfl, not_exportsAgree (List.cons_ne_nil _ _)⟩

/-! ## The agreement up to the terminator -/

/-- The tokens of each vbucket have the uuid of the last one. -/
def SameUuid (state : TokenList) : Prop :=
  ∀ t ∈ state, ∃ u, latest state t.key = some u ∧ u.mt.uuid = t.mt.uuid

theorem exists_latest {l : TokenList} {t : MutationToken} (ht : t ∈ l) :
    ∃ u, latest l t.key = some u := by
  apply Option.isSome_iff_exists.mp
  rw [latest, List.find?_isSome]
  exact ⟨t, List.mem_reverse.mpr ht, decide_eq_true rfl⟩

theorem decimal_uuid_injective {x y : UInt64} (h : decimal x.toNat = decimal y.toNat) : x = y := by
  have hx := x.toNat_lt
  have hy := y.toNat_lt
  exact UInt64.toNat_inj.mp (decimal_injective (by omega) (by omega) h)

/-- The first element with a weaker property also is the first one with a stronger property, if it
has it. -/
theorem find?_of_imp {α : Type} {p q : α → Bool} {l : List α} {a : α}
    (himp : ∀ x ∈ l, p x = true → q x = true) (hq : l.find? q = some a) (hp : p a = true) :
    l.find? p = some a := by
  obtain ⟨_, as, bs, rfl, has⟩ := List.find?_eq_some_iff_append.mp hq
  rw [List.find?_eq_some_iff_append]
  refine ⟨hp, as, bs, rfl, ?_⟩
  intro x hx
  have hqx := has x hx
  have himpx := himp x (List.mem_append_left _ hx)
  cases hpx : p x with
  | false => rfl
  | true => simp [himpx hpx] at hqx

/-- **Up to the terminator** the exports of the tokens of one bucket agree exactly when the tokens
of each vbucket have one uuid: the flat vector keeps an entry for every other uuid. -/
theorem search_export_up_to_nul {bucket : CString} {state : TokenList}
    (hbucket : ∀ t ∈ state, t.bucket = bucket) :
    (∀ vbid uuid seqno,
      fetch (exportForSearch state) (.str (searchText vbid uuid ++ [0])) = some seqno ↔
        exportEntry (exportForN1ql state) (bucket, vbid) = some (seqno, uuid)) ↔
      SameUuid state := by
  constructor
  · intro h t ht
    obtain ⟨u, hu⟩ := exists_latest ht
    obtain ⟨seqno, hseqno⟩ := fetch_searchKey ht
    rw [searchKey_eq, h, ← hbucket t ht] at hseqno
    change exportEntry _ t.key = _ at hseqno
    rw [exportEntry_eq, hu] at hseqno
    have huuid := congrArg Prod.snd (Option.some.inj hseqno)
    exact ⟨u, hu, decimal_uuid_injective huuid⟩
  · intro h vbid uuid seqno
    have hkey : ∀ t ∈ state, searchKey t = .str (searchText vbid uuid ++ [0]) →
        t.key = (bucket, vbid) ∧ decimal t.mt.uuid.toNat = uuid := by
      intro t ht heq
      rw [searchKey_eq] at heq
      obtain ⟨hvb, huuid⟩ := searchText_injective (List.append_cancel_right (ArrayKey.str.inj heq))
      exact ⟨Prod.ext (hbucket t ht) hvb, huuid⟩
    have hweaker : ∀ t ∈ state.reverse,
        decide (searchKey t = .str (searchText vbid uuid ++ [0])) = true →
        decide (t.key = (bucket, vbid)) = true := by
      intro t ht heq
      exact decide_eq_true (hkey t (List.mem_reverse.mp ht) (of_decide_eq_true heq)).1
    rw [fetch_exportForSearch, exportEntry_eq, Option.map_eq_some_iff, Option.map_eq_some_iff]
    constructor
    · rintro ⟨t, hfind, hseqno⟩
      have ht := List.mem_reverse.mp (List.mem_of_find?_eq_some hfind)
      have htext : searchKey t = .str (searchText vbid uuid ++ [0]) := by
        simpa using List.find?_some hfind
      obtain ⟨htk, hu⟩ := hkey t ht htext
      obtain ⟨u, hlatest, huuid⟩ := h t ht
      rw [htk] at hlatest
      -- the last token of the vbucket has the same text
      have hut : searchKey u = searchKey t := by
        have huk := (latest_mem hlatest).2
        have hvb : u.mt.vbid = t.mt.vbid := (congrArg Prod.snd huk).trans (congrArg Prod.snd htk).symm
        rw [searchKey_eq, searchKey_eq, hvb, huuid]
      have hsame := find?_of_imp hweaker hlatest (decide_eq_true (hut.trans htext))
      obtain rfl : t = u := Option.some.inj (hfind.symm.trans hsame)
      exact ⟨t, hlatest, by rw [← hseqno, ← hu]; rfl⟩
    · rintro ⟨u, hlatest, hpair⟩
      obtain ⟨humem, huk⟩ := latest_mem hlatest
      obtain ⟨rfl, rfl⟩ := Prod.mk.inj hpair
      have hvb : u.mt.vbid = vbid := congrArg Prod.snd huk
      refine ⟨u, ?_, rfl⟩
      apply find?_of_imp hweaker hlatest
      rw [searchKey_eq, hvb]
      exact decide_eq_true rfl

end PhpCouchbase
