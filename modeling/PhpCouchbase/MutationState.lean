import Mathlib.Data.List.Basic
import PhpCouchbase.Document
import PhpCouchbase.Batch
import PhpCouchbase.Lib.FallibleFold

/-!
# Mutation states

A `MutationState` (`mutation_state.c`) collects the mutation tokens of documents and fragments in a
linked list, and a query that must see these mutations carries them as scan vectors.  The list is
meant to hold the newest token of each vbucket of each bucket.

* `addToken` — `pcbc_add_token`, with the comparison of a vbucket with itself as the source has it.
* `addToken_cases` — everything that adding a token can do to the list.
* `mutationState_tokens` — a run of `from` and `add` calls adds the tokens of its sources in order.
* `exportEntry_eq` — the scan vectors hold the last token of each vbucket in the list.
-/

set_option autoImplicit false

namespace PhpCouchbase

open OrderedMap Numeral FallibleFold

/-! ## Adding a token -/

/-- The tokens of the linked list, from its head. -/
abbrev TokenList := List MutationToken

/-- The scan of `pcbc_add_token` from position `i`: `none` when it returns, else the position of the
token to overwrite, if there is one. -/
def scan (token : MutationToken) : TokenList → Nat → Option Nat → Option (Option Nat)
  | [], _, newToken => some newToken
  | t :: ts, i, newToken =>
    -- the source compares the vbucket of `t` with itself
    if t.mt.vbid = t.mt.vbid ∧ t.bucket = token.bucket then
      let newToken := if t.mt.seqno < token.mt.seqno then some i else newToken
      if t.mt.seqno = token.mt.seqno ∧ t.mt.uuid = token.mt.uuid then none
      else scan token ts (i + 1) newToken
    else scan token ts (i + 1) newToken

/-- `pcbc_add_token`; a token that is overwritten keeps its bucket. -/
def addToken (state : TokenList) (token : MutationToken) : TokenList :=
  match scan token state 0 none with
  | none => state
  | some none => state ++ [token]
  | some (some i) => state.modify i fun t => { t with mt := token.mt }

/-- A token of the bucket of `token` with its seqno and its uuid. -/
def SameMutation (token t : MutationToken) : Prop :=
  t.bucket = token.bucket ∧ t.mt.seqno = token.mt.seqno ∧ t.mt.uuid = token.mt.uuid

/-- A token of the bucket of `token` with a lower seqno. -/
def Lower (token t : MutationToken) : Prop :=
  t.bucket = token.bucket ∧ t.mt.seqno < token.mt.seqno

/-- What the scan finds. -/
inductive ScanResult (token : MutationToken) (l : TokenList) (i : Nat) (newToken : Option Nat) :
    Option (Option Nat) → Prop where
  | seen (h : ∃ t ∈ l, SameMutation token t) : ScanResult token l i newToken none
  | fresh (h : ∀ t ∈ l, ¬ SameMutation token t) (hlow : ∀ t ∈ l, ¬ Lower token t) :
      ScanResult token l i newToken (some newToken)
  | lower (h : ∀ t ∈ l, ¬ SameMutation token t) {pre post : TokenList} {t : MutationToken}
      (hl : l = pre ++ t :: post) (ht : Lower token t) (hpost : ∀ u ∈ post, ¬ Lower token u) :
      ScanResult token l i newToken (some (some (i + pre.length)))

/-- What the scan finds from a head that is not the same mutation on. -/
theorem ScanResult.cons {token t : MutationToken} {ts : TokenList} {i : Nat}
    {newToken new' : Option Nat} {r : Option (Option Nat)}
    (h : ScanResult token ts (i + 1) new' r) (hsame : ¬ SameMutation token t)
    (hold : ¬ Lower token t → new' = newToken) (hnew : Lower token t → new' = some i) :
    ScanResult token (t :: ts) i newToken r := by
  cases h with
  | seen h =>
    obtain ⟨u, hu, hsu⟩ := h
    exact .seen ⟨u, List.mem_cons_of_mem t hu, hsu⟩
  | fresh h hlow =>
    by_cases ht : Lower token t
    · rw [hnew ht]
      show ScanResult token (t :: ts) i newToken (some (some (i + ([] : TokenList).length)))
      exact .lower (List.forall_mem_cons.mpr ⟨hsame, h⟩) rfl ht hlow
    · rw [hold ht]
      exact .fresh (List.forall_mem_cons.mpr ⟨hsame, h⟩) (List.forall_mem_cons.mpr ⟨ht, hlow⟩)
  | @lower h pre post u hl hu hpost =>
    have hpos : i + 1 + pre.length = i + (t :: pre).length := by
      rw [List.length_cons]
      omega
    rw [hpos]
    refine .lower (List.forall_mem_cons.mpr ⟨hsame, h⟩) ?_ hu hpost
    rw [hl, List.cons_append]

theorem scan_result (token : MutationToken) (l : TokenList) (i : Nat) (newToken : Option Nat) :
    ScanResult token l i newToken (scan token l i newToken) := by
  induction l generalizing i newToken with
  | nil => exact .fresh (by simp) (by simp)
  | cons t ts ih =>
    unfold scan
    by_cases hb : t.bucket = token.bucket
    · rw [if_pos ⟨rfl, hb⟩]
      by_cases hs : t.mt.seqno = token.mt.seqno ∧ t.mt.uuid = token.mt.uuid
      · rw [if_pos hs]
        exact .seen ⟨t, List.mem_cons_self, hb, hs⟩
      · rw [if_neg hs]
        apply (ih (i + 1) _).cons
        · exact fun h => hs h.2
        · intro hlow
          rw [if_neg fun h => hlow ⟨hb, h⟩]
        · intro hlow
          rw [if_pos hlow.2]
    · rw [if_neg fun h => hb h.2]
      apply (ih (i + 1) newToken).cons
      · exact fun h => hb h.1
      · exact fun _ => rfl
      · exact fun hlow => absurd hlow.1 hb

/-- Everything that adding a token can do to the list. -/
inductive Added (l : TokenList) (token : MutationToken) : TokenList → Prop where
  /-- the bucket has the mutation already, in whatever vbucket -/
  | seen (h : ∃ t ∈ l, SameMutation token t) : Added l token l
  /-- no token of the bucket is lower -/
  | fresh (h : ∀ t ∈ l, ¬ SameMutation token t) (hlow : ∀ t ∈ l, ¬ Lower token t) :
      Added l token (l ++ [token])
  /-- the last lower token of the bucket is overwritten, whatever its vbucket -/
  | lower (h : ∀ t ∈ l, ¬ SameMutation token t) {pre post : TokenList} {t : MutationToken}
      (hl : l = pre ++ t :: post) (ht : Lower token t) (hpost : ∀ u ∈ post, ¬ Lower token u) :
      Added l token (pre ++ token :: post)

theorem modify_append_cons (f : MutationToken → MutationToken) (pre post : TokenList)
    (t : MutationToken) : (pre ++ t :: post).modify pre.length f = pre ++ f t :: post := by
  induction pre with
  | nil => rfl
  | cons u pre ih =>
    rw [List.cons_append, List.length_cons, List.modify_succ_cons, ih]
    rfl

theorem addToken_cases (l : TokenList) (token : MutationToken) :
    Added l token (addToken l token) := by
  have hscan := scan_result token l 0 none
  unfold addToken
  generalize scan token l 0 none = r at hscan ⊢
  cases hscan with
  | seen h => exact .seen h
  | fresh h hlow => exact .fresh h hlow
  | @lower h pre post t hl ht hpost =>
    have hset : l.modify (0 + pre.length) (fun t => { t with mt := token.mt }) =
        pre ++ token :: post := by
      rw [hl, Nat.zero_add, modify_append_cons]
      show pre ++ ({ t with mt := token.mt } : MutationToken) :: post = _
      rw [ht.1]
    show Added l token (l.modify (0 + pre.length) _)
    rw [hset]
    exact .lower h hl ht hpost

/-! ## The calls -/

/-- An object as `ADD_TOKEN_FROM_ZVAL` looks at it: the `token` property of a document or a fragment
is used when it is a `MutationToken`. -/
inductive TokenObject where
  | mutationToken (t : MutationToken)
  | document (token : Option MutationToken)
  | documentFragment (token : Option MutationToken)
  | other

/-- The argument of `from` and `add`; an element of an array that is not an object, a reference to
one included, is `none`. -/
inductive TokenSource where
  | object (o : TokenObject)
  | array (elems : List (Option TokenObject))
  | other

def TokenObject.token : TokenObject → Option MutationToken
  | .mutationToken t => some t
  | .document token => token
  | .documentFragment token => token
  | .other => none

def TokenSource.tokens : TokenSource → List MutationToken
  | .object o => o.token.toList
  | .array elems => elems.filterMap fun e => e.bind TokenObject.token
  | .other => []

/-- The state after a step, and the exception that it threw. -/
abbrev Adding := TokenList × Option Exn

/-- `ADD_TOKEN_FROM_ZVAL`, which reads the class of its argument without a look at its type. -/
def addTokenFromZval (st : Adding) : Option TokenObject → C Adding
  | none => .error .wrongType
  | some .other =>
    .ok (st.1, some (.pcbc
      "Object with mutation token expected (Document, DocumentFragment or MutationToken)" .einval))
  | some o =>
    match o.token with
    | some t => .ok (addToken st.1 t, st.2)
    | none => .ok st

/-- The body that `MutationState::from` and `MutationState::add` share. -/
def addSource (state : TokenList) : TokenSource → C Adding
  | .object o => addTokenFromZval (state, none) (some o)
  | .array elems => elems.foldlM addTokenFromZval (state, none)
  | .other =>
    .ok (state, some (.pcbc ("Array or object with mutation state expected " ++
      "(Document, DocumentFragment or MutationToken)") .einval))

/-- `MutationState::from` and then `MutationState::add`, once for each further source.  An exception
of `from` leaves no object; `add` changes the object also when it throws. -/
def mutationState (first : TokenSource) (rest : List TokenSource) : C (Option TokenList) := do
  match ← addSource [] first with
  | (_, some _) => return none
  | (state, none) => return some (← rest.foldlM (fun state src => do
      return (← addSource state src).1) state)

/-- The list after adding tokens in order. -/
def addTokens (l : TokenList) (tokens : List MutationToken) : TokenList := tokens.foldl addToken l

theorem addTokenFromZval_tokens {st st' : Adding} {o : Option TokenObject}
    (h : addTokenFromZval st o = .ok st') :
    st'.1 = addTokens st.1 (o.bind TokenObject.token).toList := by
  cases o with
  | none => cases h
  | some o =>
    cases o with
    | other =>
      cases h
      rfl
    | mutationToken t =>
      cases h
      rfl
    | document token =>
      cases token <;> cases h <;> rfl
    | documentFragment token =>
      cases token <;> cases h <;> rfl

theorem addTokens_append (l : TokenList) (ts ts' : List MutationToken) :
    addTokens l (ts ++ ts') = addTokens (addTokens l ts) ts' := List.foldl_append

theorem foldlM_addTokenFromZval {elems : List (Option TokenObject)} {st st' : Adding}
    (h : elems.foldlM addTokenFromZval st = .ok st') :
    st'.1 = addTokens st.1 (elems.filterMap fun e => e.bind TokenObject.token) := by
  rw [view_foldlM Prod.fst (fun l o => addTokens l (o.bind TokenObject.token).toList)
    (fun _ _ _ _ => addTokenFromZval_tokens) h, List.filterMap_eq_flatMap_toList]
  exact List.foldl_flatMap.symm

/-- A call adds the tokens of its source, in order, also when it throws. -/
theorem addSource_tokens {state : TokenList} {src : TokenSource} {st : Adding}
    (h : addSource state src = .ok st) : st.1 = addTokens state src.tokens := by
  cases src with
  | object o => exact addTokenFromZval_tokens h
  | array elems => exact foldlM_addTokenFromZval h
  | other =>
    cases h
    rfl

theorem foldlM_addSource {srcs : List TokenSource} {state state' : TokenList}
    (h : srcs.foldlM (fun state src => do return (← addSource state src).1) state = .ok state') :
    state' = addTokens state (srcs.flatMap TokenSource.tokens) := by
  refine (view_foldlM id (fun l src => addTokens l src.tokens) (fun src _ l l' hsrc => ?_) h).trans
    List.foldl_flatMap.symm
  obtain ⟨st, hst, hsrc⟩ := C.bind_eq_ok.mp hsrc
  rw [← Except.ok.inj hsrc]
  exact addSource_tokens hst

/-- **A run of calls** adds the tokens of all its sources in order. -/
theorem mutationState_tokens {first : TokenSource} {rest : List TokenSource} {state : TokenList}
    (h : mutationState first rest = .ok (some state)) :
    state = addTokens [] ((first :: rest).flatMap TokenSource.tokens) := by
  unfold mutationState at h
  obtain ⟨⟨state₁, exn⟩, hfirst, h⟩ := C.bind_eq_ok.mp h
  cases exn with
  | some e => cases h
  | none =>
    obtain ⟨state₂, hrest, h⟩ := C.bind_eq_ok.mp h
    cases h
    rw [foldlM_addSource hrest, List.flatMap_cons, addTokens_append, ← addSource_tokens hfirst]

/-! ## The scan vectors -/

/-- The seqno, as a PHP integer, and the uuid of a vbucket. -/
abbrev ScanPair := Int64 × Bytes

/-- For each bucket the pairs of its vbuckets. -/
abbrev ScanVectors := List (ArrayKey × List (ArrayKey × ScanPair))

/-- The array key of a bucket: `php_array_fetch` and `add_assoc_zval_ex` go through the symbol
table. -/
def bucketKey (bucket : CString) : ArrayKey := symtableKey bucket.bytes

/-- The array key of a vbucket: `zend_hash_str_update` does not. -/
def vbucketKey (vbid : UInt16) : ArrayKey := .str (decimal vbid.toNat)

def scanPair (t : MutationToken) : ScanPair := (t.mt.seqno.toInt64, decimal t.mt.uuid.toNat)

/-- The body of the loop of `pcbc_mutation_state_export_for_n1ql`. -/
def exportToken (sv : ScanVectors) (t : MutationToken) : ScanVectors :=
  let group := (fetch sv (bucketKey t.bucket)).getD []
  update sv (bucketKey t.bucket) (update group (vbucketKey t.mt.vbid) (scanPair t))

/-- `pcbc_mutation_state_export_for_n1ql` -/
def exportForN1ql (state : TokenList) : ScanVectors := state.foldl exportToken []

/-- The bucket and the vbucket of a token. -/
def MutationToken.key (t : MutationToken) : CString × UInt16 := (t.bucket, t.mt.vbid)

/-- The last token of a vbucket in the list. -/
def latest (l : TokenList) (key : CString × UInt16) : Option MutationToken :=
  l.reverse.find? fun t => t.key = key

/-- The pair of a bucket and a vbucket in the scan vectors. -/
def exportEntry (sv : ScanVectors) (key : CString × UInt16) : Option ScanPair :=
  (fetch sv (bucketKey key.1)).bind fun group => fetch group (vbucketKey key.2)

theorem bucketKey_injective {b c : CString} (h : bucketKey b = bucketKey c) : b = c :=
  CString.ext (symtableKey_injective h)

theorem vbucketKey_injective {v w : UInt16} (h : vbucketKey v = vbucketKey w) : v = w := by
  apply UInt16.toNat_inj.mp
  have hv := v.toNat_lt
  have hw := w.toNat_lt
  exact decimal_injective (by omega) (by omega) (ArrayKey.str.inj h)

theorem latest_append_singleton (l : TokenList) (t : MutationToken) (key : CString × UInt16) :
    latest (l ++ [t]) key = if t.key = key then some t else latest l key := by
  unfold latest
  rw [List.reverse_append, List.reverse_singleton, List.singleton_append, List.find?_cons]
  by_cases h : t.key = key <;> simp [h]

theorem exportEntry_exportToken (sv : ScanVectors) (t : MutationToken) (key : CString × UInt16) :
    exportEntry (exportToken sv t) key =
      if t.key = key then some (scanPair t) else exportEntry sv key := by
  obtain ⟨bucket, vbid⟩ := key
  simp only [exportToken, exportEntry]
  by_cases hb : t.bucket = bucket
  · subst hb
    by_cases hv : t.mt.vbid = vbid
    · subst hv
      have hkey : t.key = (t.bucket, t.mt.vbid) := rfl
      rw [if_pos hkey, fetch_update_self, Option.bind_some, fetch_update_self]
    · have hkey : t.key ≠ (t.bucket, vbid) := fun h => hv (congrArg Prod.snd h)
      have hne : vbucketKey vbid ≠ vbucketKey t.mt.vbid :=
        fun h => hv (vbucketKey_injective h).symm
      rw [if_neg hkey, fetch_update_self, Option.bind_some, fetch_update_ne _ _ hne]
      cases fetch sv (bucketKey t.bucket) <;> rfl
  · have hkey : t.key ≠ (bucket, vbid) := fun h => hb (congrArg Prod.fst h)
    have hne : bucketKey bucket ≠ bucketKey t.bucket := fun h => hb (bucketKey_injective h).symm
    rw [if_neg hkey, fetch_update_ne _ _ hne]

/-- **The scan vectors hold the last token** of each vbucket in the list. -/
theorem exportEntry_eq (l : TokenList) (key : CString × UInt16) :
    exportEntry (exportForN1ql l) key = (latest l key).map scanPair := by
  induction l using List.reverseRecOn with
  | nil => rfl
  | append_singleton l t ih =>
    rw [exportForN1ql, List.foldl_append, List.foldl_cons, List.foldl_nil, exportEntry_exportToken,
      latest_append_singleton, ← exportForN1ql, ih]
    split <;> rfl

end PhpCouchbase
