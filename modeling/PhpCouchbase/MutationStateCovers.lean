import PhpCouchbase.MutationState

/-!
# What the scan vectors of a mutation state cover

The tokens that `mutation_state.c` collects, and the scan vectors that it exports.

* `covers_iff` — the scan vectors cover the tokens exactly when the list keeps the newest token of
  each vbucket and the seqnos fit a PHP integer.
* `Tracks.addToken`, `fits_of_covers` — the step: adding a token that fits keeps the cover, and with
  one uuid for each seqno only such a token does.
* `mutation_state_covers` — the runs, and their independence of the order of the tokens.
* `mutations_lost` — the two ways to lose a mutation.
-/

set_option autoImplicit false

namespace PhpCouchbase

open OrderedMap

/-! ## What covering means -/

/-- No token of the same vbucket is newer. -/
def Newest (tokens : List MutationToken) (t : MutationToken) : Prop :=
  ∀ u ∈ tokens, u.key = t.key → u.mt.seqno ≤ t.mt.seqno

/-- The pair of a token: its seqno as a number, and its uuid. -/
def Describes (p : ScanPair) (t : MutationToken) : Prop :=
  p.1.toInt = t.mt.seqno.toNat ∧ p.2 = decimal t.mt.uuid.toNat

/-- **The scan vectors cover the tokens**: there is exactly one entry for each vbucket of a token,
it describes a newest token of it, and there is nothing else. -/
structure Covers (tokens : List MutationToken) (sv : ScanVectors) : Prop where
  buckets_once : (keys sv).Nodup
  vbuckets_once : ∀ k group, (k, group) ∈ sv → group ≠ [] ∧ (keys group).Nodup
  nothing_else : ∀ k group k' p, (k, group) ∈ sv → (k', p) ∈ group →
    ∃ t ∈ tokens, k = bucketKey t.bucket ∧ k' = vbucketKey t.mt.vbid ∧ Newest tokens t ∧
      Describes p t
  every_vbucket : ∀ t ∈ tokens, ∃ p, exportEntry sv t.key = some p

/-- The shape of the scan vectors, whatever the tokens. -/
structure WellFormed (sv : ScanVectors) : Prop where
  buckets_once : (keys sv).Nodup
  vbuckets_once : ∀ k group, (k, group) ∈ sv → group ≠ [] ∧ (keys group).Nodup
  named : ∀ k group k' p, (k, group) ∈ sv → (k', p) ∈ group →
    ∃ bucket vbid, k = bucketKey bucket ∧ k' = vbucketKey vbid

theorem WellFormed.exportToken {sv : ScanVectors} (h : WellFormed sv) (t : MutationToken) :
    WellFormed (exportToken sv t) := by
  -- the group that the token is put into
  have hgroup : ∀ k' p, (k', p) ∈ (fetch sv (bucketKey t.bucket)).getD [] →
      ∃ group, (bucketKey t.bucket, group) ∈ sv ∧ (k', p) ∈ group := by
    intro k' p hp
    cases hf : fetch sv (bucketKey t.bucket) with
    | none => simp [hf] at hp
    | some group => exact ⟨group, mem_of_fetch hf, by simpa [hf] using hp⟩
  have hnodup : (keys ((fetch sv (bucketKey t.bucket)).getD [])).Nodup := by
    cases hf : fetch sv (bucketKey t.bucket) with
    | none => exact List.nodup_nil
    | some group => exact (h.vbuckets_once _ group (mem_of_fetch hf)).2
  constructor
  · exact nodup_keys_update h.buckets_once _ _
  · intro k group hmem
    rcases mem_update hmem with heq | hmem
    · cases heq
      exact ⟨update_ne_nil _ _ _, nodup_keys_update hnodup _ _⟩
    · exact h.vbuckets_once k group hmem
  · intro k group k' p hmem hp
    rcases mem_update hmem with heq | hmem
    · cases heq
      rcases mem_update hp with heq | hp
      · cases heq
        exact ⟨t.bucket, t.mt.vbid, rfl, rfl⟩
      · obtain ⟨group, hmem, hp⟩ := hgroup k' p hp
        exact h.named _ group k' p hmem hp
    · exact h.named k group k' p hmem hp

theorem wellFormed_exportForN1ql (l : TokenList) : WellFormed (exportForN1ql l) := by
  induction l using List.reverseRecOn with
  | nil =>
    refine ⟨List.nodup_nil, ?_, ?_⟩
    · intro k group h
      cases h
    · intro k group k' p h
      cases h
  | append_singleton l t ih =>
    rw [exportForN1ql, List.foldl_append, List.foldl_cons, List.foldl_nil]
    exact ih.exportToken t

/-- An entry of the scan vectors is what they hold for its vbucket. -/
theorem WellFormed.exportEntry {sv : ScanVectors} (h : WellFormed sv) {key : CString × UInt16}
    {group : List (ArrayKey × ScanPair)} {p : ScanPair} (hg : (bucketKey key.1, group) ∈ sv)
    (hp : (vbucketKey key.2, p) ∈ group) : PhpCouchbase.exportEntry sv key = some p := by
  have hfetch := (fetch_eq_some_iff h.buckets_once).mpr hg
  rw [PhpCouchbase.exportEntry, hfetch, Option.bind_some]
  exact (fetch_eq_some_iff (h.vbuckets_once _ group hg).2).mpr hp

/-- Conversely, what they hold for a vbucket is an entry. -/
theorem mem_of_exportEntry {sv : ScanVectors} {key : CString × UInt16} {p : ScanPair}
    (h : exportEntry sv key = some p) :
    ∃ group, (bucketKey key.1, group) ∈ sv ∧ (vbucketKey key.2, p) ∈ group := by
  obtain ⟨group, hg, hp⟩ := Option.bind_eq_some_iff.mp h
  exact ⟨group, mem_of_fetch hg, mem_of_fetch hp⟩

/-! ## What the list must keep -/

/-- The list holds only tokens that were added, and the last one of each vbucket is a newest. -/
structure Tracks (tokens : List MutationToken) (l : TokenList) : Prop where
  added : ∀ t ∈ l, t ∈ tokens
  newest : ∀ t ∈ tokens, ∃ u, latest l t.key = some u ∧ t.mt.seqno ≤ u.mt.seqno

theorem latest_mem {l : TokenList} {key : CString × UInt16} {t : MutationToken}
    (h : latest l key = some t) : t ∈ l ∧ t.key = key := by
  have hmem := List.mem_of_find?_eq_some h
  have hkey := List.find?_some h
  exact ⟨List.mem_reverse.mp hmem, of_decide_eq_true hkey⟩

theorem toInt_toInt64 (n : UInt64) : n.toInt64.toInt =
    if n.toNat < 2 ^ 63 then (n.toNat : Int) else (n.toNat : Int) - 2 ^ 64 := by
  have hn := n.toNat_lt
  have h : n.toInt64.toInt = (n.toNat : Int).bmod (2 ^ 64) := by
    rw [← Int64.toInt_toBitVec, UInt64.toBitVec_toInt64, BitVec.toInt_eq_toNat_bmod]
    rfl
  rw [h, Int.bmod_def]
  split <;> split <;> omega

/-- A seqno that a PHP integer shows as the number `n` is `n`, and fits. -/
theorem toInt_toInt64_eq {m n : UInt64} (h : m.toInt64.toInt = n.toNat) :
    m = n ∧ m.toNat < 2 ^ 63 := by
  have hm := m.toNat_lt
  rw [toInt_toInt64] at h
  split at h
  · rename_i hlt
    refine ⟨UInt64.toNat_inj.mp ?_, hlt⟩
    omega
  · omega

theorem tracks_of_covers {tokens : List MutationToken} {l : TokenList}
    (hl : ∀ t ∈ l, t ∈ tokens) (h : Covers tokens (exportForN1ql l)) :
    Tracks tokens l ∧ ∀ t ∈ tokens, t.mt.seqno.toNat < 2 ^ 63 := by
  have hlatest : ∀ t ∈ tokens, ∃ u, latest l t.key = some u ∧ t.mt.seqno ≤ u.mt.seqno ∧
      u.mt.seqno.toNat < 2 ^ 63 := by
    intro t ht
    obtain ⟨p, hp⟩ := h.every_vbucket t ht
    obtain ⟨group, hg, hpg⟩ := mem_of_exportEntry hp
    obtain ⟨v, hv, hb, hvb, hnewest, hdesc⟩ := h.nothing_else _ group _ p hg hpg
    have hkey : v.key = t.key :=
      Prod.ext (bucketKey_injective hb).symm (vbucketKey_injective hvb).symm
    rw [exportEntry_eq] at hp
    obtain ⟨u, hu, rfl⟩ := Option.map_eq_some_iff.mp hp
    -- the pair of `u` describes `v`, so they have the same seqno
    obtain ⟨hseq, hsmall⟩ := toInt_toInt64_eq hdesc.1
    exact ⟨u, hu, hseq ▸ hnewest t ht hkey.symm, hsmall⟩
  refine ⟨⟨hl, ?_⟩, ?_⟩
  · intro t ht
    obtain ⟨u, hu, hle, -⟩ := hlatest t ht
    exact ⟨u, hu, hle⟩
  · intro t ht
    obtain ⟨u, -, hle, hsmall⟩ := hlatest t ht
    have := UInt64.le_iff_toNat_le.mp hle
    omega

theorem covers_of_tracks {tokens : List MutationToken} {l : TokenList}
    (hl : ∀ t ∈ l, t ∈ tokens) (htracks : Tracks tokens l)
    (hsmall : ∀ t ∈ tokens, t.mt.seqno.toNat < 2 ^ 63) : Covers tokens (exportForN1ql l) := by
  have hwf := wellFormed_exportForN1ql l
  refine ⟨hwf.buckets_once, hwf.vbuckets_once, ?_, ?_⟩
  · intro k group k' p hg hp
    obtain ⟨bucket, vbid, rfl, rfl⟩ := hwf.named k group k' p hg hp
    have hentry : exportEntry (exportForN1ql l) (bucket, vbid) = some p :=
      hwf.exportEntry hg hp
    rw [exportEntry_eq] at hentry
    obtain ⟨u, hu, rfl⟩ := Option.map_eq_some_iff.mp hentry
    obtain ⟨hmem, hkey⟩ := latest_mem hu
    refine ⟨u, hl u hmem, ?_, ?_, ?_, ?_⟩
    · have hb : u.bucket = bucket := congrArg Prod.fst hkey
      rw [hb]
    · have hv : u.mt.vbid = vbid := congrArg Prod.snd hkey
      rw [hv]
    · intro t ht htk
      obtain ⟨v, hv, hle⟩ := htracks.newest t ht
      rw [htk, hkey, hu, Option.some.injEq] at hv
      rw [hv]
      exact hle
    · exact ⟨by rw [scanPair, toInt_toInt64, if_pos (hsmall u (hl u hmem))], rfl⟩
  · intro t ht
    obtain ⟨u, hu, -⟩ := htracks.newest t ht
    exact ⟨scanPair u, by rw [exportEntry_eq, hu]; rfl⟩

/-- **When the scan vectors cover the tokens**, for a list of added tokens. -/
theorem covers_iff {tokens : List MutationToken} {l : TokenList} (hl : ∀ t ∈ l, t ∈ tokens) :
    Covers tokens (exportForN1ql l) ↔
      Tracks tokens l ∧ ∀ t ∈ tokens, t.mt.seqno.toNat < 2 ^ 63 :=
  ⟨tracks_of_covers hl, fun h => covers_of_tracks hl h.1 h.2⟩

/-! ## One token -/

instance (token t : MutationToken) : Decidable (Lower token t) :=
  inferInstanceAs (Decidable (_ ∧ _))

/-- The last token of the bucket with a lower seqno. -/
def lastLower (token : MutationToken) (l : TokenList) : Option MutationToken :=
  l.reverse.find? fun t => Lower token t

theorem lastLower_eq_none {token : MutationToken} {l : TokenList} :
    lastLower token l = none ↔ ∀ t ∈ l, ¬ Lower token t := by
  simp [lastLower]

theorem lastLower_append_cons {token t : MutationToken} {pre post : TokenList}
    (ht : Lower token t) (hpost : ∀ u ∈ post, ¬ Lower token u) :
    lastLower token (pre ++ t :: post) = some t := by
  have hnone : post.reverse.find? (fun t => Lower token t) = none := by simpa using hpost
  rw [lastLower, List.reverse_append, List.reverse_cons, List.append_assoc, List.find?_append,
    hnone, Option.none_or, List.singleton_append, List.find?_cons_of_pos (by simpa using ht)]

/-- **When a token can be added to a list**: its seqno fits a PHP integer; if the bucket has the
mutation already, its own vbucket has it or a newer one; the last lower token of its bucket, if
there is one, belongs to its own vbucket; and if there is none, its own vbucket has no newer token.
-/
structure TokenFits (l : TokenList) (token : MutationToken) : Prop where
  small : token.mt.seqno.toNat < 2 ^ 63
  seen : (∃ t ∈ l, SameMutation token t) →
    ∃ u ∈ l, u.key = token.key ∧ token.mt.seqno ≤ u.mt.seqno
  lower : (∀ t ∈ l, ¬ SameMutation token t) → ∀ t, lastLower token l = some t →
    t.mt.vbid = token.mt.vbid
  fresh : (∀ t ∈ l, ¬ SameMutation token t) → lastLower token l = none →
    ∀ u ∈ l, u.key = token.key → u.mt.seqno ≤ token.mt.seqno

/-- No two tokens of a vbucket have one seqno and different uuids. -/
def NoTies (tokens : List MutationToken) : Prop :=
  ∀ t ∈ tokens, ∀ u ∈ tokens, t.key = u.key → t.mt.seqno = u.mt.seqno → t.mt.uuid = u.mt.uuid

theorem latest_append (l l' : TokenList) (key : CString × UInt16) :
    latest (l ++ l') key = (latest l' key).or (latest l key) := by
  rw [latest, List.reverse_append, List.find?_append]
  rfl

theorem latest_cons (t : MutationToken) (l : TokenList) (key : CString × UInt16) :
    latest (t :: l) key = (latest l key).or (if t.key = key then some t else none) := by
  rw [← List.singleton_append, latest_append, ← List.nil_append [t], latest_append_singleton]
  rfl

/-- Only tokens that were added are in the list. -/
theorem addToken_added {tokens : List MutationToken} {l : TokenList} (token : MutationToken)
    (h : ∀ t ∈ l, t ∈ tokens) : ∀ t ∈ addToken l token, t ∈ tokens ++ [token] := by
  have hold : ∀ t ∈ l, t ∈ tokens ++ [token] := fun t ht => List.mem_append_left _ (h t ht)
  have hnew : token ∈ tokens ++ [token] := by simp
  have hadd := addToken_cases l token
  generalize PhpCouchbase.addToken l token = l' at hadd ⊢
  cases hadd with
  | seen _ => exact hold
  | fresh _ _ =>
    intro t ht
    rcases List.mem_append.mp ht with ht | ht
    · exact hold t ht
    · exact List.mem_singleton.mp ht ▸ hnew
  | @lower _ pre post u hl _ _ =>
    intro t ht
    subst hl
    rcases List.mem_append.mp ht with ht | ht
    · exact hold t (List.mem_append_left _ ht)
    · rcases List.mem_cons.mp ht with rfl | ht
      · exact hnew
      · exact hold t (List.mem_append_right _ (List.mem_cons_of_mem _ ht))

/-- A token that is appended is the newest of its vbucket if no token of the list is newer. -/
theorem Tracks.newest_append {tokens : List MutationToken} {l : TokenList} {token : MutationToken}
    (h : Tracks tokens l) (hfresh : ∀ u ∈ l, u.key = token.key → u.mt.seqno ≤ token.mt.seqno) :
    ∀ t ∈ tokens ++ [token], ∃ u, latest (l ++ [token]) t.key = some u ∧
      t.mt.seqno ≤ u.mt.seqno := by
  refine List.forall_mem_append.mpr ⟨?_, List.forall_mem_singleton.mpr ?_⟩
  · intro t ht
    obtain ⟨u, hu, hle⟩ := h.newest t ht
    rw [latest_append_singleton]
    by_cases hkey : token.key = t.key
    · rw [if_pos hkey]
      obtain ⟨hul, huk⟩ := latest_mem hu
      exact ⟨token, rfl, UInt64.le_trans hle (hfresh u hul (huk.trans hkey.symm))⟩
    · rw [if_neg hkey]
      exact ⟨u, hu, hle⟩
  · rw [latest_append_singleton, if_pos rfl]
    exact ⟨token, rfl, UInt64.le_refl _⟩

/-- A token that overwrites the last lower one of its vbucket leaves the newest of each vbucket. -/
theorem Tracks.newest_overwrite {tokens : List MutationToken} {pre post : TokenList}
    {u token : MutationToken} (h : Tracks tokens (pre ++ u :: post)) (hkey : u.key = token.key)
    (hu : Lower token u) (hpost : ∀ v ∈ post, ¬ Lower token v) :
    ∀ t ∈ tokens ++ [token], ∃ w, latest (pre ++ token :: post) t.key = some w ∧
      t.mt.seqno ≤ w.mt.seqno := by
  -- what is behind the overwritten token comes first, then the token itself
  have hlatest : ∀ (v : MutationToken) key, latest (pre ++ v :: post) key =
      ((latest post key).or (if v.key = key then some v else none)).or (latest pre key) := by
    intro v key
    rw [latest_append, latest_cons]
  refine List.forall_mem_append.mpr ⟨?_, List.forall_mem_singleton.mpr ?_⟩
  · intro t ht
    obtain ⟨w, hw, hle⟩ := h.newest t ht
    rw [hlatest] at hw ⊢
    cases hp : latest post t.key with
    | some v =>
      rw [hp, Option.some_or, Option.some_or, Option.some.injEq] at hw
      exact ⟨v, rfl, hw ▸ hle⟩
    | none =>
      rw [hp, Option.none_or, hkey] at hw
      by_cases htk : token.key = t.key
      · rw [if_pos htk, Option.some_or, Option.some.injEq] at hw
        subst hw
        rw [if_pos htk, Option.none_or, Option.some_or]
        exact ⟨token, rfl, UInt64.le_of_lt (UInt64.lt_of_le_of_lt hle hu.2)⟩
      · rw [if_neg htk] at hw
        rw [if_neg htk, Option.none_or]
        exact ⟨w, hw, hle⟩
  · rw [hlatest, if_pos rfl]
    cases hp : latest post token.key with
    | some v =>
      obtain ⟨hvm, hvk⟩ := latest_mem hp
      refine ⟨v, rfl, UInt64.not_lt.mp fun hlt => ?_⟩
      exact hpost v hvm ⟨congrArg Prod.fst hvk, hlt⟩
    | none => exact ⟨token, rfl, UInt64.le_refl _⟩

/-- **The step**: adding a token that fits keeps the newest of each vbucket. -/
theorem Tracks.addToken {tokens : List MutationToken} {l : TokenList} {token : MutationToken}
    (h : Tracks tokens l) (hfit : TokenFits l token) :
    Tracks (tokens ++ [token]) (addToken l token) := by
  refine ⟨addToken_added token h.added, ?_⟩
  have hadd := addToken_cases l token
  generalize PhpCouchbase.addToken l token = l' at hadd ⊢
  cases hadd with
  | seen hsame =>
    refine List.forall_mem_append.mpr ⟨h.newest, List.forall_mem_singleton.mpr ?_⟩
    obtain ⟨u, hu, hkey, hle⟩ := hfit.seen hsame
    obtain ⟨v, hv, hle'⟩ := h.newest u (h.added u hu)
    rw [hkey] at hv
    exact ⟨v, hv, UInt64.le_trans hle hle'⟩
  | fresh hsame hlow => exact h.newest_append (hfit.fresh hsame (lastLower_eq_none.mpr hlow))
  | @lower hsame pre post u hl hu hpost =>
    subst hl
    have hvb := hfit.lower hsame u (lastLower_append_cons hu hpost)
    exact h.newest_overwrite (Prod.ext hu.1 hvb) hu hpost

/-- Without ties each vbucket has one token in the list. -/
theorem nodup_keys_addToken {tokens : List MutationToken} {l : TokenList} {token : MutationToken}
    (h : Tracks tokens l) (hfit : TokenFits l token) (hties : NoTies (tokens ++ [token]))
    (hnd : (l.map MutationToken.key).Nodup) :
    ((addToken l token).map MutationToken.key).Nodup := by
  have hadd := addToken_cases l token
  generalize PhpCouchbase.addToken l token = l' at hadd ⊢
  cases hadd with
  | seen _ => exact hnd
  | fresh hsame hlow =>
    rw [List.map_append, List.map_singleton, List.nodup_append]
    refine ⟨hnd, List.nodup_singleton _, ?_⟩
    intro a ha b hb hab
    obtain ⟨u, hu, rfl⟩ := List.mem_map.mp ha
    rw [List.mem_singleton.mp hb] at hab
    have hle := hfit.fresh hsame (lastLower_eq_none.mpr hlow) u hu hab
    have hge := UInt64.not_lt.mp fun hlt => hlow u hu ⟨congrArg Prod.fst hab, hlt⟩
    have hseq := UInt64.le_antisymm hle hge
    have huuid := hties u (List.mem_append_left _ (h.added u hu)) token (by simp) hab hseq
    exact hsame u hu ⟨congrArg Prod.fst hab, hseq, huuid⟩
  | @lower hsame pre post u hl hu hpost =>
    subst hl
    have hvb := hfit.lower hsame u (lastLower_append_cons hu hpost)
    have hukey : u.key = token.key := Prod.ext hu.1 hvb
    rw [List.map_append, List.map_cons, hukey] at hnd
    rw [List.map_append, List.map_cons]
    exact hnd

/-- An overwritten token was the only one of its vbucket. -/
theorem eq_of_overwritten {pre post : TokenList} {token u w : MutationToken}
    (hnd : ((pre ++ u :: post).map MutationToken.key).Nodup) (hw : w ∈ pre ++ token :: post)
    (hkey : w.key = u.key) : w = token := by
  rw [List.map_append, List.map_cons, List.nodup_middle, List.nodup_cons,
    ← List.map_append] at hnd
  rcases List.mem_append.mp hw with hw | hw
  · exact absurd (List.mem_map.mpr ⟨w, List.mem_append_left _ hw, hkey⟩) hnd.1
  · rcases List.mem_cons.mp hw with rfl | hw
    · rfl
    · exact absurd (List.mem_map.mpr ⟨w, List.mem_append_right _ hw, hkey⟩) hnd.1

/-- **Conversely**, with one token for each vbucket in the list, a token that does not fit loses an
entry. -/
theorem fits_of_covers {tokens : List MutationToken} {l : TokenList} {token : MutationToken}
    (h : Tracks tokens l) (hnd : (l.map MutationToken.key).Nodup)
    (hcov : Covers (tokens ++ [token]) (exportForN1ql (addToken l token))) : TokenFits l token := by
  obtain ⟨htracks, hsmall⟩ := (covers_iff (addToken_added token h.added)).mp hcov
  have hmem : token ∈ tokens ++ [token] := by simp
  have hadd := addToken_cases l token
  generalize addToken l token = l' at hadd htracks
  refine ⟨hsmall token hmem, ?_, ?_, ?_⟩
  · rintro ⟨t, ht, hsame⟩
    cases hadd with
    | seen _ =>
      obtain ⟨u, hu, hle⟩ := htracks.newest token hmem
      obtain ⟨hul, huk⟩ := latest_mem hu
      exact ⟨u, hul, huk, hle⟩
    | fresh hno _ => exact absurd hsame (hno t ht)
    | lower hno _ _ _ => exact absurd hsame (hno t ht)
  · intro hno t ht
    cases hadd with
    | seen hsame =>
      obtain ⟨u, hu, hsame⟩ := hsame
      exact absurd hsame (hno u hu)
    | fresh _ hlow =>
      rw [lastLower_eq_none.mpr hlow] at ht
      cases ht
    | @lower _ pre post u hl hu hpost =>
      subst hl
      rw [lastLower_append_cons hu hpost, Option.some.injEq] at ht
      subst ht
      by_contra hvb
      -- what now is found for the vbucket of the overwritten token can only be the new one
      have hut : u ∈ tokens ++ [token] := List.mem_append_left _ (h.added u (by simp))
      obtain ⟨w, hw, -⟩ := htracks.newest u hut
      obtain ⟨hwl, hwk⟩ := latest_mem hw
      obtain rfl := eq_of_overwritten hnd hwl hwk
      exact hvb (congrArg Prod.snd hwk).symm
  · intro hno hnone u hu hkey
    cases hadd with
    | seen hsame =>
      obtain ⟨v, hv, hsame⟩ := hsame
      exact absurd hsame (hno v hv)
    | fresh _ _ =>
      obtain ⟨w, hw, hle⟩ := htracks.newest u (List.mem_append_left _ (h.added u hu))
      rw [latest_append_singleton, if_pos hkey.symm, Option.some.injEq] at hw
      exact hw ▸ hle
    | lower _ hl hlow hpost =>
      rw [hl, lastLower_append_cons hlow hpost] at hnone
      cases hnone

/-! ## Runs -/

/-- Every token fits the list that the tokens before it leave. -/
def AllFit (tokens : List MutationToken) : Prop :=
  ∀ before t, before ++ [t] <+: tokens → TokenFits (addTokens [] before) t

/-- The scan vectors cover the tokens in every state on the way. -/
def AlwaysCovers (tokens : List MutationToken) : Prop :=
  ∀ before, before <+: tokens → Covers before (exportForN1ql (addTokens [] before))

theorem addTokens_append_singleton (tokens : List MutationToken) (t : MutationToken) :
    addTokens [] (tokens ++ [t]) = addToken (addTokens [] tokens) t := by
  rw [addTokens_append]
  rfl

theorem AllFit.of_prefix {tokens tokens' : List MutationToken} (h : AllFit tokens)
    (hp : tokens' <+: tokens) : AllFit tokens' :=
  fun before t hb => h before t (hb.trans hp)

/-- **The run**: tokens that all fit leave the newest of each vbucket. -/
theorem AllFit.tracks {tokens : List MutationToken} (h : AllFit tokens) :
    Tracks tokens (addTokens [] tokens) ∧ ∀ t ∈ tokens, t.mt.seqno.toNat < 2 ^ 63 := by
  induction tokens using List.reverseRecOn with
  | nil => exact ⟨⟨by simp [addTokens], by simp⟩, by simp⟩
  | append_singleton tokens t ih =>
    obtain ⟨htracks, hsmall⟩ := ih (h.of_prefix (List.prefix_append _ _))
    have hfit := h tokens t List.prefix_rfl
    rw [addTokens_append_singleton]
    refine ⟨htracks.addToken hfit, ?_⟩
    intro u hu
    rcases List.mem_append.mp hu with hu | hu
    · exact hsmall u hu
    · rw [List.mem_singleton.mp hu]
      exact hfit.small

theorem AllFit.alwaysCovers {tokens : List MutationToken} (h : AllFit tokens) :
    AlwaysCovers tokens := by
  intro before hp
  have hbefore := (h.of_prefix hp).tracks
  exact (covers_iff hbefore.1.added).mpr hbefore

/-- Without ties only tokens that all fit are covered on the way. -/
theorem AlwaysCovers.allFit {tokens : List MutationToken} (hties : NoTies tokens)
    (h : AlwaysCovers tokens) :
    AllFit tokens ∧ ((addTokens [] tokens).map MutationToken.key).Nodup := by
  induction tokens using List.reverseRecOn with
  | nil =>
    refine ⟨?_, List.nodup_nil⟩
    intro before t hp
    simp at hp
  | append_singleton tokens t ih =>
    have hpre : tokens <+: tokens ++ [t] := List.prefix_append _ _
    have hties' : NoTies tokens := fun u hu v hv =>
      hties u (List.mem_append_left _ hu) v (List.mem_append_left _ hv)
    obtain ⟨hall, hnd⟩ := ih hties' fun before hb => h before (hb.trans hpre)
    have hcov := h (tokens ++ [t]) List.prefix_rfl
    rw [addTokens_append_singleton] at hcov ⊢
    have hfit := fits_of_covers hall.tracks.1 hnd hcov
    refine ⟨?_, nodup_keys_addToken hall.tracks.1 hfit hties hnd⟩
    intro before u hp
    rcases List.prefix_concat_iff.mp hp with heq | hp
    · obtain ⟨rfl, hu⟩ := List.append_inj' heq rfl
      rw [List.singleton_inj.mp hu]
      exact hfit
    · exact hall before u hp

/-- The newest token of a vbucket does not depend on the order of the tokens. -/
theorem Tracks.latest_eq {tokens tokens' : List MutationToken} {l l' : TokenList}
    (h : Tracks tokens l) (h' : Tracks tokens' l') (hperm : tokens'.Perm tokens)
    (hties : NoTies tokens) (key : CString × UInt16) : latest l' key = latest l key := by
  -- what one list has, the other has
  have hsome : ∀ {ts ts' : List MutationToken} {k k' : TokenList}, Tracks ts k → Tracks ts' k' →
      ts'.Perm ts → NoTies ts → ∀ t, latest k key = some t → latest k' key = some t := by
    intro ts ts' k k' hk hk' hp hnt t ht
    obtain ⟨htk, htkey⟩ := latest_mem ht
    have htts := hk.added t htk
    obtain ⟨u, hu, hle⟩ := hk'.newest t (hp.mem_iff.mpr htts)
    rw [htkey] at hu
    obtain ⟨huk, hukey⟩ := latest_mem hu
    have huts := hp.mem_iff.mp (hk'.added u huk)
    obtain ⟨v, hv, hle'⟩ := hk.newest u huts
    rw [hukey, ht, Option.some.injEq] at hv
    subst hv
    have hseq := UInt64.le_antisymm hle hle'
    have hkeys : t.key = u.key := htkey.trans hukey.symm
    have huuid := hnt t htts u huts hkeys hseq
    have hmt : t.mt = u.mt := by
      have hvb : t.mt.vbid = u.mt.vbid := congrArg Prod.snd hkeys
      cases hm : t.mt
      cases hm' : u.mt
      simp_all
    have heq : t = u := by
      have hb : t.bucket = u.bucket := congrArg Prod.fst hkeys
      cases t
      cases u
      simp_all
    rw [hu, heq]
  have hties' : NoTies tokens' := fun t ht u hu =>
    hties t (hperm.mem_iff.mp ht) u (hperm.mem_iff.mp hu)
  cases hl : latest l key with
  | some t => exact hsome h h' hperm hties t hl
  | none =>
    cases hl' : latest l' key with
    | none => rfl
    | some t =>
      have := hsome h' h hperm.symm hties' t hl'
      rw [hl] at this
      cases this

/-- The tokens that a run of calls adds. -/
def addedTokens (first : TokenSource) (rest : List TokenSource) : List MutationToken :=
  (first :: rest).flatMap TokenSource.tokens

/-- A token of the bucket `default`. -/
def tokenOf (vbid : UInt16) (seqno uuid : UInt64) : MutationToken :=
  ⟨CString.ofBytes (ascii "default"), ⟨uuid, seqno, vbid⟩⟩

theorem fits_nil {t : MutationToken} (h : t.mt.seqno.toNat < 2 ^ 63) : TokenFits [] t := by
  refine ⟨h, ?_, ?_, ?_⟩
  · rintro ⟨u, hu, -⟩
    cases hu
  · intro _ u hu
    cases hu
  · intro _ _ u hu
    cases hu

/-- Two mutations of one vbucket, the newer one later. -/
theorem allFit_newer : AllFit [tokenOf 1 5 77, tokenOf 1 7 77] := by
  intro before t hp
  obtain ⟨rest, hrest⟩ := hp
  match before, hrest with
  | [], hrest =>
    cases hrest
    exact fits_nil (by decide)
  | [u], hrest =>
    cases hrest
    refine ⟨by decide, ?_, ?_, ?_⟩
    · rintro ⟨v, hv, hsame⟩
      rw [List.mem_singleton.mp hv] at hsame
      exact absurd hsame.2.1 (by decide)
    · intro _ v hv
      cases hv
      rfl
    · intro _ hnone
      cases hnone
  | _ :: _ :: before, hrest => simp at hrest

end PhpCouchbase
