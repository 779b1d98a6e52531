import PhpCouchbase.MutationStateCovers

/-!
# Calls of a mutation state that throw

`MutationState::add` (`mutation_state.c`) goes through an array element by element: it has added the
tokens before an element that it refuses, and it goes on behind it.

* `merges_iff`, `mergesInTurn_iff` — which tokens are merged without a loss, for one and for a run.
* `foldlM_addTokenFromZval_eq` — what the loop over an array leaves behind.
* `addTokens_eq_self_iff` — adding tokens leaves the list alone exactly when it has all of them.
* `mutation_state_atomic_iff` — when a call of `add` or `from` is all or nothing.
-/

set_option autoImplicit false

namespace PhpCouchbase

open FallibleFold

/-! ## Merging tokens -/

/-- A token of the same vbucket with the same mutation or a later one. -/
def Supersedes (u token : MutationToken) : Prop :=
  u.key = token.key ∧
    (u.mt.seqno = token.mt.seqno ∧ u.mt.uuid = token.mt.uuid ∨ token.mt.seqno < u.mt.seqno)

theorem Supersedes.refl (token : MutationToken) : Supersedes token token := ⟨rfl, .inl ⟨rfl, rfl⟩⟩

theorem Supersedes.trans {t u v : MutationToken} (hv : Supersedes v u) (hu : Supersedes u t) :
    Supersedes v t := by
  obtain ⟨hkey, hsame | hlater⟩ := hv
  · obtain ⟨hkey', hsame' | hlater'⟩ := hu
    · exact ⟨hkey.trans hkey', .inl ⟨hsame.1.trans hsame'.1, hsame.2.trans hsame'.2⟩⟩
    · exact ⟨hkey.trans hkey', .inr (hsame.1 ▸ hlater')⟩
  · obtain ⟨hkey', hsame' | hlater'⟩ := hu
    · exact ⟨hkey.trans hkey', .inr (hsame'.1 ▸ hlater)⟩
    · exact ⟨hkey.trans hkey', .inr (UInt64.lt_trans hlater' hlater)⟩

/-- The list has the mutation of a token or a later one of its vbucket. -/
def Merged (l : TokenList) (token : MutationToken) : Prop := ∃ u ∈ l, Supersedes u token

theorem merged_of_mem {l : TokenList} {token : MutationToken} (h : token ∈ l) : Merged l token :=
  ⟨token, h, .refl token⟩

theorem Merged.mono {l l' : TokenList} {token : MutationToken} (h : Merged l token)
    (hl : ∀ u ∈ l, Merged l' u) : Merged l' token := by
  obtain ⟨u, hu, hsuper⟩ := h
  obtain ⟨v, hv, hsuper'⟩ := hl u hu
  exact ⟨v, hv, hsuper'.trans hsuper⟩

/-- **When a token can be merged**: if the bucket has its mutation already, its own vbucket has it
or a later one; the token that it overwrites belongs to its vbucket, or the list has that one's
mutation or a later one of the same vbucket besides. -/
structure MergeFits (l : TokenList) (token : MutationToken) : Prop where
  seen : (∃ t ∈ l, SameMutation token t) → Merged l token
  lower : (∀ t ∈ l, ¬ SameMutation token t) → ∀ pre t post, l = pre ++ t :: post → Lower token t →
    (∀ u ∈ post, ¬ Lower token u) → t.mt.vbid = token.mt.vbid ∨ Merged (pre ++ post) t

/-- The last lower token is in one place. -/
theorem lower_unique {token t t' : MutationToken} {pre post pre' post' : TokenList}
    (heq : pre ++ t :: post = pre' ++ t' :: post') (ht : Lower token t) (ht' : Lower token t')
    (hpost : ∀ u ∈ post, ¬ Lower token u) (hpost' : ∀ u ∈ post', ¬ Lower token u) :
    pre = pre' ∧ post = post' := by
  rcases List.append_eq_append_iff.mp heq with ⟨as, hpre, hrest⟩ | ⟨as, hpre, hrest⟩
  · cases as with
    | nil =>
      rw [List.append_nil] at hpre
      exact ⟨hpre.symm, (List.cons.inj hrest).2⟩
    | cons a as =>
      -- the second one is behind the first one
      have hmem : t' ∈ post := by
        rw [(List.cons.inj hrest).2]
        exact List.mem_append_right _ List.mem_cons_self
      exact absurd ht' (hpost t' hmem)
  · cases as with
    | nil =>
      rw [List.append_nil] at hpre
      exact ⟨hpre, (List.cons.inj hrest).2.symm⟩
    | cons a as =>
      have hmem : t ∈ post' := by
        rw [(List.cons.inj hrest).2]
        exact List.mem_append_right _ List.mem_cons_self
      exact absurd ht (hpost' t hmem)

/-- **The step**: exactly a token that fits is merged without a loss. -/
theorem merges_iff (l : TokenList) (token : MutationToken) :
    (∀ t ∈ token :: l, Merged (addToken l token) t) ↔ MergeFits l token := by
  have hadded := addToken_cases l token
  generalize addToken l token = l' at hadded ⊢
  cases hadded with
  | seen h =>
    constructor
    · intro hall
      refine ⟨fun _ => hall token List.mem_cons_self, fun hnot => ?_⟩
      obtain ⟨t, ht, hsame⟩ := h
      exact absurd hsame (hnot t ht)
    · intro hfit
      exact List.forall_mem_cons.mpr ⟨hfit.seen h, fun t ht => merged_of_mem ht⟩
  | fresh h hlow =>
    refine iff_of_true ?_ ⟨?_, ?_⟩
    · refine List.forall_mem_cons.mpr ⟨merged_of_mem (by simp), fun t ht => ?_⟩
      exact merged_of_mem (List.mem_append_left _ ht)
    · rintro ⟨t, ht, hsame⟩
      exact absurd hsame (h t ht)
    · intro _ pre t post hl ht
      exact absurd ht (hlow t (hl ▸ List.mem_append_right _ List.mem_cons_self))
  | @lower h pre post t hl ht hpost =>
    have hkept : ∀ u ∈ pre ++ post, u ∈ pre ++ token :: post := by
      intro u hu
      rcases List.mem_append.mp hu with hu | hu
      · exact List.mem_append_left _ hu
      · exact List.mem_append_right _ (List.mem_cons_of_mem _ hu)
    constructor
    · intro hall
      refine ⟨?_, ?_⟩
      · rintro ⟨u, hu, hsame⟩
        exact absurd hsame (h u hu)
      · intro _ pre' t' post' hl' ht' hpost'
        obtain ⟨rfl, rfl⟩ := lower_unique (hl.symm.trans hl') ht ht' hpost hpost'
        obtain ⟨u, hu, hsuper⟩ := hall t' (List.mem_cons_of_mem _ (by simp [hl']))
        rcases List.mem_append.mp hu with hu | hu
        · exact .inr ⟨u, List.mem_append_left _ hu, hsuper⟩
        · rcases List.mem_cons.mp hu with rfl | hu
          · exact .inl (congrArg Prod.snd hsuper.1).symm
          · exact .inr ⟨u, List.mem_append_right _ hu, hsuper⟩
    · intro hfit
      refine List.forall_mem_cons.mpr ⟨merged_of_mem (by simp), fun u hu => ?_⟩
      rw [hl] at hu
      rcases List.mem_append.mp hu with hu | hu
      · exact merged_of_mem (List.mem_append_left _ hu)
      · rcases List.mem_cons.mp hu with rfl | hu
        · rcases hfit.lower h pre u post hl ht hpost with hvbid | hmerged
          · refine ⟨token, by simp, Prod.ext ht.1.symm hvbid.symm, .inr ht.2⟩
          · exact hmerged.mono fun v hv => merged_of_mem (hkept v hv)
        · exact merged_of_mem (List.mem_append_right _ (List.mem_cons_of_mem _ hu))

/-- Every token fits the list that those before it leave. -/
def AllMergeFit (state : TokenList) (tokens : List MutationToken) : Prop :=
  ∀ before t, before ++ [t] <+: tokens → MergeFits (addTokens state before) t

/-- Each token is merged when its turn comes, and none of the list is lost on the way. -/
def MergesInTurn (state : TokenList) (tokens : List MutationToken) : Prop :=
  ∀ before, before <+: tokens → ∀ t ∈ state ++ before, Merged (addTokens state before) t

/-- Only tokens of the list and added ones are in it. -/
theorem addTokens_mem (state : TokenList) (tokens : List MutationToken) :
    ∀ t ∈ addTokens state tokens, t ∈ state ++ tokens := by
  induction tokens using List.reverseRecOn with
  | nil => simp [addTokens]
  | append_singleton tokens t ih =>
    rw [addTokens_append, ← List.append_assoc]
    exact addToken_added t ih

/-- **The run**: exactly tokens that all fit are merged in turn. -/
theorem mergesInTurn_iff (state : TokenList) (tokens : List MutationToken) :
    MergesInTurn state tokens ↔ AllMergeFit state tokens := by
  constructor
  · intro h before t hp
    refine (merges_iff _ t).mp (List.forall_mem_cons.mpr ?_)
    have hall := h (before ++ [t]) hp
    rw [addTokens_append] at hall
    refine ⟨hall t (by simp), fun u hu => hall u ?_⟩
    rw [← List.append_assoc]
    exact List.mem_append_left _ (addTokens_mem state before u hu)
  · intro h before
    induction before using List.reverseRecOn with
    | nil =>
      intro _ t ht
      rw [List.append_nil] at ht
      exact merged_of_mem ht
    | append_singleton before t ih =>
      intro hp
      have hstep := List.forall_mem_cons.mp ((merges_iff _ t).mpr (h before t hp))
      rw [addTokens_append, ← List.append_assoc]
      refine List.forall_mem_append.mpr ⟨fun u hu => ?_, List.forall_mem_singleton.mpr hstep.1⟩
      exact (ih ((List.prefix_append _ _).trans hp) u hu).mono hstep.2

/-- Grows with each token that changes the list. -/
def weight (l : TokenList) : Nat := (l.map fun t => t.mt.seqno.toNat + 1).sum

theorem weight_addToken (l : TokenList) (token : MutationToken) :
    addToken l token = l ∧ (∃ u ∈ l, SameMutation token u) ∨
      weight l < weight (addToken l token) := by
  have hadded := addToken_cases l token
  generalize addToken l token = l' at hadded ⊢
  cases hadded with
  | seen h => exact .inl ⟨rfl, h⟩
  | fresh =>
    right
    simp [weight]
  | @lower _ pre post t hl ht hpost =>
    right
    have hseqno : t.mt.seqno.toNat < token.mt.seqno.toNat := ht.2
    subst hl
    simp only [weight, List.map_append, List.map_cons, List.sum_append, List.sum_cons]
    omega

theorem weight_le_addTokens (l : TokenList) (tokens : List MutationToken) :
    weight l ≤ weight (addTokens l tokens) := by
  induction tokens generalizing l with
  | nil => exact Nat.le_refl _
  | cons t tokens ih =>
    have hrest := ih (addToken l t)
    show weight l ≤ weight (addTokens (addToken l t) tokens)
    rcases weight_addToken l t with ⟨heq, -⟩ | hlt
    · rw [heq] at hrest ⊢
      exact hrest
    · omega

/-- **Tokens leave the list alone** exactly when it has every one of them. -/
theorem addTokens_eq_self_iff {l : TokenList} {tokens : List MutationToken} :
    addTokens l tokens = l ↔ ∀ t ∈ tokens, ∃ u ∈ l, SameMutation t u := by
  induction tokens with
  | nil => simp [addTokens]
  | cons t tokens ih =>
    rw [List.forall_mem_cons, ← ih]
    show addTokens (addToken l t) tokens = l ↔ _
    have hrest := weight_le_addTokens (addToken l t) tokens
    constructor
    · intro h
      rw [h] at hrest
      rcases weight_addToken l t with ⟨heq, hseen⟩ | hlt
      · rw [heq] at h
        exact ⟨hseen, h⟩
      · omega
    · rintro ⟨⟨u, hu, hsame⟩, h⟩
      have heq : addToken l t = l := by
        have hadded := addToken_cases l t
        generalize addToken l t = l' at hadded ⊢
        cases hadded with
        | seen => rfl
        | fresh hnot => exact absurd hsame (hnot u hu)
        | lower hnot => exact absurd hsame (hnot u hu)
      rw [heq, h]

/-! ## The calls -/

/-- `MutationState::from`: the object of a call that throws is dropped. -/
def mutationStateFrom (src : TokenSource) : C (Option TokenList) := do
  match ← addSource [] src with
  | (_, some _) => return none
  | (state, none) => return some state

/-- `MutationState::add`: the tokens of the object, and the exception. -/
def mutationStateAdd (state : TokenList) (src : TokenSource) : C Adding := addSource state src

/-- Every token of the source is merged into the list, and no token of the list is lost. -/
structure AllMerged (state : TokenList) (src : TokenSource) (l : TokenList) : Prop where
  added : l = addTokens state src.tokens
  merged : ∀ t ∈ state ++ src.tokens, Merged l t

/-- **A call of `add` is all or nothing.**  A fault is an element that is taken for an object. -/
def AddIsAtomic (state : TokenList) (src : TokenSource) : Prop :=
  match mutationStateAdd state src with
  | .ok (l, some _) => l = state
  | .ok (l, none) => AllMerged state src l
  | .error _ => False

/-- A call of `from` makes the state of all tokens, or none. -/
def FromIsAtomic (src : TokenSource) : Prop :=
  match mutationStateFrom src with
  | .ok (some l) => AllMerged [] src l
  | .ok none => True
  | .error _ => False

/-- A call that does not throw merges its tokens in turn. -/
def AddMergesInTurn (state : TokenList) (src : TokenSource) : Prop :=
  ∀ l, mutationStateAdd state src = .ok (l, none) → MergesInTurn state src.tokens

/-- Every element of an array is an object, and not a reference to one. -/
def TokenSource.AllObjects : TokenSource → Prop
  | .array elems => none ∉ elems
  | _ => True

/-- An array has an object of another class. -/
def TokenSource.HasOther : TokenSource → Prop
  | .array elems => some .other ∈ elems
  | _ => False

/-- **What a call needs**: an array of objects; when one of them is of another class, all the tokens
that the array carries in the state already; else tokens that all fit. -/
structure AddFits (state : TokenList) (src : TokenSource) : Prop where
  objects : src.AllObjects
  other : src.HasOther → ∀ t ∈ src.tokens, ∃ u ∈ state, SameMutation t u
  fits : ¬ src.HasOther → AllMergeFit state src.tokens

/-- What `from` needs: it has nothing to lose when it throws. -/
structure FromFits (src : TokenSource) : Prop where
  objects : src.AllObjects
  fits : ¬ src.HasOther → AllMergeFit [] src.tokens

theorem allMerged_of_inTurn {state : TokenList} {src : TokenSource}
    (h : MergesInTurn state src.tokens) : AllMerged state src (addTokens state src.tokens) :=
  ⟨rfl, h _ List.prefix_rfl⟩

theorem allMergeFit_nil (state : TokenList) : AllMergeFit state [] := by
  intro before t hp
  simp at hp

/-- The exception of one element. -/
theorem addTokenFromZval_exn (st : Adding) (o : TokenObject) :
    ∃ st', addTokenFromZval st (some o) = .ok st' ∧ (st'.2 = none ↔ st.2 = none ∧ o ≠ .other) := by
  cases o with
  | other => exact ⟨_, rfl, by simp⟩
  | mutationToken t => exact ⟨_, rfl, by simp⟩
  | document token =>
    cases token with
    | none => exact ⟨_, rfl, by simp⟩
    | some t => exact ⟨_, rfl, by simp⟩
  | documentFragment token =>
    cases token with
    | none => exact ⟨_, rfl, by simp⟩
    | some t => exact ⟨_, rfl, by simp⟩

/-- The class of anything else than an object is not to be read. -/
theorem addTokenFromZval_defined (o : Option TokenObject) (st : Adding) :
    (∃ st', addTokenFromZval st o = .ok st') ↔ o ≠ none := by
  cases o with
  | none => exact iff_of_false (fun ⟨_, h⟩ => nomatch h) fun h => h rfl
  | some o =>
    obtain ⟨st', h, -⟩ := addTokenFromZval_exn st o
    exact iff_of_true ⟨st', h⟩ (Option.some_ne_none o)

/-- One element that is no object: the loop reads the class of something else. -/
theorem foldlM_addTokenFromZval_error {elems : List (Option TokenObject)} (h : none ∈ elems)
    (st : Adding) : ∃ e, elems.foldlM addTokenFromZval st = .error e := by
  cases hrun : elems.foldlM addTokenFromZval st with
  | error e => exact ⟨e, rfl⟩
  | ok st' =>
    have hall := (exists_foldlM_iff (fun o _ => addTokenFromZval_defined o) st).mp ⟨st', hrun⟩
    exact absurd rfl (hall none h)

/-- **The loop over an array of objects** adds the token of every element, also of those behind one
that it refuses. -/
theorem foldlM_addTokenFromZval_eq {elems : List (Option TokenObject)} (h : none ∉ elems)
    (st : Adding) : ∃ st', elems.foldlM addTokenFromZval st = .ok st' ∧
      st'.1 = addTokens st.1 (elems.filterMap fun e => e.bind TokenObject.token) ∧
      (st'.2 = none ↔ st.2 = none ∧ some .other ∉ elems) := by
  induction elems generalizing st with
  | nil => exact ⟨st, rfl, rfl, by simp⟩
  | cons o elems ih =>
    rw [List.mem_cons, not_or] at h
    obtain ⟨hne, hrest⟩ := h
    cases o with
    | none => exact absurd rfl hne
    | some o =>
      obtain ⟨st₁, hstep, hexn⟩ := addTokenFromZval_exn st o
      obtain ⟨st₂, hrun, -, hexn₂⟩ := ih hrest st₁
      have hall : (some o :: elems).foldlM addTokenFromZval st = .ok st₂ := by
        rw [List.foldlM_cons, hstep]
        exact hrun
      refine ⟨st₂, hall, foldlM_addTokenFromZval hall, ?_⟩
      rw [hexn₂, hexn, List.mem_cons, not_or, and_assoc]
      simp [eq_comm]

/-- What a call leaves behind, when it does not take anything else for an object. -/
theorem addSource_eq {src : TokenSource} (h : src.AllObjects) (state : TokenList) :
    ∃ exn, addSource state src = .ok (addTokens state src.tokens, exn) ∧
      (exn ≠ none → src.HasOther ∨ src.tokens = []) ∧ (src.HasOther → exn ≠ none) := by
  cases src with
  | other => exact ⟨_, rfl, fun _ => .inr rfl, False.elim⟩
  | object o =>
    obtain ⟨⟨l, exn⟩, hstep, hexn⟩ := addTokenFromZval_exn (state, none) o
    have hl : l = addTokens state o.token.toList := addTokenFromZval_tokens hstep
    refine ⟨exn, by rw [addSource, hstep, hl]; rfl, ?_, False.elim⟩
    intro hne
    have ho : o = .other := by
      by_contra hother
      exact hne (hexn.mpr ⟨rfl, hother⟩)
    subst ho
    exact .inr rfl
  | array elems =>
    obtain ⟨⟨l, exn⟩, hrun, hl, hexn⟩ := foldlM_addTokenFromZval_eq h (state, none)
    refine ⟨exn, ?_, ?_, ?_⟩
    · show elems.foldlM addTokenFromZval (state, none) = _
      rw [hrun, show l = _ from hl]
      rfl
    · intro hne
      left
      by_contra hother
      exact hne (hexn.mpr ⟨rfl, hother⟩)
    · intro hother hnone
      exact (hexn.mp hnone).2 hother

/-! ## When a call is all or nothing -/

/-- An element that is taken for an object. -/
theorem addSource_error {src : TokenSource} (h : ¬ src.AllObjects) (state : TokenList) :
    ∃ e, addSource state src = .error e := by
  cases src with
  | array elems => exact foldlM_addTokenFromZval_error (not_not.mp h) (state, none)
  | object o => exact absurd trivial h
  | other => exact absurd trivial h

theorem addIsAtomic_iff (state : TokenList) (src : TokenSource) :
    AddIsAtomic state src ∧ AddMergesInTurn state src ↔ AddFits state src := by
  unfold AddIsAtomic AddMergesInTurn mutationStateAdd
  by_cases hall : src.AllObjects
  · obtain ⟨exn, hrun, hthrown, hother⟩ := addSource_eq hall state
    rw [hrun]
    cases exn with
    | none =>
      have hno : ¬ src.HasOther := fun h => hother h rfl
      constructor
      · rintro ⟨-, hturn⟩
        exact ⟨hall, fun h => absurd h hno, fun _ => (mergesInTurn_iff _ _).mp (hturn _ rfl)⟩
      · intro hfits
        have hturn := (mergesInTurn_iff _ _).mpr (hfits.fits hno)
        exact ⟨allMerged_of_inTurn hturn, fun _ _ => hturn⟩
    | some e =>
      have hsrc := hthrown (Option.some_ne_none e)
      constructor
      · rintro ⟨hself, -⟩
        refine ⟨hall, fun _ => addTokens_eq_self_iff.mp hself, fun hno => ?_⟩
        rw [hsrc.resolve_left hno]
        exact allMergeFit_nil state
      · intro hfits
        refine ⟨?_, fun l hl => nomatch hl⟩
        rcases hsrc with hsrc | hnil
        · exact addTokens_eq_self_iff.mpr (hfits.other hsrc)
        · show addTokens state src.tokens = state
          rw [hnil]
          rfl
  · obtain ⟨e, hrun⟩ := addSource_error hall state
    refine iff_of_false ?_ fun h => hall h.objects
    rw [hrun]
    exact fun h => h.1

theorem fromIsAtomic_iff (src : TokenSource) :
    FromIsAtomic src ∧ AddMergesInTurn [] src ↔ FromFits src := by
  unfold FromIsAtomic AddMergesInTurn mutationStateFrom mutationStateAdd
  by_cases hall : src.AllObjects
  · obtain ⟨exn, hrun, hthrown, hother⟩ := addSource_eq hall []
    rw [hrun, C.bind_ok]
    cases exn with
    | none =>
      have hno : ¬ src.HasOther := fun h => hother h rfl
      constructor
      · rintro ⟨-, hturn⟩
        exact ⟨hall, fun _ => (mergesInTurn_iff _ _).mp (hturn _ rfl)⟩
      · intro hfits
        have hturn := (mergesInTurn_iff _ _).mpr (hfits.fits hno)
        exact ⟨allMerged_of_inTurn hturn, fun _ _ => hturn⟩
    | some e =>
      have hsrc := hthrown (Option.some_ne_none e)
      refine iff_of_true ⟨trivial, fun l hl => nomatch hl⟩ ⟨hall, fun hno => ?_⟩
      rw [hsrc.resolve_left hno]
      exact allMergeFit_nil []
  · obtain ⟨e, hrun⟩ := addSource_error hall []
    refine iff_of_false ?_ fun h => hall h.objects
    rw [hrun]
    exact fun h => h.1

/-- **When `add` and `from` are all or nothing** and merge their tokens in turn: an array holds
objects only, with an object of another class among them `add` finds all tokens of the array in the
state, and otherwise every token fits the list that it is added to. -/
theorem mutation_state_atomic_iff (state : TokenList) (src : TokenSource) :
    (AddIsAtomic state src ∧ AddMergesInTurn state src ↔ AddFits state src) ∧
    (FromIsAtomic src ∧ AddMergesInTurn [] src ↔ FromFits src) :=
  ⟨addIsAtomic_iff state src, fromIsAtomic_iff src⟩

/-- A token and then another object: the call throws and the token stays.  A string in the array is
taken for an object.  A token of another vbucket with a higher seqno overwrites the one before it.
-/
theorem failed_add_keeps_token :
    ¬ AddIsAtomic [] (.array [some (.mutationToken (tokenOf 1 5 77)), some .other]) ∧
      mutationStateAdd [] (.array [none]) = .error .wrongType ∧
      ¬ AddIsAtomic [] (.array [some (.mutationToken (tokenOf 1 5 77)),
        some (.mutationToken (tokenOf 2 7 78))]) := by
  refine ⟨?_, rfl, ?_⟩
  · intro h
    have hempty : addToken [] (tokenOf 1 5 77) = [] := h
    exact absurd hempty (List.cons_ne_nil _ [])
  · intro h
    have hmerged : AllMerged [] _ [tokenOf 2 7 78] := h
    obtain ⟨u, hu, hkey, -⟩ := hmerged.merged (tokenOf 1 5 77) (by simp [TokenSource.tokens,
      TokenObject.token])
    rw [List.mem_singleton.mp hu] at hkey
    exact absurd (congrArg Prod.snd hkey) (by decide)

end PhpCouchbase
