import PhpCouchbase.Authenticator
import PhpCouchbase.Lib.OrderedMap

/-!
# The properties of a bucket

`Bucket::__set` and `Bucket::__get` (`bucket.c`) compare the name of a property with the names of
libcouchbase's settings, one after the other and over the length of the name that was asked for.

* `propertySet`, `propertyGet` — the two methods, over the two chains of comparisons.
* `strncmpEq_iff` — what such a comparison takes for a name: its prefixes, and what goes on behind a
  NUL.
* `bucket_properties_iff` — which names are treated as the property they are, or as none.
* `empty_name` — the empty name is `operationTimeout`, and `n1qlTimeout` cannot be read.
-/

set_option autoImplicit false

namespace PhpCouchbase

open OrderedMap

/-! ## The settings of libcouchbase -/

/-- The commands of `lcb_cntl` that the properties stand for. -/
inductive Setting where
  | opTimeout
  | viewTimeout
  | n1qlTimeout
  | durabilityInterval
  | durabilityTimeout
  | httpTimeout
  | configurationTimeout
  | confdelayThresh
  | configNodeTimeout
  | htconfigIdleTimeout
  | configPollInterval
  deriving DecidableEq, Repr

/-- `lcb_cntl` on an instance: a value is kept for each command. -/
structure LcbCntl (σ : Type) where
  created : σ
  set : σ → Setting → UInt32 → σ
  get : σ → Setting → UInt32
  get_set_self : ∀ s cmd v, get (set s cmd v) cmd = v
  get_set_ne : ∀ s cmd v cmd', cmd' ≠ cmd → get (set s cmd v) cmd' = get s cmd'

/-! ## The methods -/

/-- A chain of comparisons with names, and the commands behind them. -/
abbrev Chain := List (Bytes × Setting)

/-- The chain of `Bucket::__set`; the last name is compared when libcouchbase has its command. -/
def setChain (poll : Bool) : Chain :=
  [(ascii "operationTimeout", .opTimeout),
    (ascii "viewTimeout", .viewTimeout),
    (ascii "n1qlTimeout", .n1qlTimeout),
    (ascii "durabilityInterval", .durabilityInterval),
    (ascii "durabilityTimeout", .durabilityTimeout),
    (ascii "httpTimeout", .httpTimeout),
    (ascii "configTimeout", .configurationTimeout),
    (ascii "configDelay", .confdelayThresh),
    (ascii "configNodeTimeout", .configNodeTimeout),
    (ascii "htconfigIdleTimeout", .htconfigIdleTimeout)] ++
  if poll then [(ascii "configPollInterval", .configPollInterval)] else []

/-- The chain of `Bucket::__get`. -/
def getChain (poll : Bool) : Chain :=
  [(ascii "operationTimeout", .opTimeout),
    (ascii "viewTimeout", .viewTimeout),
    (ascii "durabilityInterval", .durabilityInterval),
    (ascii "durabilityTimeout", .durabilityTimeout),
    (ascii "httpTimeout", .httpTimeout),
    (ascii "configTimeout", .configurationTimeout),
    (ascii "configDelay", .confdelayThresh),
    (ascii "configNodeTimeout", .configNodeTimeout),
    (ascii "htconfigIdleTimeout", .htconfigIdleTimeout)] ++
  if poll then [(ascii "configPollInterval", .configPollInterval)] else []

/-- The command of the first name with `strncmp(name, …, name_len) == 0`. -/
def Chain.command (chain : Chain) (name : Bytes) : Option Setting :=
  (chain.find? fun e => strncmpEq name (.ofBytes e.1)).map Prod.snd

variable {σ : Type}

/-- `Bucket::__set` -/
def propertySet (lib : LcbCntl σ) (poll : Bool) (s : σ) (name : Bytes) (val : Int64) : σ × Zval :=
  let lcbval := val.toUInt64.toUInt32
  match (setChain poll).command name with
  | some cmd => (lib.set s cmd lcbval, .long val)
  | none => (s, .null)

/-- `Bucket::__get` -/
def propertyGet (lib : LcbCntl σ) (poll : Bool) (s : σ) (name : Bytes) : Zval :=
  match (getChain poll).command name with
  | some cmd => .long (lib.get s cmd).toUInt64.toInt64
  | none => .null

/-! ## The comparison -/

/-- **What is taken for a name**: its prefixes, and the name with a NUL and anything behind it. -/
theorem strncmpEq_iff {name text : Bytes} (htext : 0 ∉ text) :
    strncmpEq name (.ofBytes text) = true ↔ name <+: text ∨ text ++ [0] <+: name := by
  have hbytes : (CString.ofBytes text).bytes = text := takeWhile_of_no_nul htext
  unfold strncmpEq
  split
  · rename_i hnul
    have hnot : ¬name <+: text := fun hpre => htext (hpre.subset hnul)
    rw [decide_eq_true_eq, or_iff_right hnot]
    constructor
    · -- what follows the text in the name starts with the NUL
      intro h
      have hfront : name.takeWhile (· ≠ 0) = text := by
        rw [← hbytes, ← h]
        rfl
      obtain ⟨c, rest, hrest⟩ : ∃ c rest, name.dropWhile (· ≠ 0) = c :: rest := by
        refine List.exists_cons_of_ne_nil fun hnil => ?_
        have hall := List.dropWhile_eq_nil_iff.mp hnil 0 hnul
        simp at hall
      have hc : c = 0 := by
        have hhead := List.head?_dropWhile_not (fun c : UInt8 => decide (c ≠ 0)) name
        rw [hrest] at hhead
        simpa using hhead
      refine ⟨rest, ?_⟩
      have hsplit := List.takeWhile_append_dropWhile (p := (· ≠ 0)) (l := name)
      rw [hfront, hrest, hc] at hsplit
      rw [List.append_assoc]
      exact hsplit
    · rintro ⟨rest, rfl⟩
      apply CString.ext
      rw [hbytes]
      change (text ++ [0] ++ rest).takeWhile (· ≠ 0) = text
      rw [List.append_assoc, List.takeWhile_append_of_pos (decide_ne_of_not_mem htext)]
      simp
  · rename_i hnul
    have hnot : ¬text ++ [0] <+: name := fun hpre => hnul (hpre.subset (by simp))
    rw [List.isPrefixOf_iff_prefix, hbytes, or_iff_left hnot]

/-- The names of a chain are plain, and none is the beginning of another one. -/
structure Chain.PrefixFree (chain : Chain) : Prop where
  no_nul : ∀ e ∈ chain, 0 ∉ e.1
  distinct : ∀ e ∈ chain, ∀ e' ∈ chain, e.1 <+: e'.1 → e = e'

instance (chain : Chain) : Decidable chain.PrefixFree :=
  decidable_of_iff ((∀ e ∈ chain, 0 ∉ e.1) ∧ ∀ e ∈ chain, ∀ e' ∈ chain, e.1 <+: e'.1 → e = e')
    ⟨fun h => ⟨h.1, h.2⟩, fun h => ⟨h.no_nul, h.distinct⟩⟩

variable {chain : Chain} {name : Bytes} {cmd : Setting}

theorem command_eq_none_iff (h : chain.PrefixFree) :
    chain.command name = none ↔ ∀ text ∈ keys chain, ¬name <+: text ∧ ¬text ++ [0] <+: name := by
  rw [Chain.command, Option.map_eq_none_iff, List.find?_eq_none]
  constructor
  · intro hnone text htext
    obtain ⟨e, he, rfl⟩ := List.mem_map.mp htext
    have hne := hnone e he
    rw [strncmpEq_iff (h.no_nul e he), not_or] at hne
    exact hne
  · intro hall e he
    rw [strncmpEq_iff (h.no_nul e he), not_or]
    exact hall e.1 (List.mem_map_of_mem he)

/-- A name itself has its own command. -/
theorem command_of_mem (h : chain.PrefixFree) (hmem : (name, cmd) ∈ chain) :
    chain.command name = some cmd := by
  have hself : strncmpEq name (.ofBytes name) = true :=
    (strncmpEq_iff (h.no_nul _ hmem)).mpr (Or.inl List.prefix_rfl)
  -- whatever the name is compared equal with is the name
  have honly : ∀ e ∈ chain, strncmpEq name (.ofBytes e.1) = true → e = (name, cmd) := by
    intro e he heq
    rcases (strncmpEq_iff (h.no_nul e he)).mp heq with hpre | hnul
    · exact (h.distinct _ hmem e he hpre).symm
    · exact absurd (hnul.subset (by simp)) (h.no_nul _ hmem)
  have hsome : (chain.find? fun e => strncmpEq name (.ofBytes e.1)).isSome :=
    List.find?_isSome.mpr ⟨_, hmem, hself⟩
  obtain ⟨e, he⟩ := Option.isSome_iff_exists.mp hsome
  have heq := List.find?_some he
  rw [Chain.command, he, honly e (List.mem_of_find?_eq_some he) heq]
  rfl

/-! ## The two chains -/

theorem prefixFree_setChain (poll : Bool) : (setChain poll).PrefixFree := by
  cases poll <;> decide

/-- **The chains differ** in the timeout of N1QL queries, which `Bucket::__get` leaves out. -/
theorem getChain_eq (poll : Bool) :
    getChain poll = (setChain poll).filter fun e => e.2 ≠ .n1qlTimeout := by
  cases poll <;> rfl

theorem prefixFree_getChain (poll : Bool) : (getChain poll).PrefixFree := by
  have hfree := prefixFree_setChain poll
  have hmem : ∀ e ∈ getChain poll, e ∈ setChain poll := by
    intro e he
    rw [getChain_eq] at he
    exact List.mem_of_mem_filter he
  exact ⟨fun e he => hfree.no_nul e (hmem e he),
    fun e he e' he' => hfree.distinct e (hmem e he) e' (hmem e' he')⟩

theorem n1qlTimeout_of_mem {poll : Bool} (h : (name, Setting.n1qlTimeout) ∈ setChain poll) :
    name = ascii "n1qlTimeout" := by
  cases poll <;> simpa [setChain] using h

theorem command_getChain_n1ql (poll : Bool) :
    (getChain poll).command (ascii "n1qlTimeout") = none := by
  cases poll <;> decide

/-- A name that is no property for `Bucket::__set` is none for `Bucket::__get`. -/
theorem command_getChain_none {poll : Bool} (h : (setChain poll).command name = none) :
    (getChain poll).command name = none := by
  rw [command_eq_none_iff (prefixFree_getChain poll)]
  intro text htext
  obtain ⟨e, he, rfl⟩ := List.mem_map.mp htext
  rw [getChain_eq] at he
  exact (command_eq_none_iff (prefixFree_setChain poll)).mp h e.1
    (List.mem_map_of_mem (List.mem_of_mem_filter he))

/-! ## Names and properties -/

/-- A name is treated as the property that it is, or as none: `Bucket::__set` changes the one
setting that `Bucket::__get` then reads, or nothing. -/
structure ExactName (lib : LcbCntl σ) (poll : Bool) (name : Bytes) (n : UInt32) : Prop where
  property : ∀ cmd, (name, cmd) ∈ setChain poll → ∀ s,
    (∀ cmd', lib.get (propertySet lib poll s name n.toUInt64.toInt64).1 cmd' =
      if cmd' = cmd then n else lib.get s cmd') ∧
    propertyGet lib poll (propertySet lib poll s name n.toUInt64.toInt64).1 name =
      .long n.toUInt64.toInt64
  other : name ∉ keys (setChain poll) → ∀ s,
    (∀ cmd', lib.get (propertySet lib poll s name n.toUInt64.toInt64).1 cmd' = lib.get s cmd') ∧
    propertyGet lib poll s name = .null

/-- Names that the comparisons treat so: the properties but for `n1qlTimeout`, and whatever is
neither the beginning of one nor goes on behind one with a NUL. -/
def Unambiguous (poll : Bool) (name : Bytes) : Prop :=
  name ≠ ascii "n1qlTimeout" ∧ (name ∈ keys (setChain poll) ∨
    ∀ text ∈ keys (setChain poll), ¬name <+: text ∧ ¬text ++ [0] <+: name)

theorem toUInt32_toInt64 (n : UInt32) : n.toUInt64.toInt64.toUInt64.toUInt32 = n := by simp

theorem propertySet_some (lib : LcbCntl σ) {poll : Bool}
    (h : (setChain poll).command name = some cmd) (s : σ) (n : UInt32) :
    (propertySet lib poll s name n.toUInt64.toInt64).1 = lib.set s cmd n := by
  simp only [propertySet, h, toUInt32_toInt64]

theorem propertySet_none (lib : LcbCntl σ) {poll : Bool} (h : (setChain poll).command name = none)
    (s : σ) (val : Int64) : (propertySet lib poll s name val).1 = s := by
  simp only [propertySet, h]

theorem exactName_property {lib : LcbCntl σ} {poll : Bool} (hmem : (name, cmd) ∈ setChain poll)
    (hname : name ≠ ascii "n1qlTimeout") (s : σ) (n : UInt32) :
    (∀ cmd', lib.get (propertySet lib poll s name n.toUInt64.toInt64).1 cmd' =
      if cmd' = cmd then n else lib.get s cmd') ∧
    propertyGet lib poll (propertySet lib poll s name n.toUInt64.toInt64).1 name =
      .long n.toUInt64.toInt64 := by
  have hcmd : cmd ≠ .n1qlTimeout := by
    rintro rfl
    exact hname (n1qlTimeout_of_mem hmem)
  have hget : (name, cmd) ∈ getChain poll := by
    rw [getChain_eq, List.mem_filter]
    exact ⟨hmem, decide_eq_true hcmd⟩
  rw [propertySet_some lib (command_of_mem (prefixFree_setChain poll) hmem)]
  constructor
  · intro cmd'
    split
    · rename_i heq
      rw [heq, lib.get_set_self]
    · rename_i hne
      exact lib.get_set_ne s cmd n cmd' hne
  · simp only [propertyGet, command_of_mem (prefixFree_getChain poll) hget, lib.get_set_self]

/-- A name that is only compared equal changes a setting. -/
theorem not_exactName_of_command {lib : LcbCntl σ} {poll : Bool}
    (h : (setChain poll).command name = some cmd) (hname : name ∉ keys (setChain poll))
    (n : UInt32) : ¬ExactName lib poll name n := by
  intro hexact
  -- a state where the setting has another value
  have hkept := (hexact.other hname (lib.set lib.created cmd (n + 1))).1 cmd
  rw [propertySet_some lib h, lib.get_set_self, lib.get_set_self] at hkept
  exact absurd hkept (by simp)

/-- **Property names.**  For every name and every value, `Bucket::__set` and `Bucket::__get` treat
the name as the property that it is exactly when the comparisons can tell. -/
theorem bucket_properties_iff (lib : LcbCntl σ) (poll : Bool) (name : Bytes) (n : UInt32) :
    ExactName lib poll name n ↔ Unambiguous poll name := by
  have hnone : (setChain poll).command name = none ↔
      ∀ text ∈ keys (setChain poll), ¬name <+: text ∧ ¬text ++ [0] <+: name :=
    command_eq_none_iff (prefixFree_setChain poll)
  constructor
  · intro h
    constructor
    · rintro rfl
      have hread := (h.property .n1qlTimeout (by cases poll <;> decide) lib.created).2
      simp only [propertyGet, command_getChain_n1ql] at hread
      cases hread
    · by_cases hname : name ∈ keys (setChain poll)
      · exact Or.inl hname
      · right
        rw [← hnone]
        cases hcmd : (setChain poll).command name with
        | none => rfl
        | some cmd => exact absurd h (not_exactName_of_command hcmd hname n)
  · rintro ⟨hn1ql, hname⟩
    constructor
    · intro cmd hmem s
      exact exactName_property hmem hn1ql s n
    · intro hnot s
      have hset := hnone.mpr (hname.resolve_left hnot)
      rw [propertySet_none lib hset]
      refine ⟨fun cmd' => rfl, ?_⟩
      simp only [propertyGet, command_getChain_none hset]

/-! ## Concrete names -/

/-- Settings that are kept in a table. -/
def tableCntl : LcbCntl (Setting → UInt32) where
  created _ := 0
  set s cmd v cmd' := if cmd' = cmd then v else s cmd'
  get s cmd := s cmd
  get_set_self _ _ _ := if_pos rfl
  get_set_ne _ _ _ _ h := if_neg h

/-- **The empty name** sets the timeout of operations, `durability` the interval of polling, and
`n1qlTimeout` reads as null behind its own assignment. -/
theorem empty_name :
    (propertySet tableCntl true tableCntl.created [] 243).1 .opTimeout = 243 ∧
    (propertySet tableCntl true tableCntl.created (ascii "durability") 243).1 .durabilityInterval =
      243 ∧
    (propertySet tableCntl true tableCntl.created (ascii "n1qlTimeout") 243).1 .n1qlTimeout = 243 ∧
    ¬ExactName tableCntl true [] 243 ∧ ¬ExactName tableCntl true (ascii "n1qlTimeout") 243 := by
  refine ⟨by decide, by decide, by decide, ?_, ?_⟩
  · have hempty : (setChain true).command [] = some .opTimeout := by decide
    exact not_exactName_of_command hempty (by decide) 243
  · intro h
    have hread := (h.property .n1qlTimeout (by decide) tableCntl.created).2
    simp only [propertyGet, command_getChain_n1ql] at hread
    cases hread

end PhpCouchbase
