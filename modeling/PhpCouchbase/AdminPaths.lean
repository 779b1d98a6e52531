import PhpCouchbase.AdminRequests
import PhpCouchbase.Lib.PathSegment

/-!
# Paths of the managers' requests

The name of a bucket, a user or a design document goes into the path of a request with `"%*s"`
(`cluster_manager.c`, `bucket_manager.c`): it is not encoded, it is cut at its first NUL and padded
with spaces to its length.

* `sent_paths` — the requests of the eight methods go to the path of their resource.
* `oneSegment_iff` — the path is the prefix and one segment for the name exactly when the name has
  only literal characters, is not one or two dots, and the path fits an `int`.
* `admin_paths_iff` — then, and only then, distinct names are distinct resources below the prefix.
* `query_in_bucket_name` — a question mark in the name begins a query.
-/

set_option autoImplicit false

namespace PhpCouchbase

open PathSegment

/-! ## Resources -/

inductive Resource where
  | bucket
  | localUser
  | externalUser
  | designDocument
  deriving DecidableEq, Repr

/-- The fixed part of the path. -/
def Resource.pre : Resource → Bytes
  | bucket => ascii "/pools/default/buckets/"
  | localUser => ascii "/settings/rbac/users/local/"
  | externalUser => ascii "/settings/rbac/users/external/"
  | designDocument => ascii "/_design/"

/-- The path that the library reads for a name. -/
def Resource.path (r : Resource) (name : Bytes) : C Bytes := requestPath (r.pre ++ printStar name)

/-- A call of one of the methods that take a name. -/
inductive NamedCall where
  | removeBucket
  | getUser (domain : Int64)
  | removeUser (domain : Int64)
  | upsertUser (settings : UserSettings) (domain : Int64)
  | getDesignDocument
  | insertDesignDocument (document : Zval)
  | upsertDesignDocument (document : Zval)
  | removeDesignDocument

def userResource (domain : Int64) : Option Resource :=
  if domain = 1 then some .localUser else if domain = 2 then some .externalUser else none

/-- The kind of resource that a call is about; a domain that is none has no resource. -/
def NamedCall.resource : NamedCall → Option Resource
  | removeBucket => some .bucket
  | getUser domain => userResource domain
  | removeUser domain => userResource domain
  | upsertUser _ domain => userResource domain
  | _ => some .designDocument

variable (php : HttpPhp) (send : AdminRequest → Exchange)
  (urlEncodeHash : List (ArrayKey × Zval) → Option Bytes) {σ : Type} (server : ViewServer σ) (s : σ)

def AdminCall.paths (call : AdminCall) : List (C Bytes) := call.sent.toList.map AdminRequest.path

/-- The path's length is an `int` for the design documents too. -/
def Insertion.paths (run : Insertion σ) : List (C Bytes) :=
  run.sent.map fun cmd => requestPath cmd.path

/-- The paths of the requests that a call sends. -/
def NamedCall.paths (name : Bytes) : NamedCall → List (C Bytes)
  | removeBucket => (PhpCouchbase.removeBucket php send name).paths
  | getUser domain => (PhpCouchbase.getUser php send name domain).paths
  | removeUser domain => (PhpCouchbase.removeUser php send name domain).paths
  | upsertUser settings domain =>
    (PhpCouchbase.upsertUser php send urlEncodeHash name settings domain).paths
  | getDesignDocument => (PhpCouchbase.getDesignDocument php server s name).paths
  | insertDesignDocument document =>
    (PhpCouchbase.insertDesignDocument php server s name document).paths
  | upsertDesignDocument document =>
    (PhpCouchbase.upsertDesignDocument php server s name document).paths
  | removeDesignDocument => (PhpCouchbase.removeDesignDocument php send name).paths

theorem userPath_eq (domain : Int64) (name : Bytes) :
    userPath domain name = (userResource domain).map fun r => r.pre ++ printStar name := by
  unfold userPath userResource
  split_ifs <;> rfl

/-- A call that sends a request for a user sends it to the user's path. -/
theorem userPaths {domain : Int64} {name : Bytes} {call : AdminCall}
    (h : ∀ req, call.sent = some req →
      ∃ path, userPath domain name = some path ∧ req.path = requestPath path) :
    ∀ p ∈ call.paths, ∃ r, userResource domain = some r ∧ p = r.path name := by
  intro p hp
  obtain ⟨req, hreq, rfl⟩ := List.mem_map.mp hp
  obtain ⟨path, hpath, hp⟩ := h req (Option.mem_toList.mp hreq)
  rw [userPath_eq, Option.map_eq_some_iff] at hpath
  obtain ⟨r, hr, rfl⟩ := hpath
  exact ⟨r, hr, hp⟩

theorem designPaths {name : Bytes} {run : Insertion σ} (h : ∀ cmd ∈ run.sent, cmd.path = designPath name) :
    ∀ p ∈ run.paths, p = Resource.designDocument.path name := by
  intro p hp
  obtain ⟨cmd, hcmd, rfl⟩ := List.mem_map.mp hp
  rw [h cmd hcmd]
  rfl

/-- A user's request is sent on the path of the user, if there is one. -/
theorem getUser_sent (name : Bytes) (domain : Int64) :
    (getUser php send name domain).sent =
      (userPath domain name).map fun path => ⟨.get, requestPath path, none, none⟩ := by
  unfold getUser
  cases userPath domain name <;> rfl

theorem removeUser_sent (name : Bytes) (domain : Int64) :
    (removeUser php send name domain).sent =
      (userPath domain name).map fun path => ⟨.delete, requestPath path, contentForm, none⟩ := by
  unfold removeUser
  cases userPath domain name <;> rfl

theorem upsert_sent (name : Bytes) (document : Zval) :
    ∀ cmd ∈ (upsertDesignDocument php server s name document).sent, cmd.path = designPath name := by
  unfold upsertDesignDocument
  intro cmd hcmd
  cases hbody : php.jsonEncode document with
  | none =>
    rw [hbody] at hcmd
    cases hcmd
  | some body =>
    rw [hbody] at hcmd
    cases body with
    | nil => cases hcmd
    | cons c body => exact congrArg HttpCommand.path (List.mem_singleton.mp hcmd)

theorem insert_sent (name : Bytes) (document : Zval) :
    ∀ cmd ∈ (insertDesignDocument php server s name document).sent, cmd.path = designPath name := by
  intro cmd hcmd
  have hrun := insert_cases php server s name document
  generalize insertDesignDocument php server s name document = run at hrun hcmd
  generalize phpArrayExists (firstAnswer php server s name).1 (ascii "error") = found at hrun
  cases hrun with
  | fault e thrown => exact congrArg HttpCommand.path (List.mem_singleton.mp hcmd)
  | refused e => exact congrArg HttpCommand.path (List.mem_singleton.mp hcmd)
  | unencodable h => exact congrArg HttpCommand.path (List.mem_singleton.mp hcmd)
  | textless h thrown => exact congrArg HttpCommand.path (List.mem_singleton.mp hcmd)
  | put h hsent =>
    rw [hsent] at hcmd
    rcases List.mem_cons.mp hcmd with rfl | hcmd
    · rfl
    · exact congrArg HttpCommand.path (List.mem_singleton.mp hcmd)

/-- **Every request goes to the path of the resource** that its call is about. -/
theorem sent_paths (call : NamedCall) (name : Bytes) :
    ∀ p ∈ call.paths php send urlEncodeHash server s name,
      ∃ r, call.resource = some r ∧ p = r.path name := by
  cases call with
  | removeBucket =>
    intro p hp
    exact ⟨.bucket, rfl, List.mem_singleton.mp hp⟩
  | removeDesignDocument =>
    intro p hp
    exact ⟨.designDocument, rfl, List.mem_singleton.mp hp⟩
  | getUser domain =>
    refine userPaths fun req hreq => ?_
    rw [getUser_sent, Option.map_eq_some_iff] at hreq
    obtain ⟨path, hpath, rfl⟩ := hreq
    exact ⟨path, hpath, rfl⟩
  | removeUser domain =>
    refine userPaths fun req hreq => ?_
    rw [removeUser_sent, Option.map_eq_some_iff] at hreq
    obtain ⟨path, hpath, rfl⟩ := hreq
    exact ⟨path, hpath, rfl⟩
  | upsertUser settings domain =>
    refine userPaths fun req hreq => ?_
    obtain ⟨path, text, hpath, -, rfl⟩ := upsertUser_sent php send hreq
    exact ⟨path, hpath, rfl⟩
  | getDesignDocument =>
    intro p hp
    exact ⟨.designDocument, rfl, List.mem_singleton.mp hp⟩
  | insertDesignDocument document =>
    intro p hp
    exact ⟨.designDocument, rfl, designPaths (insert_sent php server s name document) p hp⟩
  | upsertDesignDocument document =>
    intro p hp
    exact ⟨.designDocument, rfl, designPaths (upsert_sent php server s name document) p hp⟩

/-! ## The segment of the name -/

/-- The path is the prefix and one segment, which stands for the name and for no directory. -/
def OneSegment (r : Resource) (name : Bytes) : Prop :=
  ∃ seg, r.path name = .ok (r.pre ++ seg) ∧ decode seg = some name ∧ ¬IsDots name

/-- A name that needs no encoding. -/
structure PlainName (r : Resource) (name : Bytes) : Prop where
  literal : ∀ c ∈ name, isLiteral c = true
  not_dots : ¬IsDots name
  fits : (r.pre ++ name).length < 2 ^ 31

theorem printStar_of_literal {name : Bytes} (h : ∀ c ∈ name, isLiteral c = true)
    (hlen : name.length < 2 ^ 31) : printStar name = name := by
  have hnul : 0 ∉ name := fun h0 => absurd (h 0 h0) (by decide)
  have hcut : (CString.ofBytes name).bytes = name := takeWhile_of_no_nul hnul
  unfold printStar
  simp only [hcut, narrowInt_of_lt hlen, Int.natAbs_natCast, Nat.sub_self, List.replicate_zero,
    List.nil_append]
  rw [if_neg (by omega)]

/-- A segment at the head of a formatted name is at the head of the name. -/
theorem prefix_of_printStar {seg t name : Bytes} (hdec : decode seg = some t)
    (h : seg <+: printStar name) : seg <+: name := by
  have hspace : 32 ∉ seg := fun h32 => absurd (mem_of_decode hdec 32 h32) (by decide)
  have htext : (CString.ofBytes name).bytes <+: name := List.takeWhile_prefix _
  unfold printStar at h
  simp only at h
  split at h
  · -- the padding is behind the text: a segment ends before it
    refine List.IsPrefix.trans ?_ htext
    rcases List.prefix_or_prefix_of_prefix h (List.prefix_append _ _) with hpre | ⟨u, rfl⟩
    · exact hpre
    · cases u with
      | nil => simp
      | cons c u =>
        have hmem : c ∈ List.replicate _ (32 : UInt8) :=
          ((List.prefix_append_right_inj _).mp h).subset List.mem_cons_self
        obtain rfl := (List.mem_replicate.mp hmem).2
        exact absurd (List.mem_append_right _ List.mem_cons_self) hspace
  · -- the padding is in front of it: a segment that is not empty has none
    cases hk : (narrowInt name.length).natAbs - (CString.ofBytes name).bytes.length with
    | zero =>
      rw [hk, List.replicate_zero, List.nil_append] at h
      exact h.trans htext
    | succ k =>
      rw [hk, List.replicate_succ, List.cons_append] at h
      cases seg with
      | nil => exact List.nil_prefix
      | cons c seg =>
        obtain rfl := (List.cons_prefix_cons.mp h).1
        exact absurd List.mem_cons_self hspace

/-- **The name is one segment** exactly when it needs no encoding. -/
theorem oneSegment_iff (r : Resource) (name : Bytes) : OneSegment r name ↔ PlainName r name := by
  constructor
  · rintro ⟨seg, hpath, hdec, hdots⟩
    obtain ⟨hpre, hlen⟩ := prefixOf_eq_ok hpath
    have hseg := prefix_of_printStar hdec ((List.prefix_append_right_inj _).mp hpre)
    have hle := length_of_decode hdec
    obtain rfl := hseg.eq_of_length_le hle.1
    refine ⟨hle.2 (Nat.le_refl _), hdots, ?_⟩
    have := narrowInt_lt (r.pre ++ printStar seg).length
    omega
  · rintro ⟨hlit, hdots, hfits⟩
    refine ⟨name, ?_, decode_of_literal hlit, hdots⟩
    have hlen : name.length < 2 ^ 31 := by
      rw [List.length_append] at hfits
      omega
    rw [Resource.path, requestPath, printStar_of_literal hlit hlen, prefixOf_narrowInt hfits]

/-- Two names are one segment each below the prefix, and distinct resources unless they are equal.
-/
def InjectionFree (r : Resource) (name name' : Bytes) : Prop :=
  OneSegment r name ∧ OneSegment r name' ∧ (r.path name = r.path name' → name = name')

/-- One segment stands for one name. -/
theorem OneSegment.injective {r : Resource} {name name' : Bytes} (h : OneSegment r name)
    (h' : OneSegment r name') (heq : r.path name = r.path name') : name = name' := by
  obtain ⟨seg, hpath, hdec, -⟩ := h
  obtain ⟨seg', hpath', hdec', -⟩ := h'
  rw [hpath, hpath'] at heq
  obtain rfl := List.append_cancel_left (Except.ok.inj heq)
  exact Option.some.inj (hdec.symm.trans hdec')

/-- **The paths of the managers**: the requests of every call go to the path of its resource, and
the names are one segment of it each, distinct for distinct names, exactly when they need no
encoding. -/
theorem admin_paths_iff :
    (∀ call name, ∀ p ∈ NamedCall.paths php send urlEncodeHash server s name call,
      ∃ r, call.resource = some r ∧ p = r.path name) ∧
    ∀ r name name', InjectionFree r name name' ↔ PlainName r name ∧ PlainName r name' := by
  refine ⟨sent_paths php send urlEncodeHash server s, fun r name name' => ?_⟩
  rw [← oneSegment_iff, ← oneSegment_iff]
  constructor
  · rintro ⟨h, h', -⟩
    exact ⟨h, h'⟩
  · rintro ⟨h, h'⟩
    exact ⟨h, h', h.injective h'⟩

/-- A question mark in the name of a bucket begins a query. -/
theorem query_in_bucket_name :
    Resource.path .bucket (ascii "beer?just_validate=1") =
      .ok (ascii "/pools/default/buckets/beer?just_validate=1") ∧
    ¬OneSegment .bucket (ascii "beer?just_validate=1") := by
  refine ⟨by decide, fun h => ?_⟩
  have hplain := (oneSegment_iff .bucket _).mp h
  exact absurd (hplain.literal 63 (by decide)) (by decide)

end PhpCouchbase
