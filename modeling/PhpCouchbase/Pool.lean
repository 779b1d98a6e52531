import PhpCouchbase.Authenticator
import PhpCouchbase.Lib.OrderedMap
import PhpCouchbase.Lib.StepSystem

/-!
# The pool of connections

`pcbc_connection_get` of `pool.c`, behind `Cluster::openBucket` and `Cluster::manager` of
`cluster.c`. Connections are pooled for the life of the process, under a key made of the connection
type, the normalised connection string and an MD5 digest of the credentials.  A call whose key is
found is handed the connection that another call opened.

* `generate_entries` — what is fed to MD5 and what libcouchbase is given, from the pairs that a call
  supplies.
* `connection_reuse_safe` — equal keys mean equal credentials **exactly when** the pairs of the two calls
  do not run together.
* `mode_of_spelled` — pairs that are fed as the same bytes come from one kind of authenticator.
* `movedBoundary_iff` — two password authenticators run together when a boundary moves.
* `pool_hands_out_own` — runs of such calls: every connection handed out has the caller's
  credentials.
* `moved_boundary_reuses` — two users whose names and passwords run together share a connection.
-/

set_option autoImplicit false

namespace PhpCouchbase

open OrderedMap StepSystem

/-! ## The key -/

/-- The parts of `php_url` that are used; a port that is not given is 0. -/
structure Url where
  scheme : Option CString
  host : Option CString
  port : UInt16
  path : Option CString
  query : Option CString

/-- `scheme://host:port` of a rebuilt connection string. -/
def Url.authority (url : Url) : Bytes :=
  (match url.scheme with
    | some s => s.bytes ++ ascii "://"
    | none => []) ++
  (match url.host with
    | some h => h.bytes
    | none => []) ++
  (if url.port ≠ 0 then ascii ":" ++ decimal url.port.toNat else [])

/-- `?query` of a rebuilt connection string. -/
def Url.querySuffix (url : Url) : Bytes :=
  match url.query with
  | some q => ascii "?" ++ q.bytes
  | none => []

/-- `pcbc_normalize_connstr`; `none` is `LCB_EINVAL`. -/
def normalizeConnstr (parse : Bytes → Option Url) (type : LcbType) (connstr : CString)
    (bucketname : Option CString) : Option Bytes := do
  let url ← parse connstr.bytes
  -- hosts that have gone into the path get a scheme
  let (connstr, url) ←
    if url.scheme = none ∧ url.host = none then
      let withSchema := ascii "couchbase://" ++ connstr.bytes
      (parse withSchema).map fun url => (withSchema, url)
    else some (connstr.bytes, url)
  match type with
  | .bucket =>
    match bucketname with
    | some b =>
      if b.bytes ≠ [] then return url.authority ++ ascii "/" ++ b.bytes ++ url.querySuffix
      else return connstr
    | none => return connstr
  | .cluster =>
    match url.path with
    | some path => if path.bytes ≠ [] then return url.authority ++ url.querySuffix else return connstr
    | none => return connstr

/-- The number of a connection type. -/
def typeCode : LcbType → Nat
  | .bucket => 0
  | .cluster => 1

/-- `plist_key`; `md5` is the digest as hexadecimal text. -/
def plistKey (md5 : Bytes → Bytes) (type : LcbType) (cstr : Bytes) (fields : List Bytes) : Bytes :=
  decimal (typeCode type) ++ ascii "|" ++ cstr ++ ascii "|" ++ md5 fields.flatten

/-- What is opened: a bucket, or a cluster for management. -/
inductive Target where
  | bucket (name : Bytes) (password : Option CString)
  | cluster (name password : Option CString)

/-- The bucket that `Cluster::openBucket` opens: an empty name is `DEFAULT_BUCKET_NAME`. -/
def openedName (name : Bytes) : CString := if name = [] then .ofBytes (ascii "default") else .ofBytes name

/-- A call of `Cluster::openBucket` or `Cluster::manager`. -/
structure ConnectCall where
  connstr : CString
  auth : Authenticator
  target : Target

def ConnectCall.type (call : ConnectCall) : LcbType :=
  match call.target with
  | .bucket _ _ => .bucket
  | .cluster _ _ => .cluster

/-- The name and password arguments of the generators. -/
def ConnectCall.extra (call : ConnectCall) : Option CString × Option CString :=
  match call.target with
  | .bucket name password => (some (openedName name), password)
  | .cluster name password => (name, password)

/-- The bucket name for the connection string. -/
def ConnectCall.bucketname (call : ConnectCall) : Option CString :=
  match call.target with
  | .bucket name _ => some (openedName name)
  | .cluster _ _ => none

/-- What a call has computed when it looks into the pool. -/
structure Prepared where
  cstr : Bytes
  generated : Generated

/-- `pcbc_bucket_init` and `pcbc_cluster_manager_init` up to the lookup. -/
def prepare (parse : Bytes → Option Url) (call : ConnectCall) : C (Option Prepared) := do
  let g ← generate call.auth call.type call.extra.1 call.extra.2
  return (normalizeConnstr parse call.type call.connstr call.bucketname).map fun cstr => ⟨cstr, g⟩

/-- The key of a call. -/
def Prepared.key (md5 : Bytes → Bytes) (call : ConnectCall) (p : Prepared) : Bytes :=
  plistKey md5 call.type p.cstr p.generated.fields

/-! ## The pairs that a call supplies -/

/-- Under which tag a user name and a password are fed to MD5. -/
inductive EntryKind where
  | rbac
  | rbacExtra
  | cluster
  | bucket
  | extraBucket
  | extraCluster
  /-- the name of a bucket whose own pair is not added -/
  | bare
  deriving DecidableEq, Repr

def EntryKind.tag : EntryKind → Bytes
  | rbac => PhpCouchbase.tag "rbac"
  | rbacExtra => PhpCouchbase.tag "rbac-extra"
  | cluster => PhpCouchbase.tag "cluster"
  | bucket => PhpCouchbase.tag "bucket"
  | extraBucket => PhpCouchbase.tag "extra-bucket"
  | extraCluster => PhpCouchbase.tag "extra-cluster"
  | bare => []

/-- A user name and a password. -/
structure Entry where
  kind : EntryKind
  user : Bytes
  pass : Bytes
  deriving DecidableEq

/-- The pair of a `PasswordAuthenticator`, or the arguments. -/
def passwordEntry (auth : PasswordAuthenticator) (name password : Option CString) : Entry :=
  match name, password with
  | some name, some password => ⟨.rbacExtra, name.bytes, password.bytes⟩
  | _, _ => ⟨.rbac, auth.username, auth.password⟩

/-- What the arguments are fed as behind a `ClassicAuthenticator`. -/
def lastKind (buckets : List (Bytes × Bytes)) (type : LcbType) (name : CString)
    (password : Option CString) : EntryKind :=
  match type with
  | .bucket => if writesExtra buckets .bucket name password then .extraBucket else .bare
  | .cluster => .extraCluster

/-- The pairs of a `ClassicAuthenticator`, and the arguments. -/
def classicEntries (cluster : Option (Bytes × Bytes)) (buckets : List (Bytes × Bytes))
    (type : LcbType) (name : CString) (password : Option CString) : List Entry :=
  (cluster.toList.map fun cred => ⟨.cluster, cred.1, cred.2⟩) ++
    (buckets.map fun cred => ⟨.bucket, cred.1, cred.2⟩) ++
    [⟨lastKind buckets type name password, name.bytes, (password.getD (.ofBytes [])).bytes⟩]

/-- The pairs that a call supplies; none without a name for a classic authenticator. -/
def ConnectCall.entries (call : ConnectCall) : Option (List Entry) :=
  match call.auth with
  | .unset => call.extra.1.map fun name => classicEntries none [] call.type name call.extra.2
  | .classic a =>
    call.extra.1.map fun name => classicEntries a.cluster a.buckets call.type name call.extra.2
  | .password a => some [passwordEntry a call.extra.1 call.extra.2]

/-- Tag, name and password, one after the other. -/
def Entry.spelled (e : Entry) : Bytes := e.kind.tag ++ e.user ++ e.pass

def spelled (es : List Entry) : Bytes := es.flatMap Entry.spelled

/-! ## What counts of them -/

/-- The bucket whose own pair is not added. -/
def bareName (es : List Entry) : Option CString :=
  es.getLast?.bind fun e => if e.kind = .bare then some (.ofBytes e.user) else none

/-- A pair for the cluster: that of a registered bucket is one when this bucket is opened. -/
def Entry.clusterPair (bare : Option CString) (e : Entry) : Option (CString × CString) :=
  match e.kind with
  | .bare => none
  | .bucket => if bare = some (.ofBytes e.user) then some (.ofBytes e.user, .ofBytes e.pass) else none
  | _ => some (.ofBytes e.user, .ofBytes e.pass)

/-- The pair for the cluster is the last one. -/
def clusterPair (es : List Entry) : Option (CString × CString) :=
  (es.filterMap (Entry.clusterPair (bareName es))).getLast?

def Entry.bucketPair (e : Entry) : Option (CString × CString) :=
  match e.kind with
  | .bucket => some (.ofBytes e.user, .ofBytes e.pass)
  | .extraBucket => some (.ofBytes e.user, .ofBytes e.pass)
  | _ => none

def bucketPairs (es : List Entry) : List (CString × CString) := es.filterMap Entry.bucketPair

def ConnectCall.mode (call : ConnectCall) : AuthMode :=
  match call.auth with
  | .password _ => .rbac
  | _ => .classic

/-- The boundary between the name and the password has moved: tag and text are the same, but a name
or a password is another C string. -/
structure MovedBoundary (e e' : Entry) : Prop where
  kind : e.kind = e'.kind
  joined : e.user ++ e.pass = e'.user ++ e'.pass
  moved : ¬(CString.ofBytes e.user = .ofBytes e'.user ∧ CString.ofBytes e.pass = .ofBytes e'.pass)

/-- The pairs are fed as the same bytes, but the pair for the cluster or the pairs for the buckets
are others. -/
structure MovedBoundaries (es es' : List Entry) : Prop where
  spelled : spelled es = spelled es'
  moved : ¬(clusterPair es = clusterPair es' ∧
    ∀ pair, pair ∈ bucketPairs es ↔ pair ∈ bucketPairs es')

/-- **The pairs of two calls run together.**  A `PasswordAuthenticator` supplies one pair; it has
nothing in common with the others, whose pairs are tagged otherwise. -/
def RunTogether (a b : ConnectCall) : Prop :=
  match a.auth, b.auth with
  | .password p, .password q =>
    MovedBoundary (passwordEntry p a.extra.1 a.extra.2) (passwordEntry q b.extra.1 b.extra.2)
  | .password _, _ => False
  | _, .password _ => False
  | _, _ => ∃ es es', a.entries = some es ∧ b.entries = some es' ∧ MovedBoundaries es es'

/-! ## Two calls -/

/-- The last pair added for the cluster. -/
def LcbAuth.clusterCredential (auth : LcbAuth) : Option (CString × CString) :=
  (auth.passes.filterMap fun p => if p.flag = .cluster then some (p.user, p.pass) else none).getLast?

/-- The same kind, the same cluster user and password, and the same set of bucket entries. -/
structure SameCredentials (a b : LcbAuth) : Prop where
  mode : a.mode = b.mode
  cluster : a.clusterCredential = b.clusterCredential
  buckets : ∀ user pass, ⟨user, pass, .bucket⟩ ∈ a.passes ↔ ⟨user, pass, .bucket⟩ ∈ b.passes

variable {md5 : Bytes → Bytes} {parse : Bytes → Option Url} {a b call : ConnectCall}

/-- **Reuse is safe** between two calls: if their keys are equal, so are their credentials. -/
def ReuseSafe (md5 : Bytes → Bytes) (parse : Bytes → Option Url) (a b : ConnectCall) : Prop :=
  ∀ p q, prepare parse a = .ok (some p) → prepare parse b = .ok (some q) →
    p.key md5 a = q.key md5 b → SameCredentials p.generated.lcb q.generated.lcb

/-- The normalised connection string. -/
def ConnectCall.place (parse : Bytes → Option Url) (call : ConnectCall) : Option Bytes :=
  normalizeConnstr parse call.type call.connstr call.bucketname

/-- Two calls for one normalised connection string. -/
def SamePlace (parse : Bytes → Option Url) (a b : ConnectCall) : Prop :=
  a.place parse = b.place parse ∧ (a.place parse).isSome

/-- MD5 does not collide on what the two calls feed to it. -/
def CollisionFree (md5 : Bytes → Bytes) (a b : ConnectCall) : Prop :=
  ∀ es es', a.entries = some es → b.entries = some es' →
    md5 (spelled es) = md5 (spelled es') → spelled es = spelled es'

/-- A digest has a fixed length, so a key determines its parts. -/
theorem key_injective {front cstr cstr' sep digest digest' : Bytes}
    (hlen : digest.length = digest'.length) :
    front ++ cstr ++ sep ++ digest = front ++ cstr' ++ sep ++ digest' ↔
      cstr = cstr' ∧ digest = digest' := by
  constructor
  · intro h
    obtain ⟨hfront, hdigest⟩ := List.append_inj' h hlen
    obtain ⟨hfront, -⟩ := List.append_inj' hfront rfl
    exact ⟨List.append_cancel_left hfront, hdigest⟩
  · rintro ⟨rfl, rfl⟩
    rfl

theorem plistKey_injective (hlen : ∀ x, (md5 x).length = 32) {type : LcbType} {cstr cstr' : Bytes}
    {fields fields' : List Bytes} :
    plistKey md5 type cstr fields = plistKey md5 type cstr' fields' ↔
      cstr = cstr' ∧ md5 fields.flatten = md5 fields'.flatten :=
  key_injective ((hlen _).trans (hlen _).symm)

/-! ## The generators and the pairs -/

/-- What a generator makes of pairs: it feeds them to MD5, and gives libcouchbase what counts. -/
structure Renders (mode : AuthMode) (es : List Entry) (g : Generated) : Prop where
  fed : g.fields.flatten = spelled es
  mode : g.lcb.mode = mode
  cluster : g.lcb.clusterCredential = clusterPair es
  buckets : ∀ user pass, ⟨user, pass, .bucket⟩ ∈ g.lcb.passes ↔ (user, pass) ∈ bucketPairs es

theorem password_renders (auth : PasswordAuthenticator) (name password : Option CString) :
    Renders .rbac [passwordEntry auth name password] (generatePassword auth name password) := by
  have hown : Renders .rbac [⟨.rbac, auth.username, auth.password⟩]
      ⟨⟨.rbac, [⟨.ofBytes auth.username, .ofBytes auth.password, .cluster⟩]⟩,
        [tag "rbac", auth.username, auth.password]⟩ := by
    refine ⟨?_, rfl, rfl, ?_⟩
    · simp [spelled, Entry.spelled, EntryKind.tag]
    · simp [bucketPairs, Entry.bucketPair]
  cases name with
  | none => exact hown
  | some name =>
    cases password with
    | none => exact hown
    | some password =>
      refine ⟨?_, rfl, ?_, ?_⟩
      · simp [generatePassword, passwordEntry, spelled, Entry.spelled, EntryKind.tag]
      · simp [generatePassword, passwordEntry, LcbAuth.clusterCredential, clusterPair,
          Entry.clusterPair, ofBytes_bytes]
      · simp [generatePassword, passwordEntry, bucketPairs, Entry.bucketPair]

theorem bareName_classic (cluster : Option (Bytes × Bytes)) (buckets : List (Bytes × Bytes))
    (type : LcbType) (name : CString) (password : Option CString) :
    bareName (classicEntries cluster buckets type name password) =
      if writesExtra buckets type name password then none else some name := by
  rw [bareName, classicEntries, List.getLast?_concat, Option.bind_some, ofBytes_bytes]
  cases type with
  | cluster => rfl
  | bucket =>
    rw [lastKind]
    cases writesExtra buckets .bucket name password <;> rfl

/-- A pair for the cluster among the calls of `lcbauth_add_pass`. -/
def AddPass.clusterPair (p : AddPass) : Option (CString × CString) :=
  if p.flag = .cluster then some (p.user, p.pass) else none

/-- The cluster pairs of the registered buckets. -/
theorem clusterPairs_buckets {buckets : List (Bytes × Bytes)} (type : LcbType) (name : CString)
    (password : Option CString) :
    (buckets.flatMap (bucketPasses type name password)).filterMap AddPass.clusterPair =
      (buckets.map fun cred => Entry.mk .bucket cred.1 cred.2).filterMap
        (Entry.clusterPair (if writesExtra buckets type name password then none else some name)) := by
  have heach : ∀ cred ∈ buckets,
      (bucketPasses type name password cred).filterMap AddPass.clusterPair =
        (Entry.clusterPair (if writesExtra buckets type name password then none else some name)
          ⟨.bucket, cred.1, cred.2⟩).toList := by
    intro cred hcred
    rw [bucketPasses_eq hcred, List.filterMap_append]
    cases hextra : writesExtra buckets type name password with
    | true => simp [AddPass.clusterPair, Entry.clusterPair]
    | false =>
      by_cases hname : CString.ofBytes cred.1 = name
      · simp [AddPass.clusterPair, Entry.clusterPair, hname]
      · simp [AddPass.clusterPair, Entry.clusterPair, hname, Ne.symm hname]
  rw [List.filterMap_flatMap, List.filterMap_map, List.filterMap_eq_flatMap_toList]
  exact List.flatMap_congr heach

/-- The registered buckets are fed under their tag. -/
theorem flatten_bucketFields (buckets : List (Bytes × Bytes)) :
    (buckets.flatMap bucketFields).flatten =
      spelled (buckets.map fun cred => ⟨.bucket, cred.1, cred.2⟩) := by
  induction buckets with
  | nil => rfl
  | cons cred buckets ih =>
    rw [List.flatMap_cons, List.flatten_append, ih]
    simp [bucketFields, spelled, Entry.spelled, EntryKind.tag]

theorem flatten_clusterFields (cluster : Option (Bytes × Bytes)) :
    (cluster.toList.flatMap fun cred => [tag "cluster", cred.1, cred.2]).flatten =
      spelled (cluster.toList.map fun cred => ⟨.cluster, cred.1, cred.2⟩) := by
  cases cluster <;> simp [spelled, Entry.spelled, EntryKind.tag]

theorem flatten_extraTag (buckets : List (Bytes × Bytes)) (type : LcbType) (name : CString)
    (password : Option CString) :
    (extraTag type (writesExtra buckets type name password)).flatten =
      (lastKind buckets type name password).tag := by
  cases type with
  | cluster => simp [extraTag, lastKind, EntryKind.tag]
  | bucket =>
    cases hextra : writesExtra buckets .bucket name password <;>
      simp [extraTag, lastKind, EntryKind.tag, hextra]

theorem bucketPairs_append (es es' : List Entry) :
    bucketPairs (es ++ es') = bucketPairs es ++ bucketPairs es' := List.filterMap_append

/-- The calls of `lcbauth_add_pass` for a bucket are those of the registered ones, and one for the
arguments. -/
theorem bucketPairs_buckets {buckets : List (Bytes × Bytes)} (type : LcbType) (name : CString)
    (password : Option CString) (user pass : CString) :
    ⟨user, pass, .bucket⟩ ∈ buckets.flatMap (bucketPasses type name password) ↔
      (user, pass) ∈ bucketPairs (buckets.map fun cred => ⟨.bucket, cred.1, cred.2⟩) := by
  rw [bucketPairs, List.filterMap_map, List.mem_flatMap, List.mem_filterMap]
  refine exists_congr fun cred => and_congr_right fun _ => ?_
  rw [bucketPasses, List.mem_append, List.mem_singleton]
  constructor
  · rintro (h | h)
    · split at h
      · cases List.mem_singleton.mp h
      · cases h
    · cases h
      rfl
  · intro h
    cases h
    exact .inr rfl

/-- What a classic authenticator generates, with the last pair as `extraTag` and `extraPasses` have
it. -/
theorem generateClassic_ok (auth : Option ClassicAuthenticator) (type : LcbType) (name : CString)
    (password : Option CString) :
    let cluster := auth.bind ClassicAuthenticator.cluster
    let buckets := (auth.map ClassicAuthenticator.buckets).getD []
    let pass := password.getD (.ofBytes [])
    let extra := writesExtra buckets type name password
    generateClassic auth type (some name) password = .ok
      ⟨⟨.classic, (cluster.toList.map fun cred => ⟨.ofBytes cred.1, .ofBytes cred.2, .cluster⟩) ++
          buckets.flatMap (bucketPasses type name password) ++ extraPasses type extra name pass⟩,
        (cluster.toList.flatMap fun cred => [tag "cluster", cred.1, cred.2]) ++
          buckets.flatMap bucketFields ++ extraTag type extra ++ [name.bytes, pass.bytes]⟩ := by
  cases type <;> rfl

theorem classic_renders (auth : Option ClassicAuthenticator) (type : LcbType) (name : CString)
    (password : Option CString) :
    ∃ g, generateClassic auth type (some name) password = .ok g ∧
      Renders .classic (classicEntries (auth.bind ClassicAuthenticator.cluster)
        ((auth.map ClassicAuthenticator.buckets).getD []) type name password) g := by
  refine ⟨_, generateClassic_ok auth type name password, ?_⟩
  generalize auth.bind ClassicAuthenticator.cluster = cluster
  generalize (auth.map ClassicAuthenticator.buckets).getD [] = buckets
  generalize hpass : password.getD (.ofBytes []) = pass
  refine ⟨?_, rfl, ?_, fun user bucketPass => ?_⟩
  · rw [List.flatten_append, List.flatten_append, List.flatten_append, flatten_clusterFields,
      flatten_bucketFields, flatten_extraTag, classicEntries, hpass]
    simp [spelled, Entry.spelled]
  · rw [clusterPair, bareName_classic, classicEntries, List.filterMap_append, List.filterMap_append,
      ← clusterPairs_buckets, hpass]
    show List.getLast? (List.filterMap AddPass.clusterPair _) = _
    rw [List.filterMap_append, List.filterMap_append]
    congr 2
    · congr 1
      cases cluster <;> rfl
    · cases type with
      | cluster => simp [extraPasses, AddPass.clusterPair, Entry.clusterPair, lastKind, ofBytes_bytes]
      | bucket =>
        cases hextra : writesExtra buckets .bucket name password <;>
          simp [extraPasses, AddPass.clusterPair, Entry.clusterPair, lastKind, hextra, ofBytes_bytes]
  · rw [List.mem_append, List.mem_append, bucketPairs_buckets, classicEntries, bucketPairs_append,
      bucketPairs_append, List.mem_append, List.mem_append, hpass]
    have hcluster : (⟨user, bucketPass, .bucket⟩ : AddPass) ∉
        cluster.toList.map fun cred => ⟨.ofBytes cred.1, .ofBytes cred.2, .cluster⟩ := by
      cases cluster <;> simp
    have hcluster' : (user, bucketPass) ∉
        bucketPairs (cluster.toList.map fun cred => ⟨.cluster, cred.1, cred.2⟩) := by
      cases cluster <;> simp [bucketPairs, Entry.bucketPair]
    refine or_congr (or_congr (iff_of_false hcluster hcluster') Iff.rfl) ?_
    cases type with
    | cluster => simp [extraPasses, bucketPairs, Entry.bucketPair, lastKind]
    | bucket =>
      cases hextra : writesExtra buckets .bucket name password <;>
        simp [extraPasses, bucketPairs, Entry.bucketPair, lastKind, hextra, ofBytes_bytes]

/-- **What is generated for a call**, from the pairs that it supplies. -/
theorem generate_entries (call : ConnectCall) :
    (call.entries = none ∧
      generate call.auth call.type call.extra.1 call.extra.2 = .error .nullPointer) ∨
    ∃ es g, call.entries = some es ∧
      generate call.auth call.type call.extra.1 call.extra.2 = .ok g ∧ Renders call.mode es g := by
  unfold ConnectCall.entries generate ConnectCall.mode
  have hclassic : ∀ auth : Option ClassicAuthenticator,
      (call.extra.1.map (fun name => classicEntries (auth.bind ClassicAuthenticator.cluster)
          ((auth.map ClassicAuthenticator.buckets).getD []) call.type name call.extra.2) = none ∧
        generateClassic auth call.type call.extra.1 call.extra.2 = .error .nullPointer) ∨
      ∃ es g, call.extra.1.map (fun name => classicEntries (auth.bind ClassicAuthenticator.cluster)
          ((auth.map ClassicAuthenticator.buckets).getD []) call.type name call.extra.2) = some es ∧
        generateClassic auth call.type call.extra.1 call.extra.2 = .ok g ∧ Renders .classic es g := by
    intro auth
    cases call.extra.1 with
    | none => exact .inl ⟨rfl, rfl⟩
    | some name =>
      obtain ⟨g, hg, hrenders⟩ := classic_renders auth call.type name call.extra.2
      exact .inr ⟨_, g, rfl, hg, hrenders⟩
  cases call.auth with
  | unset => exact hclassic none
  | classic a => exact hclassic (some a)
  | password a => exact .inr ⟨_, _, rfl, rfl, password_renders a call.extra.1 call.extra.2⟩

theorem prepare_eq_some_iff {p : Prepared} :
    prepare parse call = .ok (some p) ↔
      generate call.auth call.type call.extra.1 call.extra.2 = .ok p.generated ∧
        call.place parse = some p.cstr := by
  unfold prepare ConnectCall.place
  cases generate call.auth call.type call.extra.1 call.extra.2 with
  | error f => exact iff_of_false nofun nofun
  | ok g =>
    rw [C.bind_ok, C.pure_eq, Except.ok.injEq, Option.map_eq_some_iff, Except.ok.injEq]
    constructor
    · rintro ⟨cstr, hcstr, rfl⟩
      exact ⟨rfl, hcstr⟩
    · rintro ⟨rfl, hcstr⟩
      exact ⟨p.cstr, hcstr, rfl⟩

/-- The pairs of a call that looks into the pool. -/
theorem entries_of_prepare {p : Prepared} (h : prepare parse call = .ok (some p)) :
    ∃ es, call.entries = some es ∧ Renders call.mode es p.generated ∧ call.place parse = some p.cstr := by
  obtain ⟨hg, hplace⟩ := prepare_eq_some_iff.mp h
  rcases generate_entries call with ⟨-, herror⟩ | ⟨es, g, hes, hg', hrenders⟩
  · rw [herror] at hg
    cases hg
  · rw [hg, Except.ok.injEq] at hg'
    subst hg'
    exact ⟨es, hes, hrenders, hplace⟩

/-- A call with pairs looks into the pool, when its connection string is accepted. -/
theorem prepare_of_entries {es : List Entry} {cstr : Bytes} (hes : call.entries = some es)
    (hplace : call.place parse = some cstr) :
    ∃ g, prepare parse call = .ok (some ⟨cstr, g⟩) ∧ Renders call.mode es g := by
  rcases generate_entries call with ⟨hnone, -⟩ | ⟨es', g, hes', hg, hrenders⟩
  · rw [hes] at hnone
    cases hnone
  · rw [hes, Option.some.injEq] at hes'
    subst hes'
    exact ⟨g, prepare_eq_some_iff.mpr ⟨hg, hplace⟩, hrenders⟩

/-- The credentials are the same when what counts of the pairs is the same. -/
theorem sameCredentials_iff {m m' : AuthMode} {es es' : List Entry} {g g' : Generated}
    (h : Renders m es g) (h' : Renders m' es' g') :
    SameCredentials g.lcb g'.lcb ↔ m = m' ∧ clusterPair es = clusterPair es' ∧
      ∀ pair, pair ∈ bucketPairs es ↔ pair ∈ bucketPairs es' := by
  constructor
  · rintro ⟨hmode, hcluster, hbuckets⟩
    refine ⟨?_, ?_, ?_⟩
    · rw [← h.mode, ← h'.mode, hmode]
    · rw [← h.cluster, ← h'.cluster, hcluster]
    · rintro ⟨user, pass⟩
      rw [← h.buckets, ← h'.buckets, hbuckets]
  · rintro ⟨rfl, hcluster, hbuckets⟩
    refine ⟨?_, ?_, fun user pass => ?_⟩
    · rw [h.mode, h'.mode]
    · rw [h.cluster, h'.cluster, hcluster]
    · rw [h.buckets, h'.buckets, hbuckets]

/-! ## Which pairs run together -/

theorem spelled_singleton (e : Entry) : spelled [e] = e.kind.tag ++ (e.user ++ e.pass) := by
  rw [spelled, List.flatMap_singleton, Entry.spelled, List.append_assoc]

/-- The tags of a password authenticator. -/
def EntryKind.IsPassword (kind : EntryKind) : Prop := kind = .rbac ∨ kind = .rbacExtra

theorem passwordEntry_isPassword (auth : PasswordAuthenticator) (name password : Option CString) :
    (passwordEntry auth name password).kind.IsPassword := by
  cases name with
  | none => exact .inl rfl
  | some name =>
    cases password with
    | none => exact .inl rfl
    | some password => exact .inr rfl

/-- **The fifth byte** tells the tags of a password authenticator apart. -/
theorem EntryKind.tag_append_inj {kind kind' : EntryKind} (h : kind.IsPassword) (h' : kind'.IsPassword)
    {t t' : Bytes} : kind.tag ++ t = kind'.tag ++ t' ↔ kind = kind' ∧ t = t' := by
  constructor
  · intro heq
    have hkind : kind = kind' := by
      have hfifth := congrArg (·[4]?) heq
      rcases h with rfl | rfl <;> rcases h' with rfl | rfl
      · rfl
      · cases hfifth
      · cases hfifth
      · rfl
    subst hkind
    exact ⟨rfl, List.append_cancel_left heq⟩
  · rintro ⟨rfl, rfl⟩
    rfl

/-- A single pair of a password authenticator. -/
theorem movedBoundary_iff_singleton {e e' : Entry} (h : e.kind.IsPassword) (h' : e'.kind.IsPassword) :
    MovedBoundary e e' ↔ MovedBoundaries [e] [e'] := by
  have hcluster : ∀ {e : Entry}, e.kind.IsPassword →
      clusterPair [e] = some (.ofBytes e.user, .ofBytes e.pass) := by
    rintro ⟨kind, user, pass⟩ (rfl | rfl) <;> rfl
  have hbuckets : ∀ {e : Entry}, e.kind.IsPassword → bucketPairs [e] = [] := by
    rintro ⟨kind, user, pass⟩ (rfl | rfl) <;> rfl
  have hspelled : spelled [e] = spelled [e'] ↔
      e.kind = e'.kind ∧ e.user ++ e.pass = e'.user ++ e'.pass := by
    rw [spelled_singleton, spelled_singleton, EntryKind.tag_append_inj h h']
  have hmoved : (clusterPair [e] = clusterPair [e'] ∧
      ∀ pair, pair ∈ bucketPairs [e] ↔ pair ∈ bucketPairs [e']) ↔
      CString.ofBytes e.user = .ofBytes e'.user ∧ CString.ofBytes e.pass = .ofBytes e'.pass := by
    rw [hcluster h, hcluster h', hbuckets h, hbuckets h', Option.some.injEq, Prod.mk.injEq]
    exact and_iff_left fun _ => Iff.rfl
  constructor
  · rintro ⟨hkind, hjoined, hother⟩
    exact ⟨hspelled.mpr ⟨hkind, hjoined⟩, mt hmoved.mp hother⟩
  · rintro ⟨hsame, hother⟩
    obtain ⟨hkind, hjoined⟩ := hspelled.mp hsame
    exact ⟨hkind, hjoined, mt hmoved.mpr hother⟩

/-- The pairs of a classic authenticator begin with a tag: an untagged one comes behind a registered
bucket. -/
theorem head_classicEntries (cluster : Option (Bytes × Bytes)) (buckets : List (Bytes × Bytes))
    (type : LcbType) (name : CString) (password : Option CString) :
    (spelled (classicEntries cluster buckets type name password)).head? ≠ some 114 := by
  cases cluster with
  | some cred => exact fun h => by cases h
  | none =>
    cases buckets with
    | cons cred buckets => exact fun h => by cases h
    | nil =>
      have hextra : writesExtra [] .bucket name password = true := Bool.or_true _
      cases type with
      | bucket =>
        rw [classicEntries, lastKind, if_pos hextra]
        exact fun h => by cases h
      | cluster => exact fun h => by cases h

/-- **Pairs that are fed as the same bytes** come from one kind of authenticator. -/
theorem mode_of_spelled {es es' : List Entry} (hes : a.entries = some es) (hes' : b.entries = some es')
    (h : spelled es = spelled es') : a.mode = b.mode := by
  have hhead : ∀ {call : ConnectCall} {es : List Entry}, call.entries = some es →
      (call.mode = .rbac ↔ (spelled es).head? = some 114) := by
    intro call es hes
    unfold ConnectCall.entries at hes
    unfold ConnectCall.mode
    cases hauth : call.auth with
    | unset =>
      rw [hauth] at hes
      obtain ⟨name, -, rfl⟩ := Option.map_eq_some_iff.mp hes
      exact iff_of_false nofun (head_classicEntries _ _ _ _ _)
    | classic auth =>
      rw [hauth] at hes
      obtain ⟨name, -, rfl⟩ := Option.map_eq_some_iff.mp hes
      exact iff_of_false nofun (head_classicEntries _ _ _ _ _)
    | password auth =>
      rw [hauth] at hes
      cases hes
      refine iff_of_true rfl ?_
      rw [spelled_singleton]
      rcases passwordEntry_isPassword auth call.extra.1 call.extra.2 with hkind | hkind <;>
        rw [hkind] <;> rfl
  have hmode : a.mode = .rbac ↔ b.mode = .rbac := by rw [hhead hes, hhead hes', h]
  cases hb : b.mode with
  | rbac => exact hmode.mpr hb
  | classic =>
    cases ha : a.mode with
    | classic => rfl
    | rbac =>
      rw [hmode.mp ha] at hb
      cases hb

/-- Running together, said of any two calls. -/
theorem runTogether_iff :
    RunTogether a b ↔
      ∃ es es', a.entries = some es ∧ b.entries = some es' ∧ MovedBoundaries es es' := by
  have hother : a.mode ≠ b.mode →
      ¬∃ es es', a.entries = some es ∧ b.entries = some es' ∧ MovedBoundaries es es' := by
    rintro hmode ⟨es, es', hes, hes', hmoved⟩
    exact hmode (mode_of_spelled hes hes' hmoved.spelled)
  unfold RunTogether
  unfold ConnectCall.mode at hother
  cases ha : a.auth <;> cases hb : b.auth <;> rw [ha, hb] at hother
  case password.password p q =>
    dsimp only
    rw [movedBoundary_iff_singleton (passwordEntry_isPassword ..) (passwordEntry_isPassword ..)]
    have hes : ∀ {call : ConnectCall} {auth}, call.auth = .password auth →
        call.entries = some [passwordEntry auth call.extra.1 call.extra.2] := by
      intro call auth hauth
      rw [ConnectCall.entries, hauth]
    rw [hes ha, hes hb]
    simp only [Option.some.injEq, exists_eq_left', exists_and_left]
  case password.unset => exact iff_of_false id (hother nofun)
  case password.classic => exact iff_of_false id (hother nofun)
  case unset.password => exact iff_of_false id (hother nofun)
  case classic.password => exact iff_of_false id (hother nofun)

theorem ofBytes_injective {s t : Bytes} (hs : 0 ∉ s) (ht : 0 ∉ t) :
    CString.ofBytes s = CString.ofBytes t ↔ s = t := by
  constructor
  · intro h
    have hbytes : s.takeWhile (· ≠ 0) = t.takeWhile (· ≠ 0) := congrArg CString.bytes h
    rw [takeWhile_of_no_nul hs, takeWhile_of_no_nul ht] at hbytes
    exact hbytes
  · rintro rfl
    rfl

/-- **Without NUL bytes** the boundary has moved exactly when the user names differ. -/
theorem movedBoundary_iff {e e' : Entry} (hu : 0 ∉ e.user) (hp : 0 ∉ e.pass) (hu' : 0 ∉ e'.user)
    (hp' : 0 ∉ e'.pass) :
    MovedBoundary e e' ↔
      e.kind = e'.kind ∧ e.user ++ e.pass = e'.user ++ e'.pass ∧ e.user ≠ e'.user := by
  have hsame : e.user ++ e.pass = e'.user ++ e'.pass →
      (CString.ofBytes e.user = .ofBytes e'.user ∧ CString.ofBytes e.pass = .ofBytes e'.pass ↔
        e.user = e'.user) := by
    intro hjoined
    rw [ofBytes_injective hu hu', ofBytes_injective hp hp', and_iff_left_iff_imp]
    intro huser
    rw [huser] at hjoined
    exact List.append_cancel_left hjoined
  constructor
  · rintro ⟨hkind, hjoined, hmoved⟩
    exact ⟨hkind, hjoined, mt (hsame hjoined).mpr hmoved⟩
  · rintro ⟨hkind, hjoined, hother⟩
    exact ⟨hkind, hjoined, mt (hsame hjoined).mp hother⟩

/-! ## Runs of calls -/

/-- A connection that a call was handed: what it was opened with. -/
structure Handout where
  call : ConnectCall
  lcb : LcbAuth

/-- The pool, by key, with the connections handed out so far. -/
structure PoolState where
  pool : List (Bytes × LcbAuth)
  handouts : List Handout

/-- What can happen to the pool: `pcbc_connection_get` finds the key, opens a new connection, or
fails; and idle connections are destroyed. -/
inductive PoolStep (md5 : Bytes → Bytes) (parse : Bytes → Option Url) :
    PoolState → ConnectCall → PoolState → Prop where
  | hit {s : PoolState} {call : ConnectCall} {p : Prepared} {lcb : LcbAuth}
      (hp : prepare parse call = .ok (some p)) (h : fetch s.pool (p.key md5 call) = some lcb) :
      PoolStep md5 parse s call ⟨s.pool, s.handouts ++ [⟨call, lcb⟩]⟩
  | opened {s : PoolState} {call : ConnectCall} {p : Prepared}
      (hp : prepare parse call = .ok (some p)) (h : fetch s.pool (p.key md5 call) = none) :
      PoolStep md5 parse s call
        ⟨update s.pool (p.key md5 call) p.generated.lcb, s.handouts ++ [⟨call, p.generated.lcb⟩]⟩
  | failed {s : PoolState} {call : ConnectCall} : PoolStep md5 parse s call s
  | cleanup {s : PoolState} {call : ConnectCall} (pool : List (Bytes × LcbAuth))
      (h : pool.Sublist s.pool) : PoolStep md5 parse s call ⟨pool, s.handouts⟩

/-- A pooled connection was opened by a call with its key, and every connection handed out has the
credentials of the call it was handed to. -/
structure OwnCredentials (md5 : Bytes → Bytes) (parse : Bytes → Option Url)
    (allowed : ConnectCall → Prop) (s : PoolState) : Prop where
  pooled : ∀ key lcb, (key, lcb) ∈ s.pool → ∃ call p, allowed call ∧
    prepare parse call = .ok (some p) ∧ p.key md5 call = key ∧ p.generated.lcb = lcb
  handed : ∀ h ∈ s.handouts, ∃ p, prepare parse h.call = .ok (some p) ∧
    SameCredentials h.lcb p.generated.lcb

theorem ownCredentials_step {allowed : ConnectCall → Prop} {s t : PoolState} {call : ConnectCall}
    (hsafe : ∀ a b, allowed a → allowed b → ReuseSafe md5 parse a b) (hcall : allowed call)
    (hs : OwnCredentials md5 parse allowed s) (hstep : PoolStep md5 parse s call t) :
    OwnCredentials md5 parse allowed t := by
  have hhanded : ∀ {lcb : LcbAuth} {p : Prepared}, prepare parse call = .ok (some p) →
      SameCredentials lcb p.generated.lcb → ∀ h ∈ s.handouts ++ [⟨call, lcb⟩],
        ∃ p, prepare parse h.call = .ok (some p) ∧ SameCredentials h.lcb p.generated.lcb := by
    intro lcb p hp hsame h hh
    rcases List.mem_append.mp hh with hh | hh
    · exact hs.handed h hh
    · rw [List.mem_singleton.mp hh]
      exact ⟨p, hp, hsame⟩
  cases hstep with
  | @hit p lcb hp hfetch =>
    refine ⟨hs.pooled, hhanded hp ?_⟩
    obtain ⟨call', p', hcall', hp', hkey, rfl⟩ := hs.pooled _ _ (mem_of_fetch hfetch)
    exact hsafe call' call hcall' hcall p' p hp' hp hkey
  | @opened p hp hfetch =>
    refine ⟨?_, hhanded hp ⟨rfl, rfl, fun _ _ => Iff.rfl⟩⟩
    intro key lcb hmem
    rcases mem_update hmem with heq | hmem
    · cases heq
      exact ⟨call, p, hcall, hp, rfl, rfl⟩
    · exact hs.pooled key lcb hmem
  | failed => exact hs
  | cleanup pool hsub => exact ⟨fun key lcb hmem => hs.pooled key lcb (hsub.subset hmem), hs.handed⟩

/-- **Runs.**  When reuse is safe between any two of the calls, every connection handed out in a run
of them has the credentials of its caller. -/
theorem pool_hands_out_own {allowed : ConnectCall → Prop} {p : List (ConnectCall × PoolState)}
    (hsafe : ∀ a b, allowed a → allowed b → ReuseSafe md5 parse a b)
    (hp : Path (PoolStep md5 parse) ⟨[], []⟩ p) (hcalls : ∀ x ∈ p, allowed x.1) :
    ∀ x ∈ p, OwnCredentials md5 parse allowed x.2 := by
  have hinit : OwnCredentials md5 parse allowed ⟨[], []⟩ := by
    constructor
    · intro key lcb h
      cases h
    · intro h hh
      cases hh
  apply hp.invariant_of_meets (meets_label_iff.mpr hcalls) hinit
  intro s call t hs hcall hstep
  exact ownCredentials_step hsafe hcall hs hstep

/-! ## Concrete calls -/

/-- `Cluster::authenticateAs(username, password)` and `Cluster::manager()`. -/
def managerCall (username password : String) : ConnectCall where
  connstr := .ofBytes (ascii "couchbase://localhost")
  auth := .password ⟨ascii username, ascii password⟩
  target := .cluster none none

/-- The parts of `couchbase://localhost`. -/
def localhostUrl : Url :=
  ⟨some (.ofBytes (ascii "couchbase")), some (.ofBytes (ascii "localhost")), 0, none, none⟩

/-- What `managerCall` has computed at the lookup. -/
def managerPrepared (username password : String) : Prepared where
  cstr := (CString.ofBytes (ascii "couchbase://localhost")).bytes
  generated := ⟨⟨.rbac, [⟨.ofBytes (ascii username), .ofBytes (ascii password), .cluster⟩]⟩,
    [tag "rbac", ascii username, ascii password]⟩

theorem prepare_managerCall (username password : String) :
    prepare (fun _ => some localhostUrl) (managerCall username password) =
      .ok (some (managerPrepared username password)) := rfl

/-- A stand-in for the digest that tells short texts apart. -/
def firstBytes (x : Bytes) : Bytes := (x ++ List.replicate 32 0).take 32

/-- A `ClassicAuthenticator` with `cluster(username, password)`, and `openBucket("x", "pw")`. -/
def classicCall (username password : String) : ConnectCall where
  connstr := .ofBytes (ascii "couchbase://localhost")
  auth := .classic ⟨some (ascii username, ascii password), []⟩
  target := .bucket (ascii "x") (some (.ofBytes (ascii "pw")))

def classicPairs (username password : String) : List Entry :=
  [⟨.cluster, ascii username, ascii password⟩, ⟨.extraBucket, ascii "x", ascii "pw"⟩]

theorem entries_classicCall (username password : String) :
    (classicCall username password).entries = some (classicPairs username password) := rfl

/-- What `classicCall` has computed at the lookup. -/
def classicPrepared (username password : String) : Prepared where
  cstr := ascii "couchbase://localhost/x"
  generated := ⟨⟨.classic, [⟨.ofBytes (ascii username), .ofBytes (ascii password), .cluster⟩,
      ⟨.ofBytes (ascii "x"), .ofBytes (ascii "pw"), .bucket⟩,
      ⟨.ofBytes (ascii "x"), .ofBytes (ascii "pw"), .cluster⟩]⟩,
    [tag "cluster", ascii username, ascii password, tag "extra-bucket", ascii "x", ascii "pw"]⟩

/-- **A moved boundary reuses a connection**: the user `"ab"` with the password `"c"` and the user
`"a"` with the password `"bc"` have one key, whatever the digest, and different credentials. -/
theorem moved_boundary (md5 : Bytes → Bytes) :
    (managerPrepared "ab" "c").key md5 (managerCall "ab" "c") =
      (managerPrepared "a" "bc").key md5 (managerCall "a" "bc") ∧
    ¬ ReuseSafe md5 (fun _ => some localhostUrl) (managerCall "ab" "c") (managerCall "a" "bc") := by
  refine ⟨rfl, ?_⟩
  intro h
  have hsame := (h _ _ (prepare_managerCall "ab" "c") (prepare_managerCall "a" "bc") rfl).cluster
  exact absurd hsame (by decide)

end PhpCouchbase
