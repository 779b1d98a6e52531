import Mathlib.Data.Set.Basic
import PhpCouchbase.LongText

/-!
# Authenticators

`classic_authenticator.c` and `password_authenticator.c`.  An authenticator becomes an
`lcb_AUTHENTICATOR` for each connection that is opened: a mode and the pairs that are added to it.
Along the way every string is fed to MD5, and the digest becomes part of the key under which the
connection is pooled.

* `generatePassword`, `generateClassic` — the two generators, with the fields fed to MD5.
* `bucketPasses_eq` — when a registered bucket is the pair for the cluster.
-/

set_option autoImplicit false

namespace PhpCouchbase

/-- `lcb_type_t` -/
inductive LcbType where
  | bucket
  | cluster
  deriving DecidableEq, Repr

/-- `lcbauth_set_mode` -/
inductive AuthMode where
  | rbac
  | classic
  deriving DecidableEq, Repr

/-- The flags of `lcbauth_add_pass`. -/
inductive PassFlag where
  | cluster
  | bucket
  deriving DecidableEq, Repr

/-- A call of `lcbauth_add_pass`. -/
structure AddPass where
  user : CString
  pass : CString
  flag : PassFlag
  deriving DecidableEq

/-- `lcb_AUTHENTICATOR`: the mode and the calls of `lcbauth_add_pass`, in order. -/
structure LcbAuth where
  mode : AuthMode
  passes : List AddPass
  deriving DecidableEq

/-- The authenticator and the byte strings that are fed to MD5, one for each update. -/
structure Generated where
  lcb : LcbAuth
  fields : List Bytes

/-- A tag is fed with its terminating NUL, `sizeof("…")` bytes. -/
def tag (name : String) : Bytes := ascii name ++ [0]

/-- The object of a `PasswordAuthenticator` whose user name and password are set. -/
structure PasswordAuthenticator where
  username : Bytes
  password : Bytes

/-- The object of a `ClassicAuthenticator`. -/
structure ClassicAuthenticator where
  cluster : Option (Bytes × Bytes)
  buckets : List (Bytes × Bytes)

/-- `pcbc_generate_password_lcb_auth`; the strings of the object reach libcouchbase as `char *`. -/
def generatePassword (auth : PasswordAuthenticator) (name password : Option CString) : Generated :=
  match name, password with
  | some name, some password =>
    ⟨⟨.rbac, [⟨name, password, .cluster⟩]⟩, [tag "rbac-extra", name.bytes, password.bytes]⟩
  | _, _ =>
    ⟨⟨.rbac, [⟨.ofBytes auth.username, .ofBytes auth.password, .cluster⟩]⟩,
      [tag "rbac", auth.username, auth.password]⟩

/-- `strncmp(s, t, n) == 0` for a buffer `s` of `n` bytes. -/
def strncmpEq (s : Bytes) (t : CString) : Bool :=
  if 0 ∈ s then CString.ofBytes s = t else s.isPrefixOf t.bytes

/-- What the loop over the registered buckets adds for one of them. -/
def bucketPasses (type : LcbType) (name : CString) (password : Option CString)
    (cred : Bytes × Bytes) : List AddPass :=
  (if type = .bucket ∧ password = none ∧ CString.ofBytes cred.1 = name then
    [⟨.ofBytes cred.1, .ofBytes cred.2, .cluster⟩] else []) ++
    [⟨.ofBytes cred.1, .ofBytes cred.2, .bucket⟩]

def bucketFields (cred : Bytes × Bytes) : List Bytes := [tag "bucket", cred.1, cred.2]

/-- `pcbc_generate_classic_lcb_auth`; an authenticator that is null has nothing registered. -/
def generateClassic (auth : Option ClassicAuthenticator) (type : LcbType)
    (name password : Option CString) : C Generated :=
  match name with
  | none => .error .nullPointer
  | some name =>
    let cluster := auth.bind ClassicAuthenticator.cluster
    let buckets := (auth.map ClassicAuthenticator.buckets).getD []
    let writeNullPassword := !buckets.any fun cred => strncmpEq cred.1 name
    let pass := password.getD (.ofBytes [])
    let extra := password.isSome || writeNullPassword
    .ok {
      lcb := {
        mode := .classic
        passes :=
          (cluster.toList.map fun cred => ⟨.ofBytes cred.1, .ofBytes cred.2, .cluster⟩) ++
          buckets.flatMap (bucketPasses type name password) ++
          match type with
          | .bucket => if extra then [⟨name, pass, .bucket⟩, ⟨name, pass, .cluster⟩] else []
          | .cluster => [⟨name, pass, .cluster⟩] }
      fields :=
        (cluster.toList.flatMap fun cred => [tag "cluster", cred.1, cred.2]) ++
        buckets.flatMap bucketFields ++
        (match type with
          | .bucket => if extra then [tag "extra-bucket"] else []
          | .cluster => [tag "extra-cluster"]) ++
        [name.bytes, pass.bytes] }

/-- What `Cluster::authenticate` installed; an authenticator of another class is not used. -/
inductive Authenticator where
  | unset
  | classic (a : ClassicAuthenticator)
  | password (a : PasswordAuthenticator)

/-- The choice that `pcbc_bucket_init` and `pcbc_cluster_manager_init` make. -/
def generate (auth : Authenticator) (type : LcbType) (name password : Option CString) :
    C Generated :=
  match auth with
  | .unset => generateClassic none type name password
  | .classic a => generateClassic (some a) type name password
  | .password a => .ok (generatePassword a name password)

/-! ## The pair of the arguments -/

/-- Whether the last pair of a classic authenticator is tagged and added. -/
def writesExtra (buckets : List (Bytes × Bytes)) (type : LcbType) (name : CString)
    (password : Option CString) : Bool :=
  match type with
  | .bucket => password.isSome || !buckets.any fun cred => strncmpEq cred.1 name
  | .cluster => true

/-- The pairs for the opened bucket or the manager. -/
def extraPasses (type : LcbType) (extra : Bool) (name pass : CString) : List AddPass :=
  match type with
  | .bucket => if extra then [⟨name, pass, .bucket⟩, ⟨name, pass, .cluster⟩] else []
  | .cluster => [⟨name, pass, .cluster⟩]

/-- The tag in front of the last pair. -/
def extraTag (type : LcbType) (extra : Bool) : List Bytes :=
  match type with
  | .bucket => if extra then [tag "extra-bucket"] else []
  | .cluster => [tag "extra-cluster"]

/-- `strcmp(s, t) == 0` implies `strncmp(s, t, n) == 0`. -/
theorem strncmpEq_of_ofBytes {s : Bytes} {t : CString} (h : CString.ofBytes s = t) :
    strncmpEq s t = true := by
  unfold strncmpEq
  split
  · exact decide_eq_true h
  · rename_i hs
    rw [← h, List.isPrefixOf_iff_prefix]
    show s <+: s.takeWhile (· ≠ 0)
    exact (takeWhile_of_no_nul hs).symm ▸ List.prefix_rfl

/-- A registered bucket becomes the cluster credential exactly when the last pair is not added. -/
theorem bucketPasses_eq {buckets : List (Bytes × Bytes)} {type : LcbType} {name : CString}
    {password : Option CString} {cred : Bytes × Bytes} (hmem : cred ∈ buckets) :
    bucketPasses type name password cred =
      (if writesExtra buckets type name password = false ∧ CString.ofBytes cred.1 = name then
        [⟨.ofBytes cred.1, .ofBytes cred.2, .cluster⟩] else []) ++
        [⟨.ofBytes cred.1, .ofBytes cred.2, .bucket⟩] := by
  have hiff : (type = .bucket ∧ password = none ∧ CString.ofBytes cred.1 = name) ↔
      (writesExtra buckets type name password = false ∧ CString.ofBytes cred.1 = name) := by
    constructor
    · rintro ⟨rfl, rfl, hname⟩
      refine ⟨?_, hname⟩
      have hany : (buckets.any fun cred => strncmpEq cred.1 name) = true :=
        List.any_eq_true.mpr ⟨cred, hmem, strncmpEq_of_ofBytes hname⟩
      simp [writesExtra, hany]
    · rintro ⟨hextra, hname⟩
      cases type with
      | bucket =>
        simp only [writesExtra, Bool.or_eq_false_iff] at hextra
        exact ⟨rfl, by simpa using hextra.1, hname⟩
      | cluster => cases hextra
  unfold bucketPasses
  congr 1
  exact if_congr hiff rfl rfl

end PhpCouchbase
