import PhpCouchbase.Credentials

/-!
# Absent credentials

A string that was not set in an authenticator (`classic_authenticator.c`,
`password_authenticator.c`) is a null pointer, and so is an optional argument that is not given.
`Cluster::openBucket` and `Cluster::manager` (`cluster.c`) hand both to the generators.

* `generateClassicObject`, `generatePasswordObject` — the generators on strings that may be null; to
  use one that is absent is a fault.
* `classicObject_run` — what the methods leave in a `ClassicAuthenticator` has every string of an
  entry, or none.
* `generateClassicObject_some` — on a whole object the generator is the one on byte strings.
* `absent_credentials_iff` — which calls use only strings that are present.
-/

set_option autoImplicit false

namespace PhpCouchbase

/-! ## Objects with null pointers -/

/-- `pcbc_credential_t` -/
structure Credential where
  username : Option Bytes
  password : Option Bytes

/-- `pcbc_classic_authenticator_t` -/
structure ClassicObject where
  cluster : Credential
  buckets : List Credential

/-- `pcbc_password_authenticator_t` -/
structure PasswordObject where
  username : Option Bytes
  password : Option Bytes

/-- A byte string that is handed over as a `char *`. -/
def charPtr (s : Option Bytes) : Option CString := s.map .ofBytes

/-- A string is used: its length is taken, it is compared, hashed or registered. -/
def nonNull {α : Type} : Option α → C α
  | some s => .ok s
  | none => .error .nullPointer

/-- `lcbauth_add_pass` -/
def Generated.addPass (gen : Generated) (user pass : Option CString) (flag : PassFlag) :
    C Generated := do
  let user ← nonNull user
  let pass ← nonNull pass
  return { gen with lcb := { gen.lcb with passes := gen.lcb.passes ++ [⟨user, pass, flag⟩] } }

/-- `PHP_MD5Update` -/
def Generated.md5Update (gen : Generated) (input : Option Bytes) : C Generated := do
  let input ← nonNull input
  return { gen with fields := gen.fields ++ [input] }

/-! ## The generators -/

/-- The cluster credentials of `pcbc_generate_classic_lcb_auth`. -/
def clusterUse (cluster : Credential) (gen : Generated) : C Generated := do
  let pass := cluster.password.getD []
  let gen ← gen.addPass (charPtr cluster.username) (some (.ofBytes pass)) .cluster
  let gen ← gen.md5Update (some (tag "cluster"))
  let gen ← gen.md5Update cluster.username
  gen.md5Update (some pass)

/-- One bucket of the loop; the flag is `write_null_password`. -/
def bucketUse (type : LcbType) (name password : Option CString) (acc : Generated × Bool)
    (ptr : Credential) : C (Generated × Bool) := do
  let pass := ptr.password.getD []
  let opened ←
    if type = .bucket ∧ password = none then do
      let username ← nonNull ptr.username
      let name ← nonNull name
      pure (decide (CString.ofBytes username = name))
    else pure false
  -- the password of the entry itself, not its replacement
  let gen ←
    if opened then acc.1.addPass (charPtr ptr.username) (charPtr ptr.password) .cluster
    else pure acc.1
  let gen ← gen.addPass (charPtr ptr.username) (some (.ofBytes pass)) .bucket
  let gen ← gen.md5Update (some (tag "bucket"))
  let gen ← gen.md5Update ptr.username
  let gen ← gen.md5Update (some pass)
  let specified ←
    match name with
    | some name => do
      let username ← nonNull ptr.username
      pure (strncmpEq username name)
    | none => pure false
  return (gen, acc.2 && !specified)

/-- The credentials of the authenticator. -/
def registeredUse (auth : Option ClassicObject) (type : LcbType) (name password : Option CString)
    (gen : Generated) : C (Generated × Bool) :=
  match auth with
  | some auth =>
    if auth.cluster.username.isSome ∨ auth.buckets ≠ [] then do
      let gen ← if auth.cluster.username.isSome then clusterUse auth.cluster gen else pure gen
      auth.buckets.foldlM (bucketUse type name password) (gen, true)
    else pure (gen, true)
  | none => pure (gen, true)

/-- The pair for the opened bucket or the manager. -/
def pairUse (type : LcbType) (name : Option CString) (pass : CString) (extra : Bool)
    (gen : Generated) : C Generated :=
  match type with
  | .bucket =>
    if extra then do
      let gen ← gen.addPass name (some pass) .bucket
      let gen ← gen.addPass name (some pass) .cluster
      gen.md5Update (some (tag "extra-bucket"))
    else pure gen
  | .cluster => do
    let gen ← gen.addPass name (some pass) .cluster
    gen.md5Update (some (tag "extra-cluster"))

/-- `pcbc_generate_classic_lcb_auth` -/
def generateClassicObject (auth : Option ClassicObject) (type : LcbType)
    (name password : Option CString) : C Generated := do
  let (gen, writeNullPassword) ← registeredUse auth type name password ⟨⟨.classic, []⟩, []⟩
  let pass := password.getD (.ofBytes [])
  let gen ← pairUse type name pass (password.isSome || writeNullPassword) gen
  -- `strlen(name)`
  let name ← nonNull name
  let gen ← gen.md5Update (some name.bytes)
  gen.md5Update (some pass.bytes)

/-- `pcbc_generate_password_lcb_auth` -/
def generatePasswordObject (auth : PasswordObject) (name password : Option CString) :
    C Generated := do
  let gen : Generated := ⟨⟨.rbac, []⟩, []⟩
  match name, password with
  | some name, some password => do
    let gen ← gen.addPass (some name) (some password) .cluster
    let gen ← gen.md5Update (some (tag "rbac-extra"))
    let gen ← gen.md5Update (some name.bytes)
    gen.md5Update (some password.bytes)
  | _, _ => do
    let gen ← gen.addPass (charPtr auth.username) (charPtr auth.password) .cluster
    let gen ← gen.md5Update (some (tag "rbac"))
    let gen ← gen.md5Update auth.username
    gen.md5Update auth.password

/-! ## The callers -/

/-- `cluster->auth`: not set, an object of one of the two classes, or of another one. -/
inductive AuthObject where
  | unset
  | classic (obj : ClassicObject)
  | password (obj : PasswordObject)
  | other

/-- The choice that `pcbc_bucket_init` and `pcbc_cluster_manager_init` make. -/
def generateObject (auth : AuthObject) (type : LcbType) (name password : Option CString) :
    C Generated :=
  match auth with
  | .classic obj => generateClassicObject (some obj) type name password
  | .password obj => generatePasswordObject obj name password
  | .unset | .other => generateClassicObject none type name password

/-- The methods that open a connection, with their optional arguments. -/
inductive OpenCall where
  | openBucket (bucketname password : Option Bytes)
  | manager (username password : Option Bytes)

/-- The type of the connection, and the name and the password that the generators are given; a name
that is missing or empty is `DEFAULT_BUCKET_NAME` in `Cluster::openBucket`. -/
def OpenCall.arguments : OpenCall → LcbType × Option CString × Option CString
  | .openBucket bucketname password =>
    let bucketname := if (bucketname.getD []).length = 0 then some (ascii "default") else bucketname
    (.bucket, charPtr bucketname, charPtr password)
  | .manager username password => (.cluster, charPtr username, charPtr password)

/-- The credentials of a connection that a call opens. -/
def OpenCall.generate (call : OpenCall) (auth : AuthObject) : C Generated :=
  generateObject auth call.arguments.1 call.arguments.2.1 call.arguments.2.2

/-! ## What the methods leave behind -/

/-- A method of a `ClassicAuthenticator`. -/
inductive ClassicMethod where
  | construct
  | cluster (username password : Bytes)
  | bucket (name password : Bytes)

/-- The search and the update of `ClassicAuthenticator::bucket`. -/
def registerCredential : List Credential → Bytes → Bytes → List Credential
  | [], name, password => [⟨some name, some password⟩]
  | ptr :: buckets, name, password =>
    if (ptr.username.getD []).length = name.length ∧
        charPtr ptr.username = some (.ofBytes name) then
      ⟨ptr.username, some password⟩ :: buckets
    else ptr :: registerCredential buckets name password

def ClassicMethod.run (obj : ClassicObject) : ClassicMethod → ClassicObject
  | .construct => ⟨⟨none, none⟩, []⟩
  | .cluster username password => { obj with cluster := ⟨some username, some password⟩ }
  | .bucket name password => { obj with buckets := registerCredential obj.buckets name password }

/-- A `ClassicAuthenticator` after its methods were called. -/
def classicObject (calls : List ClassicMethod) : ClassicObject :=
  calls.foldl ClassicMethod.run ⟨⟨none, none⟩, []⟩

/-- A method of a `PasswordAuthenticator`. -/
inductive PasswordMethod where
  | construct
  | username (username : Bytes)
  | password (password : Bytes)

def PasswordMethod.run (obj : PasswordObject) : PasswordMethod → PasswordObject
  | .construct => ⟨none, none⟩
  | .username text => { obj with username := some text }
  | .password text => { obj with password := some text }

def passwordObject (calls : List PasswordMethod) : PasswordObject :=
  calls.foldl PasswordMethod.run ⟨none, none⟩

/-- How the authenticator of a cluster came about. -/
inductive AuthHistory where
  | unset
  | classic (calls : List ClassicMethod)
  | password (calls : List PasswordMethod)
  | authenticateAs (username password : Bytes)
  | other

/-- `cluster->auth` behind it. -/
def AuthHistory.object : AuthHistory → AuthObject
  | .unset => .unset
  | .classic calls => .classic (classicObject calls)
  | .password calls => .password (passwordObject calls)
  | .authenticateAs user pass => .password ⟨some user, some pass⟩
  | .other => .other

/-- The entry of a pair. -/
def Credential.ofPair (cred : Bytes × Bytes) : Credential := ⟨some cred.1, some cred.2⟩

/-- The object of an authenticator whose entries are pairs. -/
def ClassicAuthenticator.object (auth : ClassicAuthenticator) : ClassicObject where
  cluster := ⟨auth.cluster.map Prod.fst, auth.cluster.map Prod.snd⟩
  buckets := auth.buckets.map Credential.ofPair

/-- The method on pairs. -/
def ClassicMethod.apply (auth : ClassicAuthenticator) : ClassicMethod → ClassicAuthenticator
  | .construct => ⟨none, []⟩
  | .cluster username password => classicCluster auth username password
  | .bucket name password => classicBucket auth name password

theorem registerCredential_map (buckets : List (Bytes × Bytes)) (name password : Bytes) :
    registerCredential (buckets.map Credential.ofPair) name password =
      (registerBucket buckets name password).map Credential.ofPair := by
  induction buckets with
  | nil => rfl
  | cons cred buckets ih =>
    have hsame : ((Credential.ofPair cred).username.getD []).length = name.length ∧
        charPtr (Credential.ofPair cred).username = some (.ofBytes name) ↔
        cred.1.length = name.length ∧ CString.ofBytes cred.1 = CString.ofBytes name :=
      and_congr Iff.rfl (Option.some_inj)
    rw [List.map_cons, registerCredential, registerBucket, ih]
    by_cases h : cred.1.length = name.length ∧ CString.ofBytes cred.1 = CString.ofBytes name
    · rw [if_pos (hsame.mpr h), if_pos h]
      rfl
    · rw [if_neg fun habs => h (hsame.mp habs), if_neg h]
      rfl

/-- A method keeps the entries whole. -/
theorem run_object (auth : ClassicAuthenticator) (m : ClassicMethod) :
    m.run auth.object = (m.apply auth).object := by
  cases m with
  | construct => rfl
  | cluster username password => rfl
  | bucket name password =>
    have hbuckets := registerCredential_map auth.buckets name password
    exact congrArg (ClassicObject.mk auth.object.cluster) hbuckets

/-- **Every entry has its strings**, after any sequence of methods. -/
theorem classicObject_run (calls : List ClassicMethod) :
    ∃ auth : ClassicAuthenticator, classicObject calls = auth.object := by
  refine ⟨calls.foldl ClassicMethod.apply ⟨none, []⟩, ?_⟩
  have hrun : ∀ auth : ClassicAuthenticator, calls.foldl ClassicMethod.run auth.object =
      (calls.foldl ClassicMethod.apply auth).object := by
    induction calls with
    | nil => exact fun auth => rfl
    | cons m calls ih =>
      intro auth
      rw [List.foldl_cons, run_object, ih, List.foldl_cons]
  exact hrun ⟨none, []⟩

/-! ## Generators on whole entries -/

/-- What is added to the authenticator and fed to MD5. -/
def Generated.extend (gen : Generated) (passes : List AddPass) (fields : List Bytes) : Generated :=
  ⟨⟨gen.lcb.mode, gen.lcb.passes ++ passes⟩, gen.fields ++ fields⟩

theorem extend_extend (gen : Generated) (ps qs : List AddPass) (fs gs : List Bytes) :
    (gen.extend ps fs).extend qs gs = gen.extend (ps ++ qs) (fs ++ gs) := by
  simp only [Generated.extend, List.append_assoc]

theorem addPass_some (gen : Generated) (user pass : CString) (flag : PassFlag) :
    gen.addPass (some user) (some pass) flag = .ok (gen.extend [⟨user, pass, flag⟩] []) := by
  simp [Generated.addPass, nonNull, Generated.extend]

theorem md5Update_some (gen : Generated) (input : Bytes) :
    gen.md5Update (some input) = .ok (gen.extend [] [input]) := by
  simp [Generated.md5Update, nonNull, Generated.extend]

theorem clusterUse_pair (gen : Generated) (cred : Bytes × Bytes) :
    clusterUse (.ofPair cred) gen =
      .ok (gen.extend [⟨.ofBytes cred.1, .ofBytes cred.2, .cluster⟩]
        [tag "cluster", cred.1, cred.2]) := by
  simp only [clusterUse, Credential.ofPair, charPtr, Option.map_some, Option.getD_some, addPass_some,
    md5Update_some, C.bind_ok, extend_extend]
  rfl

theorem bucketUse_pair (type : LcbType) (name : CString) (password : Option CString)
    (acc : Generated × Bool) (cred : Bytes × Bytes) :
    bucketUse type (some name) password acc (.ofPair cred) =
      .ok (acc.1.extend (bucketPasses type name password cred) (bucketFields cred),
        acc.2 && !strncmpEq cred.1 name) := by
  unfold bucketUse bucketPasses
  by_cases hopen : type = .bucket ∧ password = none
  · by_cases hname : CString.ofBytes cred.1 = name
    · simp [hopen, hname, Credential.ofPair, charPtr, nonNull, addPass_some, md5Update_some,
        extend_extend, bucketFields]
    · simp [hopen, hname, Credential.ofPair, charPtr, nonNull, addPass_some, md5Update_some,
        extend_extend, bucketFields]
  · have hnot : ¬(type = .bucket ∧ password = none ∧ CString.ofBytes cred.1 = name) :=
      fun h => hopen ⟨h.1, h.2.1⟩
    rw [if_neg hopen, if_neg hnot]
    simp [Credential.ofPair, charPtr, nonNull, addPass_some, md5Update_some, extend_extend,
      bucketFields]

theorem foldlM_bucketUse (type : LcbType) (name : CString) (password : Option CString)
    (buckets : List (Bytes × Bytes)) (acc : Generated × Bool) :
    (buckets.map Credential.ofPair).foldlM (bucketUse type (some name) password) acc =
      .ok (acc.1.extend (buckets.flatMap (bucketPasses type name password))
          (buckets.flatMap bucketFields),
        acc.2 && !buckets.any fun cred => strncmpEq cred.1 name) := by
  induction buckets generalizing acc with
  | nil => simp [Generated.extend]
  | cons cred buckets ih =>
    rw [List.map_cons, List.foldlM_cons, bucketUse_pair, C.bind_ok, ih, extend_extend,
      List.flatMap_cons, List.flatMap_cons, List.any_cons, Bool.not_or, Bool.and_assoc]

theorem pairUse_some (type : LcbType) (name pass : CString) (extra : Bool) (gen : Generated) :
    pairUse type (some name) pass extra gen =
      .ok (gen.extend (extraPasses type extra name pass) (extraTag type extra)) := by
  unfold pairUse extraPasses extraTag
  cases type with
  | bucket =>
    cases extra with
    | true => simp [addPass_some, md5Update_some, extend_extend]
    | false => simp [Generated.extend]
  | cluster => simp [addPass_some, md5Update_some, extend_extend]

/-- What is registered, when every entry is whole; an authenticator that is null has nothing. -/
theorem registeredUse_pairs (auth : Option ClassicAuthenticator) (type : LcbType) (name : CString)
    (password : Option CString) (gen : Generated) :
    registeredUse (auth.map ClassicAuthenticator.object) type (some name) password gen =
      .ok (gen.extend
          (((auth.bind ClassicAuthenticator.cluster).toList.map fun cred =>
              ⟨.ofBytes cred.1, .ofBytes cred.2, .cluster⟩) ++
            ((auth.map ClassicAuthenticator.buckets).getD []).flatMap
              (bucketPasses type name password))
          (((auth.bind ClassicAuthenticator.cluster).toList.flatMap fun cred =>
              [tag "cluster", cred.1, cred.2]) ++
            ((auth.map ClassicAuthenticator.buckets).getD []).flatMap bucketFields),
        !((auth.map ClassicAuthenticator.buckets).getD []).any fun cred => strncmpEq cred.1 name) := by
  have hempty : gen.extend [] [] = gen := by simp [Generated.extend]
  cases auth with
  | none =>
    change _ = Except.ok (gen.extend [] [], true)
    rw [hempty]
    rfl
  | some auth =>
    obtain ⟨cluster, buckets⟩ := auth
    cases cluster with
    | some cred =>
      have hloop := foldlM_bucketUse type name password buckets
        (gen.extend [⟨.ofBytes cred.1, .ofBytes cred.2, .cluster⟩] [tag "cluster", cred.1, cred.2],
          true)
      rw [extend_extend] at hloop
      change (clusterUse (.ofPair cred) gen >>= fun gen =>
        (buckets.map Credential.ofPair).foldlM (bucketUse type (some name) password)
          (gen, true)) = _
      rw [clusterUse_pair, C.bind_ok, hloop]
      rfl
    | none =>
      cases buckets with
      | nil =>
        change _ = Except.ok (gen.extend [] [], true)
        rw [hempty]
        rfl
      | cons cred buckets => exact foldlM_bucketUse type name password (cred :: buckets) (gen, true)

/-- **On whole entries** the generator is the one on byte strings. -/
theorem generateClassicObject_some (auth : Option ClassicAuthenticator) (type : LcbType)
    (name : CString) (password : Option CString) :
    generateClassicObject (auth.map ClassicAuthenticator.object) type (some name) password =
      generateClassic auth type (some name) password := by
  unfold generateClassicObject
  rw [registeredUse_pairs]
  simp only [C.bind_ok, pairUse_some, nonNull, md5Update_some, extend_extend]
  cases type <;> simp [generateClassic, Generated.extend, extraPasses, extraTag]

/-! ## Which calls use only strings that are present -/

/-- Without a name the length of a null pointer is taken. -/
theorem not_defined_classic (auth : Option ClassicObject) (type : LcbType)
    (password : Option CString) : ¬C.Defined (generateClassicObject auth type none password) := by
  unfold generateClassicObject
  rw [C.defined_bind]
  rintro ⟨acc, -, hpair⟩
  obtain ⟨gen, -, hname⟩ := C.defined_bind.mp hpair
  exact C.not_defined_error _ hname

theorem defined_classic_iff (auth : Option ClassicAuthenticator) (type : LcbType)
    (name password : Option CString) :
    C.Defined (generateClassicObject (auth.map ClassicAuthenticator.object) type name password) ↔
      name.isSome := by
  cases name with
  | none => exact iff_of_false (not_defined_classic _ type password) (by simp)
  | some name =>
    refine iff_of_true ?_ rfl
    rw [generateClassicObject_some]
    exact ⟨_, rfl⟩

theorem defined_password_iff (auth : PasswordObject) (name password : Option CString) :
    C.Defined (generatePasswordObject auth name password) ↔
      (name.isSome ∧ password.isSome) ∨ (auth.username.isSome ∧ auth.password.isSome) := by
  obtain ⟨user, pass⟩ := auth
  have hown : C.Defined (generatePasswordObject ⟨user, pass⟩ none none) ↔
      user.isSome ∧ pass.isSome := by
    cases user <;> cases pass <;>
      simp [generatePasswordObject, Generated.addPass, Generated.md5Update, nonNull, charPtr]
  cases name with
  | none =>
    change C.Defined (generatePasswordObject ⟨user, pass⟩ none none) ↔ _
    simp [hown]
  | some name =>
    cases password with
    | none =>
      change C.Defined (generatePasswordObject ⟨user, pass⟩ none none) ↔ _
      simp [hown]
    | some password =>
      refine iff_of_true ?_ (Or.inl ⟨rfl, rfl⟩)
      simp [generatePasswordObject, addPass_some, md5Update_some]

/-- What a call and the authenticator have between them: for a `PasswordAuthenticator` a name and a
password from one of the two, else a name in the call. -/
def OpenCall.Supplied (call : OpenCall) : AuthObject → Prop
  | .password obj =>
    (call.arguments.2.1.isSome ∧ call.arguments.2.2.isSome) ∨
      (obj.username.isSome ∧ obj.password.isSome)
  | .unset | .classic _ | .other => call.arguments.2.1.isSome

/-- **Absent credentials.**  For every state of the authenticator and every call, the generators use
only strings that are present exactly when the call and the authenticator supply them. -/
theorem absent_credentials_iff (auth : AuthHistory) (call : OpenCall) :
    C.Defined (call.generate auth.object) ↔ call.Supplied auth.object := by
  rcases hargs : call.arguments with ⟨type, name, password⟩
  have hgen : ∀ obj, call.generate obj = generateObject obj type name password := by
    intro obj
    rw [OpenCall.generate, hargs]
  rw [hgen]
  cases auth with
  | unset =>
    simp only [AuthHistory.object, OpenCall.Supplied, hargs]
    exact defined_classic_iff none type name password
  | other =>
    simp only [AuthHistory.object, OpenCall.Supplied, hargs]
    exact defined_classic_iff none type name password
  | classic calls =>
    obtain ⟨auth, hauth⟩ := classicObject_run calls
    simp only [AuthHistory.object, OpenCall.Supplied, hargs, hauth]
    exact defined_classic_iff (some auth) type name password
  | password calls =>
    simp only [AuthHistory.object, OpenCall.Supplied, hargs]
    exact defined_password_iff (passwordObject calls) name password
  | authenticateAs user pass =>
    simp only [AuthHistory.object, OpenCall.Supplied, hargs]
    exact defined_password_iff ⟨some user, some pass⟩ name password

/-- **A manager without a user name** on a cluster with the cluster credentials of a
`ClassicAuthenticator`, and a bucket with a `PasswordAuthenticator` whose password was not set. -/
theorem manager_without_username :
    ¬C.Defined ((OpenCall.manager none none).generate
      (AuthHistory.classic [.cluster (ascii "Administrator") (ascii "password")]).object) ∧
    ¬C.Defined ((OpenCall.openBucket (some (ascii "default")) none).generate
      (AuthHistory.password [.username (ascii "Administrator")]).object) := by
  constructor
  · exact not_defined_classic _ .cluster none
  · exact C.not_defined_error .nullPointer

end PhpCouchbase
