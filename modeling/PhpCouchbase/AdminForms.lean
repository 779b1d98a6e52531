import PhpCouchbase.AdminRequests
import PhpCouchbase.FormEncode
import PhpCouchbase.Lib.LastWrite

/-!
# Forms of the cluster manager

A user and a bucket are made by a form (`cluster_manager.c`).  The settings of a user are collected
by calls (`cluster_manager/user_settings.c`); those of a bucket are its defaults, and the options of
the caller over them.

* `upsertUser_meaning` — from the calls on `UserSettings` to the fields and the roles that the server
  reads.
* `createBucket_meaning` — from the options to the settings that the server reads.
-/

set_option autoImplicit false

namespace PhpCouchbase

open OrderedMap

/-! ## The settings of a user -/

/-- `UserSettings::__construct` -/
def UserSettings.new : UserSettings := ⟨none, none, []⟩

/-- The text that `UserSettings::role` appends for a role; an empty bucket is none. -/
def roleText (role bucket : Bytes) : Bytes :=
  role ++ if bucket = [] then [] else 91 :: bucket ++ [93]

/-- `UserSettings::role` -/
def UserSettings.role (settings : UserSettings) (role bucket : Bytes) : UserSettings :=
  { settings with
    roles := (if narrowInt settings.roles.length = 0 then settings.roles
      else settings.roles ++ [44]) ++ roleText role bucket }

/-- A call on `UserSettings`. -/
inductive UserCall where
  | fullName (fullName : Bytes)
  | password (password : Bytes)
  | role (role bucket : Bytes)

def UserSettings.call (settings : UserSettings) : UserCall → UserSettings
  | .fullName fullName => { settings with fullName := some fullName }
  | .password password => { settings with password := some password }
  | .role role bucket => settings.role role bucket

namespace UserCall

def named : UserCall → Option Bytes
  | .fullName s => some s
  | _ => none

def secret : UserCall → Option Bytes
  | .password s => some s
  | _ => none

def grant : UserCall → Option (Bytes × Bytes)
  | .role r b => some (r, b)
  | _ => none

end UserCall

/-! ## The text of the roles -/

/-- The roles with commas between them; at the beginning, a role without a text leaves no comma. -/
def rolesText (grants : List (Bytes × Bytes)) : Bytes :=
  [44].intercalate ((grants.map fun g => roleText g.1 g.2).dropWhile (· = []))

/-- A role is its name, and its bucket in brackets. -/
def readRole (piece : Bytes) : Bytes × Bytes :=
  (piece.takeWhile (· ≠ 91), ((piece.dropWhile (· ≠ 91)).drop 1).takeWhile (· ≠ 93))

/-- The roles that the server reads. -/
def readRoles (text : Bytes) : List (Bytes × Bytes) :=
  if text = [] then [] else (text.splitOn 44).map readRole

/-- A role has a name, and the separators are in no name. -/
def RoleNamed (g : Bytes × Bytes) : Prop :=
  g.1 ≠ [] ∧ 44 ∉ g.1 ∧ 91 ∉ g.1 ∧ 44 ∉ g.2 ∧ 93 ∉ g.2

instance (g : Bytes × Bytes) : Decidable (RoleNamed g) :=
  inferInstanceAs (Decidable (_ ∧ _ ∧ _ ∧ _ ∧ _))

theorem roleText_ne_nil {g : Bytes × Bytes} (h : RoleNamed g) : roleText g.1 g.2 ≠ [] := by
  simp [roleText, h.1]

theorem readRole_roleText {g : Bytes × Bytes} (h : RoleNamed g) :
    readRole (roleText g.1 g.2) = g := by
  obtain ⟨role, bucket⟩ := g
  obtain ⟨-, -, hopen, -, hclose⟩ := h
  have hname : ∀ c ∈ role, decide (c ≠ 91) = true := by
    intro c hc
    have hne : c ≠ 91 := fun heq => hopen (heq ▸ hc)
    simpa using hne
  have hbucket : ∀ c ∈ bucket, decide (c ≠ 93) = true := by
    intro c hc
    have hne : c ≠ 93 := fun heq => hclose (heq ▸ hc)
    simpa using hne
  unfold roleText readRole
  rw [List.takeWhile_append_of_pos hname, List.dropWhile_append_of_pos hname]
  split
  · rename_i hnil
    rw [show bucket = [] from hnil]
    simp
  · rw [List.cons_append, List.takeWhile_cons_of_neg (by decide),
      List.dropWhile_cons_of_neg (by decide), List.drop_succ_cons, List.drop_zero,
      List.takeWhile_append_of_pos hbucket, List.takeWhile_cons_of_neg (by decide)]
    simp

/-- **The roles come back**, in their order. -/
theorem readRoles_rolesText {grants : List (Bytes × Bytes)} (h : ∀ g ∈ grants, RoleNamed g) :
    readRoles (rolesText grants) = grants := by
  cases grants with
  | nil => rfl
  | cons g grants =>
    have hfull : (((g :: grants).map fun g => roleText g.1 g.2).dropWhile (· = [])) =
        (g :: grants).map fun g => roleText g.1 g.2 := by
      rw [List.map_cons, List.dropWhile_cons_of_neg]
      simpa using roleText_ne_nil (h g List.mem_cons_self)
    have hcomma : ∀ l ∈ (g :: grants).map (fun g => roleText g.1 g.2), 44 ∉ l := by
      intro l hl
      obtain ⟨g', hg', rfl⟩ := List.mem_map.mp hl
      obtain ⟨-, hrole, -, hbucket, -⟩ := h g' hg'
      rw [roleText, List.mem_append]
      split
      · simpa using hrole
      · simp [hrole, hbucket]
    have hne : rolesText (g :: grants) ≠ [] := by
      rw [rolesText, hfull, List.map_cons, intercalate_cons]
      simp [roleText_ne_nil (h g List.mem_cons_self)]
    rw [readRoles, if_neg hne, rolesText, hfull, List.splitOn_intercalate 44 hcomma (by simp),
      List.map_map]
    conv_rhs => rw [← List.map_id (g :: grants)]
    exact List.map_congr_left fun g' hg' => readRole_roleText (h g' hg')

theorem intercalate_append_singleton (x : UInt8) {ps : List Bytes} (h : ps ≠ []) (p : Bytes) :
    [x].intercalate (ps ++ [p]) = [x].intercalate ps ++ [x] ++ p := by
  obtain ⟨q, ps, rfl⟩ := List.exists_cons_of_ne_nil h
  rw [List.cons_append, intercalate_cons, intercalate_cons, List.flatMap_append]
  simp

theorem rolesText_eq_nil_iff {grants : List (Bytes × Bytes)} :
    rolesText grants = [] ↔
      (grants.map fun g => roleText g.1 g.2).dropWhile (· = []) = [] := by
  unfold rolesText
  constructor
  · intro h
    cases hd : (grants.map fun g => roleText g.1 g.2).dropWhile (· = []) with
    | nil => rfl
    | cons p ps =>
      have hp := List.head?_dropWhile_not (fun p : Bytes => decide (p = []))
        (grants.map fun g => roleText g.1 g.2)
      rw [hd, intercalate_cons, List.append_eq_nil_iff] at h
      simp [hd, h.1] at hp
  · intro h
    rw [h]
    rfl

/-- A role more. -/
theorem rolesText_append_singleton (grants : List (Bytes × Bytes)) (g : Bytes × Bytes) :
    rolesText (grants ++ [g]) =
      (if rolesText grants = [] then rolesText grants else rolesText grants ++ [44]) ++
        roleText g.1 g.2 := by
  simp only [rolesText_eq_nil_iff]
  unfold rolesText
  rw [List.map_append, List.dropWhile_append]
  cases hd : (grants.map fun g => roleText g.1 g.2).dropWhile (· = []) with
  | nil =>
    rw [if_pos (by rfl), if_pos rfl, List.map_singleton]
    by_cases hg : roleText g.1 g.2 = []
    · simp [hg]
    · simp [hg]
  | cons p ps =>
    rw [if_neg (by simp), if_neg (by simp)]
    exact intercalate_append_singleton 44 (by simp) _

theorem rolesText_length_le (grants : List (Bytes × Bytes)) (g : Bytes × Bytes) :
    (rolesText grants).length ≤ (rolesText (grants ++ [g])).length := by
  rw [rolesText_append_singleton]
  split <;> simp

/-! ## The form of a user -/

/-- The settings after the calls. -/
def settingsOf (calls : List UserCall) : UserSettings := calls.foldl UserSettings.call .new

/-- The roles of the calls, in their order. -/
def grants (calls : List UserCall) : List (Bytes × Bytes) := calls.filterMap UserCall.grant

/-- **What the calls leave**: the last name, the last password and all the roles. -/
theorem settingsOf_eq {calls : List UserCall} (h : (rolesText (grants calls)).length < 2 ^ 31) :
    settingsOf calls = ⟨LastWrite.last UserCall.named calls, LastWrite.last UserCall.secret calls,
      rolesText (grants calls)⟩ := by
  induction calls using List.reverseRecOn with
  | nil => rfl
  | append_singleton calls c ih =>
    have hgrants : grants (calls ++ [c]) = grants calls ++ c.grant.toList := by
      rw [grants, List.filterMap_append, ← grants]
      cases hc : c.grant <;> simp [hc]
    have hpre : (rolesText (grants calls)).length < 2 ^ 31 := by
      cases hc : c.grant with
      | none =>
        rw [hgrants, hc, Option.toList_none, List.append_nil] at h
        exact h
      | some g =>
        rw [hgrants, hc, Option.toList_some] at h
        exact lt_of_le_of_lt (rolesText_length_le _ g) h
    rw [settingsOf, List.foldl_append, ← settingsOf, ih hpre, LastWrite.last_append_singleton,
      LastWrite.last_append_singleton, hgrants]
    cases c with
    | fullName s => simp [UserSettings.call, UserCall.named, UserCall.secret, UserCall.grant]
    | password s => simp [UserSettings.call, UserCall.named, UserCall.secret, UserCall.grant]
    | role r b =>
      have hzero : narrowInt (rolesText (grants calls)).length = 0 ↔ rolesText (grants calls) = [] := by
        rw [narrowInt_of_lt hpre, Int.natCast_eq_zero, List.length_eq_zero_iff]
      have hroles : rolesText (grants calls ++ [(r, b)]) = _ :=
        rolesText_append_singleton (grants calls) (r, b)
      simp only [List.foldl_cons, List.foldl_nil, UserSettings.call, UserSettings.role,
        UserCall.named, UserCall.secret, UserCall.grant, Option.none_or, Option.toList_some,
        hroles, hzero]

/-- The fields of the form: what is not set, and roles without a text, are left out. -/
def UserSettings.fields (settings : UserSettings) : List (Bytes × Bytes) :=
  (settings.fullName.map fun text => (ascii "name", text)).toList ++
    (settings.password.map fun text => (ascii "password", text)).toList ++
    if settings.roles = [] then [] else [(ascii "roles", settings.roles)]

/-- The texts fit an `int`. -/
structure UserSettings.Fits (settings : UserSettings) : Prop where
  fullName : ∀ text, settings.fullName = some text → text.length < 2 ^ 31
  password : ∀ text, settings.password = some text → text.length < 2 ^ 31
  roles : settings.roles.length < 2 ^ 31

/-- An array of texts. -/
def textElems (fields : List (Bytes × Bytes)) : List (ArrayKey × Zval) :=
  fields.map fun f => (.str f.1, .string f.2)

theorem received_textElems (form : FormPhp) (fields : List (Bytes × Bytes)) :
    received form (textElems fields) = fields := by
  induction fields with
  | nil => rfl
  | cons f fields ih =>
    rw [textElems, List.map_cons, received, scalarsOfElems, List.map_append, ← received,
      ← textElems, ih]
    rfl

theorem addText_eq {body : List (ArrayKey × Zval)} {key : String} {text : Bytes}
    (hkey : symtableKey (ascii key) = .str (ascii key)) (h : text.length < 2 ^ 31) :
    addText body key text = .ok (update body (.str (ascii key)) (.string text)) := by
  rw [addText, prefixOf_narrowInt h, ← hkey]
  rfl

theorem settingsBody_eq {settings : UserSettings} (h : settings.Fits) :
    settingsBody settings = .ok (textElems settings.fields) := by
  obtain ⟨fullName, password, roles⟩ := settings
  have hroles : narrowInt roles.length = 0 ↔ roles = [] := by
    rw [narrowInt_of_lt h.roles, Int.natCast_eq_zero, List.length_eq_zero_iff]
  have hadd : ∀ body, addText body "roles" roles =
      .ok (update body (.str (ascii "roles")) (.string roles)) := fun _ => addText_eq rfl h.roles
  have hname : addOptional [] "name" fullName =
      .ok (textElems (fullName.map fun text => (ascii "name", text)).toList) := by
    cases fullName with
    | none => rfl
    | some text => exact addText_eq rfl (h.fullName text rfl)
  have hpassword : ∀ body, addOptional body "password" password =
      .ok (fill body (textElems (password.map fun text => (ascii "password", text)).toList)) := by
    intro body
    cases password with
    | none => rfl
    | some text => exact addText_eq rfl (h.password text rfl)
  rw [settingsBody, hname]
  simp only [C.bind_ok, hpassword, hroles, hadd]
  unfold UserSettings.fields
  cases fullName <;> cases password <;> by_cases hnil : roles = [] <;> simp [hnil] <;> rfl

/-- What the server reads of the form of a user. -/
structure UserRead where
  fullName : Option Bytes
  password : Option Bytes
  roles : List (Bytes × Bytes)
  deriving DecidableEq

def readUser (text : Bytes) : UserRead :=
  let fields := FormUrl.parse text
  ⟨fetch fields (ascii "name"), fetch fields (ascii "password"),
    readRoles ((fetch fields (ascii "roles")).getD [])⟩

theorem readUser_eq {text : Bytes} {settings : UserSettings}
    (h : FormUrl.parse text = settings.fields) :
    readUser text = ⟨settings.fullName, settings.password, readRoles settings.roles⟩ := by
  obtain ⟨fullName, password, roles⟩ := settings
  simp only [readUser, h]
  unfold UserSettings.fields
  cases fullName <;> cases password <;> by_cases hnil : roles = [] <;> simp [hnil] <;>
    exact ⟨rfl, rfl, rfl⟩

/-- The settings that count. -/
def lastSettings (calls : List UserCall) : UserSettings :=
  ⟨LastWrite.last UserCall.named calls, LastWrite.last UserCall.secret calls,
    rolesText (grants calls)⟩

variable (php : HttpPhp)

/-- **The meaning of a user.**  Any calls on the settings in any order, and then `upsertUser`: the
server reads the last name, the last password and, when no name has a separator of the roles,
exactly the roles that were given, whatever bytes the name and the password have.  Without any of
the three the request has no body to point to. -/
theorem upsertUser_meaning (send : AdminRequest → Exchange) {form : FormPhp} (hform : form.Lawful)
    {name path : Bytes} {domain : Int64} (hpath : userPath domain name = some path)
    {calls : List UserCall} (hfits : (lastSettings calls).Fits) :
    if (lastSettings calls).fields = [] then
      upsertUser php send (fun body => some (urlEncodeHash form body)) name (settingsOf calls) domain =
        ⟨none, none, .error .nullPointer⟩
    else ∃ text,
      upsertUser php send (fun body => some (urlEncodeHash form body)) name (settingsOf calls) domain =
        userCall php send ⟨.put, requestPath path, contentForm, some text⟩ ∧
      FormUrl.parse text = (lastSettings calls).fields ∧
      ((∀ g ∈ grants calls, RoleNamed g) → readUser text =
        ⟨LastWrite.last UserCall.named calls, LastWrite.last UserCall.secret calls, grants calls⟩) := by
  have hsettings : settingsOf calls = lastSettings calls := settingsOf_eq hfits.roles
  have hread := urlEncodeHash_received form hform (textElems (lastSettings calls).fields)
  rw [received_textElems] at hread
  rw [upsertUser, hpath, hsettings]
  simp only [settingsBody_eq hfits]
  split
  · rename_i hnil
    rw [hnil]
    rfl
  · rename_i hset
    cases htext : urlEncodeHash form (textElems (lastSettings calls).fields) with
    | nil =>
      rw [htext] at hread
      exact absurd hread.symm hset
    | cons c text =>
      rw [htext] at hread
      refine ⟨c :: text, rfl, hread, fun hnamed => ?_⟩
      rw [readUser_eq hread]
      exact congrArg _ (readRoles_rolesText hnamed)

/-- Two roles, and a name that would be a third one if it were not encoded. -/
def janeCalls : List UserCall :=
  [.role (ascii "admin") [], .fullName (ascii "Jane&roles=ro_admin"), .password (ascii "a+b c"),
    .role (ascii "data_reader") (ascii "beers")]

theorem jane_request :
    ∃ text, upsertUser errorPhp (fun _ => .answered ⟨.success, 200, []⟩)
        (fun body => some (urlEncodeHash plainForm body)) (ascii "jane") (settingsOf janeCalls) 1 =
        userCall errorPhp (fun _ => .answered ⟨.success, 200, []⟩)
          ⟨.put, requestPath (ascii "/settings/rbac/users/local/jane"), contentForm, some text⟩ ∧
      FormUrl.parse text = [(ascii "name", ascii "Jane&roles=ro_admin"),
        (ascii "password", ascii "a+b c"), (ascii "roles", ascii "admin,data_reader[beers]")] ∧
      readUser text = ⟨some (ascii "Jane&roles=ro_admin"), some (ascii "a+b c"),
        [(ascii "admin", []), (ascii "data_reader", ascii "beers")]⟩ := by
  have hpath : userPath 1 (ascii "jane") = some (ascii "/settings/rbac/users/local/jane") := by
    decide
  have hfits : (lastSettings janeCalls).Fits := by
    refine ⟨fun text h => ?_, fun text h => ?_, by decide⟩
    · cases h
      decide
    · cases h
      decide
  have h := upsertUser_meaning errorPhp (fun _ => .answered ⟨.success, 200, []⟩) plainForm_lawful
    hpath hfits
  rw [if_neg (by decide)] at h
  obtain ⟨text, hcall, hread, hroles⟩ := h
  exact ⟨text, hcall, hread, hroles (by decide)⟩

/-! ## The form of a bucket -/

/-- `POST` with a form -/
structure FormPost where
  path : Bytes
  contentType : Option Bytes
  body : Bytes

/-- The defaults of `ClusterManager::createBucket`; the name ends at its first NUL. -/
def bucketDefaults (name : Bytes) : List (ArrayKey × Zval) :=
  let elems := addAssoc [] (ascii "name") (.string (CString.ofBytes name).bytes)
  let elems := addAssoc elems (ascii "authType") (.string (ascii "sasl"))
  let elems := addAssoc elems (ascii "bucketType") (.string (ascii "couchbase"))
  let elems := addAssoc elems (ascii "ramQuotaMB") (.long 100)
  addAssoc elems (ascii "replicaNumber") (.long 1)

/-- `php_array_merge`, where `next` is the next free index of the destination: string keys replace,
the other elements are appended. -/
def arrayMerge (dest : List (ArrayKey × Zval)) (next : Int64) :
    List (ArrayKey × Zval) → List (ArrayKey × Zval)
  | [] => dest
  | (.str key, value) :: src => arrayMerge (update dest (.str key) value) next src
  | (.index _, value) :: src => arrayMerge (update dest (.index next) value) (next + 1) src

/-- The elements of the options, when these are an array. -/
def optionElems : Option Zval → List (ArrayKey × Zval)
  | some (.array elems) => elems
  | _ => []

/-- The settings of the bucket: the defaults, merged with options that are an array. -/
def bucketSettings (name : Bytes) (options : Option Zval) : List (ArrayKey × Zval) :=
  arrayMerge (bucketDefaults name) 0 (optionElems options)

/-- What `createBucket` sends, throws and returns. -/
structure BucketCreation where
  sent : Option FormPost
  thrown : Option Thrown
  returned : C Zval

/-- `ClusterManager::createBucket` -/
def createBucket (post : FormPost → Exchange)
    (urlEncodeHash : List (ArrayKey × Zval) → Option Bytes) (name : Bytes)
    (options : Option Zval) : BucketCreation :=
  match urlEncodeHash (bucketSettings name options) with
  | none => ⟨none, none, .ok .null⟩
  | some [] => ⟨none, none, .error .nullPointer⟩
  | some text =>
    let req : FormPost := ⟨ascii "/pools/default/buckets", contentForm, text⟩
    let (value, err) := httpRequest php (.ok .null) true (post req)
    ⟨some req, err.map Thrown.lcb, value⟩

/-- The elements with new indices. -/
def renumber (next : Int64) : List (ArrayKey × Zval) → List (ArrayKey × Zval)
  | [] => []
  | (.str key, value) :: src => (.str key, value) :: renumber next src
  | (.index _, value) :: src => (.index next, value) :: renumber (next + 1) src

/-- **Merging** is filling in, under new indices. -/
theorem arrayMerge_eq (dest src : List (ArrayKey × Zval)) (next : Int64) :
    arrayMerge dest next src = fill dest (renumber next src) := by
  induction src generalizing dest next with
  | nil => rfl
  | cons e src ih =>
    obtain ⟨key, value⟩ := e
    cases key with
    | str key => exact ih _ next
    | index i => exact ih _ (next + 1)

theorem fetch_fill_renumber (next : Int64) (src : List (ArrayKey × Zval)) (key : Bytes) :
    fetch (fill [] (renumber next src)) (.str key) = fetch (fill [] src) (.str key) := by
  induction src generalizing next with
  | nil => rfl
  | cons e src ih =>
    obtain ⟨k, value⟩ := e
    cases k with
    | str k =>
      rw [renumber, fill_cons, fill_cons, fetch_fill, ih, ← fetch_fill]
    | index i =>
      have hskip : ∀ (j : Int64) (rs : List (ArrayKey × Zval)),
          fetch (fill [] ((.index j, value) :: rs)) (.str key) = fetch (fill [] rs) (.str key) := by
        intro j rs
        rw [fill_cons, fetch_fill, fetch_update, if_neg (by simp)]
        exact Option.or_none
      rw [renumber, hskip, hskip, ih]

theorem fetch_bucketSettings (name : Bytes) {options : Option Zval}
    (h : (keys (optionElems options)).Nodup) (key : Bytes) :
    fetch (bucketSettings name options) (.str key) =
      (fetch (optionElems options) (.str key)).or (fetch (bucketDefaults name) (.str key)) := by
  have hoptions : fill [] (optionElems options) = optionElems options := fill_of_nodup h
  rw [bucketSettings, arrayMerge_eq, fetch_fill, fetch_fill_renumber, hoptions]

/-- The scalars of an element are scalars of the array. -/
theorem scalars_subset {form : FormPhp} {outer : Option Bytes} {elems : List (ArrayKey × Zval)}
    {key : ArrayKey} {value : Zval} (h : (key, value) ∈ elems) :
    scalars form (memberName outer key.printed) value ⊆ scalarsOfElems form outer elems := by
  induction elems with
  | nil => cases h
  | cons e elems ih =>
    obtain ⟨k, v⟩ := e
    rw [scalarsOfElems]
    rcases List.mem_cons.mp h with heq | h
    · cases heq
      exact List.subset_append_left _ _
    · exact List.Subset.trans (ih h) (List.subset_append_right _ _)

theorem urlEncodeHash_nil_iff {form : FormPhp} (hform : form.Lawful)
    {elems : List (ArrayKey × Zval)} :
    urlEncodeHash form elems = [] ↔ received form elems = [] := by
  constructor
  · intro h
    rw [← urlEncodeHash_received form hform, h]
    rfl
  · intro h
    rw [received, List.map_eq_nil_iff] at h
    rw [urlEncodeHash_eq, h]
    rfl

/-- **The meaning of a bucket's form.**  The server reads the settings, and they are the options of
the caller where it gives one and the defaults elsewhere, with all scalars that are in an option;
nothing in a name or a value adds a setting.  Only when no setting has a scalar the request has no
body to point to. -/
theorem createBucket_meaning (post : FormPost → Exchange) {form : FormPhp} (hform : form.Lawful)
    (name : Bytes) {options : Option Zval} (hnodup : (keys (optionElems options)).Nodup) :
    (if received form (bucketSettings name options) = [] then
      createBucket php post (fun elems => some (urlEncodeHash form elems)) name options =
        ⟨none, none, .error .nullPointer⟩
    else ∃ text,
      (createBucket php post (fun elems => some (urlEncodeHash form elems)) name options).sent =
        some ⟨ascii "/pools/default/buckets", contentForm, text⟩ ∧
      FormUrl.parse text = received form (bucketSettings name options)) ∧
    (∀ key value, (fetch (optionElems options) (.str key)).or
        (fetch (bucketDefaults name) (.str key)) = some value →
      ∀ f ∈ scalars form key value,
        (f.1, scalarValue form f.2) ∈ received form (bucketSettings name options)) := by
  constructor
  · have hread := urlEncodeHash_received form hform (bucketSettings name options)
    split
    · rename_i hnil
      rw [createBucket, (urlEncodeHash_nil_iff hform).mpr hnil]
    · rename_i hset
      cases htext : urlEncodeHash form (bucketSettings name options) with
      | nil => exact absurd ((urlEncodeHash_nil_iff hform).mp htext) hset
      | cons c text =>
        rw [htext] at hread
        refine ⟨c :: text, ?_, hread⟩
        rw [createBucket, htext]
  · intro key value hvalue f hf
    rw [← fetch_bucketSettings name hnodup] at hvalue
    have hmem : (ArrayKey.str key, value) ∈ bucketSettings name options := mem_of_fetch hvalue
    have hsubset : scalars form (memberName none (ArrayKey.str key).printed) value ⊆
        scalarsOfElems form none (bucketSettings name options) := scalars_subset hmem
    exact List.mem_map_of_mem (hsubset hf)

/-- A larger quota, no type for the authentication, and a setting without a name. -/
def largeBucket : Option Zval :=
  some (.array [(.str (ascii "ramQuotaMB"), .long 200), (.index 5, .string (ascii "x=y")),
    (.str (ascii "authType"), .null)])

theorem large_bucket_request :
    ∃ text, (createBucket errorPhp (fun _ => .answered ⟨.success, 202, []⟩)
        (fun elems => some (urlEncodeHash plainForm elems)) (ascii "beers") largeBucket).sent =
        some ⟨ascii "/pools/default/buckets", contentForm, text⟩ ∧
      FormUrl.parse text = [(ascii "name", ascii "beers"), (ascii "bucketType", ascii "couchbase"),
        (ascii "ramQuotaMB", ascii "200"), (ascii "replicaNumber", ascii "1"),
        (ascii "0", ascii "x=y")] := by
  have hnodup : (keys (optionElems largeBucket)).Nodup := by decide
  have h := (createBucket_meaning errorPhp (fun _ => .answered ⟨.success, 202, []⟩)
    plainForm_lawful (ascii "beers") hnodup).1
  rw [if_neg (by decide)] at h
  exact h

end PhpCouchbase
