import PhpCouchbase.UrlParse

/-!
# Normalised connection strings

The pool (`pool.c`) keeps connections under their normalised connection string: the bucket as its
path for a bucket, no path for the cluster.  The string is rebuilt from the parts of its URL, except
that the cluster's is kept as it is when it has no path.

* `normalize_bucket`, `normalize_cluster` — what `pcbc_normalize_connstr` makes of a string.
* `normalize_connstr_iff` — the normal form has the parts of the string, is its own normal form,
  forgets the path and keeps everything else apart, exactly when strings without a path are spelled
  as their parts print.
* `respelled_port` — a port with a leading zero is kept without a path, and not with one.
-/

set_option autoImplicit false

namespace PhpCouchbase

/-! ## Connection strings -/

def couchbaseScheme : CString := .ofBytes (ascii "couchbase")

/-- What is assumed of `php_url_parse`: it splits the text of a well-formed URL into its parts, and
finds the scheme that a text begins with. -/
structure SplitsUrls (parse : Bytes → Option Url) : Prop where
  render : ∀ u : Url, u.WellFormed → parse u.render = some u
  prefixed : ∀ t u, parse (ascii "couchbase://" ++ t) = some u → u.scheme = some couchbaseScheme

/-- A connection string that is accepted and split: with a scheme, or as a bare path that is read
again behind one. -/
structure ConnString (parse : Bytes → Option Url) where
  text : CString
  /-- the text with the scheme -/
  full : Bytes
  url : Url
  read : (full = text.bytes ∧ parse text.bytes = some url) ∨
    (full = ascii "couchbase://" ++ text.bytes ∧ parse full = some url ∧
      ∃ bare, parse text.bytes = some bare ∧ bare.scheme = none ∧ bare.host = none)
  wellFormed : url.WellFormed

def isBucketChar (c : UInt8) : Bool :=
  decide (65 ≤ c.toNat ∧ c.toNat ≤ 90) || decide (97 ≤ c.toNat ∧ c.toNat ≤ 122) || isDigit c ||
    c = 37 || c = 45 || c = 46 || c = 95

/-- The name of a bucket: letters, digits and `_-.%`. -/
structure BucketName where
  name : CString
  nonempty : name.bytes ≠ []
  chars : ∀ c ∈ name.bytes, isBucketChar c = true

/-- The path that is exactly the bucket. -/
def BucketName.path (b : BucketName) : CString where
  bytes := 47 :: b.name.bytes
  no_nul h := by
    rcases List.mem_cons.mp h with h | h
    · cases h
    · exact b.name.no_nul h

variable {parse : Bytes → Option Url}

theorem ConnString.parse_full (c : ConnString parse) : parse c.full = some c.url := by
  rcases c.read with ⟨hfull, h⟩ | ⟨-, h, -⟩
  · rw [hfull, h]
  · exact h

theorem isBucketChar_plain {c : UInt8} (h : isBucketChar c = true) :
    c ≠ 63 ∧ c ≠ 35 ∧ isControl c = false := by
  refine ⟨?_, ?_, ?_⟩
  · rintro rfl
    cases h
  · rintro rfl
    cases h
  · simp only [isBucketChar, isDigit, Bool.or_eq_true, decide_eq_true_eq, ← UInt8.toNat_inj] at h
    have hne : c ≠ 127 := by
      rintro rfl
      revert h
      decide
    have hlt : ¬c.toNat < 32 := by
      have h37 : (37 : UInt8).toNat = 37 := rfl
      have h45 : (45 : UInt8).toNat = 45 := rfl
      have h46 : (46 : UInt8).toNat = 46 := rfl
      have h95 : (95 : UInt8).toNat = 95 := rfl
      omega
    simp [isControl, hlt, hne]

theorem wellFormed_withBucket {u : Url} (hu : u.WellFormed) (b : BucketName) :
    (u.withPath (some b.path)).WellFormed where
  scheme := hu.scheme
  host := hu.host
  path p hp := by
    cases hp
    refine ⟨rfl, List.forall_mem_cons.mpr ⟨by decide, fun c hc => isBucketChar_plain (b.chars c hc)⟩⟩
  query := hu.query

theorem wellFormed_withoutPath {u : Url} (hu : u.WellFormed) : (u.withPath none).WellFormed where
  scheme := hu.scheme
  host := hu.host
  path p hp := by cases hp
  query := hu.query

/-! ## What the function makes of them -/

/-- The function works on the text with the scheme. -/
theorem normalizeConnstr_full (c : ConnString parse) (type : LcbType) (name : Option CString) :
    normalizeConnstr parse type c.text name =
      match type with
      | .bucket =>
        match name with
        | some b =>
          if b.bytes ≠ [] then
            some (c.url.authority ++ ascii "/" ++ b.bytes ++ c.url.querySuffix)
          else some c.full
        | none => some c.full
      | .cluster =>
        match c.url.path with
        | some path =>
          if path.bytes ≠ [] then some (c.url.authority ++ c.url.querySuffix) else some c.full
        | none => some c.full := by
  obtain ⟨s, hs, -⟩ := c.wellFormed.scheme
  rcases c.read with ⟨hfull, h⟩ | ⟨hfull, h, bare, hbare, hscheme, hhost⟩
  · have hno : ¬(c.url.scheme = none ∧ c.url.host = none) := by
      rw [hs]
      simp
    unfold normalizeConnstr
    cases type with
    | bucket =>
      cases name <;> simp only [h, hfull, Option.bind_eq_bind, Option.bind_some, if_neg hno,
        Option.pure_def]
    | cluster =>
      cases hpath : c.url.path <;> simp only [h, hfull, hpath, Option.bind_eq_bind, Option.bind_some,
        if_neg hno, Option.pure_def]
  · rw [hfull] at h ⊢
    unfold normalizeConnstr
    have hbare' : bare.scheme = none ∧ bare.host = none := ⟨hscheme, hhost⟩
    cases type with
    | bucket =>
      cases name <;> simp only [h, hbare, Option.bind_eq_bind, Option.bind_some, if_pos hbare',
        Option.map_some, Option.pure_def]
    | cluster =>
      cases hpath : c.url.path <;> simp only [h, hbare, hpath, Option.bind_eq_bind, Option.bind_some,
        if_pos hbare', Option.map_some, Option.pure_def]

theorem Url.no_nul_render (u : Url) : 0 ∉ u.render := by
  have hport : 0 ∉ decimal u.port.toNat := fun h => absurd (isDigit_of_mem_decimal h) (by decide)
  have hscheme : ∀ s : CString, 0 ∉ s.bytes ++ ascii "://" := by
    intro s h
    rcases List.mem_append.mp h with h | h
    · exact s.no_nul h
    · exact absurd h (by decide)
  have hquery : ∀ q : CString, 0 ∉ ascii "?" ++ q.bytes := by
    intro q h
    rcases List.mem_append.mp h with h | h
    · exact absurd h (by decide)
    · exact q.no_nul h
  unfold Url.render Url.authority Url.querySuffix
  rw [List.append_assoc, List.append_assoc, List.append_assoc]
  simp only [List.mem_append, not_or]
  refine ⟨?_, ?_, ?_, ?_, ?_⟩
  · cases u.scheme with
    | none => exact List.not_mem_nil
    | some s => exact hscheme s
  · cases u.host with
    | none => exact List.not_mem_nil
    | some h => exact h.no_nul
  · split
    · intro h
      rcases List.mem_append.mp h with h | h
      · exact absurd h (by decide)
      · exact hport h
    · exact List.not_mem_nil
  · cases u.path with
    | none => exact List.not_mem_nil
    | some p => exact p.no_nul
  · cases u.query with
    | none => exact List.not_mem_nil
    | some q => exact hquery q

/-- The text of a URL. -/
def Url.text (u : Url) : CString := ⟨u.render, u.no_nul_render⟩

theorem ConnString.no_nul_full (c : ConnString parse) : 0 ∉ c.full := by
  rcases c.read with ⟨hfull, -⟩ | ⟨hfull, -⟩
  · rw [hfull]
    exact c.text.no_nul
  · rw [hfull]
    intro h
    rcases List.mem_append.mp h with h | h
    · exact absurd h (by decide)
    · exact c.text.no_nul h

/-- What a bucket's connection string becomes. -/
def ConnString.bucketForm (c : ConnString parse) (b : BucketName) : CString :=
  (c.url.withPath (some b.path)).text

/-- What a cluster's connection string becomes: without a path it is kept. -/
def ConnString.clusterForm (c : ConnString parse) : CString :=
  if c.url.path = none then ⟨c.full, c.no_nul_full⟩ else (c.url.withPath none).text

theorem normalize_bucket (c : ConnString parse) (b : BucketName) :
    normalizeConnstr parse .bucket c.text (some b.name) = some (c.bucketForm b).bytes := by
  have hform : c.url.authority ++ ascii "/" ++ b.name.bytes ++ c.url.querySuffix =
      (c.bucketForm b).bytes := by
    have hpath : b.path.bytes = ascii "/" ++ b.name.bytes := rfl
    change _ = c.url.authority ++ b.path.bytes ++ c.url.querySuffix
    rw [hpath, ← List.append_assoc]
  rw [normalizeConnstr_full]
  simp only [if_pos b.nonempty, hform]

theorem normalize_cluster (c : ConnString parse) (name : Option CString) :
    normalizeConnstr parse .cluster c.text name = some c.clusterForm.bytes := by
  rw [normalizeConnstr_full]
  unfold ConnString.clusterForm
  cases hpath : c.url.path with
  | none => rfl
  | some p =>
    have hne : p.bytes ≠ [] := by
      intro hnil
      have hhead := (c.wellFormed.path p hpath).1
      rw [hnil] at hhead
      cases hhead
    have hform : c.url.authority ++ c.url.querySuffix = (c.url.withPath none).text.bytes := by
      change _ = c.url.authority ++ [] ++ c.url.querySuffix
      rw [List.append_nil]
    simp only [if_pos hne, hform]
    rfl

/-! ## Normal forms are read as what they stand for -/

theorem parse_bucketForm (splits : SplitsUrls parse) (c : ConnString parse) (b : BucketName) :
    parse (c.bucketForm b).bytes = some (c.url.withPath (some b.path)) :=
  splits.render _ (wellFormed_withBucket c.wellFormed b)

theorem Url.withPath_of_none {u : Url} (h : u.path = none) : u.withPath none = u := by
  unfold Url.withPath
  rw [← h]

theorem parse_clusterForm (splits : SplitsUrls parse) (c : ConnString parse) :
    parse c.clusterForm.bytes = some (c.url.withPath none) := by
  unfold ConnString.clusterForm
  split
  · rename_i hpath
    rw [Url.withPath_of_none hpath]
    exact c.parse_full
  · exact splits.render _ (wellFormed_withoutPath c.wellFormed)

/-- A text that is read as a well-formed URL. -/
def ConnString.ofText {t : CString} {u : Url} (h : parse t.bytes = some u) (hu : u.WellFormed) :
    ConnString parse := ⟨t, t.bytes, u, .inl ⟨rfl, h⟩, hu⟩

/-- A string has a normal form with the parts of `u`, which is its own normal form. -/
def NormalisesTo (parse : Bytes → Option Url) (type : LcbType) (text : CString)
    (name : Option CString) (u : Url) : Prop :=
  ∃ n : CString, normalizeConnstr parse type text name = some n.bytes ∧
    parse n.bytes = some u ∧ normalizeConnstr parse type n name = some n.bytes

theorem normalisesTo_bucket (splits : SplitsUrls parse) (c : ConnString parse) (b : BucketName) :
    NormalisesTo parse .bucket c.text (some b.name) (c.url.withPath (some b.path)) := by
  have hparse := parse_bucketForm splits c b
  refine ⟨c.bucketForm b, normalize_bucket c b, hparse, ?_⟩
  exact normalize_bucket (.ofText hparse (wellFormed_withBucket c.wellFormed b)) b

theorem normalisesTo_cluster (splits : SplitsUrls parse) (c : ConnString parse)
    (name : Option CString) :
    NormalisesTo parse .cluster c.text name (c.url.withPath none) := by
  have hparse := parse_clusterForm splits c
  refine ⟨c.clusterForm, normalize_cluster c name, hparse, ?_⟩
  exact normalize_cluster (.ofText hparse (wellFormed_withoutPath c.wellFormed)) name

/-! ## Forgetting the path -/

/-- A string that has a path, or is spelled as its parts print. -/
def ConnString.Plain (c : ConnString parse) : Prop := c.url.path ≠ none ∨ c.full = c.url.render

theorem clusterForm_of_plain {c : ConnString parse} (h : c.Plain) :
    c.clusterForm.bytes = (c.url.withPath none).render := by
  unfold ConnString.clusterForm
  split
  · rename_i hpath
    rw [Url.withPath_of_none hpath]
    exact h.resolve_left (not_not.mpr hpath)
  · rfl

variable {c c' : ConnString parse} {b b' : BucketName}

/-- The two strings differ in their path at most. -/
def ConnString.SameButPath (c c' : ConnString parse) : Prop :=
  c.url.withPath none = c'.url.withPath none

theorem bucketForm_congr (h : c.SameButPath c') (b : BucketName) : c.bucketForm b = c'.bucketForm b := by
  have hurl := congrArg (Url.withPath · (some b.path)) h
  exact congrArg Url.text hurl

theorem clusterForm_congr (h : c.SameButPath c') (hplain : c.Plain ∧ c'.Plain ∨ c.full = c'.full) :
    c.clusterForm = c'.clusterForm := by
  rcases hplain with ⟨hc, hc'⟩ | hfull
  · rw [CString.mk.injEq, clusterForm_of_plain hc, clusterForm_of_plain hc', h]
  · have hurl : c.url = c'.url := by
      have hparse := c.parse_full
      rw [hfull, c'.parse_full] at hparse
      exact (Option.some.inj hparse).symm
    simp only [ConnString.clusterForm, hfull, hurl]

/-- Where one string is kept and not plain, the other one is the same. -/
theorem plain_of_clusterForm_eq (h : c.SameButPath c') (hform : c.clusterForm = c'.clusterForm) :
    c.Plain ∨ c.full = c'.full := by
  by_cases hpath : c.url.path = none
  · have hc : c.clusterForm.bytes = c.full := by rw [ConnString.clusterForm, if_pos hpath]
    by_cases hpath' : c'.url.path = none
    · have hc' : c'.clusterForm.bytes = c'.full := by rw [ConnString.clusterForm, if_pos hpath']
      right
      rw [← hc, ← hc', hform]
    · left
      right
      rw [← hc, hform, clusterForm_of_plain (Or.inl hpath'), ← h, Url.withPath_of_none hpath]
  · exact Or.inl (Or.inl hpath)

/-- **The cluster's normal form forgets the path** exactly when both strings are plain, or equal. -/
theorem clusterForm_eq_iff (h : c.SameButPath c') :
    c.clusterForm = c'.clusterForm ↔ c.Plain ∧ c'.Plain ∨ c.full = c'.full := by
  constructor
  · intro hform
    rcases plain_of_clusterForm_eq h hform with hc | hfull
    · rcases plain_of_clusterForm_eq h.symm hform.symm with hc' | hfull
      · exact Or.inl ⟨hc, hc'⟩
      · exact Or.inr hfull.symm
    · exact Or.inr hfull
  · exact clusterForm_congr h

/-! ## Keys -/

/-- The key that `pcbc_connection_get` looks up. -/
def poolKey (parse : Bytes → Option Url) (type : LcbType) (text : CString) (name : Option CString)
    (authHash : Bytes) : Option Bytes :=
  (normalizeConnstr parse type text name).map fun cstr => connectionKey type cstr authHash

theorem connectionKey_ne {type : LcbType} {cstr cstr' hash hash' : Bytes}
    (hhash : hash.length = hash'.length) (h : cstr ≠ cstr') :
    connectionKey type cstr hash ≠ connectionKey type cstr' hash' :=
  fun hkey => h ((key_injective hhash).mp hkey).1

theorem path_injective (h : b.path = b'.path) : b.name = b'.name := by
  have hbytes : 47 :: b.name.bytes = 47 :: b'.name.bytes := congrArg CString.bytes h
  exact CString.ext (List.cons.inj hbytes).2

/-- **Different buckets, or different parts, have different keys.** -/
theorem bucketKeys_ne (splits : SplitsUrls parse)
    (h : b.name ≠ b'.name ∨ c.url.withPath none ≠ c'.url.withPath none) {hash hash' : Bytes}
    (hhash : hash.length = hash'.length) :
    poolKey parse .bucket c.text (some b.name) hash ≠
      poolKey parse .bucket c'.text (some b'.name) hash' := by
  unfold poolKey
  rw [normalize_bucket, normalize_bucket, Option.map_some, Option.map_some, Ne,
    Option.some.injEq]
  refine connectionKey_ne hhash fun hform => ?_
  have hurl := parse_bucketForm splits c b
  rw [hform, parse_bucketForm splits c' b', Option.some.injEq] at hurl
  rcases h with hname | hparts
  · exact hname (path_injective (Option.some.inj (congrArg Url.path hurl.symm)))
  · have hwithout := congrArg (Url.withPath · none) hurl.symm
    exact hparts hwithout

theorem clusterKeys_ne (splits : SplitsUrls parse)
    (h : c.url.withPath none ≠ c'.url.withPath none) (name name' : Option CString)
    {hash hash' : Bytes} (hhash : hash.length = hash'.length) :
    poolKey parse .cluster c.text name hash ≠ poolKey parse .cluster c'.text name' hash' := by
  unfold poolKey
  rw [normalize_cluster, normalize_cluster, Option.map_some, Option.map_some, Ne,
    Option.some.injEq]
  refine connectionKey_ne hhash fun hform => ?_
  have hurl := parse_clusterForm splits c
  rw [hform, parse_clusterForm splits c', Option.some.injEq] at hurl
  exact h hurl.symm

/-! ## What normalisation is for -/

/-- **Normalisation** of two connection strings, for two buckets and for the cluster. -/
structure Normalises (c c' : ConnString parse) (b b' : BucketName) : Prop where
  given : ∀ u, parse c.text.bytes = some u → u.scheme ≠ none → c.url = u
  absent : ∀ u, parse c.text.bytes = some u → u.scheme = none →
    parse (ascii "couchbase://" ++ c.text.bytes) = some c.url ∧ c.url.scheme = some couchbaseScheme
  bucket : NormalisesTo parse .bucket c.text (some b.name) (c.url.withPath (some b.path))
  cluster : ∀ name, NormalisesTo parse .cluster c.text name (c.url.withPath none)
  samePathBucket : c.SameButPath c' →
    normalizeConnstr parse .bucket c.text (some b.name) =
      normalizeConnstr parse .bucket c'.text (some b.name)
  samePathCluster : c.SameButPath c' → ∀ name,
    normalizeConnstr parse .cluster c.text name = normalizeConnstr parse .cluster c'.text name
  bucketKeys : b.name ≠ b'.name ∨ c.url.withPath none ≠ c'.url.withPath none →
    ∀ hash hash' : Bytes, hash.length = 32 → hash'.length = 32 →
      poolKey parse .bucket c.text (some b.name) hash ≠
        poolKey parse .bucket c'.text (some b'.name) hash'
  clusterKeys : c.url.withPath none ≠ c'.url.withPath none →
    ∀ (name name' : Option CString) (hash hash' : Bytes), hash.length = 32 → hash'.length = 32 →
      poolKey parse .cluster c.text name hash ≠ poolKey parse .cluster c'.text name' hash'

theorem ConnString.url_given (c : ConnString parse) {u : Url} (h : parse c.text.bytes = some u)
    (hscheme : u.scheme ≠ none) : c.url = u := by
  rcases c.read with ⟨-, hread⟩ | ⟨-, -, bare, hbare, hnone, -⟩
  · rw [h] at hread
    exact (Option.some.inj hread).symm
  · rw [h, Option.some.injEq] at hbare
    rw [hbare] at hscheme
    exact absurd hnone hscheme

theorem ConnString.url_absent (splits : SplitsUrls parse) (c : ConnString parse) {u : Url}
    (h : parse c.text.bytes = some u) (hscheme : u.scheme = none) :
    parse (ascii "couchbase://" ++ c.text.bytes) = some c.url ∧
      c.url.scheme = some couchbaseScheme := by
  rcases c.read with ⟨-, hread⟩ | ⟨hfull, hread, -⟩
  · obtain ⟨s, hs, -⟩ := c.wellFormed.scheme
    rw [h, Option.some.injEq] at hread
    rw [hread, hs] at hscheme
    cases hscheme
  · rw [hfull] at hread
    exact ⟨hread, splits.prefixed _ _ hread⟩

/-- **Connection strings.**  For every two accepted strings and every two buckets, the normal forms
are what they should be exactly when two strings that differ in their path at most have a path or
are spelled as their parts print, or are the same. -/
theorem normalize_connstr_iff (parse : Bytes → Option Url) (splits : SplitsUrls parse)
    (c c' : ConnString parse) (b b' : BucketName) :
    Normalises c c' b b' ↔ (c.SameButPath c' → c.Plain ∧ c'.Plain ∨ c.full = c'.full) := by
  constructor
  · intro h hsame
    have hforms := h.samePathCluster hsame none
    rw [normalize_cluster, normalize_cluster, Option.some.injEq] at hforms
    exact (clusterForm_eq_iff hsame).mp (CString.ext hforms)
  · intro hplain
    constructor
    · exact fun u h hscheme => c.url_given h hscheme
    · exact fun u h hscheme => c.url_absent splits h hscheme
    · exact normalisesTo_bucket splits c b
    · exact normalisesTo_cluster splits c
    · intro hsame
      rw [normalize_bucket, normalize_bucket, bucketForm_congr hsame]
    · intro hsame name
      rw [normalize_cluster, normalize_cluster, clusterForm_congr hsame (hplain hsame)]
    · intro h hash hash' hlen hlen'
      exact bucketKeys_ne splits h (hlen.trans hlen'.symm)
    · intro h name name' hash hash' hlen hlen'
      exact clusterKeys_ne splits h name name' (hlen.trans hlen'.symm)

/-! ## Concrete strings -/

theorem urlParse_prefixed {t : Bytes} {u : Url}
    (h : urlParse (ascii "couchbase://" ++ t) = some u) : u.scheme = some couchbaseScheme := by
  have htext : ascii "couchbase://" ++ t = ascii "couchbase" ++ (ascii "://" ++ t) := rfl
  have hchars : ∀ c ∈ ascii "couchbase", isSchemeChar c = true := List.all_eq_true.mp rfl
  rw [htext, urlParse, splitScheme_append (by decide) hchars] at h
  obtain ⟨⟨host, port⟩, -, h⟩ := Option.bind_eq_some_iff.mp h
  simp only at h
  split at h
  · cases h
  · cases h
    rfl

theorem splitsUrls_urlParse : SplitsUrls urlParse where
  render _ hu := urlParse_render hu
  prefixed _ _ h := urlParse_prefixed h

/-- The node `h`. -/
def nodeUrl (port : UInt16) (path : Option CString) : Url :=
  ⟨some couchbaseScheme, some (.ofBytes (ascii "h")), port, path, none⟩

theorem wellFormed_nodeUrl (port : UInt16) : (nodeUrl port none).WellFormed where
  scheme := ⟨couchbaseScheme, rfl, by decide, List.all_eq_true.mp rfl⟩
  host := by
    refine ⟨.ofBytes (ascii "h"), rfl, by decide, ?_, fun _ => .inl (by decide)⟩
    intro c hc
    obtain rfl : c = 104 := List.mem_singleton.mp hc
    decide
  path p hp := by cases hp
  query q hq := by cases hq

def bucketX : BucketName := ⟨.ofBytes (ascii "x"), by decide, List.all_eq_true.mp rfl⟩

/-- The text `couchbase://h`. -/
def plainNode : ConnString urlParse :=
  .ofText (t := .ofBytes (ascii "couchbase://h")) (u := nodeUrl 0 none) rfl (wellFormed_nodeUrl 0)

/-- The bare text `h/x`, which is a path. -/
def bareNode : ConnString urlParse where
  text := .ofBytes (ascii "h/x")
  full := ascii "couchbase://h/x"
  url := nodeUrl 0 (some bucketX.path)
  read := .inr ⟨rfl, rfl, ⟨none, none, 0, some (.ofBytes (ascii "h/x")), none⟩, rfl, rfl, rfl⟩
  wellFormed := wellFormed_withBucket (wellFormed_nodeUrl 0) bucketX

/-- The node with a scheme and without a path, and as a bare path. -/
theorem plainNode_normalises : Normalises plainNode bareNode bucketX bucketX :=
  (normalize_connstr_iff urlParse splitsUrls_urlParse plainNode bareNode bucketX bucketX).mpr
    fun _ => .inl ⟨.inr rfl, .inl (by decide)⟩

/-- The text `couchbase://h:08091`. -/
def paddedPort : ConnString urlParse :=
  .ofText (t := .ofBytes (ascii "couchbase://h:08091")) (u := nodeUrl 8091 none) rfl
    (wellFormed_nodeUrl 8091)

/-- The text `couchbase://h:08091/x`. -/
def paddedPortPath : ConnString urlParse :=
  .ofText (t := .ofBytes (ascii "couchbase://h:08091/x")) (u := nodeUrl 8091 (some bucketX.path)) rfl
    (wellFormed_withBucket (wellFormed_nodeUrl 8091) bucketX)

/-- **A port with a leading zero** is kept in `couchbase://h:08091`, and is not in
`couchbase://h:08091/x`: the strings differ in their path, and have different normal forms. -/
theorem respelled_port :
    normalizeConnstr urlParse .cluster paddedPort.text none = some (ascii "couchbase://h:08091") ∧
    normalizeConnstr urlParse .cluster paddedPortPath.text none = some (ascii "couchbase://h:8091") ∧
    paddedPort.SameButPath paddedPortPath ∧
    ¬Normalises paddedPort paddedPortPath bucketX bucketX := by
  have hkept : normalizeConnstr urlParse .cluster paddedPort.text none =
      some (ascii "couchbase://h:08091") := rfl
  have hrebuilt : normalizeConnstr urlParse .cluster paddedPortPath.text none =
      some (ascii "couchbase://h:8091") := rfl
  have hsame : paddedPort.SameButPath paddedPortPath := by
    unfold ConnString.SameButPath
    rw [show paddedPort.url = nodeUrl 8091 none from rfl,
      show paddedPortPath.url = nodeUrl 8091 (some bucketX.path) from rfl]
    rfl
  refine ⟨hkept, hrebuilt, hsame, fun h => ?_⟩
  have hforms := h.samePathCluster hsame none
  rw [hkept, hrebuilt, Option.some.injEq] at hforms
  exact absurd hforms (by decide)

end PhpCouchbase
