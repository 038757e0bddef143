/-
# `OpenViking.VikingFs.Paths` — URIs and the paths they are stored under

A URI is stored under `/local/<account>/…`, its components with names that are
too long for the filesystem shortened.  A path is a list of names here.
-/
import OpenViking.Query.Uri

namespace OpenViking.VikingFs

open Lib Query

/-- What is used of the interpreter. -/
structure PathRules where
  /-- the first eight hex digits of the SHA-256 of a name -/
  digest : Str → Str
  /-- `str.isalpha` of one character -/
  isAlpha : Char → Bool

inductive UriError where
  /-- `ValueError("URI must start with 'viking://'")` -/
  | scheme
  /-- `PermissionDeniedError` of a component -/
  | unsafePart (part : Str)
  /-- `ValueError("Legacy session URI is not accepted internally: …")` -/
  | legacySession (uri : Str)
  deriving DecidableEq, Repr

section

variable (rules : PathRules)

/-- A traversal, a backslash or a drive prefix. -/
def unsafePart (part : Str) : Bool :=
  part == ".".toList || part == "..".toList || part.contains '\\' ||
    match part with
    | c :: ':' :: _ => rules.isAlpha c
    | _ => false

/-- `_safe_uri_parts` -/
def safeUriParts (uri : Str) : Except UriError (List Str) :=
  if scheme <+: uri then
    let parts := segments '/' (uri.drop scheme.length)
    match parts.find? (unsafePart rules) with
    | some part => .error (.unsafePart part)
    | none => .ok parts
  else .error .scheme

/-- `len(s.encode("utf-8"))` -/
def utf8Length (s : Str) : Nat := (s.map Char.utf8Size).sum

/-- The longest initial part of at most `limit` bytes, of a reversed text. -/
def fittingReversed (limit : Nat) : Str → Str
  | [] => []
  | c :: rest => if utf8Length (c :: rest) ≤ limit then c :: rest else fittingReversed limit rest

/-- `_shorten_component` -/
def shortenComponent (maxBytes : Nat) (component : Str) : Str :=
  if utf8Length component ≤ maxBytes then component
  else
    let suffix := '_' :: rules.digest component
    (fittingReversed (maxBytes - utf8Length suffix) component.reverse).reverse ++ suffix

/-- `_MAX_FILENAME_BYTES` -/
def maxFilenameBytes : Nat := 255

/-- `_uri_to_path`; old agent URIs are mapped like all others. -/
def uriToPath (accountId uri : Str) : Except UriError (List Str) := do
  let parts ← safeUriParts rules uri
  if parts.head? = some "session".toList then .error (.legacySession uri)
  else return "local".toList :: accountId :: parts.map (shortenComponent rules maxFilenameBytes)

end

/-! ## Paths as texts -/

/-- The text of a path, `/local/…`. -/
def agfsPath (path : List Str) : Str := '/' :: ['/'].intercalate path

def localPrefix : Str := ['/', 'l', 'o', 'c', 'a', 'l', '/']

/-- `_path_to_uri`; `none` is its `ValueError`. -/
def agfsPathToUri (accountId path : Str) : Option Str :=
  if localPrefix <+: path then
    let parts := segments '/' (stripBy (· == '/') (path.drop localPrefix.length))
    let parts := if parts.head? = some accountId then parts.drop 1 else parts
    some (scheme ++ ['/'].intercalate parts)
  else none

/-- A URI in its normal form. -/
def canonicalUri (parts : List Str) : Str := scheme ++ ['/'].intercalate parts

/-- A name a path can be made of. -/
def IsName (name : Str) : Prop := name ≠ [] ∧ '/' ∉ name

/-- A name that stays in its directory, and is not too long for the filesystem. -/
structure SafeName (name : Str) : Prop where
  isName : IsName name
  notDot : name ≠ ['.']
  notDotDot : name ≠ ['.', '.']
  fits : utf8Length name ≤ maxFilenameBytes

/-- `hexdigest()[:8]` -/
def PathRules.HexDigest (rules : PathRules) : Prop :=
  ∀ name, (rules.digest name).length = 8 ∧
    ∀ c ∈ rules.digest name, c ∈ ['0', '1', '2', '3', '4', '5', '6', '7', '8', '9', 'a', 'b', 'c',
      'd', 'e', 'f']

section

variable {rules : PathRules}

/-! ### Lengths -/

theorem utf8Length_append (s t : Str) : utf8Length (s ++ t) = utf8Length s + utf8Length t := by
  rw [utf8Length, List.map_append, List.sum_append]
  rfl

theorem utf8Length_reverse (s : Str) : utf8Length s.reverse = utf8Length s := by
  rw [utf8Length, List.map_reverse, List.sum_reverse]
  rfl

theorem utf8Length_fittingReversed (limit : Nat) (s : Str) :
    utf8Length (fittingReversed limit s) ≤ limit := by
  induction s with
  | nil => exact Nat.zero_le limit
  | cons c s ih =>
      rw [fittingReversed]
      split
      · next h => exact h
      · exact ih

theorem fittingReversed_suffix (limit : Nat) (s : Str) : fittingReversed limit s <:+ s := by
  induction s with
  | nil => exact List.suffix_rfl
  | cons c s ih =>
      rw [fittingReversed]
      split
      · exact List.suffix_rfl
      · exact ih.trans (List.suffix_cons c s)

theorem utf8Length_digest (h : rules.HexDigest) (name : Str) :
    utf8Length ('_' :: rules.digest name) = 9 := by
  obtain ⟨hlen, hhex⟩ := h name
  have hone : ∀ s : Str, (∀ c ∈ s, c ∈ ['0', '1', '2', '3', '4', '5', '6', '7', '8', '9', 'a', 'b',
      'c', 'd', 'e', 'f']) → utf8Length s = s.length := by
    intro s hs
    induction s with
    | nil => rfl
    | cons c s ih =>
        have hc : ∀ d ∈ ['0', '1', '2', '3', '4', '5', '6', '7', '8', '9', 'a', 'b', 'c', 'd', 'e',
            'f'], d.utf8Size = 1 := by simp [Char.utf8Size]
        have hrest := ih fun d hd => hs d (List.mem_cons_of_mem c hd)
        rw [utf8Length, List.map_cons, List.sum_cons, hc c (hs c List.mem_cons_self), ← utf8Length,
          hrest, List.length_cons, Nat.add_comm]
  have hunder : utf8Length ['_'] = 1 := by decide
  rw [← List.singleton_append, utf8Length_append, hone _ hhex, hlen, hunder]

/-! ### Shortening -/

theorem utf8Length_shortenComponent (h : rules.HexDigest) {limit : Nat} (hlimit : 9 ≤ limit)
    (name : Str) : utf8Length (shortenComponent rules limit name) ≤ limit := by
  unfold shortenComponent
  split
  · next hfits => exact hfits
  · have hcut := utf8Length_fittingReversed (limit - 9) name.reverse
    simp only [utf8Length_append, utf8Length_reverse, utf8Length_digest h]
    omega

/-- A long name ends in its digest. -/
theorem shortenComponent_of_long (rules : PathRules) {limit : Nat} {name : Str}
    (hlong : limit < utf8Length name) :
    ∃ front, front <+: name ∧
      shortenComponent rules limit name = front ++ '_' :: rules.digest name := by
  refine ⟨(fittingReversed (limit - utf8Length ('_' :: rules.digest name)) name.reverse).reverse,
    ?_, if_neg (not_le.mpr hlong)⟩
  have hsuffix := fittingReversed_suffix
    (limit - utf8Length ('_' :: rules.digest name)) name.reverse
  exact List.reverse_suffix.mp (by rwa [List.reverse_reverse])

theorem shortenComponent_of_fits {limit : Nat} {name : Str} (h : utf8Length name ≤ limit) :
    shortenComponent rules limit name = name := if_pos h

theorem length_shortenComponent_of_long (h : rules.HexDigest) {limit : Nat} {name : Str}
    (hlong : limit < utf8Length name) : 9 ≤ (shortenComponent rules limit name).length := by
  obtain ⟨front, -, hshort⟩ := shortenComponent_of_long rules hlong
  rw [hshort, List.length_append, List.length_cons, (h name).1]
  omega

/-- The shortened name is as safe as the name. -/
theorem safeName_shortenComponent (h : rules.HexDigest) {name : Str} (hname : IsName name)
    (hsafe : unsafePart rules name = false) :
    SafeName (shortenComponent rules maxFilenameBytes name) := by
  have hlimit : 9 ≤ maxFilenameBytes := by decide
  have hfits := utf8Length_shortenComponent h hlimit name
  by_cases hlong : maxFilenameBytes < utf8Length name
  · have hlen := length_shortenComponent_of_long h hlong
    obtain ⟨front, hfront, hshort⟩ := shortenComponent_of_long rules hlong
    refine ⟨⟨fun hnil => ?_, fun hslash => ?_⟩, fun hdot => ?_, fun hdot => ?_, hfits⟩
    · rw [hnil] at hlen
      exact absurd hlen (by decide)
    · rw [hshort, List.mem_append, List.mem_cons] at hslash
      rcases hslash with hslash | hslash | hslash
      · exact hname.2 (hfront.subset hslash)
      · exact absurd hslash (by decide)
      · exact absurd ((h name).2 _ hslash) (by decide)
    · rw [hdot] at hlen
      exact absurd hlen (by decide)
    · rw [hdot] at hlen
      exact absurd hlen (by decide)
  · rw [shortenComponent_of_fits (not_lt.mp hlong)] at hfits ⊢
    refine ⟨hname, ?_, ?_, hfits⟩
    · rintro rfl
      exact absurd hsafe (by simp [unsafePart])
    · rintro rfl
      exact absurd hsafe (by simp [unsafePart])

/-! ### Accepted URIs -/

theorem uriToPath_eq_ok {accountId uri : Str} {path : List Str}
    (h : uriToPath rules accountId uri = .ok path) :
    ∃ rest, uri = scheme ++ rest ∧ (∀ part ∈ segments '/' rest, unsafePart rules part = false) ∧
      path = "local".toList :: accountId ::
        (segments '/' rest).map (shortenComponent rules maxFilenameBytes) := by
  unfold uriToPath safeUriParts at h
  by_cases hscheme : scheme <+: uri
  · obtain ⟨rest, rfl⟩ := hscheme
    refine ⟨rest, rfl, ?_⟩
    rw [if_pos (List.prefix_append _ _), List.drop_left] at h
    cases hfind : (segments '/' rest).find? (unsafePart rules) with
    | some part =>
        simp only [hfind] at h
        cases h
    | none =>
        simp only [hfind] at h
        change (if _ then _ else _) = _ at h
        split at h
        · cases h
        · cases h
          refine ⟨fun part hpart => ?_, rfl⟩
          exact Bool.eq_false_iff.mpr (List.find?_eq_none.mp hfind part hpart)
  · rw [if_neg hscheme] at h
    cases h

/-- A path of names is cut into these names. -/
theorem splitOn_agfsPath {names : List Str} (hne : names ≠ []) (h : ∀ name ∈ names, '/' ∉ name) :
    (agfsPath names).splitOn '/' = [] :: names := by
  have hcons : agfsPath names = [] ++ '/' :: ['/'].intercalate names := rfl
  rw [hcons, List.splitOn, List.splitOnP_append_cons _ _ (by simp), List.splitOnP_nil]
  exact congrArg ([] :: ·) (List.splitOn_intercalate '/' h hne)

/-- The account's directory is never left. -/
theorem safeName_of_accepted (h : rules.HexDigest) {accountId uri : Str}
    (haccount : SafeName accountId) {path : List Str}
    (hpath : uriToPath rules accountId uri = .ok path) :
    ["local".toList, accountId] <+: path ∧ ∀ name ∈ path, SafeName name := by
  obtain ⟨rest, rfl, hsafe, rfl⟩ := uriToPath_eq_ok hpath
  refine ⟨⟨_, rfl⟩, fun name hname => ?_⟩
  rcases List.mem_cons.mp hname with rfl | hname
  · exact ⟨⟨by decide, by decide⟩, by decide, by decide, by decide⟩
  · rcases List.mem_cons.mp hname with rfl | hname
    · exact haccount
    · obtain ⟨part, hpart, rfl⟩ := List.mem_map.mp hname
      exact safeName_shortenComponent h (ne_nil_and_notMem_of_mem_segments hpart) (hsafe part hpart)

theorem uriToPath_canonicalUri {accountId : Str} {parts path : List Str}
    (hparts : ∀ part ∈ parts, IsName part)
    (h : uriToPath rules accountId (canonicalUri parts) = .ok path) :
    path = "local".toList :: accountId :: parts.map (shortenComponent rules maxFilenameBytes) := by
  obtain ⟨rest, hrest, -, hpath⟩ := uriToPath_eq_ok h
  have heq : rest = ['/'].intercalate parts := (List.append_cancel_left hrest).symm
  rwa [heq, segments_intercalate hparts] at hpath

/-! ### The way back -/

theorem agfsPathToUri_eq {accountId : Str} {parts : List Str} (haccount : IsName accountId)
    (hparts : ∀ part ∈ parts, IsName part) :
    agfsPathToUri accountId (agfsPath ("local".toList :: accountId :: parts)) =
      some (canonicalUri parts) := by
  have hnames : ∀ name ∈ accountId :: parts, name ≠ [] ∧ '/' ∉ name := by
    intro name hname
    rcases List.mem_cons.mp hname with rfl | hname
    · exact haccount
    · exact hparts name hname
  have htext : agfsPath ("local".toList :: accountId :: parts) =
      localPrefix ++ ['/'].intercalate (accountId :: parts) := by
    rw [agfsPath, List.intercalate_cons_cons]
    rfl
  rw [agfsPathToUri, htext, if_pos (List.prefix_append _ _), List.drop_left, segments_stripBy,
    segments_intercalate hnames]
  simp only [List.head?_cons, if_true, List.drop_one, List.tail_cons]
  rfl

/-! ### Collisions -/

/-- A name that fits and is the shortened form of one that does not. -/
def Imitates (rules : PathRules) (name long : Str) : Prop :=
  maxFilenameBytes < utf8Length long ∧ utf8Length name ≤ maxFilenameBytes ∧
    name = shortenComponent rules maxFilenameBytes long

/-- Two names that are stored alike, the digests of long names taken to be different. -/
def StoredAlike (rules : PathRules) (name name' : Str) : Prop :=
  name = name' ∨ Imitates rules name name' ∨ Imitates rules name' name

theorem shortenComponent_eq_iff (h : rules.HexDigest) {name name' : Str}
    (hdigest : maxFilenameBytes < utf8Length name → maxFilenameBytes < utf8Length name' →
      rules.digest name = rules.digest name' → name = name') :
    shortenComponent rules maxFilenameBytes name = shortenComponent rules maxFilenameBytes name' ↔
      StoredAlike rules name name' := by
  constructor
  · intro heq
    by_cases hlong : maxFilenameBytes < utf8Length name
    · by_cases hlong' : maxFilenameBytes < utf8Length name'
      · obtain ⟨front, -, hshort⟩ := shortenComponent_of_long rules hlong
        obtain ⟨front', -, hshort'⟩ := shortenComponent_of_long rules hlong'
        rw [hshort, hshort'] at heq
        have hlen : ('_' :: rules.digest name).length = ('_' :: rules.digest name').length := by
          rw [List.length_cons, List.length_cons, (h name).1, (h name').1]
        exact .inl (hdigest hlong hlong' (List.cons.inj (List.append_inj_right' heq hlen)).2)
      · have hfits := not_lt.mp hlong'
        rw [shortenComponent_of_fits hfits] at heq
        exact .inr (.inr ⟨hlong, hfits, heq.symm⟩)
    · have hfits := not_lt.mp hlong
      rw [shortenComponent_of_fits hfits] at heq
      by_cases hlong' : maxFilenameBytes < utf8Length name'
      · exact .inr (.inl ⟨hlong', hfits, heq⟩)
      · rw [shortenComponent_of_fits (not_lt.mp hlong')] at heq
        exact .inl heq
  · rintro (rfl | ⟨-, hfits, heq⟩ | ⟨-, hfits, heq⟩)
    · rfl
    · rw [shortenComponent_of_fits hfits, heq]
    · rw [shortenComponent_of_fits hfits, heq]

theorem map_shortenComponent_eq_iff (h : rules.HexDigest) {parts parts' : List Str}
    (hdigest : ∀ p ∈ parts, ∀ p' ∈ parts', maxFilenameBytes < utf8Length p →
      maxFilenameBytes < utf8Length p' → rules.digest p = rules.digest p' → p = p') :
    parts.map (shortenComponent rules maxFilenameBytes) =
        parts'.map (shortenComponent rules maxFilenameBytes) ↔
      List.Forall₂ (StoredAlike rules) parts parts' := by
  induction parts generalizing parts' with
  | nil =>
      cases parts' with
      | nil => exact iff_of_true rfl .nil
      | cons p' parts' => exact iff_of_false (fun heq => by cases heq) fun hall => by cases hall
  | cons p parts ih =>
      cases parts' with
      | nil => exact iff_of_false (fun heq => by cases heq) fun hall => by cases hall
      | cons p' parts' =>
          rw [List.map_cons, List.map_cons, List.cons.injEq, List.forall₂_cons,
            shortenComponent_eq_iff h (hdigest p List.mem_cons_self p' List.mem_cons_self)]
          refine and_congr_right fun _ => ih fun q hq q' hq' => ?_
          exact hdigest q (List.mem_cons_of_mem p hq) q' (List.mem_cons_of_mem p' hq')

end

/-- An accepted URI is mapped below the account's directory, by names that are safe and fit; a
canonical URI whose names fit is given back; and two canonical URIs, with no collision between
the digests of long names, are mapped to one path exactly when their names are pairwise stored
alike. -/
theorem uri_paths (rules : PathRules) (hrules : rules.HexDigest) (accountId : Str)
    (haccount : SafeName accountId) :
    (∀ uri path, uriToPath rules accountId uri = .ok path →
      ∃ names, (agfsPath path).splitOn '/' = [] :: names ∧
        ["local".toList, accountId] <+: names ∧ ∀ name ∈ names, SafeName name) ∧
    (∀ parts path, (∀ part ∈ parts, IsName part) →
      uriToPath rules accountId (canonicalUri parts) = .ok path →
      (∀ part ∈ parts, utf8Length part ≤ maxFilenameBytes) →
      agfsPathToUri accountId (agfsPath path) = some (canonicalUri parts)) ∧
    ∀ parts parts' path path', (∀ part ∈ parts, IsName part) → (∀ part ∈ parts', IsName part) →
      uriToPath rules accountId (canonicalUri parts) = .ok path →
      uriToPath rules accountId (canonicalUri parts') = .ok path' →
      (∀ p ∈ parts, ∀ p' ∈ parts', maxFilenameBytes < utf8Length p →
        maxFilenameBytes < utf8Length p' → rules.digest p = rules.digest p' → p = p') →
      parts ≠ parts' →
      (agfsPath path ≠ agfsPath path' ↔ ¬List.Forall₂ (StoredAlike rules) parts parts') := by
  refine ⟨?_, ?_, ?_⟩
  · intro uri path hpath
    obtain ⟨hinitial, hsafe⟩ := safeName_of_accepted hrules haccount hpath
    have hne : path ≠ [] := by
      rintro rfl
      exact absurd hinitial (by simp)
    exact ⟨path, splitOn_agfsPath hne fun name hname => (hsafe name hname).isName.2,
      hinitial, hsafe⟩
  · intro parts path hparts hpath hfits
    have hsame : parts.map (shortenComponent rules maxFilenameBytes) = parts := by
      conv_rhs => rw [← List.map_id parts]
      exact List.map_congr_left fun part hpart => shortenComponent_of_fits (hfits part hpart)
    rw [uriToPath_canonicalUri hparts hpath, hsame]
    exact agfsPathToUri_eq haccount.isName hparts
  · intro parts parts' path path' hparts hparts' hpath hpath' hdigest _
    have hsafe := (safeName_of_accepted hrules haccount hpath).2
    have hsafe' := (safeName_of_accepted hrules haccount hpath').2
    have hinj : agfsPath path = agfsPath path' ↔ path = path' := by
      refine ⟨fun heq => ?_, congrArg agfsPath⟩
      have hcut := congrArg (fun text => segments '/' text) heq
      simp only [agfsPath, segments_cons_self] at hcut
      rwa [segments_intercalate fun name hname => (hsafe name hname).isName,
        segments_intercalate fun name hname => (hsafe' name hname).isName] at hcut
    rw [not_iff_not, hinj, uriToPath_canonicalUri hparts hpath,
      uriToPath_canonicalUri hparts' hpath', List.cons.injEq, List.cons.injEq,
      ← map_shortenComponent_eq_iff hrules hdigest]
    exact ⟨fun heq => heq.2.2, fun heq => ⟨rfl, rfl, heq⟩⟩

namespace Sample

/-- Two names of 256 and 260 bytes. -/
def longName : Str := List.replicate 64 '😀'

def longerName : Str := List.replicate 65 '😀'

/-- ASCII letters, and the digests of the two names. -/
def rules : PathRules where
  digest name :=
    if name = longName then "ddcaf348".toList
    else if name = longerName then "792100ef".toList
    else List.replicate 8 '0'
  isAlpha c := c.isAlpha

theorem rules_hex : rules.HexDigest := by
  intro name
  have hall {s digits : Str} (h : s.length = 8 ∧ s.all (fun c => decide (c ∈ digits)) = true) :
      s.length = 8 ∧ ∀ c ∈ s, c ∈ digits :=
    ⟨h.1, fun c hc => of_decide_eq_true (List.all_eq_true.mp h.2 c hc)⟩
  refine hall ?_
  simp only [rules]
  split
  · decide
  · split <;> decide

def account : Str := ['a', 'c', 'm', 'e']

theorem account_safe : SafeName account :=
  ⟨⟨by decide, by decide⟩, by decide, by decide, by decide⟩

/-- The parts of a URI of the user -/
def inUser (name : Str) : List Str := [['u', 's', 'e', 'r'], name]

/-- The path of a name of the user -/
def userPath (name : Str) : List Str := ["local".toList, account] ++ inUser name

def notes : Str := ['n', 'o', 't', 'e', 's']

/-- What a long name is shortened to. -/
def shortName : Str := List.replicate 61 '😀' ++ "_ddcaf348".toList

def shortenedLonger : Str := List.replicate 61 '😀' ++ "_792100ef".toList

theorem inUser_names {name : Str} (h : IsName name) : ∀ part ∈ inUser name, IsName part := by
  intro part hpart
  rcases List.mem_cons.mp hpart with rfl | hpart
  · exact ⟨by decide, by decide⟩
  · exact List.mem_singleton.mp hpart ▸ h

/-- A short name is given back, and the two long names, which begin alike, have paths of their
own. -/
theorem notes_given_back :
    rules.HexDigest ∧ SafeName account ∧
      uriToPath rules account (canonicalUri (inUser notes)) = .ok (userPath notes) ∧
      agfsPathToUri account (agfsPath (userPath notes)) = some (canonicalUri (inUser notes)) ∧
      uriToPath rules account (canonicalUri (inUser longName)) = .ok (userPath shortName) ∧
      uriToPath rules account (canonicalUri (inUser longerName)) = .ok (userPath shortenedLonger) ∧
      (∃ names, (agfsPath (userPath shortName)).splitOn '/' = [] :: names ∧
        ["local".toList, account] <+: names ∧ ∀ name ∈ names, SafeName name) ∧
      agfsPath (userPath shortName) ≠ agfsPath (userPath shortenedLonger) := by
  have hnotes : uriToPath rules account (canonicalUri (inUser notes)) = .ok (userPath notes) := by
    decide +kernel
  have hlong : uriToPath rules account (canonicalUri (inUser longName)) =
      .ok (userPath shortName) := by decide +kernel
  have hlonger : uriToPath rules account (canonicalUri (inUser longerName)) =
      .ok (userPath shortenedLonger) := by decide +kernel
  have hpaths := uri_paths rules rules_hex account account_safe
  refine ⟨rules_hex, account_safe, hnotes, ?_, hlong, hlonger, hpaths.1 _ _ hlong, ?_⟩
  · exact hpaths.2.1 _ _ (inUser_names ⟨by decide, by decide⟩) hnotes (by decide +kernel)
  · refine (hpaths.2.2 _ _ _ _ (inUser_names ⟨by decide, by decide⟩)
      (inUser_names ⟨by decide, by decide⟩) hlong hlonger (by decide +kernel)
      (by decide +kernel)).mpr ?_
    intro hall
    have halike := (List.forall₂_cons.mp (List.forall₂_cons.mp hall).2).1
    revert halike
    unfold StoredAlike Imitates
    decide +kernel

theorem imitated_name_shares_path :
    longName ≠ shortName ∧
      uriToPath rules account (canonicalUri [longName]) =
        uriToPath rules account (canonicalUri [shortName]) ∧
      uriToPath rules account (canonicalUri [shortName]) =
        .ok ["local".toList, account, shortName] := by
  decide +kernel

end Sample

end OpenViking.VikingFs
