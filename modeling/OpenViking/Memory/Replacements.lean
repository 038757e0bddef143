/-
# `OpenViking.Memory.Replacements` — the links of a deleted memory

`memory_updater.py`: a memory that is deleted may name the one that replaces it.  Its links move
to the replacement: `_resolve_replacement_uri` follows the replacements to the last one, and
`_inherit_deleted_link_relations` hands the links and backlinks of the deleted files on.

    `Stands`   what a URI stands for: the end of its chain of replacements, or itself when
               the chain runs in a circle
    `Mutual`   a link stands in the file where it starts and in the file where it ends

No relation between two other memories is lost.  Where links and backlinks agree, no file that may
be rewritten keeps a reference to a deleted memory, but for one: a replacement with a link to the
memory it replaces may keep it.  With both ends replaced that is a link of the file to itself; it is
passed over, and unless the file inherits another link it is not rewritten.
-/
import OpenViking.Lib.Chains
import OpenViking.Links.Merge
import OpenViking.Memory.UpdateSplit

namespace OpenViking.Memory

open OpenViking.Lib Relation Links
open UpdateSplit (StoredLink)

namespace Replacements

/-! ## The end of a chain -/

/-- The loop of `_resolve_replacement_uri` -/
def follow (remap : Dict Str Str) (original : Str) (seen : List Str) (uri : Str) : Str :=
  match _h : remap.get uri with
  | none => uri
  | some replacement =>
      if _hseen : uri ∈ seen then original
      else if replacement = [] then uri
      else follow remap original (uri :: seen) replacement
termination_by (remap.keys.filter (· ∉ seen)).length
decreasing_by
  -- the URI is a key that was not seen before
  have hkey : uri ∈ remap.keys := by
    by_contra hnot
    rw [Dict.get_eq_none.mpr hnot] at _h
    cases _h
  have hsub : (remap.keys.filter (· ∉ uri :: seen)).length =
      ((remap.keys.filter (· ∉ seen)).filter (· ≠ uri)).length := by
    rw [List.filter_filter]
    simp only [List.mem_cons, not_or, Bool.decide_and]
  rw [hsub]
  refine List.length_filter_lt_length_iff_exists.mpr ⟨uri, ?_, by simp⟩
  exact List.mem_filter.mpr ⟨hkey, decide_eq_true _hseen⟩

def resolveUri (remap : Dict Str Str) (uri : Str) : Str :=
  if uri = [] then uri else follow remap uri [] uri

def resolveReplacementUri (remap : Dict Str Str) (uri : Option Str) : Option Str :=
  uri.map (resolveUri remap)

/-- The memory `u` was replaced by `v`. -/
def Replaced (remap : Dict Str Str) (u v : Str) : Prop := remap.get u = some v ∧ v ≠ []

/-- What a URI stands for -/
def Stands (remap : Dict Str Str) (u v : Str) : Prop :=
  EndsAt (Replaced remap) u v ∨ (v = u ∧ ∀ w, ¬ EndsAt (Replaced remap) u w)

variable {remap : Dict Str Str} {u v w : Str}

theorem replaced_rightUnique : Relator.RightUnique (Replaced remap) := by
  intro u v w hv hw
  exact Option.some.inj (hv.1.symm.trans hw.1)

theorem Stands.unique (hv : Stands remap u v) (hw : Stands remap u w) : v = w := by
  rcases hv with hv | ⟨rfl, hv⟩ <;> rcases hw with hw | ⟨rfl, hw⟩
  · exact hv.unique replaced_rightUnique hw
  · exact absurd hv (hw v)
  · exact absurd hw (hv w)
  · rfl

theorem stands_self_of_get (h : remap.get u = none ∨ remap.get u = some []) : Stands remap u u := by
  refine .inl (endsAt_self ?_)
  rintro w ⟨hget, hne⟩
  rw [hget] at h
  rcases h with h | h
  · cases h
  · exact hne (Option.some.inj h)

/-- What a URI stands for stands for itself. -/
theorem Stands.self (h : Stands remap u v) : Stands remap v v := by
  rcases h with h | ⟨rfl, h⟩
  · exact .inl (endsAt_self h.2)
  · exact .inr ⟨rfl, h⟩

/-- The loop: the URI was reached from the original one, and from every URI that was seen. -/
theorem follow_stands (original : Str) (seen : List Str) (uri : Str)
    (hpath : ReflTransGen (Replaced remap) original uri)
    (hseen : ∀ s ∈ seen, TransGen (Replaced remap) s uri) :
    Stands remap original (follow remap original seen uri) := by
  fun_induction follow remap original seen uri with
  | case1 seen uri hget =>
      refine .inl ⟨hpath, ?_⟩
      intro w hw
      cases hget.symm.trans hw.1
  | case2 seen uri replacement hget hmem =>
      exact .inr ⟨rfl, not_endsAt_of_cycle replaced_rightUnique hpath (hseen uri hmem)⟩
  | case3 seen uri hmem hget =>
      refine .inl ⟨hpath, ?_⟩
      intro w hw
      exact hw.2 (Option.some.inj (hget.symm.trans hw.1)).symm
  | case4 seen uri replacement hget hmem hne ih =>
      have hstep : Replaced remap uri replacement := ⟨hget, hne⟩
      refine ih (hpath.tail hstep) ?_
      intro s hs
      rcases List.mem_cons.mp hs with rfl | hs
      · exact .single hstep
      · exact (hseen s hs).tail hstep

theorem resolveUri_stands (hu : u ≠ []) : Stands remap u (resolveUri remap u) := by
  rw [resolveUri, if_neg hu]
  exact follow_stands u [] u .refl (by simp)

theorem Stands.ne_nil (h : Stands remap u v) (hu : u ≠ []) : v ≠ [] := by
  rcases h with ⟨hreach, -⟩ | ⟨rfl, -⟩
  · rcases hreach.cases_tail with rfl | ⟨w, -, hw⟩
    · exact hu
    · exact hw.2
  · exact hu

theorem resolveUri_eq_iff (hu : u ≠ []) : resolveUri remap u = v ↔ Stands remap u v := by
  constructor
  · rintro rfl
    exact resolveUri_stands hu
  · exact (resolveUri_stands hu).unique

theorem resolveUri_nil : resolveUri remap [] = [] := if_pos rfl

theorem resolveUri_ne_nil : resolveUri remap u ≠ [] ↔ u ≠ [] := by
  constructor
  · rintro h rfl
    exact h resolveUri_nil
  · intro hu
    exact (resolveUri_stands hu).ne_nil hu

theorem resolveUri_resolveUri (remap : Dict Str Str) (u : Str) :
    resolveUri remap (resolveUri remap u) = resolveUri remap u := by
  by_cases hu : u = []
  · rw [hu, resolveUri_nil, resolveUri_nil]
  · have h : Stands remap u (resolveUri remap u) := resolveUri_stands hu
    exact (resolveUri_eq_iff (h.ne_nil hu)).mpr h.self

theorem resolveUri_of_notMem (h : u ∉ remap.keys) : resolveUri remap u = u := by
  by_cases hu : u = []
  · rw [hu, resolveUri_nil]
  · exact (resolveUri_eq_iff hu).mpr (stands_self_of_get (.inl (Dict.get_eq_none.mpr h)))

/-! ## Links between memories -/

variable {α : Type}

def remapStoredLinks (links : List (StoredLink α)) (remap : Dict Str Str) : List (StoredLink α) :=
  if links = [] ∨ remap.items = [] then links
  else links.filterMap fun link =>
    let fromUri := resolveUri remap link.fromUri
    let toUri := resolveUri remap link.toUri
    if fromUri = toUri then none else some { link with fromUri := fromUri, toUri := toUri }

theorem mem_remapStoredLinks {links : List (StoredLink α)} {link : StoredLink α}
    (hitems : remap.items ≠ []) : link ∈ remapStoredLinks links remap ↔
      link.fromUri ≠ link.toUri ∧ ∃ l ∈ links, link.rest = l.rest ∧
        link.fromUri = resolveUri remap l.fromUri ∧ link.toUri = resolveUri remap l.toUri := by
  unfold remapStoredLinks
  split
  · next h =>
      rw [h.resolve_right hitems]
      simp
  · obtain ⟨f, t, rest⟩ := link
    rw [List.mem_filterMap]
    constructor
    · rintro ⟨l, hl, heq⟩
      dsimp only at heq
      split at heq
      · cases heq
      · next hne =>
          cases heq
          exact ⟨hne, l, hl, rfl, rfl, rfl⟩
    · rintro ⟨hne, l, hl, hrest, hfrom, hto⟩
      dsimp only at hne hrest hfrom hto
      subst hrest hfrom hto
      exact ⟨l, hl, if_neg hne⟩

/-- Remapping links again changes nothing: a remapped link is between the URIs that its ends stand
for, and a link whose ends stand for one memory is dropped. -/
theorem remapStoredLinks_settled (links : List (StoredLink α)) (remap : Dict Str Str)
    (hitems : remap.items ≠ []) (hends : ∀ l ∈ links, l.fromUri ≠ [] ∧ l.toUri ≠ []) :
    remapStoredLinks (remapStoredLinks links remap) remap = remapStoredLinks links remap ∧
      ∀ link, link ∈ remapStoredLinks links remap ↔ link.fromUri ≠ link.toUri ∧ ∃ l ∈ links,
        link.rest = l.rest ∧ Stands remap l.fromUri link.fromUri ∧
          Stands remap l.toUri link.toUri := by
  constructor
  · by_cases hnil : remapStoredLinks links remap = []
    · rw [hnil, remapStoredLinks, if_pos (.inl rfl)]
    · conv_lhs => rw [remapStoredLinks, if_neg (not_or.mpr ⟨hnil, hitems⟩)]
      rw [List.filterMap_congr (g := some), List.filterMap_some]
      intro link hlink
      obtain ⟨hne, l, -, -, hfrom, hto⟩ := (mem_remapStoredLinks hitems).mp hlink
      have hfrom' : resolveUri remap link.fromUri = link.fromUri := by
        rw [hfrom, resolveUri_resolveUri]
      have hto' : resolveUri remap link.toUri = link.toUri := by
        rw [hto, resolveUri_resolveUri]
      dsimp only
      rw [hfrom', hto', if_neg hne]
  · intro link
    rw [mem_remapStoredLinks hitems]
    refine and_congr_right fun _ => exists_congr fun l => and_congr_right fun hl =>
      and_congr_right fun _ => ?_
    rw [← resolveUri_eq_iff (hends l hl).1, ← resolveUri_eq_iff (hends l hl).2, eq_comm,
      eq_comm (a := link.toUri)]

/-- `b` was replaced by `c`, and `c` by `d`; `e` and `f` name each other. -/
def sampleRemap : Dict Str Str where
  items := [(['b'], ['c']), (['c'], ['d']), (['e'], ['f']), (['f'], ['e'])]
  nodup := by decide

theorem remapStoredLinks_settled_sample :
    sampleRemap.items ≠ [] ∧
      remapStoredLinks (remapStoredLinks [⟨['a'], ['b'], ()⟩, ⟨['b'], ['d'], ()⟩] sampleRemap)
          sampleRemap =
        remapStoredLinks [⟨['a'], ['b'], ()⟩, ⟨['b'], ['d'], ()⟩] sampleRemap :=
  ⟨by decide, (remapStoredLinks_settled _ sampleRemap (by decide) (by simp)).1⟩

/-! ## The files -/

variable {W V R : Type}

/-- A memory file: its links, the links to it, and the rest of it -/
structure File (W V R : Type) where
  links : List (Link W V)
  backlinks : List (Link W V)
  rest : R

inductive Side where
  | links
  | backlinks
  deriving DecidableEq

def File.side (file : File W V R) : Side → List (Link W V)
  | .links => file.links
  | .backlinks => file.backlinks

/-- The files that can be read and are not empty -/
abbrev Files (W V R : Type) := Dict Str (File W V R)

/-- `link.get(field)` -/
def field (member : Option (Option Str)) : Option Str := member.getD none

def remapLinkDict (remap : Dict Str Str) (link : Link W V) : Link W V :=
  { link with
    fromUri := some (resolveReplacementUri remap (field link.fromUri))
    toUri := some (resolveReplacementUri remap (field link.toUri)) }

/-- A link that is to be added to a file -/
structure Inherited (W V : Type) where
  uri : Str
  side : Side
  link : Link W V

/-- For the file that a deleted one stands for, if its URI is not empty -/
def forTarget (side : Side) (uri : Option Str) (link : Link W V) : List (Inherited W V) :=
  match uri with
  | none => []
  | some uri => if uri = [] then [] else [⟨uri, side, link⟩]

/-- For the file at the other end, which must not be a deleted one -/
def forNeighbor (remap : Dict Str Str) (side : Side) (uri : Option Str) (link : Link W V) :
    List (Inherited W V) :=
  (forTarget side uri link).filter (·.uri ∉ remap.keys)

/-- What becomes of one link of a deleted file -/
def inheritLink (remap : Dict Str Str) (side : Side) (link : Link W V) : List (Inherited W V) :=
  let remapped := remapLinkDict remap link
  if field remapped.fromUri = field remapped.toUri then []
  else match side with
    | .links =>
        forTarget .links (field remapped.fromUri) remapped ++
          forNeighbor remap .backlinks (field remapped.toUri) remapped
    | .backlinks =>
        forTarget .backlinks (field remapped.toUri) remapped ++
          forNeighbor remap .links (field remapped.fromUri) remapped

/-- The links of all deleted files -/
def inherited (remap : Dict Str Str) (files : Files W V R) : List (Inherited W V) :=
  remap.items.flatMap fun entry =>
    if entry.1 = [] ∨ entry.2 = [] ∨ entry.1 = entry.2 then []
    else match files.get entry.1 with
      | none => []
      | some file =>
          file.links.flatMap (inheritLink remap .links) ++
            file.backlinks.flatMap (inheritLink remap .backlinks)

/-- `inherited_by_uri` -/
def inheritedByUri (remap : Dict Str Str) (files : Files W V R) :
    Dict Str (List (Link W V) × List (Link W V)) :=
  Dict.empty.upserts Inherited.uri
    (fun item old =>
      let groups := old.getD ([], [])
      match item.side with
      | .links => (groups.1 ++ [item.link], groups.2)
      | .backlinks => (groups.1, groups.2 ++ [item.link]))
    (inherited remap files)

def isStale (remap : Dict Str Str) (link : Link W V) : Bool :=
  (field link.fromUri).any (· ∈ remap.keys) || (field link.toUri).any (· ∈ remap.keys)

/-! ## What is inherited -/

variable {files : Files W V R}

theorem get_inheritedByUri (remap : Dict Str Str) (files : Files W V R) (u : Str) :
    (inheritedByUri remap files).get u = none ↔ ∀ item ∈ inherited remap files, item.uri ≠ u := by
  rw [Dict.get_eq_none, inheritedByUri, Dict.mem_keys_upserts]
  constructor
  · intro h item hitem heq
    exact h (.inr ⟨item, hitem, heq⟩)
  · rintro h (h' | ⟨item, hitem, heq⟩)
    · cases h'
    · exact h item hitem heq

def groupOf (groups : List (Link W V) × List (Link W V)) : Side → List (Link W V)
  | .links => groups.1
  | .backlinks => groups.2

/-- A group holds the links inherited for that side of that file. -/
theorem mem_group {groups : List (Link W V) × List (Link W V)} {side : Side} {l : Link W V}
    (h : (inheritedByUri remap files).get u = some groups) :
    l ∈ groupOf groups side ↔ ⟨u, side, l⟩ ∈ inherited remap files := by
  rw [inheritedByUri, Dict.get_upserts] at h
  have hfold : ∀ (items : List (Inherited W V)) (old : Option _) (groups : _ × _),
      (∀ item ∈ items, item.uri = u) →
      items.foldl (fun o item => some (
        let groups := o.getD ([], [])
        match item.side with
        | .links => (groups.1 ++ [item.link], groups.2)
        | .backlinks => (groups.1, groups.2 ++ [item.link]))) old = some groups →
      (l ∈ groupOf groups side ↔ l ∈ groupOf (old.getD ([], [])) side ∨ ⟨u, side, l⟩ ∈ items) := by
    intro items
    induction items with
    | nil =>
        rintro old groups - rfl
        simp
    | cons item items ih =>
        intro old groups huri hgroups
        obtain ⟨uri, side', link⟩ := item
        obtain rfl : uri = u := huri _ List.mem_cons_self
        rw [List.foldl_cons] at hgroups
        rw [ih _ _ (fun item hitem => huri item (List.mem_cons_of_mem _ hitem)) hgroups]
        rw [List.mem_cons, Option.getD_some, ← or_assoc]
        cases side <;> cases side' <;> simp [groupOf, or_comm]
  rw [hfold _ _ _ (by simp) h]
  cases side <;> simp [groupOf, Dict.get, Dict.empty, Dict.lookup]

theorem mem_forTarget {side : Side} {uri : Option Str} {link : Link W V} {item : Inherited W V} :
    item ∈ forTarget side uri link ↔ uri = some item.uri ∧ item.uri ≠ [] ∧ item.side = side ∧
      item.link = link := by
  obtain ⟨u, side', link'⟩ := item
  unfold forTarget
  cases uri with
  | none => simp
  | some uri =>
      dsimp only
      by_cases h : uri = []
      · rw [if_pos h]
        simp only [List.not_mem_nil, Option.some.injEq, false_iff]
        rintro ⟨rfl, hne, -⟩
        exact hne h
      · rw [if_neg h, List.mem_singleton, Inherited.mk.injEq, Option.some.injEq]
        constructor
        · rintro ⟨rfl, rfl, rfl⟩
          exact ⟨rfl, h, rfl, rfl⟩
        · rintro ⟨rfl, -, rfl, rfl⟩
          exact ⟨rfl, rfl, rfl⟩

/-- An inherited link is a remapped one of a file. -/
theorem link_of_mem_inherited {item : Inherited W V} (h : item ∈ inherited remap files) :
    ∃ d file s link, files.get d = some file ∧ link ∈ file.side s ∧
      item.link = remapLinkDict remap link := by
  obtain ⟨entry, -, hitem⟩ := List.mem_flatMap.mp h
  split at hitem
  · exact absurd hitem List.not_mem_nil
  split at hitem
  · exact absurd hitem List.not_mem_nil
  next file hfile =>
  have hlink : ∀ side link, item ∈ inheritLink remap side link →
      item.link = remapLinkDict remap link := by
    intro side link hmem
    unfold inheritLink at hmem
    dsimp only at hmem
    split at hmem
    · exact absurd hmem List.not_mem_nil
    · cases side <;> rcases List.mem_append.mp hmem with hmem | hmem
      · exact (mem_forTarget.mp hmem).2.2.2
      · exact (mem_forTarget.mp (List.mem_of_mem_filter hmem)).2.2.2
      · exact (mem_forTarget.mp hmem).2.2.2
      · exact (mem_forTarget.mp (List.mem_of_mem_filter hmem)).2.2.2
  rcases List.mem_append.mp hitem with hitem | hitem
  · obtain ⟨link, hl, hmem⟩ := List.mem_flatMap.mp hitem
    exact ⟨_, file, .links, link, hfile, hl, hlink _ _ hmem⟩
  · obtain ⟨link, hl, hmem⟩ := List.mem_flatMap.mp hitem
    exact ⟨_, file, .backlinks, link, hfile, hl, hlink _ _ hmem⟩

/-- Every chain of replacements ends outside the deleted memories, which can all be read. -/
structure Sound (remap : Dict Str Str) (files : Files W V R) : Prop where
  live : ∀ d ∈ remap.keys, d ≠ [] ∧ ∀ v, Stands remap d v → v ∉ remap.keys
  readable : ∀ d ∈ remap.keys, ∃ file, files.get d = some file

theorem Sound.resolveUri_notMem (h : Sound remap files) (u : Str) :
    resolveUri remap u ∉ remap.keys := by
  by_cases hu : u ∈ remap.keys
  · exact (h.live u hu).2 _ (resolveUri_stands (h.live u hu).1)
  · rwa [resolveUri_of_notMem hu]

/-- The entry of a deleted memory is one that the first loop goes into. -/
def Proper (d r : Str) : Prop := d ≠ [] ∧ r ≠ [] ∧ d ≠ r

theorem Sound.proper (h : Sound remap files) {d : Str} (hd : d ∈ remap.keys) :
    ∃ r, remap.get d = some r ∧ Proper d r := by
  have hdead : ¬ Stands remap d d := fun hstands => (h.live d hd).2 d hstands hd
  cases hget : remap.get d with
  | none => exact absurd hd (Dict.get_eq_none.mp hget)
  | some r =>
      refine ⟨r, rfl, (h.live d hd).1, ?_, ?_⟩
      · rintro rfl
        exact hdead (stands_self_of_get (.inr hget))
      · -- a memory that replaces itself would stand for itself
        rintro rfl
        have hstep : Replaced remap d d := ⟨hget, (h.live d hd).1⟩
        exact hdead (.inr ⟨rfl, not_endsAt_of_cycle replaced_rightUnique .refl (.single hstep)⟩)

/-- With both ends of a link of a deleted file known, and different -/
theorem mem_inherited {d r x y : Str} {file : File W V R} {s : Side} {l : Link W V}
    (hget : remap.get d = some r) (hproper : Proper d r) (hfile : files.get d = some file)
    (hl : l ∈ file.side s) (hfrom : l.fromUri = some (some x)) (hto : l.toUri = some (some y))
    (hx : x ≠ []) (hy : y ≠ []) (hne : resolveUri remap x ≠ resolveUri remap y)
    (hxlive : resolveUri remap x ∉ remap.keys) (hylive : resolveUri remap y ∉ remap.keys) :
    ⟨resolveUri remap x, .links, remapLinkDict remap l⟩ ∈ inherited remap files ∧
      ⟨resolveUri remap y, .backlinks, remapLinkDict remap l⟩ ∈ inherited remap files := by
  have hfrom' : field (remapLinkDict remap l).fromUri = some (resolveUri remap x) := by
    simp [remapLinkDict, field, hfrom, resolveReplacementUri]
  have hto' : field (remapLinkDict remap l).toUri = some (resolveUri remap y) := by
    simp [remapLinkDict, field, hto, resolveReplacementUri]
  have hx' : resolveUri remap x ≠ [] := resolveUri_ne_nil.mpr hx
  have hy' : resolveUri remap y ≠ [] := resolveUri_ne_nil.mpr hy
  have hboth : ⟨resolveUri remap x, .links, remapLinkDict remap l⟩ ∈ inheritLink remap s l ∧
      ⟨resolveUri remap y, .backlinks, remapLinkDict remap l⟩ ∈ inheritLink remap s l := by
    unfold inheritLink
    dsimp only
    rw [hfrom', hto', if_neg (by simpa using hne)]
    cases s <;>
      simp [forNeighbor, mem_forTarget, hx', hy', hxlive, hylive]
  have hentry : ¬ (d = [] ∨ r = [] ∨ d = r) := by
    rintro (h | h | h)
    · exact hproper.1 h
    · exact hproper.2.1 h
    · exact hproper.2.2 h
  have hlift : ∀ item ∈ inheritLink remap s l, item ∈ inherited remap files := by
    intro item hitem
    refine List.mem_flatMap.mpr ⟨(d, r), Dict.get_eq_some.mp hget, ?_⟩
    rw [if_neg hentry, hfile]
    cases s with
    | links => exact List.mem_append_left _ (List.mem_flatMap.mpr ⟨l, hl, hitem⟩)
    | backlinks => exact List.mem_append_right _ (List.mem_flatMap.mpr ⟨l, hl, hitem⟩)
  exact ⟨hlift _ hboth.1, hlift _ hboth.2⟩

/-! ## What a file becomes -/

section Rewrite

-- the default weight of a link, what a rewrite does to the rest of a file (version and trace
-- id), and the files that can be written
variable [LinearOrder W] (one : W) (touch : R → R) (writable : Str → Bool)

/-- One side of a file, without stale links and with the inherited ones -/
def rewriteSide (remap : Dict Str Str) (links new : List (Link W V)) : List (Link W V) :=
  let fresh := links.filter (!isStale remap ·)
  if new = [] then fresh else mergeLinks one fresh new

def rewrite (remap : Dict Str Str) (groups : List (Link W V) × List (Link W V))
    (file : File W V R) : File W V R where
  links := rewriteSide one remap file.links groups.1
  backlinks := rewriteSide one remap file.backlinks groups.2
  rest := touch file.rest

/-- One round of the second loop; the URIs are those added to the edited ones. -/
def inheritStep (remap : Dict Str Str) (writtenOrEdited : List Str)
    (state : Files W V R × List Str) (entry : Str × (List (Link W V) × List (Link W V))) :
    Files W V R × List Str :=
  if entry.1 ∈ remap.keys then state
  else if entry.1 ∈ writtenOrEdited then state
  else match state.1.get entry.1 with
    | none => state
    | some file =>
        if writable entry.1 then
          (state.1.set entry.1 (rewrite one touch remap entry.2 file), state.2 ++ [entry.1])
        else state

def inheritDeletedLinkRelations (remap : Dict Str Str) (writtenOrEdited : List Str)
    (files : Files W V R) : Files W V R × List Str :=
  if remap.items = [] then (files, [])
  else (inheritedByUri remap files).items.foldl
    (inheritStep one touch writable remap writtenOrEdited) (files, [])

/-- A file that the second loop may rewrite -/
structure Open (remap : Dict Str Str) (writtenOrEdited : List Str) (u : Str) : Prop where
  notReplaced : u ∉ remap.keys
  untouched : u ∉ writtenOrEdited
  canWrite : writable u = true

variable {one touch writable} {writtenOrEdited : List Str}

theorem inheritStep_get (hopen : Open writable remap writtenOrEdited u)
    (state : Files W V R × List Str) (entry : Str × (List (Link W V) × List (Link W V))) :
    (inheritStep one touch writable remap writtenOrEdited state entry).1.get u =
      if entry.1 = u then (state.1.get u).map (rewrite one touch remap entry.2)
      else state.1.get u := by
  obtain ⟨uri, groups⟩ := entry
  unfold inheritStep
  dsimp only
  by_cases huri : uri = u
  · subst huri
    rw [if_neg hopen.notReplaced, if_neg hopen.untouched, if_pos rfl]
    cases hget : state.1.get uri with
    | none => simpa using hget
    | some file =>
        dsimp only
        rw [if_pos hopen.canWrite, Dict.get_set, if_pos rfl]
        rfl
  · rw [if_neg huri]
    split
    · rfl
    split
    · rfl
    split
    · rfl
    split
    · rw [Dict.get_set, if_neg huri]
    · rfl

/-- The keys of the dictionary differ, so a file is rewritten once. -/
theorem foldl_inheritStep_get (hopen : Open writable remap writtenOrEdited u)
    (items : List (Str × (List (Link W V) × List (Link W V))))
    (hnodup : (items.map Prod.fst).Nodup) (state : Files W V R × List Str) :
    (items.foldl (inheritStep one touch writable remap writtenOrEdited) state).1.get u =
      match Dict.lookup u items with
      | none => state.1.get u
      | some groups => (state.1.get u).map (rewrite one touch remap groups) := by
  induction items generalizing state with
  | nil => rfl
  | cons entry items ih =>
      obtain ⟨uri, groups⟩ := entry
      rw [List.map_cons, List.nodup_cons] at hnodup
      rw [List.foldl_cons, ih hnodup.2, inheritStep_get hopen, Dict.lookup]
      by_cases huri : uri = u
      · subst huri
        rw [if_pos rfl, if_pos rfl, Dict.lookup_eq_none.mpr hnodup.1]
      · rw [if_neg huri, if_neg huri]

theorem inherit_get (hopen : Open writable remap writtenOrEdited u) :
    (inheritDeletedLinkRelations one touch writable remap writtenOrEdited files).1.get u =
      match (inheritedByUri remap files).get u with
      | none => files.get u
      | some groups => (files.get u).map (rewrite one touch remap groups) := by
  unfold inheritDeletedLinkRelations
  split
  · next hnil =>
      have hnone : (inheritedByUri remap files).get u = none := by
        unfold inheritedByUri inherited
        rw [hnil]
        rfl
      rw [hnone]
  · exact foldl_inheritStep_get hopen _ (inheritedByUri remap files).nodup _

/-! ## Links and backlinks agree -/

/-- Every link stands in both of its files: where it starts, and where it ends. -/
structure Mutual (files : Files W V R) : Prop where
  links : ∀ u file, files.get u = some file → ∀ l ∈ file.links,
    l.fromUri = some (some u) ∧ ∃ v ≠ [], l.toUri = some (some v) ∧
      ∀ other, files.get v = some other → ∃ l' ∈ other.backlinks, l'.fromUri = some (some u)
  backlinks : ∀ u file, files.get u = some file → ∀ l ∈ file.backlinks,
    l.toUri = some (some u) ∧ ∃ v ≠ [], l.fromUri = some (some v) ∧
      ∀ other, files.get v = some other → ∃ l' ∈ other.links, l'.toUri = some (some u)

theorem ends_of_mem_mergeLinks {a b : List (Link W V)} {l : Link W V}
    (h : l ∈ mergeLinks one a b) :
    ∃ g, (g ∈ a ∨ g ∈ b) ∧ g.dedupKey = l.dedupKey ∧ l.fromUri = g.fromUri ∧
      l.toUri = g.toUri := by
  rw [mem_mergeLinks, get_linkMap] at h
  cases hkept : kept (withKey a l.dedupKey) (withKey b l.dedupKey) with
  | nil => rw [hkept] at h; cases h
  | cons g G =>
      rw [hkept, join, foldl_override] at h
      have hg := mem_kept (hkept ▸ List.mem_cons_self : g ∈ kept (withKey a l.dedupKey) _)
      refine ⟨g, hg.imp (fun h => (mem_withKey.mp h).1) fun h => (mem_withKey.mp h).1,
        hg.elim (fun h => (mem_withKey.mp h).2) fun h => (mem_withKey.mp h).2, ?_⟩
      rw [← Option.some.inj h]
      exact ⟨rfl, rfl⟩

theorem exists_key_mergeLinks {a b : List (Link W V)} {l : Link W V} (h : l ∈ b) :
    ∃ l' ∈ mergeLinks one a b, l'.dedupKey = l.dedupKey := by
  have hmem : l ∈ kept (withKey a l.dedupKey) (withKey b l.dedupKey) :=
    List.mem_append_right _ (mem_withKey.mpr ⟨h, rfl⟩)
  have hkey : l.dedupKey ∈ (linkMap one a b).keys := by
    by_contra hnot
    rw [← Dict.get_eq_none, get_linkMap] at hnot
    cases hkept : kept (withKey a l.dedupKey) (withKey b l.dedupKey) with
    | nil => rw [hkept] at hmem; cases hmem
    | cons g G => rw [hkept] at hnot; cases hnot
  rw [← map_dedupKey] at hkey
  exact List.mem_map.mp hkey

/-- A link of a rewritten file names no deleted memory. -/
theorem not_isStale_of_mem_rewriteSide (hsound : Sound remap files) {s : Side}
    {groups : List (Link W V) × List (Link W V)} {links : List (Link W V)} {l : Link W V}
    (hgroups : (inheritedByUri remap files).get u = some groups)
    (h : l ∈ rewriteSide one remap links (groupOf groups s)) : isStale remap l = false := by
  have hfresh : ∀ {l : Link W V}, l ∈ links.filter (!isStale remap ·) →
      isStale remap l = false := by
    intro l hl
    simpa using (List.mem_filter.mp hl).2
  unfold rewriteSide at h
  dsimp only at h
  split at h
  · exact hfresh h
  obtain ⟨g, hg, -, hfrom, hto⟩ := ends_of_mem_mergeLinks h
  have hsame : isStale remap l = isStale remap g := by
    unfold isStale
    rw [hfrom, hto]
  rw [hsame]
  rcases hg with hg | hg
  · exact hfresh hg
  · obtain ⟨-, -, -, link, -, -, hlink⟩ := link_of_mem_inherited ((mem_group hgroups).mp hg)
    dsimp only at hlink
    have hend : ∀ uri : Option Str,
        (resolveReplacementUri remap uri).any (· ∈ remap.keys) = false := by
      intro uri
      cases uri with
      | none => rfl
      | some u => simpa [resolveReplacementUri] using hsound.resolveUri_notMem u
    rw [hlink]
    simp [isStale, remapLinkDict, field, hend]

/-- A file keeps a reference to a deleted memory only if it replaces that memory itself. -/
theorem inherit_no_stale (hsound : Sound remap files) (hmutual : Mutual files)
    (hopen : Open writable remap writtenOrEdited u) {file : File W V R} {s : Side}
    {l : Link W V} {d : Str}
    (hfile : (inheritDeletedLinkRelations one touch writable remap writtenOrEdited files).1.get u =
      some file)
    (hl : l ∈ file.side s) (hd : d ∈ remap.keys)
    (hend : l.fromUri = some (some d) ∨ l.toUri = some (some d)) : Stands remap d u := by
  rw [inherit_get hopen] at hfile
  cases hgroups : (inheritedByUri remap files).get u with
  | some groups =>
      -- a file that was rewritten keeps no such reference
      rw [hgroups] at hfile
      obtain ⟨old, -, rfl⟩ := Option.map_eq_some_iff.mp hfile
      have hclean : isStale remap l = false := by
        cases s with
        | links => exact not_isStale_of_mem_rewriteSide hsound hgroups (s := .links) hl
        | backlinks => exact not_isStale_of_mem_rewriteSide hsound hgroups (s := .backlinks) hl
      unfold isStale at hclean
      rcases hend with hend | hend
      · simp [hend, field, hd] at hclean
      · simp [hend, field, hd] at hclean
  | none =>
      -- the deleted file has the other half of the link, and nothing was inherited from it
      rw [hgroups] at hfile
      have hnone := (get_inheritedByUri remap files u).mp hgroups
      have hself : resolveUri remap u = u := resolveUri_of_notMem hopen.notReplaced
      obtain ⟨deleted, hdeleted⟩ := hsound.readable d hd
      obtain ⟨r, hget, hproper⟩ := hsound.proper hd
      have hd' := hproper.1
      rw [← resolveUri_eq_iff hd']
      by_contra hne
      cases s with
      | links =>
          obtain ⟨hfrom, v, hv, hto, hback⟩ := hmutual.links u file hfile l hl
          obtain rfl : v = d := by
            rcases hend with hend | hend
            · rw [hfrom] at hend
              cases hend
              exact absurd hd hopen.notReplaced
            · rw [hto] at hend
              cases hend
              rfl
          obtain ⟨l', hl', hfrom'⟩ := hback deleted hdeleted
          obtain ⟨hto', w, hw, hw', -⟩ := hmutual.backlinks v deleted hdeleted l' hl'
          rw [hfrom'] at hw'
          cases hw'
          have hmem := mem_inherited hget hproper (s := .backlinks) hdeleted hl' hfrom' hto' hw hd'
            (by rw [hself]; exact Ne.symm hne) (hsound.resolveUri_notMem _)
            (hsound.resolveUri_notMem _)
          exact hnone _ hmem.1 hself
      | backlinks =>
          obtain ⟨hto, v, hv, hfrom, hforth⟩ := hmutual.backlinks u file hfile l hl
          obtain rfl : v = d := by
            rcases hend with hend | hend
            · rw [hfrom] at hend
              cases hend
              rfl
            · rw [hto] at hend
              cases hend
              exact absurd hd hopen.notReplaced
          obtain ⟨l', hl', hto'⟩ := hforth deleted hdeleted
          obtain ⟨hfrom', w, hw, hw', -⟩ := hmutual.links v deleted hdeleted l' hl'
          rw [hto'] at hw'
          cases hw'
          have hmem := mem_inherited hget hproper (s := .links) hdeleted hl' hfrom' hto' hd' hw
            (by rw [hself]; exact hne) (hsound.resolveUri_notMem _) (hsound.resolveUri_notMem _)
          exact hnone _ hmem.2 hself

/-! ### No relation is lost

The key of a link is its texts with bars between them.  Where no URI has a bar, the key tells which
two files the link is between. -/

/-- Both ends of the link are known, and there is no bar in them. -/
def Barless (l : Link W V) : Prop :=
  ∃ x y, l.fromUri = some (some x) ∧ l.toUri = some (some y) ∧ '|' ∉ x ∧ '|' ∉ y

omit [LinearOrder W] in
theorem Barless.ends_eq {g l : Link W V} (hg : Barless g) (hl : Barless l)
    (h : g.dedupKey = l.dedupKey) : g.fromUri = l.fromUri ∧ g.toUri = l.toUri := by
  obtain ⟨x, y, hgx, hgy, hx, hy⟩ := hg
  obtain ⟨x', y', hlx, hly, hx', hy'⟩ := hl
  unfold Link.dedupKey at h
  rw [hgx, hgy, hlx, hly] at h
  simp only [formatted] at h
  have hfrom := congrArg (splitOnce '|') h
  rw [splitOnce_append_cons hx, splitOnce_append_cons hx'] at hfrom
  simp only [Option.some.injEq, Prod.mk.injEq] at hfrom
  have hto := congrArg (splitOnce '|') hfrom.2
  rw [splitOnce_append_cons hy, splitOnce_append_cons hy'] at hto
  simp only [Option.some.injEq, Prod.mk.injEq] at hto
  rw [hgx, hgy, hlx, hly, hfrom.1, hto.1]
  exact ⟨rfl, rfl⟩

/-- No URI of a link or a replacement has a bar. -/
structure NoBars (remap : Dict Str Str) (files : Files W V R) : Prop where
  links : ∀ u file, files.get u = some file → ∀ s, ∀ l ∈ file.side s, Barless l
  replacements : ∀ d r, remap.get d = some r → '|' ∉ r

omit [LinearOrder W] in
theorem NoBars.resolveUri (h : NoBars remap files) (hu : '|' ∉ u) :
    '|' ∉ resolveUri remap u := by
  by_cases hnil : u = []
  · rw [hnil, resolveUri_nil]
    exact List.not_mem_nil
  have hstands : Stands remap u (Replacements.resolveUri remap u) := resolveUri_stands hnil
  rcases hstands with ⟨hreach, -⟩ | ⟨hself, -⟩
  · rcases hreach.cases_tail with heq | ⟨w, -, hw⟩
    · rwa [heq]
    · exact h.replacements w _ hw.1
  · rwa [hself]

omit [LinearOrder W] in
theorem NoBars.remapLinkDict (h : NoBars remap files) {l : Link W V} (hl : Barless l) :
    Barless (remapLinkDict remap l) := by
  obtain ⟨x, y, hx, hy, hxbar, hybar⟩ := hl
  refine ⟨_, _, ?_, ?_, h.resolveUri hxbar, h.resolveUri hybar⟩
  · simp [Replacements.remapLinkDict, field, hx, resolveReplacementUri]
  · simp [Replacements.remapLinkDict, field, hy, resolveReplacementUri]

/-- What is inherited for an open file arrives there. -/
theorem exists_of_mem_inherited (hbars : NoBars remap files)
    (hopen : Open writable remap writtenOrEdited u) {side : Side} {l : Link W V}
    (h : ⟨u, side, l⟩ ∈ inherited remap files) {old : File W V R} (hold : files.get u = some old) :
    ∃ file, (inheritDeletedLinkRelations one touch writable remap writtenOrEdited files).1.get u =
      some file ∧ ∃ l' ∈ file.side side,
        l'.fromUri = l.fromUri ∧ l'.toUri = l.toUri ∧ l'.dedupKey = l.dedupKey := by
  have hinherited : ∀ l, ⟨u, side, l⟩ ∈ inherited remap files → Barless l := by
    intro l hl
    obtain ⟨d, file, s, link, hfile, hlink, heq⟩ := link_of_mem_inherited hl
    dsimp only at heq
    rw [heq]
    exact hbars.remapLinkDict (hbars.links d file hfile s link hlink)
  cases hgroups : (inheritedByUri remap files).get u with
  | none => exact absurd rfl ((get_inheritedByUri remap files u).mp hgroups _ h)
  | some groups =>
      refine ⟨rewrite one touch remap groups old, by rw [inherit_get hopen, hgroups, hold]; rfl, ?_⟩
      have hl : l ∈ groupOf groups side := (mem_group hgroups).mpr h
      have hside : (rewrite one touch remap groups old).side side =
          rewriteSide one remap (old.side side) (groupOf groups side) := by
        cases side <;> rfl
      rw [hside, rewriteSide, if_neg (List.ne_nil_of_mem hl)]
      obtain ⟨l', hl', hkey⟩ : ∃ l' ∈ mergeLinks one ((old.side side).filter (!isStale remap ·))
          (groupOf groups side), l'.dedupKey = l.dedupKey := exists_key_mergeLinks hl
      obtain ⟨g, hg, hgkey, hfrom, hto⟩ := ends_of_mem_mergeLinks hl'
      have hgbar : Barless g := by
        rcases hg with hg | hg
        · exact hbars.links u old hold side g (List.mem_of_mem_filter hg)
        · exact hinherited g ((mem_group hgroups).mp hg)
      have hends := hgbar.ends_eq (hinherited l h) (hgkey.trans hkey)
      exact ⟨l', hl', hfrom.trans hends.1, hto.trans hends.2, hkey⟩

/-- A link of a deleted file, its ends replaced, is found again in the two files at its ends. -/
theorem inherit_keeps (hbars : NoBars remap files) {d r x y a b : Str} {deleted : File W V R}
    {s : Side} {l : Link W V} (hget : remap.get d = some r) (hproper : Proper d r)
    (hdeleted : files.get d = some deleted) (hl : l ∈ deleted.side s)
    (hfrom : l.fromUri = some (some x)) (hto : l.toUri = some (some y)) (hx : x ≠ []) (hy : y ≠ [])
    (ha : Stands remap x a) (hb : Stands remap y b) (hne : a ≠ b) {fileA fileB : File W V R}
    (hopenA : Open writable remap writtenOrEdited a)
    (hopenB : Open writable remap writtenOrEdited b) (hfileA : files.get a = some fileA)
    (hfileB : files.get b = some fileB) :
    ∃ fileA' fileB',
      (inheritDeletedLinkRelations one touch writable remap writtenOrEdited files).1.get a =
        some fileA' ∧
      (inheritDeletedLinkRelations one touch writable remap writtenOrEdited files).1.get b =
        some fileB' ∧
      (∃ l' ∈ fileA'.links, l'.fromUri = some (some a) ∧ l'.toUri = some (some b) ∧
        l'.dedupKey = (remapLinkDict remap l).dedupKey) ∧
      ∃ l' ∈ fileB'.backlinks, l'.fromUri = some (some a) ∧ l'.toUri = some (some b) ∧
        l'.dedupKey = (remapLinkDict remap l).dedupKey := by
  rw [← resolveUri_eq_iff hx] at ha
  rw [← resolveUri_eq_iff hy] at hb
  subst ha hb
  have hfrom' : (remapLinkDict remap l).fromUri = some (some (resolveUri remap x)) := by
    simp [remapLinkDict, field, hfrom, resolveReplacementUri]
  have hto' : (remapLinkDict remap l).toUri = some (some (resolveUri remap y)) := by
    simp [remapLinkDict, field, hto, resolveReplacementUri]
  obtain ⟨hlinks, hbacklinks⟩ := mem_inherited hget hproper hdeleted hl hfrom hto hx hy hne
    hopenA.notReplaced hopenB.notReplaced
  obtain ⟨fileA', hA, hA'⟩ := exists_of_mem_inherited hbars hopenA hlinks hfileA
  obtain ⟨fileB', hB, hB'⟩ := exists_of_mem_inherited hbars hopenB hbacklinks hfileB
  rw [hfrom', hto'] at hA' hB'
  exact ⟨fileA', fileB', hA, hB, hA', hB'⟩

end Rewrite

/-! ## An example: `b` is replaced by `c`, which links to it, and `e` by `f` -/

def sampleLink (x y : Str) : Link ℕ Unit :=
  ⟨some (some x), some (some y), none, none, none, none, none, ()⟩

def sampleFiles : Files ℕ Unit Unit where
  items :=
    [(['a'], ⟨[sampleLink ['a'] ['e']], [], ()⟩),
     (['b'], ⟨[], [sampleLink ['c'] ['b']], ()⟩),
     (['c'], ⟨[sampleLink ['c'] ['b']], [], ()⟩),
     (['e'], ⟨[], [sampleLink ['a'] ['e']], ()⟩),
     (['f'], ⟨[], [], ()⟩)]
  nodup := by decide

def sampleDeletes : Dict Str Str where
  items := [(['b'], ['c']), (['e'], ['f'])]
  nodup := by decide

theorem sample_stands : Stands sampleDeletes ['b'] ['c'] ∧ Stands sampleDeletes ['e'] ['f'] := by
  have hend : ∀ {v : Str}, sampleDeletes.get v = none → ∀ w, ¬ Replaced sampleDeletes v w := by
    intro v hv w hw
    cases hv.symm.trans hw.1
  exact ⟨.inl ⟨.single ⟨rfl, by simp⟩, hend rfl⟩, .inl ⟨.single ⟨rfl, by simp⟩, hend rfl⟩⟩

theorem sample_sound : Sound sampleDeletes sampleFiles where
  live := by
    intro d hd
    have hd' : d = ['b'] ∨ d = ['e'] := by simpa [Dict.keys, sampleDeletes] using hd
    rcases hd' with rfl | rfl
    · exact ⟨by simp, fun v hv => by rw [hv.unique sample_stands.1]; decide⟩
    · exact ⟨by simp, fun v hv => by rw [hv.unique sample_stands.2]; decide⟩
  readable := by
    intro d hd
    have hd' : d = ['b'] ∨ d = ['e'] := by simpa [Dict.keys, sampleDeletes] using hd
    rcases hd' with rfl | rfl
    · exact ⟨_, rfl⟩
    · exact ⟨_, rfl⟩

theorem sample_mutual : Mutual sampleFiles where
  links := by
    intro u file hfile l hl
    have hmem := Dict.get_eq_some.mp hfile
    simp only [sampleFiles, List.mem_cons, Prod.mk.injEq, List.not_mem_nil, or_false] at hmem
    rcases hmem with ⟨rfl, rfl⟩ | ⟨rfl, rfl⟩ | ⟨rfl, rfl⟩ | ⟨rfl, rfl⟩ | ⟨rfl, rfl⟩
    all_goals simp at hl
    · subst hl
      exact ⟨rfl, ['e'], by simp, rfl, fun _ h => by cases h; exact ⟨_, List.mem_cons_self, rfl⟩⟩
    · subst hl
      exact ⟨rfl, ['b'], by simp, rfl, fun _ h => by cases h; exact ⟨_, List.mem_cons_self, rfl⟩⟩
  backlinks := by
    intro u file hfile l hl
    have hmem := Dict.get_eq_some.mp hfile
    simp only [sampleFiles, List.mem_cons, Prod.mk.injEq, List.not_mem_nil, or_false] at hmem
    rcases hmem with ⟨rfl, rfl⟩ | ⟨rfl, rfl⟩ | ⟨rfl, rfl⟩ | ⟨rfl, rfl⟩ | ⟨rfl, rfl⟩
    all_goals simp at hl
    · subst hl
      exact ⟨rfl, ['c'], by simp, rfl, fun _ h => by cases h; exact ⟨_, List.mem_cons_self, rfl⟩⟩
    · subst hl
      exact ⟨rfl, ['a'], by simp, rfl, fun _ h => by cases h; exact ⟨_, List.mem_cons_self, rfl⟩⟩

/-- What is inherited in the example: nothing of `b`, and the link of `e` -/
theorem sample_inherited : inherited sampleDeletes sampleFiles =
    [⟨['f'], .backlinks, remapLinkDict sampleDeletes (sampleLink ['a'] ['e'])⟩,
      ⟨['a'], .links, remapLinkDict sampleDeletes (sampleLink ['a'] ['e'])⟩] := by
  have hb : resolveUri sampleDeletes ['b'] = ['c'] :=
    (resolveUri_eq_iff (by simp)).mpr sample_stands.1
  have he : resolveUri sampleDeletes ['e'] = ['f'] :=
    (resolveUri_eq_iff (by simp)).mpr sample_stands.2
  have ha : resolveUri sampleDeletes ['a'] = ['a'] := resolveUri_of_notMem (by decide)
  have hc : resolveUri sampleDeletes ['c'] = ['c'] := resolveUri_of_notMem (by decide)
  have hkeys : sampleDeletes.keys = [['b'], ['e']] := rfl
  change (inheritLink sampleDeletes .backlinks (sampleLink ['c'] ['b']) ++ []) ++
    ((inheritLink sampleDeletes .backlinks (sampleLink ['a'] ['e']) ++ []) ++ []) = _
  simp [inheritLink, remapLinkDict, sampleLink, field, resolveReplacementUri,
    forNeighbor, forTarget,
    ha, hb, hc, he, hkeys]

theorem inherit_no_stale_sample :
    (inheritDeletedLinkRelations 1 id (fun _ => true) sampleDeletes [] sampleFiles).1.get ['c'] =
        some ⟨[sampleLink ['c'] ['b']], [], ()⟩ ∧ Stands sampleDeletes ['b'] ['c'] := by
  have hopen : Open (fun _ => true) sampleDeletes [] ['c'] := ⟨by decide, List.not_mem_nil, rfl⟩
  have hget : (inheritDeletedLinkRelations 1 id (fun _ => true) sampleDeletes [] sampleFiles).1.get
      ['c'] = some ⟨[sampleLink ['c'] ['b']], [], ()⟩ := by
    rw [inherit_get hopen, (get_inheritedByUri _ _ _).mpr (by rw [sample_inherited]; simp)]
    rfl
  exact ⟨hget, inherit_no_stale sample_sound sample_mutual hopen hget (s := .links)
    (List.mem_singleton.mpr rfl) (by decide) (.inr rfl)⟩

theorem sample_noBars : NoBars sampleDeletes sampleFiles where
  links := by
    intro u file hfile side l hl
    have hmem := Dict.get_eq_some.mp hfile
    simp only [sampleFiles, List.mem_cons, Prod.mk.injEq, List.not_mem_nil, or_false] at hmem
    rcases hmem with ⟨rfl, rfl⟩ | ⟨rfl, rfl⟩ | ⟨rfl, rfl⟩ | ⟨rfl, rfl⟩ | ⟨rfl, rfl⟩
    all_goals
      cases side <;> simp only [File.side, List.mem_singleton, List.not_mem_nil] at hl
    all_goals
      subst hl
      exact ⟨_, _, rfl, rfl, by decide, by decide⟩
  replacements := by
    intro d r hget
    have hmem := Dict.get_eq_some.mp hget
    simp only [sampleDeletes, List.mem_cons, Prod.mk.injEq, List.not_mem_nil, or_false] at hmem
    rcases hmem with ⟨rfl, rfl⟩ | ⟨rfl, rfl⟩ <;> decide

theorem inherit_keeps_sample : ∃ fileA fileB : File ℕ Unit Unit,
    (inheritDeletedLinkRelations 1 id (fun _ => true) sampleDeletes [] sampleFiles).1.get ['a'] =
      some fileA ∧
    (inheritDeletedLinkRelations 1 id (fun _ => true) sampleDeletes [] sampleFiles).1.get ['f'] =
      some fileB ∧
    (∃ l' ∈ fileA.links, l'.fromUri = some (some ['a']) ∧ l'.toUri = some (some ['f']) ∧
      l'.dedupKey = (remapLinkDict sampleDeletes (sampleLink ['a'] ['e'])).dedupKey) ∧
    ∃ l' ∈ fileB.backlinks, l'.fromUri = some (some ['a']) ∧ l'.toUri = some (some ['f']) ∧
      l'.dedupKey = (remapLinkDict sampleDeletes (sampleLink ['a'] ['e'])).dedupKey :=
  inherit_keeps sample_noBars (d := ['e']) (r := ['f']) (s := .backlinks) rfl
    ⟨by simp, by simp, by decide⟩ rfl (List.mem_singleton.mpr rfl) rfl rfl (by simp) (by simp)
    (stands_self_of_get (.inl rfl)) sample_stands.2 (by decide)
    ⟨by decide, List.not_mem_nil, rfl⟩ ⟨by decide, List.not_mem_nil, rfl⟩ rfl rfl

end Replacements

end OpenViking.Memory
