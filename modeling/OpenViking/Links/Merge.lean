/-
# `OpenViking.Links.Merge` — merging two lists of links

`session/memory/merge_op/link_merge.py`.  Links with the same key become one: of the
existing ones the last stays as it is, and the new ones are worked into it.

Seen at one key, `merge_links` is `join`: the last existing link and all new ones, the first
of them changed by the others (`mergeAt_eq`).  Join is associative (`join_join`); what may
go wrong is

    the key       three texts with a `|` between them, which they may contain themselves
    duplicates    of the existing links with one key only the last is kept, so the others
                  do not count, unless the last one or the new ones say as much
    the weight    a link that is merged with itself gets the default weight as its own

`merge_lawful_iff` says when each of the three laws holds.
-/
import OpenViking.Lib.Dict
import OpenViking.Lib.Text

namespace OpenViking.Links

open OpenViking.Lib

/-- A link as a dictionary; a field may be missing.  The texts of the key may be `None`. -/
structure Link (W V : Type) where
  fromUri : Option (Option Str)
  toUri : Option (Option Str)
  matchText : Option (Option Str)
  weight : Option W
  linkType : Option V
  description : Option V
  createdAt : Option V
  /-- all other members -/
  rest : V
  deriving DecidableEq

variable {W V : Type} [LinearOrder W]

/-- `f"{link.get(field, '')}"` -/
def formatted : Option (Option Str) → Str
  | none => []
  | some none => "None".toList
  | some (some text) => text

namespace Link

/-- `_dedup_key` -/
def dedupKey (l : Link W V) : Str :=
  formatted l.fromUri ++ '|' :: (formatted l.toUri ++ '|' :: formatted l.matchText)

/-- `link.get("weight", 1.0)` -/
def weightOr (one : W) (l : Link W V) : W := l.weight.getD one

/-- A new link worked into one with the same key -/
def override (one : W) (existing link : Link W V) : Link W V :=
  { existing with
    weight := some (max (existing.weightOr one) (link.weightOr one))
    linkType := link.linkType <|> existing.linkType
    description := link.description <|> existing.description }

end Link

variable (one : W)

/-- The dictionary of `merge_links` -/
def linkMap (existingLinks newLinks : List (Link W V)) : Dict Str (Link W V) :=
  let known := Dict.empty.upserts Link.dedupKey (fun link _ => link) existingLinks
  known.upserts Link.dedupKey
    (fun link old =>
      match old with
      | some existing => existing.override one link
      | none => link)
    newLinks

def mergeLinks (existingLinks newLinks : List (Link W V)) : List (Link W V) :=
  (linkMap one existingLinks newLinks).values

/-! ## What a merge should be -/

/-- The last value that is set -/
def lastSet : List (Option V) → Option V
  | [] => none
  | x :: xs => lastSet xs <|> x

namespace Link

/-- What identifies a link; a missing text is the empty one. -/
def triple (l : Link W V) : Option Str × Option Str × Option Str :=
  (l.fromUri.getD (some []), l.toUri.getD (some []), l.matchText.getD (some []))

end Link

/-- The links of a list with a triple -/
def withTriple (l : List (Link W V)) (t : Option Str × Option Str × Option Str) : List (Link W V) :=
  l.filter (·.triple = t)

/-- The links of a list with a key -/
def withKey (l : List (Link W V)) (k : Str) : List (Link W V) := l.filter (·.dedupKey = k)

/-- One link for every triple, with the greatest weight, the last type and description that
are set, and the first time. -/
structure IsMerge (a b r : List (Link W V)) : Prop where
  nodup : (r.map Link.triple).Nodup
  triples : ∀ t, t ∈ r.map Link.triple ↔ t ∈ (a ++ b).map Link.triple
  weight_le : ∀ l ∈ r, ∀ x ∈ withTriple (a ++ b) l.triple, x.weightOr one ≤ l.weightOr one
  weight_mem : ∀ l ∈ r, ∃ x ∈ withTriple (a ++ b) l.triple, x.weightOr one = l.weightOr one
  linkType : ∀ l ∈ r, l.linkType = lastSet ((withTriple (a ++ b) l.triple).map Link.linkType)
  description : ∀ l ∈ r, l.description =
    lastSet ((withTriple (a ++ b) l.triple).map Link.description)
  createdAt : ∀ l ∈ r, l.createdAt = (withTriple (a ++ b) l.triple).head?.bind Link.createdAt

/-! ## Joining the links of one key -/

/-- The first link, with the others worked into it -/
def join : List (Link W V) → Option (Link W V)
  | [] => none
  | g :: G => some (G.foldl (Link.override one) g)

variable {one} {g x y : Link W V} {G A B C : List (Link W V)}

omit [LinearOrder W] in
theorem lastSet_append (xs ys : List (Option V)) :
    lastSet (xs ++ ys) = (lastSet ys <|> lastSet xs) := by
  induction xs with
  | nil =>
      rw [List.nil_append]
      cases lastSet ys <;> rfl
  | cons x xs ih =>
      rw [List.cons_append, lastSet, ih, lastSet]
      cases lastSet ys <;> rfl

omit [LinearOrder W] in
theorem lastSet_eq_none {xs : List (Option V)} : lastSet xs = none ↔ ∀ x ∈ xs, x = none := by
  induction xs with
  | nil => exact iff_of_true rfl fun x hx => absurd hx List.not_mem_nil
  | cons x xs ih =>
      rw [lastSet, List.forall_mem_cons, ← ih]
      cases lastSet xs with
      | none => exact ⟨fun h => ⟨h, rfl⟩, And.left⟩
      | some v => exact iff_of_false (Option.some_ne_none v) fun h => Option.some_ne_none v h.2

/-- The greatest weight of a link and a list -/
def maxWeight (one : W) (g : Link W V) (G : List (Link W V)) : W :=
  G.foldl (fun w l => max w (l.weightOr one)) (g.weightOr one)

theorem le_foldl_max {w z : W} : z ≤ G.foldl (fun w l => max w (l.weightOr one)) w ↔
    z ≤ w ∨ ∃ x ∈ G, z ≤ x.weightOr one := by
  induction G generalizing w with
  | nil => simp
  | cons x G ih =>
      rw [List.foldl_cons, ih, le_max_iff, List.exists_mem_cons_iff, or_assoc]

theorem le_maxWeight {z : W} : z ≤ maxWeight one g G ↔ ∃ x ∈ g :: G, z ≤ x.weightOr one := by
  rw [maxWeight, le_foldl_max, List.exists_mem_cons_iff]

theorem maxWeight_mem : ∃ x ∈ g :: G, x.weightOr one = maxWeight one g G := by
  obtain ⟨x, hx, hle⟩ := le_maxWeight.mp (le_refl (maxWeight one g G))
  exact ⟨x, hx, le_antisymm (le_maxWeight.mpr ⟨x, hx, le_rfl⟩) hle⟩

/-- What the join of a list is, field by field -/
theorem foldl_override (g : Link W V) (G : List (Link W V)) :
    G.foldl (Link.override one) g =
      { g with
        weight := if G = [] then g.weight else some (maxWeight one g G)
        linkType := lastSet ((g :: G).map Link.linkType)
        description := lastSet ((g :: G).map Link.description) } := by
  induction G generalizing g with
  | nil =>
      rw [if_pos rfl]
      rfl
  | cons x G ih =>
      have hmax : maxWeight one (g.override one x) G = maxWeight one g (x :: G) := rfl
      have hweight : (g.override one x).weight = some (maxWeight one g [x]) := rfl
      rw [List.foldl_cons, ih, if_neg (List.cons_ne_nil x G), hmax, hweight]
      have hif : (if G = [] then some (maxWeight one g [x]) else some (maxWeight one g (x :: G))) =
          some (maxWeight one g (x :: G)) := by
        split
        · next h => rw [h]
        · rfl
      rw [hif]
      have hassoc : ∀ a b c : Option V, (a <|> (b <|> c)) = ((a <|> b) <|> c) := by
        intro a b c
        cases a <;> rfl
      simp only [Link.override, List.map_cons, lastSet, hassoc]

theorem weightOr_foldl (g : Link W V) (G : List (Link W V)) :
    (G.foldl (Link.override one) g).weightOr one = maxWeight one g G := by
  rw [foldl_override]
  cases G with
  | nil => rfl
  | cons x G => rfl

theorem max_maxWeight (u y : Link W V) (Y : List (Link W V)) :
    max (u.weightOr one) (maxWeight one y Y) = maxWeight one u (y :: Y) := by
  refine eq_of_forall_le_iff fun z => ?_
  rw [le_max_iff, le_maxWeight, le_maxWeight, List.exists_mem_cons_iff (a := u)]

theorem override_foldl (u y : Link W V) (Y : List (Link W V)) :
    u.override one (Y.foldl (Link.override one) y) = (y :: Y).foldl (Link.override one) u := by
  rw [foldl_override u, if_neg (List.cons_ne_nil y Y), ← max_maxWeight, ← weightOr_foldl]
  have htype : (Y.foldl (Link.override one) y).linkType = lastSet ((y :: Y).map Link.linkType) := by
    rw [foldl_override]
  have hdescription : (Y.foldl (Link.override one) y).description =
      lastSet ((y :: Y).map Link.description) := by
    rw [foldl_override]
  rw [Link.override, htype, hdescription]
  rfl

/-- A join may be joined again with what stands before it. -/
theorem join_join (X Y : List (Link W V)) :
    join one (X ++ (join one Y).toList) = join one (X ++ Y) := by
  cases Y with
  | nil => rfl
  | cons y Y =>
      cases X with
      | nil => rfl
      | cons x X =>
          have happend : ∀ Z, join one (x :: (X ++ Z)) =
              some (Z.foldl (Link.override one) (X.foldl (Link.override one) x)) := by
            intro Z
            rw [join, List.foldl_append]
          rw [List.cons_append, List.cons_append, happend, happend, ← override_foldl]
          rfl

/-! ## The dictionary, key by key -/

/-- Where the links of a key start: with the last existing one. -/
def kept (A B : List (Link W V)) : List (Link W V) := A.getLast?.toList ++ B

omit [LinearOrder W] in
theorem foldl_keep_last (o : Option (Link W V)) (A : List (Link W V)) :
    A.foldl (fun _ a => some a) o = (A.getLast? <|> o) := by
  induction A generalizing o with
  | nil => cases o <;> rfl
  | cons a A ih =>
      rw [List.foldl_cons, ih, List.getLast?_cons]
      cases A.getLast? <;> rfl

theorem foldl_override_some (o : Option (Link W V)) (B : List (Link W V)) :
    B.foldl (fun old link => some (match old with
      | some existing => existing.override one link
      | none => link)) o = join one (o.toList ++ B) := by
  induction B generalizing o with
  | nil => cases o <;> rfl
  | cons b B ih =>
      rw [List.foldl_cons, ih]
      cases o <;> rfl

theorem get_linkMap (a b : List (Link W V)) (k : Str) :
    (linkMap one a b).get k = join one (kept (withKey a k) (withKey b k)) := by
  unfold linkMap
  dsimp only
  rw [Dict.get_upserts, Dict.get_upserts, foldl_override_some]
  rw [foldl_keep_last]
  unfold kept withKey
  cases (a.filter (·.dedupKey = k)).getLast? <;> rfl

theorem dedupKey_foldl (g : Link W V) (G : List (Link W V)) :
    (G.foldl (Link.override one) g).dedupKey = g.dedupKey := by
  rw [foldl_override]
  rfl

theorem triple_foldl (g : Link W V) (G : List (Link W V)) :
    (G.foldl (Link.override one) g).triple = g.triple := by
  rw [foldl_override]
  rfl

omit [LinearOrder W] in
theorem mem_withKey {l : List (Link W V)} {k : Str} : x ∈ withKey l k ↔ x ∈ l ∧ x.dedupKey = k := by
  rw [withKey, List.mem_filter, decide_eq_true_eq]

omit [LinearOrder W] in
theorem mem_withTriple {l : List (Link W V)} {t : Option Str × Option Str × Option Str} :
    x ∈ withTriple l t ↔ x ∈ l ∧ x.triple = t := by
  rw [withTriple, List.mem_filter, decide_eq_true_eq]

omit [LinearOrder W] in
theorem mem_kept (h : x ∈ kept A B) : x ∈ A ∨ x ∈ B := by
  rcases List.mem_append.mp h with h | h
  · exact .inl (List.mem_of_getLast? (Option.mem_toList.mp h))
  · exact .inr h

/-- A link is filed under its own key. -/
theorem key_of_get {a b : List (Link W V)} {k : Str} {l : Link W V}
    (h : (linkMap one a b).get k = some l) : l.dedupKey = k := by
  rw [get_linkMap] at h
  cases hkept : kept (withKey a k) (withKey b k) with
  | nil => rw [hkept] at h; cases h
  | cons g G =>
      rw [hkept] at h
      cases h
      rw [dedupKey_foldl]
      have hg : g ∈ kept (withKey a k) (withKey b k) := by
        rw [hkept]
        exact List.mem_cons_self
      rcases mem_kept hg with hg | hg
      · exact (mem_withKey.mp hg).2
      · exact (mem_withKey.mp hg).2

theorem mem_mergeLinks {a b : List (Link W V)} {l : Link W V} :
    l ∈ mergeLinks one a b ↔ (linkMap one a b).get l.dedupKey = some l := by
  unfold mergeLinks
  rw [Dict.mem_values]
  constructor
  · rintro ⟨k, hk⟩
    rw [key_of_get hk]
    exact hk
  · intro h
    exact ⟨_, h⟩

theorem map_dedupKey (a b : List (Link W V)) :
    (mergeLinks one a b).map Link.dedupKey = (linkMap one a b).keys := by
  unfold mergeLinks Dict.values Dict.keys
  rw [List.map_map]
  refine List.map_congr_left fun item hitem => ?_
  exact key_of_get (Dict.get_eq_some.mpr hitem)

/-! ## Keys and triples -/

/-- The key of a triple -/
def tripleKey (t : Option Str × Option Str × Option Str) : Str :=
  formatted (some t.1) ++ '|' :: (formatted (some t.2.1) ++ '|' :: formatted (some t.2.2))

omit [LinearOrder W] in
theorem dedupKey_eq (l : Link W V) : l.dedupKey = tripleKey l.triple := by
  have hfield : ∀ field : Option (Option Str),
      formatted field = formatted (some (field.getD (some []))) := by
    intro field
    cases field <;> rfl
  unfold Link.dedupKey tripleKey Link.triple
  rw [hfield l.fromUri, hfield l.toUri, hfield l.matchText]

/-- The keys tell the triples apart. -/
def Faithful (l : List (Link W V)) : Prop :=
  ∀ x ∈ l, ∀ y ∈ l, x.dedupKey = y.dedupKey → x.triple = y.triple

omit [LinearOrder W] in
theorem Faithful.withKey_eq {l l' : List (Link W V)} (h : Faithful l) (hx : x ∈ l)
    (hl' : ∀ y ∈ l', y ∈ l) : withKey l' x.dedupKey = withTriple l' x.triple := by
  refine List.filter_congr fun y hy => ?_
  rw [decide_eq_decide]
  exact ⟨fun heq => h y (hl' y hy) x hx heq, fun heq => by rw [dedupKey_eq, dedupKey_eq, heq]⟩

/-- The last of the existing links speaks for the others, or the new ones do. -/
structure Speaks (one : W) (A B : List (Link W V)) : Prop where
  weight : ∀ x ∈ A, ∃ y ∈ kept A B, x.weightOr one ≤ y.weightOr one
  linkType : ∀ x ∈ A, x.linkType ≠ none → ∃ y ∈ kept A B, y.linkType ≠ none
  description : ∀ x ∈ A, x.description ≠ none → ∃ y ∈ kept A B, y.description ≠ none
  createdAt : A.head?.bind Link.createdAt = A.getLast?.bind Link.createdAt

omit [LinearOrder W] in
theorem subset_kept (hx : x ∈ B) : x ∈ kept A B := List.mem_append_right _ hx

omit [LinearOrder W] in
/-- A field is taken from the right link. -/
theorem lastSet_kept (f : Link W V → Option V) :
    lastSet ((kept A B).map f) = lastSet ((A ++ B).map f) ↔
      ∀ x ∈ A, f x ≠ none → ∃ y ∈ kept A B, f y ≠ none := by
  constructor
  · intro heq x hx hset
    by_contra hnone
    push Not at hnone
    have hkept : lastSet ((kept A B).map f) = none :=
      lastSet_eq_none.mpr (List.forall_mem_map.mpr hnone)
    rw [heq, lastSet_eq_none, List.forall_mem_map] at hkept
    exact hset (hkept x (List.mem_append_left _ hx))
  · intro h
    unfold kept
    rw [List.map_append, List.map_append, lastSet_append, lastSet_append]
    cases hB : lastSet (B.map f) with
    | some v => rfl
    | none =>
        rcases List.eq_nil_or_concat' A with rfl | ⟨A', e, rfl⟩
        · rfl
        rw [List.getLast?_concat, List.map_append, lastSet_append]
        change (none <|> (none <|> f e)) = (none <|> ((none <|> f e) <|> lastSet (A'.map f)))
        cases he : f e with
        | some v => rfl
        | none =>
            -- neither the last link nor a new one sets the field, so no other does
            have hall : ∀ y ∈ kept (A' ++ [e]) B, f y = none := by
              intro y hy
              rcases List.mem_append.mp hy with hy | hy
              · rw [List.getLast?_concat] at hy
                rw [List.mem_singleton.mp hy, he]
              · exact List.forall_mem_map.mp (lastSet_eq_none.mp hB) y hy
            have hA' : lastSet (A'.map f) = none := by
              rw [lastSet_eq_none, List.forall_mem_map]
              intro x hx
              by_contra hset
              obtain ⟨y, hy, hy'⟩ := h x (List.mem_append_left _ hx) hset
              exact hy' (hall y hy)
            rw [hA']
            rfl

/-- The fields of the link for one triple -/
structure FieldsOk (one : W) (L : List (Link W V)) (l : Link W V) : Prop where
  weight_le : ∀ x ∈ L, x.weightOr one ≤ l.weightOr one
  weight_mem : ∃ x ∈ L, x.weightOr one = l.weightOr one
  linkType : l.linkType = lastSet (L.map Link.linkType)
  description : l.description = lastSet (L.map Link.description)
  createdAt : l.createdAt = L.head?.bind Link.createdAt

theorem fieldsOk_iff (hkept : kept A B = g :: G) :
    FieldsOk one (A ++ B) (G.foldl (Link.override one) g) ↔ Speaks one A B := by
  have hweight : (G.foldl (Link.override one) g).weightOr one = maxWeight one g G :=
    weightOr_foldl g G
  have htype : (G.foldl (Link.override one) g).linkType =
      lastSet ((kept A B).map Link.linkType) := by
    rw [hkept, foldl_override]
  have hdescription : (G.foldl (Link.override one) g).description =
      lastSet ((kept A B).map Link.description) := by
    rw [hkept, foldl_override]
  have hcreated : (G.foldl (Link.override one) g).createdAt =
      (kept A B).head?.bind Link.createdAt := by
    rw [hkept, foldl_override]
    rfl
  have hcreated_iff : (kept A B).head?.bind Link.createdAt = (A ++ B).head?.bind Link.createdAt ↔
      A.head?.bind Link.createdAt = A.getLast?.bind Link.createdAt := by
    cases A with
    | nil => exact iff_of_true rfl rfl
    | cons a A =>
        unfold kept
        rw [List.getLast?_eq_some_getLast (List.cons_ne_nil a A)]
        exact eq_comm
  constructor
  · intro h
    refine ⟨fun x hx => ?_, ?_, ?_, ?_⟩
    · rw [hkept, ← le_maxWeight, ← hweight]
      exact h.weight_le x (List.mem_append_left _ hx)
    · exact (lastSet_kept _).mp (htype ▸ h.linkType)
    · exact (lastSet_kept _).mp (hdescription ▸ h.description)
    · exact hcreated_iff.mp (hcreated ▸ h.createdAt)
  · intro h
    refine ⟨fun x hx => ?_, ?_, ?_, ?_, ?_⟩
    · rw [hweight, le_maxWeight, ← hkept]
      rcases List.mem_append.mp hx with hx | hx
      · exact h.weight x hx
      · exact ⟨x, subset_kept hx, le_rfl⟩
    · obtain ⟨x, hx, heq⟩ : ∃ x ∈ g :: G, x.weightOr one = maxWeight one g G := maxWeight_mem
      rw [← hkept] at hx
      exact ⟨x, List.mem_append.mpr (mem_kept hx), heq.trans hweight.symm⟩
    · rw [htype]
      exact (lastSet_kept _).mpr h.linkType
    · rw [hdescription]
      exact (lastSet_kept _).mpr h.description
    · rw [hcreated]
      exact hcreated_iff.mpr h.createdAt

/-- A link of the result, and the links it is made of -/
theorem exists_kept {a b : List (Link W V)} {l : Link W V} (hl : l ∈ mergeLinks one a b) :
    ∃ g G, kept (withKey a l.dedupKey) (withKey b l.dedupKey) = g :: G ∧
      l = G.foldl (Link.override one) g ∧ g ∈ a ++ b := by
  have hget := mem_mergeLinks.mp hl
  rw [get_linkMap] at hget
  cases hkept : kept (withKey a l.dedupKey) (withKey b l.dedupKey) with
  | nil => rw [hkept] at hget; cases hget
  | cons g G =>
      rw [hkept] at hget
      have hg : g ∈ kept (withKey a l.dedupKey) (withKey b l.dedupKey) := by
        rw [hkept]
        exact List.mem_cons_self
      refine ⟨g, G, rfl, (Option.some.inj hget).symm, List.mem_append.mpr ?_⟩
      exact (mem_kept hg).imp (fun h => (mem_withKey.mp h).1) fun h => (mem_withKey.mp h).1

/-- Every link has one in the result under its key. -/
theorem exists_mem_mergeLinks {a b : List (Link W V)} (hx : x ∈ a ++ b) :
    ∃ l ∈ mergeLinks one a b, l.dedupKey = x.dedupKey := by
  have hne : kept (withKey a x.dedupKey) (withKey b x.dedupKey) ≠ [] := by
    rcases List.mem_append.mp hx with hx | hx
    · have hmem := mem_withKey.mpr ⟨hx, rfl⟩
      unfold kept
      rw [List.getLast?_eq_some_getLast (List.ne_nil_of_mem hmem)]
      exact List.cons_ne_nil _ _
    · exact List.ne_nil_of_mem (subset_kept (mem_withKey.mpr ⟨hx, rfl⟩))
  obtain ⟨g, G, hkept⟩ := List.exists_cons_of_ne_nil hne
  have hget : (linkMap one a b).get x.dedupKey = _ := get_linkMap a b x.dedupKey
  rw [hkept, join] at hget
  have hkey := key_of_get hget
  exact ⟨_, mem_mergeLinks.mpr (by rw [hkey]; exact hget), hkey⟩

omit [LinearOrder W] in
theorem withTriple_append (a b : List (Link W V)) (t : Option Str × Option Str × Option Str) :
    withTriple (a ++ b) t = withTriple a t ++ withTriple b t := List.filter_append _ _

/-- If the keys tell the triples apart, a link of the result is made of the links with its
triple. -/
theorem Faithful.exists_kept {a b : List (Link W V)} (h : Faithful (a ++ b)) {l : Link W V}
    (hl : l ∈ mergeLinks one a b) :
    ∃ g G, kept (withTriple a l.triple) (withTriple b l.triple) = g :: G ∧
      l = G.foldl (Link.override one) g := by
  obtain ⟨g, G, hkept, hfold, hg⟩ := Links.exists_kept hl
  have hkey : l.dedupKey = g.dedupKey := by rw [hfold, dedupKey_foldl]
  have htriple : l.triple = g.triple := by rw [hfold, triple_foldl]
  refine ⟨g, G, ?_, hfold⟩
  rw [htriple, ← h.withKey_eq hg fun y hy => List.mem_append_left b hy,
    ← h.withKey_eq hg fun y hy => List.mem_append_right a hy, ← hkey]
  exact hkept

theorem IsMerge.fieldsOk {a b r : List (Link W V)} (h : IsMerge one a b r) {l : Link W V}
    (hl : l ∈ r) : FieldsOk one (withTriple (a ++ b) l.triple) l :=
  ⟨h.weight_le l hl, h.weight_mem l hl, h.linkType l hl, h.description l hl, h.createdAt l hl⟩

theorem faithful_of_isMerge {a b : List (Link W V)} (h : IsMerge one a b (mergeLinks one a b)) :
    Faithful (a ++ b) := by
  intro x hx y hy hkey
  -- both triples are in the result, under one key
  obtain ⟨l, hl, hlx⟩ := List.mem_map.mp ((h.triples _).mpr (List.mem_map_of_mem hx))
  obtain ⟨l', hl', hly⟩ := List.mem_map.mp ((h.triples _).mpr (List.mem_map_of_mem hy))
  have hkey' : l.dedupKey = l'.dedupKey := by
    rw [dedupKey_eq, hlx, ← dedupKey_eq, hkey, dedupKey_eq, ← hly, ← dedupKey_eq]
  have hget := mem_mergeLinks.mp hl
  rw [hkey', mem_mergeLinks.mp hl'] at hget
  rw [← hlx, ← hly, Option.some.inj hget]

theorem Faithful.fieldsOk_iff {a b : List (Link W V)} (h : Faithful (a ++ b)) {l : Link W V}
    (hl : l ∈ mergeLinks one a b) :
    FieldsOk one (withTriple (a ++ b) l.triple) l ↔
      Speaks one (withTriple a l.triple) (withTriple b l.triple) := by
  obtain ⟨g, G, hkept, hfold⟩ := h.exists_kept hl
  have hiff : FieldsOk one _ (G.foldl (Link.override one) g) ↔ _ := Links.fieldsOk_iff hkept
  rwa [← hfold, ← withTriple_append] at hiff

theorem isMerge_iff (a b : List (Link W V)) :
    IsMerge one a b (mergeLinks one a b) ↔
      Faithful (a ++ b) ∧ ∀ t, Speaks one (withTriple a t) (withTriple b t) := by
  constructor
  · intro h
    have hfaithful := faithful_of_isMerge h
    refine ⟨hfaithful, fun t => ?_⟩
    by_cases hnone : withTriple a t = []
    · rw [hnone]
      exact ⟨fun x hx => absurd hx List.not_mem_nil, fun x hx => absurd hx List.not_mem_nil,
        fun x hx => absurd hx List.not_mem_nil, rfl⟩
    · obtain ⟨x, hx⟩ := List.exists_mem_of_ne_nil _ hnone
      obtain ⟨hxa, rfl⟩ := mem_withTriple.mp hx
      obtain ⟨l, hl, hlx⟩ := List.mem_map.mp
        ((h.triples _).mpr (List.mem_map_of_mem (List.mem_append_left b hxa)))
      rw [← hlx]
      exact (hfaithful.fieldsOk_iff hl).mp (h.fieldsOk hl)
  · rintro ⟨hfaithful, hspeaks⟩
    have hfields : ∀ l ∈ mergeLinks one a b, FieldsOk one (withTriple (a ++ b) l.triple) l :=
      fun l hl => (hfaithful.fieldsOk_iff hl).mpr (hspeaks l.triple)
    refine ⟨?_, fun t => ⟨?_, ?_⟩, fun l hl => (hfields l hl).weight_le,
      fun l hl => (hfields l hl).weight_mem, fun l hl => (hfields l hl).linkType,
      fun l hl => (hfields l hl).description, fun l hl => (hfields l hl).createdAt⟩
    · have hkeys := (linkMap one a b).nodup
      change (linkMap one a b).keys.Nodup at hkeys
      rw [← map_dedupKey] at hkeys
      refine List.Nodup.of_map tripleKey ?_
      have hsame : tripleKey ∘ Link.triple = (Link.dedupKey : Link W V → Str) :=
        funext fun l => (dedupKey_eq l).symm
      rw [List.map_map, hsame]
      exact hkeys
    · intro ht
      obtain ⟨l, hl, rfl⟩ := List.mem_map.mp ht
      obtain ⟨g, G, -, hfold, hg⟩ := exists_kept hl
      rw [hfold, triple_foldl]
      exact List.mem_map_of_mem hg
    · intro ht
      obtain ⟨x, hx, rfl⟩ := List.mem_map.mp ht
      obtain ⟨l, hl, hkey⟩ : ∃ l ∈ mergeLinks one a b, l.dedupKey = x.dedupKey :=
        exists_mem_mergeLinks hx
      obtain ⟨g, G, -, hfold, hg⟩ := exists_kept hl
      refine List.mem_map.mpr ⟨l, hl, ?_⟩
      rw [hfold, triple_foldl]
      refine hfaithful g hg x hx ?_
      rw [← hkey, hfold, dedupKey_foldl]

/-! ## Merging twice -/

theorem nodup_mergeLinks (a b : List (Link W V)) : (mergeLinks one a b).Nodup := by
  refine List.Nodup.of_map Link.dedupKey ?_
  rw [map_dedupKey]
  exact (linkMap one a b).nodup

/-- The result of a merge has one link, at most, with a key. -/
theorem withKey_mergeLinks (a b : List (Link W V)) (k : Str) :
    withKey (mergeLinks one a b) k = (join one (kept (withKey a k) (withKey b k))).toList := by
  rw [← get_linkMap]
  have hmem : ∀ l, l ∈ withKey (mergeLinks one a b) k ↔ (linkMap one a b).get k = some l := by
    intro l
    rw [mem_withKey, mem_mergeLinks]
    constructor
    · rintro ⟨hget, rfl⟩
      exact hget
    · intro hget
      rw [key_of_get hget]
      exact ⟨hget, rfl⟩
  cases hget : (linkMap one a b).get k with
  | none =>
      refine List.eq_nil_iff_forall_not_mem.mpr fun l hl => ?_
      rw [hmem, hget] at hl
      cases hl
  | some v =>
      refine List.perm_singleton.mp ((List.perm_ext_iff_of_nodup ((nodup_mergeLinks a b).filter _)
        (List.nodup_singleton v)).mpr fun l => ?_)
      change l ∈ withKey _ k ↔ _
      rw [hmem, hget, List.mem_singleton, Option.some.injEq, eq_comm]

/-- Two results have the same links iff they have the same one for every key. -/
theorem perm_mergeLinks_iff {a b c d : List (Link W V)} :
    (mergeLinks one a b).Perm (mergeLinks one c d) ↔
      ∀ k, (linkMap one a b).get k = (linkMap one c d).get k := by
  constructor
  · intro hperm k
    have hsame : (withKey (mergeLinks one a b) k).Perm (withKey (mergeLinks one c d) k) :=
      hperm.filter _
    rw [withKey_mergeLinks, withKey_mergeLinks, ← get_linkMap, ← get_linkMap] at hsame
    cases hget : (linkMap one a b).get k with
    | none =>
        rw [hget] at hsame
        exact (Option.toList_eq_nil_iff.mp (List.nil_perm.mp hsame)).symm
    | some v =>
        rw [hget] at hsame
        have hmem : v ∈ ((linkMap one c d).get k).toList :=
          hsame.subset (Option.mem_toList.mpr rfl)
        exact (Option.mem_toList.mp hmem).symm
  · intro hget
    refine (List.perm_ext_iff_of_nodup (nodup_mergeLinks a b)
      (nodup_mergeLinks c d)).mpr fun l => ?_
    rw [mem_mergeLinks, mem_mergeLinks, hget]

/-- A merge on top of a merge, at one key -/
theorem get_linkMap_merged (a b c : List (Link W V)) (k : Str) :
    (linkMap one (mergeLinks one a b) c).get k =
      join one (kept (withKey a k) (withKey b k) ++ withKey c k) := by
  rw [get_linkMap, withKey_mergeLinks]
  cases hkept : kept (withKey a k) (withKey b k) with
  | nil => rfl
  | cons g G =>
      change some ((withKey c k).foldl (Link.override one) (G.foldl (Link.override one) g)) =
        join one (g :: (G ++ withKey c k))
      rw [← List.foldl_append]
      rfl

/-- What a join leaves as it is in the first link -/
def Link.bare (l : Link W V) : Link W V :=
  { l with weight := none, linkType := none, description := none }

/-- The weight that a join has -/
def joinedWeight (one : W) (g : Link W V) (G : List (Link W V)) : Option W :=
  if G = [] then g.weight else some (maxWeight one g G)

theorem join_eq_iff {h : Link W V} {H : List (Link W V)} :
    join one (g :: G) = join one (h :: H) ↔
      g.bare = h.bare ∧ joinedWeight one g G = joinedWeight one h H ∧
        lastSet ((g :: G).map Link.linkType) = lastSet ((h :: H).map Link.linkType) ∧
        lastSet ((g :: G).map Link.description) = lastSet ((h :: H).map Link.description) := by
  rw [join, join, Option.some.injEq, foldl_override, foldl_override, ← joinedWeight, ← joinedWeight]
  obtain ⟨f₁, f₂, f₃, w, t, d, c, r⟩ := g
  obtain ⟨f₁', f₂', f₃', w', t', d', c', r'⟩ := h
  simp only [Link.bare, Link.mk.injEq]
  tauto

/-- A new link that is merged alone has a weight of its own. -/
def Weighted (a b : List (Link W V)) : Prop :=
  ∀ l ∈ b, l.weight = none → (∃ x ∈ a, x.dedupKey = l.dedupKey) ∨
    2 ≤ (withKey b l.dedupKey).length

theorem join_again_iff (hkept : kept A B = g :: G) (hB : B ≠ []) :
    join one (kept A B ++ B) = join one (kept A B) ↔ (G = [] → g.weight ≠ none) := by
  have hset : ∀ f : Link W V → Option V,
      lastSet ((kept A B ++ B).map f) = lastSet ((kept A B).map f) := by
    intro f
    unfold kept
    rw [List.map_append, List.map_append, lastSet_append, lastSet_append]
    cases lastSet (B.map f) <;> rfl
  have hmax : maxWeight one g (G ++ B) = maxWeight one g G := by
    refine eq_of_forall_le_iff fun z => ?_
    rw [le_maxWeight, le_maxWeight, ← List.cons_append, ← hkept]
    constructor
    · rintro ⟨x, hx, hz⟩
      rcases List.mem_append.mp hx with hx | hx
      · exact ⟨x, hx, hz⟩
      · exact ⟨x, subset_kept hx, hz⟩
    · rintro ⟨x, hx, hz⟩
      exact ⟨x, List.mem_append_left _ hx, hz⟩
  have hset₁ := hset Link.linkType
  have hset₂ := hset Link.description
  rw [hkept, List.cons_append] at hset₁ hset₂ ⊢
  rw [join_eq_iff]
  have hne : G ++ B ≠ [] := fun h => hB (List.append_eq_nil_iff.mp h).2
  unfold joinedWeight
  rw [if_neg hne, hmax]
  constructor
  · rintro ⟨-, hweight, -⟩ hnil hnone
    rw [if_pos hnil, hnone] at hweight
    cases hweight
  · intro halone
    refine ⟨rfl, ?_, hset₁, hset₂⟩
    split
    · next hnil =>
        obtain ⟨w, hw⟩ := Option.ne_none_iff_exists'.mp (halone hnil)
        rw [hnil, hw, maxWeight, List.foldl_nil, Link.weightOr, hw]
        rfl
    · rfl

omit [LinearOrder W] in
/-- The new links of a key, if they are merged alone -/
theorem kept_eq_singleton (hB : B ≠ []) : kept A B = [g] ↔ A = [] ∧ B = [g] := by
  rcases List.eq_nil_or_concat' A with rfl | ⟨A', e, rfl⟩
  · exact ⟨fun h => ⟨rfl, h⟩, And.right⟩
  · refine iff_of_false ?_ fun h => ?_
    · unfold kept
      rw [List.getLast?_concat]
      intro h
      exact hB (List.cons.inj h).2
    · exact absurd h.1 (List.append_ne_nil_of_right_ne_nil _ (List.cons_ne_nil e []))

theorem merge_again_iff (a b : List (Link W V)) :
    mergeLinks one (mergeLinks one a b) b = mergeLinks one a b ↔ Weighted a b := by
  -- the keys are the same, in the same order
  have hkeys : (linkMap one (mergeLinks one a b) b).keys = (linkMap one a b).keys := by
    have hnew : (Dict.empty.upserts Link.dedupKey (fun link _ => link) (mergeLinks one a b)).keys =
        (linkMap one a b).keys := by
      rw [Dict.keys_upserts_of_new, map_dedupKey]
      · rfl
      · rw [map_dedupKey]
        exact (linkMap one a b).nodup
      · exact fun l _ => List.not_mem_nil
    unfold linkMap
    dsimp only
    rw [Dict.keys_upserts_of_subset, hnew]
    · rfl
    · intro l hl
      rw [hnew, ← map_dedupKey]
      obtain ⟨l', hl', hkey⟩ : ∃ l' ∈ mergeLinks one a b, l'.dedupKey = l.dedupKey :=
        exists_mem_mergeLinks (List.mem_append_right a hl)
      rw [← hkey]
      exact List.mem_map_of_mem hl'
  have hget : mergeLinks one (mergeLinks one a b) b = mergeLinks one a b ↔
      ∀ k, (linkMap one (mergeLinks one a b) b).get k = (linkMap one a b).get k := by
    constructor
    · intro heq
      exact perm_mergeLinks_iff.mp (List.Perm.of_eq heq)
    · intro h
      exact congrArg Dict.values (Dict.ext_get hkeys h)
  rw [hget]
  constructor
  · intro h l hl hnone
    have hk := h l.dedupKey
    rw [get_linkMap_merged, get_linkMap] at hk
    have hmem := mem_withKey.mpr ⟨hl, rfl⟩
    by_contra hlone
    rw [not_or, not_le] at hlone
    have hA : withKey a l.dedupKey = [] := by
      refine List.eq_nil_iff_forall_not_mem.mpr fun x hx => hlone.1 ⟨x, ?_⟩
      exact mem_withKey.mp hx
    have hB : withKey b l.dedupKey = [l] := by
      obtain ⟨x, hx⟩ := List.length_eq_one_iff.mp
        (le_antisymm (Nat.le_of_lt_succ hlone.2) (List.length_pos_of_mem hmem))
      rw [hx] at hmem ⊢
      rw [List.mem_singleton.mp hmem]
    rw [hA, hB] at hk
    exact (join_again_iff (A := []) (B := [l]) rfl (List.cons_ne_nil l [])).mp hk rfl hnone
  · intro h k
    rw [get_linkMap_merged, get_linkMap]
    by_cases hB : withKey b k = []
    · rw [hB, List.append_nil]
    · obtain ⟨l, hl⟩ := List.exists_mem_of_ne_nil _ hB
      obtain ⟨g, G, hkept⟩ := List.exists_cons_of_ne_nil (List.ne_nil_of_mem (subset_kept hl))
      refine (join_again_iff hkept hB).mpr fun hG hnone => ?_
      rw [hG, kept_eq_singleton hB] at hkept
      have hg : g ∈ withKey b k := by
        rw [hkept.2]
        exact List.mem_singleton_self g
      obtain ⟨hgb, rfl⟩ := mem_withKey.mp hg
      rcases h g hgb hnone with ⟨x, hx, hkey⟩ | htwo
      · have := mem_withKey.mpr ⟨hx, hkey⟩
        rw [hkept.1] at this
        cases this
      · rw [hkept.2, List.length_singleton] at htwo
        omega

/-! ## Merging three lists -/

/-- The last link of the middle list stands for that list: its links say nothing more than
what it says, or the last one before or the ones after say.  Without one before, the first
link also decides all other members. -/
structure Stands (one : W) (A B C : List (Link W V)) : Prop where
  weight : ∀ x ∈ B, ∃ y ∈ kept A (kept B C), x.weightOr one ≤ y.weightOr one
  linkType : ∀ t, lastSet (B.map Link.linkType) = some t →
    (∃ y ∈ kept B C, y.linkType ≠ none) ∨ ∃ e ∈ A.getLast?, e.linkType = some t
  description : ∀ t, lastSet (B.map Link.description) = some t →
    (∃ y ∈ kept B C, y.description ≠ none) ∨ ∃ e ∈ A.getLast?, e.description = some t
  bare : A = [] → B.head?.map Link.bare = B.getLast?.map Link.bare
  weighted : A = [] → C = [] → 2 ≤ B.length → ∀ e ∈ B.getLast?, e.weight ≠ none

omit [LinearOrder W] in
theorem lastSet_stands (f : Link W V → Option V) :
    lastSet ((kept A (B ++ C)).map f) = lastSet ((kept A (kept B C)).map f) ↔
      ∀ t, lastSet (B.map f) = some t →
        (∃ y ∈ kept B C, f y ≠ none) ∨ ∃ e ∈ A.getLast?, f e = some t := by
  have hlast : ∀ L : List (Link W V), lastSet (L.getLast?.toList.map f) = L.getLast?.bind f := by
    intro L
    cases L.getLast? <;> rfl
  have hstays : ∀ v, B.getLast?.bind f = some v → lastSet (B.map f) = some v := by
    intro v hv
    rcases List.eq_nil_or_concat' B with rfl | ⟨B', e, rfl⟩
    · cases hv
    · rw [List.getLast?_concat] at hv
      rw [List.map_append, lastSet_append]
      change ((none <|> f e) <|> _) = _
      rw [show f e = some v from hv]
      rfl
  have hafter : (∃ y ∈ kept B C, f y ≠ none) ↔
      (lastSet (C.map f) <|> B.getLast?.bind f) ≠ none := by
    rw [← hlast, ← lastSet_append, ← List.map_append, Ne, lastSet_eq_none, List.forall_mem_map]
    push Not
    rfl
  have hbefore : ∀ t, (∃ e ∈ A.getLast?, f e = some t) ↔ A.getLast?.bind f = some t := by
    intro t
    rw [Option.bind_eq_some_iff]
    rfl
  rw [hafter]
  simp only [hbefore, kept, List.map_append, lastSet_append, hlast]
  cases hC : lastSet (C.map f) with
  | some v => exact iff_of_true rfl fun _ _ => .inl (Option.some_ne_none v)
  | none =>
      cases hB : B.getLast?.bind f with
      | some v =>
          rw [hstays v hB]
          exact iff_of_true rfl fun _ _ => .inl (Option.some_ne_none v)
      | none =>
          cases lastSet (B.map f) with
          | none => exact iff_of_true rfl fun _ h => absurd h (Option.some_ne_none _).symm
          | some v =>
              constructor
              · intro heq t ht
                exact .inr (heq.symm.trans ht)
              · intro h
                exact ((h v rfl).resolve_left fun hne => hne rfl).symm

theorem maxWeight_eq_iff {h : Link W V} {H : List (Link W V)} (hsub : ∀ y ∈ h :: H, y ∈ g :: G) :
    maxWeight one g G = maxWeight one h H ↔
      ∀ x ∈ g :: G, ∃ y ∈ h :: H, x.weightOr one ≤ y.weightOr one := by
  constructor
  · intro heq x hx
    rw [← le_maxWeight, ← heq, le_maxWeight]
    exact ⟨x, hx, le_rfl⟩
  · intro hall
    refine eq_of_forall_le_iff fun z => ?_
    rw [le_maxWeight, le_maxWeight]
    constructor
    · rintro ⟨x, hx, hz⟩
      obtain ⟨y, hy, hxy⟩ := hall x hx
      exact ⟨y, hy, hz.trans hxy⟩
    · rintro ⟨y, hy, hz⟩
      exact ⟨y, hsub y hy, hz⟩

/-- The weights of the joins with the whole middle list and with its last link -/
theorem joinedWeight_stands {b : Link W V} {B : List (Link W V)} {last : Link W V}
    (hlast : (b :: B).getLast? = some last) :
    joinedWeight one b (B ++ C) = joinedWeight one last C ↔
      (∀ x ∈ b :: B, ∃ y ∈ kept (b :: B) C, x.weightOr one ≤ y.weightOr one) ∧
        (C = [] → 2 ≤ (b :: B).length → last.weight ≠ none) := by
  have hkept : kept (b :: B) C = last :: C := by
    rw [kept, hlast]
    rfl
  have hin : last ∈ b :: B := List.mem_of_getLast? hlast
  rw [hkept]
  cases B with
  | nil =>
      cases hlast
      refine iff_of_true rfl ⟨fun x hx => ⟨b, List.mem_cons_self, ?_⟩, fun _ h =>
        absurd h (by simp)⟩
      rw [List.mem_singleton.mp hx]
  | cons b' B =>
      have hmax : maxWeight one b (b' :: B ++ C) = maxWeight one last C ↔
          ∀ x ∈ b :: b' :: B, ∃ y ∈ last :: C, x.weightOr one ≤ y.weightOr one := by
        have hsub : ∀ y ∈ last :: C, y ∈ b :: (b' :: B ++ C) := by
          intro y hy
          rw [← List.cons_append, List.mem_append]
          rcases List.mem_cons.mp hy with rfl | hy
          · exact .inl hin
          · exact .inr hy
        rw [maxWeight_eq_iff hsub, ← List.cons_append]
        constructor
        · exact fun h x hx => h x (List.mem_append_left _ hx)
        · intro h x hx
          rcases List.mem_append.mp hx with hx | hx
          · exact h x hx
          · exact ⟨x, List.mem_cons_of_mem _ hx, le_rfl⟩
      unfold joinedWeight
      rw [if_neg (List.append_ne_nil_of_left_ne_nil (List.cons_ne_nil b' B) C), ← hmax]
      have htwo : 2 ≤ (b :: b' :: B).length := by
        rw [List.length_cons, List.length_cons]
        omega
      split
      · next hC =>
          subst hC
          cases hw : last.weight with
          | none => exact iff_of_false (Option.some_ne_none _) fun h => h.2 rfl htwo rfl
          | some w =>
              have hlastw : maxWeight one last [] = w := by
                rw [maxWeight, List.foldl_nil, Link.weightOr, hw]
                rfl
              rw [Option.some.injEq, hlastw]
              exact ⟨fun h => ⟨h, fun _ _ => Option.some_ne_none w⟩, And.left⟩
      · next hC =>
          rw [Option.some.injEq]
          exact ⟨fun h => ⟨h, fun h' => absurd h' hC⟩, And.left⟩

theorem join_stands_iff : join one (kept A (B ++ C)) = join one (kept A (kept B C)) ↔
    Stands one A B C := by
  cases B with
  | nil =>
      refine iff_of_true rfl ⟨fun x hx => absurd hx List.not_mem_nil, fun t ht => ?_,
        fun t ht => ?_,
        fun _ => rfl, fun _ _ h => absurd h (Nat.not_succ_le_zero 1)⟩
      · cases ht
      · cases ht
  | cons b B =>
      obtain ⟨last, hlast⟩ : ∃ last, (b :: B).getLast? = some last :=
        ⟨_, List.getLast?_eq_some_getLast (List.cons_ne_nil b B)⟩
      have hkept : kept (b :: B) C = last :: C := by
        rw [kept, hlast]
        rfl
      have htype := lastSet_stands (A := A) (B := b :: B) (C := C) Link.linkType
      have hdescription := lastSet_stands (A := A) (B := b :: B) (C := C) Link.description
      rcases List.eq_nil_or_concat' A with rfl | ⟨A', e, rfl⟩
      · have hlists : kept [] (b :: B ++ C) = b :: (B ++ C) ∧
          kept [] (kept (b :: B) C) = last :: C :=
          ⟨rfl, hkept⟩
        rw [hlists.1, hlists.2] at htype hdescription ⊢
        rw [join_eq_iff, joinedWeight_stands hlast, htype, hdescription]
        constructor
        · rintro ⟨hbare, ⟨hweight, hweighted⟩, ht, hd⟩
          refine ⟨hweight, ht, hd, fun _ => ?_, fun _ hC htwo e he => ?_⟩
          · rw [hlast]
            exact congrArg some hbare
          · rw [hlast] at he
            cases he
            exact hweighted hC htwo
        · intro h
          have hbare := h.bare rfl
          rw [hlast] at hbare
          exact ⟨Option.some.inj hbare,
            ⟨h.weight, fun hC htwo => h.weighted rfl hC htwo last hlast⟩,
            h.linkType, h.description⟩
      · have hcons : ∀ X : List (Link W V), kept (A' ++ [e]) X = e :: X := by
          intro X
          rw [kept, List.getLast?_concat]
          rfl
        have hweight : joinedWeight one e (b :: B ++ C) = joinedWeight one e (last :: C) ↔
            ∀ x ∈ b :: B, ∃ y ∈ e :: last :: C, x.weightOr one ≤ y.weightOr one := by
          have hsub : ∀ y ∈ e :: last :: C, y ∈ e :: (b :: B ++ C) := by
            intro y hy
            rcases List.mem_cons.mp hy with rfl | hy
            · exact List.mem_cons_self
            · refine List.mem_cons_of_mem _ (List.mem_append.mpr ?_)
              rcases List.mem_cons.mp hy with rfl | hy
              · exact .inl (List.mem_of_getLast? hlast)
              · exact .inr hy
          unfold joinedWeight
          rw [if_neg (List.append_ne_nil_of_left_ne_nil (List.cons_ne_nil b B) C),
            if_neg (List.cons_ne_nil last C), Option.some.injEq, maxWeight_eq_iff hsub]
          constructor
          · exact fun h x hx => h x (List.mem_cons_of_mem _ (List.mem_append_left _ hx))
          · intro h x hx
            rcases List.mem_cons.mp hx with rfl | hx
            · exact ⟨x, List.mem_cons_self, le_rfl⟩
            · rcases List.mem_append.mp hx with hx | hx
              · exact h x hx
              · exact ⟨x, List.mem_cons_of_mem _ (List.mem_cons_of_mem _ hx), le_rfl⟩
        have hne : A' ++ [e] ≠ [] := List.append_ne_nil_of_right_ne_nil _ (List.cons_ne_nil e [])
        rw [hcons, hcons] at htype hdescription ⊢
        rw [hkept] at htype hdescription ⊢
        rw [join_eq_iff, hweight, htype, hdescription]
        constructor
        · rintro ⟨-, hmax, ht, hd⟩
          refine ⟨?_, ?_, ?_, fun h => absurd h hne, fun h => absurd h hne⟩
          · rwa [hcons, hkept]
          · rwa [hkept]
          · rwa [hkept]
        · intro h
          obtain ⟨hmax, ht, hd, -, -⟩ := h
          rw [hcons, hkept] at hmax
          rw [hkept] at ht hd
          exact ⟨rfl, hmax, ht, hd⟩

theorem merge_assoc_iff (a b c : List (Link W V)) :
    (mergeLinks one (mergeLinks one a b) c).Perm (mergeLinks one a (mergeLinks one b c)) ↔
      ∀ k, Stands one (withKey a k) (withKey b k) (withKey c k) := by
  rw [perm_mergeLinks_iff]
  refine forall_congr' fun k => ?_
  rw [get_linkMap_merged, get_linkMap, withKey_mergeLinks, ← join_stands_iff]
  have hright : join one (kept (withKey a k) (join one (kept (withKey b k) (withKey c k))).toList) =
      join one (kept (withKey a k) (kept (withKey b k) (withKey c k))) := join_join _ _
  have hleft : kept (withKey a k) (withKey b k) ++ withKey c k =
      kept (withKey a k) (withKey b k ++ withKey c k) := List.append_assoc _ _ _
  rw [hright, hleft]

/-- When the three laws of a join hold -/
theorem merge_lawful_iff (a b c : List (Link W V)) :
    (IsMerge one a b (mergeLinks one a b) ↔
      Faithful (a ++ b) ∧ ∀ t, Speaks one (withTriple a t) (withTriple b t)) ∧
    (mergeLinks one (mergeLinks one a b) b = mergeLinks one a b ↔ Weighted a b) ∧
    ((mergeLinks one (mergeLinks one a b) c).Perm (mergeLinks one a (mergeLinks one b c)) ↔
      ∀ k, Stands one (withKey a k) (withKey b k) (withKey c k)) :=
  ⟨isMerge_iff a b, merge_again_iff a b, merge_assoc_iff a b c⟩

/-- A link from `x` to `y` -/
def linkOf (x y : String) (w : Nat) : Link Nat Unit :=
  ⟨some (some x.toList), some (some y.toList), none, some w, none, none, none, ()⟩

/-- The links from `x|y` to `z` and from `x` to `y|z` become one. -/
example : mergeLinks 1 [linkOf "x|y" "z" 5] [linkOf "x" "y|z" 5] = [linkOf "x|y" "z" 5] := by
  decide +kernel

/-- One link twice among the existing ones: the smaller weight is left. -/
theorem merge_forgets_weight :
    ¬ IsMerge 1 [linkOf "x" "y" 9, linkOf "x" "y" 2] []
      (mergeLinks 1 [linkOf "x" "y" 9, linkOf "x" "y" 2] []) := by
  intro h
  have hmerged : linkOf "x" "y" 2 ∈ mergeLinks 1 [linkOf "x" "y" 9, linkOf "x" "y" 2] [] := by
    decide +kernel
  have hle := h.weight_le _ hmerged (linkOf "x" "y" 9) (by decide +kernel)
  exact absurd hle (by decide)

end OpenViking.Links
