/-
# `OpenViking.Index.DirIndex` — the directory trie of a path field

`bitmap_holder/dir_index.cpp`.  A path field keeps, beside the bitmap of every
key, a trie over the components of the keys.  A node holds the keys that end
there: several spellings of one path (`/a/b`, `/a//b`) share a node.  The node
points at the bitmap of a key; here it holds the key itself.

    `has_addKey`            a key is found exactly where it was added
    `mem_mergedKeys`        a query collects the keys at or below its path,
                            down to its depth
-/
import OpenViking.Lib.Text
import Mathlib.Data.List.Nodup

namespace OpenViking.Index

open OpenViking.Lib

mutual

/-- `TrieNode`: `leaf` is `leaf_bitmap_` followed by the node's collisions. -/
inductive Trie : Type
  | mk (isLeaf : Bool) (leaf : List Str) (children : Forest)

/-- The children of a node, by component. -/
inductive Forest : Type
  | nil
  | cons (segment : Str) (node : Trie) (rest : Forest)

end

namespace Forest

def find (segment : Str) : Forest → Option Trie
  | nil => none
  | cons s node rest => if s = segment then some node else rest.find segment

/-- Replace the child of that name, or add one. -/
def put (segment : Str) (node : Trie) : Forest → Forest
  | nil => cons segment node nil
  | cons s old rest => if s = segment then cons s node rest else cons s old (rest.put segment node)

def names : Forest → List Str
  | nil => []
  | cons s _ rest => s :: rest.names

theorem find_put (segment : Str) (node : Trie) (s : Str) : ∀ f : Forest,
    (f.put segment node).find s = if s = segment then some node else f.find s
  | nil => by simp [put, find, eq_comm]
  | cons s' old rest => by
      by_cases hs : s' = segment
      · subst hs
        by_cases h : s = s'
        · simp [put, find, h]
        · simp [put, find, h, Ne.symm h]
      · by_cases h : s' = s
        · subst h; simp [put, find, hs]
        · simp [put, find, hs, h, find_put segment node s rest]

theorem mem_names_put (segment : Str) (node : Trie) (s : Str) : ∀ f : Forest,
    s ∈ (f.put segment node).names ↔ s = segment ∨ s ∈ f.names
  | nil => by simp [put, names]
  | cons s' old rest => by
      by_cases hs : s' = segment
      · subst hs; simp [put, names]
      · simp only [put, if_neg hs, names, List.mem_cons, mem_names_put segment node s rest]
        exact or_left_comm

theorem mem_names_of_find {segment : Str} {node : Trie} : ∀ {f : Forest},
    f.find segment = some node → segment ∈ f.names
  | nil, h => nomatch h
  | cons s _ rest, h => by
      simp only [find] at h
      split at h
      · next hs => exact List.mem_cons.mpr (.inl hs.symm)
      · exact List.mem_cons_of_mem _ (mem_names_of_find h)

theorem nodup_put {segment : Str} {node : Trie} : ∀ {f : Forest}, f.names.Nodup →
    (f.put segment node).names.Nodup
  | nil, _ => List.nodup_cons.mpr ⟨List.not_mem_nil, List.nodup_nil⟩
  | cons s _ rest, h => by
      obtain ⟨hs, hr⟩ := List.nodup_cons.mp h
      by_cases hseg : s = segment
      · subst hseg; simpa [put, names] using ⟨hs, hr⟩
      · simp only [put, if_neg hseg, names, List.nodup_cons, mem_names_put]
        exact ⟨fun hc => hc.elim hseg hs, nodup_put hr⟩

end Forest

namespace Trie

def empty : Trie := mk false [] .nil

def isLeaf : Trie → Bool
  | mk b _ _ => b

def leaf : Trie → List Str
  | mk _ ks _ => ks

def children : Trie → Forest
  | mk _ _ f => f

/-- `is_leaf_ = true` and `bind_leaf_bitmap`: no key is bound twice. -/
def bind (key : Str) : Trie → Trie
  | mk _ ks f => mk true (if key ∈ ks then ks else ks ++ [key]) f

/-- The walk of `add_key`. -/
def addAt (key : Str) : List Str → Trie → Trie
  | [], node => node.bind key
  | seg :: segs, mk b ks f => mk b ks (f.put seg (addAt key segs ((f.find seg).getD empty)))

/-- The walk of `find_node`. -/
def walk : List Str → Trie → Option Trie
  | [], node => some node
  | seg :: segs, node => (node.children.find seg).bind (walk segs)

/-- The key is bound at the end of that walk. -/
def Has (node : Trie) (segs : List Str) (key : Str) : Prop :=
  ∃ end_, node.walk segs = some end_ ∧ end_.isLeaf = true ∧ key ∈ end_.leaf

theorem has_nil {node : Trie} {key : Str} :
    node.Has [] key ↔ node.isLeaf = true ∧ key ∈ node.leaf := by
  simp [Has, walk]

theorem has_cons {node : Trie} {seg : Str} {segs : List Str} {key : Str} :
    node.Has (seg :: segs) key ↔ ∃ c, node.children.find seg = some c ∧ c.Has segs key := by
  simp only [Has, walk, Option.bind_eq_some_iff]
  constructor
  · rintro ⟨e, ⟨c, hc, he⟩, h⟩
    exact ⟨c, hc, e, he, h⟩
  · rintro ⟨c, hc, e, he, h⟩
    exact ⟨e, ⟨c, hc, he⟩, h⟩

theorem not_has_empty {segs : List Str} {key : Str} : ¬ empty.Has segs key := by
  cases segs with
  | nil => rw [has_nil]; rintro ⟨h, -⟩; cases h
  | cons seg segs => rw [has_cons]; rintro ⟨c, hc, -⟩; cases hc

/-- The keys bound below a leaf flag that is false are never collected; adding
keys never leaves such a node behind. -/
def LeafFlag (node : Trie) : Prop :=
  ∀ segs end_, node.walk segs = some end_ → end_.isLeaf = false → end_.leaf = []

theorem LeafFlag.child {node c : Trie} (h : node.LeafFlag) {seg : Str}
    (hc : node.children.find seg = some c) : c.LeafFlag := by
  intro segs e he
  exact h (seg :: segs) e (by simp [walk, hc, he])

theorem leafFlag_empty : empty.LeafFlag := by
  intro segs e he hl
  cases segs with
  | nil => cases he; rfl
  | cons seg segs => cases he

theorem leafFlag_getD {f : Forest} {b : Bool} {ks : List Str} (h : (mk b ks f).LeafFlag)
    (seg : Str) : ((f.find seg).getD empty).LeafFlag := by
  cases hf : f.find seg with
  | none => exact leafFlag_empty
  | some c => exact h.child (c := c) hf

/-- A key is bound where it was added; everything else is as before. -/
theorem has_addAt {key : Str} (segs : List Str) (node : Trie) (hflag : node.LeafFlag)
    (segs' : List Str) (key' : Str) :
    (addAt key segs node).Has segs' key' ↔
      node.Has segs' key' ∨ (segs' = segs ∧ key' = key) := by
  induction segs generalizing node segs' with
  | nil =>
      obtain ⟨b, ks, f⟩ := node
      cases segs' with
      | nil =>
          have hb : b = false → ks = [] := fun h => hflag [] _ rfl h
          simp only [addAt, bind, has_nil, isLeaf, leaf, true_and]
          by_cases hk : key ∈ ks
          · have : b = true := by
              cases b with
              | true => rfl
              | false => rw [hb rfl] at hk; cases hk
            simp only [if_pos hk, this, true_and]
            exact ⟨.inl, fun h => h.elim id fun h => h ▸ hk⟩
          · cases b with
            | true => simp [hk]
            | false => simp [hb rfl]
      | cons seg segs' => simp [addAt, bind, has_cons, children]
  | cons seg segs ih =>
      obtain ⟨b, ks, f⟩ := node
      cases segs' with
      | nil => simp [addAt, has_nil, isLeaf, leaf]
      | cons seg' segs' =>
          simp only [addAt, has_cons, children, Forest.find_put]
          by_cases hs : seg' = seg
          · subst hs
            simp only [if_true, Option.some.injEq, exists_eq_left', List.cons.injEq, true_and]
            rw [ih _ (leafFlag_getD hflag seg') segs']
            refine or_congr_left ?_
            cases hf : f.find seg' with
            | none => simp [not_has_empty]
            | some c => simp
          · simp [hs]

theorem leafFlag_addAt {key : Str} (segs : List Str) (node : Trie) (h : node.LeafFlag) :
    (addAt key segs node).LeafFlag := by
  induction segs generalizing node with
  | nil =>
      obtain ⟨b, ks, f⟩ := node
      intro segs' e he hl
      cases segs' with
      | nil => cases he; cases hl
      | cons seg segs' => exact h (seg :: segs') e he hl
  | cons seg segs ih =>
      obtain ⟨b, ks, f⟩ := node
      intro segs' e he hl
      cases segs' with
      | nil => cases he; exact h [] (mk b ks f) rfl hl
      | cons seg' segs' =>
          simp only [addAt, walk, children, Forest.find_put] at he
          by_cases hs : seg' = seg
          · rw [if_pos hs] at he
            exact ih _ (leafFlag_getD h seg) segs' e he hl
          · rw [if_neg hs] at he
            exact h (seg' :: segs') e he hl

/-! ## Collecting -/

/-- Children have different names, at every level. -/
def Distinct (node : Trie) : Prop :=
  ∀ segs end_, node.walk segs = some end_ → end_.children.names.Nodup

theorem Distinct.child {node c : Trie} (h : node.Distinct) {seg : Str}
    (hc : node.children.find seg = some c) : c.Distinct := by
  intro segs e he
  exact h (seg :: segs) e (by simp [walk, hc, he])

theorem distinct_empty : empty.Distinct := by
  intro segs e he
  cases segs with
  | nil => cases he; exact List.nodup_nil
  | cons seg segs => cases he

theorem distinct_getD {f : Forest} {b : Bool} {ks : List Str} (h : (mk b ks f).Distinct)
    (seg : Str) : ((f.find seg).getD empty).Distinct := by
  cases hf : f.find seg with
  | none => exact distinct_empty
  | some c => exact h.child (c := c) hf

theorem distinct_addAt {key : Str} (segs : List Str) (node : Trie) (h : node.Distinct) :
    (addAt key segs node).Distinct := by
  induction segs generalizing node with
  | nil =>
      obtain ⟨b, ks, f⟩ := node
      intro segs' e he
      cases segs' with
      | nil => cases he; exact h [] (mk b ks f) rfl
      | cons seg segs' => exact h (seg :: segs') e he
  | cons seg segs ih =>
      obtain ⟨b, ks, f⟩ := node
      intro segs' e he
      cases segs' with
      | nil => cases he; exact Forest.nodup_put (h [] (mk b ks f) rfl)
      | cons seg' segs' =>
          simp only [addAt, walk, children, Forest.find_put] at he
          by_cases hs : seg' = seg
          · rw [if_pos hs] at he
            exact ih _ (distinct_getD h seg) segs' e he
          · rw [if_neg hs] at he
            exact h (seg' :: segs') e he

end Trie

mutual

/-- `collect_bitmaps_recursive` -/
def Trie.collect (maxDepth : Int) : Trie → Nat → List Str
  | .mk isLeaf leaf children, depth =>
      (if isLeaf then leaf else []) ++
        if maxDepth ≠ -1 ∧ maxDepth ≤ depth then [] else children.collect maxDepth (depth + 1)

def Forest.collect (maxDepth : Int) : Forest → Nat → List Str
  | .nil, _ => []
  | .cons _ node rest, depth => node.collect maxDepth depth ++ rest.collect maxDepth depth

end

/-- The walk is short enough; `-1` is no limit. -/
def WithinDepth (maxDepth : Int) (depth : Nat) (segs : List Str) : Prop :=
  maxDepth = -1 ∨ segs = [] ∨ (depth + segs.length : Int) ≤ maxDepth

theorem withinDepth_cons {maxDepth : Int} {depth : Nat} {seg : Str} {segs : List Str} :
    WithinDepth maxDepth depth (seg :: segs) ↔
      ¬ (maxDepth ≠ -1 ∧ maxDepth ≤ depth) ∧ WithinDepth maxDepth (depth + 1) segs := by
  simp only [WithinDepth, List.length_cons, reduceCtorEq, false_or]
  constructor
  · rintro (h | h)
    · exact ⟨fun hc => hc.1 h, .inl h⟩
    · exact ⟨fun hc => by push_cast at h; omega, .inr (.inr (by push_cast at h ⊢; omega))⟩
  · rintro ⟨h, h' | rfl | h'⟩
    · exact .inl h'
    · by_cases h₁ : maxDepth = -1
      · exact .inl h₁
      · refine .inr ?_
        have : ¬ maxDepth ≤ depth := fun hle => h ⟨h₁, hle⟩
        push_cast
        simp only [List.length_nil]
        omega
    · exact .inr (by push_cast at h' ⊢; omega)

mutual

/-- A key is collected iff it is bound at the end of some short enough walk. -/
theorem Trie.mem_collect (maxDepth : Int) (key : Str) : ∀ (node : Trie) (depth : Nat),
    node.Distinct → (key ∈ node.collect maxDepth depth ↔
      ∃ segs, node.Has segs key ∧ WithinDepth maxDepth depth segs)
  | .mk b ks f, depth, hd => by
      have hf := Forest.mem_collect maxDepth key f (depth + 1) (hd [] (.mk b ks f) rfl)
        (fun seg c hc => hd.child (c := c) hc)
      rw [Trie.collect, List.mem_append]
      constructor
      · rintro (h | h)
        · cases b with
          | true => exact ⟨[], Trie.has_nil.mpr ⟨rfl, h⟩, .inr (.inl rfl)⟩
          | false => cases h
        · split at h
          · cases h
          · next hlim =>
              obtain ⟨seg, c, segs, hc, hhas, hw⟩ := hf.mp h
              exact ⟨seg :: segs, Trie.has_cons.mpr ⟨c, hc, hhas⟩, withinDepth_cons.mpr ⟨hlim, hw⟩⟩
      · rintro ⟨segs, hhas, hw⟩
        cases segs with
        | nil =>
            obtain ⟨hb, hk⟩ := Trie.has_nil.mp hhas
            exact .inl (by rw [show b = true from hb]; exact hk)
        | cons seg segs =>
            obtain ⟨c, hc, hhas⟩ := Trie.has_cons.mp hhas
            obtain ⟨hlim, hw⟩ := withinDepth_cons.mp hw
            rw [if_neg hlim]
            exact .inr (hf.mpr ⟨seg, c, segs, hc, hhas, hw⟩)

theorem Forest.mem_collect (maxDepth : Int) (key : Str) : ∀ (f : Forest) (depth : Nat),
    f.names.Nodup → (∀ seg c, f.find seg = some c → c.Distinct) →
      (key ∈ f.collect maxDepth depth ↔ ∃ seg c segs, f.find seg = some c ∧ c.Has segs key ∧
        WithinDepth maxDepth depth segs)
  | .nil, depth, _, _ => by simp [Forest.collect, Forest.find]
  | .cons s node rest, depth, hnd, hdist => by
      obtain ⟨hs, hnd⟩ := List.nodup_cons.mp hnd
      have hne : ∀ seg c, rest.find seg = some c → s ≠ seg := fun seg c hc he =>
        hs (he ▸ Forest.mem_names_of_find hc)
      have hfind : ∀ seg c, (Forest.cons s node rest).find seg = some c ↔
          (seg = s ∧ c = node) ∨ rest.find seg = some c := by
        intro seg c
        by_cases h : s = seg
        · subst h
          have : ∀ c, rest.find s ≠ some c := fun c hc => hne s c hc rfl
          simp [Forest.find, this, eq_comm]
        · simp [Forest.find, h, Ne.symm h]
      rw [Forest.collect, List.mem_append,
        Trie.mem_collect maxDepth key node depth
          (hdist s node ((hfind s node).mpr (.inl ⟨rfl, rfl⟩))),
        Forest.mem_collect maxDepth key rest depth hnd
          (fun seg c hc => hdist seg c ((hfind seg c).mpr (.inr hc)))]
      constructor
      · rintro (⟨segs, hhas, hw⟩ | ⟨seg, c, segs, hc, h⟩)
        · exact ⟨s, node, segs, (hfind _ _).mpr (.inl ⟨rfl, rfl⟩), hhas, hw⟩
        · exact ⟨seg, c, segs, (hfind _ _).mpr (.inr hc), h⟩
      · rintro ⟨seg, c, segs, hc, h⟩
        rcases (hfind seg c).mp hc with ⟨rfl, rfl⟩ | hc
        · exact .inl ⟨segs, h⟩
        · exact .inr ⟨seg, c, segs, hc, h⟩

end

/-! ## The index -/

/-- `split_path`: empty components do not count. -/
def splitPath (path : Str) : List Str := (path.splitOn '/').filter (· ≠ [])

/-- `DirIndex`: every key stands at the end of its own path. -/
structure DirIndex where
  root : Trie
  distinct : root.Distinct
  leafFlag : root.LeafFlag
  placed : ∀ segs key, root.Has segs key → segs = splitPath key

namespace DirIndex

def empty : DirIndex :=
  ⟨.empty, Trie.distinct_empty, Trie.leafFlag_empty, fun _ _ h => absurd h Trie.not_has_empty⟩

def addKey (d : DirIndex) (key : Str) : DirIndex where
  root := d.root.addAt key (splitPath key)
  distinct := Trie.distinct_addAt _ _ d.distinct
  leafFlag := Trie.leafFlag_addAt _ _ d.leafFlag
  placed := by
    intro segs key' hk
    rcases (Trie.has_addAt _ _ d.leafFlag _ _).mp hk with hk | ⟨rfl, rfl⟩
    · exact d.placed segs key' hk
    · rfl

/-- `get_merged_bitmaps`, as the keys of the bitmaps. -/
def mergedKeys (d : DirIndex) (pathPrefix : Str) (depth : Int) : List Str :=
  match d.root.walk (splitPath pathPrefix) with
  | none => []
  | some start => start.collect depth 0

/-- The key has been added. -/
def Has (d : DirIndex) (key : Str) : Prop := d.root.Has (splitPath key) key

theorem has_addKey {d : DirIndex} {key key' : Str} :
    (d.addKey key).Has key' ↔ d.Has key' ∨ key' = key := by
  refine (Trie.has_addAt _ _ d.leafFlag _ _).trans (or_congr_right ?_)
  exact ⟨And.right, fun h => ⟨by rw [h], h⟩⟩

/-- `key` lies at `path` or below it, within the depth. -/
def AtOrBelow (path : Str) (depth : Int) (key : Str) : Prop :=
  ∃ rest, splitPath key = splitPath path ++ rest ∧ WithinDepth depth 0 rest

theorem walk_append (node : Trie) (a b : List Str) :
    node.walk (a ++ b) = (node.walk a).bind (Trie.walk b) := by
  induction a generalizing node with
  | nil => rfl
  | cons seg a ih =>
      simp only [List.cons_append, Trie.walk, Option.bind_assoc]
      cases node.children.find seg with
      | none => rfl
      | some c => exact ih c

theorem mem_mergedKeys {d : DirIndex} {path : Str} {depth : Int} {key : Str} :
    key ∈ d.mergedKeys path depth ↔ d.Has key ∧ AtOrBelow path depth key := by
  unfold mergedKeys
  cases hw : d.root.walk (splitPath path) with
  | none =>
      refine ⟨fun h => (nomatch h), ?_⟩
      rintro ⟨⟨e, he, -⟩, rest, hrest, -⟩
      rw [hrest, walk_append, hw] at he
      cases he
  | some start =>
      have hdist : start.Distinct := by
        intro segs e he
        exact d.distinct (splitPath path ++ segs) e (by rw [walk_append, hw]; exact he)
      have hhas : ∀ rest, start.Has rest key ↔ d.root.Has (splitPath path ++ rest) key := by
        intro rest
        simp [Trie.Has, walk_append, hw]
      simp only [Trie.mem_collect depth key start 0 hdist, hhas]
      constructor
      · rintro ⟨rest, h, hd⟩
        have hk := d.placed _ _ h
        exact ⟨by unfold Has; rw [← hk]; exact h, rest, hk.symm, hd⟩
      · rintro ⟨h, rest, hk, hd⟩
        exact ⟨rest, by unfold Has at h; rw [← hk]; exact h, hd⟩

end DirIndex

end OpenViking.Index
