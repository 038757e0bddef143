/-
# `OpenViking.Index.PathRuns` — a path field over a whole history

`bitmap_holder/bitmap_field_group.{h,cpp}` and `dir_index.cpp`: a path field
under additions, deletions and a save with a load in between.  The bitmaps stand
in a map by key, and a trie knows the keys; a subtree query goes to the trie.  A
key is entered in the trie when an addition makes its bitmap.  A deletion makes
one too, for a key that has none, and does not enter it: the additions that come
later find the bitmap and do not enter the key either.

    `answers_of_covered`   with every key of a record in the trie, a query is
                           the union of the bitmaps at or below its path
    `answers_along`        so it is along every history in which no addition
                           names a key that only a deletion knows
-/
import OpenViking.Index.ScalarIndex
import OpenViking.Index.SetSemantics
import OpenViking.Lib.History

namespace OpenViking.Index

open OpenViking.Lib

/-! ## Saving and loading -/

mutual

/-- `serialize_recursive` and `parse_recursive`: the nodes without their bitmaps. -/
def Trie.skeleton : Trie → Trie
  | .mk isLeaf _ children => .mk isLeaf [] children.skeleton

def Forest.skeleton : Forest → Forest
  | .nil => .nil
  | .cons segment node rest => .cons segment node.skeleton rest.skeleton

end

theorem Forest.find_skeleton (segment : Str) : ∀ f : Forest,
    f.skeleton.find segment = (f.find segment).map Trie.skeleton
  | .nil => rfl
  | .cons s node rest => by
      rw [Forest.skeleton, Forest.find, Forest.find]
      split
      · rfl
      · exact Forest.find_skeleton segment rest

theorem Forest.names_skeleton : ∀ f : Forest, f.skeleton.names = f.names
  | .nil => rfl
  | .cons s node rest => by
      rw [Forest.skeleton, Forest.names, Forest.names, Forest.names_skeleton rest]

namespace Trie

theorem children_skeleton (t : Trie) : t.skeleton.children = t.children.skeleton := by
  obtain ⟨b, ks, f⟩ := t
  rw [skeleton]
  rfl

theorem leaf_skeleton (t : Trie) : t.skeleton.leaf = [] := by
  obtain ⟨b, ks, f⟩ := t
  rw [skeleton]
  rfl

theorem walk_skeleton (segs : List Str) (t : Trie) :
    t.skeleton.walk segs = (t.walk segs).map skeleton := by
  induction segs generalizing t with
  | nil => rfl
  | cons seg segs ih =>
      rw [walk, walk, children_skeleton, Forest.find_skeleton]
      cases t.children.find seg with
      | none => rfl
      | some c => exact ih c

/-- A node of the skeleton binds nothing. -/
theorem leaf_of_walk_skeleton {segs : List Str} {t e : Trie} (h : t.skeleton.walk segs = some e) :
    e.leaf = [] := by
  rw [walk_skeleton] at h
  obtain ⟨e', -, rfl⟩ := Option.map_eq_some_iff.mp h
  exact leaf_skeleton e'

theorem not_has_skeleton {t : Trie} {segs : List Str} {key : Str} : ¬ t.skeleton.Has segs key := by
  rintro ⟨e, hwalk, -, hkey⟩
  rw [leaf_of_walk_skeleton hwalk] at hkey
  cases hkey

end Trie

namespace DirIndex

/-- What is read back before the keys are bound again. -/
def skeleton (d : DirIndex) : DirIndex where
  root := d.root.skeleton
  distinct := by
    intro segs e he
    rw [Trie.walk_skeleton] at he
    obtain ⟨e', he', rfl⟩ := Option.map_eq_some_iff.mp he
    rw [Trie.children_skeleton, Forest.names_skeleton]
    exact d.distinct segs e' he'
  leafFlag := fun _ _ he _ => Trie.leaf_of_walk_skeleton he
  placed := fun _ _ h => absurd h Trie.not_has_skeleton

/-- `add_key` for every key of the map -/
def addKeys (d : DirIndex) (keys : List Str) : DirIndex := keys.foldl addKey d

theorem has_addKeys {keys : List Str} {d : DirIndex} {key : Str} :
    (d.addKeys keys).Has key ↔ d.Has key ∨ key ∈ keys := by
  induction keys generalizing d with
  | nil => simp [addKeys]
  | cons k keys ih =>
      have h := ih (d := d.addKey k)
      rw [has_addKey, or_assoc, ← List.mem_cons] at h
      exact h

end DirIndex

/-- `ParseFromString` of what `SerializeToString` wrote -/
def Bitmap.reload (b : Bitmap) : Bitmap :=
  if kSetThreshold < b.elems.card then .ofRoaring b.elems else .ofSet b.elems

namespace FieldBitmapGroup

variable {D : Type} [LinearOrder D]

/-- `serialize_to_stream` and `parse_from_stream` of a path field: the trie comes back without
its links, which are made again for the keys of all bitmaps. -/
def reload (g : FieldBitmapGroup D) : FieldBitmapGroup D :=
  { g with
    bitmaps := ⟨g.bitmaps.entries.map fun e => ⟨e.1, e.2.reload⟩, by
      have h := g.bitmaps.nodupKeys
      rw [List.NodupKeys, List.keys] at h ⊢
      rwa [List.map_map]⟩
    dir := g.dir.map fun d => d.skeleton.addKeys g.bitmaps.keys }

/-- A call on the field -/
inductive PathCall
  | add (fieldStr : Str) (offset : Nat)
  | delete (fieldStr : Str) (offset : Nat)
  | reload
  deriving DecidableEq

def perform (g : FieldBitmapGroup D) : PathCall → FieldBitmapGroup D
  | .add s offset => g.addStr s offset
  | .delete s offset => g.deleteStr s offset
  | .reload => g.reload

/-! ## What should hold -/

/-- A subtree query is the union of the bitmaps of the keys at or below its path. -/
def Answers (g : FieldBitmapGroup D) : Prop :=
  ∀ (G : FieldBitmapGroupSet D) field, G.findFieldGroup field = some g →
    ∀ p depth, FieldBitmapGroupSet.isRootPath p = false → -1 ≤ depth → ∀ o,
      o ∈ (G.makePathFieldCopy field [p] depth).elems ↔
        o ∈ g.keySet (DirIndex.AtOrBelow p depth)

/-- The trie knows the key. -/
def Knows (g : FieldBitmapGroup D) (key : Str) : Prop := ∃ d, g.dir = some d ∧ d.Has key

/-- An addition names no key that has a bitmap and is not in the trie. -/
def Careful (g : FieldBitmapGroup D) : PathCall → Prop
  | .add s _ => ∀ key ∈ keysOf s, g.normKey key ∈ g.bitmaps → g.Knows (g.normKey key)
  | .delete _ _ => True
  | .reload => True

/-- Every key with a record is in the trie. -/
structure Covered (g : FieldBitmapGroup D) : Prop where
  path : g.dir.isSome
  known : ∀ key b, g.bitmaps.lookup key = some b → b.elems ≠ ∅ → g.Knows key

theorem answers_of_covered {g : FieldBitmapGroup D} (h : g.Covered) : g.Answers := by
  intro G field hfind p depth hroot _ o
  have hpath : G.isPathFieldName field = true := by
    unfold FieldBitmapGroupSet.isPathFieldName
    rw [hfind]
    exact h.path
  have hnames : ¬ NamesRoot [p] depth := by
    rintro ⟨-, hany⟩
    rw [List.any_cons, List.any_nil, hroot] at hany
    cases hany
  rw [mem_makePathFieldCopy hpath, if_neg hnames]
  unfold reachedSet
  rw [FieldBitmapGroupSet.keySet_eq_of_find hfind]
  constructor
  · rintro ⟨key, b, ⟨-, path, hmem, hbelow⟩, hb, ho⟩
    rw [List.mem_singleton.mp hmem] at hbelow
    exact ⟨key, b, hbelow, hb, ho⟩
  · rintro ⟨key, b, hbelow, hb, ho⟩
    obtain ⟨d, hd, hhas⟩ := h.known key b hb (Finset.ne_empty_of_mem ho)
    exact ⟨key, b, ⟨⟨g, d, hfind, hd, hhas⟩, p, List.mem_singleton_self p, hbelow⟩, hb, ho⟩

/-! ## One key -/

variable {g : FieldBitmapGroup D}

theorem normKey_addKey (offset : Nat) (key key' : Str) :
    (g.addKey offset key).normKey key' = g.normKey key' := by
  have hdir : (g.addKey offset key).dir.isSome = g.dir.isSome := by
    unfold addKey
    dsimp only
    split
    · rw [Option.isSome_map]
    · rfl
  unfold normKey
  rw [hdir]

theorem knows_addKey {offset : Nat} {key key' : Str} (h : g.Knows key') :
    (g.addKey offset key).Knows key' := by
  obtain ⟨d, hd, hhas⟩ := h
  unfold addKey Knows
  dsimp only
  rw [hd]
  split
  · exact ⟨_, rfl, DirIndex.has_addKey.mpr (Or.inl hhas)⟩
  · exact ⟨d, rfl, hhas⟩

/-- A key that is careful to add is in the trie afterwards. -/
theorem knows_addKey_self (h : g.Covered) {key : Str}
    (hcareful : g.normKey key ∈ g.bitmaps → g.Knows (g.normKey key)) (offset : Nat) :
    (g.addKey offset key).Knows (g.normKey key) := by
  by_cases hin : g.normKey key ∈ g.bitmaps
  · exact knows_addKey (hcareful hin)
  · obtain ⟨d, hd⟩ := Option.isSome_iff_exists.mp h.path
    unfold addKey Knows
    dsimp only
    rw [AList.lookup_eq_none.mpr hin, hd]
    exact ⟨d.addKey (g.normKey key), rfl, DirIndex.has_addKey.mpr (Or.inr rfl)⟩

theorem Covered.addKey (h : g.Covered) {key : Str}
    (hcareful : g.normKey key ∈ g.bitmaps → g.Knows (g.normKey key)) (offset : Nat) :
    (g.addKey offset key).Covered := by
  refine ⟨?_, ?_⟩
  · obtain ⟨d, hd, -⟩ := knows_addKey_self h hcareful offset
    rw [hd]
    rfl
  · intro key' b hb hne
    by_cases hkey : key' = g.normKey key
    · rw [hkey]
      exact knows_addKey_self h hcareful offset
    · have hold : g.bitmaps.lookup key' = some b := by
        rw [← AList.lookup_insert_ne hkey]
        exact hb
      exact knows_addKey (h.known key' b hold hne)

/-- The other keys stay careful to add. -/
theorem careful_addKey (h : g.Covered) {key key' : Str}
    (hcareful : g.normKey key ∈ g.bitmaps → g.Knows (g.normKey key))
    (hcareful' : g.normKey key' ∈ g.bitmaps → g.Knows (g.normKey key')) (offset : Nat) :
    (g.addKey offset key).normKey key' ∈ (g.addKey offset key).bitmaps →
      (g.addKey offset key).Knows ((g.addKey offset key).normKey key') := by
  rw [normKey_addKey]
  intro hin
  by_cases hkey : g.normKey key' = g.normKey key
  · rw [hkey]
    exact knows_addKey_self h hcareful offset
  · rcases (AList.mem_insert _).mp hin with heq | hin
    · exact absurd heq hkey
    · exact knows_addKey (hcareful' hin)

theorem Covered.deleteKey (h : g.Covered) (offset : Nat) (key : Str) :
    (g.deleteKey offset key).Covered := by
  refine ⟨h.path, ?_⟩
  intro key' b hb hne
  change g.Knows key'
  by_cases hkey : key' = g.normKey key
  · -- what is left of the bitmap was there before
    have hb' : b = (g.editBitmap key').unset offset := by
      rw [hkey] at hb ⊢
      exact (Option.some.inj ((AList.lookup_insert _).symm.trans hb)).symm
    cases hold : g.bitmaps.lookup key' with
    | none =>
        refine absurd ?_ hne
        rw [hb', editBitmap, hold]
        simp
    | some b₀ =>
        refine h.known key' b₀ hold ?_
        rintro hempty
        refine hne ?_
        rw [hb', editBitmap, hold]
        simp [hempty]
  · have hold : g.bitmaps.lookup key' = some b := by
      rw [← AList.lookup_insert_ne hkey]
      exact hb
    exact h.known key' b hold hne

/-! ## One call -/

/-- The loop over the keys of an addition. -/
theorem Covered.addKeys {keys : List Str} (h : g.Covered)
    (hcareful : ∀ key ∈ keys, g.normKey key ∈ g.bitmaps → g.Knows (g.normKey key)) (offset : Nat) :
    (keys.foldl (fun g key => g.addKey offset key) g).Covered := by
  induction keys generalizing g with
  | nil => exact h
  | cons key keys ih =>
      have hkey := hcareful key List.mem_cons_self
      refine ih (h.addKey hkey offset) fun key' hmem => ?_
      exact careful_addKey h hkey (hcareful key' (List.mem_cons_of_mem _ hmem)) offset

theorem Covered.deleteKeys (h : g.Covered) (offset : Nat) (keys : List Str) :
    (keys.foldl (fun g key => g.deleteKey offset key) g).Covered := by
  induction keys generalizing g with
  | nil => exact h
  | cons key keys ih => exact ih (h.deleteKey offset key)

/-- After a load every key is in the trie. -/
theorem Covered.reload (h : g.Covered) : g.reload.Covered := by
  obtain ⟨d, hd⟩ := Option.isSome_iff_exists.mp h.path
  have hdir : g.reload.dir = some (d.skeleton.addKeys g.bitmaps.keys) := by
    unfold FieldBitmapGroup.reload
    rw [hd]
    rfl
  refine ⟨by rw [hdir]; rfl, ?_⟩
  intro key b hb _
  refine ⟨_, hdir, DirIndex.has_addKeys.mpr (Or.inr ?_)⟩
  have hin : (⟨key, b⟩ : Sigma fun _ : Str => Bitmap) ∈ g.reload.bitmaps.entries :=
    AList.mem_lookup_iff.mp hb
  obtain ⟨e, he, heq⟩ := List.mem_map.mp hin
  have hkey : e.1 = key := congrArg Sigma.fst heq
  rw [← hkey]
  exact List.mem_map.mpr ⟨e, he, rfl⟩

theorem Covered.perform (h : g.Covered) {c : PathCall} (hc : g.Careful c) :
    (g.perform c).Covered := by
  cases c with
  | add s offset => exact ⟨(h.addKeys hc offset).path, (h.addKeys hc offset).known⟩
  | delete s offset =>
      change (g.deleteStr s offset).Covered
      unfold deleteStr
      split
      · exact h
      · exact h.deleteKeys offset (keysOf s)
  | reload => exact h.reload

/-! ## Histories -/

theorem covered_new : (FieldType.path.newGroup : FieldBitmapGroup D).Covered where
  path := rfl
  known key b hb := by cases hb

/-- Along every history of a path field in which no addition names a key that only a deletion
knows, a subtree query is the union of the bitmaps at or below its path. -/
theorem answers_along {calls : List PathCall}
    (h : Guarded perform Careful (FieldType.path.newGroup : FieldBitmapGroup D) calls) :
    Along perform Answers (FieldType.path.newGroup : FieldBitmapGroup D) calls := by
  refine along_of_guarded (I := Covered) ?_ ?_ covered_new h
  · intro g c hg hc
    exact hg.perform hc
  · intro g hg
    exact answers_of_covered hg

/-- A key that is added, and saved and loaded after a deletion under another spelling. -/
theorem answers_sample :
    Along perform Answers (FieldType.path.newGroup : FieldBitmapGroup Int)
      [.add "/a".toList 1, .delete "/a/".toList 1, .reload, .add "/a/".toList 0] := by
  refine answers_along ⟨?_, trivial, trivial, ?_, trivial⟩
  · intro key _ hin
    cases hin
  · intro key hkey _
    have hkeys : keysOf "/a/".toList = ["/a/".toList] := by decide +kernel
    rw [hkeys] at hkey
    rw [List.mem_singleton.mp hkey]
    refine ⟨_, rfl, DirIndex.has_addKeys.mpr (Or.inr ?_)⟩
    decide +kernel

/-- `/b` is deleted before it is added. -/
def afterDeletion : FieldBitmapGroup Int :=
  ((FieldType.path.newGroup.perform (.add "/a".toList 5)).perform (.delete "/b".toList 0)).perform
    (.add "/b".toList 1)

/-- The record that is added is not found under its path. -/
theorem deleted_key_is_lost :
    ¬ Along perform Answers (FieldType.path.newGroup : FieldBitmapGroup Int)
      [.add "/a".toList 5, .delete "/b".toList 0, .add "/b".toList 1] := by
  rintro ⟨-, -, -, h⟩
  have hanswer := h ⟨(∅ : AList _).insert "f".toList afterDeletion, 6, none⟩ "f".toList
    (AList.lookup_insert _) "/b".toList 0 (by decide) (by decide) 1
  have hin : 1 ∈ afterDeletion.keySet (DirIndex.AtOrBelow "/b".toList 0) := by
    obtain ⟨b, hb⟩ : ∃ b, afterDeletion.getBitmap "/b".toList = some b := ⟨_, rfl⟩
    refine ⟨"/b".toList, b, ⟨[], (List.append_nil _).symm, Or.inr (Or.inl rfl)⟩, hb, ?_⟩
    have hmem : 1 ∈ BitmapPtr.elems (afterDeletion.getBitmap "/b".toList) := by decide +kernel
    rw [hb] at hmem
    exact hmem
  refine absurd (hanswer.mpr hin) ?_
  decide +kernel

end FieldBitmapGroup

end OpenViking.Index
