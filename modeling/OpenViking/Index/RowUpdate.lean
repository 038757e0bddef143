/-
# `OpenViking.Index.RowUpdate` — what writing a record does to a field

A record is filed in a field under the keys its flattened value is split into;
a path field gives the keys a leading slash and enters them in its trie.  If the
value is a number, it stands in the ranged map of the field.  `add_row_data`
clears the slot of the record under the keys of the old record and enters it
under those of the new one; `delete_row_data` clears it.

`HasField` says what a field has, and both functions come with what they leave.
-/
import OpenViking.Index.PathRuns
import OpenViking.Index.RangedRuns
import OpenViking.Lib.Inverted

namespace OpenViking.Index

open OpenViking.Lib

section

variable {D : Type}

/-! ## Records -/

def Member.name : Member D → Str
  | .mk n _ => n

/-- A record: a JSON object with different names, none of them with a NUL. -/
structure Record (D : Type) where
  members : List (Member D)
  distinct : (members.map Member.name).Nodup
  clean : ∀ m ∈ members, '\x00' ∉ m.name

/-- The value of a field -/
def Record.field (r : Record D) (f : Str) : Option (Json D) := findMember f r.members

/-- The text a field is flattened to -/
def Record.text (r : Record D) (f : Str) : Option Str := (r.field f).bind valueText

theorem cString_eq_self {s : Str} (h : '\x00' ∉ s) : cString s = s := by
  unfold cString
  rw [List.takeWhile_eq_self_iff]
  intro c hc
  exact decide_eq_true fun e => h (e ▸ hc)

theorem findMember_eq_none {f : Str} {doc : List (Member D)} (h : f ∉ doc.map Member.name) :
    findMember f doc = none := by
  induction doc with
  | nil => rfl
  | cons m doc ih =>
      obtain ⟨n, v⟩ := m
      rw [List.map_cons, List.mem_cons, not_or] at h
      have hne : n ≠ f := Ne.symm h.1
      rw [findMember, if_neg hne, ih h.2]

variable [LinearOrder D] [DoubleArith D]

/-- The number of a field -/
def Record.number (r : Record D) (f : Str) : Option D := (r.field f).bind valueDouble

/-- Either map after the members of a document -/
theorem lookup_foldl {A : Type} {map : FieldsDict D → AList (fun _ : Str => A)}
    {val : Json D → Option A}
    (hmap : ∀ d n v, map (d.addMember (.mk n v)) =
      (val v).elim (map d) ((map d).insert (cString n)))
    {f : Str} {doc : List (Member D)} (hdistinct : (doc.map Member.name).Nodup)
    (hclean : ∀ m ∈ doc, '\x00' ∉ m.name) (d : FieldsDict D) :
    (map (doc.foldl FieldsDict.addMember d)).lookup f =
      ((findMember f doc).bind val).or ((map d).lookup f) := by
  induction doc generalizing d with
  | nil => simp [findMember]
  | cons m doc ih =>
      obtain ⟨n, v⟩ := m
      obtain ⟨hn, hdoc⟩ := List.nodup_cons.mp hdistinct
      have hname : cString n = n := cString_eq_self (hclean _ List.mem_cons_self)
      rw [List.foldl_cons, ih hdoc fun m hm => hclean m (List.mem_cons_of_mem _ hm), findMember,
        hmap, hname]
      by_cases hf : n = f
      · subst hf
        have hnone : findMember n doc = none := findMember_eq_none hn
        rw [if_pos rfl, hnone]
        cases hv : val v <;> simp [hv]
      · rw [if_neg hf]
        congr 1
        cases val v with
        | none => rfl
        | some a => exact AList.lookup_insert_ne (Ne.symm hf)

/-- Flattening a record flattens its fields. -/
theorem lookup_strs_parse (r : Record D) (f : Str) :
    (FieldsDict.parseFromJson r.members).strs.lookup f = r.text f := by
  rw [FieldsDict.parseFromJson, lookup_foldl (fun d n v => ?_) r.distinct r.clean]
  · exact Option.or_none
  · cases hv : valueText v <;> simp [FieldsDict.addMember, hv]

theorem lookup_dbls_parse (r : Record D) (f : Str) :
    (FieldsDict.parseFromJson r.members).dbls.lookup f = r.number f := by
  rw [FieldsDict.parseFromJson, lookup_foldl (fun d n v => ?_) r.distinct r.clean]
  · exact Option.or_none
  · cases hv : valueDouble v <;> simp [FieldsDict.addMember, hv]

end

/-! ## One field -/

/-- A key as a field has it -/
def pathKey (path : Bool) (key : Str) : Str :=
  if path && key ≠ [] && key.head? ≠ some '/' then '/' :: key else key

/-- The keys of a text in a field -/
def fieldKeys (path : Bool) (s : Str) : List Str := (keysOf s).map (pathKey path)

theorem fieldKeys_false : fieldKeys false = keysOf := by
  funext s
  exact List.map_id'' (fun _ => rfl) _

section

variable {D : Type} [LinearOrder D]

namespace FieldBitmapGroup

variable {g : FieldBitmapGroup D} {offset : Nat}

/-- The records filed under a key -/
def bits (g : FieldBitmapGroup D) (key : Str) : Finset Nat := (g.getBitmap key).elems

theorem elems_editBitmap (key : Str) : (g.editBitmap key).elems = g.bits key := by
  unfold editBitmap bits getBitmap
  cases g.bitmaps.lookup key <;> rfl

theorem bits_insert {key' : Str} {b : Bitmap} {g' : FieldBitmapGroup D}
    (h : g'.bitmaps = g.bitmaps.insert key' b) (key : Str) :
    g'.bits key = if key = key' then b.elems else g.bits key := by
  unfold bits getBitmap
  rw [h]
  split
  · next he => rw [he, AList.lookup_insert]; rfl
  · next he => rw [AList.lookup_insert_ne he]

theorem bits_addKey (g : FieldBitmapGroup D) (o : Nat) (key key' : Str) :
    (g.addKey o key).bits key' =
      if key' = g.normKey key then insert o (g.bits key') else g.bits key' := by
  have hmap : (g.addKey o key).bitmaps =
      g.bitmaps.insert (g.normKey key) ((g.editBitmap (g.normKey key)).setBit o) := rfl
  rw [bits_insert hmap, Bitmap.elems_setBit, elems_editBitmap]
  split
  · next he => rw [he]
  · rfl

theorem bits_deleteKey (g : FieldBitmapGroup D) (o : Nat) (key key' : Str) :
    (g.deleteKey o key).bits key' =
      if key' = g.normKey key then (g.bits key').erase o else g.bits key' := by
  have hmap : (g.deleteKey o key).bitmaps =
      g.bitmaps.insert (g.normKey key) ((g.editBitmap (g.normKey key)).unset o) := rfl
  rw [bits_insert hmap, Bitmap.elems_unset, elems_editBitmap]
  split
  · next he => rw [he]
  · rfl

/-- A key that holds a record has a bitmap. -/
theorem mem_bitmaps_of_mem_bits {key : Str} {o : Nat} (h : o ∈ g.bits key) : key ∈ g.bitmaps := by
  by_contra hno
  rw [bits, getBitmap, AList.lookup_eq_none.mpr hno] at h
  exact absurd h (Finset.notMem_empty o)

/-- What a field has: its bitmaps, its numbers, and, if it is a path field, all of
its keys in the trie.  Offsets below `size` are within its range. -/
structure Shows (g : FieldBitmapGroup D) (path : Bool) (size : Nat) (bits : Str → Finset Nat)
    (nums : Nat → Option D) : Prop where
  dir : g.dir.isSome = path
  size : size ≤ g.elementSize
  bits : g.bits = bits
  nums : (g.ranged.getD RangedMap.empty).Agrees nums
  known : path = true → ∀ key ∈ g.bitmaps, g.Knows key

variable {path : Bool} {size : Nat} {bits : Str → Finset Nat} {nums : Nat → Option D}

theorem Shows.addKey (h : g.Shows path size bits nums) (key : Str) (offset : Nat) :
    (g.addKey offset key).Shows path size (enter bits [pathKey path key] offset) nums := by
  have hnorm : g.normKey key = pathKey path key := by
    rw [← h.dir]
    rfl
  have hdir : (g.addKey offset key).dir.isSome = path := by
    rw [← h.dir, FieldBitmapGroup.addKey]
    dsimp only
    split
    · rw [Option.isSome_map]
    · rfl
  refine ⟨hdir, h.size, funext fun key' => ?_, h.nums, fun hpath key' hin => ?_⟩
  · rw [bits_addKey, hnorm, h.bits, enter]
    simp only [List.mem_singleton]
  · by_cases hnew : key' ∈ g.bitmaps
    · exact knows_addKey (h.known hpath key' hnew)
    · -- the key is new, and is entered in the trie
      have hkey : key' = g.normKey key := ((AList.mem_insert _).mp hin).resolve_right hnew
      obtain ⟨d, hd⟩ := Option.isSome_iff_exists.mp (h.dir.trans hpath)
      refine ⟨d.addKey key', ?_, DirIndex.has_addKey.mpr (.inr rfl)⟩
      rw [hkey] at hnew ⊢
      unfold FieldBitmapGroup.addKey
      dsimp only
      rw [AList.lookup_eq_none.mpr hnew, hd]
      rfl

theorem Shows.deleteKey (h : g.Shows path size bits nums) {key : Str}
    (hin : pathKey path key ∈ g.bitmaps) (offset : Nat) :
    (g.deleteKey offset key).Shows path size (clear bits [pathKey path key] offset) nums := by
  have hnorm : g.normKey key = pathKey path key := by
    rw [← h.dir]
    rfl
  refine ⟨h.dir, h.size, funext fun key' => ?_, h.nums, fun hpath key' hin' => ?_⟩
  · rw [bits_deleteKey, hnorm, h.bits, clear]
    simp only [List.mem_singleton]
  · refine h.known hpath key' ?_
    rcases (AList.mem_insert _).mp hin' with heq | hold
    · rw [heq, hnorm]
      exact hin
    · exact hold

theorem Shows.addStr (h : g.Shows path size bits nums) (s : Str) (offset : Nat) :
    (g.addStr s offset).Shows path (max size (offset + 1))
      (enter bits (fieldKeys path s) offset) nums := by
  have hloop : ∀ (keys : List Str) (g : FieldBitmapGroup D) (bits : Str → Finset Nat),
      g.Shows path size bits nums → (keys.foldl (fun g key => g.addKey offset key) g).Shows
        path size (enter bits (keys.map (pathKey path)) offset) nums := by
    intro keys
    induction keys with
    | nil =>
        intro g bits hg
        rw [List.map_nil, enter_nil]
        exact hg
    | cons key keys ih =>
        intro g bits hg
        rw [List.map_cons, ← enter_cons]
        exact ih _ _ (hg.addKey key offset)
  obtain ⟨hdir, hsize, hbits, hnums, hknown⟩ := hloop (keysOf s) g bits h
  refine ⟨hdir, ?_, hbits, hnums, hknown⟩
  exact (max_comm _ _).le.trans (max_le_max_left _ hsize)

theorem Shows.deleteStr (h : g.Shows path size bits nums) {s : Str} (hoff : offset < size)
    (hin : ∀ key ∈ fieldKeys path s, offset ∈ bits key) :
    (g.deleteStr s offset).Shows path size (clear bits (fieldKeys path s) offset) nums := by
  have hloop : ∀ (keys : List Str) (g : FieldBitmapGroup D) (bits : Str → Finset Nat),
      g.Shows path size bits nums → (∀ key ∈ keys, pathKey path key ∈ g.bitmaps) →
      (keys.foldl (fun g key => g.deleteKey offset key) g).Shows
        path size (clear bits (keys.map (pathKey path)) offset) nums := by
    intro keys
    induction keys with
    | nil =>
        intro g bits hg _
        rw [List.map_nil, clear_nil]
        exact hg
    | cons key keys ih =>
        intro g bits hg hin
        rw [List.map_cons, ← clear_cons]
        refine ih _ _ (hg.deleteKey (hin key List.mem_cons_self) offset) fun key' hkey' => ?_
        exact (AList.mem_insert _).mpr (.inr (hin key' (List.mem_cons_of_mem _ hkey')))
  rw [FieldBitmapGroup.deleteStr, if_neg (Nat.not_le.mpr (hoff.trans_le h.size))]
  refine hloop (keysOf s) g bits h fun key hkey => ?_
  refine mem_bitmaps_of_mem_bits (o := offset) ?_
  rw [h.bits]
  exact hin _ (List.mem_map_of_mem hkey)

theorem Shows.addDouble (h : g.Shows path size bits nums) (x : D) (hfree : nums offset = none) :
    (g.addDouble x offset).Shows path (max size (offset + 1)) bits
      (Function.update nums offset (some x)) := by
  have hnums := h.nums.add offset x
  rw [RangedMap.added, hfree, if_neg (by exact Bool.false_ne_true)] at hnums
  have hok : ((g.ranged.getD RangedMap.empty).addOffsetAndScore offset x).1 = true := by
    unfold RangedMap.addOffsetAndScore
    rw [h.nums.value, hfree, if_neg (by exact Bool.false_ne_true)]
    split <;> rfl
  have heq : g.addDouble x offset =
      { g with
        ranged := some ((g.ranged.getD RangedMap.empty).addOffsetAndScore offset x).2
        elementSize := max (offset + 1) g.elementSize } := by
    unfold FieldBitmapGroup.addDouble
    dsimp only
    rw [if_pos hok]
  rw [heq]
  exact ⟨h.dir, (max_comm _ _).le.trans (max_le_max_left _ h.size), h.bits, hnums, h.known⟩

theorem Shows.deleteDouble (h : g.Shows path size bits nums) (hoff : offset < size) :
    (g.deleteDouble offset).Shows path size bits (Function.update nums offset none) := by
  rw [FieldBitmapGroup.deleteDouble, if_neg (Nat.not_le.mpr (hoff.trans_le h.size))]
  exact ⟨h.dir, h.size, h.bits, h.nums.delete offset, h.known⟩

end FieldBitmapGroup

/-! ## The fields of a record -/

namespace FieldBitmapGroupSet

open FieldBitmapGroup

variable {G : FieldBitmapGroupSet D} {f : Str} {o : Nat}

theorem findFieldGroup_modifyGroup (field : Str) (F : FieldBitmapGroup D → FieldBitmapGroup D) :
    (G.modifyGroup field F).findFieldGroup f =
      if f = field then (G.findFieldGroup f).map F else G.findFieldGroup f := by
  unfold modifyGroup
  split
  · next hnone => split <;> simp_all
  · next g hsome =>
      unfold findFieldGroup at hsome ⊢
      split
      · next he => rw [he, AList.lookup_insert, hsome]; rfl
      · next he => exact AList.lookup_insert_ne he

theorem elementSize_modifyGroup (field : Str) (F : FieldBitmapGroup D → FieldBitmapGroup D) :
    (G.modifyGroup field F).elementSize = G.elementSize := by
  unfold modifyGroup
  split <;> rfl

/-- A loop over the fields of a map changes the group of each by its own value. -/
theorem findFieldGroup_foldl {A : Type} (F : A → FieldBitmapGroup D → FieldBitmapGroup D)
    (entries : List (Sigma fun _ : Str => A)) (hnodup : entries.NodupKeys)
    (G : FieldBitmapGroupSet D) :
    (entries.foldl (fun G e => G.modifyGroup e.1 (F e.2)) G).findFieldGroup f =
      (G.findFieldGroup f).map ((entries.dlookup f).elim id F) := by
  induction entries generalizing G with
  | nil => simp
  | cons e entries ih =>
      obtain ⟨field, a⟩ := e
      obtain ⟨hnew, hnodup⟩ := List.nodupKeys_cons.mp hnodup
      rw [List.foldl_cons, ih hnodup, findFieldGroup_modifyGroup]
      by_cases he : f = field
      · subst he
        rw [if_pos rfl, List.dlookup_eq_none.mpr hnew, List.dlookup_cons_eq]
        simp
      · rw [if_neg he, List.dlookup_cons_ne _ _ he]

theorem elementSize_foldl {A : Type} (F : A → FieldBitmapGroup D → FieldBitmapGroup D)
    (entries : List (Sigma fun _ : Str => A)) (G : FieldBitmapGroupSet D) :
    (entries.foldl (fun G e => G.modifyGroup e.1 (F e.2)) G).elementSize = G.elementSize := by
  induction entries generalizing G with
  | nil => rfl
  | cons e entries ih => rw [List.foldl_cons, ih, elementSize_modifyGroup]

theorem findFieldGroup_grow {offset : Nat} :
    (G.grow offset).findFieldGroup f = G.findFieldGroup f := rfl

theorem elementSize_grow {offset : Nat} :
    (G.grow offset).elementSize = max G.elementSize (offset + 1) := rfl

theorem lookup_of_isEmpty {A : Type} {kv : AList (fun _ : Str => A)} (h : kv.entries.isEmpty = true)
    (f : Str) : kv.lookup f = none := by
  rw [AList.lookup, List.isEmpty_iff.mp h]
  rfl

/-- A field after `delete_row_data` -/
theorem find_deleteRowData (h : o < G.elementSize) (old : FieldsDict D) (f : Str) :
    (G.deleteRowData o old).findFieldGroup f = (G.findFieldGroup f).map fun g =>
      if (old.dbls.lookup f).isSome then
        ((old.strs.lookup f).elim g fun s => g.deleteStr s o).deleteDouble o
      else (old.strs.lookup f).elim g fun s => g.deleteStr s o := by
  have hstrs : (if old.strs.entries.isEmpty then G else G.deleteStrs old.strs o).findFieldGroup f =
      (G.findFieldGroup f).map fun g => (old.strs.lookup f).elim g fun s => g.deleteStr s o := by
    split
    · next hempty =>
        rw [lookup_of_isEmpty hempty f]
        exact Option.map_id'.symm
    · rw [deleteStrs, if_neg (Nat.not_le.mpr h),
        findFieldGroup_foldl (fun s g => g.deleteStr s o) _ old.strs.nodupKeys]
      refine congrArg (fun F => (G.findFieldGroup f).map F) (funext fun g => ?_)
      show (old.strs.lookup f).elim id (fun s g => g.deleteStr s o) g = _
      cases old.strs.lookup f <;> rfl
  have hsize : (if old.strs.entries.isEmpty then G else G.deleteStrs old.strs o).elementSize =
      G.elementSize := by
    split
    · rfl
    · rw [deleteStrs, if_neg (Nat.not_le.mpr h), elementSize_foldl (fun s g => g.deleteStr s o)]
  unfold deleteRowData
  dsimp only
  split
  · next hempty =>
      rw [hstrs, lookup_of_isEmpty hempty f]
      rfl
  · rw [deleteDoubles, hsize, if_neg (Nat.not_le.mpr h),
      findFieldGroup_foldl (fun _ g => g.deleteDouble o) _ old.dbls.nodupKeys, hstrs,
      Option.map_map]
    refine congrArg (fun F => (G.findFieldGroup f).map F) (funext fun g => ?_)
    show (old.dbls.lookup f).elim id (fun _ (g : FieldBitmapGroup D) => g.deleteDouble o)
      ((old.strs.lookup f).elim g fun s => g.deleteStr s o) = _
    cases old.dbls.lookup f <;> rfl

theorem elementSize_deleteRowData (o : Nat) (old : FieldsDict D) :
    (G.deleteRowData o old).elementSize = G.elementSize := by
  have hstrs : ∀ G : FieldBitmapGroupSet D,
      (G.deleteStrs old.strs o).elementSize = G.elementSize := by
    intro G
    unfold deleteStrs
    split
    · rfl
    · exact elementSize_foldl (fun s g => g.deleteStr s o) _ G
  have hdbls : ∀ G : FieldBitmapGroupSet D,
      (G.deleteDoubles old.dbls o).elementSize = G.elementSize := by
    intro G
    unfold deleteDoubles
    split
    · rfl
    · exact elementSize_foldl (fun _ g => g.deleteDouble o) _ G
  unfold deleteRowData
  dsimp only
  split
  · split
    · rfl
    · exact hstrs G
  · rw [hdbls]
    split
    · rfl
    · exact hstrs G

/-- Nothing is deleted beyond the size of the index. -/
theorem deleteRowData_of_le (h : G.elementSize ≤ o) (old : FieldsDict D) :
    G.deleteRowData o old = G := by
  have hstrs : G.deleteStrs old.strs o = G := if_pos h
  have hdbls : G.deleteDoubles old.dbls o = G := if_pos h
  simp only [deleteRowData, hstrs, hdbls, ite_self]

/-- A field after the additions of `add_row_data` -/
theorem find_addRowData (fields old : FieldsDict D) (f : Str) :
    (G.addRowData o fields old).findFieldGroup f =
      ((G.deleteRowData o old).findFieldGroup f).map fun g =>
        (fields.dbls.lookup f).elim id (fun x (g : FieldBitmapGroup D) => g.addDouble x o)
          ((fields.strs.lookup f).elim g fun s => g.addStr s o) := by
  have hstrs : (if fields.strs.entries.isEmpty then G.deleteRowData o old
      else (G.deleteRowData o old).addStrs fields.strs o).findFieldGroup f =
      ((G.deleteRowData o old).findFieldGroup f).map fun g =>
        (fields.strs.lookup f).elim g fun s => g.addStr s o := by
    split
    · next hempty =>
        rw [lookup_of_isEmpty hempty f]
        exact Option.map_id'.symm
    · rw [addStrs, findFieldGroup_grow,
        findFieldGroup_foldl (fun s g => g.addStr s o) _ fields.strs.nodupKeys]
      refine congrArg (fun F => ((G.deleteRowData o old).findFieldGroup f).map F)
        (funext fun g => ?_)
      show (fields.strs.lookup f).elim id (fun s (g : FieldBitmapGroup D) => g.addStr s o) g = _
      cases fields.strs.lookup f <;> rfl
  unfold addRowData
  dsimp only
  split
  · next hempty =>
      rw [hstrs, lookup_of_isEmpty hempty f]
      rfl
  · rw [addDoubles, findFieldGroup_grow,
      findFieldGroup_foldl (fun x g => g.addDouble x o) _ fields.dbls.nodupKeys, hstrs,
      Option.map_map]
    rfl

/-- The size of the index grows when there is something to add. -/
theorem elementSize_addRowData (fields old : FieldsDict D) :
    (G.addRowData o fields old).elementSize =
      if fields.strs.entries.isEmpty ∧ fields.dbls.entries.isEmpty then G.elementSize
      else max G.elementSize (o + 1) := by
  have hstrs : ∀ G : FieldBitmapGroupSet D,
      (G.addStrs fields.strs o).elementSize = max G.elementSize (o + 1) := by
    intro G
    rw [addStrs, elementSize_grow, elementSize_foldl (fun s g => g.addStr s o)]
  have hdbls : ∀ G : FieldBitmapGroupSet D,
      (G.addDoubles fields.dbls o).elementSize = max G.elementSize (o + 1) := by
    intro G
    rw [addDoubles, elementSize_grow, elementSize_foldl (fun x g => g.addDouble x o)]
  unfold addRowData
  dsimp only
  by_cases hs : fields.strs.entries.isEmpty = true
  · by_cases hd : fields.dbls.entries.isEmpty = true
    · rw [if_pos hd, if_pos hs, if_pos ⟨hs, hd⟩, elementSize_deleteRowData]
    · rw [if_neg hd, if_pos hs, if_neg fun hc => hd hc.2, hdbls, elementSize_deleteRowData]
  · by_cases hd : fields.dbls.entries.isEmpty = true
    · rw [if_pos hd, if_neg hs, if_neg fun hc => hs hc.1, hstrs, elementSize_deleteRowData]
    · rw [if_neg hd, if_neg hs, if_neg fun hc => hs hc.1, hdbls, hstrs, elementSize_deleteRowData,
        max_assoc, max_self]

/-- What field `f` has, offsets below `size` being within the range of the index. -/
structure HasField (G : FieldBitmapGroupSet D) (f : Str) (path : Bool) (size : Nat)
    (bits : Str → Finset Nat) (nums : Nat → Option D) : Prop where
  group : ∃ g, G.findFieldGroup f = some g ∧ g.Shows path size bits nums
  size : size ≤ G.elementSize

variable {path : Bool} {size : Nat} {bits : Str → Finset Nat} {nums : Nat → Option D}

/-- The old fields of a record are the keys and the number it has at the slot. -/
structure Old (path : Bool) (f : Str) (size : Nat) (bits : Str → Finset Nat)
    (nums : Nat → Option D) (o : Nat) (old : FieldsDict D) : Prop where
  within : (old.strs.lookup f).isSome ∨ (old.dbls.lookup f).isSome → o < size
  keys : ∀ key ∈ keysAt (fieldKeys path) (old.strs.lookup f), o ∈ bits key
  number : nums o = old.dbls.lookup f

theorem HasField.deleteRowData (h : HasField G f path size bits nums) {old : FieldsDict D}
    (hold : Old path f size bits nums o old) :
    HasField (G.deleteRowData o old) f path size
      (clear bits (keysAt (fieldKeys path) (old.strs.lookup f)) o)
      (Function.update nums o none) := by
  obtain ⟨g, hg, hshows⟩ := h.group
  refine ⟨?_, by rw [elementSize_deleteRowData]; exact h.size⟩
  have hstr : ((old.strs.lookup f).elim g fun s => g.deleteStr s o).Shows path size
      (clear bits (keysAt (fieldKeys path) (old.strs.lookup f)) o) nums := by
    cases hs : old.strs.lookup f with
    | none =>
        rw [keysAt_none, clear_nil]
        exact hshows
    | some s =>
        have hkeys := hold.keys
        rw [hs] at hkeys
        exact hshows.deleteStr (hold.within (.inl (by rw [hs]; rfl))) hkeys
  by_cases hlt : o < G.elementSize
  · refine ⟨_, by rw [find_deleteRowData hlt, hg]; rfl, ?_⟩
    split
    · next hd => exact hstr.deleteDouble (hold.within (.inr hd))
    · next hd =>
        have hnone : nums o = none :=
          hold.number.trans (Option.not_isSome_iff_eq_none.mp hd)
        rw [← hnone, Function.update_eq_self]
        exact hstr
  · -- beyond the range of the index there is nothing of the record
    have hno : ¬ ((old.strs.lookup f).isSome ∨ (old.dbls.lookup f).isSome) :=
      fun hsome => hlt ((hold.within hsome).trans_le h.size)
    obtain ⟨hs, hd⟩ := not_or.mp hno
    rw [Option.not_isSome_iff_eq_none] at hs hd
    rw [deleteRowData_of_le (Nat.le_of_not_lt hlt), hs, keysAt_none, clear_nil,
      ← hold.number.trans hd, Function.update_eq_self]
    exact ⟨g, hg, hshows⟩

/-- The range of a field when a record has come -/
def grown (size o : Nat) (fields : FieldsDict D) (f : Str) : Nat :=
  if (fields.strs.lookup f).isSome || (fields.dbls.lookup f).isSome then max size (o + 1) else size

theorem HasField.addRowData (h : HasField G f path size bits nums) (fields : FieldsDict D)
    {old : FieldsDict D} (hold : Old path f size bits nums o old) :
    HasField (G.addRowData o fields old) f path (grown size o fields f)
      (enter (clear bits (keysAt (fieldKeys path) (old.strs.lookup f)) o)
        (keysAt (fieldKeys path) (fields.strs.lookup f)) o)
      (Function.update nums o (fields.dbls.lookup f)) := by
  obtain ⟨g, hg, hshows⟩ := (h.deleteRowData hold).group
  have hfree : Function.update nums o none o = none := Function.update_self ..
  have hsize : grown size o fields f ≤ (G.addRowData o fields old).elementSize := by
    have hle := h.size
    rw [elementSize_addRowData, grown]
    split
    · next hsome =>
        rw [if_neg]
        · exact max_le_max_right _ hle
        · rintro ⟨hs, hd⟩
          rw [lookup_of_isEmpty hs f, lookup_of_isEmpty hd f] at hsome
          cases hsome
    · split
      · exact hle
      · exact hle.trans (le_max_left _ _)
  refine ⟨⟨_, by rw [find_addRowData, hg]; rfl, ?_⟩, hsize⟩
  rw [grown]
  cases hs : fields.strs.lookup f with
  | none =>
      rw [keysAt_none, enter_nil]
      cases hd : fields.dbls.lookup f with
      | none => exact hshows
      | some x =>
          have hdbl := hshows.addDouble x hfree
          rw [Function.update_idem] at hdbl
          exact hdbl
  | some s =>
      have hstr := hshows.addStr s o
      cases hd : fields.dbls.lookup f with
      | none => exact hstr
      | some x =>
          have hdbl := hstr.addDouble x hfree
          rw [Function.update_idem, max_assoc, max_self] at hdbl
          exact hdbl

end FieldBitmapGroupSet

end

end OpenViking.Index
