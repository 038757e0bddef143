/-
# `OpenViking.Index.Equality` — an equality filter selects the matching records

Along a history of `add_data` and `delete_data` calls, each with the record that
is indexed at that moment as the old one, the bitmaps of a field invert the
records present, and its ranged map has their numbers (`Indexed`, kept by every
call).

For `must(f, [v])` to select the records whose field `f` is, or contains, `v`,
the pieces of the flattened field have to be its values.  They are if no string
has a `;` or a NUL in it and no list of strings is empty or has an empty string
beside others (`Plain`), and as long as the offsets fit an `int`:
`must_selects_matching`.
-/
import OpenViking.Index.RowUpdate

namespace OpenViking.Index

open OpenViking.Lib

section

variable {D V : Type} [LinearOrder D] [DoubleArith D]

/-! ## Histories -/

/-- The records in the index -/
abbrev Catalog (D : Type) := Nat → Option (Record D)

/-- A record as it is sent along; no record is an empty text. -/
def Record.json (r : Option (Record D)) : List (Member D) := r.elim [] Record.members

/-- A call of the index -/
inductive Call (D V : Type) : Type
  | add (items : List (Nat × V × Record D))
  | delete (labels : List Nat)

/-- The requests of an `add_data` call.  The old record of each is the one that
is indexed when its turn comes. -/
def addRequests : Catalog D → List (Nat × V × Record D) → List (AddDataRequest D V)
  | _, [] => []
  | catalog, (label, vector, r) :: items =>
      ⟨label, vector, r.members, Record.json (catalog label)⟩ ::
        addRequests (Function.update catalog label (some r)) items

def deleteRequests : Catalog D → List Nat → List (DeleteDataRequest D)
  | _, [] => []
  | catalog, label :: labels =>
      ⟨label, Record.json (catalog label)⟩ ::
        deleteRequests (Function.update catalog label none) labels

/-- The number of offsets a call may need -/
def Call.size : Call D V → Nat
  | .add items => items.length
  | .delete _ => 0

/-- The records a call stores -/
def Call.stored : Call D V → List (Record D)
  | .add items => items.map fun item => item.2.2
  | .delete _ => []

/-- The records after a call -/
def Call.records (catalog : Catalog D) : Call D V → Catalog D
  | .add items => items.foldl (fun c item => Function.update c item.1 (some item.2.2)) catalog
  | .delete labels => labels.foldl (fun c label => Function.update c label none) catalog

/-- The index after a call -/
def Call.exec (M : IndexManager D V) (catalog : Catalog D) : Call D V → IndexManager D V
  | .add items => M.addData (addRequests catalog items)
  | .delete labels => M.deleteData (deleteRequests catalog labels)

/-! ## The invariant -/

/-- The keys a record is filed under in a field -/
def Record.keys (path : Bool) (f : Str) (r : Record D) : List Str :=
  keysAt (fieldKeys path) (r.text f)

/-- The bitmaps of the field invert the records, and its numbers are theirs. -/
structure FieldIndexed (M : IndexManager D V) (catalog : Catalog D) (path : Bool) (f : Str) :
    Prop where
  inverts : ∃ size bits nums, M.scalar.HasField f path size bits nums ∧
    Inverts (Record.keys path f) catalog M.vectors.offsetOf bits ∧
    Reflects (Record.number · f) catalog M.vectors.offsetOf nums ∧
    ∀ label r o, catalog label = some r → M.vectors.offsetOf label = some o →
      (r.text f).isSome ∨ (r.number f).isSome → o < size

/-- Is it the type of a path field? -/
def FieldType.isPath (ty : FieldType) : Bool := ty = .path

/-- Vectors and records belong together, and every field is indexed. -/
structure Indexed (schema : AList (fun _ : Str => FieldType)) (M : IndexManager D V)
    (catalog : Catalog D) : Prop where
  vectors : M.vectors.Consistent
  present : ∀ label, M.vectors.offsetOf label = none ↔ catalog label = none
  field : ∀ f ty, schema.lookup f = some ty → FieldIndexed M catalog ty.isPath f

theorem lookup_strs_json (r : Option (Record D)) (f : Str) :
    (FieldsDict.parseFromJson (Record.json r)).strs.lookup f = r.bind (·.text f) := by
  cases r with
  | none => rfl
  | some r => exact lookup_strs_parse r f

theorem lookup_dbls_json (r : Option (Record D)) (f : Str) :
    (FieldsDict.parseFromJson (Record.json r)).dbls.lookup f = r.bind (·.number f) := by
  cases r with
  | none => rfl
  | some r => exact lookup_dbls_parse r f

omit [DoubleArith D] in
theorem findFieldGroup_new {schema : AList (fun _ : Str => FieldType)} {f : Str} {ty : FieldType}
    (h : schema.lookup f = some ty) :
    (newScalarIndex schema : FieldBitmapGroupSet D).findFieldGroup f = some ty.newGroup := by
  have hmem : (⟨f, ty⟩ : Sigma fun _ : Str => FieldType) ∈ schema.entries :=
    AList.mem_lookup_iff.mp h
  exact AList.mem_lookup_iff.mpr (List.mem_map_of_mem hmem)

omit [LinearOrder D] [DoubleArith D] in
theorem keysAt_bind (r : Option (Record D)) (path : Bool) (f : Str) :
    keysAt (fieldKeys path) (r.bind (·.text f)) = keysAt (Record.keys path f) r := by
  cases r with
  | none => rfl
  | some r => rfl

namespace FieldIndexed

variable {M : IndexManager D V} {catalog : Catalog D} {f : Str} {path : Bool}
  {vectors' : BruteforceSearch V} {label o size : Nat} {bits : Str → Finset Nat}
  {nums : Nat → Option D}

/-- The record in the catalog is the old one at its slot. -/
theorem old (hinv : Inverts (Record.keys path f) catalog M.vectors.offsetOf bits)
    (hnums : Reflects (Record.number · f) catalog M.vectors.offsetOf nums)
    (hsize : ∀ label r o, catalog label = some r → M.vectors.offsetOf label = some o →
      (r.text f).isSome ∨ (r.number f).isSome → o < size)
    (honly : ∀ l, M.vectors.offsetOf l = some o → l = label)
    (hplaced : catalog label = none ∨ M.vectors.offsetOf label = some o) :
    FieldBitmapGroupSet.Old path f size bits nums o
      (FieldsDict.parseFromJson (Record.json (catalog label))) := by
  have hnumber := hnums.at_slot honly hplaced
  refine ⟨fun hsome => ?_, fun key hkey => ?_, by rw [lookup_dbls_json]; exact hnumber⟩
  · rw [lookup_strs_json, lookup_dbls_json] at hsome
    cases hcat : catalog label with
    | none =>
        rw [hcat] at hsome
        exact hsome.elim (fun h => by cases h) fun h => by cases h
    | some r =>
        rw [hcat] at hsome hplaced
        exact hsize label r o hcat (hplaced.resolve_left nofun) hsome
  · rw [lookup_strs_json, keysAt_bind] at hkey
    cases hcat : catalog label with
    | none =>
        rw [hcat] at hkey
        cases hkey
    | some r =>
        rw [hcat] at hkey hplaced
        exact (hinv key o).mpr ⟨label, r, hcat, hplaced.resolve_left nofun, hkey⟩

theorem put (h : FieldIndexed M catalog path f) (hslot : vectors'.offsetOf label = some o)
    (honly : ∀ l, vectors'.offsetOf l = some o → l = label)
    (hother : ∀ l, l ≠ label → vectors'.offsetOf l = M.vectors.offsetOf l) (r : Record D)
    (hold : ∀ l, M.vectors.offsetOf l = some o → l = label)
    (hplaced : catalog label = none ∨ M.vectors.offsetOf label = some o) :
    FieldIndexed (M.withIndexes vectors'
        (M.scalar.addRowData o (FieldsDict.parseFromJson r.members)
          (FieldsDict.parseFromJson (Record.json (catalog label)))))
      (Function.update catalog label (some r)) path f := by
  obtain ⟨size, bits, nums, hfield, hinv, hnums, hsize⟩ := h.inverts
  have hnew := hfield.addRowData (FieldsDict.parseFromJson r.members)
    (old hinv hnums hsize hold hplaced)
  rw [lookup_strs_json, lookup_strs_parse, lookup_dbls_parse, keysAt_bind] at hnew
  refine ⟨_, _, _, ⟨hnew.group, hnew.size⟩, hinv.put hslot honly hother r hold hplaced,
    hnums.put hslot honly hother r hplaced, ?_⟩
  intro l r' o' hr' ho' hsome
  change vectors'.offsetOf l = some o' at ho'
  rw [FieldBitmapGroupSet.grown, lookup_strs_parse, lookup_dbls_parse]
  by_cases hl : l = label
  · rw [hl, Function.update_self] at hr'
    rw [hl, hslot] at ho'
    cases hr'
    cases ho'
    rw [if_pos (Bool.or_eq_true_iff.mpr hsome)]
    exact lt_of_lt_of_le (Nat.lt_succ_self o) (le_max_right _ _)
  · rw [Function.update_of_ne hl] at hr'
    have hlt := hsize l r' o' hr' ((hother l hl).symm.trans ho') hsome
    split
    · exact lt_of_lt_of_le hlt (le_max_left _ _)
    · exact hlt

theorem drop (h : FieldIndexed M catalog path f) (hslot : M.vectors.offsetOf label = some o)
    (honly : ∀ l, M.vectors.offsetOf l = some o → l = label)
    (hother : ∀ l, l ≠ label → vectors'.offsetOf l = M.vectors.offsetOf l) :
    FieldIndexed (M.withIndexes vectors'
        (M.scalar.deleteRowData o (FieldsDict.parseFromJson (Record.json (catalog label)))))
      (Function.update catalog label none) path f := by
  obtain ⟨size, bits, nums, hfield, hinv, hnums, hsize⟩ := h.inverts
  have hdel := hfield.deleteRowData (old hinv hnums hsize honly (.inr hslot))
  rw [lookup_strs_json, keysAt_bind] at hdel
  refine ⟨size, _, _, ⟨hdel.group, hdel.size⟩, hinv.drop hslot honly hother,
    hnums.drop hslot honly hother, ?_⟩
  intro l r' o' hr' ho' hsome
  have hl : l ≠ label := by
    rintro rfl
    rw [Function.update_self] at hr'
    cases hr'
  rw [Function.update_of_ne hl] at hr'
  exact hsize l r' o' hr' ((hother l hl).symm.trans ho') hsome

end FieldIndexed

theorem getOffsetByLabel_eq {s : BruteforceSearch V} {label o : Nat}
    (h : s.offsetOf label = some o) (hlt : o < 2 ^ 31) : s.getOffsetByLabel label = some o := by
  obtain ⟨r, hr, rfl⟩ := Option.map_eq_some_iff.mp h
  simp only [BruteforceSearch.getOffsetByLabel, hr, if_pos hlt]

namespace Indexed

variable {schema : AList (fun _ : Str => FieldType)} {M : IndexManager D V}
  {catalog : Catalog D}

/-- Adding a point gives the label a slot of its own. -/
theorem addPoint (h : Indexed schema M catalog) (label : Nat) (vector : V)
    (hnext : M.vectors.nextLogicalOffset < 2 ^ 31) :
    ∃ o < 2 ^ 31, (M.vectors.addPoint label vector).Consistent ∧
      (M.vectors.addPoint label vector).offsetOf label = some o ∧
      (∀ l, l ≠ label → (M.vectors.addPoint label vector).offsetOf l = M.vectors.offsetOf l) ∧
      (catalog label = none ∨ M.vectors.offsetOf label = some o) ∧
      (M.vectors.addPoint label vector).nextLogicalOffset ≤ M.vectors.nextLogicalOffset + 1 := by
  cases ho : M.vectors.offsetOf label with
  | some o =>
      obtain ⟨hcons, hoff, hcount⟩ := h.vectors.addPoint_known ho vector
      have hlt := h.vectors.offsetOf_lt ho
      exact ⟨o, by omega, hcons, (hoff label).trans ho, fun l _ => hoff l, .inr rfl, by omega⟩
  | none =>
      obtain ⟨hcons, hoff, hcount⟩ := h.vectors.addPoint_new ho (by omega) vector
      refine ⟨M.vectors.nextLogicalOffset, hnext, hcons, ?_, fun l hl => ?_,
        .inl ((h.present label).mp ho), hcount.le⟩
      · rw [hoff, if_pos rfl]
      · rw [hoff, if_neg hl]

theorem addOne (h : Indexed schema M catalog) (label : Nat) (vector : V) (r : Record D)
    (hnext : M.vectors.nextLogicalOffset < 2 ^ 31) :
    let M' := (M.addOne ⟨label, vector, r.members, Record.json (catalog label)⟩).2
    Indexed schema M' (Function.update catalog label (some r)) ∧
      M'.vectors.nextLogicalOffset ≤ M.vectors.nextLogicalOffset + 1 := by
  intro M'
  obtain ⟨o, hlt, hcons, hslot, hother, hplaced, hcount⟩ := h.addPoint label vector hnext
  have hone : M' = M.withIndexes (M.vectors.addPoint label vector)
      (M.scalar.addRowData o (FieldsDict.parseFromJson r.members)
        (FieldsDict.parseFromJson (Record.json (catalog label)))) := by
    simp only [M', IndexManager.addOne, getOffsetByLabel_eq hslot hlt]
  have honly : ∀ l, (M.vectors.addPoint label vector).offsetOf l = some o → l = label :=
    fun l hl => hcons.offsetOf_inj hl hslot
  have hold : ∀ l, M.vectors.offsetOf l = some o → l = label := by
    intro l hl
    by_contra hne
    exact hne (honly l ((hother l hne).trans hl))
  rw [hone]
  refine ⟨⟨hcons, fun l => ?_, fun f ty hf => ?_⟩, hcount⟩
  · change (M.vectors.addPoint label vector).offsetOf l = none ↔ _
    by_cases hl : l = label
    · simp [hl, hslot]
    · rw [hother l hl, Function.update_of_ne hl, h.present]
  · exact (h.field f ty hf).put hslot honly hother r hold hplaced

theorem deleteOne (h : Indexed schema M catalog) (label : Nat)
    (hnext : M.vectors.nextLogicalOffset ≤ 2 ^ 31) :
    let M' := (M.deleteOne ⟨label, Record.json (catalog label)⟩).2
    Indexed schema M' (Function.update catalog label none) ∧
      M'.vectors.nextLogicalOffset ≤ M.vectors.nextLogicalOffset := by
  intro M'
  cases hslot : M.vectors.offsetOf label with
  | none =>
      have hone : M' = M := by
        have hrow : M.vectors.rowOf label = none := Option.map_eq_none_iff.mp hslot
        simp only [M', IndexManager.deleteOne, BruteforceSearch.getOffsetByLabel, hrow]
      have hcat : Function.update catalog label none = catalog := by
        rw [← (h.present label).mp hslot, Function.update_eq_self]
      rw [hone, hcat]
      exact ⟨h, le_rfl⟩
  | some o =>
      obtain ⟨hcons, hoff, hcount⟩ := h.vectors.removePoint_ok label
      have hlt := h.vectors.offsetOf_lt hslot
      have hone : M' = M.withIndexes (M.vectors.removePoint label)
          (M.scalar.deleteRowData o
            (FieldsDict.parseFromJson (Record.json (catalog label)))) := by
        simp only [M', IndexManager.deleteOne, getOffsetByLabel_eq hslot (by omega)]
      have hother : ∀ l, l ≠ label →
          (M.vectors.removePoint label).offsetOf l = M.vectors.offsetOf l := by
        intro l hl
        rw [hoff, if_neg hl]
      rw [hone]
      refine ⟨⟨hcons, fun l => ?_, fun f ty hf => ?_⟩, hcount.le⟩
      · change (M.vectors.removePoint label).offsetOf l = none ↔ _
        by_cases hl : l = label
        · simp [hl, hoff]
        · rw [hother l hl, Function.update_of_ne hl, h.present]
      · exact (h.field f ty hf).drop hslot (fun l hl => h.vectors.offsetOf_inj hl hslot) hother

/-- The caches that are dropped after an update are not part of it. -/
theorem clearFilters (h : Indexed schema M catalog) : Indexed schema M.clearFilters catalog :=
  ⟨h.vectors, h.present, fun f ty hf => ⟨(h.field f ty hf).inverts⟩⟩

theorem applied {st : Bool × IndexManager D V}
    (h : Indexed schema st.2 catalog) :
    Indexed schema (if st.1 then st.2.clearFilters else st.2) catalog := by
  split
  · exact h.clearFilters
  · exact h

theorem foldl_addOne (items : List (Nat × V × Record D)) (updated : Bool)
    (h : Indexed schema M catalog)
    (hnext : M.vectors.nextLogicalOffset + items.length ≤ 2 ^ 31) :
    Indexed schema
      ((addRequests catalog items).foldl
        (fun st req => ((st.2.addOne req).1 || st.1, (st.2.addOne req).2)) (updated, M)).2
      (items.foldl (fun c item => Function.update c item.1 (some item.2.2)) catalog) := by
  induction items generalizing M catalog updated with
  | nil => exact h
  | cons item items ih =>
      obtain ⟨label, vector, r⟩ := item
      rw [List.length_cons] at hnext
      obtain ⟨hone, hcount⟩ := h.addOne label vector r (by omega)
      have hroom := (Nat.add_le_add_right hcount items.length).trans
        (show M.vectors.nextLogicalOffset + 1 + items.length ≤ 2 ^ 31 by omega)
      exact ih _ hone hroom

theorem foldl_deleteOne (labels : List Nat) (updated : Bool) (h : Indexed schema M catalog)
    (hnext : M.vectors.nextLogicalOffset ≤ 2 ^ 31) :
    Indexed schema
      ((deleteRequests catalog labels).foldl
        (fun st req => ((st.2.deleteOne req).1 || st.1, (st.2.deleteOne req).2)) (updated, M)).2
      (labels.foldl (fun c label => Function.update c label none) catalog) := by
  induction labels generalizing M catalog updated with
  | nil => exact h
  | cons label labels ih =>
      obtain ⟨hone, hcount⟩ := h.deleteOne label hnext
      exact ih _ hone (hcount.trans hnext)

theorem exec (h : Indexed schema M catalog) (hnext : M.vectors.nextLogicalOffset ≤ 2 ^ 31) :
    ∀ call : Call D V, M.vectors.nextLogicalOffset + call.size ≤ 2 ^ 31 →
      Indexed schema (call.exec M catalog) (call.records catalog)
  | .add items, hroom => applied (foldl_addOne items false h hroom)
  | .delete labels, _ => applied (foldl_deleteOne labels false h hnext)

theorem new (schema : AList (fun _ : Str => FieldType)) :
    Indexed schema (IndexManager.new V schema : IndexManager D V) (fun _ => none) := by
  refine ⟨BruteforceSearch.consistent_empty, fun _ => iff_of_true rfl rfl, fun f ty hty => ?_⟩
  have hshows :
      (ty.newGroup : FieldBitmapGroup D).Shows ty.isPath 0 (fun _ => ∅) fun _ => none := by
    refine ⟨?_, le_rfl, rfl, ?_, fun _ key hin => by cases hin⟩
    · cases ty <;> rfl
    · cases ty <;> exact RangedMap.agrees_empty
  exact ⟨0, _, _, ⟨⟨ty.newGroup, findFieldGroup_new hty, hshows⟩, le_rfl⟩, Inverts.empty,
    Reflects.empty, fun _ _ _ h => nomatch h⟩

end Indexed

end

/-! ## Values and keys -/

section

variable {D : Type}

/-- A value of the type -/
def FieldType.accepts : FieldType → Json D → Bool
  | .int64, .int n => isInt64 n
  | .float32, .int n => isInt64 n
  | .float32, .double _ => true
  | .string, .str _ => true
  | .path, .str _ => true
  | .bool, .bool _ => true
  | .listString, .arr items => items.all fun
      | .str _ => true
      | _ => false
  | .listInt64, .arr items => items.all fun
      | .int n => isInt64 n
      | _ => false
  | _, _ => false

/-- A value to look for in a field of the type, if it has equality filters -/
def FieldType.asksFor : FieldType → Json D → Bool
  | .int64, .int n => isInt64 n
  | .listInt64, .int n => isInt64 n
  | .string, .str _ => true
  | .listString, .str _ => true
  | .bool, .bool _ => true
  | _, _ => false

/-- The value is the other one, or a list that contains it. -/
def Json.Matches : Json D → Json D → Prop
  | .arr items, w => w ∈ items
  | v, w => v = w

/-- Neither a separator nor the end of a C string -/
def isClean (s : Str) : Bool := ';' ∉ s && '\x00' ∉ s

/-- A value whose text has exactly its elements as keys -/
def FieldType.plain : FieldType → Json D → Bool
  | .string, .str s => isClean s
  | .listString, .arr items => items.length = 1 && items.all isCleanStr ||
      !items.isEmpty && items.all fun item => isCleanStr item && !isEmptyStr item
  | _, _ => true
where
  isCleanStr : Json D → Bool
    | .str s => isClean s
    | _ => true
  isEmptyStr : Json D → Bool
    | .str s => s.isEmpty
    | _ => false

/-- The key an equality filter looks up -/
def condText : Json D → Str
  | .int n => decimal n
  | .str s => s
  | .bool b => if b then ['1'] else ['0']
  | _ => []

theorem loadConds_of_asksFor {ty : FieldType} {w : Json D} (h : ty.asksFor w = true) :
    loadConds [w] false false = .ok [condText w] := by
  cases w with
  | int n =>
      have hn : isInt64 n = true := by
        cases ty <;> first | exact h | cases h
      simp only [loadConds, hn]
      rfl
  | str s => rfl
  | bool b => rfl
  | null => cases ty <;> cases h
  | double x => cases ty <;> cases h
  | arr items => cases ty <;> cases h
  | obj members => cases ty <;> cases h

theorem decimal_ne_nil (n : Int) : decimal n ≠ [] := by
  unfold decimal
  split
  · exact List.cons_ne_nil _ _
  · exact Nat.toDigits_ne_nil

theorem not_isDigit_notMem_toDigits {c : Char} (hc : c.isDigit = false) (n : Nat) :
    c ∉ Nat.toDigits 10 n := by
  intro h
  rw [Nat.isDigit_of_mem_toDigits (by decide) (by decide) h] at hc
  cases hc

theorem semicolon_notMem_decimal (n : Int) : ';' ∉ decimal n := by
  unfold decimal
  split
  · rw [List.mem_cons, not_or]
    exact ⟨by decide, not_isDigit_notMem_toDigits rfl _⟩
  · exact not_isDigit_notMem_toDigits rfl _

theorem toDigits_inj {m n : Nat} (h : Nat.toDigits 10 m = Nat.toDigits 10 n) : m = n := by
  rw [← Nat.ofDigitChars_ten_toDigits (n := m), h, Nat.ofDigitChars_ten_toDigits]

theorem decimal_inj {m n : Int} (h : decimal m = decimal n) : m = n := by
  have hminus : ∀ k l : Nat, '-' :: Nat.toDigits 10 k ≠ Nat.toDigits 10 l := by
    intro k l he
    exact not_isDigit_notMem_toDigits (c := '-') rfl l (he ▸ List.mem_cons_self)
  unfold decimal at h
  split at h
  · split at h
    · have := toDigits_inj (List.cons.inj h).2
      omega
    · exact absurd h (hminus _ _)
  · split at h
    · exact absurd h.symm (hminus _ _)
    · have := toDigits_inj h
      omega

theorem keysOf_of_notMem {s : Str} (h : ';' ∉ s) : keysOf s = [s] := if_neg h

theorem joinTexts_singleton (t : Str) : joinTexts [t] = t := by simp [joinTexts]

/-- Joined texts are split into the same texts again. -/
theorem keysOf_joinTexts {texts : List Str} (hsep : ∀ t ∈ texts, ';' ∉ t)
    (hne : (∃ t, texts = [t]) ∨ texts ≠ [] ∧ ∀ t ∈ texts, t ≠ []) :
    keysOf (joinTexts texts) = texts := by
  rcases hne with ⟨t, rfl⟩ | ⟨hnil, hne⟩
  · rw [joinTexts_singleton, keysOf_of_notMem (hsep t List.mem_cons_self)]
  · have hsplit : (joinTexts texts).splitOn ';' = texts := List.splitOn_intercalate ';' hsep hnil
    have hkeys : splitKeys (joinTexts texts) = texts := by
      rw [splitKeys, hsplit, List.filter_eq_self]
      intro t ht
      exact decide_eq_true (hne t ht)
    unfold keysOf
    split
    · exact hkeys
    · next hno =>
        -- no separator: there was one text only
        have hone : (joinTexts [joinTexts texts]).splitOn ';' = [joinTexts texts] :=
          List.splitOn_intercalate ';' (by simpa using hno) (List.cons_ne_nil _ _)
        rw [← hone, joinTexts_singleton]
        exact hsplit

theorem isClean_iff {s : Str} : isClean s = true ↔ ';' ∉ s ∧ '\x00' ∉ s := by
  simp [isClean]

/-- The keys of a list are the texts of its elements. -/
theorem keys_arr {items : List (Json D)} (hsep : ∀ item ∈ items, ';' ∉ elementText item)
    (hne : (∃ item, items = [item]) ∨ items ≠ [] ∧ ∀ item ∈ items, elementText item ≠ []) :
    keysAt keysOf (valueText (.arr items)) = items.map elementText := by
  refine keysOf_joinTexts (List.forall_mem_map.mpr hsep) ?_
  rcases hne with ⟨item, rfl⟩ | ⟨hnil, hne⟩
  · exact .inl ⟨elementText item, rfl⟩
  · exact .inr ⟨List.map_eq_nil_iff.not.mpr hnil, List.forall_mem_map.mpr hne⟩

/-- The elements of a list are told apart by their texts. -/
theorem condText_mem_iff {items : List (Json D)} {w : Json D}
    (hinj : ∀ item ∈ items, condText w = elementText item ↔ w = item) :
    condText w ∈ items.map elementText ↔ w ∈ items := by
  rw [List.mem_map]
  constructor
  · rintro ⟨item, hitem, he⟩
    rwa [(hinj item hitem).mp he.symm]
  · intro hw
    exact ⟨w, hw, ((hinj w hw).mpr rfl).symm⟩

theorem mem_keys_listInt64 {items : List (Json D)} {n : Int}
    (hitems : ∀ item ∈ items, ∃ m, item = .int m ∧ isInt64 m = true) :
    decimal n ∈ keysAt keysOf (valueText (.arr items)) ↔ .int n ∈ items := by
  have htext : ∀ item ∈ items, ∃ m, item = .int m ∧ elementText item = decimal m := by
    intro item hitem
    obtain ⟨m, rfl, hm⟩ := hitems item hitem
    exact ⟨m, rfl, if_pos hm⟩
  by_cases hnil : items = []
  · subst hnil
    -- the empty list is filed under the empty key
    exact iff_of_false (fun h => decimal_ne_nil n (List.mem_singleton.mp h)) nofun
  · rw [keys_arr]
    · refine condText_mem_iff (w := .int n) fun item hitem => ?_
      obtain ⟨m, rfl, hm⟩ := htext item hitem
      rw [hm]
      exact ⟨fun h => congrArg _ (decimal_inj h), fun h => by cases h; rfl⟩
    · intro item hitem
      obtain ⟨m, -, hm⟩ := htext item hitem
      exact hm ▸ semicolon_notMem_decimal m
    · refine .inr ⟨hnil, fun item hitem => ?_⟩
      obtain ⟨m, -, hm⟩ := htext item hitem
      exact hm ▸ decimal_ne_nil m

theorem mem_keys_listString {items : List (Json D)} {s : Str}
    (hitems : ∀ item ∈ items, ∃ t, item = .str t)
    (hplain : FieldType.listString.plain (.arr items) = true) :
    s ∈ keysAt keysOf (valueText (.arr items)) ↔ .str s ∈ items := by
  have hclean : ∀ item ∈ items, ∃ t, item = .str t ∧ isClean t = true ∧
      (items.length = 1 ∨ t ≠ []) := by
    intro item hitem
    obtain ⟨t, rfl⟩ := hitems item hitem
    simp only [FieldType.plain, Bool.or_eq_true, Bool.and_eq_true, decide_eq_true_eq,
      List.all_eq_true] at hplain
    rcases hplain with ⟨hone, hall⟩ | ⟨-, hall⟩
    · exact ⟨t, rfl, hall _ hitem, .inl hone⟩
    · obtain ⟨hc, he⟩ := hall _ hitem
      refine ⟨t, rfl, hc, .inr ?_⟩
      rintro rfl
      cases he
  have htext : ∀ t, isClean t = true → elementText (.str t : Json D) = t := fun t ht =>
    cString_eq_self (isClean_iff.mp ht).2
  have hnil : items ≠ [] := by
    rintro rfl
    cases hplain
  rw [keys_arr]
  · refine condText_mem_iff (w := .str s) fun item hitem => ?_
    obtain ⟨t, rfl, ht, -⟩ := hclean item hitem
    rw [htext t ht]
    exact ⟨fun h => congrArg _ h, fun h => by cases h; rfl⟩
  · intro item hitem
    obtain ⟨t, rfl, ht, -⟩ := hclean item hitem
    rw [htext t ht]
    exact (isClean_iff.mp ht).1
  · by_cases hone : items.length = 1
    · exact .inl (List.length_eq_one_iff.mp hone)
    · refine .inr ⟨hnil, fun item hitem => ?_⟩
      obtain ⟨t, rfl, ht, hne⟩ := hclean item hitem
      rw [htext t ht]
      exact hne.resolve_left hone

/-- A plain value is filed under the keys of the values it matches. -/
theorem condText_mem_keys {ty : FieldType} {v w : Json D} (hv : ty.accepts v = true)
    (hp : ty.plain v = true) (hw : ty.asksFor w = true) :
    condText w ∈ keysAt keysOf (valueText v) ↔ v.Matches w := by
  cases ty with
  | int64 =>
      obtain ⟨n, rfl, hn⟩ : ∃ n, v = .int n ∧ isInt64 n = true := by
        cases v <;> first | exact ⟨_, rfl, hv⟩ | cases hv
      obtain ⟨m, rfl⟩ : ∃ m, w = .int m := by cases w <;> first | exact ⟨_, rfl⟩ | cases hw
      rw [valueText, if_pos hn, keysAt_some, keysOf_of_notMem (semicolon_notMem_decimal n),
        List.mem_singleton]
      exact ⟨fun h => congrArg _ (decimal_inj h).symm, fun h => by cases h; rfl⟩
  | float32 => cases w <;> cases hw
  | string =>
      obtain ⟨s, rfl⟩ : ∃ s, v = .str s := by cases v <;> first | exact ⟨_, rfl⟩ | cases hv
      obtain ⟨t, rfl⟩ : ∃ t, w = .str t := by cases w <;> first | exact ⟨_, rfl⟩ | cases hw
      obtain ⟨hsep, hnul⟩ := isClean_iff.mp hp
      rw [valueText, cString_eq_self hnul, keysAt_some, keysOf_of_notMem hsep,
        List.mem_singleton]
      exact ⟨fun h => congrArg _ h.symm, fun h => by cases h; rfl⟩
  | bool =>
      obtain ⟨b, rfl⟩ : ∃ b, v = .bool b := by cases v <;> first | exact ⟨_, rfl⟩ | cases hv
      obtain ⟨c, rfl⟩ : ∃ c, w = .bool c := by cases w <;> first | exact ⟨_, rfl⟩ | cases hw
      cases b <;> cases c <;> simp [valueText, keysOf, condText, Json.Matches]
  | listString =>
      obtain ⟨items, rfl⟩ : ∃ items, v = .arr items := by
        cases v <;> first | exact ⟨_, rfl⟩ | cases hv
      obtain ⟨t, rfl⟩ : ∃ t, w = .str t := by cases w <;> first | exact ⟨_, rfl⟩ | cases hw
      refine mem_keys_listString (fun item hitem => ?_) hp
      have hitem := List.all_eq_true.mp hv item hitem
      cases item <;> first | exact ⟨_, rfl⟩ | cases hitem
  | listInt64 =>
      obtain ⟨items, rfl⟩ : ∃ items, v = .arr items := by
        cases v <;> first | exact ⟨_, rfl⟩ | cases hv
      obtain ⟨n, rfl⟩ : ∃ n, w = .int n := by cases w <;> first | exact ⟨_, rfl⟩ | cases hw
      refine mem_keys_listInt64 fun item hitem => ?_
      have hitem := List.all_eq_true.mp hv item hitem
      cases item <;> first | exact ⟨_, rfl, hitem⟩ | cases hitem
  | path => cases w <;> cases hw

end

/-! ## The filter -/

section

variable {D V : Type} [LinearOrder D] [DoubleArith D] {schema : AList (fun _ : Str => FieldType)}

/-- A member of a record that the schema knows has a plain value of its type. -/
def FieldType.fits (schema : AList (fun _ : Str => FieldType)) : Member D → Bool
  | .mk name value =>
      match schema.lookup name with
      | some ty => ty.accepts value && ty.plain value
      | none => true

/-- The call stores plain records only, and there are offsets left for them. -/
def Call.Allowed (schema : AList (fun _ : Str => FieldType)) (M : IndexManager D V)
    (call : Call D V) : Prop :=
  M.vectors.nextLogicalOffset + call.size ≤ 2 ^ 31 ∧
    ∀ r ∈ call.stored, ∀ m ∈ r.members, FieldType.fits schema m = true

/-- The index and its records after some calls, each of them allowed. -/
inductive History (schema : AList (fun _ : Str => FieldType)) :
    IndexManager D V → Catalog D → Prop
  | start : History schema (IndexManager.new V schema) fun _ => none
  | call {M : IndexManager D V} {catalog : Catalog D} (h : History schema M catalog)
      (call : Call D V) (hcall : call.Allowed schema M) :
      History schema (call.exec M catalog) (call.records catalog)

omit [LinearOrder D] [DoubleArith D] in
theorem mem_of_findMember {f : Str} {doc : List (Member D)} {v : Json D}
    (h : findMember f doc = some v) : .mk f v ∈ doc := by
  induction doc with
  | nil => cases h
  | cons m doc ih =>
      obtain ⟨n, v'⟩ := m
      rw [findMember] at h
      split at h
      · next he =>
          cases h
          rw [he]
          exact List.mem_cons_self
      · exact List.mem_cons_of_mem _ (ih h)

omit [LinearOrder D] [DoubleArith D] in
theorem update_cases {catalog : Catalog D} {label l : Nat} {new : Option (Record D)} {r : Record D}
    (h : Function.update catalog label new l = some r) : new = some r ∨ catalog l = some r := by
  rw [Function.update_apply] at h
  split at h
  · exact .inl h
  · exact .inr h

omit [LinearOrder D] [DoubleArith D] in
/-- Whatever is in the catalog was put there by the call or was there before. -/
theorem Call.mem_records {catalog : Catalog D} {label : Nat} {r : Record D} (call : Call D V)
    (h : call.records catalog label = some r) :
    r ∈ call.stored ∨ catalog label = some r := by
  cases call with
  | add items =>
      induction items generalizing catalog with
      | nil => exact .inr h
      | cons item items ih =>
          rcases ih h with hmem | hcat
          · exact .inl (List.mem_cons_of_mem _ hmem)
          · rcases update_cases hcat with hnew | hold
            · cases hnew
              exact .inl List.mem_cons_self
            · exact .inr hold
  | delete labels =>
      induction labels generalizing catalog with
      | nil => exact .inr h
      | cons gone labels ih =>
          rcases ih h with hmem | hcat
          · cases hmem
          · exact .inr ((update_cases hcat).resolve_left nofun)

namespace History

variable {M : IndexManager D V} {catalog : Catalog D}

theorem fits (h : History schema M catalog) {label : Nat} {r : Record D}
    (hr : catalog label = some r) : ∀ m ∈ r.members, FieldType.fits schema m = true := by
  induction h generalizing label r with
  | start => cases hr
  | call h call hcall ih =>
      rcases call.mem_records hr with hstored | hold
      · exact hcall.2 r hstored
      · exact ih hold

/-- The bitmaps invert the records, after every history. -/
theorem indexed (h : History schema M catalog) :
    Indexed schema M catalog := by
  induction h with
  | start => exact Indexed.new schema
  | call h call hcall ih =>
      exact ih.exec ((Nat.le_add_right _ _).trans hcall.1) call hcall.1

end History

/-- A filter on one key of a field that is not a path reads its bitmap. -/
theorem elems_must {regex : Str → Option (Str → Bool)} {G : FieldBitmapGroupSet D} {f key : Str}
    {size : Nat} {bits : Str → Finset Nat} {nums : Nat → Option D}
    (h : G.HasField f false size bits nums) (depth : Int) :
    (calcBitmap regex G (.must f [key] depth)).elems = bits key := by
  obtain ⟨g, hg, hshows⟩ := h.group
  obtain rfl := hshows.bits
  have hpath : G.isPathFieldName f = false := by
    simp only [FieldBitmapGroupSet.isPathFieldName, hg, hshows.dir]
  simp [calcBitmap, accumulate, FilterOp.isVoid, calcSelfBitmap, hpath,
    FieldBitmapGroupSet.makeFieldCopy, FieldBitmapGroupSet.getBitmap, hg, FieldBitmapGroup.bits]

/-- After every history of allowed calls, an equality filter on any field and value
of its type selects exactly the records present that match: every selected offset
has a label, and the labels are those of the matching records. -/
theorem must_selects_matching (regex : Str → Option (Str → Bool)) {M : IndexManager D V}
    {catalog : Catalog D} (h : History schema M catalog) {f : Str} {ty : FieldType}
    (hf : schema.lookup f = some ty) {w : Json D} (hw : ty.asksFor w = true) (depth : Int) :
    ∃ conds, loadConds [w] false false = .ok conds ∧
      M.vectors.getLabelByOffset '' (calcBitmap regex M.scalar (.must f conds depth)).elems =
        some '' { label | ∃ r v, catalog label = some r ∧ r.field f = some v ∧ v.Matches w } := by
  have hindexed := h.indexed
  have hpath : ty.isPath = false := by
    cases ty with
    | path => cases w <;> cases hw
    | _ => rfl
  obtain ⟨size, bits, nums, hfield, hinv, -⟩ := (hindexed.field f ty hf).inverts
  rw [hpath] at hfield hinv
  refine ⟨[condText w], loadConds_of_asksFor hw, ?_⟩
  rw [elems_must hfield]
  -- a record is filed under the key iff its value matches
  have hkey : ∀ label r, catalog label = some r →
      (condText w ∈ r.keys false f ↔ ∃ v, r.field f = some v ∧ v.Matches w) := by
    intro label r hr
    rw [Record.keys, Record.text, fieldKeys_false]
    cases hv : r.field f with
    | none => simp
    | some v =>
        have hfits := h.fits hr _ (mem_of_findMember hv)
        simp only [FieldType.fits, hf, Bool.and_eq_true] at hfits
        simp only [Option.bind_some, condText_mem_keys hfits.1 hfits.2 hw, Option.some.injEq,
          exists_eq_left']
  ext found
  constructor
  · rintro ⟨o, ho, rfl⟩
    obtain ⟨label, r, hr, hslot, hmem⟩ := (hinv _ _).mp ho
    obtain ⟨v, hv, hmatch⟩ := (hkey label r hr).mp hmem
    exact ⟨label, ⟨r, v, hr, hv, hmatch⟩,
      (hindexed.vectors.getLabelByOffset_eq_some.mpr hslot).symm⟩
  · rintro ⟨label, ⟨r, v, hr, hv, hmatch⟩, rfl⟩
    obtain ⟨o, ho⟩ : ∃ o, M.vectors.offsetOf label = some o :=
      Option.ne_none_iff_exists'.mp fun hno => by
        rw [(hindexed.present label).mp hno] at hr
        cases hr
    exact ⟨o, (hinv _ _).mpr ⟨label, r, hr, ho, (hkey label r hr).mpr ⟨v, hv, hmatch⟩⟩,
      hindexed.vectors.getLabelByOffset_eq_some.mpr ho⟩

end

/-! ## Two runs -/

namespace Sample

def schema : AList (fun _ : Str => FieldType) :=
  (AList.singleton "color".toList FieldType.string).insert "tags".toList FieldType.listString

/-- A record with a color and tags -/
def record (color : String) (tags : List String) : Record Int where
  members := [.mk "color".toList (text color), .mk "tags".toList (.arr (tags.map text))]
  distinct := by simp [Member.name]
  clean := by simp [Member.name]

/-- One record, label 7 -/
def store (color : String) (tags : List String) : Call Int Unit := .add [(7, (), record color tags)]

/-- The index with this record only -/
def indexOf (color : String) (tags : List String) : IndexManager Int Unit :=
  (store color tags).exec (IndexManager.new Unit schema) fun _ => none

/-- `must(field, [key])` -/
def selected (M : IndexManager Int Unit) (field key : String) : Finset (Option Nat) :=
  (calcBitmap platform.regex M.scalar (.must field.toList [key.toList] (-1))).elems.image
    M.vectors.getLabelByOffset

/-- A color with a `;` is found under its halves and not under itself, an empty list
contains the empty string, and an empty tag beside another is lost. -/
theorem split_color_misfiled :
    selected (indexOf "a;b" []) "color" "a" = {some 7} ∧
    selected (indexOf "a;b" []) "color" "a;b" = ∅ ∧
    selected (indexOf "a;b" []) "tags" "" = {some 7} ∧
    selected (indexOf "c" ["", "d"]) "tags" "" = ∅ := by
  refine ⟨?_, ?_, ?_, ?_⟩ <;> decide +kernel

/-- Label 7 is red with the tags `x` and `y`, label 8 is blue with the tag `z`. -/
def storeTwo : Call Int Unit :=
  .add [(7, (), record "red" ["x", "y"]), (8, (), record "blue" ["z"])]

/-- The records of both -/
def twoRecords : Catalog Int := storeTwo.records fun _ => none

def indexOfTwo : IndexManager Int Unit := storeTwo.exec (IndexManager.new Unit schema) fun _ => none

theorem storeTwo_allowed : storeTwo.Allowed schema (IndexManager.new Unit schema) := by
  have hall : ([record "red" ["x", "y"], record "blue" ["z"]].all fun r =>
      r.members.all fun m => FieldType.fits schema m) = true := by decide
  exact ⟨by decide, fun r hr m hm => List.all_eq_true.mp (List.all_eq_true.mp hall r hr) m hm⟩

/-- The tag `x` selects the first record and not the second. -/
theorem red_tag_selected :
    selected indexOfTwo "tags" "x" = {some 7} ∧
    ∃ conds, loadConds [text "x"] false false = .ok conds ∧
      indexOfTwo.vectors.getLabelByOffset ''
          (calcBitmap platform.regex indexOfTwo.scalar (.must "tags".toList conds (-1))).elems =
        some '' { label | ∃ r v, twoRecords label = some r ∧
          r.field "tags".toList = some v ∧ v.Matches (text "x") } :=
  ⟨by decide +kernel, must_selects_matching platform.regex (History.start.call _ storeTwo_allowed)
    (show schema.lookup "tags".toList = some .listString by decide) rfl (-1)⟩

end Sample

end OpenViking.Index
