/-
# `OpenViking.Store.StoreManager` — candidates, deltas and expiry times

`store/store_manager.py`, over the three tables of `store/local_store.py`.  The
keys are decimal strings: labels in the candidates table, times in the other
two.  `begin_to_seek` stops before its key, `seek_to_end` starts at it, and both
go by the order of the strings.

Every function takes the clock readings it makes as arguments.  Rows are kept
decoded; vectors `V` (dense and sparse parts) and field texts `F` are any types,
and no field text is the empty text.
-/
import OpenViking.Lib.Text
import OpenViking.Lib.OrderedTable
import Mathlib.Data.Option.Basic

namespace OpenViking.Store

open OpenViking.Lib

/-- `CandidateData`; `expire_ns_ts` is 0 for a record that does not expire. -/
structure CandidateData (V F : Type) where
  label : Nat
  vector : V
  fields : F
  expireNs : Nat
  deriving DecidableEq, Repr

/-- `DeltaRecord`; a deletion has neither vector nor fields. -/
inductive DeltaRecord (V F : Type)
  | upsert (label : Nat) (vector : V) (fields : F) (oldFields : Option F)
  | delete (label : Nat) (oldFields : Option F)
  deriving DecidableEq, Repr

/-- The tables `C`, `D` and `T` of the store -/
structure StoreManager (V F : Type) where
  cands : Table Str (CandidateData V F)
  delta : Table Str (DeltaRecord V F)
  ttl : Table Str Str

variable {V F : Type}

def DeltaRecord.label : DeltaRecord V F → Nat
  | upsert label _ _ _ => label
  | delete label _ => label

namespace StoreManager

def empty : StoreManager V F := ⟨.empty, .empty, .empty⟩

variable (s : StoreManager V F)

/-- `fetch_cands_data`, one label -/
def fetchCand (label : Nat) : Option (CandidateData V F) := s.cands.find (decimalNat label)

/-- `fetch_cands_fields`, and the first lines of `add_cands_data` and `delete_data` -/
def fetchCandsFields (labels : List Nat) : List (Option F) :=
  labels.map fun label => (s.fetchCand label).map (·.fields)

/-- The rows of a delta batch: the base time, counted up. -/
def deltaRows (baseTs : Nat) (deltas : List (DeltaRecord V F)) : List (Str × DeltaRecord V F) :=
  deltas.zipIdx.map fun d => (decimalNat (baseTs + d.2), d.1)

/-! ## Writing -/

/-- The deltas of `add_cands_data` -/
def upsertDeltas (cands : List (CandidateData V F)) (oldFields : List (Option F)) :
    List (DeltaRecord V F) :=
  cands.zipWith (fun c old => .upsert c.label c.vector c.fields old) oldFields

/-- `data.expire_ns_ts = expire_ns`, if there is a time to live -/
def withExpiry (ttl : Int) (now : Nat) (c : CandidateData V F) : CandidateData V F :=
  if 0 < ttl then { c with expireNs := now + ttl.toNat * 10 ^ 9 } else c

/-- The batch of `add_cands_data`: deltas, candidates and, with a time to live,
one row per candidate under its expiry time. -/
def addBatch (deltas : List (DeltaRecord V F)) (baseTs : Nat) (cands : List (CandidateData V F))
    (ttl : Int) : StoreManager V F where
  cands := s.cands.putAll (cands.map fun c => (decimalNat c.label, c))
  delta := s.delta.putAll (deltaRows baseTs deltas)
  ttl := if 0 < ttl then
      s.ttl.putAll (cands.map fun c => (decimalNat c.expireNs, decimalNat c.label))
    else s.ttl

/-- `add_cands_data` -/
def addCandsData (cands : List (CandidateData V F)) (ttl : Int) (needDelta : Bool)
    (baseTs now : Nat) : List (DeltaRecord V F) × StoreManager V F :=
  let deltas :=
    if needDelta then upsertDeltas cands (s.fetchCandsFields (cands.map (·.label))) else []
  (deltas, s.addBatch deltas baseTs (cands.map (withExpiry ttl now)) ttl)

/-- The deltas of `delete_data` -/
def deleteDeltas (labels : List Nat) (oldFields : List (Option F)) : List (DeltaRecord V F) :=
  labels.zipWith DeltaRecord.delete oldFields

/-- The batch of `delete_data` -/
def deleteBatch (deltas : List (DeltaRecord V F)) (baseTs : Nat) (labels : List Nat) :
    StoreManager V F :=
  { s with
    cands := s.cands.eraseAll (labels.map decimalNat)
    delta := s.delta.putAll (deltaRows baseTs deltas) }

/-- `delete_data` -/
def deleteData (labels : List Nat) (needDelta : Bool) (baseTs : Nat) :
    List (DeltaRecord V F) × StoreManager V F :=
  let deltas := if needDelta then deleteDeltas labels (s.fetchCandsFields labels) else []
  (deltas, s.deleteBatch deltas baseTs labels)

/-! ## Expiry -/

/-- `begin_to_seek(str(now))` on the expiry table -/
def dueRows (now : Nat) : List (Str × Str) := s.ttl.below (decimalNat now)

/-- The records of some rows that are expired at `now`; a record without an expiry
time, which is 0, is as well. -/
def expiredAmong (rows : List (Str × Str)) (now : Nat) : List (CandidateData V F) :=
  (rows.filterMap fun row => s.cands.find row.2).filter (·.expireNs ≤ now)

/-- The deltas for some expired records -/
def removalDeltas (expired : List (CandidateData V F)) : List (DeltaRecord V F) :=
  expired.map fun c => .delete c.label (some c.fields)

/-- The batch of `expire_data`: the expired records and the rows that were read go. -/
def removalBatch (expired : List (CandidateData V F)) (rows : List (Str × Str)) (baseTs : Nat) :
    StoreManager V F where
  cands := s.cands.eraseAll (expired.map fun c => decimalNat c.label)
  delta := s.delta.putAll (deltaRows baseTs (removalDeltas expired))
  ttl := s.ttl.eraseAll (rows.map Prod.fst)

/-- What `expire_data` finds expired -/
def expiredCands (now : Nat) : List (CandidateData V F) := s.expiredAmong (s.dueRows now) now

/-- The deltas of `expire_data` -/
def expireDeltas (now : Nat) : List (DeltaRecord V F) := removalDeltas (s.expiredCands now)

/-- The store after `expire_data` -/
def expireBatch (now baseTs : Nat) : StoreManager V F :=
  s.removalBatch (s.expiredCands now) (s.dueRows now) baseTs

/-- `expire_data` -/
def expireData (now baseTs : Nat) : List (DeltaRecord V F) × StoreManager V F :=
  (s.expireDeltas now, s.expireBatch now baseTs)

/-! ## What the batches leave -/

variable {s}

@[simp] theorem label_withExpiry (ttl : Int) (now : Nat) (c : CandidateData V F) :
    (withExpiry ttl now c).label = c.label := by
  unfold withExpiry
  split <;> rfl

theorem fetchCand_deleteBatch {deltas : List (DeltaRecord V F)} {baseTs label : Nat}
    {labels : List Nat} :
    (s.deleteBatch deltas baseTs labels).fetchCand label =
      if label ∈ labels then none else s.fetchCand label := by
  have hmem : decimalNat label ∈ labels.map decimalNat ↔ label ∈ labels := by
    simp [decimalNat_inj]
  simp only [fetchCand, deleteBatch, Table.find_eraseAll, hmem]

theorem fetchCand_removalBatch {expired : List (CandidateData V F)} {rows : List (Str × Str)}
    {baseTs label : Nat} :
    (s.removalBatch expired rows baseTs).fetchCand label =
      if label ∈ (removalDeltas expired).map DeltaRecord.label then none
      else s.fetchCand label := by
  have hmem : decimalNat label ∈ expired.map (fun c => decimalNat c.label) ↔
      label ∈ (removalDeltas expired).map DeltaRecord.label := by
    simp [removalDeltas, decimalNat_inj, DeltaRecord.label]
  simp only [fetchCand, removalBatch, Table.find_eraseAll, hmem]

/-- The last candidate of a batch with the label counts. -/
theorem fetchCand_addBatch {deltas : List (DeltaRecord V F)} {baseTs label : Nat}
    {cands : List (CandidateData V F)} {ttl : Int} :
    (s.addBatch deltas baseTs cands ttl).fetchCand label =
      (cands.reverse.find? (·.label = label)).or (s.fetchCand label) := by
  simp only [fetchCand, addBatch, Table.find_putAll, ← List.map_reverse, List.find?_map,
    Option.map_map]
  congr 1
  simp only [Function.comp_def, decimalNat_inj, Option.map_id_fun', id_eq]

theorem fetchCand_addBatch_of_mem (s : StoreManager V F) (deltas : List (DeltaRecord V F))
    (baseTs : Nat) (ttl : Int) {cands : List (CandidateData V F)} {label : Nat}
    (h : label ∈ cands.map (·.label)) :
    ∃ c ∈ cands, c.label = label ∧
      (s.addBatch deltas baseTs cands ttl).fetchCand label = some c := by
  obtain ⟨c, hc, rfl⟩ := List.mem_map.mp h
  obtain ⟨last, hlast⟩ : ∃ last, cands.reverse.find? (·.label = c.label) = some last :=
    Option.isSome_iff_exists.mp
      (List.find?_isSome.mpr ⟨c, List.mem_reverse.mpr hc, decide_eq_true rfl⟩)
  refine ⟨last, List.mem_reverse.mp (List.mem_of_find?_eq_some hlast), ?_, ?_⟩
  · simpa using List.find?_some hlast
  · rw [fetchCand_addBatch, hlast]
    rfl

theorem fetchCand_addBatch_of_notMem {deltas : List (DeltaRecord V F)} {baseTs label : Nat}
    {cands : List (CandidateData V F)} {ttl : Int} (h : label ∉ cands.map (·.label)) :
    (s.addBatch deltas baseTs cands ttl).fetchCand label = s.fetchCand label := by
  have hnone : cands.reverse.find? (·.label = label) = none :=
    List.find?_eq_none.mpr fun c hc => by
      have hne : c.label ≠ label := fun he =>
        h (he ▸ List.mem_map_of_mem (List.mem_reverse.mp hc))
      simpa using hne
  rw [fetchCand_addBatch, hnone]
  rfl

end StoreManager

end OpenViking.Store

/-! ## The calls of a collection on its store

`upsert_data`, `update_data`, `delete_data` and `_expire_timeout_data` of
`collection/local_collection.py`, up to the deltas they hand to the indexes.
What is done to a record on its way to the store and back is a parameter
(`RecordFormat`); a record that is rejected makes the call raise before anything
is written.

Every call makes two clock readings in the store that matter: the first is the
base time of the deltas or, for an expiry, `now`; the second is the time the
expiry of new records is counted from or, for an expiry, the base time.  The
expiry `_write_data_list` sets on its own is overwritten. -/

namespace OpenViking.Store

open OpenViking.Lib

/-- What the collection knows about records -/
structure RecordFormat (Raw V F : Type) where
  /-- `validate_and_process`; none raises -/
  process : Raw → Option Raw
  /-- the label a record is stored under; none raises -/
  label : Raw → Option Nat
  /-- the label of the primary key, which an update has to give -/
  primaryLabel : Raw → Option Nat
  vector : Raw → V
  fields : Raw → F
  /-- the record `fetch_data` makes of a row -/
  load : V → F → Raw
  /-- `merged = dict(existing)`, `merged.update(raw)` -/
  merge : Raw → Raw → Raw

/-- A call of the collection -/
inductive Call (Raw : Type)
  | upsert (raws : List Raw) (ttl : Int)
  | update (raws : List Raw)
  | delete (labels : List Nat)
  | expire

variable {Raw V F : Type} (fmt : RecordFormat Raw V F) (s : StoreManager V F)

/-- A row of `cands_list` -/
def toCand (raw : Raw) : Option (CandidateData V F) :=
  (fmt.label raw).map fun label => ⟨label, fmt.vector raw, fmt.fields raw, 0⟩

/-- The candidates `upsert_data` writes -/
def upsertCands (raws : List Raw) : Option (List (CandidateData V F)) := do
  let processed ← raws.mapM fmt.process
  processed.mapM (toCand fmt)

/-- `fetch_data`, one record; none is one that does not exist. -/
def fetchRaw (label : Nat) : Option Raw :=
  (s.fetchCand label).map fun c => fmt.load c.vector c.fields

/-- The candidates `update_data` writes: every record has to be there. -/
def updateCands (raws : List Raw) : Option (List (CandidateData V F)) := do
  let labels ← raws.mapM fmt.primaryLabel
  let existing ← labels.mapM (fetchRaw fmt s)
  upsertCands fmt (existing.zipWith fmt.merge raws)

/-- `_write_data_list`, if no record was rejected -/
def writeCands (cands : Option (List (CandidateData V F))) (ttl : Int) (needDelta : Bool)
    (t₁ t₂ : Nat) : List (DeltaRecord V F) × StoreManager V F :=
  match cands with
  | some cands => s.addCandsData cands ttl needDelta t₁ t₂
  | none => ([], s)

/-- What a call writes, if it does, and the time to live -/
def Call.cands : Call Raw → Option (List (CandidateData V F)) × Int
  | .upsert raws ttl => (upsertCands fmt raws, ttl)
  | .update raws => (updateCands fmt s raws, 0)
  | _ => (some [], 0)

/-- The deltas of a call and the store after it -/
def Call.exec (needDelta : Bool) (t₁ t₂ : Nat) :
    Call Raw → List (DeltaRecord V F) × StoreManager V F
  | .upsert raws ttl => writeCands s (upsertCands fmt raws) ttl needDelta t₁ t₂
  | .update raws => writeCands s (updateCands fmt s raws) 0 needDelta t₁ t₂
  | .delete labels => s.deleteData labels needDelta t₁
  | .expire => s.expireData t₁ t₂

theorem getElem?_mapM {A B : Type} {f : A → Option B} {l : List A} {l' : List B}
    (h : l.mapM f = some l') (i : Nat) : l'[i]? = l[i]?.bind f := by
  induction l generalizing l' i with
  | nil =>
      cases h
      rfl
  | cons a l ih =>
      rw [List.mapM_cons] at h
      obtain ⟨b, hb, h⟩ := Option.bind_eq_some_iff.mp h
      obtain ⟨bs, hbs, h⟩ := Option.bind_eq_some_iff.mp h
      cases h
      cases i with
      | zero => exact hb.symm
      | succ i => exact ih hbs i

theorem exists_of_mem_mapM {A B : Type} {f : A → Option B} {l : List A} {l' : List B}
    (h : l.mapM f = some l') : ∀ b ∈ l', ∃ a ∈ l, f a = some b := by
  intro b hb
  obtain ⟨i, hi⟩ := List.mem_iff_getElem?.mp hb
  rw [getElem?_mapM h] at hi
  obtain ⟨a, ha, hfa⟩ := Option.bind_eq_some_iff.mp hi
  exact ⟨a, List.mem_of_getElem? ha, hfa⟩

/-- A new candidate has no expiry time yet. -/
theorem expireNs_upsertCands {raws : List Raw} {cands : List (CandidateData V F)}
    (h : upsertCands fmt raws = some cands) : ∀ c ∈ cands, c.expireNs = 0 := by
  obtain ⟨processed, -, h⟩ := Option.bind_eq_some_iff.mp h
  intro c hc
  obtain ⟨raw, -, hraw⟩ := exists_of_mem_mapM h c hc
  obtain ⟨label, -, rfl⟩ := Option.map_eq_some_iff.mp hraw
  rfl

theorem expireNs_updateCands {raws : List Raw} {cands : List (CandidateData V F)}
    (h : updateCands fmt s raws = some cands) : ∀ c ∈ cands, c.expireNs = 0 := by
  obtain ⟨labels, -, h⟩ := Option.bind_eq_some_iff.mp h
  obtain ⟨existing, -, h⟩ := Option.bind_eq_some_iff.mp h
  exact expireNs_upsertCands fmt h

end OpenViking.Store
