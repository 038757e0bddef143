/-
# `OpenViking.Store.Expiry` — what an expiry removes

An expiry time stands in the record and in a row of the table `T`, whose key is
the time itself and whose value is the label.  Rewriting a record does not touch
its old row, and the rows of one batch have one key.

So an expiry removes what it should (`expireData_exact`) along the histories in
which a label with a row in `T` is not written, records with a time to live are
written one at a time and at different expiry times, and, at every expiry, the
keys of `T` have as many digits as the time and none of them is the time itself
(`Allowed`).  Outside of them it does not: `Sample`.
-/
import OpenViking.Store.StoreManager

namespace OpenViking.Store

open OpenViking.Lib

section

variable {Raw V F : Type} (fmt : RecordFormat Raw V F)

/-! ## Histories -/

/-- The candidates a call writes, with their expiry times -/
def Call.writes (s : StoreManager V F) (t₂ : Nat) (call : Call Raw) : List (CandidateData V F) :=
  match call.cands fmt s with
  | (some cands, ttl) => cands.map (StoreManager.withExpiry ttl t₂)
  | (none, _) => []

/-- The expiry times after some writes, by label -/
def recordWrites (last : Nat → Option Nat) (cands : List (CandidateData V F)) : Nat → Option Nat :=
  cands.foldl (fun last c => Function.update last c.label (some c.expireNs)) last

/-- A call at two clock readings under which the rows of `T` stay in step with the
records -/
structure Allowed (s : StoreManager V F) (call : Call Raw) (t₁ t₂ : Nat) : Prop where
  /-- no label that is written has a row -/
  settled : ∀ c ∈ call.writes fmt s t₂, ∀ row ∈ s.ttl.entries, row.2 ≠ decimalNat c.label
  /-- one record is written at a time, if it expires, and no other expires with it -/
  single : ∀ c ∈ call.writes fmt s t₂, 0 < c.expireNs →
    (∀ c' ∈ call.writes fmt s t₂, c'.label = c.label) ∧
      s.ttl.find (decimalNat c.expireNs) = none
  /-- an expiry compares times of one length, none of them its own -/
  due : call matches .expire → ∀ row ∈ s.ttl.entries,
    row.1.length = (decimalNat t₁).length ∧ row.1 ≠ decimalNat t₁

/-- A store after some allowed calls, and the expiry time the latest write gave to
each label.  Whether deltas are recorded, and what the clock shows, may change
from call to call. -/
inductive History : StoreManager V F → (Nat → Option Nat) → Prop
  | start : History .empty fun _ => none
  | call {s : StoreManager V F} {last : Nat → Option Nat} (h : History s last) (call : Call Raw)
      (needDelta : Bool) (t₁ t₂ : Nat) (hcall : Allowed fmt s call t₁ t₂) :
      History (call.exec fmt s needDelta t₁ t₂).2 (recordWrites last (call.writes fmt s t₂))

/-! ## Records and rows in step -/

/-- Every record that expires has its row, and a row is for the record of its
label, if that is still there. -/
structure Tracked (s : StoreManager V F) (last : Nat → Option Nat) : Prop where
  key : ∀ k c, s.cands.find k = some c → k = decimalNat c.label
  latest : ∀ label c, s.fetchCand label = some c → last label = some c.expireNs
  row : ∀ label c, s.fetchCand label = some c → 0 < c.expireNs →
    s.ttl.find (decimalNat c.expireNs) = some (decimalNat label)
  only : ∀ k v, s.ttl.find k = some v → ∃ e label, k = decimalNat e ∧ v = decimalNat label ∧
    0 < e ∧ ∀ c, s.fetchCand label = some c → c.expireNs = e
  once : ∀ k k' v, s.ttl.find k = some v → s.ttl.find k' = some v → k = k'

/-- The rows an expiry reads are those of the times up to its own. -/
theorem mem_dueRows {s : StoreManager V F} {now e : Nat} {v : Str}
    (hdue : ∀ row ∈ s.ttl.entries, row.1.length = (decimalNat now).length ∧
      row.1 ≠ decimalNat now) :
    (decimalNat e, v) ∈ s.dueRows now ↔ s.ttl.find (decimalNat e) = some v ∧ e ≤ now := by
  rw [StoreManager.dueRows, Table.mem_below, Table.find_eq_some]
  refine and_congr_right fun hmem => ?_
  obtain ⟨hlen, hne⟩ := hdue _ hmem
  rw [decimalNat_lt_iff hlen, Nat.lt_iff_le_and_ne]
  exact and_iff_left fun he => hne (congrArg decimalNat he)

namespace Tracked

variable {s : StoreManager V F} {last : Nat → Option Nat}

theorem empty : Tracked (.empty : StoreManager V F) fun _ => none :=
  ⟨nofun, nofun, nofun, nofun, nofun⟩

theorem label_eq (h : Tracked s last) {label : Nat} {c : CandidateData V F}
    (hc : s.fetchCand label = some c) : c.label = label :=
  (decimalNat_inj.mp (h.key _ _ hc)).symm

theorem mem_expiredCands (h : Tracked s last) {now : Nat} {c : CandidateData V F}
    (hdue : ∀ row ∈ s.ttl.entries, row.1.length = (decimalNat now).length ∧
      row.1 ≠ decimalNat now) :
    c ∈ s.expiredCands now ↔
      s.fetchCand c.label = some c ∧ 0 < c.expireNs ∧ c.expireNs ≤ now := by
  simp only [StoreManager.expiredCands, StoreManager.expiredAmong, List.mem_filter,
    List.mem_filterMap, decide_eq_true_eq]
  constructor
  · rintro ⟨⟨⟨k, v⟩, hrow, hc⟩, hle⟩
    have hfind := Table.find_of_mem (Table.mem_below.mp hrow).1
    obtain ⟨e, label, rfl, rfl, hpos, hrec⟩ := h.only _ _ hfind
    have hlabel := h.label_eq hc
    refine ⟨hlabel ▸ hc, ?_, hle⟩
    rw [hrec c hc]
    exact hpos
  · rintro ⟨hc, hpos, hle⟩
    refine ⟨⟨(decimalNat c.expireNs, decimalNat c.label), ?_, hc⟩, hle⟩
    exact (mem_dueRows hdue).mpr ⟨h.row _ _ hc hpos, hle⟩

/-- The candidates found for some rows have the labels of the rows. -/
theorem sublist_filterMap (h : Tracked s last) (rows : List (Str × Str)) :
    ((rows.filterMap fun row => s.cands.find row.2).map fun c => decimalNat c.label).Sublist
      (rows.map Prod.snd) := by
  induction rows with
  | nil => exact List.Sublist.slnil
  | cons row rows ih =>
      cases hc : s.cands.find row.2 with
      | none =>
          simp only [List.filterMap_cons, hc]
          exact ih.cons _
      | some c =>
          simp only [List.filterMap_cons, hc, List.map_cons, ← h.key _ _ hc]
          exact ih.cons_cons _

theorem nodup_expired (h : Tracked s last) (now : Nat) :
    ((s.expiredCands now).map (·.label)).Nodup := by
  have hrows : ((s.dueRows now).map Prod.snd).Nodup := by
    have hkeys : (s.dueRows now).Nodup :=
      (List.Nodup.of_map Prod.fst s.ttl.nodup_keys).filter _
    refine hkeys.map_on ?_
    intro r hr r' hr' he
    have hfind := Table.find_of_mem (Table.mem_below.mp hr).1
    have hfind' := Table.find_of_mem (Table.mem_below.mp hr').1
    exact Prod.ext (h.once _ _ _ hfind (he ▸ hfind')) he
  refine List.Nodup.of_map decimalNat ?_
  rw [List.map_map]
  exact hrows.sublist (((List.filter_sublist.map _).trans (h.sublist_filterMap _)))

/-! ## Each call keeps them in step -/

theorem deleteBatch (h : Tracked s last) (deltas : List (DeltaRecord V F)) (baseTs : Nat)
    (labels : List Nat) : Tracked (s.deleteBatch deltas baseTs labels) last := by
  have hsub : ∀ label c, (s.deleteBatch deltas baseTs labels).fetchCand label = some c →
      s.fetchCand label = some c := by
    intro label c hc
    rw [StoreManager.fetchCand_deleteBatch] at hc
    split at hc
    · cases hc
    · exact hc
  refine ⟨fun k c hc => ?_, fun l c hc => h.latest l c (hsub l c hc),
    fun l c hc => h.row l c (hsub l c hc), fun k v hv => ?_, h.once⟩
  · simp only [StoreManager.deleteBatch, Table.find_eraseAll] at hc
    split at hc
    · cases hc
    · exact h.key k c hc
  · obtain ⟨e, label, hk, hv, hpos, hrec⟩ := h.only k v hv
    exact ⟨e, label, hk, hv, hpos, fun c hc => hrec c (hsub label c hc)⟩

theorem expireBatch (h : Tracked s last) {now : Nat} (baseTs : Nat)
    (hdue : ∀ row ∈ s.ttl.entries, row.1.length = (decimalNat now).length ∧
      row.1 ≠ decimalNat now) :
    Tracked (s.expireBatch now baseTs) last := by
  have hsub : ∀ label c, (s.expireBatch now baseTs).fetchCand label = some c →
      s.fetchCand label = some c ∧ c ∉ s.expiredCands now := by
    intro label c hc
    rw [StoreManager.expireBatch, StoreManager.fetchCand_removalBatch] at hc
    split at hc
    · cases hc
    · next hno =>
        refine ⟨hc, fun hexp => hno ?_⟩
        rw [StoreManager.removalDeltas, List.map_map]
        exact h.label_eq hc ▸ List.mem_map_of_mem hexp
  have hrows : ∀ k v, (s.expireBatch now baseTs).ttl.find k = some v →
      s.ttl.find k = some v := by
    intro k v hv
    simp only [StoreManager.expireBatch, StoreManager.removalBatch, Table.find_eraseAll] at hv
    split at hv
    · cases hv
    · exact hv
  refine ⟨fun k c hc => ?_, fun l c hc => h.latest l c (hsub l c hc).1, fun l c hc hpos => ?_,
    fun k v hv => ?_, fun k k' v hv hv' => h.once k k' v (hrows k v hv) (hrows k' v hv')⟩
  · simp only [StoreManager.expireBatch, StoreManager.removalBatch, Table.find_eraseAll] at hc
    split at hc
    · cases hc
    · exact h.key k c hc
  · obtain ⟨hc, hkept⟩ := hsub l c hc
    have hrow := h.row l c hc hpos
    -- a row that was read would have removed the record
    have hno : decimalNat c.expireNs ∉ (s.dueRows now).map Prod.fst := by
      rintro hmem
      obtain ⟨⟨k, v⟩, hdue', rfl⟩ := List.mem_map.mp hmem
      refine hkept ((h.mem_expiredCands hdue).mpr ⟨(h.label_eq hc).symm ▸ hc, hpos, ?_⟩)
      exact ((mem_dueRows hdue).mp hdue').2
    simp only [StoreManager.expireBatch, StoreManager.removalBatch, Table.find_eraseAll, if_neg hno]
    exact hrow
  · obtain ⟨e, label, hk, hv, hpos, hrec⟩ := h.only k v (hrows k v hv)
    exact ⟨e, label, hk, hv, hpos, fun c hc => hrec c (hsub label c hc).1⟩

theorem find_recordWrites {cands : List (CandidateData V F)} {label : Nat} :
    recordWrites last cands label =
      ((cands.reverse.find? (·.label = label)).map (·.expireNs)).or (last label) := by
  unfold recordWrites
  induction cands generalizing last with
  | nil => simp
  | cons c cands ih =>
      rw [List.foldl_cons, ih, List.reverse_cons, List.find?_append, Function.update_apply]
      cases cands.reverse.find? (·.label = label) with
      | some found => simp
      | none =>
          by_cases hl : label = c.label
          · simp [hl]
          · simp [hl, Ne.symm hl]

/-- A batch of records that all expire at `e`, which is 0 if they do not. -/
theorem addBatch (h : Tracked s last) (deltas : List (DeltaRecord V F)) (baseTs : Nat)
    {cands : List (CandidateData V F)} {ttl : Int} {e : Nat}
    (he : ∀ c ∈ cands, c.expireNs = e) (hpos : 0 < ttl ↔ 0 < e)
    (settled : ∀ c ∈ cands, ∀ row ∈ s.ttl.entries, row.2 ≠ decimalNat c.label)
    (single : ∀ c ∈ cands, 0 < c.expireNs →
      (∀ c' ∈ cands, c'.label = c.label) ∧ s.ttl.find (decimalNat c.expireNs) = none) :
    Tracked (s.addBatch deltas baseTs cands ttl) (recordWrites last cands) := by
  -- a row of the new table is new, or old and not for a label of the batch
  have hrows : ∀ k v, (s.addBatch deltas baseTs cands ttl).ttl.find k = some v →
      (0 < e ∧ k = decimalNat e ∧ ∃ c ∈ cands, v = decimalNat c.label) ∨
        (s.ttl.find k = some v ∧ ∀ c ∈ cands, v ≠ decimalNat c.label) := by
    intro k v hv
    have hold : s.ttl.find k = some v → ∀ c ∈ cands, v ≠ decimalNat c.label := fun hfind c hc =>
      settled c hc _ (Table.find_eq_some.mp hfind)
    simp only [StoreManager.addBatch] at hv
    split at hv
    · next hlt =>
        rcases Table.find_putAll_eq_some hv with hmem | hfind
        · obtain ⟨c, hc, heq⟩ := List.mem_map.mp hmem
          cases heq
          exact .inl ⟨hpos.mp hlt, by rw [he c hc], c, hc, rfl⟩
        · exact .inr ⟨hfind, hold hfind⟩
    · exact .inr ⟨hv, hold hv⟩
  refine ⟨fun k c hc => ?_, fun l c hc => ?_, fun l c hc hexp => ?_, fun k v hv => ?_,
    fun k k' v hv hv' => ?_⟩
  · rcases Table.find_putAll_eq_some hc with hmem | hfind
    · obtain ⟨c', -, heq⟩ := List.mem_map.mp hmem
      cases heq
      rfl
    · exact h.key k c hfind
  · rw [StoreManager.fetchCand_addBatch] at hc
    rw [find_recordWrites]
    cases hf : cands.reverse.find? (·.label = l) with
    | none =>
        rw [hf] at hc
        exact h.latest l c hc
    | some c' =>
        rw [hf] at hc
        cases hc
        rfl
  · by_cases hl : l ∈ cands.map (·.label)
    · obtain ⟨c', hc', rfl, hfetch⟩ := s.fetchCand_addBatch_of_mem deltas baseTs ttl hl
      cases hc.symm.trans hfetch
      have hpos' : 0 < ttl := hpos.mpr (he c hc' ▸ hexp)
      simp only [StoreManager.addBatch, if_pos hpos']
      refine Table.find_putAll_of_mem (List.mem_map_of_mem hc') fun row hrow _ => ?_
      obtain ⟨c'', hc'', rfl⟩ := List.mem_map.mp hrow
      exact congrArg decimalNat ((single c hc' hexp).1 c'' hc'')
    · rw [StoreManager.fetchCand_addBatch_of_notMem hl] at hc
      have hrow := h.row l c hc hexp
      simp only [StoreManager.addBatch]
      split
      · next hlt =>
          rw [Table.find_putAll_of_notMem]
          · exact hrow
          · intro row hmem hkey
            obtain ⟨c', hc', rfl⟩ := List.mem_map.mp hmem
            have hkey : decimalNat c'.expireNs = decimalNat c.expireNs := hkey
            have hnone := (single c' hc' (he c' hc' ▸ hpos.mp hlt)).2
            rw [hkey, hrow] at hnone
            cases hnone
      · exact hrow
  · rcases hrows k v hv with ⟨hpos', rfl, c, hc, rfl⟩ | ⟨hfind, hother⟩
    · refine ⟨e, c.label, rfl, rfl, hpos', fun c' hc' => ?_⟩
      obtain ⟨c'', hc'', -, hfetch⟩ := s.fetchCand_addBatch_of_mem deltas baseTs ttl
        (List.mem_map_of_mem (f := (·.label)) hc)
      cases hc'.symm.trans hfetch
      exact he c' hc''
    · obtain ⟨e', label, hk, rfl, hpos', hrec⟩ := h.only k v hfind
      refine ⟨e', label, hk, rfl, hpos', fun c hc => hrec c ?_⟩
      rwa [StoreManager.fetchCand_addBatch_of_notMem] at hc
      rintro hmem
      obtain ⟨c', hc', rfl⟩ := List.mem_map.mp hmem
      exact hother c' hc' rfl
  · rcases hrows k v hv with ⟨-, rfl, c, hc, rfl⟩ | ⟨hfind, hother⟩
    · rcases hrows k' _ hv' with ⟨-, rfl, -⟩ | ⟨-, hother⟩
      · rfl
      · exact absurd rfl (hother c hc)
    · rcases hrows k' v hv' with ⟨-, -, c, hc, rfl⟩ | ⟨hfind', -⟩
      · exact absurd rfl (hother c hc)
      · exact h.once k k' v hfind hfind'

/-- A write of new candidates, or nothing if one was rejected. -/
theorem writeCands (h : Tracked s last) {cands : Option (List (CandidateData V F))} {ttl : Int}
    (needDelta : Bool) (t₁ t₂ : Nat)
    (hnew : ∀ cs, cands = some cs → ∀ c ∈ cs, c.expireNs = 0)
    (settled : ∀ cs, cands = some cs → ∀ c ∈ cs.map (StoreManager.withExpiry ttl t₂),
      ∀ row ∈ s.ttl.entries, row.2 ≠ decimalNat c.label)
    (single : ∀ cs, cands = some cs → ∀ c ∈ cs.map (StoreManager.withExpiry ttl t₂),
      0 < c.expireNs → (∀ c' ∈ cs.map (StoreManager.withExpiry ttl t₂), c'.label = c.label) ∧
        s.ttl.find (decimalNat c.expireNs) = none) :
    Tracked (Store.writeCands s cands ttl needDelta t₁ t₂).2
      (recordWrites last
        ((cands.getD []).map (StoreManager.withExpiry ttl t₂))) := by
  cases cands with
  | none => exact h
  | some cs =>
      refine h.addBatch (e := if 0 < ttl then t₂ + ttl.toNat * 10 ^ 9 else 0) _ t₁ ?_ ?_
        (settled cs rfl) (single cs rfl)
      · intro c hc
        obtain ⟨c', hc', rfl⟩ := List.mem_map.mp hc
        unfold StoreManager.withExpiry
        split
        · rfl
        · exact hnew cs rfl c' hc'
      · split
        · next hpos =>
            have : 0 < ttl.toNat * 10 ^ 9 := Nat.mul_pos (by omega) (by decide)
            exact iff_of_true hpos (by omega)
        · next hneg => exact iff_of_false hneg (lt_irrefl 0)

theorem exec (h : Tracked s last) {call : Call Raw} {t₁ t₂ : Nat}
    (hcall : Allowed fmt s call t₁ t₂) (needDelta : Bool) :
    Tracked (call.exec fmt s needDelta t₁ t₂).2
      (recordWrites last (call.writes fmt s t₂)) := by
  obtain ⟨settled, single, due⟩ := hcall
  cases call with
  | upsert raws ttl =>
      have hwrites : (Call.upsert raws ttl).writes fmt s t₂ =
          ((upsertCands fmt raws).getD []).map (StoreManager.withExpiry ttl t₂) := by
        simp only [Call.writes, Call.cands]
        cases upsertCands fmt raws <;> rfl
      rw [hwrites] at settled single ⊢
      refine h.writeCands needDelta t₁ t₂ (fun cs hcs => expireNs_upsertCands fmt hcs) ?_ ?_
      · intro cs hcs
        rwa [hcs] at settled
      · intro cs hcs
        rwa [hcs] at single
  | update raws =>
      have hwrites : (Call.update raws).writes fmt s t₂ =
          ((updateCands fmt s raws).getD []).map (StoreManager.withExpiry 0 t₂) := by
        simp only [Call.writes, Call.cands]
        cases updateCands fmt s raws <;> rfl
      rw [hwrites] at settled single ⊢
      refine h.writeCands needDelta t₁ t₂ (fun cs hcs => expireNs_updateCands fmt s hcs) ?_ ?_
      · intro cs hcs
        rwa [hcs] at settled
      · intro cs hcs
        rwa [hcs] at single
  | delete labels => exact h.deleteBatch _ t₁ labels
  | expire => exact h.expireBatch t₂ (due rfl)

end Tracked

theorem History.tracked {s : StoreManager V F} {last : Nat → Option Nat}
    (h : History fmt s last) : Tracked s last := by
  induction h with
  | start => exact Tracked.empty
  | call h call needDelta t₁ t₂ hcall ih => exact ih.exec fmt hcall needDelta

/-! ## The expiry -/

/-- After every history of allowed calls, an allowed expiry at `now` removes exactly
the records whose latest write gave them an expiry time in `(0, now]`, with one
delta for each, which carries the fields of the record. -/
theorem expireData_exact {s : StoreManager V F} {last : Nat → Option Nat}
    (h : History fmt s last) {now : Nat} (baseTs : Nat)
    (hnow : Allowed fmt s .expire now baseTs) :
    let deltas := (s.expireData now baseTs).1
    let s' := (s.expireData now baseTs).2
    (deltas.map DeltaRecord.label).Nodup ∧
      (∀ label, label ∈ deltas.map DeltaRecord.label ↔
        (s.fetchCand label).isSome ∧ ∃ e, last label = some e ∧ 0 < e ∧ e ≤ now) ∧
      (∀ d ∈ deltas, ∃ c, s.fetchCand d.label = some c ∧ d = .delete d.label (some c.fields)) ∧
      ∀ label, s'.fetchCand label =
        if label ∈ deltas.map DeltaRecord.label then none else s.fetchCand label := by
  have htracked := h.tracked fmt
  have hdue := hnow.due rfl
  have hlabels : (s.expireDeltas now).map DeltaRecord.label =
      (s.expiredCands now).map (·.label) := by
    rw [StoreManager.expireDeltas, StoreManager.removalDeltas, List.map_map]
    rfl
  refine ⟨?_, fun label => ?_, fun d hd => ?_, fun label => StoreManager.fetchCand_removalBatch⟩
  · exact hlabels ▸ htracked.nodup_expired now
  · change label ∈ (s.expireDeltas now).map DeltaRecord.label ↔ _
    rw [hlabels]
    constructor
    · intro hmem
      obtain ⟨c, hc, rfl⟩ := List.mem_map.mp hmem
      obtain ⟨hfetch, hpos, hle⟩ := (htracked.mem_expiredCands hdue).mp hc
      exact ⟨by rw [hfetch]; rfl, c.expireNs, htracked.latest _ _ hfetch, hpos, hle⟩
    · rintro ⟨hsome, e, hlast, hpos, hle⟩
      obtain ⟨c, hc⟩ := Option.isSome_iff_exists.mp hsome
      have hlabel := htracked.label_eq hc
      cases (htracked.latest _ _ hc).symm.trans hlast
      subst hlabel
      exact List.mem_map_of_mem ((htracked.mem_expiredCands hdue).mpr ⟨hc, hpos, hle⟩)
  · obtain ⟨c, hc, rfl⟩ := List.mem_map.mp hd
    exact ⟨c, ((htracked.mem_expiredCands hdue).mp hc).1, rfl⟩

end

/-! ## Runs -/

namespace Sample

/-- Records that are their label, with nothing to store -/
def format : RecordFormat Nat Unit Unit where
  process := some
  label := some
  primaryLabel := some
  vector := fun _ => ()
  fields := fun _ => ()
  load := fun _ _ => 0
  merge := fun _ raw => raw

/-- A time with 19 digits -/
def start : Nat := 5 * 10 ^ 18

/-- The calls one after the other, one second apart -/
def run (calls : List (Call Nat)) : StoreManager Unit Unit :=
  calls.zipIdx.foldl
    (fun s c => (c.1.exec format s true (start + c.2 * 10 ^ 9) (start + c.2 * 10 ^ 9)).2) .empty

/-- The labels an expiry an hour later removes, one for each delta -/
def removed (calls : List (Call Nat)) : List Nat :=
  ((run calls).expireData (start + 3600 * 10 ^ 9) (start + 3600 * 10 ^ 9)).1.map DeltaRecord.label

/-- Of two records of one batch the first stays; a record that was written again
without a time to live is removed; one that was written twice with a time to live
gives two deltas. -/
theorem expiry_misses_and_overreaches :
    removed [.upsert [1, 2] 1] = [2] ∧
    removed [.upsert [3] 1, .upsert [3] 0] = [3] ∧
    removed [.upsert [3] 1, .update [3]] = [3] ∧
    removed [.upsert [4] 1, .upsert [4] 1] = [4, 4] := by
  refine ⟨?_, ?_, ?_, ?_⟩ <;> decide +kernel

/-- Two records without a time to live, the first of them updated later, one with a second to
live, one with an hour, and one that is deleted before its time is over -/
def mixed : List (Call Nat) :=
  [.upsert [1, 5] 0, .upsert [3] 1, .upsert [4] 3600, .upsert [6] 2, .delete [6], .update [1]]

/-- The expiry times the latest writes of the calls gave -/
def lasts (calls : List (Call Nat)) : Nat → Option Nat :=
  (calls.zipIdx.foldl
    (fun s c => ((c.1.exec format s.1 true (start + c.2 * 10 ^ 9) (start + c.2 * 10 ^ 9)).2,
      recordWrites s.2 (c.1.writes format s.1 (start + c.2 * 10 ^ 9))))
    ((.empty : StoreManager Unit Unit), fun _ => none)).2

theorem history_mixed : History format (run mixed) (lasts mixed) :=
  History.start
    |>.call (.upsert [1, 5] 0) true (start + 0 * 10 ^ 9) (start + 0 * 10 ^ 9)
      ⟨by decide +kernel, by decide +kernel, nofun⟩
    |>.call (.upsert [3] 1) true (start + 1 * 10 ^ 9) (start + 1 * 10 ^ 9)
      ⟨by decide +kernel, by decide +kernel, nofun⟩
    |>.call (.upsert [4] 3600) true (start + 2 * 10 ^ 9) (start + 2 * 10 ^ 9)
      ⟨by decide +kernel, by decide +kernel, nofun⟩
    |>.call (.upsert [6] 2) true (start + 3 * 10 ^ 9) (start + 3 * 10 ^ 9)
      ⟨by decide +kernel, by decide +kernel, nofun⟩
    |>.call (.delete [6]) true (start + 4 * 10 ^ 9) (start + 4 * 10 ^ 9)
      ⟨by decide +kernel, by decide +kernel, nofun⟩
    |>.call (.update [1]) true (start + 5 * 10 ^ 9) (start + 5 * 10 ^ 9)
      ⟨by decide +kernel, by decide +kernel, nofun⟩

theorem three_expires :
    let now := start + 60 * 10 ^ 9
    let deltas := ((run mixed).expireData now start).1
    deltas.map DeltaRecord.label = [3] ∧
      (deltas.map DeltaRecord.label).Nodup ∧
      (∀ label, label ∈ deltas.map DeltaRecord.label ↔
        ((run mixed).fetchCand label).isSome ∧
          ∃ e, lasts mixed label = some e ∧ 0 < e ∧ e ≤ now) ∧
      (∀ d ∈ deltas, ∃ c, (run mixed).fetchCand d.label = some c ∧
        d = .delete d.label (some c.fields)) ∧
      ∀ label, ((run mixed).expireData now start).2.fetchCand label =
        if label ∈ deltas.map DeltaRecord.label then none else (run mixed).fetchCand label :=
  ⟨by decide +kernel, expireData_exact format history_mixed start
    ⟨by decide +kernel, by decide +kernel, fun _ => by decide +kernel⟩⟩

end Sample

end OpenViking.Store
