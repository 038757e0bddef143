/-
# `OpenViking.Store.Deltas` — what deltas say about the store

The content of the store is a vector and a field text for every label that is
there.  A delta list leads from one content to another (`effects`), and is proper
for the first if every delta carries the old fields of its label when its turn
comes (`ProperAll`).

A call of the store reads the old fields, makes its deltas and writes its batch.
What it makes is proper for the content it read, and the batch has the effects
of the deltas, if the labels of an upsert are different.  Both only depend on the
content of the labels concerned.
-/
import OpenViking.Store.StoreManager
import Mathlib.Logic.Function.Basic

namespace OpenViking.Store

open OpenViking.Lib

variable {V F : Type}

/-- Vectors and fields by label -/
abbrev Content (V F : Type) := Nat → Option (V × F)

/-- The content of the candidates table -/
def StoreManager.content (s : StoreManager V F) : Content V F := fun label =>
  (s.fetchCand label).map fun c => (c.vector, c.fields)

namespace DeltaRecord

/-- The content after a delta -/
def effect (c : Content V F) : DeltaRecord V F → Content V F
  | .upsert label vector fields _ => Function.update c label (some (vector, fields))
  | .delete label _ => Function.update c label none

/-- The old fields are those of the content; a deletion of nothing may carry any. -/
def Proper (c : Content V F) : DeltaRecord V F → Prop
  | .upsert label _ _ old => old = (c label).map Prod.snd
  | .delete label old => c label = none ∨ old = (c label).map Prod.snd

end DeltaRecord

/-- The content after some deltas -/
def effects (c : Content V F) (deltas : List (DeltaRecord V F)) : Content V F :=
  deltas.foldl DeltaRecord.effect c

/-- Each delta is proper when its turn comes. -/
def ProperAll : Content V F → List (DeltaRecord V F) → Prop
  | _, [] => True
  | c, d :: deltas => d.Proper c ∧ ProperAll (d.effect c) deltas

/-! ## Only the labels concerned matter -/

section

variable {c c' : Content V F} {d : DeltaRecord V F} {deltas : List (DeltaRecord V F)} {l : Nat}

theorem effect_of_ne (h : l ≠ d.label) : d.effect c l = c l := by
  cases d with
  | upsert label vector fields old => exact Function.update_of_ne h _ _
  | delete label old => exact Function.update_of_ne h _ _

theorem effect_congr (h : c l = c' l) : d.effect c l = d.effect c' l := by
  by_cases hl : l = d.label
  · subst hl
    cases d <;> simp [DeltaRecord.effect, DeltaRecord.label]
  · rw [effect_of_ne hl, effect_of_ne hl, h]

theorem effects_of_notMem (h : l ∉ deltas.map DeltaRecord.label) : effects c deltas l = c l := by
  induction deltas generalizing c with
  | nil => rfl
  | cons d deltas ih =>
      rw [List.map_cons, List.mem_cons, not_or] at h
      exact (ih h.2).trans (effect_of_ne h.1)

theorem effects_congr (h : c l = c' l) : effects c deltas l = effects c' deltas l := by
  induction deltas generalizing c c' with
  | nil => exact h
  | cons d deltas ih => exact ih (effect_congr h)

theorem Proper.congr (h : c d.label = c' d.label) (hd : d.Proper c) : d.Proper c' := by
  cases d with
  | upsert label vector fields old => exact hd.trans (congrArg _ h)
  | delete label old => exact hd.imp h.symm.trans fun ho => ho.trans (congrArg _ h)

theorem ProperAll.congr (h : ∀ l ∈ deltas.map DeltaRecord.label, c l = c' l)
    (hd : ProperAll c deltas) : ProperAll c' deltas := by
  induction deltas generalizing c c' with
  | nil => trivial
  | cons d deltas ih =>
      refine ⟨Proper.congr (h _ List.mem_cons_self) hd.1, ih (fun l hl => ?_) hd.2⟩
      exact effect_congr (h l (List.mem_cons_of_mem _ hl))

end

/-! ## The deltas of an upsert -/

namespace StoreManager

variable {s : StoreManager V F}

theorem fetchCandsFields_eq (s : StoreManager V F) (labels : List Nat) :
    s.fetchCandsFields labels = labels.map fun label => (s.content label).map Prod.snd := by
  refine List.map_congr_left fun label _ => ?_
  rw [content, Option.map_map]
  rfl

/-- The deltas made of the old fields in a content -/
theorem upsertDeltas_eq (cands : List (CandidateData V F)) :
    upsertDeltas cands (s.fetchCandsFields (cands.map (·.label))) =
      cands.map fun c => .upsert c.label c.vector c.fields ((s.content c.label).map Prod.snd) := by
  rw [fetchCandsFields_eq, List.map_map, upsertDeltas, List.zipWith_map_right, List.zipWith_self]
  rfl

theorem deleteDeltas_eq (labels : List Nat) :
    (deleteDeltas labels (s.fetchCandsFields labels) : List (DeltaRecord V F)) =
      labels.map fun label => .delete label ((s.content label).map Prod.snd) := by
  rw [fetchCandsFields_eq, deleteDeltas, List.zipWith_map_right, List.zipWith_self]

end StoreManager

/-- Upserts of different labels are proper for the content their old fields are from. -/
theorem properAll_upserts {c : Content V F} (old : Content V F) {cands : List (CandidateData V F)}
    (hnodup : (cands.map (·.label)).Nodup) (hold : ∀ l ∈ cands.map (·.label), c l = old l) :
    ProperAll c (cands.map fun c => .upsert c.label c.vector c.fields
      ((old c.label).map Prod.snd)) := by
  induction cands generalizing c with
  | nil => trivial
  | cons first cands ih =>
      obtain ⟨hnew, hnodup⟩ := List.nodup_cons.mp hnodup
      refine ⟨congrArg _ (hold _ List.mem_cons_self).symm, ih hnodup fun l hl => ?_⟩
      have hne : l ≠ first.label := by
        rintro rfl
        exact hnew hl
      exact (Function.update_of_ne hne _ _).trans (hold l (List.mem_cons_of_mem _ hl))

/-- Deletions are, whether or not a label comes twice. -/
theorem properAll_deletes {c : Content V F} (old : Content V F) {labels : List Nat}
    (hold : ∀ l ∈ labels, c l = none ∨ c l = old l) :
    ProperAll c (labels.map fun label => .delete label ((old label).map Prod.snd)) := by
  induction labels generalizing c with
  | nil => trivial
  | cons first labels ih =>
      refine ⟨(hold _ List.mem_cons_self).imp_right fun h => congrArg _ h.symm, ih fun l hl => ?_⟩
      by_cases he : l = first
      · exact .inl (by rw [he]; exact Function.update_self ..)
      · rw [show DeltaRecord.effect c (.delete first ((old first).map Prod.snd)) l = c l from
          Function.update_of_ne he _ _]
        exact hold l (List.mem_cons_of_mem _ hl)

/-- What some deletions leave -/
theorem effects_deletes {c : Content V F} {deltas : List (DeltaRecord V F)} {l : Nat}
    (hdel : ∀ d ∈ deltas, ∃ label old, d = .delete label old) :
    effects c deltas l = if l ∈ deltas.map DeltaRecord.label then none else c l := by
  induction deltas generalizing c with
  | nil => rfl
  | cons d deltas ih =>
      obtain ⟨label, old, rfl⟩ := hdel d List.mem_cons_self
      have hrest := ih (c := DeltaRecord.effect c (.delete label old))
        fun d hd => hdel d (List.mem_cons_of_mem _ hd)
      refine hrest.trans ?_
      by_cases hl : l = label
      · subst hl
        simp [DeltaRecord.label, DeltaRecord.effect]
      · simp [DeltaRecord.label, DeltaRecord.effect, hl]

/-- What some upserts leave: the last one of a label counts. -/
theorem effects_upserts {c : Content V F} {cands : List (CandidateData V F)}
    {old : CandidateData V F → Option F} {l : Nat} :
    effects c (cands.map fun c => .upsert c.label c.vector c.fields (old c)) l =
      ((cands.reverse.find? (·.label = l)).map fun c => (c.vector, c.fields)).or (c l) := by
  unfold effects
  induction cands generalizing c with
  | nil => simp
  | cons first cands ih =>
      rw [List.map_cons, List.foldl_cons, ih, List.reverse_cons, List.find?_append]
      cases cands.reverse.find? (·.label = l) with
      | some found => simp
      | none =>
          by_cases hl : l = first.label
          · simp [hl, DeltaRecord.effect]
          · simp [hl, Ne.symm hl, DeltaRecord.effect]

/-! ## The batches have the effects of their deltas -/

namespace StoreManager

variable {s : StoreManager V F}

theorem content_addBatch {deltas : List (DeltaRecord V F)} {baseTs now : Nat}
    {cands : List (CandidateData V F)} {ttl : Int} {old : CandidateData V F → Option F} :
    (s.addBatch deltas baseTs (cands.map (withExpiry ttl now)) ttl).content =
      effects s.content (cands.map fun c => .upsert c.label c.vector c.fields (old c)) := by
  funext l
  have hkeep : ∀ c : CandidateData V F, (withExpiry ttl now c).vector = c.vector ∧
      (withExpiry ttl now c).fields = c.fields := by
    intro c
    unfold withExpiry
    split <;> exact ⟨rfl, rfl⟩
  rw [effects_upserts, content, fetchCand_addBatch, ← List.map_reverse, List.find?_map]
  simp only [Function.comp_def, label_withExpiry]
  cases cands.reverse.find? (·.label = l) with
  | none => rfl
  | some c => simp [hkeep c]

theorem content_deleteBatch {deltas : List (DeltaRecord V F)} {baseTs : Nat} {labels : List Nat}
    {old : Nat → Option F} :
    (s.deleteBatch deltas baseTs labels).content =
      effects s.content (labels.map fun label => .delete label (old label)) := by
  funext l
  rw [effects_deletes fun d hd => by
    obtain ⟨label, -, rfl⟩ := List.mem_map.mp hd
    exact ⟨_, _, rfl⟩]
  have hlabels : (labels.map fun label => (.delete label (old label) : DeltaRecord V F)).map
      DeltaRecord.label = labels := by
    rw [List.map_map]
    exact List.map_id labels
  rw [hlabels, content, fetchCand_deleteBatch]
  split <;> rfl

theorem content_removalBatch {expired : List (CandidateData V F)} {rows : List (Str × Str)}
    {baseTs : Nat} :
    (s.removalBatch expired rows baseTs).content =
      effects s.content (removalDeltas expired) := by
  funext l
  rw [effects_deletes fun d hd => by
    obtain ⟨c, -, rfl⟩ := List.mem_map.mp hd
    exact ⟨_, _, rfl⟩]
  rw [content, fetchCand_removalBatch]
  split <;> rfl

/-- The records read for some rows are those of their labels. -/
theorem content_of_mem_expiredAmong
    (hkeys : ∀ k c, s.cands.find k = some c → k = decimalNat c.label)
    {rows : List (Str × Str)} {now : Nat} {c : CandidateData V F}
    (h : c ∈ s.expiredAmong rows now) :
    decimalNat c.label ∈ rows.map Prod.snd ∧ s.content c.label = some (c.vector, c.fields) := by
  obtain ⟨row, hrow, hc⟩ := List.mem_filterMap.mp (List.mem_filter.mp h).1
  have hkey := hkeys _ _ hc
  refine ⟨List.mem_map.mpr ⟨row, hrow, hkey⟩, ?_⟩
  rw [content, fetchCand, ← hkey, hc]
  rfl

/-- The deltas of an expiry are proper for the store its records were read from. -/
theorem properAll_removalDeltas
    (hkeys : ∀ k c, s.cands.find k = some c → k = decimalNat c.label)
    {rows : List (Str × Str)} {now : Nat} :
    ProperAll s.content (removalDeltas (s.expiredAmong rows now)) := by
  have heq : removalDeltas (s.expiredAmong rows now) =
      ((s.expiredAmong rows now).map (·.label)).map fun label =>
        .delete label ((s.content label).map Prod.snd) := by
    rw [removalDeltas, List.map_map]
    refine List.map_congr_left fun c hc => ?_
    simp [(content_of_mem_expiredAmong hkeys hc).2]
  rw [heq]
  exact properAll_deletes s.content fun l _ => .inr rfl

end StoreManager

end OpenViking.Store
