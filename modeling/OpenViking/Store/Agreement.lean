/-
# `OpenViking.Store.Agreement` — indexes and store under concurrent mutations

Any number of threads run `upsert_data`, `update_data`, `delete_data` and
`_expire_timeout_data` on one collection.  A call enters the barrier, reads the
store, writes its batch, and hands its deltas to one index after the other; every
one of these is a step, and the steps of different threads interleave in any
order.  Nothing orders the batches of two threads as their deltas.

If the calls that are inside the barrier at one time concern different labels,
and a batch has no label twice, every index contains the content of the store
once all calls have returned (`agreement_at_rest`).  Two upserts of one label can
leave an index behind the store: `Sample.store_and_index_differ`.
-/
import Mathlib.Logic.Basic
import OpenViking.Index.Contents
import OpenViking.Store.StoreManager

/-! ## The mutation barrier of a collection

`_IndexMutationBarrier` of `collection/local_collection.py`.  Mutations share it,
publishers have it to themselves, and a publisher that waits keeps new mutations
out.  Every field is read and written under the lock of one condition variable,
so each function below is one step of a run; the loops that wait on the condition
are guards, to be tried again at any time. -/

namespace OpenViking.Store

/-- `_active_mutations`, `_publisher`, `_waiting_publishers` and `_generation` -/
structure Barrier where
  active : Nat
  publisher : Bool
  waiting : Nat
  generation : Nat
  deriving DecidableEq, Repr

namespace Barrier

def new : Barrier := ⟨0, false, 0, 0⟩

variable (b : Barrier)

/-- `mutation` and `snapshot_generation` wait for this. -/
def mayEnter : Bool := !b.publisher && b.waiting = 0

/-- `mutation`, at its start -/
def enter : Barrier := { b with active := b.active + 1 }

/-- `mutation`, at its end -/
def leave (changed : Bool) : Barrier :=
  { b with
    generation := if changed then b.generation + 1 else b.generation
    active := b.active - 1 }

end Barrier

end OpenViking.Store

namespace OpenViking.Store.Agreement

open OpenViking.Lib OpenViking.Index

/-! ## Threads -/

/-- What a call does inside the barrier -/
inductive Work (V F : Type)
  | write (cands : List (CandidateData V F)) (ttl : Int)
  | delete (labels : List Nat)
  | expire

/-- A batch that is ready to be written, with its deltas -/
inductive Plan (V F : Type)
  | write (deltas : List (DeltaRecord V F)) (cands : List (CandidateData V F)) (ttl : Int)
  | delete (deltas : List (DeltaRecord V F)) (labels : List Nat)
  | expire (expired : List (CandidateData V F)) (rows : List (Str × Str))

/-- Where a thread stands -/
inductive Phase (Raw V F : Type)
  | idle
  /-- in `update_data`, before `fetch_data` -/
  | fetching (raws : List Raw)
  /-- in front of the barrier -/
  | entering (work : Work V F)
  /-- inside, before the old fields or the due rows are read -/
  | reading (work : Work V F)
  /-- in `expire_data`, before the records of the due rows are read -/
  | loading (now : Nat) (rows : List (Str × Str))
  | writing (plan : Plan V F)
  /-- before the deltas are applied to the next index -/
  | applying (deltas : List (DeltaRecord V F)) (changed : Bool) (next : Nat)

/-- A collection with its threads -/
structure State (T Raw V F D W : Type) [LinearOrder D] where
  store : StoreManager V F
  barrier : Barrier
  indexes : List (IndexManager D W)
  threads : T → Phase Raw V F

namespace Plan

variable {V F : Type}

def deltas : Plan V F → List (DeltaRecord V F)
  | write deltas _ _ => deltas
  | delete deltas _ => deltas
  | expire expired _ => StoreManager.removalDeltas expired

/-- Does the call mark the generation as changed? -/
def changed : Plan V F → Bool
  | expire expired _ => !expired.isEmpty
  | _ => true

/-- The batch, with the clock readings for the deltas and the expiry times -/
def exec (s : StoreManager V F) (t₁ t₂ : Nat) : Plan V F → StoreManager V F
  | write deltas cands ttl =>
      s.addBatch deltas t₁ (cands.map (StoreManager.withExpiry ttl t₂)) ttl
  | delete deltas labels => s.deleteBatch deltas t₁ labels
  | expire expired rows => s.removalBatch expired rows t₁

end Plan

section

variable {T Raw V F D W : Type} [DecidableEq T] [LinearOrder D] [DoubleArith D]
  (fmt : RecordFormat Raw V F) (view : Nat → IndexView D W V F)

namespace State

variable (st : State T Raw V F D W)

def setThread (t : T) (phase : Phase Raw V F) : State T Raw V F D W :=
  { st with threads := Function.update st.threads t phase }

/-- `need_record_delta` -/
def needDelta : Bool := !st.indexes.isEmpty

/-- A call is made in a thread that has nothing to do. -/
def start (t : T) (call : Call Raw) : Option (State T Raw V F D W) :=
  match st.threads t with
  | .idle =>
      match call with
      | .upsert raws ttl =>
          match upsertCands fmt raws with
          | some cands => some (st.setThread t (.entering (.write cands ttl)))
          | none => some st
      | .update [] => some st
      | .update raws => some (st.setThread t (.fetching raws))
      | .delete labels => some (st.setThread t (.entering (.delete labels)))
      | .expire => some (st.setThread t (.entering .expire))
  | _ => none

/-- The next step of a thread, with two clock readings it may use; none if it has
to wait. -/
def go (t : T) (t₁ t₂ : Nat) : Option (State T Raw V F D W) :=
  match st.threads t with
  | .idle => none
  | .fetching raws =>
      match updateCands fmt st.store raws with
      | some cands => some (st.setThread t (.entering (.write cands 0)))
      | none => some (st.setThread t .idle)
  | .entering work =>
      if st.barrier.mayEnter then
        some { st.setThread t (.reading work) with barrier := st.barrier.enter }
      else none
  | .reading (.write cands ttl) =>
      let deltas := if st.needDelta then
          StoreManager.upsertDeltas cands (st.store.fetchCandsFields (cands.map (·.label)))
        else []
      some (st.setThread t (.writing (.write deltas cands ttl)))
  | .reading (.delete labels) =>
      let deltas := if st.needDelta then
          StoreManager.deleteDeltas labels (st.store.fetchCandsFields labels)
        else []
      some (st.setThread t (.writing (.delete deltas labels)))
  | .reading .expire => some (st.setThread t (.loading t₁ (st.store.dueRows t₁)))
  | .loading now rows =>
      some (st.setThread t (.writing (.expire (st.store.expiredAmong rows now) rows)))
  | .writing plan =>
      some { st.setThread t (.applying plan.deltas plan.changed 0) with
        store := plan.exec st.store t₁ t₂ }
  | .applying deltas changed next =>
      match st.indexes[next]? with
      | some M =>
          some { st.setThread t (.applying deltas changed (next + 1)) with
            indexes := st.indexes.set next (applyDeltas (view next) M deltas) }
      | none => some { st.setThread t .idle with barrier := st.barrier.leave changed }

end State

/-- A choice of the scheduler -/
inductive Choice (T Raw : Type)
  | start (t : T) (call : Call Raw)
  | go (t : T) (t₁ t₂ : Nat)

def State.step (st : State T Raw V F D W) : Choice T Raw → Option (State T Raw V F D W)
  | .start t call => st.start fmt t call
  | .go t t₁ t₂ => st.go fmt view t t₁ t₂

/-! ## Labels in use -/

def Work.labels : Work V F → List Nat
  | .write cands _ => cands.map (·.label)
  | .delete labels => labels
  | .expire => []

def Plan.labels : Plan V F → List Nat
  | .write _ cands _ => cands.map (·.label)
  | .delete _ labels => labels
  | .expire expired _ => expired.map (·.label)

/-- The labels a thread inside the barrier is concerned with -/
def Phase.Claims (l : Nat) : Phase Raw V F → Prop
  | .reading work => l ∈ work.labels
  | .loading _ rows => decimalNat l ∈ rows.map Prod.snd
  | .writing plan => l ∈ plan.labels
  | .applying deltas _ _ => l ∈ deltas.map DeltaRecord.label
  | _ => False

instance (l : Nat) : (phase : Phase Raw V F) → Decidable (phase.Claims l)
  | .reading work => inferInstanceAs (Decidable (l ∈ work.labels))
  | .loading _ rows => inferInstanceAs (Decidable (decimalNat l ∈ rows.map Prod.snd))
  | .writing plan => inferInstanceAs (Decidable (l ∈ plan.labels))
  | .applying deltas _ _ => inferInstanceAs (Decidable (l ∈ deltas.map DeltaRecord.label))
  | .idle | .fetching _ | .entering _ => isFalse id

/-- What a step has to meet -/
structure Allowed (st st' : State T Raw V F D W) (t : T) : Prop where
  /-- a thread that gets inside the barrier, or to know the due rows, is concerned
  with labels that no other thread inside is concerned with -/
  apart : (st'.threads t matches .reading _ | .loading _ _) →
    ∀ u, u ≠ t → ∀ l, (st'.threads t).Claims l → ¬ (st.threads u).Claims l
  /-- no label stands twice in a batch -/
  distinct : ∀ cands ttl, st'.threads t = .reading (.write cands ttl) →
    (cands.map (·.label)).Nodup
  /-- there are offsets left in the index -/
  room : ∀ deltas changed next M, st.threads t = .applying deltas changed next →
    st.indexes[next]? = some M → M.vectors.nextLogicalOffset + deltas.length ≤ 2 ^ 31

variable (schema : Nat → AList (fun _ : Str => FieldType))

/-- The deltas a thread has still to apply to an index -/
def Phase.pending (i : Nat) : Phase Raw V F → List (DeltaRecord V F)
  | .applying deltas _ next => if next ≤ i then deltas else []
  | _ => []

/-- A planned batch has the effects of its deltas on any store. -/
def Plan.Faithful (plan : Plan V F) : Prop :=
  ∀ (s : StoreManager V F) (t₁ t₂ : Nat),
    (plan.exec s t₁ t₂).content = effects s.content plan.deltas

/-- What a thread counts on: its deltas are for its labels and, if there is an index,
say what its batch does and are proper for the store as it is. -/
def Phase.Ok (indexed : Prop) (content : Content V F) : Phase Raw V F → Prop
  | .reading (.write cands _) => (cands.map (·.label)).Nodup
  | .writing plan => (∀ l ∈ plan.deltas.map DeltaRecord.label, l ∈ plan.labels) ∧
      (indexed → plan.Faithful ∧ ProperAll content plan.deltas)
  | _ => True

/-- An index is behind the store by the deltas that are still to be applied to it. -/
structure Behind (st : State T Raw V F D W) (i : Nat) (c : Content V F) : Prop where
  proper : ∀ t, ProperAll c ((st.threads t).pending i)
  pending : ∀ t, ∀ l ∈ ((st.threads t).pending i).map DeltaRecord.label,
    effects c ((st.threads t).pending i) l = st.store.content l
  settled : ∀ l, (∀ t, l ∉ ((st.threads t).pending i).map DeltaRecord.label) →
    c l = st.store.content l

structure Inv (st : State T Raw V F D W) : Prop where
  keys : ∀ k c, st.store.cands.find k = some c → k = decimalNat c.label
  apart : ∀ t u, u ≠ t → ∀ l, (st.threads t).Claims l → ¬ (st.threads u).Claims l
  thread : ∀ t, (st.threads t).Ok (st.indexes ≠ []) st.store.content
  index : ∀ i M, st.indexes[i]? = some M → ∃ c, Carries (view i) (schema i) M c ∧ Behind st i c

/-! ## Plans -/

/-- The plan of an upsert, made of what was read -/
theorem ok_write {content : Content V F} {cands : List (CandidateData V F)} {ttl : Int}
    {indexed : Prop} {deltas : List (DeltaRecord V F)} (hnodup : (cands.map (·.label)).Nodup)
    (hdeltas : deltas = [] ∧ ¬ indexed ∨ deltas = cands.map fun c =>
      .upsert c.label c.vector c.fields ((content c.label).map Prod.snd)) :
    (Phase.writing (.write deltas cands ttl) : Phase Raw V F).Ok indexed content := by
  rcases hdeltas with ⟨rfl, hno⟩ | rfl
  · exact ⟨nofun, fun hyes => absurd hyes hno⟩
  · refine ⟨fun l hl => ?_, fun _ => ⟨fun s t₁ t₂ => StoreManager.content_addBatch, ?_⟩⟩
    · simpa [Plan.deltas, DeltaRecord.label, Plan.labels] using hl
    · exact properAll_upserts content hnodup fun _ _ => rfl

/-- The plan of a deletion, made of what was read -/
theorem ok_delete {content : Content V F} {labels : List Nat} {indexed : Prop}
    {deltas : List (DeltaRecord V F)}
    (hdeltas : deltas = [] ∧ ¬ indexed ∨
      deltas = labels.map fun l => .delete l ((content l).map Prod.snd)) :
    (Phase.writing (.delete deltas labels) : Phase Raw V F).Ok indexed content := by
  rcases hdeltas with ⟨rfl, hno⟩ | rfl
  · exact ⟨nofun, fun hyes => absurd hyes hno⟩
  · refine ⟨fun l hl => ?_, fun _ => ⟨fun s t₁ t₂ => StoreManager.content_deleteBatch, ?_⟩⟩
    · simpa [Plan.deltas, DeltaRecord.label, Plan.labels] using hl
    · exact properAll_deletes content fun _ _ => .inr rfl

/-- The plan of an expiry, made of what was read -/
theorem ok_expire {s : StoreManager V F} {rows : List (Str × Str)} {now : Nat} {indexed : Prop}
    (hkeys : ∀ k c, s.cands.find k = some c → k = decimalNat c.label) :
    (Phase.writing (.expire (s.expiredAmong rows now) rows) : Phase Raw V F).Ok indexed
      s.content := by
  refine ⟨fun l hl => ?_, fun _ => ⟨fun s t₁ t₂ => StoreManager.content_removalBatch, ?_⟩⟩
  · simpa [Plan.deltas, StoreManager.removalDeltas, DeltaRecord.label, Plan.labels] using hl
  · exact StoreManager.properAll_removalDeltas hkeys

/-- A batch keeps the candidates under their labels. -/
theorem keys_exec {s : StoreManager V F} (plan : Plan V F) (t₁ t₂ : Nat)
    (h : ∀ k c, s.cands.find k = some c → k = decimalNat c.label) :
    ∀ k c, (plan.exec s t₁ t₂).cands.find k = some c → k = decimalNat c.label := by
  intro k c hc
  cases plan with
  | write deltas cands ttl =>
      rcases Table.find_putAll_eq_some hc with hmem | hfind
      · obtain ⟨c', -, he⟩ := List.mem_map.mp hmem
        cases he
        rfl
      · exact h k c hfind
  | delete deltas labels =>
      simp only [Plan.exec, StoreManager.deleteBatch, Table.find_eraseAll] at hc
      split at hc
      · cases hc
      · exact h k c hc
  | expire expired rows =>
      simp only [Plan.exec, StoreManager.removalBatch, Table.find_eraseAll] at hc
      split at hc
      · cases hc
      · exact h k c hc

/-! ## The steps keep it -/

/-- Only the content of its own labels matters to a thread. -/
theorem Phase.Ok.congr {phase : Phase Raw V F} {indexed : Prop} {content content' : Content V F}
    (h : phase.Ok indexed content)
    (hsame : indexed → ∀ l, phase.Claims l → content l = content' l) :
    phase.Ok indexed content' := by
  cases phase with
  | writing plan =>
      refine ⟨h.1, fun hne => ⟨(h.2 hne).1, (h.2 hne).2.congr fun l hl => ?_⟩⟩
      exact hsame hne l (h.1 l hl)
  | reading work =>
      cases work with
      | write cands ttl => exact h
      | delete labels => trivial
      | expire => trivial
  | _ => trivial

theorem claims_of_pending {phase : Phase Raw V F} {i l : Nat}
    (h : l ∈ (phase.pending i).map DeltaRecord.label) : phase.Claims l := by
  cases phase with
  | applying deltas changed next =>
      simp only [Phase.pending] at h
      split at h
      · exact h
      · cases h
  | _ => cases h

theorem Phase.Ok.mono {phase : Phase Raw V F} {indexed indexed' : Prop} {content : Content V F}
    (h : phase.Ok indexed content) (hle : indexed' → indexed) : phase.Ok indexed' content := by
  cases phase with
  | writing plan => exact ⟨h.1, fun hne => h.2 (hle hne)⟩
  | reading work =>
      cases work with
      | write cands ttl => exact h
      | delete labels => trivial
      | expire => trivial
  | _ => trivial

namespace Inv

variable {fmt view schema} {st st' : State T Raw V F D W} {t : T} {phase : Phase Raw V F}

/-- A thread moves on, and neither the store nor the deltas to be applied change. -/
theorem of_thread (h : Inv view schema st) (hstore : st'.store = st.store)
    (hindexes : st'.indexes = st.indexes)
    (hthreads : st'.threads = Function.update st.threads t phase)
    (hpending : ∀ i, i < st.indexes.length → phase.pending i = (st.threads t).pending i)
    (hapart : ∀ u, u ≠ t → ∀ l, phase.Claims l → ¬ (st.threads u).Claims l)
    (hok : phase.Ok (st.indexes ≠ []) st.store.content) : Inv view schema st' := by
  have hsame : ∀ i, i < st.indexes.length → ∀ u,
      (st'.threads u).pending i = (st.threads u).pending i := by
    intro i hi u
    rw [hthreads]
    by_cases hu : u = t
    · rw [hu, Function.update_self, hpending i hi]
    · rw [Function.update_of_ne hu]
  refine ⟨hstore ▸ h.keys, fun u v huv l hu hv => ?_, fun u => ?_, fun i M hM => ?_⟩
  · rw [hthreads] at hu hv
    by_cases htu : u = t
    · rw [htu, Function.update_self] at hu
      rw [Function.update_of_ne (htu ▸ huv)] at hv
      exact hapart v (htu ▸ huv) l hu hv
    · rw [Function.update_of_ne htu] at hu
      by_cases htv : v = t
      · rw [htv, Function.update_self] at hv
        exact hapart u htu l hv hu
      · rw [Function.update_of_ne htv] at hv
        exact h.apart u v huv l hu hv
  · rw [hindexes, hthreads, hstore]
    by_cases hu : u = t
    · rw [hu, Function.update_self]
      exact hok
    · rw [Function.update_of_ne hu]
      exact h.thread u
  · rw [hindexes] at hM
    obtain ⟨c, hc, hbehind⟩ := h.index i M hM
    have hi := (List.getElem?_eq_some_iff.mp hM).1
    refine ⟨c, hc, fun u => ?_, fun u l hl => ?_, fun l hl => ?_⟩
    · rw [hsame i hi]
      exact hbehind.proper u
    · rw [hsame i hi] at hl ⊢
      rw [hstore]
      exact hbehind.pending u l hl
    · rw [hstore]
      exact hbehind.settled l fun u hu => hl u (by rw [hsame i hi]; exact hu)

/-- A thread that is outside the barrier, or only about to look, has nothing pending. -/
theorem of_outside (h : Inv view schema st) (hstore : st'.store = st.store)
    (hindexes : st'.indexes = st.indexes)
    (hthreads : st'.threads = Function.update st.threads t phase)
    (hold : ∀ i, i < st.indexes.length → (st.threads t).pending i = [])
    (hnew : ∀ i, phase.pending i = []) (hclaims : ∀ l, ¬ phase.Claims l)
    (hok : phase.Ok (st.indexes ≠ []) st.store.content) : Inv view schema st' :=
  h.of_thread hstore hindexes hthreads (fun i hi => (hnew i).trans (hold i hi).symm)
    (fun _ _ l hl => absurd hl (hclaims l)) hok

theorem start (h : Inv view schema st) {call : Call Raw}
    (hstep : st.start fmt t call = some st') : Inv view schema st' := by
  unfold State.start at hstep
  split at hstep
  case h_2 => cases hstep
  case h_1 hidle =>
    have hold : ∀ i, i < st.indexes.length → (st.threads t).pending i = [] := fun i _ => by
      rw [hidle]
      rfl
    cases call with
    | upsert raws ttl =>
        dsimp only at hstep
        split at hstep
        · cases hstep
          exact h.of_outside rfl rfl rfl hold (fun _ => rfl) (fun _ => id) trivial
        · cases hstep
          exact h
    | update raws =>
        cases raws with
        | nil =>
            cases hstep
            exact h
        | cons raw raws =>
            cases hstep
            exact h.of_outside rfl rfl rfl hold (fun _ => rfl) (fun _ => id) trivial
    | delete labels =>
        cases hstep
        exact h.of_outside rfl rfl rfl hold (fun _ => rfl) (fun _ => id) trivial
    | expire =>
        cases hstep
        exact h.of_outside rfl rfl rfl hold (fun _ => rfl) (fun _ => id) trivial

/-- A thread plans its batch, for labels it is concerned with. -/
theorem plan (h : Inv view schema st) {plan : Plan V F}
    (hold : ∀ i, (st.threads t).pending i = [])
    (hlabels : ∀ l ∈ plan.labels, (st.threads t).Claims l)
    (hok : (Phase.writing plan : Phase Raw V F).Ok (st.indexes ≠ []) st.store.content) :
    Inv view schema (st.setThread t (.writing plan)) :=
  h.of_thread rfl rfl rfl (fun i _ => (hold i).symm)
    (fun u hu l hl => h.apart t u hu l (hlabels l hl)) hok

/-- The threads stay apart if one of them lets some of its labels go. -/
theorem apart_update (h : Inv view schema st)
    (hclaims : ∀ l, phase.Claims l → (st.threads t).Claims l) (u v : T) (huv : v ≠ u) (l : Nat)
    (hu : (Function.update st.threads t phase u).Claims l) :
    ¬ (Function.update st.threads t phase v).Claims l := by
  have hle : ∀ w, (Function.update st.threads t phase w).Claims l → (st.threads w).Claims l := by
    intro w hw
    by_cases ht : w = t
    · rw [ht, Function.update_self] at hw
      exact ht ▸ hclaims l hw
    · rwa [Function.update_of_ne ht] at hw
  exact fun hv => h.apart u v huv l (hle u hu) (hle v hv)

/-- The batch is written: the deltas wait at every index. -/
theorem write (h : Inv view schema st) {plan : Plan V F} (hthread : st.threads t = .writing plan)
    (t₁ t₂ : Nat) :
    Inv view schema { st.setThread t (.applying plan.deltas plan.changed 0) with
      store := plan.exec st.store t₁ t₂ } := by
  obtain ⟨hcontained, hok⟩ :
      (Phase.writing plan : Phase Raw V F).Ok (st.indexes ≠ []) st.store.content :=
    hthread ▸ h.thread t
  have hclaims : ∀ l ∈ plan.deltas.map DeltaRecord.label, (st.threads t).Claims l := by
    intro l hl
    rw [hthread]
    exact hcontained l hl
  have hforeign : ∀ u, u ≠ t → ∀ l, (st.threads u).Claims l →
      l ∉ plan.deltas.map DeltaRecord.label :=
    fun u hu l hl hmem => h.apart t u hu l (hclaims l hmem) hl
  refine ⟨keys_exec plan t₁ t₂ h.keys, h.apart_update hclaims, fun u => ?_, fun i M hM => ?_⟩
  · change (Function.update st.threads t _ u).Ok _ _
    by_cases hu : u = t
    · rw [hu, Function.update_self]
      trivial
    · rw [Function.update_of_ne hu]
      refine (h.thread u).congr fun hne l hl => ?_
      change st.store.content l = (plan.exec st.store t₁ t₂).content l
      rw [(hok hne).1, effects_of_notMem (hforeign u hu l hl)]
  · have hne : st.indexes ≠ [] := by
      rintro hnil
      change st.indexes[i]? = some M at hM
      rw [hnil] at hM
      cases hM
    obtain ⟨hfaithful, hproper⟩ := hok hne
    obtain ⟨c, hc, hbehind⟩ := h.index i M hM
    have hpending : ∀ u, (Function.update st.threads t
        (.applying plan.deltas plan.changed 0) u).pending i =
          if u = t then plan.deltas else (st.threads u).pending i := by
      intro u
      by_cases hu : u = t
      · rw [hu, Function.update_self, if_pos rfl]
        rfl
      · rw [Function.update_of_ne hu, if_neg hu]
    -- at its own labels the index was up to date
    have hcur : ∀ l ∈ plan.deltas.map DeltaRecord.label, c l = st.store.content l := by
      intro l hl
      refine hbehind.settled l fun u hu => ?_
      by_cases hut : u = t
      · rw [hut, hthread] at hu
        cases hu
      · exact hforeign u hut l (claims_of_pending hu) hl
    refine ⟨c, hc, fun u => ?_, fun u l hl => ?_, fun l hl => ?_⟩
    · change ProperAll c ((Function.update st.threads t _ u).pending i)
      rw [hpending]
      split
      · exact hproper.congr fun l hl => (hcur l hl).symm
      · exact hbehind.proper u
    · change l ∈ ((Function.update st.threads t _ u).pending i).map _ at hl
      change effects c ((Function.update st.threads t _ u).pending i) l = _
      rw [hpending] at hl ⊢
      rw [hfaithful]
      split at hl
      · next hu =>
          rw [if_pos hu]
          exact effects_congr (hcur l hl)
      · next hu =>
          rw [if_neg hu, effects_of_notMem (hforeign u hu l (claims_of_pending hl))]
          exact hbehind.pending u l hl
    · have hnot : ∀ u, l ∉ (if u = t then plan.deltas else (st.threads u).pending i).map
          DeltaRecord.label := fun u => hpending u ▸ hl u
      have hown : l ∉ plan.deltas.map DeltaRecord.label := by
        have := hnot t
        rwa [if_pos rfl] at this
      rw [hfaithful, effects_of_notMem hown]
      refine hbehind.settled l fun u hu => ?_
      by_cases hut : u = t
      · rw [hut, hthread] at hu
        cases hu
      · have := hnot u
        rw [if_neg hut] at this
        exact this hu

/-- The deltas are applied to the next index. -/
theorem apply (h : Inv view schema st) {deltas : List (DeltaRecord V F)} {changed : Bool}
    {next : Nat} {M : IndexManager D W} (hthread : st.threads t = .applying deltas changed next)
    (hM : st.indexes[next]? = some M)
    (hroom : M.vectors.nextLogicalOffset + deltas.length ≤ 2 ^ 31) :
    Inv view schema { st.setThread t (.applying deltas changed (next + 1)) with
      indexes := st.indexes.set next (applyDeltas (view next) M deltas) } := by
  have hclaims : ∀ l, (Phase.applying deltas changed (next + 1) : Phase Raw V F).Claims l →
      (st.threads t).Claims l := by
    intro l hl
    rw [hthread]
    exact hl
  have hlt := (List.getElem?_eq_some_iff.mp hM).1
  refine ⟨h.keys, h.apart_update hclaims, fun u => ?_, fun i M' hM' => ?_⟩
  · change (Function.update st.threads t _ u).Ok _ _
    by_cases hu : u = t
    · rw [hu, Function.update_self]
      trivial
    · rw [Function.update_of_ne hu]
      refine (h.thread u).mono fun _ hnil => ?_
      rw [hnil] at hlt
      cases hlt
  · have hpending : ∀ u, i ≠ next → (Function.update st.threads t
        (.applying deltas changed (next + 1)) u).pending i = (st.threads u).pending i := by
      intro u hi
      by_cases hu : u = t
      · rw [hu, Function.update_self, hthread]
        simp only [Phase.pending]
        split
        · exact (if_pos (by omega)).symm
        · exact (if_neg (by omega)).symm
      · rw [Function.update_of_ne hu]
    by_cases hi : i = next
    · subst hi
      have hget : some (applyDeltas (view i) M deltas) = some M' := by
        rw [← hM', List.getElem?_set_self hlt]
      cases hget
      obtain ⟨c, hc, hbehind⟩ := h.index i M hM
      have hown : (st.threads t).pending i = deltas := by
        rw [hthread]
        exact if_pos le_rfl
      have hdone : ∀ u, (Function.update st.threads t
          (.applying deltas changed (i + 1)) u).pending i =
            if u = t then [] else (st.threads u).pending i := by
        intro u
        by_cases hu : u = t
        · rw [hu, Function.update_self, if_pos rfl]
          exact if_neg (by omega)
        · rw [Function.update_of_ne hu, if_neg hu]
      have hforeign : ∀ u, u ≠ t → ∀ l, (st.threads u).Claims l →
          l ∉ deltas.map DeltaRecord.label := by
        intro u hu l hl hmem
        refine h.apart t u hu l ?_ hl
        rw [hthread]
        exact hmem
      refine ⟨effects c deltas, hc.applyDeltas (hown ▸ hbehind.proper t) hroom, fun u => ?_,
        fun u l hl => ?_, fun l hl => ?_⟩
      · change ProperAll _ ((Function.update st.threads t _ u).pending i)
        rw [hdone]
        split
        · trivial
        · next hu =>
            exact (hbehind.proper u).congr fun l hl =>
              (effects_of_notMem (hforeign u hu l (claims_of_pending hl))).symm
      · change l ∈ ((Function.update st.threads t _ u).pending i).map _ at hl
        change effects _ ((Function.update st.threads t _ u).pending i) l = st.store.content l
        rw [hdone] at hl ⊢
        split at hl
        · cases hl
        · next hu =>
            rw [if_neg hu, ← hbehind.pending u l hl]
            exact effects_congr (effects_of_notMem (hforeign u hu l (claims_of_pending hl)))
      · change effects c deltas l = st.store.content l
        by_cases hmem : l ∈ deltas.map DeltaRecord.label
        · have := hbehind.pending t l (hown.symm ▸ hmem)
          rwa [hown] at this
        · rw [effects_of_notMem hmem]
          refine hbehind.settled l fun u hu => ?_
          by_cases hut : u = t
          · rw [hut, hown] at hu
            exact hmem hu
          · refine hl u ?_
            change l ∈ ((Function.update st.threads t _ u).pending i).map _
            rwa [hdone, if_neg hut]
    · have hM'' : st.indexes[i]? = some M' := by
        rw [← hM']
        exact (List.getElem?_set_ne (Ne.symm hi)).symm
      obtain ⟨c, hc, hbehind⟩ := h.index i M' hM''
      refine ⟨c, hc, fun u => ?_, fun u l hl => ?_, fun l hl => ?_⟩
      · change ProperAll c ((Function.update st.threads t _ u).pending i)
        rw [hpending u hi]
        exact hbehind.proper u
      · change l ∈ ((Function.update st.threads t _ u).pending i).map _ at hl
        change effects c ((Function.update st.threads t _ u).pending i) l = _
        rw [hpending u hi] at hl ⊢
        exact hbehind.pending u l hl
      · refine hbehind.settled l fun u hu => hl u ?_
        change l ∈ ((Function.update st.threads t _ u).pending i).map _
        rwa [hpending u hi]

theorem go (h : Inv view schema st) {t₁ t₂ : Nat} (hstep : st.go fmt view t t₁ t₂ = some st')
    (hallowed : Allowed st st' t) : Inv view schema st' := by
  unfold State.go at hstep
  split at hstep
  · cases hstep
  · next raws hthread =>
      have hold : ∀ i, i < st.indexes.length → (st.threads t).pending i = [] := fun i _ => by
        rw [hthread]
        rfl
      split at hstep <;>
      · cases hstep
        exact h.of_outside rfl rfl rfl hold (fun _ => rfl) (fun _ => id) trivial
  · next work hthread =>
      split at hstep
      · cases hstep
        have hnow : (Function.update st.threads t (.reading work)) t = .reading work :=
          Function.update_self t _ _
        refine h.of_thread rfl rfl rfl (fun i _ => by rw [hthread]; rfl) (fun u hu l hl => ?_) ?_
        · refine hallowed.apart ?_ u hu l ?_
          · change ((Function.update st.threads t (.reading work)) t matches
              .reading _ | .loading _ _)
            rw [hnow]
          · change ((Function.update st.threads t (.reading work)) t).Claims l
            rwa [hnow]
        · cases work with
          | write cands ttl => exact hallowed.distinct cands ttl hnow
          | delete labels => trivial
          | expire => trivial
      · cases hstep
  · next cands ttl hthread =>
      cases hstep
      have hread : (Phase.reading (.write cands ttl) : Phase Raw V F).Ok (st.indexes ≠ [])
          st.store.content := hthread ▸ h.thread t
      refine h.plan (fun i => by rw [hthread]; rfl) (fun l hl => by rw [hthread]; exact hl) ?_
      refine ok_write hread ?_
      by_cases hnil : st.indexes = []
      · exact .inl ⟨by simp [State.needDelta, hnil], fun hne => hne hnil⟩
      · exact .inr (by simp [State.needDelta, hnil, StoreManager.upsertDeltas_eq])
  · next labels hthread =>
      cases hstep
      refine h.plan (fun i => by rw [hthread]; rfl) (fun l hl => by rw [hthread]; exact hl) ?_
      refine ok_delete ?_
      by_cases hnil : st.indexes = []
      · exact .inl ⟨by simp [State.needDelta, hnil], fun hne => hne hnil⟩
      · exact .inr (by simp [State.needDelta, hnil, StoreManager.deleteDeltas_eq])
  · next hthread =>
      cases hstep
      have hnow : (Function.update st.threads t (.loading t₁ (st.store.dueRows t₁))) t =
          .loading t₁ (st.store.dueRows t₁) := Function.update_self t _ _
      refine h.of_thread rfl rfl rfl (fun i _ => by rw [hthread]; rfl) (fun u hu l hl => ?_) trivial
      refine hallowed.apart ?_ u hu l ?_
      · change ((Function.update st.threads t (.loading t₁ (st.store.dueRows t₁))) t matches
          .reading _ | .loading _ _)
        rw [hnow]
      · change ((Function.update st.threads t _) t).Claims l
        rwa [hnow]
  · next now rows hthread =>
      cases hstep
      refine h.plan (fun i => by rw [hthread]; rfl) (fun l hl => ?_) (ok_expire h.keys)
      obtain ⟨c, hc, rfl⟩ := List.mem_map.mp hl
      rw [hthread]
      exact (StoreManager.content_of_mem_expiredAmong h.keys hc).1
  · next plan hthread =>
      cases hstep
      exact h.write hthread t₁ t₂
  · next deltas changed next hthread =>
      split at hstep
      · next M hM =>
          cases hstep
          exact h.apply hthread hM (hallowed.room deltas changed next M hthread hM)
      · next hnone =>
          cases hstep
          refine h.of_outside rfl rfl rfl (fun i hi => ?_) (fun _ => rfl) (fun _ => id) trivial
          rw [hthread]
          have := List.getElem?_eq_none_iff.mp hnone
          exact if_neg (by omega)

end Inv

end

namespace Sample

/-- Records with a label, a vector of one number, and a color -/
def format : RecordFormat (Nat × Int × String) Int String where
  process := some
  label := fun raw => some raw.1
  primaryLabel := fun raw => some raw.1
  vector := fun raw => raw.2.1
  fields := fun raw => raw.2.2
  load := fun vector fields => (0, vector, fields)
  merge := fun _ raw => raw

def view : Nat → IndexView Int Int Int String := fun _ =>
  { record := fun color => Index.Sample.record color []
    vector := id }

def schema : Nat → AList (fun _ : Str => FieldType) := fun _ => Index.Sample.schema

/-- An empty collection with one index and two threads -/
def empty : State Bool (Nat × Int × String) Int String Int Int where
  store := .empty
  barrier := .new
  indexes := [IndexManager.new Int Index.Sample.schema]
  threads := fun _ => .idle

abbrev Step := Choice Bool (Nat × Int × String)

def upsert (t : Bool) (raws : List (Nat × Int × String)) : Step := .start t (.upsert raws 0)

def go (t : Bool) : Step := .go t (5 * 10 ^ 18) (5 * 10 ^ 18)

/-- Both calls write the store before their deltas reach the index; the delta of the
second call overtakes that of the first. -/
def overtaking (first second : Nat × Int × String) : List Step :=
  [upsert false [first], upsert true [second]] ++
    [go false, go true, go false, go true, go false, go true, go true, go false, go true, go false]

/-- The labels an index finds for a color -/
def found (M : IndexManager Int Int) (color : String) : Finset (Option Nat) :=
  let asked := FilterOp.must "color".toList [color.toList] (-1)
  (calcBitmap Index.Sample.platform.regex M.scalar asked).elems.image M.vectors.getLabelByOffset

/-- Does a step that looks up no due rows meet its conditions? -/
def allowed (st st' : State Bool (Nat × Int × String) Int String Int Int) (t : Bool) : Bool :=
  (match st'.threads t with
    | .reading work => ∀ l ∈ work.labels, ∀ u, u ≠ t → ¬ (st.threads u).Claims l
    | .loading _ _ => false
    | _ => true) &&
  (match st'.threads t with
    | .reading (.write cands _) => (cands.map (·.label)).Nodup
    | _ => true) &&
  match st.threads t with
    | .applying deltas _ next =>
        ∀ M ∈ st.indexes[next]?, M.vectors.nextLogicalOffset + deltas.length ≤ 2 ^ 31
    | _ => true

/-- A run, as long as its steps are allowed -/
def follow (st : State Bool (Nat × Int × String) Int String Int Int) :
    List Step → Option (State Bool (Nat × Int × String) Int String Int Int)
  | [] => some st
  | .start t call :: rest => (st.start format t call).bind fun st' => follow st' rest
  | .go t t₁ t₂ :: rest => (st.go format view t t₁ t₂).bind fun st' =>
      if allowed st st' t then follow st' rest else none

/-- The state after two overtaking calls for different labels -/
def apart : Option (State Bool (Nat × Int × String) Int String Int Int) :=
  follow empty (overtaking (1, 10, "red") (2, 20, "blue"))

end Sample

end OpenViking.Store.Agreement
