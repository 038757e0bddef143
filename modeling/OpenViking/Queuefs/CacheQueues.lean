/-
# `OpenViking.Queuefs.CacheQueues` — what the keyspace of the cache backend holds

An abstract view of the cache backend: every queue that exists has its pending
messages in order and its deliveries, and every message of it has one payload.
`Holds keyPrefix ks queues` says that a keyspace is exactly such a family of
queues.  Every script takes a keyspace that holds one family to a keyspace that
holds another, and this module says which (`removeQueueScript_holds` and the
lemmas like it); no script then depends on how names and ids are made into keys.
-/
import OpenViking.Queuefs.CacheProtocol

namespace OpenViking.Queuefs

open OpenViking.Lib
open OpenViking.Lib.Keyspace

structure Entry where
  id : Uuid
  payload : Str
  deriving DecidableEq

/-- A message that an instance took and has not acknowledged -/
structure Delivery extends Entry where
  holder : Uuid
  since : Nat
  deriving DecidableEq

/-- The member of the sorted set, with its score -/
def Delivery.member (d : Delivery) : Str × Nat := (d.id.val ++ '|' :: d.holder.val, d.since)

/-- A queue: its messages, and the fields of its hash -/
structure CacheQueue where
  pending : List Entry
  processing : List Delivery
  fields : List (Str × Str)
  deriving DecidableEq

namespace CacheQueue

def empty : CacheQueue := ⟨[], [], []⟩

/-- All messages of the queue -/
def entries (s : CacheQueue) : List Entry := s.pending ++ s.processing.map Delivery.toEntry

end CacheQueue

/-- The queues by name -/
abbrev Queues (M : Type) : Type := Str → Option M

/-- The keyspace through the keys of the queues -/
def view (keyPrefix : Str) (ks : Keyspace) (slot : Slot) : Option Datum := ks (slot.key keyPrefix)

variable {keyPrefix : Str} {ks ks' : Keyspace} {q : Str}

theorem view_update (slot : Slot) (d : Option Datum) :
    view keyPrefix (Function.update ks (slot.key keyPrefix) d) =
      Function.update (view keyPrefix ks) slot d :=
  Function.update_comp_eq_of_injective ks (Slot.key_injective keyPrefix) slot d

/-- The queue a slot belongs to -/
def Slot.queue : Slot → Option Str
  | .names => none
  | .info q => some q
  | .pending q => some q
  | .processing q => some q
  | .message q _ => some q
  | .alive _ => none

/-- The keys of one queue that has the messages of `s` -/
structure KeysHold (v : Slot → Option Datum) (q : Str) (s : CacheQueue) : Prop where
  pending : v (.pending q) = listDatum (s.pending.map fun e => e.id.val)
  processing : v (.processing q) = zsetDatum (s.processing.map Delivery.member)
  payload : ∀ e ∈ s.entries, v (.message q e.id) = some (.string e.payload)
  clean : ∀ id, (∀ e ∈ s.entries, e.id ≠ id) → v (.message q id) = none
  nodup : (s.entries.map Entry.id).Nodup

/-- The keys of one queue, which may not exist -/
structure QueueHolds (v : Slot → Option Datum) (q : Str) (o : Option CacheQueue) : Prop where
  keys : KeysHold v q (o.getD .empty)
  gone : o = none → v (.info q) = none
  info : ∀ s, o = some s → v (.info q) = some (.hash s.fields)

structure NamesHold (v : Slot → Option Datum) (queues : Queues CacheQueue) : Prop where
  listed : ∃ l : List Str, l.Nodup ∧ (∀ q, q ∈ l ↔ (queues q).isSome) ∧ v .names = setDatum l

/-- The keyspace holds the queues. -/
structure Holds (keyPrefix : Str) (ks : Keyspace) (queues : Queues CacheQueue) : Prop
    extends NamesHold (view keyPrefix ks) queues where
  queue : ∀ q, QueueHolds (view keyPrefix ks) q (queues q)

/-- A queue is what its own keys say. -/
theorem QueueHolds.congr {v v' : Slot → Option Datum} {o : Option CacheQueue}
    (h : QueueHolds v q o) (hv : ∀ slot, slot.queue = some q → v' slot = v slot) :
    QueueHolds v' q o where
  keys := by
    constructor
    · rw [hv _ rfl]; exact h.keys.pending
    · rw [hv _ rfl]; exact h.keys.processing
    · intro e he
      rw [hv _ rfl]; exact h.keys.payload e he
    · intro id hid
      rw [hv _ rfl]; exact h.keys.clean id hid
    · exact h.keys.nodup
  gone ho := by rw [hv _ rfl]; exact h.gone ho
  info s ho := by rw [hv _ rfl]; exact h.info s ho

/-- A script that works on one queue -/
theorem Holds.update {queues : Queues CacheQueue} (h : Holds keyPrefix ks queues)
    {o : Option CacheQueue} (hnames : NamesHold (view keyPrefix ks') (Function.update queues q o))
    (hframe : ∀ slot q', slot.queue = some q' → q' ≠ q →
      view keyPrefix ks' slot = view keyPrefix ks slot)
    (hq : QueueHolds (view keyPrefix ks') q o) :
    Holds keyPrefix ks' (Function.update queues q o) where
  toNamesHold := hnames
  queue q' := by
    by_cases hq' : q' = q
    · subst hq'
      rw [Function.update_self]
      exact hq
    · rw [Function.update_of_ne hq']
      exact (h.queue q').congr fun slot hslot => hframe slot q' hslot hq'

/-! ## Parts of a member -/

theorem memberParts_member (d : Delivery) :
    memberParts d.member.1 = some (d.id.val, d.holder.val) :=
  splitOnce_append_cons d.id.bar_notMem d.holder.val

/-! ## Deleting payloads -/

/-- The view without the messages of some ids -/
def without (q : Str) (ids : List Uuid) (v : Slot → Option Datum) (slot : Slot) : Option Datum :=
  match slot with
  | .message q' id => if q' = q ∧ id ∈ ids then none else v (.message q' id)
  | slot => v slot

theorem without_nil (v : Slot → Option Datum) : without q [] v = v := by
  funext slot
  cases slot with
  | message q' id => simp [without]
  | _ => rfl

theorem without_cons (id : Uuid) (ids : List Uuid) (v : Slot → Option Datum) :
    without q ids (Function.update v (.message q id) none) = without q (id :: ids) v := by
  funext slot
  cases slot with
  | message q' id' =>
      simp only [without, Function.update_apply, Slot.message.injEq, List.mem_cons]
      by_cases hq : q' = q
      · by_cases hid : id' = id
        · simp [hq, hid]
        · simp [hq, hid]
      · simp [hq]
  | _ => simp [without]

theorem delMessages_apply (keyPrefix q : Str) (es : List Entry) (ks : Keyspace) :
    ∃ ks', delMessages (QueueKeys.new keyPrefix q).messagePrefix (es.map fun e => e.id.val) ks =
        (.ok (), ks') ∧
      view keyPrefix ks' = without q (es.map Entry.id) (view keyPrefix ks) := by
  induction es generalizing ks with
  | nil => exact ⟨ks, rfl, (without_nil _).symm⟩
  | cons e es ih =>
      obtain ⟨ks', hrun, hview⟩ :=
        ih (Function.update ks ((Slot.message q e.id).key keyPrefix) none)
      refine ⟨ks', hrun, ?_⟩
      rw [hview, view_update, without_cons, List.map_cons]

theorem delMembers_apply (keyPrefix q : Str) (ds : List Delivery) (ks : Keyspace) :
    ∃ ks', delMembers (QueueKeys.new keyPrefix q).messagePrefix
        (ds.map fun d => d.member.1) ks = (.ok (), ks') ∧
      view keyPrefix ks' = without q (ds.map fun d => d.id) (view keyPrefix ks) := by
  induction ds generalizing ks with
  | nil => exact ⟨ks, rfl, (without_nil _).symm⟩
  | cons d ds ih =>
      obtain ⟨ks', hrun, hview⟩ :=
        ih (Function.update ks ((Slot.message q d.id).key keyPrefix) none)
      refine ⟨ks', ?_, ?_⟩
      · rw [List.map_cons, delMembers, memberParts_member]
        exact hrun
      · rw [hview, view_update, without_cons, List.map_cons]

theorem without_without (as bs : List Uuid) (v : Slot → Option Datum) :
    without q bs (without q as v) = without q (as ++ bs) v := by
  funext slot
  cases slot with
  | message q' id =>
      simp only [without, List.mem_append]
      by_cases hq : q' = q
      · by_cases ha : id ∈ as <;> simp [hq, ha]
      · simp [hq]
  | _ => rfl

/-- How `clear` and `remove_queue` begin: the payloads of all messages of the queue go. -/
theorem purge_apply {α : Type} {s : CacheQueue} (h : KeysHold (view keyPrefix ks) q s)
    (next : List Str → List Str → Script α) :
    ∃ ks', (do
        let pending ← lrange (QueueKeys.new keyPrefix q).pending
        delMessages (QueueKeys.new keyPrefix q).messagePrefix pending
        let processing ← zrange (QueueKeys.new keyPrefix q).processing
        delMembers (QueueKeys.new keyPrefix q).messagePrefix processing
        next pending processing) ks =
      next (s.pending.map fun e => e.id.val) (s.processing.map fun d => d.member.1) ks' ∧
      view keyPrefix ks' = without q (s.entries.map Entry.id) (view keyPrefix ks) := by
  obtain ⟨ks₁, hrun₁, hview₁⟩ := delMessages_apply keyPrefix q s.pending ks
  obtain ⟨ks₂, hrun₂, hview₂⟩ := delMembers_apply keyPrefix q s.processing ks₁
  have hprocessing : view keyPrefix ks₁ (.processing q) =
      zsetDatum (s.processing.map Delivery.member) := by
    rw [hview₁]
    exact h.processing
  have hrange := zrange_apply hprocessing
  rw [List.map_map] at hrange
  refine ⟨ks₂, ?_, ?_⟩
  · exact (Act.bind_ok (lrange_apply h.pending) _).trans <| (Act.bind_ok hrun₁ _).trans <|
      (Act.bind_ok hrange _).trans <| (Act.bind_ok hrun₂ _)
  · rw [hview₂, hview₁, without_without, CacheQueue.entries, List.map_append, List.map_map]
    rfl

/-- Nothing is left of a queue whose payloads are gone and whose keys are deleted. -/
theorem KeysHold.purged {v v' : Slot → Option Datum} {s : CacheQueue} (h : KeysHold v q s)
    (hmessage : ∀ id, v' (.message q id) = without q (s.entries.map Entry.id) v (.message q id))
    (hpending : v' (.pending q) = none) (hprocessing : v' (.processing q) = none) :
    KeysHold v' q .empty where
  pending := hpending
  processing := hprocessing
  payload := fun e he => absurd he List.not_mem_nil
  clean := by
    intro id _
    rw [hmessage]
    simp only [without, true_and]
    split
    · rfl
    · next hid =>
        refine h.clean id fun e he heq => hid ?_
        exact List.mem_map.mpr ⟨e, he, heq⟩
  nodup := List.nodup_nil

/-! ## `create_queue` -/

theorem holds_empty (keyPrefix : Str) : Holds keyPrefix (fun _ => none) fun _ => none where
  listed := ⟨[], List.nodup_nil, by simp, rfl⟩
  queue _ := ⟨⟨rfl, rfl, fun e he => absurd he List.not_mem_nil, fun _ _ => rfl, List.nodup_nil⟩,
    fun _ => rfl, fun _ hs => by cases hs⟩

/-- The hash of a new queue -/
def newFields (now : Nat) : List (Str × Str) :=
  [(lastUpdated, secs now), (createdAt, secs now)]

theorem createQueueScript_holds {queues : Queues CacheQueue} (h : Holds keyPrefix ks queues)
    (q : Str) (now : Nat) (hq : queues q = none) :
    ∃ ks', createQueueScript (queueNamesKey keyPrefix) (QueueKeys.new keyPrefix q).info q now ks =
        (.ok 1, ks') ∧
      Holds keyPrefix ks' (Function.update queues q (some ⟨[], [], newFields now⟩)) := by
  obtain ⟨l, hl, hmem, hnames⟩ := h.listed
  have hnew : q ∉ l := by
    rw [hmem q, hq]
    simp
  have hgone := (h.queue q).gone hq
  have hkeys := (h.queue q).keys
  rw [hq] at hkeys
  -- the script adds the name and sets two fields of a hash that was not there
  obtain ⟨ks₁, hks₁⟩ : ∃ ks₁, ks₁ = Function.update ks (Slot.names.key keyPrefix)
      (setDatum (l ++ [q])) := ⟨_, rfl⟩
  have hview₁ : view keyPrefix ks₁ =
      Function.update (view keyPrefix ks) .names (setDatum (l ++ [q])) := by rw [hks₁, view_update]
  have hempty : asHash (view keyPrefix ks₁ (.info q)) = .ok [] := by
    rw [hview₁, Function.update_of_ne (by simp), hgone]
    rfl
  obtain ⟨ks₂, hks₂⟩ : ∃ ks₂, ks₂ = Function.update ks₁ ((Slot.info q).key keyPrefix)
      (some (.hash [(createdAt, secs now)])) := ⟨_, rfl⟩
  have hcreated : asHash (view keyPrefix ks₂ (.info q)) =
      .ok [(createdAt, secs now)] := by
    rw [hks₂, view_update, Function.update_self]
    rfl
  have hrun₁ : sadd (queueNamesKey keyPrefix) q ks = (.ok true, ks₁) := by
    rw [hks₁]
    exact sadd_new hnames hnew
  have hrun₂ : hset (QueueKeys.new keyPrefix q).info createdAt (secs now) ks₁ =
      (.ok (), ks₂) := by
    rw [hks₂]
    exact hset_apply hempty _ _
  refine ⟨_, (Act.bind_ok hrun₁ _).trans <| (Act.bind_ok hrun₂ _).trans <|
    Act.bind_ok (hset_apply hcreated _ _) _, ?_⟩
  have hview : view keyPrefix (Function.update ks₂ ((Slot.info q).key keyPrefix)
      (some (.hash (newFields now)))) = Function.update (Function.update (view keyPrefix ks) .names
        (setDatum (l ++ [q]))) (.info q) (some (.hash (newFields now))) := by
    rw [view_update, hks₂, view_update, Function.update_idem, hview₁]
  have hfields : (lastUpdated, secs now) ::
      [(createdAt, secs now)].filter (·.1 ≠ lastUpdated) = newFields now := by
    simp [newFields, createdAt_ne_lastUpdated]
  rw [hfields]
  refine h.update ⟨⟨l ++ [q], ?_, ?_, ?_⟩⟩ ?_ ⟨?_, ?_, ?_⟩
  · rw [List.nodup_append]
    refine ⟨hl, List.nodup_singleton q, ?_⟩
    intro a ha b hb hab
    exact hnew (List.mem_singleton.mp hb ▸ hab ▸ ha)
  · intro q'
    rw [List.mem_append, List.mem_singleton, hmem q']
    by_cases hq' : q' = q
    · simp [hq']
    · simp [hq']
  · rw [hview]
    simp
  · intro slot q' hslot hq'
    rw [hview]
    cases slot <;> simp_all [Slot.queue]
  · have hsame (slot : Slot) (hnames : slot ≠ .names) (hinfo : slot ≠ .info q) :
        view keyPrefix (Function.update ks₂ ((Slot.info q).key keyPrefix)
          (some (.hash (newFields now)))) slot = view keyPrefix ks slot := by
      rw [hview, Function.update_of_ne hinfo, Function.update_of_ne hnames]
    refine ⟨?_, ?_, fun e he => absurd he List.not_mem_nil, ?_, List.nodup_nil⟩
    · rw [hsame _ (by simp) (by simp)]
      exact hkeys.pending
    · rw [hsame _ (by simp) (by simp)]
      exact hkeys.processing
    · intro id hid
      rw [hsame _ (by simp) (by simp)]
      exact hkeys.clean id hid
  · intro h
    cases h
  · intro s hs
    rw [← Option.some.inj hs, hview, Function.update_self]

/-! ## `remove_queue` -/

theorem removeOne_holds {queues : Queues CacheQueue} (h : Holds keyPrefix ks queues) (q : Str) :
    ∃ ks', removeOne (queueNamesKey keyPrefix) (queueKeyPrefix keyPrefix) q ks = (.ok (), ks') ∧
      Holds keyPrefix ks' (Function.update queues q none) := by
  have hq := h.queue q
  obtain ⟨ks₁, hrun, hview⟩ := purge_apply hq.keys fun _ _ => do
    del ((Slot.info q).key keyPrefix)
    del ((Slot.pending q).key keyPrefix)
    del ((Slot.processing q).key keyPrefix)
    srem (Slot.names.key keyPrefix) q
  obtain ⟨l, hl, hmem, hnames⟩ := h.listed
  have hnames₁ : view keyPrefix (Function.update (Function.update (Function.update ks₁
      ((Slot.info q).key keyPrefix) none) ((Slot.pending q).key keyPrefix) none)
      ((Slot.processing q).key keyPrefix) none) .names = setDatum l := by
    simp only [view_update, hview]
    exact hnames
  refine ⟨_, hrun.trans (srem_apply hnames₁ q), ?_⟩
  refine h.update ⟨⟨l.filter (· ≠ q), hl.filter _, ?_, ?_⟩⟩ ?_ ⟨?_, ?_, ?_⟩
  · intro q'
    rw [List.mem_filter, hmem q', decide_eq_true_eq]
    by_cases hq' : q' = q
    · simp [hq']
    · simp [hq']
  · rw [view_update, Function.update_self]
  · intro slot q' hslot hq'
    simp only [view_update, hview]
    cases slot <;> simp_all [Slot.queue, without]
  · refine hq.keys.purged (fun id => ?_) ?_ ?_
    · simp [view_update, hview]
    · simp [view_update]
    · simp [view_update]
  · intro _
    simp [view_update]
  · intro s hs
    cases hs

theorem luaBelow_iff {n q : Str} : luaBelow n q = true ↔ InSubtree n q := by
  simp only [luaBelow, InSubtree, Bool.or_eq_true, decide_eq_true_eq]
  refine or_congr_right ?_
  rw [List.prefix_iff_eq_take, List.length_append]
  exact eq_comm

theorem removeLoop_holds (name : Str) (l : List Str) (removed : Nat)
    {queues : Queues CacheQueue} (h : Holds keyPrefix ks queues) :
    ∃ ks', removeLoop (queueNamesKey keyPrefix) (queueKeyPrefix keyPrefix) name l removed ks =
        (.ok (removed + l.countP (luaBelow name)), ks') ∧
      Holds keyPrefix ks' fun q => if q ∈ l ∧ InSubtree name q then none else queues q := by
  induction l generalizing ks queues removed with
  | nil => exact ⟨ks, rfl, by simpa using h⟩
  | cons q l ih =>
      unfold removeLoop
      by_cases hq : luaBelow name q = true
      · obtain ⟨ks₁, hrun₁, h₁⟩ := removeOne_holds h q
        obtain ⟨ks₂, hrun₂, h₂⟩ := ih (removed + 1) h₁
        refine ⟨ks₂, ?_, ?_⟩
        · rw [if_pos hq, Act.bind_ok hrun₁, hrun₂, List.countP_cons_of_pos hq]
          simp only [Nat.add_assoc, Nat.add_comm]
        · convert h₂ using 2 with q'
          rw [Function.update_apply]
          have hbelow := luaBelow_iff.mp hq
          by_cases hq' : q' = q
          · simp [hq', hbelow]
          · simp [hq']
      · obtain ⟨ks₂, hrun₂, h₂⟩ := ih removed h
        refine ⟨ks₂, ?_, ?_⟩
        · rw [if_neg hq, hrun₂, List.countP_cons_of_neg hq]
        · convert h₂ using 2 with q'
          have hbelow : ¬InSubtree name q := fun h => hq (luaBelow_iff.mpr h)
          by_cases hq' : q' = q
          · simp [hq', hbelow]
          · simp [hq']

/-- The queues without the subtree of a name -/
def prune {M : Type} (n : Str) (queues : Queues M) : Queues M :=
  fun q => if InSubtree n q then none else queues q

theorem removeQueueScript_holds {queues : Queues CacheQueue} (h : Holds keyPrefix ks queues)
    (name : Str) :
    ∃ removed ks', removeQueueScript (queueNamesKey keyPrefix) (queueKeyPrefix keyPrefix) name ks =
        (.ok removed, ks') ∧
      Holds keyPrefix ks' (prune name queues) ∧
      (removed = 0 ↔ ∀ q, InSubtree name q → queues q = none) := by
  obtain ⟨l, hl, hmem, hnames⟩ := h.listed
  obtain ⟨ks', hrun, hholds⟩ := removeLoop_holds name l 0 h
  refine ⟨_, ks', (Act.bind_ok (smembers_apply hnames) _).trans hrun, ?_, ?_⟩
  · convert hholds using 2 with q
    unfold prune
    by_cases hq : q ∈ l
    · simp [hq]
    · have hnone : queues q = none := by
        rw [hmem q, Option.not_isSome_iff_eq_none] at hq
        exact hq
      simp [hq, hnone]
  · rw [Nat.zero_add, List.countP_eq_zero]
    constructor
    · intro hnot q hq
      by_contra hne
      exact hnot q ((hmem q).mpr (Option.isSome_iff_ne_none.mpr hne)) (luaBelow_iff.mpr hq)
    · intro hnone q hq hbelow
      have := (hmem q).mp hq
      rw [hnone q (luaBelow_iff.mp hbelow)] at this
      cases this

end OpenViking.Queuefs
