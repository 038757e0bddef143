/-
# `OpenViking.Queuefs.Subtrees` — removing and listing queues on the three backends

`remove_queue(n)` should delete the queue `n` and the queues below it, on every
backend, and `list_queues(p)` should list the same names.  Only the cache backend
removes exactly the subtree.  The memory backend removes one queue and leaves the
queues below it; the SQLite backend selects with an unescaped `LIKE`, so it also
deletes queues whose name matches the name as a pattern (`a_` selects `ab/x`) or
differs in case.  `list_queues` of the SQLite backend lists the subtree of the
prefix where the others list every name that begins with it.

`remove_queue_iff` gives, for any set of queues, the condition under which all
three agree with the subtree.
-/
import OpenViking.Queuefs.CacheQueues

namespace OpenViking.Queuefs

open OpenViking.Lib
open OpenViking.Lib.Keyspace

/-- A call that removes the subtree of `n`: the queues before and after it, and
what it returned -/
structure RemovesSubtree {M : Type} (n : Str) (before after : Queues M)
    (result : Except Error Unit) : Prop where
  pruned : after = prune n before
  removed : (∃ q, InSubtree n q ∧ before q ≠ none) → result = .ok ()
  missing : (∀ q, InSubtree n q → before q = none) → result = .error (queueNotFound n)

theorem prune_of_inSubtree {M : Type} {n q : Str} (queues : Queues M) (h : InSubtree n q) :
    prune n queues q = none := if_pos h

theorem prune_of_not {M : Type} {n q : Str} (queues : Queues M) (h : ¬InSubtree n q) :
    prune n queues q = queues q := if_neg h

theorem not_inSubtree_of_ne {n q : Str} (hne : q ≠ n) (h : ¬n ++ ['/'] <+: q) : ¬InSubtree n q :=
  fun hin => hin.elim hne h

theorem ne_of_below {n q : Str} (h : n ++ ['/'] <+: q) : q ≠ n := by
  intro heq
  have hlen := h.length_le
  rw [heq, List.length_append] at hlen
  exact absurd hlen (by simp)

/-! ## Memory -/

namespace MemoryBackend

def view (m : MemoryBackend) : Queues Queue := m.queues.get

theorem removeQueue_eq (m : MemoryBackend) (n : Str) :
    removeQueue n m =
      if m.view n = none then (.error (queueNotFound n), m) else (.ok (), ⟨m.queues.erase n⟩) := by
  unfold removeQueue view
  cases m.queues.get n with
  | none => rfl
  | some queue => rfl

theorem view_removeQueue (m : MemoryBackend) (n q : Str) :
    (removeQueue n m).2.view q = if q = n then none else m.view q := by
  rw [removeQueue_eq]
  split
  · next hn =>
      split
      · next hq => rw [hq]; exact hn
      · rfl
  · simp only [view, Dict.get_erase, eq_comm]

theorem removeQueue_iff (m : MemoryBackend) (n : Str) :
    RemovesSubtree n m.view (removeQueue n m).2.view (removeQueue n m).1 ↔
      ∀ q, m.view q ≠ none → ¬n ++ ['/'] <+: q := by
  constructor
  · -- a queue below the name is still there, although the call should have removed it
    intro h q hq hbelow
    have hafter := congrFun h.pruned q
    rw [prune_of_inSubtree _ (.inr hbelow), view_removeQueue, if_neg (ne_of_below hbelow)] at hafter
    exact hq hafter
  · intro h
    refine ⟨?_, ?_, ?_⟩
    · funext q
      rw [view_removeQueue]
      by_cases hq : q = n
      · rw [if_pos hq, prune_of_inSubtree _ (.inl hq)]
      · rw [if_neg hq]
        by_cases hbelow : n ++ ['/'] <+: q
        · rw [prune_of_inSubtree _ (.inr hbelow)]
          by_contra hne
          exact h q hne hbelow
        · rw [prune_of_not _ (not_inSubtree_of_ne hq hbelow)]
    · rintro ⟨q, hin, hq⟩
      rcases hin with rfl | hbelow
      · rw [removeQueue_eq, if_neg hq]
      · exact absurd hbelow (h q hq)
    · intro hnone
      rw [removeQueue_eq, if_pos (hnone n (.inl rfl))]

theorem mem_listQueues {m : MemoryBackend} {pre q : Str} :
    q ∈ m.listQueues pre ↔ m.view q ≠ none ∧ pre <+: q := by
  have hkeys : q ∈ m.queues.keys ↔ m.view q ≠ none := by
    rw [view, Ne, Dict.get_eq_none, not_not]
  unfold listQueues
  split
  · next hempty =>
      rw [hkeys, List.isEmpty_iff.mp hempty]
      exact ⟨fun h => ⟨h, List.nil_prefix⟩, And.left⟩
  · rw [List.mem_filter, hkeys, List.isPrefixOf_iff_prefix]

end MemoryBackend

/-! ## SQLite -/

/-- What the tables say about one queue -/
structure SqlQueue where
  registered : Bool
  rows : List Row
  deriving DecidableEq

namespace Db

def view (db : Db) : Queues SqlQueue := fun q =>
  if db.queueKnown q then some ⟨decide (q ∈ db.metadata), db.rowsOf q⟩ else none

/-- Every message belongs to a queue in `queue_metadata`. -/
def Filed (db : Db) : Prop := ∀ row ∈ db.messages, row.queueName ∈ db.metadata

theorem view_ne_none {db : Db} {q : Str} : db.view q ≠ none ↔ db.queueKnown q := by
  unfold view
  split
  · next h => exact iff_of_true (Option.some_ne_none _) h
  · next h => exact iff_of_false (fun hne => hne rfl) h

theorem queueKnown_iff {db : Db} {q : Str} :
    db.queueKnown q ↔ q ∈ db.metadata ∨ ∃ row ∈ db.messages, row.queueName = q := by
  simp [queueKnown]

theorem Filed.queueKnown {db : Db} (h : db.Filed) {q : Str} :
    db.queueKnown q ↔ q ∈ db.metadata := by
  rw [queueKnown_iff]
  refine ⟨fun hq => hq.elim id ?_, .inl⟩
  rintro ⟨row, hrow, rfl⟩
  exact h row hrow

/-- What is left after both statements -/
def removed (n : Str) (db : Db) : Db := (db.removeMessages n).removeMetadata n

theorem mem_metadata_removed {db : Db} {n q : Str} :
    q ∈ (db.removed n).metadata ↔ q ∈ db.metadata ∧ selected n q = false := by
  simp [removed, removeMetadata, removeMessages, keepNames, keepRows]

theorem messages_removed (db : Db) (n : Str) :
    (db.removed n).messages = db.messages.filter fun row => !selected n row.queueName := rfl

theorem view_removed (db : Db) (n q : Str) :
    (db.removed n).view q = if selected n q then none else db.view q := by
  have hknown : (db.removed n).queueKnown q ↔ db.queueKnown q ∧ selected n q = false := by
    rw [queueKnown_iff, queueKnown_iff, mem_metadata_removed, messages_removed]
    constructor
    · rintro (h | ⟨row, hrow, rfl⟩)
      · exact ⟨.inl h.1, h.2⟩
      · rw [List.mem_filter] at hrow
        exact ⟨.inr ⟨row, hrow.1, rfl⟩, by simpa using hrow.2⟩
    · rintro ⟨h | ⟨row, hrow, rfl⟩, hq⟩
      · exact .inl ⟨h, hq⟩
      · exact .inr ⟨row, List.mem_filter.mpr ⟨hrow, by simpa using hq⟩, rfl⟩
  by_cases hsel : selected n q = true
  · rw [if_pos hsel, view, if_neg]
    intro h
    exact Bool.false_ne_true ((hknown.mp h).2.symm.trans hsel)
  · have hfalse := Bool.eq_false_iff.mpr hsel
    have hrows : (db.removed n).rowsOf q = db.rowsOf q := by
      rw [rowsOf, rowsOf, messages_removed, List.filter_filter]
      refine List.filter_congr fun row _ => ?_
      by_cases hrow : row.queueName = q
      · simp [hrow, hfalse]
      · simp [hrow]
    have hmeta : q ∈ (db.removed n).metadata ↔ q ∈ db.metadata := by
      rw [mem_metadata_removed]
      exact ⟨And.left, fun h => ⟨h, hfalse⟩⟩
    rw [if_neg hsel, view, view, hrows]
    simp only [hmeta, hknown, hfalse, and_true]

theorem removeQueue_eq (db : Db) (n : Str) :
    (removeQueue n db).2 = db.removed n ∧
      ((∃ q, db.view q ≠ none ∧ selected n q = true) → (removeQueue n db).1 = .ok ()) ∧
      ((∀ q, selected n q = true → db.view q = none) →
        (removeQueue n db).1 = .error (queueNotFound n)) := by
  have hcount : (db.messages.countP (fun row => selected n row.queueName) = 0 ∧
      db.metadata.countP (fun q => selected n q) = 0) ↔
        ∀ q, selected n q = true → db.view q = none := by
    rw [List.countP_eq_zero, List.countP_eq_zero]
    constructor
    · rintro ⟨hrows, hmeta⟩ q hq
      by_contra hne
      rcases queueKnown_iff.mp (view_ne_none.mp hne) with h | ⟨row, hrow, rfl⟩
      · exact hmeta q h hq
      · exact hrows row hrow hq
    · intro h
      refine ⟨fun row hrow hsel => ?_, fun q hq hsel => ?_⟩
      · exact view_ne_none.mpr (queueKnown_iff.mpr (.inr ⟨row, hrow, rfl⟩)) (h _ hsel)
      · exact view_ne_none.mpr (queueKnown_iff.mpr (.inl hq)) (h q hsel)
  unfold removeQueue
  refine ⟨?_, ?_, ?_⟩
  · dsimp only
    split <;> rfl
  · rintro ⟨q, hq, hsel⟩
    dsimp only
    rw [if_neg fun h => hq (hcount.mp h q hsel)]
  · intro h
    dsimp only
    rw [if_pos (hcount.mpr h)]

theorem selected_iff {n q : Str} :
    selected n q = true ↔ q = n ∨ like (subtreePattern n) q = true := by
  simp [selected]

theorem removeQueue_iff (db : Db) (n : Str) :
    RemovesSubtree n db.view (removeQueue n db).2.view (removeQueue n db).1 ↔
      ∀ q, db.view q ≠ none → like (subtreePattern n) q → InSubtree n q := by
  obtain ⟨hstate, hok, hmissing⟩ := removeQueue_eq db n
  rw [hstate]
  constructor
  · intro h q hq hlike
    by_contra hout
    have hafter := congrFun h.pruned q
    rw [prune_of_not _ hout, view_removed, if_pos (selected_iff.mpr (.inr hlike))] at hafter
    exact hq hafter.symm
  · intro h
    have hsel (q : Str) (hq : db.view q ≠ none) : selected n q = true ↔ InSubtree n q := by
      refine ⟨fun hs => ?_, selected_of_inSubtree⟩
      rcases selected_iff.mp hs with rfl | hlike
      · exact .inl rfl
      · exact h q hq hlike
    refine ⟨?_, ?_, ?_⟩
    · funext q
      rw [view_removed]
      by_cases hq : db.view q = none
      · rw [hq, ite_self, prune, hq, ite_self]
      · simp only [prune, hsel q hq]
    · rintro ⟨q, hin, hq⟩
      exact hok ⟨q, hq, selected_of_inSubtree hin⟩
    · intro hnone
      refine hmissing fun q hs => ?_
      by_contra hq
      exact hq (hnone q ((hsel q hq).mp hs))

theorem mem_listQueues {db : Db} (h : db.Filed) {pre q : Str} :
    q ∈ db.listQueues pre ↔ db.view q ≠ none ∧ (pre = [] ∨ selected pre q = true) := by
  rw [view_ne_none, h.queueKnown]
  unfold listQueues orderByName
  split
  · next hempty =>
      rw [List.mem_insertionSort]
      exact ⟨fun hq => ⟨hq, .inl (List.isEmpty_iff.mp hempty)⟩, And.left⟩
  · next hempty =>
      rw [List.mem_insertionSort, List.mem_filter]
      refine and_congr_right fun _ => ⟨.inr, fun hq => hq.resolve_left fun hnil => ?_⟩
      exact hempty (List.isEmpty_iff.mpr hnil)

end Db

/-! ## Cache -/

namespace CacheQueueStorage

variable {storage : CacheQueueStorage} {ks : Keyspace} {queues : Queues CacheQueue}

theorem execute_ok {α : Type} {operation : String} {script : Script α} {ks ks' : Keyspace} {a : α}
    (h : script ks = (.ok a, ks')) : execute operation script ks = (.ok a, ks') := by
  unfold execute
  rw [h]
  rfl

theorem removeQueue_holds (h : Holds storage.keyPrefix ks queues) (n : Str) :
    ∃ after, Holds storage.keyPrefix (storage.removeQueue n ks).2 after ∧
      RemovesSubtree n queues after (storage.removeQueue n ks).1 := by
  obtain ⟨removed, ks', hrun, hholds, hzero⟩ := removeQueueScript_holds h n
  have hcall : storage.removeQueue n ks =
      (if removed = 0 then Act.fail (queueNotFound n) else pure () : Call Unit) ks' :=
    Act.bind_ok (execute_ok hrun) _
  refine ⟨prune n queues, ?_, rfl, ?_, ?_⟩
  · rw [hcall]
    split <;> exact hholds
  · rintro ⟨q, hin, hq⟩
    rw [hcall, if_neg fun h => hq (hzero.mp h q hin)]
    rfl
  · intro hnone
    rw [hcall, if_pos (hzero.mpr hnone)]
    rfl

theorem mem_listQueues (h : Holds storage.keyPrefix ks queues) (pre : Str) :
    ∃ l, (storage.listQueues pre ks).1 = .ok l ∧
      ∀ q, q ∈ l ↔ queues q ≠ none ∧ pre <+: q := by
  obtain ⟨l, hl, hmem, hnames⟩ := h.listed
  have hcall : storage.listQueues pre ks =
      (.ok ((l.filter (pre.isPrefixOf ·)).insertionSort (· ≤ ·)), ks) :=
    Act.bind_ok (execute_ok (smembers_apply hnames)) _
  refine ⟨_, congrArg Prod.fst hcall, fun q => ?_⟩
  rw [List.mem_insertionSort, List.mem_filter, hmem q, List.isPrefixOf_iff_prefix,
    Option.isSome_iff_ne_none]

end CacheQueueStorage

/-! ## The three backends -/

section

variable (names : Set Str) (mem : MemoryBackend) (db : Db) (storage : CacheQueueStorage)
  (ks : Keyspace) (queues : Queues CacheQueue)

/-- The three backends have the same queues; what is in them may differ. -/
structure SameQueues : Prop where
  memory : ∀ q, mem.view q ≠ none ↔ q ∈ names
  sqlite : ∀ q, db.view q ≠ none ↔ q ∈ names
  filed : db.Filed
  holds : Holds storage.keyPrefix ks queues
  cache : ∀ q, queues q ≠ none ↔ q ∈ names

/-- `remove_queue(n)` removes the subtree of `n` on all three, and `list_queues(p)`
lists the same names. -/
structure Agree (n p : Str) : Prop where
  memory : RemovesSubtree n mem.view (MemoryBackend.removeQueue n mem).2.view
    (MemoryBackend.removeQueue n mem).1
  sqlite : RemovesSubtree n db.view (Db.removeQueue n db).2.view (Db.removeQueue n db).1
  cache : ∃ after, Holds storage.keyPrefix (storage.removeQueue n ks).2 after ∧
    RemovesSubtree n queues after (storage.removeQueue n ks).1
  listSqlite : ∀ q, q ∈ db.listQueues p ↔ q ∈ mem.listQueues p
  listCache : ∃ l, (storage.listQueues p ks).1 = .ok l ∧ ∀ q, q ∈ l ↔ q ∈ mem.listQueues p

/-- On no backend does a name mean more or less than its subtree: no queue lies below
the removed name, no other name matches it as a pattern, and the names that begin with
the listed prefix are those that match it. -/
structure Plain (n p : Str) : Prop where
  leaf : ∀ q ∈ names, ¬n ++ ['/'] <+: q
  literal : ∀ q ∈ names, like (subtreePattern n) q → InSubtree n q
  listed : p = [] ∨ ∀ q ∈ names, p <+: q ↔ q = p ∨ like (subtreePattern p) q

variable {names mem db storage ks queues}

theorem remove_queue_iff (h : SameQueues names mem db storage ks queues) (n p : Str) :
    Agree mem db storage ks queues n p ↔ Plain names n p := by
  have hlist : (∀ q, q ∈ db.listQueues p ↔ q ∈ mem.listQueues p) ↔
      (p = [] ∨ ∀ q ∈ names, p <+: q ↔ q = p ∨ like (subtreePattern p) q) := by
    simp only [Db.mem_listQueues h.filed, MemoryBackend.mem_listQueues, h.sqlite, h.memory,
      Db.selected_iff, and_congr_right_iff]
    constructor
    · intro hall
      refine or_iff_not_imp_left.mpr fun hp q hq => ?_
      rw [← hall q hq]
      exact ⟨fun hs => hs.resolve_left hp, .inr⟩
    · rintro (rfl | hall) q hq
      · exact iff_of_true (.inl rfl) List.nil_prefix
      · rw [hall q hq]
        refine ⟨fun hs => hs.elim (fun hp => ?_) id, .inr⟩
        exact (hall q hq).mp (hp ▸ List.nil_prefix)
  constructor
  · intro hagree
    refine ⟨fun q hq => ?_, fun q hq => ?_, hlist.mp hagree.listSqlite⟩
    · exact (mem.removeQueue_iff n).mp hagree.memory q ((h.memory q).mpr hq)
    · exact (db.removeQueue_iff n).mp hagree.sqlite q ((h.sqlite q).mpr hq)
  · intro hplain
    refine ⟨?_, ?_, CacheQueueStorage.removeQueue_holds h.holds n, hlist.mpr hplain.listed, ?_⟩
    · exact (mem.removeQueue_iff n).mpr fun q hq => hplain.leaf q ((h.memory q).mp hq)
    · exact (db.removeQueue_iff n).mpr fun q hq => hplain.literal q ((h.sqlite q).mp hq)
    · obtain ⟨l, hl, hmem⟩ := CacheQueueStorage.mem_listQueues h.holds p
      refine ⟨l, hl, fun q => ?_⟩
      rw [hmem, MemoryBackend.mem_listQueues, h.cache, h.memory]

/-- What the keys of a family of queues hold -/
def datumOf (names : List Str) (queues : Queues CacheQueue) : Slot → Option Datum
  | .names => setDatum names
  | .info q => (queues q).map fun s => .hash s.fields
  | .pending q => listDatum (((queues q).getD .empty).pending.map fun e => e.id.val)
  | .processing q => zsetDatum (((queues q).getD .empty).processing.map Delivery.member)
  | .message q id =>
      (((queues q).getD .empty).entries.find? (·.id = id)).map fun e => .string e.payload
  | .alive _ => none

/-- Every finite family of queues is held by a keyspace. -/
theorem exists_holds (keyPrefix : Str) {names : List Str} {queues : Queues CacheQueue}
    (hnames : names.Nodup) (hmem : ∀ q, q ∈ names ↔ (queues q).isSome)
    (hids : ∀ q s, queues q = some s → (s.entries.map Entry.id).Nodup) :
    ∃ ks, Holds keyPrefix ks queues := by
  refine ⟨Function.extend (Slot.key keyPrefix) (datumOf names queues) fun _ => none, ?_⟩
  have hview : view keyPrefix (Function.extend (Slot.key keyPrefix) (datumOf names queues)
      fun _ => none) = datumOf names queues :=
    funext fun slot => (Slot.key_injective keyPrefix).extend_apply _ _ slot
  have hnodup : ∀ q, (((queues q).getD .empty).entries.map Entry.id).Nodup := by
    intro q
    cases hq : queues q with
    | none => exact List.nodup_nil
    | some s => exact hids q s hq
  refine ⟨⟨names, hnames, hmem, by rw [hview]; rfl⟩, fun q => ?_⟩
  rw [hview]
  refine ⟨⟨rfl, rfl, fun e he => ?_, fun id hid => ?_, hnodup q⟩, fun hq => ?_, fun s hq => ?_⟩
  · have hfound : ((queues q).getD .empty).entries.find? (·.id = e.id) = some e := by
      cases hfind : ((queues q).getD .empty).entries.find? (·.id = e.id) with
      | none => exact absurd (decide_eq_true rfl) (List.find?_eq_none.mp hfind e he)
      | some other =>
          have hother := List.mem_of_find?_eq_some hfind
          have hsame : other.id = e.id := by simpa using List.find?_some hfind
          rw [List.inj_on_of_nodup_map (hnodup q) hother he hsame]
    rw [datumOf, hfound]
    rfl
  · have hnone : ((queues q).getD .empty).entries.find? (·.id = id) = none :=
      List.find?_eq_none.mpr fun e he => by simpa using hid e he
    rw [datumOf, hnone]
    rfl
  · rw [datumOf, hq]
    rfl
  · rw [datumOf, hq]
    rfl

/-- Backends on which one queue was created -/
theorem sameQueues_create (storage : CacheQueueStorage) (q : Str) :
    ∃ queues, SameQueues {q} (MemoryBackend.createQueue q .new).2 (Db.createQueue q .empty).2
      storage (storage.createQueue 0 q fun _ => none).2 queues := by
  obtain ⟨ks', hrun, hholds⟩ := createQueueScript_holds (holds_empty storage.keyPrefix) q 0 rfl
  have hcall : storage.createQueue 0 q (fun _ => none) = (.ok (), ks') :=
    Act.bind_ok (CacheQueueStorage.execute_ok hrun) _
  refine ⟨_, ⟨fun q' => ?_, fun q' => ?_, ?_, by rw [hcall]; exact hholds, fun q' => ?_⟩⟩
  · change (Dict.empty.set q Queue.new).get q' ≠ none ↔ q' = q
    rw [Dict.get_set]
    by_cases hq : q = q'
    · rw [if_pos hq]
      exact iff_of_true (Option.some_ne_none _) hq.symm
    · rw [if_neg hq]
      exact iff_of_false (fun hne => hne rfl) fun h => hq h.symm
  · rw [Db.view_ne_none, Db.queueKnown_iff]
    simp [Db.createQueue, Db.empty, Db.insertName]
  · intro row hrow
    exact absurd hrow List.not_mem_nil
  · rw [Function.update_apply]
    by_cases hq : q' = q
    · rw [if_pos hq]
      exact iff_of_true (Option.some_ne_none _) hq
    · rw [if_neg hq]
      exact iff_of_false (fun hne => hne rfl) hq

end

namespace Sample

def instanceId : Uuid := ⟨List.replicate 36 '0', List.length_replicate, by
  intro c hc
  rw [List.eq_of_mem_replicate hc]
  decide⟩

def storage : CacheQueueStorage := ⟨['q'], instanceId⟩

/-- A text of the length of a UUID -/
def numbered (c : Char) (h : isUuidChar c = true) : Uuid := ⟨List.replicate 36 c,
  List.length_replicate, fun d hd => by rw [List.eq_of_mem_replicate hd]; exact h⟩

def first : Uuid := numbered '1' rfl

def second : Uuid := numbered '2' rfl

def letter : Uuid := numbered '3' rfl

def queueNames : List Str :=
  ["jobs".toList, "jobs/a".toList, "jobs/b".toList, "mail".toList]

/-- Two messages in `jobs/a`, the first of which is being processed, and one in `mail` -/
def memory : MemoryBackend :=
  ⟨(((Dict.empty.set "jobs".toList .new).set "jobs/a".toList ⟨[⟨second, [98], 6⟩], 6⟩).set
    "jobs/b".toList .new).set "mail".toList ⟨[⟨letter, [99], 7⟩], 7⟩⟩

def sqlite : Db where
  metadata := queueNames
  messages := [⟨0, "jobs/a".toList, first, ['a'], 5, .processing, some 8⟩,
    ⟨1, "jobs/a".toList, second, ['b'], 6, .pending, none⟩,
    ⟨2, "mail".toList, letter, ['c'], 7, .pending, none⟩]
  nextId := 3
  unique := by decide
  ascending := by decide
  fresh := by decide

def cached : Queues CacheQueue := fun q =>
  if q = "jobs".toList then some .empty
  else if q = "jobs/a".toList then some ⟨[⟨second, ['b']⟩], [⟨⟨first, ['a']⟩, instanceId, 8⟩], []⟩
  else if q = "jobs/b".toList then some .empty
  else if q = "mail".toList then some ⟨[⟨letter, ['c']⟩], [], []⟩
  else none

theorem cached_nodup {q : Str} {s : CacheQueue} (h : cached q = some s) :
    (s.entries.map Entry.id).Nodup := by
  rw [cached] at h
  split at h
  · cases h
    decide
  split at h
  · cases h
    decide
  split at h
  · cases h
    decide
  split at h
  · cases h
    decide
  · cases h

theorem mem_queueNames (q : Str) : q ∈ queueNames ↔ (cached q).isSome := by
  rw [queueNames, cached]
  simp only [List.mem_cons, List.not_mem_nil, or_false]
  split
  · next h => exact iff_of_true (.inl h) rfl
  split
  · next h => exact iff_of_true (.inr (.inl h)) rfl
  split
  · next h => exact iff_of_true (.inr (.inr (.inl h))) rfl
  split
  · next h => exact iff_of_true (.inr (.inr (.inr h))) rfl
  · next h₁ h₂ h₃ h₄ =>
      refine iff_of_false ?_ Bool.false_ne_true
      rintro (h | h | h | h)
      · exact h₁ h
      · exact h₂ h
      · exact h₃ h
      · exact h₄ h

/-- The three backends with their messages -/
theorem sameQueues_jobs : ∃ ks,
    SameQueues {q | q ∈ queueNames} memory sqlite storage ks cached := by
  obtain ⟨ks, hholds⟩ := exists_holds storage.keyPrefix (by decide : queueNames.Nodup)
    mem_queueNames fun q s => cached_nodup
  have hfiled : sqlite.Filed := by
    rw [Db.Filed]
    decide
  refine ⟨ks, fun q => ?_, fun q => ?_, hfiled, hholds, fun q => ?_⟩
  · rw [MemoryBackend.view, Ne, Dict.get_eq_none, not_not]
    rfl
  · rw [Db.view_ne_none, hfiled.queueKnown]
    rfl
  · rw [← Option.isSome_iff_ne_none, ← mem_queueNames]
    rfl

/-- The backends agree on removing `jobs/a` with its messages, which leaves the other queues and
the letter, and on listing what is in `jobs`. -/
theorem remove_jobs_agrees : ∃ ks,
    SameQueues {q | q ∈ queueNames} memory sqlite storage ks cached ∧
    Agree memory sqlite storage ks cached "jobs/a".toList "jobs".toList ∧
    (Db.removeQueue "jobs/a".toList sqlite).2.messages.map Row.messageId = [letter] := by
  obtain ⟨ks, h⟩ := sameQueues_jobs
  refine ⟨ks, h, (remove_queue_iff h _ _).mpr ⟨?_, ?_, .inr ?_⟩, by decide +kernel⟩
  · have hall : ∀ q ∈ queueNames, ¬"jobs/a".toList ++ ['/'] <+: q := by decide +kernel
    exact hall
  · have hall : ∀ q ∈ queueNames, like (subtreePattern "jobs/a".toList) q = true →
        InSubtree "jobs/a".toList q := by decide +kernel
    exact hall
  · have hall : ∀ q ∈ queueNames, "jobs".toList <+: q ↔
        q = "jobs".toList ∨ like (subtreePattern "jobs".toList) q = true := by decide +kernel
    exact hall

/-- `remove_queue("a_")` on the SQLite backend deletes the queue `ab/x`. -/
theorem remove_deletes_other_queue : ∃ queues,
    SameQueues {['a', 'b', '/', 'x']} (MemoryBackend.createQueue ['a', 'b', '/', 'x'] .new).2
      (Db.createQueue ['a', 'b', '/', 'x'] .empty).2 storage
      (storage.createQueue 0 ['a', 'b', '/', 'x'] fun _ => none).2 queues ∧
    (Db.removeQueue ['a', '_'] (Db.createQueue ['a', 'b', '/', 'x'] .empty).2).1 = .ok () ∧
    (Db.removeQueue ['a', '_'] (Db.createQueue ['a', 'b', '/', 'x'] .empty).2).2.metadata = [] ∧
    ¬Agree (MemoryBackend.createQueue ['a', 'b', '/', 'x'] .new).2
      (Db.createQueue ['a', 'b', '/', 'x'] .empty).2 storage
      (storage.createQueue 0 ['a', 'b', '/', 'x'] fun _ => none).2 queues ['a', '_'] [] := by
  obtain ⟨queues, h⟩ := sameQueues_create storage ['a', 'b', '/', 'x']
  refine ⟨queues, h, rfl, rfl, fun hagree => ?_⟩
  have hafter := congrFun hagree.sqlite.pruned ['a', 'b', '/', 'x']
  rw [prune_of_not _ (by decide)] at hafter
  exact (h.sqlite _).mpr rfl hafter.symm

end Sample

end OpenViking.Queuefs
