/-
# `OpenViking.Tracker.LockPool` — locks by key that leave nothing behind

`KeyedAsyncLockPool` of the task tracker over `asyncio.Lock`.  A call of `acquire` counts itself
as a user of the key's entry, waits for the lock of the entry, and on its way out, normal or
cancelled, counts itself off; the last user takes the entry away.

Calls interleave at their awaits: a call that finds the lock taken waits for a future, its task
can be cancelled before it runs again, and the lock can be handed to it and lost again in the
meantime.

    `pool_safe`   at every moment of every run a key has at most one holder, and an entry
                  exactly if it has a holder or a waiter

Entries have an identity here, since the pool asks whether the entry it removes is still the one
in the table.
-/
import OpenViking.Lib.History
import Mathlib.Logic.Function.Basic
import Mathlib.Data.List.Nodup

namespace OpenViking.Tracker

open OpenViking.Lib Function

variable {τ κ : Type} [DecidableEq τ] [DecidableEq κ]

/-! ## `asyncio.Lock` -/

/-- The future a waiter waits for -/
inductive Wake
  | pending
  | woken
  | cancelled
  deriving DecidableEq

structure AsyncLock (τ : Type) where
  locked : Bool
  waiters : List (τ × Wake)

namespace AsyncLock

def new : AsyncLock τ := ⟨false, []⟩

/-- A caller need not wait: nobody has the lock, and nobody is about to get it. -/
def Free (l : AsyncLock τ) : Prop := l.locked = false ∧ ∀ w ∈ l.waiters, w.2 = .cancelled

instance (l : AsyncLock τ) : Decidable l.Free :=
  inferInstanceAs (Decidable (l.locked = false ∧ ∀ w ∈ l.waiters, w.2 = .cancelled))

/-- `_wake_up_first`: a future that is done is left alone. -/
def wakeUpFirst (l : AsyncLock τ) : AsyncLock τ :=
  match l.waiters with
  | (t, .pending) :: rest => { l with waiters := (t, .woken) :: rest }
  | (_, .woken) :: _ => l
  | (_, .cancelled) :: _ => l
  | [] => l

def release (l : AsyncLock τ) : AsyncLock τ := wakeUpFirst { l with locked := false }

def enqueue (l : AsyncLock τ) (t : τ) : AsyncLock τ :=
  { l with waiters := l.waiters ++ [(t, .pending)] }

def remove (l : AsyncLock τ) (t : τ) : AsyncLock τ :=
  { l with waiters := l.waiters.filter fun w => w.1 ≠ t }

/-- A waiter that runs again with its future set takes the lock. -/
def take (l : AsyncLock τ) (t : τ) : AsyncLock τ := { l.remove t with locked := true }

/-- A waiter that runs again cancelled hands the wake-up on. -/
def giveUp (l : AsyncLock τ) (t : τ) : AsyncLock τ :=
  if (l.remove t).locked then l.remove t else (l.remove t).wakeUpFirst

/-- The future of a waiting call is cancelled. -/
def cancelFuture (l : AsyncLock τ) (t : τ) : AsyncLock τ :=
  { l with waiters := l.waiters.map fun w => if w = (t, .pending) then (t, .cancelled) else w }

end AsyncLock

/-! ## The pool -/

structure LockEntry (τ : Type) where
  lock : AsyncLock τ
  users : Nat

/-- Where a call of `acquire` is; `entry` is the entry it found or made. -/
inductive Phase (κ : Type)
  | outside
  /-- `mustCancel`: its task was cancelled after its future was done. -/
  | waiting (key : κ) (entry : Nat) (mustCancel : Bool)
  | holding (key : κ) (entry : Nat)

/-- The key and the entry a call uses -/
def Phase.place : Phase κ → Option (κ × Nat)
  | .outside => none
  | .waiting key entry _ => some (key, entry)
  | .holding key entry => some (key, entry)

structure Pool (τ κ : Type) where
  entries : κ → Option Nat
  heap : Nat → LockEntry τ
  next : Nat
  calls : τ → Phase κ

inductive PoolEvent (τ κ : Type)
  | enter (t : τ) (key : κ)
  /-- The task of a call is cancelled. -/
  | cancel (t : τ)
  /-- The call runs again; its future is done. -/
  | resume (t : τ)
  /-- The body ends, in whatever way. -/
  | leave (t : τ)

namespace Pool

def init : Pool τ κ := ⟨fun _ => none, fun _ => ⟨.new, 0⟩, 0, fun _ => .outside⟩

/-- A call moves on and leaves the entry like this. -/
def put (s : Pool τ κ) (id : Nat) (e : LockEntry τ) (t : τ) (phase : Phase κ) : Pool τ κ :=
  { s with heap := update s.heap id e, calls := update s.calls t phase }

/-- A new entry for a key that has none -/
def create (s : Pool τ κ) (key : κ) : Pool τ κ :=
  { s with entries := update s.entries key (some s.next)
           heap := update s.heap s.next ⟨.new, 0⟩
           next := s.next + 1 }

/-- `acquire` up to its first await, if it has to wait -/
def enterEntry (s : Pool τ κ) (t : τ) (key : κ) (id : Nat) : Pool τ κ :=
  let e := s.heap id
  if e.lock.Free then
    s.put id ⟨{ e.lock with locked := true }, e.users + 1⟩ t (.holding key id)
  else s.put id ⟨e.lock.enqueue t, e.users + 1⟩ t (.waiting key id false)

def enter (s : Pool τ κ) (t : τ) (key : κ) : Pool τ κ :=
  match s.entries key with
  | some id => s.enterEntry t key id
  | none => (s.create key).enterEntry t key s.next

/-- The end of `acquire`: the last user takes the entry away. -/
def exit (s : Pool τ κ) (t : τ) (key : κ) (id : Nat) (lock : AsyncLock τ) : Pool τ κ :=
  let users := (s.heap id).users - 1
  let s' := s.put id ⟨lock, users⟩ t .outside
  if users = 0 ∧ s.entries key = some id then { s' with entries := update s.entries key none }
  else s'

def step (s : Pool τ κ) : PoolEvent τ κ → Pool τ κ
  | .enter t key =>
      match s.calls t with
      | .outside => s.enter t key
      | .waiting _ _ _ => s
      | .holding _ _ => s
  | .cancel t =>
      match s.calls t with
      | .waiting key id mustCancel =>
          let e := s.heap id
          if (t, .pending) ∈ e.lock.waiters then
            s.put id { e with lock := e.lock.cancelFuture t } t (.waiting key id mustCancel)
          else s.put id e t (.waiting key id true)
      | .outside => s
      | .holding _ _ => s
  | .resume t =>
      match s.calls t with
      | .waiting key id mustCancel =>
          let e := s.heap id
          if (t, .pending) ∈ e.lock.waiters then s
          else if (t, .woken) ∈ e.lock.waiters ∧ mustCancel = false then
            s.put id { e with lock := e.lock.take t } t (.holding key id)
          else s.exit t key id (e.lock.giveUp t)
      | .outside => s
      | .holding _ _ => s
  | .leave t =>
      match s.calls t with
      | .holding key id => s.exit t key id (s.heap id).lock.release
      | .outside => s
      | .waiting _ _ _ => s

structure Safe (s : Pool τ κ) : Prop where
  holder : ∀ t t' key id id', s.calls t = .holding key id → s.calls t' = .holding key id' → t = t'
  entry : ∀ key, (s.entries key).isSome = true ↔ ∃ t id, (s.calls t).place = some (key, id)

end Pool

/-! ## What the lock keeps -/

namespace AsyncLock

/-- Only the first waiter is ever woken, and only while nobody has the lock. -/
structure Fair (l : AsyncLock τ) : Prop where
  nodup : (l.waiters.map Prod.fst).Nodup
  tail : ∀ w ∈ l.waiters.tail, w.2 ≠ .woken
  unlocked : ∀ w ∈ l.waiters, w.2 = .woken → l.locked = false

variable {l : AsyncLock τ} {t : τ}

omit [DecidableEq τ] in
theorem fair_new : (new : AsyncLock τ).Fair :=
  ⟨List.nodup_nil, fun _ hw => absurd hw List.not_mem_nil, fun _ hw => absurd hw List.not_mem_nil⟩

omit [DecidableEq τ] in
@[simp] theorem wakeUpFirst_locked (l : AsyncLock τ) : l.wakeUpFirst.locked = l.locked := by
  rw [wakeUpFirst]
  split <;> rfl

omit [DecidableEq τ] in
@[simp] theorem wakeUpFirst_tasks (l : AsyncLock τ) :
    l.wakeUpFirst.waiters.map Prod.fst = l.waiters.map Prod.fst := by
  rw [wakeUpFirst]
  split
  · next h => rw [h, List.map_cons, List.map_cons]
  · rfl
  · rfl
  · rfl

omit [DecidableEq τ] in
theorem wakeUpFirst_tail (l : AsyncLock τ) : l.wakeUpFirst.waiters.tail = l.waiters.tail := by
  rw [wakeUpFirst]
  split
  · next h => rw [h, List.tail_cons, List.tail_cons]
  · rfl
  · rfl
  · rfl

omit [DecidableEq τ] in
theorem Fair.wakeUpFirst (h : l.Fair) (hl : l.locked = false) : l.wakeUpFirst.Fair := by
  refine ⟨?_, ?_, fun w _ _ => ?_⟩
  · rw [wakeUpFirst_tasks]
    exact h.nodup
  · rw [wakeUpFirst_tail]
    exact h.tail
  · rw [wakeUpFirst_locked, hl]

omit [DecidableEq τ] in
theorem Fair.release (h : l.Fair) : l.release.Fair :=
  Fair.wakeUpFirst (l := { l with locked := false }) ⟨h.nodup, h.tail, fun _ _ _ => rfl⟩ rfl

omit [DecidableEq τ] in
/-- The fast path takes the lock past cancelled waiters only. -/
theorem Fair.lock (h : l.Fair) (hfree : l.Free) :
    ({ l with locked := true } : AsyncLock τ).Fair := by
  refine ⟨h.nodup, h.tail, fun w hw hwoken => ?_⟩
  rw [hfree.2 w hw] at hwoken
  cases hwoken

omit [DecidableEq τ] in
theorem Fair.enqueue (h : l.Fair) (ht : t ∉ l.waiters.map Prod.fst) : (l.enqueue t).Fair := by
  have hnew : ∀ w ∈ l.waiters ++ [(t, Wake.pending)], w.2 = .woken → w ∈ l.waiters := by
    intro w hw hwoken
    rcases List.mem_append.mp hw with hmem | hmem
    · exact hmem
    · rw [List.mem_singleton.mp hmem] at hwoken
      cases hwoken
  refine ⟨?_, fun w hw hwoken => ?_, fun w hw hwoken => h.unlocked w (hnew w hw hwoken) hwoken⟩
  · change ((l.waiters ++ [(t, Wake.pending)]).map Prod.fst).Nodup
    rw [List.map_append, List.nodup_append]
    refine ⟨h.nodup, List.nodup_singleton t, fun a ha b hb => ?_⟩
    rw [List.mem_singleton.mp hb]
    rintro rfl
    exact ht ha
  · change w ∈ (l.waiters ++ [(t, Wake.pending)]).tail at hw
    cases hwaiters : l.waiters with
    | nil =>
        rw [hwaiters] at hw
        cases hw
    | cons first rest =>
        rw [hwaiters, List.cons_append, List.tail_cons] at hw
        rcases List.mem_append.mp hw with hmem | hmem
        · refine h.tail w ?_ hwoken
          rwa [hwaiters]
        · rw [List.mem_singleton.mp hmem] at hwoken
          cases hwoken

theorem remove_tasks (l : AsyncLock τ) (t : τ) :
    (l.remove t).waiters.map Prod.fst = (l.waiters.map Prod.fst).filter fun t' => t' ≠ t := by
  rw [remove, List.filter_map]
  rfl

theorem Fair.remove (h : l.Fair) : (l.remove t).Fair := by
  refine ⟨?_, fun w hw => ?_, fun w hw => h.unlocked w (List.mem_of_mem_filter hw)⟩
  · rw [remove_tasks]
    exact h.nodup.filter _
  · -- what follows the new first waiter followed the old one
    change w ∈ (l.waiters.filter fun w => w.1 ≠ t).tail at hw
    refine h.tail w ?_
    cases hwaiters : l.waiters with
    | nil =>
        rw [hwaiters] at hw
        cases hw
    | cons first rest =>
        rw [hwaiters] at hw
        rw [List.tail_cons]
        by_cases hfirst : first.1 = t
        · rw [List.filter_cons_of_neg (by simpa using hfirst)] at hw
          exact List.mem_of_mem_filter (List.mem_of_mem_tail hw)
        · rw [List.filter_cons_of_pos (by simpa using hfirst)] at hw
          exact List.mem_of_mem_filter hw

theorem Fair.giveUp (h : l.Fair) : (l.giveUp t).Fair := by
  rw [AsyncLock.giveUp]
  split
  · exact h.remove
  · next hlocked => exact h.remove.wakeUpFirst (Bool.not_eq_true _ ▸ hlocked)

/-- The waiter that was woken was the first, so that nobody else is. -/
theorem Fair.take (h : l.Fair) (ht : (t, .woken) ∈ l.waiters) : (l.take t).Fair := by
  refine ⟨h.remove.nodup, h.remove.tail, fun w hw hwoken => ?_⟩
  have hw' : w ∈ l.waiters.filter fun w => w.1 ≠ t := hw
  obtain ⟨hmem, hother⟩ := List.mem_filter.mp hw'
  cases hwaiters : l.waiters with
  | nil =>
      rw [hwaiters] at ht
      cases ht
  | cons first rest =>
      have htail : ∀ w ∈ rest, w.2 ≠ .woken := by
        have := h.tail
        rwa [hwaiters] at this
      rw [hwaiters] at ht hmem
      rcases List.mem_cons.mp hmem with rfl | hmem
      · rcases List.mem_cons.mp ht with rfl | ht
        · exact absurd rfl (of_decide_eq_true hother)
        · exact absurd rfl (htail _ ht)
      · exact absurd hwoken (htail w hmem)

theorem cancelFuture_tasks (l : AsyncLock τ) (t : τ) :
    (l.cancelFuture t).waiters.map Prod.fst = l.waiters.map Prod.fst := by
  rw [cancelFuture, List.map_map]
  refine List.map_congr_left fun w _ => ?_
  rw [Function.comp_apply]
  split
  · next h => rw [h]
  · rfl

theorem Fair.cancelFuture (h : l.Fair) : (l.cancelFuture t).Fair := by
  have hwoken : ∀ w : τ × Wake,
      (if w = (t, .pending) then (t, Wake.cancelled) else w).2 = .woken → w.2 = .woken := by
    intro w
    split
    · intro h
      cases h
    · exact id
  refine ⟨?_, fun w hw => ?_, fun w hw hw' => ?_⟩
  · rw [cancelFuture_tasks]
    exact h.nodup
  · change w ∈ (l.waiters.map _).tail at hw
    rw [← List.map_tail] at hw
    obtain ⟨w', hmem, rfl⟩ := List.mem_map.mp hw
    exact fun heq => h.tail w' hmem (hwoken w' heq)
  · obtain ⟨w', hmem, rfl⟩ := List.mem_map.mp hw
    exact h.unlocked w' hmem (hwoken w' hw')

end AsyncLock

/-! ## What an entry keeps -/

/-- An entry against the calls that use it -/
structure Consistent (e : LockEntry τ) (calls : τ → Phase κ) (key : κ) (id : Nat) : Prop where
  fair : e.lock.Fair
  users : e.users = e.lock.waiters.length + e.lock.locked.toNat
  waits : ∀ t, t ∈ e.lock.waiters.map Prod.fst ↔ ∃ m, calls t = .waiting key id m
  holds : e.lock.locked = true ↔ ∃ t, calls t = .holding key id
  unique : ∀ t t', calls t = .holding key id → calls t' = .holding key id → t = t'

namespace Consistent

variable {e : LockEntry τ} {calls : τ → Phase κ} {key : κ} {id : Nat} {t : τ} {phase : Phase κ}

omit [DecidableEq κ] in
/-- Calls elsewhere do not matter. -/
theorem frame (h : Consistent e calls key id) (hold : (calls t).place ≠ some (key, id))
    (hnew : phase.place ≠ some (key, id)) : Consistent e (update calls t phase) key id := by
  have hsame : ∀ t' p, p.place = some (key, id) → (update calls t phase t' = p ↔ calls t' = p) := by
    intro t' p hp
    by_cases heq : t' = t
    · rw [heq, update_self]
      refine ⟨fun h' => ?_, fun h' => ?_⟩
      · rw [h'] at hnew
        exact absurd hp hnew
      · rw [h'] at hold
        exact absurd hp hold
    · rw [update_of_ne heq]
  refine ⟨h.fair, h.users, fun t' => ?_, ?_, fun t' t'' h' h'' => ?_⟩
  · rw [h.waits]
    exact exists_congr fun m => (hsame t' (.waiting key id m) rfl).symm
  · rw [h.holds]
    exact exists_congr fun t' => (hsame t' (.holding key id) rfl).symm
  · exact h.unique t' t'' ((hsame t' _ rfl).mp h') ((hsame t'' _ rfl).mp h'')

omit [DecidableEq τ] [DecidableEq κ] in
theorem not_holding (h : Consistent e calls key id) (hl : e.lock.locked = false) (t : τ) :
    calls t ≠ .holding key id := by
  intro ht
  have := h.holds.mpr ⟨t, ht⟩
  rw [hl] at this
  cases this

omit [DecidableEq κ] in
/-- The call takes the lock of the entry, and nobody else waits less or more. -/
theorem hold (h : Consistent e calls key id) (hl : e.lock.locked = false) {lock : AsyncLock τ}
    {users : Nat} (hfair : lock.Fair) (hlocked : lock.locked = true)
    (husers : users = lock.waiters.length + 1)
    (hwaits : ∀ t', t' ∈ lock.waiters.map Prod.fst ↔ t' ≠ t ∧ t' ∈ e.lock.waiters.map Prod.fst) :
    Consistent ⟨lock, users⟩ (update calls t (.holding key id)) key id := by
  refine ⟨hfair, ?_, fun t' => ?_, ?_, fun t' t'' h' h'' => ?_⟩
  · change users = lock.waiters.length + lock.locked.toNat
    rw [hlocked]
    exact husers
  · change t' ∈ lock.waiters.map Prod.fst ↔ _
    rw [hwaits, h.waits]
    by_cases heq : t' = t
    · rw [heq, update_self]
      simp
    · rw [update_of_ne heq]
      simp [heq]
  · refine ⟨fun _ => ⟨t, update_self _ _ _⟩, fun _ => hlocked⟩
  · have honly : ∀ t', update calls t (.holding key id) t' = .holding key id → t' = t := by
      intro t' h'
      by_contra heq
      rw [update_of_ne heq] at h'
      exact h.not_holding hl t' h'
    rw [honly t' h', honly t'' h'']

omit [DecidableEq κ] in
/-- A call that does not hold the entry joins the waiters, stays among them or leaves them. -/
theorem wait (h : Consistent e calls key id) (hcall : calls t ≠ .holding key id)
    (hphase : phase ≠ .holding key id) {lock : AsyncLock τ} {users : Nat} (hfair : lock.Fair)
    (hlocked : lock.locked = e.lock.locked)
    (husers : users = lock.waiters.length + e.lock.locked.toNat)
    (hwaits : ∀ t', t' ≠ t → (t' ∈ lock.waiters.map Prod.fst ↔ t' ∈ e.lock.waiters.map Prod.fst))
    (hself : t ∈ lock.waiters.map Prod.fst ↔ ∃ m, phase = .waiting key id m) :
    Consistent ⟨lock, users⟩ (update calls t phase) key id := by
  have hholding : ∀ t', update calls t phase t' = .holding key id ↔ calls t' = .holding key id := by
    intro t'
    by_cases heq : t' = t
    · rw [heq, update_self]
      exact ⟨fun h' => absurd h' hphase, fun h' => absurd h' hcall⟩
    · rw [update_of_ne heq]
  refine ⟨hfair, ?_, fun t' => ?_, ?_, fun t' t'' h' h'' => ?_⟩
  · change users = lock.waiters.length + lock.locked.toNat
    rw [hlocked]
    exact husers
  · by_cases heq : t' = t
    · rw [heq, update_self]
      exact hself
    · rw [update_of_ne heq, ← h.waits]
      exact hwaits t' heq
  · change lock.locked = true ↔ _
    rw [hlocked, h.holds]
    exact exists_congr fun t' => (hholding t').symm
  · exact h.unique t' t'' ((hholding t').mp h') ((hholding t'').mp h'')

omit [DecidableEq κ] in
/-- The holder leaves. -/
theorem leave (h : Consistent e calls key id) (hcall : calls t = .holding key id) :
    Consistent ⟨e.lock.release, e.users - 1⟩ (update calls t .outside) key id := by
  have hlocked : e.lock.locked = true := h.holds.mpr ⟨t, hcall⟩
  have htasks : e.lock.release.waiters.map Prod.fst = e.lock.waiters.map Prod.fst :=
    AsyncLock.wakeUpFirst_tasks _
  have hlength : e.lock.release.waiters.length = e.lock.waiters.length := by
    rw [← List.length_map (f := Prod.fst), htasks, List.length_map]
  have hunlocked : e.lock.release.locked = false := AsyncLock.wakeUpFirst_locked _
  have hnone : ∀ t', update calls t .outside t' ≠ .holding key id := by
    intro t' h'
    by_cases heq : t' = t
    · rw [heq, update_self] at h'
      cases h'
    · rw [update_of_ne heq] at h'
      exact heq (h.unique t' t h' hcall)
  refine ⟨h.fair.release, ?_, fun t' => ?_, ?_, fun t' _ h' => absurd h' (hnone t')⟩
  · change e.users - 1 = e.lock.release.waiters.length + e.lock.release.locked.toNat
    rw [hlength, hunlocked, h.users, hlocked]
    rfl
  · change t' ∈ e.lock.release.waiters.map Prod.fst ↔ _
    rw [htasks, h.waits]
    by_cases heq : t' = t
    · rw [heq, hcall, update_self]
      simp
    · rw [update_of_ne heq]
  · change e.lock.release.locked = true ↔ _
    rw [hunlocked]
    exact ⟨fun h' => absurd h' Bool.false_ne_true, fun ⟨t', h'⟩ => absurd h' (hnone t')⟩

end Consistent

/-! ## What the pool keeps -/

namespace Pool

/-- Table, entries and calls fit together. -/
structure Wired (s : Pool τ κ) : Prop where
  fresh : ∀ key id, s.entries key = some id → id < s.next
  inj : ∀ key key' id, s.entries key = some id → s.entries key' = some id → key = key'
  placed : ∀ t key id, (s.calls t).place = some (key, id) → s.entries key = some id
  consistent : ∀ key id, s.entries key = some id → Consistent (s.heap id) s.calls key id

/-- Every entry other than that of `key` has a user. -/
def UsedBut (s : Pool τ κ) (key : κ) : Prop :=
  ∀ key' id, key' ≠ key → s.entries key' = some id → 0 < (s.heap id).users

structure Inv (s : Pool τ κ) : Prop extends Wired s where
  used : ∀ key id, s.entries key = some id → 0 < (s.heap id).users

variable {s : Pool τ κ} {t : τ} {key : κ} {id : Nat} {e : LockEntry τ} {phase : Phase κ}

omit [DecidableEq τ] [DecidableEq κ] in
theorem Inv.usedBut (h : Inv s) (key : κ) : s.UsedBut key :=
  fun key' id _ hkey' => h.used key' id hkey'

omit [DecidableEq τ] [DecidableEq κ] in
theorem inv_init : Inv (init : Pool τ κ) where
  fresh _ _ h := absurd h (by simp [init])
  inj _ _ _ h := absurd h (by simp [init])
  placed _ _ _ h := absurd h (by simp [init, Phase.place])
  consistent _ _ h := absurd h (by simp [init])
  used _ _ h := absurd h (by simp [init])

/-- One entry and one call of it change. -/
theorem Wired.put (h : Wired s) (hkey : s.entries key = some id)
    (hcall : ∀ key' id', (s.calls t).place = some (key', id') → key' = key)
    (hphase : phase.place = none ∨ phase.place = some (key, id))
    (hcons : Consistent e (update s.calls t phase) key id) : Wired (s.put id e t phase) := by
  refine ⟨h.fresh, h.inj, fun t' key' id' hplace => ?_, fun key' id' hkey' => ?_⟩
  · change (update s.calls t phase t').place = some (key', id') at hplace
    by_cases heq : t' = t
    · rw [heq, update_self] at hplace
      rcases hphase with hphase | hphase
      · rw [hphase] at hplace
        cases hplace
      · rw [hphase, Option.some.injEq, Prod.mk.injEq] at hplace
        obtain ⟨rfl, rfl⟩ := hplace
        exact hkey
    · rw [update_of_ne heq] at hplace
      exact h.placed t' key' id' hplace
  · change Consistent (update s.heap id e id') (update s.calls t phase) key' id'
    by_cases heq : key' = key
    · have hid : id = id' := Option.some.inj (hkey.symm.trans (heq ▸ hkey'))
      rw [heq, ← hid, update_self]
      exact hcons
    · have hid : id' ≠ id := by
        rintro rfl
        exact heq (h.inj key' key id' hkey' hkey)
      rw [update_of_ne hid]
      refine (h.consistent key' id' hkey').frame (fun hplace => ?_) fun hplace => ?_
      · exact heq (hcall key' id' hplace)
      · rcases hphase with hphase | hphase
        · rw [hphase] at hplace
          cases hplace
        · rw [hphase, Option.some.injEq, Prod.mk.injEq] at hplace
          exact heq hplace.1.symm

omit [DecidableEq κ] in
theorem Wired.usedBut_put (h : Wired s) (hkey : s.entries key = some id) (hused : s.UsedBut key) :
    (s.put id e t phase).UsedBut key := by
  intro key' id' hne hkey'
  change 0 < (update s.heap id e id').users
  rw [update_of_ne]
  · exact hused key' id' hne hkey'
  · rintro rfl
    exact hne (h.inj key' key id' hkey' hkey)

/-- An entry that is left with a user -/
theorem Wired.inv_put (h : Wired s) (hkey : s.entries key = some id) (hused : s.UsedBut key)
    (hcall : ∀ key' id', (s.calls t).place = some (key', id') → key' = key)
    (hphase : phase.place = none ∨ phase.place = some (key, id))
    (hcons : Consistent e (update s.calls t phase) key id) (hpos : 0 < e.users) :
    Inv (s.put id e t phase) := by
  refine ⟨h.put hkey hcall hphase hcons, fun key' id' hkey' => ?_⟩
  by_cases heq : key' = key
  · have hid : id = id' := Option.some.inj (hkey.symm.trans (heq ▸ hkey'))
    change 0 < (update s.heap id e id').users
    rw [← hid, update_self]
    exact hpos
  · exact h.usedBut_put hkey hused key' id' heq hkey'

/-- The way out: an entry without a user has no call, and goes. -/
theorem Inv.exit (h : Inv s) (hcall : (s.calls t).place = some (key, id)) {lock : AsyncLock τ}
    (hcons : Consistent ⟨lock, (s.heap id).users - 1⟩ (update s.calls t .outside) key id) :
    Inv (s.exit t key id lock) := by
  have hkey : s.entries key = some id := h.placed t key id hcall
  have hsame : ∀ key' id', (s.calls t).place = some (key', id') → key' = key := by
    intro key' id' hplace
    rw [hcall, Option.some.injEq, Prod.mk.injEq] at hplace
    exact hplace.1.symm
  rw [Pool.exit]
  split
  · next hlast =>
      obtain ⟨hzero, -⟩ := hlast
      have hwired := h.toWired.put hkey hsame (.inl rfl) hcons
      have hothers : (s.put id ⟨lock, (s.heap id).users - 1⟩ t .outside).UsedBut key :=
        h.toWired.usedBut_put hkey (h.usedBut key)
      -- nobody waits and nobody holds
      have hempty : lock.waiters.length + lock.locked.toNat = 0 := hcons.users.symm.trans hzero
      have hnobody : ∀ t', (update s.calls t .outside t').place ≠ some (key, id) := by
        intro t' hplace
        cases hphase : update s.calls t .outside t' with
        | outside =>
            rw [hphase] at hplace
            cases hplace
        | waiting key' id' m =>
            rw [hphase] at hplace
            obtain ⟨rfl, rfl⟩ := Prod.mk.inj (Option.some.inj hplace)
            have hmem := (hcons.waits t').mpr ⟨m, hphase⟩
            have hnil : lock.waiters = [] := List.length_eq_zero_iff.mp (by omega)
            change t' ∈ lock.waiters.map Prod.fst at hmem
            rw [hnil] at hmem
            cases hmem
        | holding key' id' =>
            rw [hphase] at hplace
            obtain ⟨rfl, rfl⟩ := Prod.mk.inj (Option.some.inj hplace)
            have hlocked : lock.locked = true := hcons.holds.mpr ⟨t', hphase⟩
            rw [hlocked] at hempty
            cases hempty
      have hsub : ∀ key' id', update s.entries key none key' = some id' →
          key' ≠ key ∧ s.entries key' = some id' := by
        intro key' id' h'
        by_cases heq : key' = key
        · rw [heq, update_self] at h'
          cases h'
        · rw [update_of_ne heq] at h'
          exact ⟨heq, h'⟩
      refine ⟨⟨fun key' id' h' => ?_, fun key₁ key₂ id' h₁ h₂ => ?_, fun t' key' id' hplace => ?_,
        fun key' id' h' => ?_⟩, fun key' id' h' => ?_⟩
      · exact h.fresh key' id' (hsub key' id' h').2
      · exact h.inj key₁ key₂ id' (hsub key₁ id' h₁).2 (hsub key₂ id' h₂).2
      · have hentry := hwired.placed t' key' id' hplace
        change update s.entries key none key' = some id'
        rw [update_of_ne]
        · exact hentry
        · rintro rfl
          have hid : id = id' := Option.some.inj (hkey.symm.trans hentry)
          exact hnobody t' (hid ▸ hplace)
      · exact hwired.consistent key' id' (hsub key' id' h').2
      · obtain ⟨hne, hentry⟩ := hsub key' id' h'
        exact hothers key' id' hne hentry
  · next hmore =>
      refine h.toWired.inv_put hkey (h.usedBut key) hsame (.inl rfl) hcons ?_
      exact Nat.pos_of_ne_zero fun hzero => hmore ⟨hzero, hkey⟩

omit [DecidableEq τ] in
/-- A fresh entry for a key that has none -/
theorem Inv.create (h : Inv s) (hkey : s.entries key = none) :
    Wired (s.create key) ∧ (s.create key).UsedBut key := by
  have hcases : ∀ key' id', (s.create key).entries key' = some id' →
      (key' = key ∧ id' = s.next) ∨ (key' ≠ key ∧ s.entries key' = some id' ∧ id' ≠ s.next) := by
    intro key' id' h'
    change update s.entries key (some s.next) key' = some id' at h'
    by_cases heq : key' = key
    · rw [heq, update_self] at h'
      exact .inl ⟨heq, (Option.some.inj h').symm⟩
    · rw [update_of_ne heq] at h'
      exact .inr ⟨heq, h', Nat.ne_of_lt (h.fresh key' id' h')⟩
  have hunused : ∀ t' key' id', (s.calls t').place = some (key', id') → key' ≠ key := by
    rintro t' key' id' hplace rfl
    rw [h.placed t' key' id' hplace] at hkey
    cases hkey
  have hheap : ∀ id', id' ≠ s.next → (s.create key).heap id' = s.heap id' :=
    fun id' hne => update_of_ne hne _ _
  refine ⟨⟨fun key' id' h' => ?_, fun key₁ key₂ id' h₁ h₂ => ?_, fun t' key' id' hplace => ?_,
    fun key' id' h' => ?_⟩, fun key' id' hne h' => ?_⟩
  · change id' < s.next + 1
    rcases hcases key' id' h' with ⟨-, rfl⟩ | ⟨-, h', -⟩
    · exact Nat.lt_succ_self _
    · exact Nat.lt_succ_of_lt (h.fresh key' id' h')
  · rcases hcases key₁ id' h₁ with ⟨rfl, hid⟩ | ⟨-, h₁, hid⟩
    · rcases hcases key₂ id' h₂ with ⟨rfl, -⟩ | ⟨-, -, hid'⟩
      · rfl
      · exact absurd hid hid'
    · rcases hcases key₂ id' h₂ with ⟨-, hid'⟩ | ⟨-, h₂, -⟩
      · exact absurd hid' hid
      · exact h.inj key₁ key₂ id' h₁ h₂
  · change update s.entries key (some s.next) key' = some id'
    rw [update_of_ne (hunused t' key' id' hplace)]
    exact h.placed t' key' id' hplace
  · rcases hcases key' id' h' with ⟨rfl, rfl⟩ | ⟨-, h', hid⟩
    · have hnew : (s.create key').heap s.next = ⟨.new, 0⟩ := update_self _ _ _
      rw [hnew]
      refine ⟨AsyncLock.fair_new, rfl, fun t' => ?_, ?_, fun t' _ ht' => ?_⟩
      · refine ⟨fun hmem => absurd hmem List.not_mem_nil, fun ⟨m, ht'⟩ => ?_⟩
        exact absurd rfl (hunused t' key' s.next (by rw [show s.calls t' = _ from ht']; rfl))
      · refine ⟨fun hlocked => absurd hlocked Bool.false_ne_true, fun ⟨t', ht'⟩ => ?_⟩
        exact absurd rfl (hunused t' key' s.next (by rw [show s.calls t' = _ from ht']; rfl))
      · exact absurd rfl (hunused t' key' s.next (by rw [show s.calls t' = _ from ht']; rfl))
    · rw [hheap id' hid]
      exact h.consistent key' id' h'
  · rcases hcases key' id' h' with ⟨rfl, -⟩ | ⟨-, h', hid⟩
    · exact absurd rfl hne
    · rw [hheap id' hid]
      exact h.used key' id' h'

/-- Entering: the lock is free, or the call joins the waiters. -/
theorem Wired.enterEntry (h : Wired s) (hkey : s.entries key = some id) (hused : s.UsedBut key)
    (hcall : s.calls t = .outside) : Inv (s.enterEntry t key id) := by
  have hcons := h.consistent key id hkey
  have hplace : ∀ key' id', (s.calls t).place = some (key', id') → key' = key := by
    intro key' id' hplace
    rw [hcall] at hplace
    cases hplace
  have hnew : t ∉ (s.heap id).lock.waiters.map Prod.fst := by
    intro hmem
    obtain ⟨m, hwaiting⟩ := (hcons.waits t).mp hmem
    rw [hcall] at hwaiting
    cases hwaiting
  rw [Pool.enterEntry]
  split
  · next hfree =>
      refine h.inv_put hkey hused hplace (.inr rfl) ?_ (Nat.succ_pos _)
      refine hcons.hold hfree.1 (hcons.fair.lock hfree) rfl ?_ fun t' => ?_
      · rw [hcons.users, hfree.1]
        rfl
      · refine ⟨fun hmem => ⟨?_, hmem⟩, fun hmem => hmem.2⟩
        rintro rfl
        exact hnew hmem
  · refine h.inv_put hkey hused hplace (.inr rfl) ?_ (Nat.succ_pos _)
    refine hcons.wait ?_ ?_ (hcons.fair.enqueue hnew) rfl ?_ (fun t' hne => ?_) ?_
    · rw [hcall]
      intro h'
      cases h'
    · intro h'
      cases h'
    · rw [hcons.users, AsyncLock.enqueue, List.length_append, List.length_singleton]
      omega
    · simp [AsyncLock.enqueue, hne]
    · simp [AsyncLock.enqueue]

theorem Inv.enter (h : Inv s) (hcall : s.calls t = .outside) : Inv (s.enter t key) := by
  rw [Pool.enter]
  split
  · next id hkey => exact h.toWired.enterEntry hkey (h.usedBut key) hcall
  · next hkey =>
      obtain ⟨hwired, hused⟩ := h.create hkey
      exact hwired.enterEntry (update_self _ _ _) hused hcall

omit [DecidableEq τ] [DecidableEq κ] in
/-- A call that waits, and the entry it waits for -/
theorem Inv.waiting (h : Inv s) {m : Bool} (hcall : s.calls t = .waiting key id m) :
    s.entries key = some id ∧ Consistent (s.heap id) s.calls key id ∧
      t ∈ (s.heap id).lock.waiters.map Prod.fst := by
  have hkey : s.entries key = some id := h.placed t key id (by rw [hcall]; rfl)
  have hcons := h.consistent key id hkey
  exact ⟨hkey, hcons, (hcons.waits t).mpr ⟨m, hcall⟩⟩

/-- A waiter that goes on waiting, in the same place among the waiters -/
theorem Inv.stay (h : Inv s) {m m' : Bool} (hcall : s.calls t = .waiting key id m)
    {lock : AsyncLock τ} (hfair : lock.Fair) (hlocked : lock.locked = (s.heap id).lock.locked)
    (htasks : lock.waiters.map Prod.fst = (s.heap id).lock.waiters.map Prod.fst) :
    Inv (s.put id ⟨lock, (s.heap id).users⟩ t (.waiting key id m')) := by
  obtain ⟨hkey, hcons, hmem⟩ := h.waiting hcall
  have hlength : lock.waiters.length = (s.heap id).lock.waiters.length := by
    rw [← List.length_map (f := Prod.fst), htasks, List.length_map]
  refine h.toWired.inv_put hkey (h.usedBut key) (fun key' id' hplace => ?_) (.inr rfl) ?_
    (h.used key id hkey)
  · rw [hcall] at hplace
    exact (Prod.mk.inj (Option.some.inj hplace)).1.symm
  · refine hcons.wait ?_ ?_ hfair hlocked ?_ (fun t' _ => by rw [htasks]) ?_
    · rw [hcall]
      intro h'
      cases h'
    · intro h'
      cases h'
    · rw [hcons.users, hlength]
    · rw [htasks]
      exact ⟨fun _ => ⟨m', rfl⟩, fun _ => hmem⟩

theorem length_remove {l : AsyncLock τ} (hfair : l.Fair) (hmem : t ∈ l.waiters.map Prod.fst) :
    (l.remove t).waiters.length + 1 = l.waiters.length := by
  have herase : (l.remove t).waiters.map Prod.fst = (l.waiters.map Prod.fst).erase t := by
    rw [AsyncLock.remove_tasks, hfair.nodup.erase_eq_filter]
    refine List.filter_congr fun t' _ => ?_
    by_cases ht : t' = t
    · simp [ht]
    · simp [ht]
  have hlength := List.length_erase_of_mem hmem
  rw [← herase, List.length_map, List.length_map] at hlength
  have hpos : 0 < l.waiters.length := by
    rw [← List.length_map (f := Prod.fst)]
    exact List.length_pos_of_mem hmem
  omega

theorem Inv.take (h : Inv s) {m : Bool} (hcall : s.calls t = .waiting key id m)
    (hwoken : (t, .woken) ∈ (s.heap id).lock.waiters) :
    Inv (s.put id ⟨(s.heap id).lock.take t, (s.heap id).users⟩ t (.holding key id)) := by
  obtain ⟨hkey, hcons, hmem⟩ := h.waiting hcall
  have hunlocked := hcons.fair.unlocked _ hwoken rfl
  refine h.toWired.inv_put hkey (h.usedBut key) (fun key' id' hplace => ?_) (.inr rfl) ?_
    (h.used key id hkey)
  · rw [hcall] at hplace
    exact (Prod.mk.inj (Option.some.inj hplace)).1.symm
  · refine hcons.hold hunlocked (hcons.fair.take hwoken) rfl ?_ fun t' => ?_
    · rw [hcons.users, hunlocked]
      exact (length_remove hcons.fair hmem).symm
    · change t' ∈ ((s.heap id).lock.remove t).waiters.map Prod.fst ↔ _
      rw [AsyncLock.remove_tasks, List.mem_filter, and_comm, decide_eq_true_iff]

theorem Inv.giveUp (h : Inv s) {m : Bool} (hcall : s.calls t = .waiting key id m) :
    Inv (s.exit t key id ((s.heap id).lock.giveUp t)) := by
  obtain ⟨hkey, hcons, hmem⟩ := h.waiting hcall
  have htasks : ((s.heap id).lock.giveUp t).waiters.map Prod.fst =
      ((s.heap id).lock.remove t).waiters.map Prod.fst := by
    rw [AsyncLock.giveUp]
    split
    · rfl
    · exact AsyncLock.wakeUpFirst_tasks _
  have hlocked : ((s.heap id).lock.giveUp t).locked = (s.heap id).lock.locked := by
    rw [AsyncLock.giveUp]
    split
    · rfl
    · exact AsyncLock.wakeUpFirst_locked _
  refine h.exit (by rw [hcall]; rfl) ?_
  refine hcons.wait ?_ ?_ hcons.fair.giveUp hlocked ?_ (fun t' hne => ?_) ?_
  · rw [hcall]
    intro h'
    cases h'
  · intro h'
    cases h'
  · have hlength : ((s.heap id).lock.giveUp t).waiters.length =
        ((s.heap id).lock.remove t).waiters.length := by
      rw [← List.length_map (f := Prod.fst), htasks, List.length_map]
    have hone := length_remove hcons.fair hmem
    rw [hcons.users, hlength]
    omega
  · rw [htasks, AsyncLock.remove_tasks]
    simp [hne]
  · rw [htasks, AsyncLock.remove_tasks]
    simp

theorem Inv.step (h : Inv s) (event : PoolEvent τ κ) : Inv (s.step event) := by
  cases event with
  | enter t key =>
      rw [Pool.step]
      split
      · next hcall => exact h.enter hcall
      · exact h
      · exact h
  | cancel t =>
      rw [Pool.step]
      split
      · next key id m hcall =>
          have hcons := (h.waiting hcall).2.1
          simp only
          split
          · exact h.stay hcall hcons.fair.cancelFuture rfl (AsyncLock.cancelFuture_tasks _ _)
          · exact h.stay hcall hcons.fair rfl rfl
      · exact h
      · exact h
  | resume t =>
      rw [Pool.step]
      split
      · next key id m hcall =>
          simp only
          split
          · exact h
          · split
            · next hwoken => exact h.take hcall hwoken.1
            · exact h.giveUp hcall
      · exact h
      · exact h
  | leave t =>
      rw [Pool.step]
      split
      · next key id hcall =>
          have hplace : (s.calls t).place = some (key, id) := by
            rw [hcall]
            rfl
          exact h.exit hplace ((h.consistent key id (h.placed t key id hplace)).leave hcall)
      · exact h
      · exact h

omit [DecidableEq τ] [DecidableEq κ] in
/-- An entry with a user has a call. -/
theorem Inv.safe (h : Inv s) : Safe s := by
  refine ⟨fun t t' key id id' ht ht' => ?_, fun key => ⟨fun hsome => ?_, fun ⟨t, id, hplace⟩ => ?_⟩⟩
  · have hkey : s.entries key = some id := h.placed t key id (by rw [ht]; rfl)
    have hkey' : s.entries key = some id' := h.placed t' key id' (by rw [ht']; rfl)
    have hid : id = id' := Option.some.inj (hkey.symm.trans hkey')
    exact (h.consistent key id hkey).unique t t' ht (hid ▸ ht')
  · obtain ⟨id, hkey⟩ := Option.isSome_iff_exists.mp hsome
    have hcons := h.consistent key id hkey
    have hpos := h.used key id hkey
    rw [hcons.users] at hpos
    by_cases hlocked : (s.heap id).lock.locked = true
    · obtain ⟨t, ht⟩ := hcons.holds.mp hlocked
      exact ⟨t, id, by rw [ht]; rfl⟩
    · rw [Bool.not_eq_true] at hlocked
      rw [hlocked] at hpos
      obtain ⟨w, hw⟩ := List.exists_mem_of_length_pos hpos
      obtain ⟨m, ht⟩ := (hcons.waits w.1).mp (List.mem_map_of_mem hw)
      exact ⟨w.1, id, by rw [ht]; rfl⟩
  · rw [h.placed t key id hplace]
    rfl

/-- At every moment of every run: one holder for a key, and entries only where they are used. -/
theorem pool_safe (events : List (PoolEvent τ κ)) : Along step Safe (init : Pool τ κ) events :=
  along_of_invariant (fun _ event h => h.step event) (fun _ h => h.safe) inv_init events

end Pool

end OpenViking.Tracker
