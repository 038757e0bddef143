/-
# `OpenViking.Queue.NamedQueue` — the counters of one queue

A worker reads a message of its queue, counts it with `_on_dequeue_start` and hands
it to the handler.  The counter goes down again in callbacks: the handler reports
success or error, `process_dequeued` reports a cancelled task, and the concurrent
worker reports an error for a handler that raised.  In single mode nobody reports for
a handler that raises.

A handler may go on after its report, so the counter may be down before the handling
has ended.

`NamedQueue` is the queue with the handlings that were started, `step` one of the
places where the code touches it.  `step_exact` says which steps keep the counter
equal to the number of handlers that run and have not reported; that is the number of
messages being handled while the queue is `Settled`.
-/
import Mathlib.Data.List.Count
import OpenViking.Lib.Text

namespace OpenViking.Queue

open Lib

structure QueueStatus where
  pending : Nat
  inProgress : Int
  processed : Nat
  requeueCount : Nat
  errorCount : Nat
  errors : List Str
  deriving DecidableEq

def QueueStatus.isComplete (s : QueueStatus) : Bool := s.pending == 0 && s.inProgress == 0

/-- The handling of one dequeued message, from `_on_dequeue_start` on. -/
structure Handling where
  /-- How often the handler has reported success or error. -/
  reports : Nat
  /-- `process_dequeued` has returned, raised or been cancelled. -/
  finished : Bool
  deriving DecidableEq

/-- The handler is running and has not reported. -/
def Handling.isOpen (h : Handling) : Bool := h.reports == 0 && !h.finished

/-- How a run of `process_dequeued` ends. -/
inductive Ending where
  | returned
  | raised (message : Str)
  /-- `CancelledError`, and the task of the message is not being cancelled: the worker
  is draining. -/
  | cancelled
  /-- `CancelledError` because the task of the message is being cancelled. -/
  | taskCancelled
  deriving DecidableEq

structure NamedQueue where
  pending : Nat
  /-- The worker has read a message and not counted it yet. -/
  fetched : Bool
  handlings : List Handling
  inProgress : Int
  processed : Nat
  requeueCount : Nat
  errorCount : Nat
  errors : List Str
  deriving DecidableEq

def maxErrors : Nat := 100

namespace NamedQueue

def onDequeueStart (n : NamedQueue) : NamedQueue := { n with inProgress := n.inProgress + 1 }

def onProcessSuccess (n : NamedQueue) : NamedQueue :=
  { n with inProgress := n.inProgress - 1, processed := n.processed + 1 }

def onProcessRequeue (n : NamedQueue) : NamedQueue :=
  { n with requeueCount := n.requeueCount + 1 }

def onProcessError (n : NamedQueue) (message : Str) : NamedQueue :=
  let errors := n.errors ++ [message]
  { n with
    inProgress := n.inProgress - 1
    errorCount := n.errorCount + 1
    errors := if errors.length > maxErrors then errors.drop (errors.length - maxErrors)
      else errors }

/-- The second half of `get_status`, with the size that the first half read. -/
def getStatus (n : NamedQueue) (pending : Nat) : QueueStatus where
  pending := pending
  inProgress := n.inProgress
  processed := n.processed
  requeueCount := n.requeueCount
  errorCount := n.errorCount
  errors := n.errors

def openHandlings (n : NamedQueue) : Nat := n.handlings.countP Handling.isOpen

/-- The number of handlers that are running. -/
def running (n : NamedQueue) : Nat := n.handlings.countP fun h => !h.finished

/-- The number of dequeued messages whose handling has not ended. -/
def busy (n : NamedQueue) : Nat := n.running + n.fetched.toNat

/-- No message is pending or being handled. -/
def idle (n : NamedQueue) : Bool := n.pending == 0 && n.busy == 0

/-- No message is between the queue and the counter, and no handler between its report and its
end. -/
def Settled (n : NamedQueue) : Prop :=
  n.fetched = false ∧ ∀ h ∈ n.handlings, h.finished = false → h.reports = 0

instance (n : NamedQueue) : Decidable n.Settled :=
  inferInstanceAs (Decidable (n.fetched = false ∧ _))

end NamedQueue

/-! ## Steps -/

/-- Where the code touches a queue.  A handling is named by its position. -/
inductive QueueAction where
  | enqueue
  /-- The worker reads a message; the backend takes it off the pending ones. -/
  | fetch
  /-- The worker counts the message it has read and starts to handle it. -/
  | start
  | success (i : Nat)
  | requeue
  | error (i : Nat) (message : Str)
  | finish (i : Nat) (ending : Ending)
  deriving DecidableEq

section steps

-- the limit that `_queue_worker_loop` is started with; above 1 it runs in concurrent mode
variable (maxConcurrent : Nat)

/-- The report of the exception paths, if there is one. -/
def reportEnding (n : NamedQueue) : Ending → NamedQueue
  | .returned => n
  | .raised message => if maxConcurrent > 1 then n.onProcessError message else n
  | .cancelled => n
  | .taskCancelled => n.onProcessSuccess

/-- Whether the exception paths report for a handler that ends so. -/
def reportsEnding : Ending → Bool
  | .returned => false
  | .raised _ => maxConcurrent > 1
  | .cancelled => false
  | .taskCancelled => true

def NamedQueue.step (n : NamedQueue) : QueueAction → NamedQueue
  | .enqueue => { n with pending := n.pending + 1 }
  | .fetch =>
      -- a worker without capacity does not look for messages
      if n.pending = 0 ∨ n.fetched ∨ max maxConcurrent 1 ≤ n.running then n
      else { n with pending := n.pending - 1, fetched := true }
  | .start =>
      if n.fetched then
        { n.onDequeueStart with fetched := false, handlings := n.handlings ++ [⟨0, false⟩] }
      else n
  | .success i =>
      match n.handlings[i]? with
      | none => n
      | some h =>
          { n.onProcessSuccess with
            handlings := n.handlings.set i { h with reports := h.reports + 1 } }
  | .requeue => n.onProcessRequeue
  | .error i message =>
      match n.handlings[i]? with
      | none => n
      | some h =>
          { n.onProcessError message with
            handlings := n.handlings.set i { h with reports := h.reports + 1 } }
  | .finish i ending =>
      match n.handlings[i]? with
      | none => n
      | some h =>
          if h.finished then n
          else
            { reportEnding maxConcurrent n ending with
              handlings := n.handlings.set i { h with finished := true } }

/-- Each handling is reported exactly once: by its handler while it runs, or by the
exception paths at its end. -/
def NamedQueue.Balanced (n : NamedQueue) : QueueAction → Prop
  | .success i | .error i _ => ∀ h ∈ n.handlings[i]?, h.isOpen
  | .finish i ending =>
      ∀ h ∈ n.handlings[i]?, !h.finished → (reportsEnding maxConcurrent ending ↔ h.reports = 0)
  | _ => True

end steps

/-! ## The counter -/

/-- The counter is the number of handlers that run and have not reported. -/
def NamedQueue.Exact (n : NamedQueue) : Prop := n.inProgress = n.openHandlings

/-- Ending an open handling takes one off the count. -/
theorem countP_close {l : List Handling} {i : Nat} {h h' : Handling} (hi : l[i]? = some h)
    (hopen : h.isOpen = true) (hclosed : h'.isOpen = false) :
    ((l.set i h').countP Handling.isOpen : Int) = l.countP Handling.isOpen - 1 := by
  obtain ⟨hlt, rfl⟩ := List.getElem?_eq_some_iff.mp hi
  have hpos : 0 < l.countP Handling.isOpen :=
    List.countP_pos_iff.mpr ⟨l[i], List.getElem_mem hlt, hopen⟩
  rw [List.countP_set hlt, hopen, hclosed]
  simp only [if_true, Bool.false_eq_true, if_false]
  omega

/-- A handling that has ended can change as it likes as long as it does not open again. -/
theorem countP_closed {l : List Handling} {i : Nat} {h h' : Handling} (hi : l[i]? = some h)
    (hend : h.isOpen = false) (hclosed : h'.isOpen = false) :
    (l.set i h').countP Handling.isOpen = l.countP Handling.isOpen := by
  obtain ⟨hlt, rfl⟩ := List.getElem?_eq_some_iff.mp hi
  rw [List.countP_set hlt, hend, hclosed]
  simp

@[simp]
theorem Handling.isOpen_report (h : Handling) :
    ({ h with reports := h.reports + 1 } : Handling).isOpen = false := by
  simp [Handling.isOpen]

@[simp]
theorem Handling.isOpen_over (h : Handling) :
    ({ h with finished := true } : Handling).isOpen = false := by
  simp [Handling.isOpen]

theorem Handling.isOpen_of_running {h : Handling} (hover : ¬h.finished) :
    h.isOpen = (h.reports == 0) := by
  simp [Handling.isOpen, hover]

/-- What the exception paths do to the counter. -/
theorem reportEnding_inProgress (maxConcurrent : Nat) (n : NamedQueue) (e : Ending) :
    (reportEnding maxConcurrent n e).inProgress =
      if reportsEnding maxConcurrent e then n.inProgress - 1 else n.inProgress := by
  cases e with
  | returned => rfl
  | raised message =>
    simp only [reportEnding, reportsEnding, decide_eq_true_eq]
    split <;> rfl
  | cancelled => rfl
  | taskCancelled => rfl

/-- Every step that does not report a handling twice, and does not end one without a
report, keeps the counter exact. -/
theorem NamedQueue.step_exact {maxConcurrent : Nat} {n : NamedQueue} {a : QueueAction}
    (hn : n.Exact) (ha : n.Balanced maxConcurrent a) : (n.step maxConcurrent a).Exact := by
  have hcount : n.inProgress = n.handlings.countP Handling.isOpen := hn
  cases a with
  | enqueue => exact hn
  | requeue => exact hn
  | fetch =>
    simp only [NamedQueue.step]
    split
    · exact hn
    · exact hn
  | start =>
    simp only [NamedQueue.step]
    split
    · show n.inProgress + 1 = ((n.handlings ++ [_]).countP Handling.isOpen : Int)
      rw [List.countP_append, hcount]
      simp [Handling.isOpen]
    · exact hn
  | success i =>
    simp only [NamedQueue.step]
    split
    · exact hn
    · rename_i h hi
      show n.inProgress - 1 = _
      rw [hcount]
      exact (countP_close hi (ha h hi) h.isOpen_report).symm
  | error i message =>
    simp only [NamedQueue.step]
    split
    · exact hn
    · rename_i h hi
      show n.inProgress - 1 = _
      rw [hcount]
      exact (countP_close hi (ha h hi) h.isOpen_report).symm
  | finish i e =>
    simp only [NamedQueue.step]
    split
    · exact hn
    · rename_i h hi
      split
      · exact hn
      · rename_i hover
        have hrep := ha h hi (by simpa using hover)
        show (reportEnding maxConcurrent n e).inProgress = _
        rw [reportEnding_inProgress, hcount]
        -- the exception paths report for exactly the handlings that are still open
        split
        · rename_i hreports
          refine (countP_close hi ?_ h.isOpen_over).symm
          rw [Handling.isOpen_of_running hover, beq_iff_eq]
          exact hrep.mp hreports
        · rename_i hreports
          refine congrArg Int.ofNat (countP_closed hi ?_ h.isOpen_over).symm
          rw [Handling.isOpen_of_running hover, beq_eq_false_iff_ne]
          intro hzero
          exact hreports (hrep.mpr hzero)

/-! ## Work does not appear by itself -/

/-- Only `enqueue` makes a queue without pending messages have one. -/
theorem NamedQueue.step_pending {maxConcurrent : Nat} {n : NamedQueue} {a : QueueAction}
    (hn : n.pending = 0) (ha : a ≠ .enqueue) : (n.step maxConcurrent a).pending = 0 := by
  cases a with
  | enqueue => exact absurd rfl ha
  | fetch => simp [NamedQueue.step, hn]
  | start => simp only [NamedQueue.step]; split <;> exact hn
  | success i => simp only [NamedQueue.step]; split <;> exact hn
  | requeue => exact hn
  | error i message => simp only [NamedQueue.step]; split <;> exact hn
  | finish i e =>
    simp only [NamedQueue.step]
    split
    · exact hn
    · split
      · exact hn
      · show (reportEnding maxConcurrent n e).pending = 0
        cases e with
        | raised message => simp only [reportEnding]; split <;> exact hn
        | _ => exact hn

theorem NamedQueue.idle_iff {n : NamedQueue} :
    n.idle = true ↔ n.pending = 0 ∧ n.fetched = false ∧ n.running = 0 := by
  cases hfetched : n.fetched <;> simp [NamedQueue.idle, NamedQueue.busy, hfetched]

theorem NamedQueue.openHandlings_le (n : NamedQueue) : n.openHandlings ≤ n.running := by
  refine List.countP_mono_left fun h _ hopen => ?_
  rw [Handling.isOpen, Bool.and_eq_true] at hopen
  exact hopen.2

theorem NamedQueue.Settled.openHandlings_eq {n : NamedQueue} (h : n.Settled) :
    n.openHandlings = n.busy := by
  rw [busy, h.1, Bool.toNat_false, Nat.add_zero]
  refine List.countP_congr fun x hx => ?_
  cases hfinished : x.finished with
  | true => simp [Handling.isOpen, hfinished]
  | false => simp [Handling.isOpen, hfinished, h.2 x hx hfinished]

/-- A report does not end the run of a handler. -/
theorem running_report {l : List Handling} {i : Nat} {h : Handling} (hi : l[i]? = some h) :
    (l.set i { h with reports := h.reports + 1 }).countP (fun h => !h.finished) =
      l.countP fun h => !h.finished := by
  obtain ⟨hlt, rfl⟩ := List.getElem?_eq_some_iff.mp hi
  rw [List.countP_set hlt]
  cases hfinished : l[i].finished with
  | true => simp
  | false =>
      have hpos : 0 < l.countP fun h => !h.finished :=
        List.countP_pos_iff.mpr ⟨l[i], List.getElem_mem hlt, by simp [hfinished]⟩
      simp only [Bool.not_false, if_true]
      omega

/-- An idle queue stays idle until a message is enqueued. -/
theorem NamedQueue.step_idle {maxConcurrent : Nat} {n : NamedQueue} {a : QueueAction}
    (hn : n.idle = true) (ha : a ≠ .enqueue) : (n.step maxConcurrent a).idle = true := by
  obtain ⟨hpending, hfetched, hrunning⟩ := idle_iff.mp hn
  have hpending' : (n.step maxConcurrent a).pending = 0 := step_pending hpending ha
  refine idle_iff.mpr ⟨hpending', ?_⟩
  cases a with
  | enqueue => exact absurd rfl ha
  | fetch => simp [NamedQueue.step, hpending, hfetched, hrunning]
  | start => simp [NamedQueue.step, hfetched, hrunning]
  | requeue => exact ⟨hfetched, hrunning⟩
  | success i =>
    simp only [NamedQueue.step]
    split
    · exact ⟨hfetched, hrunning⟩
    · rename_i h hi
      exact ⟨hfetched, (running_report hi).trans hrunning⟩
  | error i message =>
    simp only [NamedQueue.step]
    split
    · exact ⟨hfetched, hrunning⟩
    · rename_i h hi
      exact ⟨hfetched, (running_report hi).trans hrunning⟩
  | finish i e =>
    simp only [NamedQueue.step]
    split
    · exact ⟨hfetched, hrunning⟩
    · rename_i h hi
      -- no handler is running, so this one has ended before
      have hfinished : h.finished = true := by
        simpa using List.countP_eq_zero.mp hrunning h (List.mem_of_getElem? hi)
      rw [if_pos hfinished]
      exact ⟨hfetched, hrunning⟩

end OpenViking.Queue
