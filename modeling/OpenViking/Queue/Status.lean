/-
# `OpenViking.Queue.Status` — reading the status of all queues while they work

`is_all_complete` takes one status after the other, each in two reads: the size of the
queue from the backend, then the counters.  Producers, workers and handlers go on in
between, and handlers enqueue to other queues.  A run is any sequence of the steps of
the queues and of any number of such calls.

`status_exact` holds in the runs in which every handling is reported once, no counter is
read while a message is on its way from the queue to the counter or a handler goes on after
its report, and nothing is enqueued to a queue that a call has already looked at.  Without
the first a counter stays up or goes below zero, without the others a call says that
everything is complete although it never was (`Sample.raised_and_moving_work`).
-/
import Mathlib.Logic.Function.Basic
import OpenViking.Queue.NamedQueue

namespace OpenViking.Queue

open Lib

variable {ι : Type}

/-- A call of `is_all_complete`.  It has returned when nothing is left to do. -/
structure Call (ι : Type) where
  todo : List ι
  /-- The size of the next queue, once it has been read. -/
  size : Option Nat
  statuses : List (ι × QueueStatus)
  /-- Whether at some moment since the call began no message of a watched queue was
  pending or being handled.  The code does not have it. -/
  idleSeen : Bool
  /-- Whether every counter it has read was the number of messages being handled at that
  moment.  The code does not have it either. -/
  exactSeen : Bool
  deriving DecidableEq

/-- The watched queues. -/
def Call.watched (call : Call ι) : List ι := call.statuses.map Prod.fst ++ call.todo

/-- What the call returns. -/
def Call.answer (call : Call ι) : Bool := call.statuses.all fun p => p.2.isComplete

/-- The call is on its way and has read the size of `q`. -/
def Call.HasRead (call : Call ι) (q : ι) : Prop :=
  call.todo ≠ [] ∧
    (q ∈ call.statuses.map Prod.fst ∨ (call.size.isSome ∧ call.todo.head? = some q))

structure Manager (ι : Type) where
  queues : ι → NamedQueue
  calls : Nat → Option (Call ι)

namespace Manager

def put (s : Manager ι) (c : Nat) (call : Call ι) : Manager ι :=
  { s with calls := Function.update s.calls c (some call) }

/-- No message of the queues is pending or being handled. -/
def idle (s : Manager ι) (queues : List ι) : Bool := queues.all fun q => (s.queues q).idle

/-- The calls on their way take notice of the present moment. -/
def observe (s : Manager ι) : Manager ι :=
  { s with calls := fun c => (s.calls c).map fun call =>
      if call.todo = [] then call
      else { call with idleSeen := call.idleSeen || s.idle call.watched } }

end Manager

inductive Action (ι : Type) where
  | queue (q : ι) (a : QueueAction)
  | isAllComplete (c : Nat) (queueName : Option ι)
  | readSize (c : Nat)
  | readCounters (c : Nat)

section steps

-- the queues of the manager and the limits of their workers
variable [DecidableEq ι] (names : List ι) (maxConcurrent : ι → Nat)

/-- The queues that `check_status` goes through. -/
def watchedBy : Option ι → List ι
  | none => names
  | some q => if q ∈ names then [q] else []

def readSizeStep (s : Manager ι) (c : Nat) (call : Call ι) : Manager ι :=
  match call.todo, call.size with
  | q :: _, none => s.put c { call with size := some (s.queues q).pending }
  | _, _ => s

def readCountersStep (s : Manager ι) (c : Nat) (call : Call ι) : Manager ι :=
  match call.todo, call.size with
  | q :: rest, some n =>
      s.put c { call with
        todo := rest, size := none
        statuses := call.statuses ++ [(q, (s.queues q).getStatus n)]
        exactSeen := call.exactSeen && decide ((s.queues q).inProgress = (s.queues q).busy) }
  | _, _ => s

def act (s : Manager ι) : Action ι → Manager ι
  | .queue q a =>
      { s with queues :=
          Function.update s.queues q ((s.queues q).step (maxConcurrent q) a) }
  | .isAllComplete c queueName =>
      match s.calls c with
      | none =>
          let watched := watchedBy names queueName
          s.put c ⟨watched, none, [], s.idle watched, true⟩
      | some _ => s
  | .readSize c =>
      match s.calls c with
      | none => s
      | some call => readSizeStep s c call
  | .readCounters c =>
      match s.calls c with
      | none => s
      | some call => readCountersStep s c call

def step (s : Manager ι) (a : Action ι) : Manager ι := act names maxConcurrent s.observe a

def run (s : Manager ι) (actions : List (Action ι)) : Manager ι :=
  actions.foldl (step names maxConcurrent) s

/-- The steps for which counters and calls are right: every handling is reported once,
nothing is enqueued to a queue that a call has already looked at, and the counters of a
queue are not read while its worker holds a message it has not counted, or one of its
handlers goes on after its report. -/
def Orderly (s : Manager ι) : Action ι → Prop
  | .queue q a =>
      (s.queues q).Balanced (maxConcurrent q) a ∧
        (a = .enqueue → ∀ c, ∀ call ∈ s.calls c, ¬call.HasRead q)
  | .isAllComplete _ _ => True
  | .readSize _ => True
  | .readCounters c =>
      ∀ call ∈ s.calls c, ∀ q ∈ call.todo.head?, (s.queues q).Settled

/-- Every step of the run is orderly in the state it is taken in. -/
def OrderlyRun : Manager ι → List (Action ι) → Prop
  | _, [] => True
  | s, a :: rest => Orderly maxConcurrent s a ∧ OrderlyRun (step names maxConcurrent s a) rest

end steps

/-- A manager that has started: messages may be pending, none has been dequeued and
nobody has asked for a status. -/
structure Started (s : Manager ι) : Prop where
  queues : ∀ q, (s.queues q).handlings = [] ∧ (s.queues q).inProgress = 0
  calls : ∀ c, s.calls c = none

/-! ## What a call knows -/

/-- What holds of a call in a state.  While everything it has read was complete, the
queues it has read are idle and stay so. -/
structure Call.Tracks (call : Call ι) (s : Manager ι) : Prop where
  read : call.todo ≠ [] → call.answer = true → ∀ p ∈ call.statuses, (s.queues p.1).idle = true
  sized : ∀ q ∈ call.todo.head?, call.size = some 0 → (s.queues q).pending = 0
  returned : call.todo = [] → call.answer = true → call.idleSeen = true
  exact : call.exactSeen = true

/-- Noticing the present moment changes nothing but `idleSeen`. -/
theorem tracks_observe {s : Manager ι} {call call' : Call ι} {c : Nat}
    (hs : ∀ c, ∀ call ∈ s.calls c, call.Tracks s) (hc : s.calls c = some call)
    (hc' : s.observe.calls c = some call') :
    call'.Tracks s ∧ (call'.todo ≠ [] → s.idle call'.watched = true → call'.idleSeen = true) := by
  have ht := hs c call hc
  simp only [Manager.observe, hc, Option.map_some, Option.some.injEq] at hc'
  split at hc'
  · rename_i hdone
    subst hc'
    exact ⟨ht, fun h => absurd hdone h⟩
  · rename_i hdone
    subst hc'
    refine ⟨⟨ht.read, ht.sized, ?_, ht.exact⟩, ?_⟩
    · intro hnil
      exact absurd hnil hdone
    · intro _ hidle
      have hidle' : s.idle call.watched = true := hidle
      simp [hidle']

/-- A step of a queue keeps what a call knows: only enqueueing makes an idle queue busy,
and the call has not read that queue. -/
theorem Call.Tracks.queue [DecidableEq ι] {call : Call ι} {s : Manager ι} {q : ι} {a : QueueAction}
    {limit : Nat} (ht : call.Tracks s) (ha : a = .enqueue → ¬call.HasRead q) :
    call.Tracks { s with queues := Function.update s.queues q ((s.queues q).step limit a) } where
  read := by
    intro htodo hanswer p hp
    have hidle := ht.read htodo hanswer p hp
    by_cases hq : p.1 = q
    · subst hq
      simp only [Function.update_self]
      refine NamedQueue.step_idle hidle ?_
      intro henq
      exact ha henq ⟨htodo, .inl (List.mem_map_of_mem hp)⟩
    · simpa only [Function.update_of_ne hq] using hidle
  sized := by
    intro q' hq' hsize
    have hpending := ht.sized q' hq' hsize
    by_cases hq : q' = q
    · subst hq
      simp only [Function.update_self]
      refine NamedQueue.step_pending hpending ?_
      intro henq
      refine ha henq ⟨?_, .inr ⟨by simp [hsize], hq'⟩⟩
      intro hnil
      simp [hnil] at hq'
    · simpa only [Function.update_of_ne hq] using hpending
  returned := ht.returned
  exact := ht.exact

/-- A new call knows nothing yet.  A call without queues returns at once. -/
theorem tracks_begin (s : Manager ι) (watched : List ι) :
    (⟨watched, none, [], s.idle watched, true⟩ : Call ι).Tracks s where
  read := by
    intro _ _ p hp
    cases hp
  sized := by
    intro q _ hsize
    cases hsize
  returned := by
    intro hnil _
    show s.idle watched = true
    have hw : watched = [] := hnil
    simp [hw, Manager.idle]
  exact := rfl

theorem Call.Tracks.readSize {call : Call ι} {s : Manager ι} {q : ι} {rest : List ι}
    (ht : call.Tracks s) (htodo : call.todo = q :: rest) :
    ({ call with size := some (s.queues q).pending } : Call ι).Tracks s where
  read := ht.read
  sized := by
    intro q' hq' hsize
    rw [htodo] at hq'
    obtain rfl : q = q' := Option.some.inj hq'
    exact Option.some.inj hsize
  returned := ht.returned
  exact := ht.exact

/-- A queue whose two reads give a complete status is idle at the second one. -/
theorem idle_of_isComplete {s : Manager ι} {q : ι} {n : Nat} (hexact : (s.queues q).Exact)
    (hsettled : (s.queues q).Settled) (hpending : n = 0 → (s.queues q).pending = 0)
    (hcomplete : ((s.queues q).getStatus n).isComplete = true) : (s.queues q).idle = true := by
  simp only [QueueStatus.isComplete, NamedQueue.getStatus, Bool.and_eq_true, beq_iff_eq]
    at hcomplete
  obtain ⟨hn, hzero⟩ := hcomplete
  have hbusy := hsettled.openHandlings_eq
  have hcount : (s.queues q).inProgress = (s.queues q).openHandlings := hexact
  simp only [NamedQueue.idle, Bool.and_eq_true, beq_iff_eq]
  exact ⟨hpending hn, by omega⟩

/-- The second read.  If it was the last one and everything was complete, then all
watched queues are idle at this moment. -/
theorem Call.Tracks.readCounters {call : Call ι} {s : Manager ι} {q : ι} {rest : List ι} {n : Nat}
    (ht : call.Tracks s) (htodo : call.todo = q :: rest) (hsize : call.size = some n)
    (hseen : call.todo ≠ [] → s.idle call.watched = true → call.idleSeen = true)
    (hexact : (s.queues q).Exact) (hsettled : (s.queues q).Settled) :
    ({ call with
        todo := rest, size := none
        statuses := call.statuses ++ [(q, (s.queues q).getStatus n)]
        exactSeen := call.exactSeen && decide ((s.queues q).inProgress = (s.queues q).busy) } :
      Call ι).Tracks s := by
  have hne : call.todo ≠ [] := by simp [htodo]
  -- everything read so far was complete, the new status included
  have hall : (call.statuses ++ [(q, (s.queues q).getStatus n)]).all
        (fun p => p.2.isComplete) = true →
      (∀ p ∈ call.statuses, (s.queues p.1).idle = true) ∧ (s.queues q).idle = true := by
    intro h
    rw [List.all_append, Bool.and_eq_true] at h
    refine ⟨ht.read hne h.1, idle_of_isComplete hexact hsettled ?_ (by simpa using h.2)⟩
    intro hn
    exact ht.sized q (by simp [htodo]) (by rw [hsize, hn])
  refine ⟨?_, ?_, ?_, ?_⟩
  · intro _ hanswer p hp
    obtain ⟨hread, hq⟩ := hall hanswer
    rcases List.mem_append.mp hp with hp | hp
    · exact hread p hp
    · rw [List.mem_singleton.mp hp]
      exact hq
  · intro q' _ h
    cases h
  · intro hlast hanswer
    obtain ⟨hread, hq⟩ := hall hanswer
    refine hseen hne ?_
    have hrest : rest = [] := hlast
    simp only [Manager.idle, Call.watched, htodo, hrest, List.all_eq_true, List.mem_append,
      List.mem_map, List.mem_singleton]
    rintro x (⟨p, hp, rfl⟩ | rfl)
    · exact hread p hp
    · exact hq
  · have hcount : (s.queues q).inProgress = (s.queues q).openHandlings := hexact
    rw [hsettled.openHandlings_eq] at hcount
    simp [ht.exact, hcount]

/-! ## Runs -/

/-- The counters are exact and the calls know what they have read. -/
structure Consistent (s : Manager ι) : Prop where
  exact : ∀ q, (s.queues q).Exact
  calls : ∀ c, ∀ call ∈ s.calls c, call.Tracks s

theorem Started.consistent {s : Manager ι} (hs : Started s) : Consistent s where
  exact := by
    intro q
    obtain ⟨hhandlings, hzero⟩ := hs.queues q
    simp [NamedQueue.Exact, NamedQueue.openHandlings, hhandlings, hzero]
  calls := by
    intro c call hc
    rw [hs.calls c] at hc
    cases hc

/-- The calls of a manager in which one call has moved on. -/
theorem tracks_put {s : Manager ι} {c : Nat} {call : Call ι}
    (hs : ∀ c, ∀ call ∈ s.calls c, call.Tracks s) (ht : call.Tracks s) :
    ∀ c', ∀ call' ∈ (s.put c call).calls c', call'.Tracks (s.put c call) := by
  intro c' call' hc'
  have hsame : ∀ {x : Call ι}, x.Tracks s → x.Tracks (s.put c call) :=
    fun h => ⟨h.read, h.sized, h.returned, h.exact⟩
  by_cases h : c' = c
  · subst h
    simp only [Manager.put, Function.update_self] at hc'
    obtain rfl := Option.some.inj hc'
    exact hsame ht
  · simp only [Manager.put, Function.update_of_ne h] at hc'
    exact hsame (hs c' call' hc')

/-- What the calls of a consistent manager know once they have taken notice of the
moment. -/
theorem Consistent.observe {s : Manager ι} (hs : Consistent s) {c : Nat} {call : Call ι}
    (hc : s.observe.calls c = some call) :
    call.Tracks s ∧ (call.todo ≠ [] → s.idle call.watched = true → call.idleSeen = true) := by
  cases h : s.calls c with
  | none => simp [Manager.observe, h] at hc
  | some before => exact tracks_observe hs.calls h hc

/-- What a call has read and is about to read does not depend on noticing. -/
theorem observe_calls {s : Manager ι} {c : Nat} {call : Call ι}
    (hc : s.observe.calls c = some call) :
    ∃ before, s.calls c = some before ∧ call.todo = before.todo ∧
      (∀ q, call.HasRead q ↔ before.HasRead q) := by
  simp only [Manager.observe, Option.map_eq_some_iff] at hc
  obtain ⟨before, hbefore, hcall⟩ := hc
  refine ⟨before, hbefore, ?_⟩
  split at hcall
  · subst hcall
    exact ⟨rfl, fun _ => Iff.rfl⟩
  · subst hcall
    exact ⟨rfl, fun _ => Iff.rfl⟩

section runs

variable [DecidableEq ι] {names : List ι} {maxConcurrent : ι → Nat}

theorem Consistent.step {s : Manager ι} {a : Action ι} (hs : Consistent s)
    (ha : Orderly maxConcurrent s a) : Consistent (step names maxConcurrent s a) := by
  have hcalls : ∀ c, ∀ call ∈ s.observe.calls c, call.Tracks s.observe := by
    intro c call hc
    obtain ⟨⟨hread, hsized, hreturned, hexact⟩, -⟩ := hs.observe hc
    exact ⟨hread, hsized, hreturned, hexact⟩
  have hstay : Consistent s.observe := ⟨hs.exact, hcalls⟩
  cases a with
  | queue q a =>
    obtain ⟨hbalanced, henqueue⟩ := ha
    refine ⟨?_, ?_⟩
    · intro q'
      by_cases hq : q' = q
      · subst hq
        simp only [Queue.step, act, Function.update_self]
        exact NamedQueue.step_exact (hs.exact q') hbalanced
      · simp only [Queue.step, act, Function.update_of_ne hq]
        exact hs.exact q'
    · intro c call hc
      refine (hcalls c call hc).queue ?_
      intro henq hread
      obtain ⟨before, hbefore, -, hiff⟩ := observe_calls hc
      exact henqueue henq c before hbefore ((hiff q).mp hread)
  | isAllComplete c queueName =>
    simp only [Queue.step, act]
    split
    · exact ⟨hs.exact, tracks_put hcalls (tracks_begin _ _)⟩
    · exact hstay
  | readSize c =>
    simp only [Queue.step, act]
    split
    · exact hstay
    · rename_i call hc
      unfold readSizeStep
      split
      · rename_i q rest htodo hsize
        exact ⟨hs.exact, tracks_put hcalls ((hcalls c call hc).readSize htodo)⟩
      · exact hstay
  | readCounters c =>
    simp only [Queue.step, act]
    split
    · exact hstay
    · rename_i call hc
      unfold readCountersStep
      split
      · rename_i q rest n htodo hsize
        obtain ⟨before, hbefore, hsame, -⟩ := observe_calls hc
        have hsettled : (s.queues q).Settled :=
          ha before hbefore q (by rw [← hsame, htodo]; rfl)
        have hseen := (hs.observe hc).2
        exact ⟨hs.exact, tracks_put hcalls
          ((hcalls c call hc).readCounters htodo hsize hseen (hs.exact q) hsettled)⟩
      · exact hstay

theorem Consistent.run {s : Manager ι} (hs : Consistent s) {actions : List (Action ι)}
    (hrun : OrderlyRun names maxConcurrent s actions) :
    Consistent (run names maxConcurrent s actions) := by
  induction actions generalizing s with
  | nil => exact hs
  | cons a rest ih => exact ih (hs.step hrun.1) hrun.2

/-- In every orderly run the counter of a queue is the number of its messages whose
handling has not ended, less those between the queue and the counter and those whose handler
goes on after its report; what a call has read of the counters is that number at the moment
it was read; and a call that says everything is complete saw a moment at which it was. -/
theorem status_exact {s : Manager ι} (hs : Started s) {actions : List (Action ι)}
    (hrun : OrderlyRun names maxConcurrent s actions) :
    let reached := run names maxConcurrent s actions
    (∀ q, ((reached.queues q).Settled →
        (reached.queues q).inProgress = (reached.queues q).busy) ∧
      0 ≤ (reached.queues q).inProgress ∧
      (reached.queues q).inProgress ≤ (reached.queues q).busy) ∧
    ∀ c call, reached.calls c = some call →
      call.exactSeen = true ∧ (call.todo = [] → call.answer = true → call.idleSeen = true) := by
  intro reached
  have hreached : Consistent reached := hs.consistent.run hrun
  refine ⟨fun q => ?_, fun c call hc => ?_⟩
  · have hexact : (reached.queues q).inProgress = (reached.queues q).openHandlings :=
      hreached.exact q
    have hle := (reached.queues q).openHandlings_le
    refine ⟨fun hsettled => ?_, by omega, ?_⟩
    · rw [hexact, hsettled.openHandlings_eq]
    · rw [NamedQueue.busy]
      omega
  · have htracks := hreached.calls c call hc
    exact ⟨htracks.exact, htracks.returned⟩

end runs

/-! ## Runs of two queues -/

namespace Sample

def empty : NamedQueue := ⟨0, false, [], 0, 0, 0, 0, []⟩

/-- A concurrent queue and a single one. -/
def limits : Bool → Nat
  | true => 4
  | false => 1

def manager : Manager Bool := ⟨fun _ => empty, fun _ => none⟩

theorem started : Started manager := ⟨fun _ => ⟨rfl, rfl⟩, fun _ => rfl⟩

/-- One message of the first queue is handled; its handler enqueues to the second one
and a call asks for both afterwards. -/
def chained : List (Action Bool) :=
  [.queue true .enqueue, .queue true .fetch, .queue true .start, .queue false .enqueue,
    .queue true (.success 0), .queue true (.finish 0 .returned), .queue false .fetch,
    .queue false .start, .queue false (.error 0 "bad".toList),
    .queue false (.finish 0 (.raised "bad".toList)),
    .isAllComplete 0 none, .readSize 0, .readCounters 0, .readSize 0, .readCounters 0]

theorem chained_orderly : OrderlyRun [true, false] limits manager chained := by
  have hquiet : ∀ (q : Bool) (call : Call Bool), call ∈ (none : Option (Call Bool)) →
      ¬call.HasRead q := by
    intro q call hc
    cases hc
  have hother : ∀ {a : QueueAction} {P : Prop}, a ≠ .enqueue → (a = .enqueue → P) :=
    fun h h' => absurd h' h
  have hopen : ∀ h ∈ some (⟨0, false⟩ : Handling), h.isOpen = true := by
    intro h hh
    cases hh
    rfl
  have hreported : ∀ (max : Nat) (e : Ending), reportsEnding max e = false →
      ∀ h ∈ some (⟨1, false⟩ : Handling), !h.finished → (reportsEnding max e ↔ h.reports = 0) := by
    intro max e he h hh _
    cases hh
    simp [he]
  refine ⟨⟨trivial, fun _ _ => hquiet _⟩, ⟨trivial, hother (by decide)⟩,
    ⟨trivial, hother (by decide)⟩, ⟨trivial, fun _ _ => hquiet _⟩,
    ⟨hopen, hother (by decide)⟩, ⟨hreported 4 .returned rfl, hother (by decide)⟩,
    ⟨trivial, hother (by decide)⟩, ⟨trivial, hother (by decide)⟩,
    ⟨hopen, hother (by decide)⟩, ⟨hreported 1 (.raised _) rfl, hother (by decide)⟩,
    trivial, trivial, ?_, trivial, ?_, trivial⟩
  · intro call hc q hq
    cases hc
    cases hq
    decide +kernel
  · intro call hc q hq
    cases hc
    cases hq
    decide +kernel

/-- The orderly run ends with both counters at zero and the answer that all is complete. -/
theorem chained_complete :
    (∀ q, ((run [true, false] limits manager chained).queues q).inProgress = 0) ∧
    ∃ call, (run [true, false] limits manager chained).calls 0 = some call ∧
      call.todo = [] ∧ call.answer = true ∧ call.exactSeen = true ∧ call.idleSeen = true := by
  refine ⟨by decide +kernel, _, rfl, rfl, by decide +kernel, ?_⟩
  obtain ⟨hexact, hidle⟩ := (status_exact started chained_orderly).2 0 _ rfl
  exact ⟨hexact, hidle rfl (by decide +kernel)⟩

/-- The handler of a message raises, in single mode without a report and in concurrent
mode after one. -/
def raised (q : Bool) (reports : List QueueAction) : List (Action Bool) :=
  [.queue q .enqueue, .queue q .fetch, .queue q .start] ++ reports.map (.queue q) ++
    [.queue q (.finish 0 (.raised "boom".toList))]

/-- While a call goes from the first queue to the second, the handler of the second one
enqueues to the first one and ends. -/
def moving : List (Action Bool) :=
  [.queue false .enqueue, .queue false .fetch, .queue false .start,
    .isAllComplete 0 none, .readSize 0, .readCounters 0,
    .queue true .enqueue, .queue false (.success 0), .queue false (.finish 0 .returned),
    .readSize 0, .readCounters 0]

/-- A handler reports success and goes on while a call asks for its queue. -/
def goingOn : List (Action Bool) :=
  [.queue true .enqueue, .queue true .fetch, .queue true .start, .queue true (.success 0),
    .isAllComplete 0 none, .readSize 0, .readCounters 0, .readSize 0, .readCounters 0,
    .queue true (.finish 0 .returned)]

/-- A handler that raises without a report leaves a single queue in progress for good, one
that raises after its report takes a concurrent queue below zero, work that moves to a
queue already read is missed, and so is a handler that goes on after its report. -/
theorem raised_and_moving_work :
    ((run [true, false] limits manager (raised false [])).queues false).running = 0 ∧
    ((run [true, false] limits manager (raised false [])).queues false).inProgress = 1 ∧
    ((run [true, false] limits manager
      (raised true [.error 0 "bad".toList])).queues true).inProgress = -1 ∧
    (∃ call, (run [true, false] limits manager moving).calls 0 = some call ∧
      call.todo = [] ∧ call.answer = true ∧ call.idleSeen = false) ∧
    ∃ call, (run [true, false] limits manager goingOn).calls 0 = some call ∧
      call.todo = [] ∧ call.answer = true ∧ call.exactSeen = false ∧ call.idleSeen = false := by
  refine ⟨by decide +kernel, by decide +kernel, by decide +kernel,
    ⟨_, rfl, rfl, by decide +kernel, by decide +kernel⟩,
    ⟨_, rfl, rfl, by decide +kernel, by decide +kernel, by decide +kernel⟩⟩

end Sample

end OpenViking.Queue
