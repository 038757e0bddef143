/-
# `OpenViking.Tracker.Dispatch` — work that is finished, and work on another loop

Two more primitives of the task tracker.

`run_to_completion` starts work and waits for it through a shield, as often as it is cancelled
while it waits; the cancellation is raised when the work is over.

`OwnerLoopDispatcher.run` runs a coroutine on the loop that owns the dispatcher.  From another
loop it hands the factory over as a callback of the owner loop and waits for a future, in turns
of a tenth of a second, after which it looks whether the owner loop still runs.  The callback, the
task it makes, the transfer of the result and the caller are steps of different threads and
interleave freely; loops start, stop and close at any time.

    `primitives_sound`   at every moment of every run: a key of the lock pool has at most one
                         holder and an entry exactly if somebody holds it or waits for it;
                         `run_to_completion` has not ended while its work runs; a dispatched
                         factory was started at most once, and a call that returned has
                         returned the result of that run
-/
import OpenViking.Tracker.LockPool

namespace OpenViking.Tracker

open OpenViking.Lib Function

variable {ρ ε : Type}

/-- How a task ends -/
inductive Outcome (ρ ε : Type)
  | value (v : ρ)
  | error (e : ε)
  | cancelled

/-! ## `run_to_completion` -/

inductive Work (ρ ε : Type)
  | notStarted
  | running
  | done (outcome : Outcome ρ ε)

namespace Completion

inductive Pc (ρ ε : Type)
  | fresh
  /-- `cancellation`: a cancellation was observed. -/
  | awaiting (cancellation : Bool)
  | returned (v : ρ)
  | raised (e : ε)
  | raisedCancelled

structure Call (ρ ε : Type) where
  work : Work ρ ε
  pc : Pc ρ ε
  /-- The task was cancelled and has not run since. -/
  cancelRequested : Bool
  /-- `cancelling()` of the task, where tasks count their cancellations -/
  cancelling : Option Nat

inductive Event (ρ ε : Type)
  /-- The first step.  The factory raises, or gives an awaitable that may be done already. -/
  | start (factory : Except ε (Option (Outcome ρ ε)))
  | cancel
  | finish (outcome : Outcome ρ ε)
  | resume

namespace Call

/-- After the loop -/
def exit (c : Call ρ ε) (cancellation : Bool) (outcome : Outcome ρ ε) : Call ρ ε :=
  if cancellation then { c with pc := .raisedCancelled }
  else
    match outcome with
    | .value v => { c with pc := .returned v }
    | .error e => { c with pc := .raised e }
    | .cancelled => { c with pc := .raisedCancelled }

/-- `while not work.done()` -/
def loopHead (c : Call ρ ε) (cancellation : Bool) : Call ρ ε :=
  match c.work with
  | .done outcome => c.exit cancellation outcome
  | .running => { c with pc := .awaiting cancellation }
  | .notStarted => { c with pc := .awaiting cancellation }

def start (c : Call ρ ε) (factory : Except ε (Option (Outcome ρ ε))) : Call ρ ε :=
  if c.cancelRequested then { c with pc := .raisedCancelled, cancelRequested := false }
  else
    match factory with
    | .error e => { c with pc := .raised e }
    | .ok none => loopHead { c with work := .running } false
    | .ok (some outcome) => loopHead { c with work := .done outcome } false

/-- The await of the shield ends: with the cancellation of the caller if there is one, otherwise
as the work has ended. -/
def resume (c : Call ρ ε) (cancellation : Bool) : Call ρ ε :=
  if c.cancelRequested then
    match c.work with
    | .done .cancelled => { c with pc := .raisedCancelled, cancelRequested := false }
    | .done (.value _) => loopHead { c with cancelRequested := false } true
    | .done (.error _) => loopHead { c with cancelRequested := false } true
    | .running => loopHead { c with cancelRequested := false } true
    | .notStarted => c
  else
    match c.work with
    | .done (.value _) => c.loopHead cancellation
    | .done (.error e) =>
        if c.cancelling.getD 0 = 0 then { c with pc := .raised e } else c.loopHead true
    | .done .cancelled => { c with pc := .raisedCancelled }
    | .running => c
    | .notStarted => c

def step (c : Call ρ ε) : Event ρ ε → Call ρ ε
  | .start factory =>
      match c.pc with
      | .fresh => c.start factory
      | .awaiting _ => c
      | .returned _ => c
      | .raised _ => c
      | .raisedCancelled => c
  | .cancel => { c with cancelRequested := true, cancelling := c.cancelling.map (· + 1) }
  | .finish outcome =>
      match c.work with
      | .running => { c with work := .done outcome }
      | .notStarted => c
      | .done _ => c
  | .resume =>
      match c.pc with
      | .awaiting cancellation => c.resume cancellation
      | .fresh => c
      | .returned _ => c
      | .raised _ => c
      | .raisedCancelled => c

/-- `counts`: tasks count their cancellations. -/
def init (counts : Bool) : Call ρ ε where
  work := .notStarted
  pc := .fresh
  cancelRequested := false
  cancelling := if counts then some 0 else none

end Call

/-- The call has returned or raised. -/
def Pc.Ended : Pc ρ ε → Prop
  | .fresh => False
  | .awaiting _ => False
  | .returned _ => True
  | .raised _ => True
  | .raisedCancelled => True

structure Call.Safe (c : Call ρ ε) : Prop where
  finished : c.pc.Ended → c.work ≠ .running
  result : ∀ v, c.pc = .returned v → c.work = .done (.value v)

/-- Before the call starts there is no work; while it waits there is. -/
structure Call.Inv (c : Call ρ ε) : Prop extends Call.Safe c where
  fresh : c.pc = .fresh → c.work = .notStarted
  awaiting : ∀ cancellation, c.pc = .awaiting cancellation → c.work ≠ .notStarted

variable {c : Call ρ ε}

/-- A call that raises when its work is not running -/
theorem Call.inv_raised {pc : Pc ρ ε} (hwork : c.work ≠ .running)
    (hpc : (∃ e, pc = .raised e) ∨ pc = .raisedCancelled) {requested : Bool} :
    Call.Inv { c with pc := pc, cancelRequested := requested } := by
  rcases hpc with ⟨e, rfl⟩ | rfl
  · refine ⟨⟨fun _ => hwork, fun v h => ?_⟩, fun h => ?_, fun _ h => ?_⟩
    · cases h
    · cases h
    · cases h
  · refine ⟨⟨fun _ => hwork, fun v h => ?_⟩, fun h => ?_, fun _ h => ?_⟩
    · cases h
    · cases h
    · cases h

theorem Call.inv_exit {outcome : Outcome ρ ε} (hdone : c.work = .done outcome)
    (cancellation : Bool) : (c.exit cancellation outcome).Inv := by
  have hover : c.work ≠ .running := by
    rw [hdone]
    intro h
    cases h
  rw [Call.exit.eq_def]
  split
  · exact Call.inv_raised hover (.inr rfl)
  · cases outcome with
    | value v =>
        refine ⟨⟨fun _ => hover, fun v' h => ?_⟩, fun h => ?_, fun _ h => ?_⟩
        · cases h
          exact hdone
        · cases h
        · cases h
    | error e => exact Call.inv_raised hover (.inl ⟨e, rfl⟩)
    | cancelled => exact Call.inv_raised hover (.inr rfl)

theorem Call.inv_loopHead (hwork : c.work ≠ .notStarted) (cancellation : Bool) :
    (c.loopHead cancellation).Inv := by
  rw [Call.loopHead]
  split
  · next outcome hdone => exact Call.inv_exit hdone cancellation
  · refine ⟨⟨fun h => h.elim, fun v h => ?_⟩, fun h => ?_, fun _ _ => hwork⟩
    · cases h
    · cases h
  · next hnone => exact absurd hnone hwork

theorem Call.Inv.start (h : c.Inv) (hpc : c.pc = .fresh)
    (factory : Except ε (Option (Outcome ρ ε))) : (c.start factory).Inv := by
  have hidle : c.work ≠ .running := by
    rw [h.fresh hpc]
    intro h'
    cases h'
  rw [Call.start.eq_def]
  split
  · exact Call.inv_raised hidle (.inr rfl)
  · split
    · exact Call.inv_raised hidle (.inl ⟨_, rfl⟩)
    · refine Call.inv_loopHead (fun h' => ?_) false
      cases h'
    · refine Call.inv_loopHead (fun h' => ?_) false
      cases h'

theorem Call.Inv.resume (h : c.Inv) {cancellation : Bool} (hpc : c.pc = .awaiting cancellation) :
    (c.resume cancellation).Inv := by
  have hwork := h.awaiting cancellation hpc
  have hover : ∀ outcome, c.work = .done outcome → c.work ≠ .running := by
    intro outcome hdone h'
    rw [hdone] at h'
    cases h'
  rw [Call.resume]
  split
  · split
    · next hdone => exact Call.inv_raised (hover _ hdone) (.inr rfl)
    · exact Call.inv_loopHead (c := { c with cancelRequested := false }) hwork true
    · exact Call.inv_loopHead (c := { c with cancelRequested := false }) hwork true
    · exact Call.inv_loopHead (c := { c with cancelRequested := false }) hwork true
    · exact h
  · split
    · exact Call.inv_loopHead hwork cancellation
    · next hdone =>
        split
        · exact Call.inv_raised (hover _ hdone) (.inl ⟨_, rfl⟩)
        · exact Call.inv_loopHead hwork true
    · next hdone => exact Call.inv_raised (hover _ hdone) (.inr rfl)
    · exact h
    · exact h

theorem Call.Inv.step (h : c.Inv) (event : Event ρ ε) : (c.step event).Inv := by
  cases event with
  | start factory =>
      rw [Call.step]
      split
      · next hpc => exact h.start hpc factory
      · exact h
      · exact h
      · exact h
      · exact h
  | cancel => exact ⟨⟨h.finished, h.result⟩, h.fresh, h.awaiting⟩
  | finish outcome =>
      rw [Call.step]
      split
      · next hrunning =>
          -- the call has not ended, since its work was running
          refine ⟨⟨fun _ h' => ?_, fun v hv => ?_⟩, fun hfresh => ?_, fun _ _ h' => ?_⟩
          · cases h'
          · exact absurd hrunning (h.finished (by rw [hv]; trivial))
          · rw [h.fresh hfresh] at hrunning
            cases hrunning
          · cases h'
      · exact h
      · exact h
  | resume =>
      rw [Call.step]
      split
      · next hpc => exact h.resume hpc
      · exact h
      · exact h
      · exact h
      · exact h

theorem Call.inv_init (counts : Bool) : (Call.init counts : Call ρ ε).Inv := by
  refine ⟨⟨fun h => h.elim, fun v h => ?_⟩, fun _ => rfl, fun _ h => ?_⟩
  · cases h
  · cases h

end Completion

/-! ## `OwnerLoopDispatcher` -/

namespace Dispatcher

variable {ι Loop : Type}

structure LoopState where
  running : Bool
  closed : Bool

/-- A future of `concurrent.futures`; nothing marks it as running. -/
inductive Future (ρ ε : Type)
  | pending
  | cancelled
  | error (e : ε)
  | value (v : ρ)

namespace Future

def isCancelled : Future ρ ε → Bool
  | .cancelled => true
  | .pending => false
  | .error _ => false
  | .value _ => false

/-- `cancel()`: the future afterwards, and what the call returns -/
def cancel : Future ρ ε → Future ρ ε × Bool
  | .pending => (.cancelled, true)
  | .cancelled => (.cancelled, true)
  | .error e => (.error e, false)
  | .value v => (.value v, false)

/-- The outcome is set; a future that is done raises `InvalidStateError`, which is caught. -/
def settle (f : Future ρ ε) (outcome : Outcome ρ ε) : Future ρ ε :=
  match f, outcome with
  | .pending, .value v => .value v
  | .pending, .error e => .error e
  | .pending, .cancelled => .cancelled
  | .cancelled, _ => .cancelled
  | .error e, _ => .error e
  | .value v, _ => .value v

end Future

/-- How far the callback `submit_to_owner` is -/
inductive Submit
  | notScheduled
  | scheduled
  /-- The future was not cancelled. -/
  | checked
  /-- The task exists and is not in `owner_task` yet. -/
  | created
  | ended
  deriving DecidableEq

/-- Where the caller is -/
inductive Pc (ρ : Type)
  | fresh
  | checkClosed
  | compare
  | checkRunning
  | scheduling
  | waiting
  /-- It awaits the coroutine itself. -/
  | awaitingOwn
  /-- The owner loop does not run: look at the task, cancel the future, look again. -/
  | stopped
  | cancelling
  | lastLook
  | returned (v : ρ)
  | raised

structure Call (Loop ρ ε : Type) where
  here : Loop
  owner : Loop
  pc : Pc ρ
  future : Future ρ ε
  wrapped : Future ρ ε
  submit : Submit
  /-- The task is in `owner_task`, and its callback has not run. -/
  ownerTask : Bool
  registered : Bool
  /-- The runs of the factory, with their outcomes -/
  runs : List (Option (Outcome ρ ε))
  cancellation : Bool

namespace Call

def new (here : Loop) : Call Loop ρ ε where
  here := here
  owner := here
  pc := .fresh
  future := .pending
  wrapped := .pending
  submit := .notScheduled
  ownerTask := false
  registered := false
  runs := []
  cancellation := false

/-- The outcome of `owner_task[0]`, if it is done -/
def taskDone (c : Call Loop ρ ε) : Option (Outcome ρ ε) :=
  if c.ownerTask then c.runs.head?.join else none

/-- `return task.result()` -/
def finish (c : Call Loop ρ ε) (outcome : Outcome ρ ε) : Call Loop ρ ε :=
  match outcome with
  | .value v => { c with pc := .returned v }
  | .error _ => { c with pc := .raised }
  | .cancelled => { c with pc := .raised }

/-- `return future.result()` of a future that is done -/
def finishFuture (c : Call Loop ρ ε) (future : Future ρ ε) : Call Loop ρ ε :=
  match future with
  | .value v => { c with pc := .returned v }
  | .error _ => { c with pc := .raised }
  | .cancelled => { c with pc := .raised }
  | .pending => c

/-- The running run ends. -/
def settleRuns (c : Call Loop ρ ε) (outcome : Outcome ρ ε) : Call Loop ρ ε :=
  { c with runs := c.runs.map fun run => some (run.getD outcome) }

/-- The next step of the caller after the owner is known -/
def advance [DecidableEq Loop] (loops : Loop → LoopState) (c : Call Loop ρ ε) : Call Loop ρ ε :=
  match c.pc with
  | .checkClosed =>
      if (loops c.owner).closed then { c with pc := .raised } else { c with pc := .compare }
  | .compare =>
      if c.here = c.owner then { c with pc := .awaitingOwn, runs := c.runs ++ [none] }
      else { c with pc := .checkRunning }
  | .checkRunning =>
      if (loops c.owner).running then { c with pc := .scheduling } else { c with pc := .raised }
  | .scheduling =>
      -- `call_soon_threadsafe` raises on a closed loop
      if (loops c.owner).closed then { c with pc := .raised, future := c.future.cancel.1 }
      else { c with pc := .waiting, submit := .scheduled }
  | .waiting =>
      match c.wrapped with
      | .pending => c
      | .cancelled => { c with pc := .raised }
      | .error _ => { c with pc := .raised }
      | .value v =>
          if c.cancellation then { c with pc := .raised } else { c with pc := .returned v }
  | .stopped =>
      match c.taskDone with
      | some outcome => { c.finish outcome with future := c.future.cancel.1 }
      | none => { c with pc := .cancelling }
  | .cancelling =>
      if c.future.cancel.2 then { c with pc := .lastLook, future := c.future.cancel.1 }
      else c.finishFuture c.future
  | .lastLook =>
      match c.taskDone with
      | some outcome => c.finish outcome
      | none => { c with pc := .raised }
  | .fresh => c
  | .awaitingOwn => c
  | .returned _ => c
  | .raised => c

end Call

inductive CallEvent (ρ ε : Type)
  | advance
  /-- The wait of a tenth of a second is over and nothing was done. -/
  | timeout
  | cancel
  /-- The coroutine the caller awaits itself ends. -/
  | ownDone (outcome : Outcome ρ ε)
  /-- The callback on the owner loop, step by step; the factory may raise. -/
  | submitCheck
  | submitStart (failure : Option ε)
  | submitAppend
  | taskDone (outcome : Outcome ρ ε)
  | transfer
  /-- The caller's loop hears of the future. -/
  | chain

def Call.step [DecidableEq Loop] (loops : Loop → LoopState) (c : Call Loop ρ ε) :
    CallEvent ρ ε → Call Loop ρ ε
  | .advance => c.advance loops
  | .timeout =>
      match c.pc, c.wrapped with
      | .waiting, .pending => if (loops c.owner).running then c else { c with pc := .stopped }
      | _, _ => c
  | .cancel =>
      match c.pc with
      | .waiting => { c with cancellation := true }
      | _ => c
  | .ownDone outcome =>
      match c.pc with
      | .awaitingOwn => (c.settleRuns outcome).finish outcome
      | _ => c
  | .submitCheck =>
      if c.submit = .scheduled ∧ (loops c.owner).running then
        if c.future.isCancelled then { c with submit := .ended } else { c with submit := .checked }
      else c
  | .submitStart failure =>
      if c.submit = .checked then
        match failure with
        | none => { c with submit := .created, runs := c.runs ++ [none] }
        | some e =>
            { c with submit := .ended, runs := c.runs ++ [some (.error e)]
                     future := c.future.settle (.error e) }
      else c
  | .submitAppend =>
      if c.submit = .created then { c with submit := .ended, ownerTask := true, registered := true }
      else c
  | .taskDone outcome =>
      match c.pc with
      | .awaitingOwn => c
      | _ => c.settleRuns outcome
  | .transfer =>
      if c.registered then
        match c.taskDone with
        | some outcome => { c with registered := false, future := c.future.settle outcome }
        | none => c
      else c
  | .chain =>
      match c.wrapped with
      | .pending => { c with wrapped := c.future }
      | _ => c

structure State (ι Loop ρ ε : Type) where
  owner : Option Loop
  loops : Loop → LoopState
  calls : ι → Call Loop ρ ε

inductive Event (ι Loop ρ ε : Type)
  /-- Loops start, stop and close. -/
  | loop (l : Loop) (state : LoopState)
  /-- The first step of a call: the loop of the first call becomes the owner. -/
  | bind (i : ι)
  | call (i : ι) (event : CallEvent ρ ε)

def State.step [DecidableEq ι] [DecidableEq Loop] (s : State ι Loop ρ ε) :
    Event ι Loop ρ ε → State ι Loop ρ ε
  | .loop l state => { s with loops := update s.loops l state }
  | .bind i =>
      match (s.calls i).pc with
      | .fresh =>
          let owner := s.owner.getD (s.calls i).here
          { s with owner := some owner
                   calls := update s.calls i { s.calls i with owner := owner, pc := .checkClosed } }
      | _ => s
  | .call i event => { s with calls := update s.calls i ((s.calls i).step s.loops event) }

/-- Calls `i` made on the loops `here i` -/
def State.init (loops : Loop → LoopState) (here : ι → Loop) : State ι Loop ρ ε where
  owner := none
  loops := loops
  calls := fun i => Call.new (here i)

structure Call.Safe (c : Call Loop ρ ε) : Prop where
  once : c.runs.length ≤ 1
  result : ∀ v, c.pc = .returned v → c.runs = [some (.value v)]

def State.Safe (s : State ι Loop ρ ε) : Prop := ∀ i, (s.calls i).Safe

/-- The caller has not handed the factory over, nor started it. -/
def Pc.Early : Pc ρ → Prop
  | .fresh => True
  | .checkClosed => True
  | .compare => True
  | .checkRunning => True
  | .scheduling => True
  | .waiting => False
  | .awaitingOwn => False
  | .stopped => False
  | .cancelling => False
  | .lastLook => False
  | .returned _ => False
  | .raised => False

structure Call.Inv (c : Call Loop ρ ε) : Prop extends Call.Safe c where
  early : c.pc.Early → c.runs = [] ∧ c.submit = .notScheduled
  handed : c.submit = .scheduled ∨ c.submit = .checked → c.runs = []
  own : c.pc = .awaitingOwn → c.submit = .notScheduled ∧ c.runs = [none]
  future : ∀ v, c.future = .value v → c.runs = [some (.value v)]
  wrapped : ∀ v, c.wrapped = .value v → c.runs = [some (.value v)]

variable {c : Call Loop ρ ε}

theorem Call.inv_new (here : Loop) : (Call.new here : Call Loop ρ ε).Inv := by
  refine ⟨⟨Nat.zero_le 1, fun v h => ?_⟩, fun _ => ⟨rfl, rfl⟩, fun _ => rfl, fun h => ?_,
    fun v h => ?_, fun v h => ?_⟩
  · cases h
  · cases h
  · cases h
  · cases h

theorem Future.cancel_eq_value {f : Future ρ ε} {v : ρ} (h : f.cancel.1 = .value v) :
    f = .value v := by
  cases f with
  | pending => cases h
  | cancelled => cases h
  | error e => cases h
  | value v' => exact h

theorem Future.settle_eq_value {f : Future ρ ε} {outcome : Outcome ρ ε} {v : ρ}
    (h : f.settle outcome = .value v) : f = .value v ∨ outcome = .value v := by
  cases f with
  | pending =>
      cases outcome with
      | value v' =>
          cases h
          exact .inr rfl
      | error e => cases h
      | cancelled => cases h
  | cancelled => cases h
  | error e => cases h
  | value v' => exact .inl h

/-- The caller moves on. -/
theorem Call.Inv.goto (h : c.Inv) {pc : Pc ρ}
    (hearly : pc.Early → c.runs = [] ∧ c.submit = .notScheduled)
    (hown : pc ≠ .awaitingOwn)
    (hresult : ∀ v, pc = .returned v → c.runs = [some (.value v)]) :
    Call.Inv { c with pc := pc } :=
  ⟨⟨h.once, hresult⟩, hearly, h.handed, fun h' => absurd h' hown, h.future, h.wrapped⟩

theorem Call.Inv.raise (h : c.Inv) : Call.Inv { c with pc := .raised } := by
  refine h.goto (fun h' => h'.elim) (fun h' => ?_) fun v h' => ?_
  · cases h'
  · cases h'

theorem Call.Inv.return (h : c.Inv) {v : ρ} (hruns : c.runs = [some (.value v)]) :
    Call.Inv { c with pc := .returned v } := by
  refine h.goto (fun h' => h'.elim) (fun h' => ?_) fun v' h' => ?_
  · cases h'
  · cases h'
    exact hruns

theorem Call.Inv.cancelFuture (h : c.Inv) : Call.Inv { c with future := c.future.cancel.1 } :=
  ⟨⟨h.once, h.result⟩, h.early, h.handed, h.own,
    fun v hv => h.future v (Future.cancel_eq_value hv), h.wrapped⟩

/-- The owner's task is the one run. -/
theorem Call.Inv.runs_of_taskDone (h : c.Inv) {outcome : Outcome ρ ε}
    (hdone : c.taskDone = some outcome) : c.runs = [some outcome] := by
  rw [Call.taskDone] at hdone
  split at hdone
  · have honce := h.once
    cases hruns : c.runs with
    | nil =>
        rw [hruns] at hdone
        cases hdone
    | cons run rest =>
        rw [hruns] at hdone honce
        cases rest with
        | nil =>
            have : run = some outcome := hdone
            rw [this]
        | cons run' rest => simp at honce
  · cases hdone

theorem Call.Inv.finish (h : c.Inv) {outcome : Outcome ρ ε} (hruns : c.runs = [some outcome]) :
    (c.finish outcome).Inv := by
  cases outcome with
  | value v => exact h.return hruns
  | error e => exact h.raise
  | cancelled => exact h.raise

theorem Call.finish_future (c : Call Loop ρ ε) (outcome : Outcome ρ ε) :
    (c.finish outcome).future = c.future := by
  cases outcome with
  | value v => rfl
  | error e => rfl
  | cancelled => rfl

theorem Call.Inv.advance [DecidableEq Loop] (h : c.Inv) (loops : Loop → LoopState) :
    (c.advance loops).Inv := by
  rw [Call.advance.eq_def]
  split
  · next hpc =>
      have hstart := h.early (by rw [hpc]; trivial)
      split
      · exact h.raise
      · refine h.goto (fun _ => hstart) (fun h' => ?_) fun v h' => ?_
        · cases h'
        · cases h'
  · next hpc =>
      have hstart := h.early (by rw [hpc]; trivial)
      split
      · -- the one run, started here
        refine ⟨⟨?_, fun v h' => ?_⟩, fun h' => h'.elim, fun h' => ?_, fun _ => ⟨hstart.2, ?_⟩,
          fun v hv => ?_, fun v hv => ?_⟩
        · rw [hstart.1]
          exact Nat.le_refl 1
        · cases h'
        · rw [hstart.2] at h'
          rcases h' with h' | h'
          · cases h'
          · cases h'
        · rw [hstart.1]
          rfl
        · have := h.future v hv
          rw [hstart.1] at this
          cases this
        · have := h.wrapped v hv
          rw [hstart.1] at this
          cases this
      · refine h.goto (fun _ => hstart) (fun h' => ?_) fun v h' => ?_
        · cases h'
        · cases h'
  · next hpc =>
      have hstart := h.early (by rw [hpc]; trivial)
      split
      · refine h.goto (fun _ => hstart) (fun h' => ?_) fun v h' => ?_
        · cases h'
        · cases h'
      · exact h.raise
  · next hpc =>
      have hstart := h.early (by rw [hpc]; trivial)
      split
      · exact h.raise.cancelFuture
      · refine ⟨⟨h.once, fun v h' => ?_⟩, fun h' => h'.elim, fun _ => hstart.1, fun h' => ?_,
          h.future, h.wrapped⟩
        · cases h'
        · cases h'
  · split
    · exact h
    · exact h.raise
    · exact h.raise
    · next v hwrapped =>
        split
        · exact h.raise
        · exact h.return (h.wrapped v hwrapped)
  · split
    · next outcome hdone =>
        have hfinish := (h.finish (h.runs_of_taskDone hdone)).cancelFuture
        rwa [Call.finish_future] at hfinish
    · refine h.goto (fun h' => h'.elim) (fun h' => ?_) fun v h' => ?_
      · cases h'
      · cases h'
  · split
    · refine h.cancelFuture.goto (fun h' => h'.elim) (fun h' => ?_) fun v h' => ?_
      · cases h'
      · cases h'
    · rw [Call.finishFuture.eq_def]
      split
      · next v hvalue => exact h.return (h.future v hvalue)
      · exact h.raise
      · exact h.raise
      · exact h
  · split
    · next outcome hdone => exact h.finish (h.runs_of_taskDone hdone)
    · exact h.raise
  · exact h
  · exact h
  · exact h
  · exact h

/-- A run that is over stays as it is. -/
theorem Call.settleRuns_of_done {outcome outcome' : Outcome ρ ε} (h : c.runs = [some outcome']) :
    (c.settleRuns outcome).runs = [some outcome'] := by
  change c.runs.map _ = _
  rw [h]
  rfl

theorem Call.Inv.settleRuns (h : c.Inv) (hpc : c.pc ≠ .awaitingOwn) (outcome : Outcome ρ ε) :
    (c.settleRuns outcome).Inv := by
  have hnil : c.runs = [] → (c.settleRuns outcome).runs = [] := by
    intro hruns
    change c.runs.map _ = _
    rw [hruns, List.map_nil]
  refine ⟨⟨?_, fun v hv => settleRuns_of_done (h.result v hv)⟩, fun h' => ?_, fun h' => ?_,
    fun h' => absurd h' hpc, fun v hv => settleRuns_of_done (h.future v hv),
    fun v hv => settleRuns_of_done (h.wrapped v hv)⟩
  · change (c.runs.map _).length ≤ 1
    rw [List.length_map]
    exact h.once
  · exact ⟨hnil (h.early h').1, (h.early h').2⟩
  · exact hnil (h.handed h')

/-- The coroutine the caller awaits itself ends, and with it the call. -/
theorem Call.Inv.ownDone (h : c.Inv) (hpc : c.pc = .awaitingOwn) (outcome : Outcome ρ ε) :
    ((c.settleRuns outcome).finish outcome).Inv := by
  have hsettled : Call.Inv (Call.settleRuns { c with pc := .raised } outcome) := by
    refine h.raise.settleRuns (fun h' => ?_) outcome
    cases h'
  have hruns : (Call.settleRuns { c with pc := .raised } outcome).runs = [some outcome] := by
    change c.runs.map _ = _
    rw [(h.own hpc).2]
    rfl
  have hfinish := hsettled.finish hruns
  cases outcome with
  | value v => exact hfinish
  | error e => exact hfinish
  | cancelled => exact hfinish

/-- The factory was handed over: the caller does not start it. -/
theorem Call.Inv.late (h : c.Inv) (hsubmit : c.submit ≠ .notScheduled) :
    ¬c.pc.Early ∧ c.pc ≠ .awaitingOwn :=
  ⟨fun hearly => hsubmit (h.early hearly).2, fun hown => hsubmit (h.own hown).1⟩

/-- The callback goes on, and nothing was started yet or nothing will be. -/
theorem Call.Inv.submit (h : c.Inv) (hsubmit : c.submit ≠ .notScheduled) {submit : Submit}
    (hnext : c.runs = [] ∨ submit = .ended) {ownerTask registered : Bool} :
    Call.Inv { c with submit := submit, ownerTask := ownerTask, registered := registered } := by
  obtain ⟨hlate, hforeign⟩ := h.late hsubmit
  refine ⟨⟨h.once, h.result⟩, fun h' => absurd h' hlate, fun h' => ?_, fun h' => absurd h' hforeign,
    h.future, h.wrapped⟩
  rcases hnext with hnone | rfl
  · exact hnone
  · rcases h' with h' | h'
    · cases h'
    · cases h'

/-- The factory is started: nothing was before. -/
theorem Call.Inv.submitStart (h : c.Inv) (hchecked : c.submit = .checked)
    {run : Option (Outcome ρ ε)} {submit : Submit} (hsubmit : submit = .created ∨ submit = .ended)
    {future : Future ρ ε} (hfuture : ∀ v, future = .value v → c.future = .value v) :
    Call.Inv { c with submit := submit, runs := c.runs ++ [run], future := future } := by
  have hnone : c.runs = [] := h.handed (.inr hchecked)
  have hno : ∀ v, c.runs ≠ [some (.value v)] := by
    intro v hv
    rw [hnone] at hv
    cases hv
  obtain ⟨hlate, hforeign⟩ := h.late (by rw [hchecked]; decide)
  refine ⟨⟨?_, fun v hv => absurd (h.result v hv) (hno v)⟩, fun h' => absurd h' hlate, fun h' => ?_,
    fun h' => absurd h' hforeign, fun v hv => absurd (h.future v (hfuture v hv)) (hno v),
    fun v hv => absurd (h.wrapped v hv) (hno v)⟩
  · rw [hnone]
    exact Nat.le_refl 1
  · rcases hsubmit with rfl | rfl
    · rcases h' with h' | h'
      · cases h'
      · cases h'
    · rcases h' with h' | h'
      · cases h'
      · cases h'

theorem Call.Inv.step [DecidableEq Loop] (h : c.Inv) (loops : Loop → LoopState)
    (event : CallEvent ρ ε) : (c.step loops event).Inv := by
  cases event with
  | advance => exact h.advance loops
  | timeout =>
      rw [Call.step]
      split
      · split
        · exact h
        · refine h.goto (fun h' => h'.elim) (fun h' => ?_) fun v h' => ?_
          · cases h'
          · cases h'
      · exact h
  | cancel =>
      rw [Call.step]
      split
      · exact ⟨⟨h.once, h.result⟩, h.early, h.handed, h.own, h.future, h.wrapped⟩
      · exact h
  | ownDone outcome =>
      rw [Call.step]
      split
      · next hpc => exact h.ownDone hpc outcome
      · exact h
  | submitCheck =>
      rw [Call.step]
      split
      · next hscheduled =>
          have hnone := h.handed (.inl hscheduled.1)
          have hsubmit : c.submit ≠ .notScheduled := by
            rw [hscheduled.1]
            decide
          split
          · exact h.submit hsubmit (.inl hnone)
          · exact h.submit hsubmit (.inl hnone)
      · exact h
  | submitStart failure =>
      rw [Call.step.eq_def]
      simp only
      split
      · next hchecked =>
          cases failure with
          | none => exact h.submitStart hchecked (.inl rfl) fun v hv => hv
          | some e =>
              refine h.submitStart hchecked (.inr rfl) fun v hv => ?_
              rcases Future.settle_eq_value hv with hf | hf
              · exact hf
              · cases hf
      · exact h
  | submitAppend =>
      rw [Call.step]
      split
      · next hcreated =>
          refine h.submit ?_ (.inr rfl)
          rw [hcreated]
          decide
      · exact h
  | taskDone outcome =>
      rw [Call.step]
      split
      · exact h
      · next hpc => exact h.settleRuns hpc outcome
  | transfer =>
      rw [Call.step]
      split
      · split
        · next outcome hdone =>
            refine ⟨⟨h.once, h.result⟩, h.early, h.handed, h.own, fun v hv => ?_, h.wrapped⟩
            rcases Future.settle_eq_value hv with hf | rfl
            · exact h.future v hf
            · exact h.runs_of_taskDone hdone
        · exact h
      · exact h
  | chain =>
      rw [Call.step]
      split
      · exact ⟨⟨h.once, h.result⟩, h.early, h.handed, h.own, h.future, h.future⟩
      · exact h

theorem State.inv_step [DecidableEq ι] [DecidableEq Loop] {s : State ι Loop ρ ε}
    (h : ∀ i, (s.calls i).Inv) (event : Event ι Loop ρ ε) : ∀ i, ((s.step event).calls i).Inv := by
  have hupdate : ∀ i call, Call.Inv call → ∀ j, (update s.calls i call j).Inv := by
    intro i call hcall j
    by_cases hij : j = i
    · rw [hij, update_self]
      exact hcall
    · rw [update_of_ne hij]
      exact h j
  cases event with
  | loop l state => exact h
  | bind i =>
      rw [State.step]
      split
      · next hpc =>
          refine hupdate i _ ?_
          have hstart := (h i).early (by rw [hpc]; trivial)
          refine ⟨⟨(h i).once, fun v h' => ?_⟩, fun _ => hstart, (h i).handed, fun h' => ?_,
            (h i).future, (h i).wrapped⟩
          · cases h'
          · cases h'
      · exact h
  | call i event => exact hupdate i _ ((h i).step s.loops event)

/-- The second call comes from a loop that is not the owner, and gets the result of its run. -/
example :
    let events : List (Event Nat Nat Nat Unit) :=
      [.bind 0, .bind 1, .call 1 .advance, .call 1 .advance, .call 1 .advance, .call 1 .advance,
        .call 1 .submitCheck, .call 1 (.submitStart none), .call 1 .submitAppend,
        .call 1 (.taskDone (.value 7)), .call 1 .transfer, .call 1 .chain, .call 1 .advance]
    ((events.foldl State.step (State.init (fun _ => ⟨true, false⟩) id)).calls 1).pc = .returned 7 :=
  rfl

end Dispatcher

/-- The three primitives, over every run: events of a run that cannot happen in a state leave it
as it is. -/
theorem primitives_sound {τ κ ι Loop : Type} [DecidableEq τ] [DecidableEq κ] [DecidableEq ι]
    [DecidableEq Loop] :
    (∀ events : List (PoolEvent τ κ), Along Pool.step Pool.Safe Pool.init events) ∧
      (∀ (counts : Bool) (events : List (Completion.Event ρ ε)),
        Along Completion.Call.step Completion.Call.Safe (Completion.Call.init counts) events) ∧
      ∀ (loops : Loop → Dispatcher.LoopState) (here : ι → Loop)
        (events : List (Dispatcher.Event ι Loop ρ ε)),
        Along Dispatcher.State.step Dispatcher.State.Safe (Dispatcher.State.init loops here)
          events := by
  refine ⟨Pool.pool_safe, fun counts events => ?_, fun loops here events => ?_⟩
  · exact along_of_invariant (fun _ event h => h.step event) (fun _ h => h.toSafe)
      (Completion.Call.inv_init counts) events
  · refine along_of_invariant (I := fun s => ∀ i, (s.calls i).Inv)
      (fun _ event h => Dispatcher.State.inv_step h event) (fun _ h i => (h i).toSafe)
      (fun i => ?_) events
    exact Dispatcher.Call.inv_new (here i)

end OpenViking.Tracker
