/-
# `OpenViking.Watch.Scheduler` — one execution of a watch task at a time

`WatchScheduler` (`resource/watch_scheduler.py`) marks a task before it runs it, in
`_executing_tasks`, and runs at most `max_concurrency` tasks at once, by a semaphore.  Due tasks
are marked one by one and started together; `schedule_task` marks and runs one task;
`hold_execution` marks a task whose first round is run by an import.

Each of these is a `Run`, and the state is all runs so far, so a schedule is any sequence of
their steps.  A run that holds its mark is the only one of its task that does (`Tidy`).

    `recordUnheld`   `record_watch_execution` takes the mark away without asking whose it is; the
                     message of an import that is handled again after a restart has no hold
    `lost`           the loop over the due tasks is cancelled while it waits for the lock, or an
                     execution before its first step: what is marked by then never enters the
                     `try` that gives the mark back
-/
import OpenViking.Lib.History
import OpenViking.Lib.Text
import Mathlib.Data.List.Perm.Basic

namespace OpenViking.Watch

open OpenViking.Lib

namespace Scheduler

inductive Phase
  /-- in `tasks_to_run`, or its execution has been created and has not begun -/
  | marked
  | waiting
  | executing
  /-- in the `finally` that discards the mark -/
  | leaving
  | holding
  | lost
  | done
  deriving DecidableEq

structure Run where
  taskId : Str
  phase : Phase
  deriving DecidableEq

structure State where
  maxConcurrency : ℕ
  /-- `_executing_tasks` -/
  executing : List Str
  /-- The free places of the semaphore -/
  permits : ℕ
  runs : List Run

inductive Event
  | markDue (taskId : Str)
  | scheduleTask (taskId : Str)
  | holdExecution (taskId : Str)
  /-- The first step of `run_one(...)` -/
  | spawn (i : ℕ)
  | enter (i : ℕ)
  /-- The execution returns, fails or is cancelled. -/
  | finish (i : ℕ)
  | cancel (i : ℕ)
  | discard (i : ℕ)
  | releaseExecution (i : ℕ)
  | recordUnheld (taskId : Str)

/-- `_try_mark_executing`, and the run that follows -/
def tryMark (s : State) (taskId : Str) (phase : Phase) : State :=
  if taskId ∈ s.executing then s
  else { s with executing := taskId :: s.executing, runs := s.runs ++ [⟨taskId, phase⟩] }

/-- `_discard_executing` -/
def discardExecuting (s : State) (taskId : Str) : State :=
  { s with executing := s.executing.erase taskId }

def setPhase (s : State) (i : ℕ) (r : Run) (phase : Phase) : State :=
  { s with runs := s.runs.set i { r with phase := phase } }

/-- A step of a run, if it is in the phase for it -/
def stepRun (s : State) (i : ℕ) (r : Run) : Event → State
  | .spawn _ => if r.phase = .marked then setPhase s i r .waiting else s
  | .enter _ =>
      if r.phase = .waiting ∧ 0 < s.permits then
        setPhase { s with permits := s.permits - 1 } i r .executing
      else s
  | .finish _ =>
      if r.phase = .executing then setPhase { s with permits := s.permits + 1 } i r .leaving else s
  | .cancel _ =>
      match r.phase with
      | .marked => setPhase s i r .lost
      | .waiting => setPhase s i r .leaving
      | _ => s
  | .discard _ =>
      if r.phase = .leaving then setPhase (discardExecuting s r.taskId) i r .done else s
  | .releaseExecution _ =>
      if r.phase = .holding then setPhase (discardExecuting s r.taskId) i r .done else s
  | _ => s

def step (s : State) (e : Event) : State :=
  match e with
  | .markDue taskId => tryMark s taskId .marked
  | .scheduleTask taskId => tryMark s taskId .waiting
  | .holdExecution taskId => tryMark s taskId .holding
  | .recordUnheld taskId => discardExecuting s taskId
  | .spawn i | .enter i | .finish i | .cancel i | .discard i | .releaseExecution i =>
      match s.runs[i]? with
      | none => s
      | some r => stepRun s i r e

def start (maxConcurrency : ℕ) : State := ⟨maxConcurrency, [], maxConcurrency, []⟩

/-! ## Marks and their runs -/

/-- The mark that a run holds -/
def Run.mark (r : Run) : Option Str := if r.phase = .done then none else some r.taskId

def Run.inside (r : Run) : Bool := r.phase = .executing

def marks (s : State) : List Str := s.runs.filterMap Run.mark

def inside (s : State) : ℕ := s.runs.countP Run.inside

/-- The marks are those of the runs, one for each; a place of the semaphore is free or taken. -/
structure Tidy (s : State) : Prop where
  perm : s.executing.Perm (marks s)
  nodup : (marks s).Nodup
  places : s.permits + inside s = s.maxConcurrency

/-- What is in the runs before and after the one that takes a step -/
theorem exists_split {runs : List Run} {i : ℕ} {r : Run} (h : runs[i]? = some r) :
    ∃ a b, runs = a ++ r :: b ∧ ∀ r', runs.set i r' = a ++ r' :: b := by
  obtain ⟨hi, rfl⟩ := List.getElem?_eq_some_iff.mp h
  refine ⟨runs.take i, runs.drop (i + 1), by simp, ?_⟩
  intro r'
  rw [List.set_eq_take_append_cons_drop, if_pos hi]

variable {s : State} {i : ℕ} {r : Run}

theorem tidy_tryMark (h : Tidy s) (taskId : Str) {phase : Phase} (hdone : phase ≠ .done)
    (hout : phase ≠ .executing) : Tidy (tryMark s taskId phase) := by
  unfold tryMark
  split
  · exact h
  next hnew =>
  have hmarks : marks { s with
      executing := taskId :: s.executing, runs := s.runs ++ [⟨taskId, phase⟩] } =
      marks s ++ [taskId] := by
    simp [marks, Run.mark, hdone]
  refine ⟨?_, ?_, ?_⟩
  · rw [hmarks]
    exact (h.perm.cons taskId).trans (List.perm_append_singleton taskId (marks s)).symm
  · rw [hmarks, List.nodup_append]
    refine ⟨h.nodup, by simp, ?_⟩
    intro id hid id' hid' heq
    rw [List.mem_singleton.mp hid'] at heq
    exact hnew (h.perm.mem_iff.mpr (heq ▸ hid))
  · have hplaces := h.places
    simpa [inside, Run.inside, hout] using hplaces

/-- A step in which the run keeps its mark -/
theorem tidy_move (h : Tidy s) (hr : s.runs[i]? = some r) {phase : Phase} {permits : ℕ}
    (hold : r.phase ≠ .done) (hnew : phase ≠ .done)
    (hplaces : permits + (if phase = .executing then 1 else 0) =
      s.permits + (if r.phase = .executing then 1 else 0)) :
    Tidy (setPhase { s with permits := permits } i r phase) := by
  obtain ⟨a, b, hsplit, hset⟩ := exists_split hr
  have hruns : (setPhase { s with permits := permits } i r phase).runs = _ := hset ⟨r.taskId, phase⟩
  have hmarks : marks (setPhase { s with permits := permits } i r phase) = marks s := by
    rw [marks, hruns, marks, hsplit]
    simp [Run.mark, hold, hnew]
  have hcount := h.places
  rw [inside, hsplit] at hcount
  refine ⟨?_, hmarks ▸ h.nodup, ?_⟩
  · rw [hmarks]
    exact h.perm
  · change permits + inside _ = s.maxConcurrency
    rw [inside, hruns]
    simp only [List.countP_append, List.countP_cons, Run.inside, decide_eq_true_eq] at hcount ⊢
    omega

/-- A step in which the run gives its mark back -/
theorem tidy_leave (h : Tidy s) (hr : s.runs[i]? = some r) (hold : r.phase ≠ .done)
    (hout : r.phase ≠ .executing) : Tidy (setPhase (discardExecuting s r.taskId) i r .done) := by
  obtain ⟨a, b, hsplit, hset⟩ := exists_split hr
  have hruns : (setPhase (discardExecuting s r.taskId) i r .done).runs = _ := hset ⟨r.taskId, .done⟩
  have hbefore : marks s = a.filterMap Run.mark ++ r.taskId :: b.filterMap Run.mark := by
    rw [marks, hsplit]
    simp [Run.mark, hold]
  have hafter : marks (setPhase (discardExecuting s r.taskId) i r .done) =
      a.filterMap Run.mark ++ b.filterMap Run.mark := by
    rw [marks, hruns]
    simp [Run.mark]
  have hperm : (marks s).Perm (r.taskId :: (a.filterMap Run.mark ++ b.filterMap Run.mark)) := by
    rw [hbefore]
    exact List.perm_middle
  refine ⟨?_, ?_, ?_⟩
  · rw [hafter]
    have herase := (h.perm.trans hperm).erase r.taskId
    rwa [List.erase_cons_head] at herase
  · rw [hafter]
    exact (List.nodup_cons.mp (hperm.nodup_iff.mp h.nodup)).2
  · have hcount := h.places
    change s.permits + inside _ = s.maxConcurrency
    rw [inside, hsplit] at hcount
    rw [inside, hruns]
    simpa [List.countP_append, List.countP_cons, Run.inside, hout] using hcount

/-- A step by the run that holds the mark -/
def Event.paired : Event → Bool
  | .recordUnheld _ => false
  | _ => true

theorem tidy_stepRun (h : Tidy s) (hr : s.runs[i]? = some r) (e : Event) :
    Tidy (stepRun s i r e) := by
  cases e with
  | spawn _ =>
      simp only [stepRun]
      split
      · next hphase => exact tidy_move h hr (by simp [hphase]) (by simp) (by simp [hphase])
      · exact h
  | enter _ =>
      simp only [stepRun]
      split
      · next hphase =>
          exact tidy_move h hr (by simp [hphase.1]) (by simp)
            (by have := hphase.2; simp only [hphase.1, if_pos]; simp; omega)
      · exact h
  | finish _ =>
      simp only [stepRun]
      split
      · next hphase => exact tidy_move h hr (by simp [hphase]) (by simp) (by simp [hphase])
      · exact h
  | cancel _ =>
      simp only [stepRun]
      split
      · next hphase => exact tidy_move h hr (by simp [hphase]) (by simp) (by simp [hphase])
      · next hphase => exact tidy_move h hr (by simp [hphase]) (by simp) (by simp [hphase])
      · exact h
  | discard _ =>
      simp only [stepRun]
      split
      · next hphase => exact tidy_leave h hr (by simp [hphase]) (by simp [hphase])
      · exact h
  | releaseExecution _ =>
      simp only [stepRun]
      split
      · next hphase => exact tidy_leave h hr (by simp [hphase]) (by simp [hphase])
      · exact h
  | markDue _ | scheduleTask _ | holdExecution _ | recordUnheld _ => exact h

theorem tidy_step (h : Tidy s) (e : Event) (he : e.paired = true) : Tidy (step s e) := by
  cases e with
  | markDue taskId => exact tidy_tryMark h taskId (by simp) (by simp)
  | scheduleTask taskId => exact tidy_tryMark h taskId (by simp) (by simp)
  | holdExecution taskId => exact tidy_tryMark h taskId (by simp) (by simp)
  | recordUnheld taskId => cases he
  | spawn i | enter i | finish i | cancel i | discard i | releaseExecution i =>
      simp only [step]
      split
      · exact h
      · next r hr => exact tidy_stepRun h hr _

theorem tidy_start (n : ℕ) : Tidy (start n) := ⟨.nil, .nil, rfl⟩

/-! ## Every schedule -/

/-- No task runs twice at a time, no more tasks run than may, and a task is marked exactly if a run
of it is under way or its mark was lost. -/
structure Exclusive (s : State) : Prop where
  once : s.runs.Pairwise fun r r' => r.phase ≠ .done → r'.phase ≠ .done → r.taskId ≠ r'.taskId
  bounded : inside s ≤ s.maxConcurrency
  marked : ∀ id, id ∈ s.executing ↔ ∃ r ∈ s.runs, r.phase ≠ .done ∧ r.taskId = id

theorem Tidy.exclusive (h : Tidy s) : Exclusive s where
  once := by
    have hpair := List.pairwise_filterMap.mp h.nodup
    refine hpair.imp fun {r r'} hne hr hr' heq => ?_
    exact hne r.taskId (if_neg hr) r'.taskId (if_neg hr') heq
  bounded := by
    have hplaces := h.places
    omega
  marked := by
    intro id
    rw [h.perm.mem_iff, marks, List.mem_filterMap]
    refine exists_congr fun r => and_congr_right fun _ => ?_
    unfold Run.mark
    split
    · next hdone => simp [hdone]
    · next hdone => simp [hdone]

/-- In every schedule in which only the holder of a mark takes it away -/
theorem scheduler_exclusive (n : ℕ) (events : List Event)
    (h : Guarded step (fun _ e => e.paired = true) (start n) events) :
    Along step Exclusive (start n) events := by
  refine along_of_guarded (I := Tidy) ?_ (fun s hs => hs.exclusive) (tidy_start n) h
  intro s e hs he
  exact tidy_step hs e he

/-- A due task that is held by an import, and another one -/
def sampleEvents : List Event :=
  [.holdExecution ['a'], .markDue ['a'], .markDue ['b'], .spawn 1, .enter 1, .releaseExecution 0]

theorem scheduler_exclusive_sample :
    Guarded step (fun _ e => e.paired = true) (start 1) sampleEvents ∧
      Along step Exclusive (start 1) sampleEvents := by
  have h : Guarded step (fun _ e => e.paired = true) (start 1) sampleEvents := by
    simp [sampleEvents, Guarded, Event.paired]
  exact ⟨h, scheduler_exclusive 1 sampleEvents h⟩

/-! ## A lost mark -/

theorem lost_step {id : Str} (h : s.runs[i]? = some ⟨id, .lost⟩) (e : Event) :
    (step s e).runs[i]? = some ⟨id, .lost⟩ := by
  have hmark : ∀ taskId phase, (tryMark s taskId phase).runs[i]? = some ⟨id, .lost⟩ := by
    intro taskId phase
    unfold tryMark
    split
    · exact h
    · exact (List.getElem?_append_left (List.getElem?_eq_some_iff.mp h).1).trans h
  have hrun : ∀ j r, s.runs[j]? = some r → ∀ e, (stepRun s j r e).runs[i]? = some ⟨id, .lost⟩ := by
    intro j r hr e
    by_cases hj : j = i
    · subst hj
      obtain rfl : r = ⟨id, .lost⟩ := Option.some.inj (hr.symm.trans h)
      cases e <;> simpa [stepRun] using h
    · have hset : ∀ s' : State, s'.runs = s.runs → ∀ phase,
          (setPhase s' j r phase).runs[i]? = some ⟨id, .lost⟩ := by
        intro s' hs' phase
        rw [setPhase, hs', List.getElem?_set_ne hj]
        exact h
      cases e <;> simp only [stepRun] <;> try split
      all_goals first
        | exact h
        | exact hset _ rfl _
  cases e with
  | markDue taskId => exact hmark taskId _
  | scheduleTask taskId => exact hmark taskId _
  | holdExecution taskId => exact hmark taskId _
  | recordUnheld taskId => exact h
  | spawn j | enter j | finish j | cancel j | discard j | releaseExecution j =>
      simp only [step]
      split
      · exact h
      · next r hr => exact hrun j r hr _

/-- A task with a lost mark is not executed again, whatever is scheduled. -/
theorem lost_never_runs {id : Str} (hs : Tidy s) (hlost : s.runs[i]? = some ⟨id, .lost⟩)
    (events : List Event) (h : Guarded step (fun _ e => e.paired = true) s events) :
    Along step (fun s => id ∈ s.executing ∧ ∀ r ∈ s.runs, r.taskId = id → r.phase ≠ .executing)
      s events := by
  refine along_of_guarded (I := fun s => Tidy s ∧ s.runs[i]? = some ⟨id, .lost⟩) ?_ ?_ ⟨hs, hlost⟩ h
  · intro s e hs he
    exact ⟨tidy_step hs.1 e he, lost_step hs.2 e⟩
  · rintro s ⟨htidy, hlost⟩
    refine ⟨(htidy.exclusive.marked id).mpr
      ⟨_, List.mem_of_getElem? hlost, by simp, rfl⟩, ?_⟩
    intro r hr hid hphase
    -- two runs of the task under way, at different places
    obtain ⟨a, b, hsplit, -⟩ := exists_split hlost
    have honce := htidy.exclusive.once
    rw [hsplit, List.pairwise_append, List.pairwise_cons] at honce
    rw [hsplit, List.mem_append, List.mem_cons] at hr
    rcases hr with hr | rfl | hr
    · exact honce.2.2 r hr _ List.mem_cons_self (by simp [hphase]) (by simp) hid
    · cases hphase
    · exact honce.2.1.1 r hr (by simp) (by simp [hphase]) hid.symm

/-- The scheduler is stopped while it marks the due tasks, and started again. -/
theorem lost_never_runs_sample :
    Along step
      (fun s => ['a'] ∈ s.executing ∧ ∀ r ∈ s.runs, r.taskId = ['a'] → r.phase ≠ .executing)
      (step (step (start 1) (.markDue ['a'])) (.cancel 0)) [.markDue ['a'], .spawn 0, .enter 0] :=
  lost_never_runs (i := 0) (tidy_step (tidy_step (tidy_start 1) _ rfl) _ rfl) rfl _
    ⟨rfl, rfl, rfl, trivial⟩

end Scheduler

end OpenViking.Watch
