/-
# `OpenViking.Watch.Task` — watch tasks and the registry that holds them

`WatchTask` and the two dictionaries of `WatchManager` (`resource/watch_manager.py`), and the
loop of `_load_tasks` that builds them from the stored list.

An interval is a Python float, so it may be no number; times are of any type, with `later`
for `base + timedelta(minutes=interval)`, which raises where the sum is no date.  The objects
that are only stored and handed on (`processor_kwargs`, `auth_state`, `connector_states`) are
of any type as well.

    `restore_restore`    what was loaded once is loaded again as it is
-/
import OpenViking.Lib.Dict
import OpenViking.Lib.Text
import Mathlib.Algebra.Order.Field.Rat

namespace OpenViking.Watch

open OpenViking.Lib

/-- A float of minutes -/
inductive Interval
  | nan
  | negInf
  | minutes (q : ℚ)
  | posInf
  deriving DecidableEq

namespace Interval

/-- `interval <= 0` -/
def isNonPos : Interval → Bool
  | nan => false
  | negInf => true
  | minutes q => q ≤ 0
  | posInf => false

end Interval

inductive ProcessingMode
  | semanticAndVectors
  | vectorsOnly
  deriving DecidableEq

structure WatchTask (Time Obj : Type) where
  taskId : Str
  path : Str
  sourceType : Option Str
  toUri : Option Str
  toIsDirectory : Option Bool
  parentUri : Option Str
  reason : Str
  instruction : Str
  watchInterval : Interval
  buildIndex : Bool
  summarize : Bool
  processingMode : ProcessingMode
  processorKwargs : Obj
  authState : Option Obj
  connectorStates : Option Obj
  createdAt : Time
  lastExecutionTime : Option Time
  lastTaskId : Option Str
  lastStatus : Option Str
  lastError : Option Str
  nextExecutionTime : Option Time
  isActive : Bool
  accountId : Str
  userId : Str
  originalRole : Str
  deriving DecidableEq

variable {Time Obj : Type} (later : Time → Interval → Option Time)

namespace WatchTask

/-- `none` where the sum raises -/
def calculateNextExecutionTime (task : WatchTask Time Obj) : Option Time :=
  later (task.lastExecutionTime.getD task.createdAt) task.watchInterval

/-- What loading makes of a stored task, and whether it changed it; `none` where it raises, in
which case the task is skipped. -/
def normalize (task : WatchTask Time Obj) : Option (WatchTask Time Obj × Bool) :=
  if task.isActive = false then
    if task.nextExecutionTime.isSome then some ({ task with nextExecutionTime := none }, true)
    else some (task, false)
  else if task.watchInterval.isNonPos then
    some ({ task with isActive := false, nextExecutionTime := none }, true)
  else if task.nextExecutionTime.isNone then
    (task.calculateNextExecutionTime later).map fun next =>
      ({ task with nextExecutionTime := some next }, true)
  else some (task, false)

variable {later}

/-- A loaded task is left as it is when it is loaded again. -/
theorem normalize_normalize {task task' : WatchTask Time Obj} {changed : Bool}
    (h : task.normalize later = some (task', changed)) :
    task'.normalize later = some (task', false) := by
  simp only [normalize] at h
  split at h
  · next hactive =>
      split at h
      · cases h
        simp [normalize, hactive]
      · next hnext =>
          cases h
          simp only [normalize, if_pos hactive, if_neg hnext]
  · next hactive =>
      split at h
      · cases h
        simp [normalize]
      · next hpos =>
          split at h
          · obtain ⟨next, -, heq⟩ := Option.map_eq_some_iff.mp h
            cases heq
            simp [normalize, hactive, hpos]
          · next hnext =>
              cases h
              simp only [normalize, if_neg hactive, if_neg hpos, if_neg hnext]

end WatchTask

/-! ## The registry -/

/-- The dictionaries `_tasks` and `_uri_to_task` -/
structure Registry (Time Obj : Type) where
  tasks : Dict Str (WatchTask Time Obj)
  uriToTask : Dict (Str × Str) Str

namespace Registry

def empty : Registry Time Obj := ⟨Dict.empty, Dict.empty⟩

/-- `self._uri_to_task[(account_id, to_uri)] = task_id`, if there is a target -/
def setUri (r : Registry Time Obj) (accountId : Str) (toUri : Option Str) (taskId : Str) :
    Registry Time Obj :=
  match toUri with
  | none => r
  | some uri =>
      if uri = [] then r else { r with uriToTask := r.uriToTask.set (accountId, uri) taskId }

/-- One turn of the loop of `_load_tasks`, with the flag `normalized` -/
def loadTask (acc : Registry Time Obj × Bool) (stored : WatchTask Time Obj) :
    Registry Time Obj × Bool :=
  match stored.normalize later with
  | none => acc
  | some (task, changed) =>
      let r : Registry Time Obj := { acc.1 with tasks := acc.1.tasks.set task.taskId task }
      (r.setUri task.accountId task.toUri task.taskId, acc.2 || changed)

def load (stored : List (WatchTask Time Obj)) : Registry Time Obj × Bool :=
  stored.foldl (loadTask later) (empty, false)

end Registry

/-- The task list a stored list is loaded as -/
def restore (stored : List (WatchTask Time Obj)) : List (WatchTask Time Obj) :=
  (Registry.load later stored).1.tasks.values

variable {later}

theorem tasks_setUri (r : Registry Time Obj) (accountId : Str) (toUri : Option Str) (taskId : Str) :
    (r.setUri accountId toUri taskId).tasks = r.tasks := by
  cases toUri with
  | none => rfl
  | some uri =>
      rw [Registry.setUri]
      split
      · rfl
      · rfl

theorem tasks_load (stored : List (WatchTask Time Obj)) (acc : Registry Time Obj × Bool) :
    (stored.foldl (Registry.loadTask later) acc).1.tasks =
      acc.1.tasks.upserts WatchTask.taskId (fun task _ => task)
        (stored.filterMap fun task => (task.normalize later).map Prod.fst) := by
  induction stored generalizing acc with
  | nil => rfl
  | cons task stored ih =>
      rw [List.foldl_cons, ih, Registry.loadTask]
      cases hnormal : task.normalize later with
      | none =>
          rw [List.filterMap_cons_none (by rw [hnormal]; rfl)]
      | some result =>
          rw [List.filterMap_cons_some (by rw [hnormal]; rfl)]
          simp only [tasks_setUri]
          rfl

/-- Tasks with different ids are loaded in their order. -/
theorem restore_of_normal {tasks : List (WatchTask Time Obj)}
    (hnormal : ∀ task ∈ tasks, task.normalize later = some (task, false))
    (hnodup : (tasks.map WatchTask.taskId).Nodup) : restore later tasks = tasks := by
  have hsame : tasks.filterMap (fun task => (task.normalize later).map Prod.fst) = tasks := by
    rw [List.filterMap_congr fun task htask => by rw [hnormal task htask]]
    exact List.filterMap_some
  rw [restore, Registry.load, tasks_load, hsame, Dict.values,
    Dict.items_upserts_of_new _ _ hnodup fun task _ h => List.not_mem_nil h, List.map_append,
    List.map_map]
  exact List.map_id _

/-- Every task of a dictionary that a loop of updates built is one of the list, under its id. -/
theorem get_upserts_taskId {tasks : List (WatchTask Time Obj)} {id : Str}
    {task : WatchTask Time Obj}
    (h : ((Dict.empty : Dict Str (WatchTask Time Obj)).upserts WatchTask.taskId
      (fun task _ => task) tasks).get id = some task) : task ∈ tasks ∧ task.taskId = id := by
  rw [Dict.get_upserts, List.foldl_eq_foldr_reverse] at h
  cases hrev : (tasks.filter (·.taskId = id)).reverse with
  | nil =>
      rw [hrev] at h
      cases h
  | cons last rest =>
      rw [hrev, List.foldr_cons, Option.some.injEq] at h
      have hmem : last ∈ tasks.filter (·.taskId = id) := by
        rw [← List.mem_reverse, hrev]
        exact List.mem_cons_self
      rw [h, List.mem_filter, decide_eq_true_eq] at hmem
      exact hmem

theorem restore_restore (stored : List (WatchTask Time Obj)) :
    restore later (restore later stored) = restore later stored := by
  have htasks : (Registry.load later stored).1.tasks = _ :=
    tasks_load stored (Registry.empty, false)
  refine restore_of_normal (fun task htask => ?_) ?_
  · obtain ⟨id, hget⟩ := Dict.mem_values.mp htask
    rw [htasks] at hget
    obtain ⟨stored', -, hnormal⟩ := List.mem_filterMap.mp (get_upserts_taskId hget).1
    obtain ⟨⟨task', changed⟩, hnormal, heq⟩ := Option.map_eq_some_iff.mp hnormal
    rw [← heq]
    exact WatchTask.normalize_normalize hnormal
  · have hkeys : (restore later stored).map WatchTask.taskId =
        (Registry.load later stored).1.tasks.keys := by
      rw [restore, Dict.values, Dict.keys, List.map_map]
      refine List.map_congr_left fun item hitem => ?_
      have hget := Dict.get_eq_some.mpr hitem
      rw [htasks] at hget
      exact (get_upserts_taskId hget).2
    rw [hkeys]
    exact (Registry.load later stored).1.tasks.nodup

end OpenViking.Watch
