/-
# `OpenViking.Watch.Storage` — the three files of the watch tasks

`_save_tasks` writes a temporary file, removes the backup, moves the main file to the backup
and the temporary file to the main file; a move refuses a target that is there
(`_ensure_transfer_target_missing`).  `_load_tasks` reads the main file, or else the backup,
and what it recovered from the backup it saves at once.

A save may be cut by a crash after any step, and any step may fail; a read may fail for a
while.  What a later load may give is the list of the last save that returned, or of one that
was attempted after it; the saves a load makes on its own do not count, they only rewrite
what was loaded.  Two things break this: a save that starts without a main file removes the
only copy before it puts the new one in place, and a load that cannot read the main file
takes the backup, which may be older, and saves it over the main file.
-/
import OpenViking.Lib.History
import OpenViking.Watch.Task

namespace OpenViking.Watch

open OpenViking.Lib

structure Disk (L : Type) where
  main : Option L
  bak : Option L
  tmp : Option L

inductive SaveStep
  | write
  | remove
  | rotate
  | move
  deriving DecidableEq

/-- What happens to a save: the steps that fail, and the step after which the process dies -/
structure Fate where
  fails : SaveStep → Bool
  crash : Option SaveStep

inductive Outcome
  | returned
  | raised
  | crashed
  deriving DecidableEq

section Saving

variable {L : Type}

/-- `mv` of a file: the source has to be there, and nothing at the target. -/
def moveFile : Option L → Option L → Option (Option L × Option L)
  | some l, none => some (none, some l)
  | some _, some _ => none
  | none, _ => none

namespace Disk

variable (fate : Fate) (d : Disk L)

/-- The backup is removed if it exists; a failure is passed over. -/
def removeBackup : Disk L := if fate.fails .remove then d else { d with bak := none }

/-- The main file is moved if it exists; a failure is passed over. -/
def rotate : Disk L :=
  if fate.fails .rotate then d
  else
    match moveFile d.main d.bak with
    | none => d
    | some (main, bak) => { d with main := main, bak := bak }

def moveTmp : Option (Disk L) :=
  if fate.fails .move then none
  else (moveFile d.tmp d.main).map fun moved => { d with tmp := moved.1, main := moved.2 }

end Disk

/-- The outcome of a save that ends with this step, unless the process dies after it -/
def Fate.ends (fate : Fate) (step : SaveStep) (outcome : Outcome) : Outcome :=
  if fate.crash = some step then .crashed else outcome

def saveTasks (fate : Fate) (tasks : L) (d : Disk L) : Outcome × Disk L :=
  if fate.fails .write then (fate.ends .write .raised, d)
  else
    let d := { d with tmp := some tasks }
    if fate.crash = some .write then (.crashed, d)
    else
      let d := d.removeBackup fate
      if fate.crash = some .remove then (.crashed, d)
      else
        let d := d.rotate fate
        if fate.crash = some .rotate then (.crashed, d)
        else
          match d.moveTmp fate with
          | none => (fate.ends .move .raised, d)
          | some d => (fate.ends .move .returned, d)

namespace Fate

variable (fate : Fate)

/-- The save gets beyond the temporary file. -/
def starts : Bool := !fate.fails .write && fate.crash ≠ some .write

/-- The save gets as far as removing the backup. -/
def removes : Bool := fate.starts && !fate.fails .remove

/-- The save gets as far as the last move, which does not fail on its own. -/
def arrives : Bool :=
  fate.starts && fate.crash ≠ some .remove && fate.crash ≠ some .rotate && !fate.fails .move

/-- The backup is removed, and the last move does not come. -/
def drops : Bool := fate.removes && !fate.arrives

/-- With a main file and a backup: every step is done. -/
def swaps : Bool := fate.removes && !fate.fails .rotate && fate.arrives

end Fate

/-! ## What a save leaves -/

section

variable {fate : Fate} {d : Disk L}

theorem removeBackup_main : (d.removeBackup fate).main = d.main := by
  rw [Disk.removeBackup]
  split
  · rfl
  · rfl

theorem removeBackup_tmp : (d.removeBackup fate).tmp = d.tmp := by
  rw [Disk.removeBackup]
  split
  · rfl
  · rfl

theorem removeBackup_bak :
    (d.removeBackup fate).bak = if fate.fails .remove then d.bak else none := by
  rw [Disk.removeBackup]
  split
  · rfl
  · rfl

theorem rotate_tmp : (d.rotate fate).tmp = d.tmp := by
  rw [Disk.rotate]
  split
  · rfl
  · split
    · rfl
    · rfl

theorem rotate_of_main_none (hmain : d.main = none) : d.rotate fate = d := by
  rw [Disk.rotate, hmain]
  split
  · rfl
  · rfl

variable (fate) in
/-- The main file is still there, or it is the backup now. -/
theorem rotate_of_main_some {l : L} (hmain : d.main = some l) :
    ((d.rotate fate).main = some l ∧ (fate.fails .rotate = true ∨ d.bak ≠ none)) ∨
      ((d.rotate fate).main = none ∧ (d.rotate fate).bak = some l ∧
        fate.fails .rotate = false ∧ d.bak = none) := by
  rw [Disk.rotate, hmain]
  cases hfails : fate.fails .rotate with
  | true => exact .inl ⟨hmain, .inl rfl⟩
  | false =>
      cases hbak : d.bak with
      | none => exact .inr ⟨rfl, rfl, rfl, rfl⟩
      | some b => exact .inl ⟨hmain, .inr (Option.some_ne_none b)⟩

theorem moveTmp_of_main_some {l : L} (hmain : d.main = some l) : d.moveTmp fate = none := by
  rw [Disk.moveTmp, hmain]
  split
  · rfl
  · cases d.tmp with
    | none => rfl
    | some t => rfl

theorem moveTmp_of_main_none {l : L} (hmain : d.main = none) (htmp : d.tmp = some l) :
    d.moveTmp fate =
      if fate.fails .move then none else some { d with tmp := none, main := some l } := by
  rw [Disk.moveTmp, hmain, htmp]
  split
  · rfl
  · rfl

end

theorem ends_ne_returned (fate : Fate) (step : SaveStep) : fate.ends step .raised ≠ .returned := by
  rw [Fate.ends]
  split
  · exact Outcome.noConfusion
  · exact Outcome.noConfusion

/-- The disk after the backup was removed -/
def removed (fate : Fate) (tasks : L) (d : Disk L) : Disk L :=
  ({ d with tmp := some tasks } : Disk L).removeBackup fate

/-- How far a save gets, and what it leaves there -/
theorem saveTasks_cases (fate : Fate) (tasks : L) (d : Disk L) :
    (fate.starts = false ∧ (saveTasks fate tasks d).1 ≠ .returned ∧
        (saveTasks fate tasks d).2.main = d.main ∧ (saveTasks fate tasks d).2.bak = d.bak) ∨
      (fate.starts = true ∧ fate.arrives = false ∧ (saveTasks fate tasks d).1 ≠ .returned ∧
        ((saveTasks fate tasks d).2 = removed fate tasks d ∨
          (saveTasks fate tasks d).2 = (removed fate tasks d).rotate fate)) ∨
      (fate.arrives = true ∧
        (((removed fate tasks d).rotate fate).moveTmp fate = some (saveTasks fate tasks d).2 ∨
          ((removed fate tasks d).rotate fate).moveTmp fate = none ∧
            (saveTasks fate tasks d).1 ≠ .returned ∧
            (saveTasks fate tasks d).2 = (removed fate tasks d).rotate fate)) := by
  by_cases hwrite : fate.fails .write = true
  · have hsave : saveTasks fate tasks d = (fate.ends .write .raised, d) := by
      rw [saveTasks, if_pos hwrite]
    rw [hsave]
    exact .inl ⟨by simp [Fate.starts, hwrite], ends_ne_returned fate .write, rfl, rfl⟩
  by_cases hcrash : fate.crash = some .write
  · have hsave : saveTasks fate tasks d = (.crashed, { d with tmp := some tasks }) := by
      rw [saveTasks, if_neg hwrite, if_pos hcrash]
    rw [hsave]
    exact .inl ⟨by simp [Fate.starts, hcrash], Outcome.noConfusion, rfl, rfl⟩
  have hstarts : fate.starts = true := by simp [Fate.starts, hwrite, hcrash]
  by_cases hremove : fate.crash = some .remove
  · have hsave : saveTasks fate tasks d = (.crashed, removed fate tasks d) := by
      rw [saveTasks, if_neg hwrite, if_neg hcrash, if_pos hremove]
      rfl
    rw [hsave]
    exact .inr (.inl ⟨hstarts, by simp [Fate.arrives, hremove], Outcome.noConfusion, .inl rfl⟩)
  by_cases hrotate : fate.crash = some .rotate
  · have hsave : saveTasks fate tasks d = (.crashed, (removed fate tasks d).rotate fate) := by
      rw [saveTasks, if_neg hwrite, if_neg hcrash, if_neg hremove, if_pos hrotate]
      rfl
    rw [hsave]
    exact .inr (.inl ⟨hstarts, by simp [Fate.arrives, hrotate], Outcome.noConfusion, .inr rfl⟩)
  have hsave : saveTasks fate tasks d =
      match ((removed fate tasks d).rotate fate).moveTmp fate with
      | none => (fate.ends .move .raised, (removed fate tasks d).rotate fate)
      | some d => (fate.ends .move .returned, d) := by
    rw [saveTasks, if_neg hwrite, if_neg hcrash, if_neg hremove, if_neg hrotate]
    rfl
  have harrives : fate.arrives = !fate.fails .move := by
    simp [Fate.arrives, hstarts, hremove, hrotate]
  rw [hsave]
  cases hmoved : ((removed fate tasks d).rotate fate).moveTmp fate with
  | none =>
      cases hmove : fate.fails .move with
      | true =>
          rw [hmove] at harrives
          exact .inr (.inl ⟨hstarts, harrives, ends_ne_returned fate .move, .inr rfl⟩)
      | false =>
          rw [hmove] at harrives
          exact .inr (.inr ⟨harrives, .inr ⟨rfl, ends_ne_returned fate .move, rfl⟩⟩)
  | some d' =>
      have hmove : fate.fails .move = false := by
        rw [Disk.moveTmp] at hmoved
        split at hmoved
        · cases hmoved
        · next h => exact Bool.eq_false_iff.mpr h
      rw [hmove] at harrives
      exact .inr (.inr ⟨harrives, .inl rfl⟩)

/-- A save that starts without a main file -/
theorem saveTasks_of_main_none (fate : Fate) (tasks : L) {d : Disk L} (hmain : d.main = none) :
    (fate.arrives = true ∧ (saveTasks fate tasks d).2.main = some tasks) ∨
      (fate.arrives = false ∧ (saveTasks fate tasks d).1 ≠ .returned ∧
        (saveTasks fate tasks d).2.main = none ∧
        (saveTasks fate tasks d).2.bak = if fate.removes then none else d.bak) := by
  have hmain' : (removed fate tasks d).main = none := removeBackup_main.trans hmain
  have hbak : fate.starts = true →
      (removed fate tasks d).bak = if fate.removes then none else d.bak := by
    intro hstarts
    rw [removed, removeBackup_bak, Fate.removes, hstarts]
    cases fate.fails .remove with
    | true => rfl
    | false => rfl
  rcases saveTasks_cases fate tasks d with ⟨hstarts, hout, hm, hb⟩ | ⟨hstarts, harrives, hout, hd⟩ |
    ⟨harrives, hd⟩
  · have hremoves : fate.removes = false := by rw [Fate.removes, hstarts]; rfl
    have harrives : fate.arrives = false := by rw [Fate.arrives, hstarts]; rfl
    rw [hremoves]
    exact .inr ⟨harrives, hout, hm.trans hmain, hb⟩
  · rw [rotate_of_main_none hmain', or_self] at hd
    rw [hd]
    exact .inr ⟨harrives, hout, hmain', hbak hstarts⟩
  · have hmove : fate.fails .move = false := by
      rw [Fate.arrives, Bool.and_eq_true, Bool.not_eq_true'] at harrives
      exact harrives.2
    have htmp : (removed fate tasks d).tmp = some tasks := removeBackup_tmp
    rw [rotate_of_main_none hmain', moveTmp_of_main_none hmain' htmp, hmove] at hd
    rcases hd with hd | ⟨hd, -⟩
    · rw [← Option.some.inj hd]
      exact .inl ⟨harrives, rfl⟩
    · cases hd

/-- A save that starts with a main file leaves it, or has it as the backup; the new list takes
its place only if the backup was out of the way. -/
theorem saveTasks_of_main_some (fate : Fate) (tasks : L) {d : Disk L} {l : L}
    (hmain : d.main = some l) :
    (fate.swaps = false ∧ (saveTasks fate tasks d).1 ≠ .returned ∧
        ((saveTasks fate tasks d).2.main = some l ∨
          (saveTasks fate tasks d).2.main = none ∧ (saveTasks fate tasks d).2.bak = some l)) ∨
      ((saveTasks fate tasks d).2.main = some tasks ∧ (fate.swaps = true ∨ d.bak = none)) := by
  have hmain' : (removed fate tasks d).main = some l := removeBackup_main.trans hmain
  have hrotated := rotate_of_main_some fate hmain'
  rcases saveTasks_cases fate tasks d with ⟨hstarts, hout, hm, hb⟩ | ⟨hstarts, harrives, hout, hd⟩ |
    ⟨harrives, hd⟩
  · have hswaps : fate.swaps = false := by
      rw [Fate.swaps, Fate.removes, hstarts]
      rfl
    exact .inl ⟨hswaps, hout, .inl (hm.trans hmain)⟩
  · have hswaps : fate.swaps = false := by
      rw [Fate.swaps, harrives, Bool.and_false]
    refine .inl ⟨hswaps, hout, ?_⟩
    rcases hd with hd | hd
    · rw [hd]
      exact .inl hmain'
    · rw [hd]
      exact hrotated.imp And.left fun h => ⟨h.1, h.2.1⟩
  · have hstarts : fate.starts = true := by
      simp only [Fate.arrives, Bool.and_eq_true] at harrives
      exact harrives.1.1.1
    have hmove : fate.fails .move = false := by
      rw [Fate.arrives, Bool.and_eq_true, Bool.not_eq_true'] at harrives
      exact harrives.2
    have hbak : (removed fate tasks d).bak = if fate.fails .remove then d.bak else none :=
      removeBackup_bak
    rcases hrotated with ⟨hstays, hwhy⟩ | ⟨hgone, hkept, hrotate, hfree⟩
    · have hswaps : fate.swaps = false := by
        rcases hwhy with hwhy | hwhy
        · simp [Fate.swaps, hwhy]
        · cases hremove : fate.fails .remove with
          | true => simp [Fate.swaps, Fate.removes, hremove]
          | false =>
              rw [hbak, hremove] at hwhy
              exact absurd rfl hwhy
      rw [moveTmp_of_main_some hstays] at hd
      rcases hd with hd | ⟨-, hout, hd⟩
      · cases hd
      · rw [hd] at *
        exact .inl ⟨hswaps, hout, .inl hstays⟩
    · have htmp : ((removed fate tasks d).rotate fate).tmp = some tasks :=
        rotate_tmp.trans removeBackup_tmp
      rw [moveTmp_of_main_none hgone htmp, hmove] at hd
      rcases hd with hd | ⟨hd, -⟩
      · rw [← Option.some.inj hd]
        refine .inr ⟨rfl, ?_⟩
        cases hremove : fate.fails .remove with
        | true =>
            rw [hbak, hremove] at hfree
            exact .inr hfree
        | false => exact .inl (by
            simp [Fate.swaps, Fate.removes, hstarts, hremove, hrotate, harrives])
      · cases hd

/-- A save that returned has put its list in place. -/
theorem main_of_returned {fate : Fate} {tasks : L} {d : Disk L}
    (h : (saveTasks fate tasks d).1 = .returned) :
    (saveTasks fate tasks d).2.main = some tasks := by
  cases hmain : d.main with
  | none =>
      rcases saveTasks_of_main_none fate tasks hmain with ⟨-, hnew⟩ | ⟨-, hout, -⟩
      · exact hnew
      · exact absurd h hout
  | some l =>
      rcases saveTasks_of_main_some fate tasks hmain with ⟨-, hout, -⟩ | ⟨hnew, -⟩
      · exact absurd h hout
      · exact hnew

end Saving

/-! ## Saves and restarts -/

section Runs

variable {Time Obj : Type} (later : Time → Interval → Option Time)

/-- The reads of a load that fail for a while -/
structure Reads where
  mainFails : Bool
  bakFails : Bool

/-- The stored list, and whether it comes from the backup.  A file that is missing and one that
cannot be read are the same here. -/
def readStored {L : Type} (reads : Reads) (d : Disk L) : Option (L × Bool) :=
  match if reads.mainFails then none else d.main with
  | some stored => some (stored, false)
  | none => (if reads.bakFails then none else d.bak).map fun stored => (stored, true)

/-- The tasks `_load_tasks` ends up with, and whether it saves them -/
def loadTasks (reads : Reads) (d : Disk (List (WatchTask Time Obj))) :
    List (WatchTask Time Obj) × Bool :=
  let (stored, recoveredFromBackup) := (readStored reads d).getD ([], false)
  (restore later stored, (Registry.load later stored).2 || recoveredFromBackup)

/-- A new process loads the tasks, and saves them if it has to; it goes on when that fails. -/
def restart (reads : Reads) (fate : Fate) (d : Disk (List (WatchTask Time Obj))) :
    Disk (List (WatchTask Time Obj)) :=
  let (tasks, normalized) := loadTasks later reads d
  if normalized then (saveTasks fate tasks d).2 else d

inductive Event (Time Obj : Type)
  | save (tasks : List (WatchTask Time Obj)) (fate : Fate)
  | restart (reads : Reads) (fate : Fate)

/-- The disk, and the lists a load may give: that of the last save that returned and those of
the saves attempted after it.  `none` as long as no save has returned -/
structure State (Time Obj : Type) where
  disk : Disk (List (WatchTask Time Obj))
  current : Option (List (List (WatchTask Time Obj)))

def State.init : State Time Obj := ⟨⟨none, none, none⟩, none⟩

def State.step (s : State Time Obj) : Event Time Obj → State Time Obj
  | .save tasks fate =>
      let (outcome, disk) := saveTasks fate tasks s.disk
      ⟨disk, if outcome = .returned then some [tasks] else s.current.map (tasks :: ·)⟩
  | .restart reads fate => ⟨Watch.restart later reads fate s.disk, s.current⟩

/-- The tasks a load gives whose reads do not fail -/
def loaded (d : Disk (List (WatchTask Time Obj))) : List (WatchTask Time Obj) :=
  (loadTasks later ⟨false, false⟩ d).1

/-- If a save has returned, a load gives its list or that of a later one. -/
def Survives (s : State Time Obj) : Prop :=
  ∀ lists, s.current = some lists → ∃ tasks ∈ lists, loaded later s.disk = restore later tasks

/-- Once a save has returned: a save that starts without a main file is not cut between the
removal of the backup and the last move; and a restart that cannot read the main file finds
no backup it can read, or one that is current, or its save is cut before the last move.  (A
loss does not matter if an empty list is current.) -/
def Sound (s : State Time Obj) : Event Time Obj → Prop
  | .save tasks fate =>
      ∀ lists stored, s.current = some lists → s.disk.main = none → s.disk.bak = some stored →
        fate.drops = true → ∃ l ∈ tasks :: lists, restore later l = []
  | .restart reads fate =>
      ∀ lists stored, s.current = some lists → s.disk.bak = some stored → reads.bakFails = false →
        (s.disk.main = none → fate.drops = true → ∃ l ∈ lists, restore later l = []) ∧
          (s.disk.main ≠ none → reads.mainFails = true → fate.swaps = true →
            ∃ l ∈ lists, restore later l = restore later stored)

variable {later}

theorem loaded_of_main_some {d : Disk (List (WatchTask Time Obj))} {l : List (WatchTask Time Obj)}
    (h : d.main = some l) : loaded later d = restore later l := by
  simp [loaded, loadTasks, readStored, h]

theorem loaded_of_bak_some {d : Disk (List (WatchTask Time Obj))} {l : List (WatchTask Time Obj)}
    (hmain : d.main = none) (hbak : d.bak = some l) : loaded later d = restore later l := by
  simp [loaded, loadTasks, readStored, hmain, hbak]

theorem loaded_of_none {d : Disk (List (WatchTask Time Obj))} (hmain : d.main = none)
    (hbak : d.bak = none) : loaded later d = [] := by
  simp [loaded, loadTasks, readStored, hmain, hbak]
  rfl

variable (later) in
/-- What a load gives after a save: the new list, or what it gave before, or nothing if the
save was cut without a main file. -/
theorem loaded_saveTasks (fate : Fate) (tasks : List (WatchTask Time Obj))
    (d : Disk (List (WatchTask Time Obj))) :
    loaded later (saveTasks fate tasks d).2 = restore later tasks ∨
      loaded later (saveTasks fate tasks d).2 = loaded later d ∨
      (d.main = none ∧ (∃ stored, d.bak = some stored) ∧ fate.drops = true ∧
        loaded later (saveTasks fate tasks d).2 = []) := by
  cases hmain : d.main with
  | none =>
      rcases saveTasks_of_main_none fate tasks hmain with ⟨-, hnew⟩ | ⟨harrives, -, hm, hb⟩
      · exact .inl (loaded_of_main_some hnew)
      cases hbak : d.bak with
      | none =>
          rw [hbak, ite_self] at hb
          exact .inr (.inl ((loaded_of_none hm hb).trans (loaded_of_none hmain hbak).symm))
      | some stored =>
          cases hremoves : fate.removes with
          | true =>
              rw [hremoves, if_pos rfl] at hb
              exact .inr (.inr ⟨rfl, ⟨stored, rfl⟩, by simp [Fate.drops, hremoves, harrives],
                loaded_of_none hm hb⟩)
          | false =>
              rw [hremoves, hbak] at hb
              exact .inr (.inl
                ((loaded_of_bak_some hm hb).trans (loaded_of_bak_some hmain hbak).symm))
  | some l =>
      have hold : loaded later d = restore later l := loaded_of_main_some hmain
      rcases saveTasks_of_main_some fate tasks hmain with ⟨-, -, hm | ⟨hm, hb⟩⟩ | ⟨hnew, -⟩
      · exact .inr (.inl ((loaded_of_main_some hm).trans hold.symm))
      · exact .inr (.inl ((loaded_of_bak_some hm hb).trans hold.symm))
      · exact .inl (loaded_of_main_some hnew)

variable (later) in
/-- A save that is cut between the removal of the only copy and the last move loses it. -/
theorem loaded_of_drops {fate : Fate} (tasks : List (WatchTask Time Obj))
    {d : Disk (List (WatchTask Time Obj))} (hmain : d.main = none) (hdrops : fate.drops = true) :
    (saveTasks fate tasks d).1 ≠ .returned ∧ loaded later (saveTasks fate tasks d).2 = [] := by
  rw [Fate.drops, Bool.and_eq_true, Bool.not_eq_true'] at hdrops
  rcases saveTasks_of_main_none fate tasks hmain with ⟨harrives, -⟩ | ⟨-, hout, hm, hb⟩
  · rw [hdrops.2] at harrives
    cases harrives
  · rw [hdrops.1, if_pos rfl] at hb
    exact ⟨hout, loaded_of_none hm hb⟩

theorem survives_save_iff {s : State Time Obj} (hs : Survives later s)
    (tasks : List (WatchTask Time Obj)) (fate : Fate) :
    Survives later (s.step later (.save tasks fate)) ↔ Sound later s (.save tasks fate) := by
  constructor
  · intro h lists stored hcurrent hmain hbak hdrops
    obtain ⟨hout, hlost⟩ := loaded_of_drops later tasks hmain hdrops
    obtain ⟨l, hl, heq⟩ := h (tasks :: lists) (by
      simp only [State.step, if_neg hout, hcurrent, Option.map_some])
    exact ⟨l, hl, heq.symm.trans hlost⟩
  · intro h lists hcurrent
    by_cases hout : (saveTasks fate tasks s.disk).1 = .returned
    · simp only [State.step, if_pos hout, Option.some.injEq] at hcurrent
      rw [← hcurrent]
      exact ⟨tasks, List.mem_singleton_self tasks, loaded_of_main_some (main_of_returned hout)⟩
    · simp only [State.step, if_neg hout] at hcurrent
      obtain ⟨lists', hbefore, rfl⟩ := Option.map_eq_some_iff.mp hcurrent
      rcases loaded_saveTasks later fate tasks s.disk with hnew | hold |
        ⟨hmain, ⟨stored, hbak⟩, hdrops, hlost⟩
      · exact ⟨tasks, List.mem_cons_self, hnew⟩
      · obtain ⟨l, hl, heq⟩ := hs lists' hbefore
        exact ⟨l, List.mem_cons_of_mem _ hl, hold.trans heq⟩
      · obtain ⟨l, hl, heq⟩ := h lists' stored hbefore hmain hbak hdrops
        exact ⟨l, hl, hlost.trans heq.symm⟩

/-- A restart that reads the backup saves it. -/
theorem restart_of_recovered {reads : Reads} (fate : Fate) {d : Disk (List (WatchTask Time Obj))}
    {stored : List (WatchTask Time Obj)} (hbak : d.bak = some stored)
    (hfails : reads.bakFails = false)
    (hmain : d.main = none ∨ reads.mainFails = true) :
    restart later reads fate d = (saveTasks fate (restore later stored) d).2 := by
  have hread : readStored reads d = some (stored, true) := by
    rcases hmain with hmain | hmain
    · simp [readStored, hmain, hbak, hfails]
    · simp [readStored, hmain, hbak, hfails]
  simp [restart, loadTasks, hread]

/-- Without a backup that it reads in place of the main file, a restart changes nothing that a
load gives. -/
theorem loaded_restart_of_not_recovered {reads : Reads} (fate : Fate)
    {d : Disk (List (WatchTask Time Obj))}
    (h : (d.main ≠ none ∧ reads.mainFails = false) ∨ d.bak = none ∨ reads.bakFails = true) :
    loaded later (restart later reads fate d) = loaded later d := by
  cases hread : if reads.mainFails then none else d.main with
  | none =>
      have hbak : (if reads.bakFails then none else d.bak) = none := by
        rcases h with ⟨hmain, hfails⟩ | hbak | hfails
        · rw [hfails] at hread
          exact absurd hread hmain
        · rw [hbak, ite_self]
        · rw [hfails, if_pos rfl]
      have hnone : restart later reads fate d = d := by
        simp [restart, loadTasks, readStored, hread, hbak, Registry.load]
      rw [hnone]
  | some stored =>
      have hmain : d.main = some stored := by
        split at hread
        · cases hread
        · exact hread
      have hold : loaded later d = restore later stored := loaded_of_main_some hmain
      have hrestart : restart later reads fate d =
          if (Registry.load later stored).2 then (saveTasks fate (restore later stored) d).2
          else d := by
        simp [restart, loadTasks, readStored, hread]
      rw [hrestart]
      split
      · rcases loaded_saveTasks later fate (restore later stored) d with hnew | hsame | ⟨hgone, -⟩
        · rw [hnew, hold, restore_restore]
        · exact hsame
        · rw [hmain] at hgone
          cases hgone
      · rfl

theorem survives_restart_iff {s : State Time Obj} (hs : Survives later s) (reads : Reads)
    (fate : Fate) :
    Survives later (s.step later (.restart reads fate)) ↔ Sound later s (.restart reads fate) := by
  constructor
  · intro h lists stored hcurrent hbak hfails
    obtain ⟨l, hl, heq⟩ := h lists hcurrent
    change loaded later (restart later reads fate s.disk) = _ at heq
    refine ⟨fun hmain hdrops => ⟨l, hl, ?_⟩, fun hmain hmainFails hswaps => ⟨l, hl, ?_⟩⟩
    · rw [restart_of_recovered fate hbak hfails (.inl hmain),
        (loaded_of_drops later _ hmain hdrops).2] at heq
      exact heq.symm
    · obtain ⟨m, hm⟩ := Option.ne_none_iff_exists'.mp hmain
      rw [restart_of_recovered fate hbak hfails (.inr hmainFails)] at heq
      rcases saveTasks_of_main_some fate (restore later stored) hm with ⟨hno, -⟩ | ⟨hnew, -⟩
      · rw [hswaps] at hno
        cases hno
      · rw [loaded_of_main_some hnew, restore_restore] at heq
        exact heq.symm
  · intro h lists hcurrent
    obtain ⟨l, hl, heq⟩ := hs lists hcurrent
    change ∃ tasks ∈ lists, loaded later (restart later reads fate s.disk) = _
    by_cases hrecovered : (s.disk.main ≠ none ∧ reads.mainFails = false) ∨ s.disk.bak = none ∨
        reads.bakFails = true
    · exact ⟨l, hl, (loaded_restart_of_not_recovered fate hrecovered).trans heq⟩
    -- the backup is read in place of the main file
    simp only [not_or, not_and, Bool.not_eq_false, Bool.not_eq_true] at hrecovered
    obtain ⟨hmain, hbak, hfails⟩ := hrecovered
    obtain ⟨stored, hbak⟩ := Option.ne_none_iff_exists'.mp hbak
    obtain ⟨hlost, holder⟩ := h lists stored hcurrent hbak hfails
    cases hdisk : s.disk.main with
    | none =>
        rw [restart_of_recovered fate hbak hfails (.inl hdisk)]
        have hold : loaded later s.disk = restore later stored := loaded_of_bak_some hdisk hbak
        rcases loaded_saveTasks later fate (restore later stored) s.disk with hnew | hsame |
          ⟨-, -, hdrops, hempty⟩
        · rw [hnew, restore_restore, ← hold]
          exact ⟨l, hl, heq⟩
        · rw [hsame]
          exact ⟨l, hl, heq⟩
        · obtain ⟨l', hl', hnil⟩ := hlost hdisk hdrops
          exact ⟨l', hl', hempty.trans hnil.symm⟩
    | some m =>
        have hne : s.disk.main ≠ none := by
          rw [hdisk]
          exact Option.some_ne_none m
        rw [restart_of_recovered fate hbak hfails (.inr (hmain hne))]
        have hold : loaded later s.disk = restore later m := loaded_of_main_some hdisk
        rcases saveTasks_of_main_some fate (restore later stored) hdisk with
          ⟨-, -, hm | ⟨hm, hb⟩⟩ | ⟨hnew, hswaps | hnone⟩
        · exact ⟨l, hl, ((loaded_of_main_some hm).trans hold.symm).trans heq⟩
        · exact ⟨l, hl, ((loaded_of_bak_some hm hb).trans hold.symm).trans heq⟩
        · obtain ⟨l', hl', hsame⟩ := holder hne (hmain hne) hswaps
          exact ⟨l', hl', by rw [loaded_of_main_some hnew, restore_restore, hsame]⟩
        · rw [hbak] at hnone
          cases hnone

variable (later) in
/-- Along any sequence of saves and restarts the saved tasks survive exactly when no save cuts
out the only copy and no restart puts an older backup in place of a main file it could not
read. -/
theorem saved_tasks_survive_iff (events : List (Event Time Obj)) :
    Along (State.step later) (Survives later) State.init events ↔
      Guarded (State.step later) (Sound later) State.init events := by
  refine along_iff_guarded (fun s event hs => ?_) fun lists hcurrent => ?_
  · cases event with
    | save tasks fate => exact survives_save_iff hs tasks fate
    | restart reads fate => exact survives_restart_iff hs reads fate
  · cases hcurrent

end Runs

namespace Sample

def later (base : Nat) : Interval → Option Nat
  | .minutes q => some (base + q.num.toNat)
  | _ => none

/-- A paused task with this id -/
def task (id : Str) : WatchTask Nat Unit where
  taskId := id
  path := ['p']
  sourceType := none
  toUri := none
  toIsDirectory := none
  parentUri := none
  reason := []
  instruction := []
  watchInterval := .minutes 60
  buildIndex := true
  summarize := false
  processingMode := .semanticAndVectors
  processorKwargs := ()
  authState := none
  connectorStates := none
  createdAt := 0
  lastExecutionTime := none
  lastTaskId := none
  lastStatus := none
  lastError := none
  nextExecutionTime := none
  isActive := false
  accountId := ['a']
  userId := ['u']
  originalRole := ['r']

def done : Fate := ⟨fun _ => false, none⟩

def crashAfter (step : SaveStep) : Fate := ⟨fun _ => false, some step⟩

/-- The second save dies when the main file has become the backup; the restart recovers from
the backup and dies when it has removed it. -/
def twoCrashes : List (Event Nat Unit) :=
  [.save [task ['1']] done, .save [task ['1'], task ['2']] (crashAfter .rotate),
    .restart ⟨false, false⟩ (crashAfter .remove)]

/-- After two saves, a restart cannot read the main file once. -/
def oneBadRead : List (Event Nat Unit) :=
  [.save [task ['1']] done, .save [task ['1'], task ['2']] done, .restart ⟨true, false⟩ done]

/-- In the first run a load then gives no task at all, in the second the list of the first
save, though the second one returned. -/
theorem saved_tasks_lost :
    ¬Along (State.step later) (Survives later) State.init twoCrashes ∧
      ¬Along (State.step later) (Survives later) State.init oneBadRead := by
  constructor
  · intro h
    obtain ⟨tasks, hmem, heq⟩ := h.2.2.2 [[task ['1'], task ['2']], [task ['1']]] rfl
    revert tasks
    decide +kernel
  · intro h
    obtain ⟨tasks, hmem, heq⟩ := h.2.2.2 [[task ['1'], task ['2']]] rfl
    revert tasks
    decide +kernel

end Sample

end OpenViking.Watch
