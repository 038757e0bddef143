/-
# `OpenViking.Queuefs.Backends` — the in-memory and the SQLite queue backends

`plugins/queuefs/backend.rs`.  Both backends sit behind one trait; a call takes
the state of the backend to its result and the state it leaves (`Act`).

The SQLite tables are lists in the order of their rowids.  Their constraints are
fields of the structure: the primary key of `queue_metadata` and the ascending
`AUTOINCREMENT` key of `queue_messages`.  The times a call
reads are its arguments.
-/
import OpenViking.Lib.Text
import Mathlib.Data.List.Infix
import OpenViking.Lib.Act
import OpenViking.Lib.Dict
import Mathlib.Data.List.Sort

/-! ## Queue names, subtrees and `LIKE`

A queue name is any string.  The queues below a name are those whose name goes
on with `/`; the SQLite backend finds them with `LIKE`, whose pattern is the
name itself followed by `/%`.  `LIKE` reads `%` and `_` in it as wildcards,
ignores the case of ASCII letters and stops at a NUL on either side. -/

namespace OpenViking.Queuefs

open OpenViking.Lib

/-- `q` is the queue `n` or lies below it. -/
def InSubtree (n q : Str) : Prop := q = n ∨ n ++ ['/'] <+: q

instance (n q : Str) : Decidable (InSubtree n q) := inferInstanceAs (Decidable (_ ∨ _))

/-- A text as SQLite's functions see it: up to the first NUL -/
def cString (s : Str) : Str := s.takeWhile (· ≠ Char.ofNat 0)

/-- `patternCompare` of SQLite: `%` stands for any text, `_` for any character, and
ASCII letters are compared without case. -/
def patternCompare : Str → Str → Bool
  | [], s => s.isEmpty
  | p :: pattern, s =>
      if p = '%' then s.tails.any (patternCompare pattern)
      else
        match s with
        | [] => false
        | c :: s => (p == '_' || p.toLower == c.toLower) && patternCompare pattern s

/-- The SQL expression `s LIKE pattern` -/
def like (pattern s : Str) : Bool := patternCompare (cString pattern) (cString s)

/-- `format!("{}/%", name)` -/
def subtreePattern (n : Str) : Str := n ++ ['/', '%']

/-- `queue_name = ?1 OR queue_name LIKE ?2` -/
def selected (n q : Str) : Bool := q = n || like (subtreePattern n) q

/-- A pattern matches every text that begins with it when it ends in `%`. -/
theorem patternCompare_append (n s : Str) : patternCompare (n ++ ['%']) (n ++ s) := by
  induction n with
  | nil =>
      simp only [List.nil_append, patternCompare, if_true]
      exact List.any_eq_true.mpr ⟨[], (List.mem_tails _ _).mpr (List.nil_suffix), rfl⟩
  | cons c n ih =>
      simp only [List.cons_append, patternCompare]
      split
      · exact List.any_eq_true.mpr ⟨n ++ s, (List.mem_tails _ _).mpr (List.suffix_cons c _), ih⟩
      · simp [ih]

theorem patternCompare_self (n : Str) : patternCompare n n := by
  induction n with
  | nil => rfl
  | cons c n ih =>
      simp only [patternCompare]
      split
      · exact List.any_eq_true.mpr ⟨n, (List.mem_tails _ _).mpr (List.suffix_cons c n), ih⟩
      · simp [ih]

theorem cString_append_of_mem {a : Str} (h : Char.ofNat 0 ∈ a) (b : Str) :
    cString (a ++ b) = cString a := by
  induction a with
  | nil => cases h
  | cons c a ih =>
      simp only [cString, List.cons_append, List.takeWhile_cons]
      by_cases hc : c = Char.ofNat 0
      · simp [hc]
      · have ha := ih ((List.mem_cons.mp h).resolve_left fun h => hc h.symm)
        simpa [hc, cString] using ha

theorem cString_append_of_notMem {a : Str} (h : Char.ofNat 0 ∉ a) (b : Str) :
    cString (a ++ b) = a ++ cString b :=
  List.takeWhile_append_of_pos fun c hc => by
    simpa using fun h' : c = Char.ofNat 0 => h (h' ▸ hc)

/-- What the pattern is for: every queue below the name matches it. -/
theorem like_of_below {n q : Str} (h : n ++ ['/'] <+: q) : like (subtreePattern n) q := by
  obtain ⟨rest, rfl⟩ := h
  unfold like subtreePattern
  by_cases hz : Char.ofNat 0 ∈ n
  · -- both sides end at the NUL of the name
    rw [List.append_assoc, cString_append_of_mem hz, cString_append_of_mem hz]
    exact patternCompare_self _
  · rw [List.append_assoc, cString_append_of_notMem hz, cString_append_of_notMem hz]
    have := patternCompare_append (n ++ ['/']) (cString rest)
    simpa [cString] using this

theorem selected_of_inSubtree {n q : Str} (h : InSubtree n q) : selected n q := by
  rcases h with rfl | h
  · simp [selected]
  · simp [selected, like_of_below h]

end OpenViking.Queuefs

namespace OpenViking.Queuefs

open OpenViking.Lib

/-- The kinds of `core/errors.rs` that the backends return -/
inductive Error
  | notFound (message : Str)
  | alreadyExists (message : Str)
  | internal (message : Str)
  | serialization (message : Str)
  deriving DecidableEq, Repr

/-- `queue '{}' not found` -/
def queueNotFound (name : Str) : Error :=
  .notFound ("queue '".toList ++ name ++ "' not found".toList)

/-- `queue '{}' already exists` -/
def queueExists (name : Str) : Error :=
  .alreadyExists ("queue '".toList ++ name ++ "' already exists".toList)

/-- A character of `Uuid::to_string` -/
def isUuidChar (c : Char) : Bool := c.isDigit || ('a' ≤ c && c ≤ 'f') || c == '-'

/-- The text of a UUID, as messages and backend instances are named -/
def Uuid : Type := { s : Str // s.length = 36 ∧ ∀ c ∈ s, isUuidChar c }

instance : DecidableEq Uuid := inferInstanceAs (DecidableEq (Subtype _))

structure Message where
  id : Uuid
  data : List UInt8
  timestamp : Nat
  deriving DecidableEq

/-! ## Memory -/

structure Queue where
  messages : List Message
  lastEnqueueTime : Nat

def Queue.new : Queue := ⟨[], 0⟩

structure MemoryBackend where
  queues : Dict Str Queue

namespace MemoryBackend

abbrev Call (α : Type) : Type := Act Error MemoryBackend α

def new : MemoryBackend := ⟨Dict.empty⟩

def createQueue (name : Str) : Call Unit := fun m =>
  match m.queues.get name with
  | some _ => (.error (queueExists name), m)
  | none => (.ok (), ⟨m.queues.set name Queue.new⟩)

def removeQueue (name : Str) : Call Unit := fun m =>
  match m.queues.get name with
  | none => (.error (queueNotFound name), m)
  | some _ => (.ok (), ⟨m.queues.erase name⟩)

def listQueues (m : MemoryBackend) (pre : Str) : List Str :=
  if pre.isEmpty then m.queues.keys else m.queues.keys.filter (pre.isPrefixOf ·)

end MemoryBackend

/-! ## SQLite -/

inductive Status
  | pending
  | processing
  deriving DecidableEq, Repr

/-- A row of `queue_messages` -/
structure Row where
  id : Nat
  queueName : Str
  messageId : Uuid
  data : Str
  timestamp : Nat
  status : Status
  processingStartedAt : Option Nat
  deriving DecidableEq

/-- The database: the names in `queue_metadata`, and `queue_messages` by ascending id -/
structure Db where
  metadata : List Str
  messages : List Row
  nextId : Nat
  unique : metadata.Nodup
  ascending : messages.Pairwise (·.id < ·.id)
  fresh : ∀ row ∈ messages, row.id < nextId

namespace Db

abbrev Call (α : Type) : Type := Act Error Db α

def empty : Db := ⟨[], [], 0, List.nodup_nil, .nil, by simp⟩

/-- Delete the names that do not satisfy `keep`. -/
def keepNames (db : Db) (keep : Str → Bool) : Db :=
  { db with metadata := db.metadata.filter keep, unique := db.unique.filter keep }

/-- Delete the rows that do not satisfy `keep`. -/
def keepRows (db : Db) (keep : Row → Bool) : Db :=
  { db with
    messages := db.messages.filter keep
    ascending := db.ascending.filter keep
    fresh := fun row hrow => db.fresh row (List.mem_filter.mp hrow).1 }

/-- `INSERT OR IGNORE INTO queue_metadata` -/
def insertName (db : Db) (name : Str) (h : name ∉ db.metadata) : Db :=
  { db with
    metadata := db.metadata ++ [name]
    unique := List.nodup_append.mpr ⟨db.unique, List.nodup_singleton name, by
      intro a ha b hb hab
      rw [List.mem_singleton.mp hb] at hab
      exact h (hab ▸ ha)⟩ }

def queueKnown (db : Db) (name : Str) : Bool :=
  name ∈ db.metadata || db.messages.any (·.queueName = name)

def createQueue (name : Str) : Call Unit := fun db =>
  if h : name ∈ db.metadata then (.error (queueExists name), db)
  else (.ok (), db.insertName name h)

/-- The first statement of `remove_queue`.  The two statements are not in one
transaction. -/
def removeMessages (name : Str) (db : Db) : Db :=
  db.keepRows fun row => !selected name row.queueName

/-- The second statement -/
def removeMetadata (name : Str) (db : Db) : Db := db.keepNames fun q => !selected name q

def removeQueue (name : Str) : Call Unit := fun db =>
  let deletedMessages := db.messages.countP fun row => selected name row.queueName
  let deletedMeta := db.metadata.countP fun q => selected name q
  let db' := (db.removeMessages name).removeMetadata name
  if deletedMessages = 0 ∧ deletedMeta = 0 then (.error (queueNotFound name), db')
  else (.ok (), db')

/-- `ORDER BY queue_name` -/
def orderByName (names : List Str) : List Str := names.insertionSort (· ≤ ·)

def listQueues (db : Db) (pre : Str) : List Str :=
  if pre.isEmpty then orderByName db.metadata
  else orderByName (db.metadata.filter fun q => selected pre q)

/-- `status IN ('pending', 'processing')` holds of every row. -/
def rowsOf (db : Db) (name : Str) : List Row := db.messages.filter (·.queueName = name)

end Db

end OpenViking.Queuefs
