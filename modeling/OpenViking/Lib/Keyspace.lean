/-
# `OpenViking.Lib.Keyspace` — a Redis keyspace and its commands

A keyspace maps keys to data of five types.  A command on a key that holds
another type fails with `WRONGTYPE`; a collection that becomes empty is no
longer there, so "no key" and "empty" are one state (`listDatum []` is `none`).

Every command is given with the equation by which a script is run: what it
returns and leaves when its key holds a given collection.
-/
import Mathlib.Logic.Function.Basic
import OpenViking.Lib.Act
import OpenViking.Lib.Text

namespace OpenViking.Lib

/-- What a key holds.  A sorted set lists its members with their scores, in
the order of `ZRANGE`. -/
inductive Datum
  | string (value : Str)
  | list (items : List Str)
  | set (members : List Str)
  | zset (members : List (Str × Nat))
  | hash (fields : List (Str × Str))
  deriving DecidableEq, Repr

abbrev Keyspace : Type := Str → Option Datum

namespace Keyspace

def wrongType : Str :=
  "WRONGTYPE Operation against a key holding the wrong kind of value".toList

/-- A script: it runs commands until one fails, and keeps what was done. -/
abbrev Script (α : Type) : Type := Act Str Keyspace α

def listDatum : List Str → Option Datum
  | [] => none
  | items => some (.list items)

def setDatum : List Str → Option Datum
  | [] => none
  | members => some (.set members)

def zsetDatum : List (Str × Nat) → Option Datum
  | [] => none
  | members => some (.zset members)

def asList : Option Datum → Except Str (List Str)
  | none => .ok []
  | some (.list items) => .ok items
  | some _ => .error wrongType

def asSet : Option Datum → Except Str (List Str)
  | none => .ok []
  | some (.set members) => .ok members
  | some _ => .error wrongType

def asZset : Option Datum → Except Str (List (Str × Nat))
  | none => .ok []
  | some (.zset members) => .ok members
  | some _ => .error wrongType

def asHash : Option Datum → Except Str (List (Str × Str))
  | none => .ok []
  | some (.hash fields) => .ok fields
  | some _ => .error wrongType

@[simp] theorem asList_listDatum (l : List Str) : asList (listDatum l) = .ok l := by cases l <;> rfl

@[simp] theorem asSet_setDatum (l : List Str) : asSet (setDatum l) = .ok l := by cases l <;> rfl

@[simp] theorem asZset_zsetDatum (l : List (Str × Nat)) : asZset (zsetDatum l) = .ok l := by
  cases l <;> rfl

/-- Read a key under one of the types. -/
def load {α : Type} (decode : Option Datum → Except Str α) (k : Str) : Script α :=
  fun ks => (decode (ks k), ks)

/-- Write a key; `none` deletes it. -/
def store (k : Str) (d : Option Datum) : Script Unit := fun ks => (.ok (), Function.update ks k d)

/-! ## Strings and keys -/

def del (k : Str) : Script Unit := store k none

/-! ## Lists -/

/-- `LRANGE k 0 -1` -/
def lrange (k : Str) : Script (List Str) := load asList k

/-! ## Sets -/

def smembers (k : Str) : Script (List Str) := load asSet k

/-- `SADD`: whether the member was new -/
def sadd (k x : Str) : Script Bool := do
  let members ← load asSet k
  if x ∈ members then pure false
  else
    store k (setDatum (members ++ [x]))
    pure true

def srem (k x : Str) : Script Unit := do
  let members ← load asSet k
  store k (setDatum (members.filter (· ≠ x)))

/-! ## Sorted sets -/

/-- `ZRANGE k 0 -1` -/
def zrange (k : Str) : Script (List Str) := do
  let members ← load asZset k
  pure (members.map Prod.fst)

/-! ## Hashes -/

def hset (k field value : Str) : Script Unit := do
  let fields ← load asHash k
  store k (some (.hash ((field, value) :: fields.filter (·.1 ≠ field))))

/-! ## Running a command -/

variable {ks : Keyspace} {k : Str}

@[simp] theorem store_apply (k : Str) (d : Option Datum) (ks : Keyspace) :
    store k d ks = (.ok (), Function.update ks k d) := rfl

theorem lrange_apply {l : List Str} (h : ks k = listDatum l) : lrange k ks = (.ok l, ks) := by
  rw [lrange, load, h, asList_listDatum]

theorem smembers_apply {l : List Str} (h : ks k = setDatum l) : smembers k ks = (.ok l, ks) := by
  rw [smembers, load, h, asSet_setDatum]

theorem sadd_new {l : List Str} {x : Str} (h : ks k = setDatum l) (hx : x ∉ l) :
    sadd k x ks = (.ok true, Function.update ks k (setDatum (l ++ [x]))) := by
  have hl := smembers_apply h
  simp only [sadd, Act.bind_apply, smembers] at hl ⊢
  rw [hl, Act.andThen_ok, if_neg hx]
  rfl

theorem srem_apply {l : List Str} (h : ks k = setDatum l) (x : Str) :
    srem k x ks = (.ok (), Function.update ks k (setDatum (l.filter (· ≠ x)))) := by
  have hl := smembers_apply h
  simp only [srem, Act.bind_apply, smembers] at hl ⊢
  rw [hl]
  rfl

theorem zset_apply {l : List (Str × Nat)} (h : ks k = zsetDatum l) :
    load asZset k ks = (.ok l, ks) := by
  rw [load, h, asZset_zsetDatum]

theorem zrange_apply {l : List (Str × Nat)} (h : ks k = zsetDatum l) :
    zrange k ks = (.ok (l.map Prod.fst), ks) := by
  simp only [zrange, Act.bind_apply, zset_apply h, Act.andThen_ok, Act.pure_apply]

theorem hset_apply {fields : List (Str × Str)} (h : asHash (ks k) = .ok fields) (f v : Str) :
    hset k f v ks =
      (.ok (), Function.update ks k (some (.hash ((f, v) :: fields.filter (·.1 ≠ f))))) := by
  simp only [hset, load, Act.bind_apply, h, Act.andThen_ok, store_apply]

end Keyspace

end OpenViking.Lib
