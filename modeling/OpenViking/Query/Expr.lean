/-
# `OpenViking.Query.Expr` — filter expressions and what they say of a record

The expressions the storage layer builds its queries from (`FilterExpr`), the
field values they speak about (`Value`), and their meaning (`holds`): `And` and
`Or` are the connectives, `Eq` is equality of values, `PathScope` compares the
components of two paths.  The nodes of the filter language of the vector store
(`Dsl`) stand beside them, since an expression may carry such a node as it is;
what these say is a parameter of the meaning.
-/
import OpenViking.Query.Uri
import Mathlib.Data.List.Infix
import Mathlib.Data.Rat.Defs

namespace OpenViking.Query

open OpenViking.Lib

/-! ## Values -/

/-- The value of a field; a missing field has the value `none`. -/
inductive Value
  | none
  | bool (b : Bool)
  | num (q : Rat)
  | str (s : Str)
  | list (items : List Value)

namespace Value

/-- Booleans are numbers. -/
def number : Value → Option Rat
  | bool b => some (if b then 1 else 0)
  | num q => some q
  | _ => Option.none

mutual

/-- `a == b` -/
def same : Value → Value → Bool
  | none, none => true
  | str a, str b => a == b
  | list a, list b => sameAll a b
  | a, b =>
      match a.number, b.number with
      | some x, some y => x == y
      | _, _ => false

def sameAll : List Value → List Value → Bool
  | [], [] => true
  | a :: as, b :: bs => a.same b && sameAll as bs
  | _, _ => false

end

mutual

/-- `a < b`, or `none` where the comparison is a `TypeError` -/
def less : Value → Value → Option Bool
  | str a, str b => some (decide (a < b))
  | list a, list b => lessAll a b
  | a, b =>
      match a.number, b.number with
      | some x, some y => some (decide (x < y))
      | _, _ => Option.none

/-- The first items that differ decide. -/
def lessAll : List Value → List Value → Option Bool
  | _, [] => some false
  | [], _ :: _ => some true
  | a :: as, b :: bs => if a.same b then lessAll as bs else a.less b

end

@[simp] theorem same_str {value : Value} {s : Str} : value.same (str s) = true ↔ value = str s := by
  cases value <;> simp [same, number]

theorem str_same {value : Value} {s : Str} : (str s).same value = true ↔ str s = value := by
  cases value <;> simp [same, number]

def isNone : Value → Bool
  | none => true
  | _ => false

/-- `_contains` -/
def contains (substring : Str) : Value → Bool
  | str s => decide (substring <:+: s)
  | list items => items.any fun item =>
      match item with
      | str s => decide (substring <:+: s)
      | _ => false
  | _ => false

/-- `_value_matches`: a list matches by its items. -/
def valueMatches (value : Value) (conditions : List Value) : Bool :=
  match value with
  | list items => conditions.any fun condition => items.any condition.same
  | value => conditions.any value.same

end Value

/-- The bounds of a range, `none` where there is no bound. -/
structure Bounds where
  gte : Value := .none
  gt : Value := .none
  lte : Value := .none
  lt : Value := .none

/-- `_in_range`: a comparison that is a `TypeError` fails. -/
def Bounds.inRange (bounds : Bounds) (value : Value) : Bool :=
  !value.isNone &&
    (bounds.gt.isNone || bounds.gt.less value == some true) &&
    (bounds.gte.isNone || value.less bounds.gte == some false) &&
    (bounds.lt.isNone || value.less bounds.lt == some true) &&
    (bounds.lte.isNone || bounds.lte.less value == some false)

/-- The fields of a record. -/
abbrev Record : Type := Str → Value

/-! ## Expressions -/

/-- A node of the filter language of the vector store. -/
inductive Dsl
  /-- `{}` -/
  | empty
  | filter (node : Dsl)
  | and (conds : List Dsl)
  | or (conds : List Dsl)
  | must (field : Str) (conds : List Value) (para : Str)
  | mustNot (field : Str) (conds : List Value) (para : Str)
  | contains (field : Str) (substring : Str)
  | range (field : Str) (bounds : Bounds)
  | rangeOut (field : Str) (bounds : Bounds)

/-- `FilterExpr` -/
inductive FilterExpr
  | and (conds : List FilterExpr)
  | or (conds : List FilterExpr)
  | eq (field : Str) (value : Value)
  | isIn (field : Str) (values : List Value)
  | range (field : Str) (bounds : Bounds)
  | contains (field : Str) (substring : Str)
  | timeRange (field : Str) (start stop : Value)
  | rawDsl (payload : Dsl)
  | pathScope (field : Str) (path : Str) (depth : Int)

/-! ## Meaning -/

/-- `_URI_FIELD_NAMES` -/
def isUriField (field : Str) : Bool := field == "uri".toList || field == "parent_uri".toList

/-- The components of a path in the given field. -/
def fieldComponents (field : Str) (path : Str) : List Str :=
  if isUriField field then components path else segments '/' (strip path)

/-- `value` is `path` or lies at most `depth` levels below it; a negative depth is no limit. -/
def within (depth : Int) (path value : List Str) : Bool :=
  decide (path <+: value) && (decide (depth < 0) ||
    decide ((value.length : Int) - path.length ≤ depth))

namespace FilterExpr

section

variable (raw : Dsl → Bool) (record : Record)

mutual

/-- The expression holds of the record. -/
def holds : FilterExpr → Bool
  | and conds => allHold conds
  | or conds => anyHolds conds
  | eq field value => (record field).same value
  | isIn field values => (record field).valueMatches values
  | range field bounds => bounds.inRange (record field)
  | contains field substring => (record field).contains substring
  | timeRange field start stop => Bounds.inRange ⟨start, .none, .none, stop⟩ (record field)
  | rawDsl payload => raw payload
  | pathScope field path depth =>
      match record field with
      | .str value => within depth (fieldComponents field path) (fieldComponents field value)
      | _ => false

def allHold : List FilterExpr → Bool
  | [] => true
  | cond :: conds => holds cond && allHold conds

def anyHolds : List FilterExpr → Bool
  | [] => false
  | cond :: conds => holds cond || anyHolds conds

end

end

section

variable {raw : Dsl → Bool} {record : Record}

@[simp] theorem allHold_eq (conds : List FilterExpr) :
    allHold raw record conds = conds.all (holds raw record) := by
  induction conds with
  | nil => rfl
  | cons cond conds ih => simp [allHold, ih]

@[simp] theorem anyHolds_eq (conds : List FilterExpr) :
    anyHolds raw record conds = conds.any (holds raw record) := by
  induction conds with
  | nil => rfl
  | cons cond conds ih => simp [anyHolds, ih]

theorem holds_and (conds : List FilterExpr) :
    holds raw record (and conds) = conds.all (holds raw record) := by
  rw [holds, allHold_eq]

theorem holds_or (conds : List FilterExpr) :
    holds raw record (or conds) = conds.any (holds raw record) := by
  rw [holds, anyHolds_eq]

theorem holds_pathScope {field path : Str} {depth : Int} :
    holds raw record (pathScope field path depth) = true ↔
      ∃ value, record field = .str value ∧
        within depth (fieldComponents field path) (fieldComponents field value) = true := by
  rw [holds]
  cases record field <;> simp

end

end FilterExpr

/-- Without a limit only the names count. -/
theorem within_neg_one {path value : List Str} :
    within (-1) path value = true ↔ path <+: value := by
  simp [within]

end OpenViking.Query
