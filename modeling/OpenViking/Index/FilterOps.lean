/-
# `OpenViking.Index.FilterOps` — filter operators and their evaluation

`filter/filter_ops.cpp`.  An operator is evaluated against a result so far
(`pres`) that it narrows or widens, in place, on behalf of the operator above
it.  A null pointer is both "no result yet" and "nothing found"; which of the
two is meant depends on who reads it.

The regular expressions of the standard library are a parameter.
-/
import OpenViking.Index.FieldGroups

namespace OpenViking.Index

open OpenViking.Lib

/-- The operators, as `load_json_doc` leaves them.  Only the first field of `must`
and `must_not` is ever read. -/
inductive FilterOp (D : Type) [LinearOrder D] : Type
  | and (ignoreEmptyCondition : Bool) (conds : List (FilterOp D))
  | or (conds : List (FilterOp D))
  | must (field : Str) (conds : List Str) (depth : Int)
  | mustNot (field : Str) (conds : List Str) (depth : Int)
  | range (rangeOut : Bool) (field : Str) (bounds : RangedMap.Bounds D)
  | range2d (rangeOut : Bool) (field₀ field₁ : Str) (x y radius : D)
  | labelIn (labels : List Nat)
  | startsWith (field : Str) (value : Str)
  | contains (field : Str) (substring : Str)
  | regex (field : Str) (pattern : Str)

/-- `on_res_op` -/
inductive Connective
  | and
  | or
  deriving DecidableEq, Repr

section

variable {D : Type} [LinearOrder D]

/-- An operator that selects nothing before it looks at the index; it answers
null even when there is a result so far. -/
def FilterOp.isVoid : FilterOp D → Bool
  | must _ conds _ => conds = []
  | labelIn labels => labels = []
  | startsWith _ value => value = []
  | contains _ substring => substring = []
  | regex _ pattern => pattern = []
  | _ => false

variable [DoubleArith D] (regex : Str → Option (Str → Bool)) (G : FieldBitmapGroupSet D)

/-- `calc_bitmap` once the operator's own bitmap is known.  `must_not` under
`and` does not use its own bitmap but takes its keys out of the result. -/
def accumulate (op : FilterOp D) (self pres : BitmapPtr) (onResOp : Connective) : BitmapPtr :=
  if op.isVoid then none
  else
    match pres, onResOp with
    | none, _ => self
    | some p, .or => some (p.unionPtr self)
    | some p, .and =>
        match op with
        | .mustNot _ [] _ => some p
        | .mustNot field [key] _ => some (p.excludePtr (G.getBitmap field key))
        | .mustNot field keys _ => some (p.excludePtr (G.makeFieldCopy field keys))
        | _ =>
            match self with
            | none => none
            | some b => some (p.intersect b)

/-- `LabelInOp::calc_self_bitmap` -/
def labelInBitmap (labels : List Nat) : BitmapPtr :=
  match G.convertLabels labels with
  | none => none
  | some [] => none
  | some offsets => some (Bitmap.empty.setMany offsets)

mutual

/-- `calc_self_bitmap` -/
def calcSelfBitmap : FilterOp D → BitmapPtr
  | .and true conds => calcIgnoringEmpty conds none
  | .and false conds => calcConds .and conds none
  | .or conds => calcConds .or conds none
  | .must field conds depth =>
      if G.isPathFieldName field then G.makePathFieldCopy field conds depth
      else G.makeFieldCopy field conds
  | .mustNot field conds depth =>
      if G.isPathFieldName field then G.makePathFieldExcludeCopy field conds depth
      else G.makeFieldExcludeCopy field conds
  | .range rangeOut field bounds => G.makeRangeCopy rangeOut field bounds
  -- `range_out_` is read for one field only
  | .range2d _ field₀ field₁ x y radius => G.makeRange2dCopy field₀ field₁ x y radius
  | .labelIn labels => labelInBitmap G labels
  | .startsWith field value => G.makeFieldPrefixCopy field value
  | .contains field substring => G.makeFieldContainsCopy field substring
  | .regex field pattern => G.makeFieldRegexCopy regex field pattern

/-- The loop of a logic operator: the result so far goes through every condition.
A null ends an `and`; an `or` goes on, from null. -/
def calcConds (onResOp : Connective) : List (FilterOp D) → BitmapPtr → BitmapPtr
  | [], pres => pres
  | cond :: conds, pres =>
      match accumulate G cond (calcSelfBitmap cond) pres onResOp, onResOp with
      | none, .and => none
      | next, _ => calcConds onResOp conds next

/-- The loop of an `and` that ignores the conditions without a result. -/
def calcIgnoringEmpty : List (FilterOp D) → BitmapPtr → BitmapPtr
  | [], pres => pres
  | cond :: conds, pres =>
      match accumulate G cond (calcSelfBitmap cond) none .and, pres with
      | none, _ => calcIgnoringEmpty conds pres
      | some found, none => calcIgnoringEmpty conds (some found)
      | some found, some p => calcIgnoringEmpty conds (some (p.intersect found))

end

theorem calcConds_and_cons (cond : FilterOp D) (conds : List (FilterOp D)) (pres : BitmapPtr) :
    calcConds regex G .and (cond :: conds) pres =
      (accumulate G cond (calcSelfBitmap regex G cond) pres .and).bind
        fun next => calcConds regex G .and conds (some next) := by
  cases h : accumulate G cond (calcSelfBitmap regex G cond) pres .and <;> simp [calcConds, h]

theorem calcConds_or_cons (cond : FilterOp D) (conds : List (FilterOp D)) (pres : BitmapPtr) :
    calcConds regex G .or (cond :: conds) pres =
      calcConds regex G .or conds
        (accumulate G cond (calcSelfBitmap regex G cond) pres .or) := by
  cases h : accumulate G cond (calcSelfBitmap regex G cond) pres .or <;> simp [calcConds, h]

/-- `calc_bitmap(groups, nullptr, op)` -/
def calcBitmap (op : FilterOp D) : BitmapPtr :=
  accumulate G op (calcSelfBitmap regex G op) none .or

end

end OpenViking.Index
