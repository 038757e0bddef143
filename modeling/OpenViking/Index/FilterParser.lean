/-
# `OpenViking.Index.FilterParser` — from a JSON document to a filter operator

`filter/filter_ops.cpp`: `parse_filter_json_doc` and the `load_json_doc` of
every operator, with the codes they return.  A document that does not load, or
loads into an operator that is not valid, gives a null operator.

A JSON text is taken as parsed: what is read of a document is its members by
name, the first of a name counting.  `GetString()` converted to a string ends
at the first NUL; the conditions of `must` and `must_not` keep their length.
-/
import OpenViking.Index.FilterOps

namespace OpenViking.Index

open OpenViking.Lib

mutual

/-- A JSON value; integers are those that fit an `int64` or a `uint64`. -/
inductive Json (D : Type) : Type
  | null
  | bool (b : Bool)
  | int (n : Int)
  | double (x : D)
  | str (s : Str)
  | arr (items : List (Json D))
  | obj (members : List (Member D))

inductive Member (D : Type) : Type
  | mk (name : Str) (value : Json D)

end

section

variable {D : Type}

/-- `json_doc[name]`, if it has one -/
def findMember (name : Str) : List (Member D) → Option (Json D)
  | [] => none
  | .mk n v :: rest => if n = name then some v else findMember name rest

/-- `std::string(value.GetString())` -/
def cString (s : Str) : Str := s.takeWhile (· ≠ '\x00')

/-- `IsInt64()` -/
def isInt64 (n : Int) : Bool := -2 ^ 63 ≤ n && n < 2 ^ 63

/-- `std::to_string` of an integer -/
def decimal (n : Int) : Str :=
  if n < 0 then '-' :: Nat.toDigits 10 n.natAbs else Nat.toDigits 10 n.natAbs

/-- `get_json_double_value` -/
def getJsonDoubleValue [DoubleArith D] : Json D → Except Int D
  | .double x => .ok x
  | .int n => if isInt64 n then .ok (DoubleArith.ofInt n) else .error (-1)
  | _ => .error (-1)

/-- The strings of an array; the other items are skipped. -/
def stringItems : List (Json D) → List Str
  | [] => []
  | .str s :: rest => cString s :: stringItems rest
  | _ :: rest => stringItems rest

/-- The `field` member of a field operator: a name, or several. -/
def loadFields (doc : List (Member D)) : Except Int (Str × List Str) :=
  match findMember "field".toList doc with
  | none => .error (-1)
  | some (.str s) => .ok (cString s, [])
  | some (.arr items) =>
      match stringItems items with
      | [] => .error (-2)
      | field :: others => .ok (field, others)
  | some _ => .error (-2)

/-- The loop over the conditions: integers and booleans do not mix with strings. -/
def loadConds : List (Json D) → Bool → Bool → Except Int (List Str)
  | [], _, _ => .ok []
  | .int n :: rest, _, isType =>
      if isInt64 n then
        if isType then .error (-5) else (decimal n :: ·) <$> loadConds rest true isType
      else .error (-7)
  | .str s :: rest, isId, _ =>
      if isId then .error (-6) else (s :: ·) <$> loadConds rest isId true
  | .bool b :: rest, _, isType =>
      if isType then .error (-5)
      else ((if b then ['1'] else ['0']) :: ·) <$> loadConds rest true isType
  | _ :: _, _, _ => .error (-7)

/-- `FieldOpBase::parse_conds_ops`; conditions that are not a list are none. -/
def parseFieldConds (doc : List (Member D)) : Except Int (Str × List Str) := do
  let (field, _) ← loadFields doc
  match findMember "conds".toList doc with
  | none => throw (-3)
  | some (.arr items) => return (field, ← loadConds items false false)
  | some _ => return (field, [])

/-! ## The depth of a path condition -/

def isSpace (c : Char) : Bool :=
  c = ' ' || c = '\t' || c = '\n' || c = '\x0b' || c = '\x0c' || c = '\r'

/-- `std::stoi`: an optional sign and the digits that follow; what comes after
them is ignored.  No digits, or a number beyond `int`, is an exception. -/
def stoi (s : Str) : Option Int :=
  let (negative, rest) := match s with
    | '-' :: rest => (true, rest)
    | '+' :: rest => (false, rest)
    | rest => (false, rest)
  match rest.takeWhile Char.isDigit with
  | [] => none
  | digits =>
      let value : Int := Nat.ofDigitChars 10 digits 0
      let value := if negative then -value else value
      if -2 ^ 31 ≤ value && value < 2 ^ 31 then some value else none

/-- `parse_dir_semantic_para`; `none` is its error value. -/
def parseDirSemanticPara (doc : List (Member D)) : Option Int :=
  let depthOf (para : Str) : Option Int :=
    let para := para.filter fun c => !isSpace c
    match para with
    | '-' :: 'd' :: '=' :: rest => (stoi rest).map fun depth => max (-1) (min 50 depth)
    | _ => some (-1)
  match findMember "para".toList doc with
  | none => some (-1)
  | some (.str s) => depthOf (cString s)
  | some (.arr (.str s :: _)) => depthOf (cString s)
  | some (.arr _) => some (-1)
  | some _ => none

/-! ## Loading the leaves -/

variable [LinearOrder D]

/-- `MustOp::load_json_doc` and `MustNotOp::load_json_doc` -/
def loadMust (make : Str → List Str → Int → FilterOp D) (doc : List (Member D)) :
    Except Int (FilterOp D) := do
  let (field, conds) ← parseFieldConds doc
  match parseDirSemanticPara doc with
  | none => throw (-1)
  | some depth => return make field conds depth

/-- `LabelInOp::load_json_doc`: negative numbers are cast. -/
def loadLabels : List (Json D) → Except Int (List Nat)
  | [] => .ok []
  | .int n :: rest =>
      if 0 ≤ n && n < 2 ^ 64 then (n.toNat :: ·) <$> loadLabels rest
      else if isInt64 n then ((n + 2 ^ 64).toNat :: ·) <$> loadLabels rest
      else .error (-8)
  | _ :: _ => .error (-8)

def loadLabelIn (doc : List (Member D)) : Except Int (FilterOp D) :=
  match findMember "labels".toList doc with
  | none => .error (-3)
  | some (.arr []) => .error (-4)
  | some (.arr items) => .labelIn <$> loadLabels items
  | some _ => .error (-4)

/-- `load_json_doc` of `PrefixOp`, `ContainsOp` and `RegexOp`: a field and a text. -/
def loadText (name : Str) (make : Str → Str → FilterOp D) (doc : List (Member D)) :
    Except Int (FilterOp D) :=
  match findMember "field".toList doc with
  | none => .error (-1)
  | some (.str field) =>
      match findMember name doc with
      | none => .error (-3)
      | some (.str value) => .ok (make (cString field) (cString value))
      | some _ => .error (-4)
  | some _ => .error (-2)

variable [DoubleArith D]

/-- One side of a one-dimensional range: the inclusive name wins. -/
def loadBound (inclusive exclusive : Str) (doc : List (Member D)) :
    Except Int (Option (D × Bool)) :=
  match findMember inclusive doc with
  | some value => return some (← getJsonDoubleValue value, true)
  | none =>
      match findMember exclusive doc with
      | some value => return some (← getJsonDoubleValue value, false)
      | none => return none

/-- The `center` member. -/
def loadCenter (doc : List (Member D)) : Except Int (List D) :=
  match findMember "center".toList doc with
  | none => .ok []
  | some (.arr []) => .error (-3)
  | some (.arr items) => items.mapM getJsonDoubleValue
  | some _ => .error (-3)

/-- `RangeOp::load_json_doc`.  A negative radius is answered with the success
code of the number it was read from, but the operator stays invalid (`none`). -/
def loadRange (rangeOut : Bool) (doc : List (Member D)) : Except Int (Option (FilterOp D)) := do
  let (field, others) ← loadFields doc
  let center ← loadCenter doc
  let radius ← match findMember "radius".toList doc with
    | none => pure (DoubleArith.ofInt 0)
    | some value => getJsonDoubleValue value
  if radius < DoubleArith.ofInt 0 then return none
  match others with
  | [] =>
      let around : Option (RangedMap.Bounds D) := match center with
        | [c] => some ⟨DoubleArith.add c radius, true, DoubleArith.sub c radius, true⟩
        | _ => none
      let lower ← loadBound "gte".toList "gt".toList doc
      let upper ← loadBound "lte".toList "lt".toList doc
      if around.isNone && lower.isNone && upper.isNone then throw (-4)
      let base := around.getD ⟨DoubleArith.maxVal, false, DoubleArith.minVal, false⟩
      let base := match lower with
        | some (b, inclusive) => { base with greaterThan := b, includeGe := inclusive }
        | none => base
      let base := match upper with
        | some (b, inclusive) => { base with lowerThan := b, includeLe := inclusive }
        | none => base
      return some (.range rangeOut field base)
  | [field₁] =>
      match center with
      | [x, y] => return some (.range2d rangeOut field field₁ x y radius)
      | _ => throw (-5)
  | _ => throw (-5)

/-! ## Logic operators and the parser -/

/-- Is the value an object? -/
def Json.isObj : Json D → Bool
  | .obj _ => true
  | _ => false

/-- `"ignore_empty_condition": true` -/
def ignoresEmpty (doc : List (Member D)) : Bool :=
  match findMember "ignore_empty_condition".toList doc with
  | some (.bool b) => b
  | _ => false

/-- `make_filter_op_by_opname` and `load_json_doc`; `conds` is what the conditions
of a logic operator parse to. -/
def loadByName (opname : Str) (doc : List (Member D)) (conds : Except Int (List (FilterOp D))) :
    Option (Except Int (Option (FilterOp D))) :=
  if opname = "and".toList then some (conds.map fun cs => some (.and (ignoresEmpty doc) cs))
  else if opname = "or".toList then some (conds.map fun cs => some (.or cs))
  else if opname = "must".toList then some ((loadMust .must doc).map some)
  else if opname = "must_not".toList then some ((loadMust .mustNot doc).map some)
  else if opname = "range".toList then some (loadRange false doc)
  else if opname = "geo_range".toList then some (loadRange false doc)
  else if opname = "range_out".toList then some (loadRange true doc)
  else if opname = "label_in".toList then some ((loadLabelIn doc).map some)
  else if opname = "prefix".toList then some ((loadText "prefix".toList .startsWith doc).map some)
  else if opname = "contains".toList then
    some ((loadText "substring".toList .contains doc).map some)
  else if opname = "regex".toList then some ((loadText "pattern".toList .regex doc).map some)
  else none

mutual

/-- `parse_filter_json_doc` -/
def parseFilterJsonDoc : Json D → Option (FilterOp D)
  | .obj doc =>
      match findMember "op".toList doc with
      | some (.str opname) =>
          match loadByName (cString opname) doc (parseLogicConds doc) with
          | some (.ok (some op)) => some op
          | _ => none
      | _ => none
  | _ => none

/-- `LogicOpBase::parse_conds_ops`: find the conditions, … -/
def parseLogicConds : List (Member D) → Except Int (List (FilterOp D))
  | [] => .error (-1)
  | .mk name value :: rest =>
      if name = "conds".toList then parseCondsValue value else parseLogicConds rest

/-- … which are a list with something in it, … -/
def parseCondsValue : Json D → Except Int (List (FilterOp D))
  | .arr items => if items.isEmpty then .error (-2) else parseCondItems items
  | _ => .error (-2)

/-- … of objects that parse. -/
def parseCondItems : List (Json D) → Except Int (List (FilterOp D))
  | [] => .ok []
  | item :: items =>
      if !item.isObj then .error (-3)
      else
        match parseFilterJsonDoc item with
        | none => .error (-4)
        | some op => (op :: ·) <$> parseCondItems items

end

/-- `parse_filter_json_doc_outter` -/
def parseFilterJsonDocOutter (doc : List (Member D)) : Option (FilterOp D) :=
  match findMember "filter".toList doc with
  | some filter => parseFilterJsonDoc filter
  | none => parseFilterJsonDoc (.obj doc)

end

/-! ## Documents -/

namespace Sample

def text (s : String) : Json Int := .str s.toList

/-- `{"op": op, "field": field, "conds": conds}` -/
def fieldJson (op field : String) (conds : List String) : Json Int :=
  .obj [.mk "op".toList (text op), .mk "field".toList (text field),
    .mk "conds".toList (.arr (conds.map text))]

/-- `{"op": op, "conds": conds}` -/
def logicJson (op : String) (conds : List (Json Int)) : Json Int :=
  .obj [.mk "op".toList (text op), .mk "conds".toList (.arr conds)]

end Sample

end OpenViking.Index
