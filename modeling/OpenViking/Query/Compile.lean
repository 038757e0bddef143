/-
# `OpenViking.Query.Compile` — compiling expressions, evaluating filters

`compileFilter` turns an expression into a node of the filter language, with
the values of URI fields in their stored form; sub-expressions that compile to
nothing are dropped.  `matchesFilter` evaluates a node on the fields of a stored
record (`normalizeRecordForWrite`), and refuses what the backend does not
support.
-/
import OpenViking.Query.Expr
import OpenViking.Lib.Text

namespace OpenViking.Query

open OpenViking.Lib

/-! ## The stored record -/

/-- `_encode_uri_field_value` -/
def encodeUriFieldValue : Value → Value
  | .str s => .str (encodeUri s)
  | value => value

/-- The form in which a value of the field is stored. -/
def stored (field : Str) (value : Value) : Value :=
  if isUriField field then encodeUriFieldValue value else value

/-- `_normalize_record_for_write`, for an adapter without a limit on text fields -/
def normalizeRecordForWrite (record : Record) : Record := fun field => stored field (record field)

/-! ## Depth parameters -/

/-- `str(d)` -/
def decimalInt (d : Int) : Str :=
  if d < 0 then '-' :: decimalNat d.natAbs else decimalNat d.natAbs

/-- `f"-d={depth}"` -/
def formatDepth (depth : Int) : Str := '-' :: 'd' :: '=' :: decimalInt depth

/-- `-?\d+` -/
def parseInt (s : Str) : Option Int :=
  match s with
  | '-' :: digits =>
      if digits ≠ [] ∧ digits.all Char.isDigit then some (-(Nat.ofDigitChars 10 digits 0 : Int))
      else none
  | digits =>
      if digits ≠ [] ∧ digits.all Char.isDigit then some (Nat.ofDigitChars 10 digits 0 : Int)
      else none

/-- What the collection says of a field's type, as far as it matters here. -/
inductive FieldKind
  | path
  | dateTime
  | geoPoint
  | other
  deriving DecidableEq

/-- `UnsupportedCuVSFilterError` -/
inductive Unsupported
  /-- "cuVS prefilter does not support … fields" -/
  | fieldType (kind : FieldKind)
  /-- "Unsupported path filter parameter: …" -/
  | parameter (para : Str)
  /-- "Filter parameters are only supported for path fields: …" -/
  | notPath (field : Str)
  deriving DecidableEq

/-- `_parse_depth` -/
def parseDepth (para : Str) : Except Unsupported (Option Int) :=
  if para = [] then .ok none
  else
    match strip para with
    | '-' :: 'd' :: '=' :: number =>
        match parseInt number with
        | some depth => .ok (some depth)
        | none => .error (.parameter para)
    | _ => .error (.parameter para)

theorem parseInt_decimalInt (d : Int) : parseInt (decimalInt d) = some d := by
  have hall : (decimalNat d.natAbs).all Char.isDigit = true :=
    List.all_eq_true.mpr fun c => isDigit_of_mem_decimalNat
  have hne := decimalNat_ne_nil d.natAbs
  unfold decimalInt
  split
  · next hneg =>
      simp only [parseInt, hne, hall, ne_eq, not_false_eq_true, and_self, if_true,
        ofDigitChars_decimalNat]
      congr 1
      omega
  · next hneg =>
      unfold parseInt
      split
      · next digits heq =>
          exact absurd (heq ▸ List.mem_cons_self) (notMem_decimalNat (by decide) d.natAbs)
      · rw [if_pos ⟨hne, hall⟩, ofDigitChars_decimalNat]
        congr 1
        omega

theorem parseDepth_formatDepth (d : Int) : parseDepth (formatDepth d) = .ok (some d) := by
  have hend : ∃ front, formatDepth d = front ++ decimalNat d.natAbs := by
    unfold formatDepth decimalInt
    split
    · exact ⟨['-', 'd', '=', '-'], rfl⟩
    · exact ⟨['-', 'd', '='], rfl⟩
  have hstrip : strip (formatDepth d) = formatDepth d := by
    refine stripBy_eq_self (fun x hx => Option.some.inj hx ▸ by decide) fun x hx => ?_
    obtain ⟨front, hfront⟩ := hend
    rw [hfront, List.getLast?_append, List.getLast?_eq_some_getLast (decimalNat_ne_nil _)] at hx
    obtain rfl := Option.some.inj hx
    have := isDigit_bounds
      (isDigit_of_mem_decimalNat (List.getLast_mem (decimalNat_ne_nil d.natAbs)))
    exact isSpace_eq_false (by omega) (by omega)
  unfold parseDepth
  rw [if_neg (by simp [formatDepth]), hstrip]
  simp only [formatDepth, parseInt_decimalInt]

/-! ## Compiling -/

namespace Dsl

/-- `not node` -/
def isEmpty : Dsl → Bool
  | empty => true
  | _ => false

/-- The node of a connective: nothing, the only condition, or all of them. -/
def combine (op : List Dsl → Dsl) (conds : List Dsl) : Dsl :=
  match conds.filter fun c => !c.isEmpty with
  | [] => empty
  | [c] => c
  | conds => op conds

mutual

/-- `_normalize_filter_payload_for_write` -/
def normalizeFilterPayloadForWrite : Dsl → Dsl
  | empty => empty
  | filter node => filter (normalizeFilterPayloadForWrite node)
  | and conds => and (normalizeAll conds)
  | or conds => or (normalizeAll conds)
  | must field conds para => must field (conds.map (stored field)) para
  | mustNot field conds para => mustNot field (conds.map (stored field)) para
  | contains field substring => contains field substring
  | range field bounds => range field bounds
  | rangeOut field bounds => rangeOut field bounds

def normalizeAll : List Dsl → List Dsl
  | [] => []
  | c :: conds => normalizeFilterPayloadForWrite c :: normalizeAll conds

end

end Dsl

mutual

/-- `_compile_filter` -/
def compileFilter : FilterExpr → Dsl
  | .rawDsl payload => payload.normalizeFilterPayloadForWrite
  | .and conds => Dsl.combine .and (compileAll conds)
  | .or conds => Dsl.combine .or (compileAll conds)
  | .eq field value => .must field [stored field value]
      (if isUriField field then formatDepth 0 else [])
  | .isIn field values => .must field (values.map (stored field)) []
  | .pathScope field path depth => .must field [stored field (.str path)] (formatDepth depth)
  | .range field bounds => .range field bounds
  | .contains field substring => .contains field substring
  | .timeRange field start stop => .range field ⟨start, .none, .none, stop⟩

def compileAll : List FilterExpr → List Dsl
  | [] => []
  | c :: conds => compileFilter c :: compileAll conds

end

@[simp] theorem compileAll_eq (conds : List FilterExpr) :
    compileAll conds = conds.map compileFilter := by
  induction conds with
  | nil => rfl
  | cons c conds ih => rw [compileAll, ih, List.map_cons]

/-! ## Evaluating -/

/-- `_normalize_path` -/
def normalizePath (value : Str) : Str :=
  let stripped := strip value
  if ['/'] <+: stripped then stripped else '/' :: stripped

/-- `_normalize_path(value).rstrip("/") or "/"` -/
def pathText (value : Str) : Str :=
  let path := trimEnd '/' (normalizePath value)
  if path = [] then ['/'] else path

/-- How many levels the value lies below the expected path, by their texts. -/
def relativeDepth (valuePath expectedPath : Str) : Option Nat :=
  if valuePath = expectedPath then some 0
  else if expectedPath = ['/'] then some (segments '/' valuePath).length
  else if expectedPath ++ ['/'] <+: valuePath then
    some (segments '/' (valuePath.drop (expectedPath.length + 1))).length
  else none

/-- A depth that is missing or negative is no limit. -/
def depthAllows (depth : Option Int) (relative : Nat) : Bool :=
  match depth with
  | none => true
  | some limit => decide (limit < 0) || decide ((relative : Int) ≤ limit)

/-- `_path_matches` -/
def pathMatches (value expected : Value) (depth : Option Int) : Bool :=
  match value, expected with
  | .str value, .str expected =>
      match relativeDepth (pathText value) (pathText expected) with
      | none => false
      | some relative => depthAllows depth relative
  | _, _ => false

section

variable (fieldTypes : Str → FieldKind) (fields : Record)

/-- The fields of these types need conversions the backend does not have. -/
def checkField (field : Str) : Except Unsupported Unit :=
  match fieldTypes field with
  | .dateTime => .error (.fieldType .dateTime)
  | .geoPoint => .error (.fieldType .geoPoint)
  | _ => .ok ()

/-- The condition of `must` and `must_not` -/
def mustMatches (field : Str) (conds : List Value) (para : Str) : Except Unsupported Bool := do
  checkField fieldTypes field
  if fieldTypes field = .path then
    let depth ← parseDepth para
    pure (conds.any fun condition => pathMatches (fields field) condition depth)
  else if para ≠ [] then throw (.notPath field)
  else pure ((fields field).valueMatches conds)

mutual

/-- `matches_filter` -/
def matchesFilter : Dsl → Except Unsupported Bool
  | .empty => pure true
  | .filter node => matchesFilter node
  | .and conds => do return (← matchesAll conds).all id
  | .or conds => do return (← matchesAll conds).any id
  | .must field conds para => mustMatches fieldTypes fields field conds para
  | .mustNot field conds para => do return !(← mustMatches fieldTypes fields field conds para)
  | .contains field substring => do
      checkField fieldTypes field
      pure ((fields field).contains substring)
  | .range field bounds => do
      checkField fieldTypes field
      pure (bounds.inRange (fields field))
  | .rangeOut field bounds => do
      checkField fieldTypes field
      pure !(bounds.inRange (fields field))

/-- All conditions are evaluated. -/
def matchesAll : List Dsl → Except Unsupported (List Bool)
  | [] => pure []
  | c :: conds => do
      let result ← matchesFilter c
      return result :: (← matchesAll conds)

end

end

section

variable {fieldTypes : Str → FieldKind} {fields : Record}

theorem matchesAll_map {α : Type} {items : List α} {node : α → Dsl} {answer : α → Bool}
    (h : ∀ x ∈ items, matchesFilter fieldTypes fields (node x) = .ok (answer x)) :
    matchesAll fieldTypes fields (items.map node) = .ok (items.map answer) := by
  induction items with
  | nil => rfl
  | cons x items ih =>
      rw [List.map_cons, matchesAll, h x List.mem_cons_self,
        ih fun y hy => h y (List.mem_cons_of_mem _ hy)]
      rfl

/-- The conditions that compile to something. -/
def kept {α : Type} (node : α → Dsl) (items : List α) : List α :=
  items.filter fun x => !(node x).isEmpty

/-- A connective of one condition is that condition. -/
theorem matchesFilter_combine {op : List Dsl → Dsl} {fold : List Bool → Bool}
    (hop : ∀ conds, matchesFilter fieldTypes fields (op conds) =
      (matchesAll fieldTypes fields conds).map fold)
    (hone : ∀ b, fold [b] = b) {α : Type} {items : List α} {node : α → Dsl} {answer : α → Bool}
    (h : ∀ x ∈ items, matchesFilter fieldTypes fields (node x) = .ok (answer x)) :
    matchesFilter fieldTypes fields (Dsl.combine op (items.map node)) =
      .ok (if kept node items = [] then true else fold ((kept node items).map answer)) := by
  have hkept : ∀ x ∈ kept node items, matchesFilter fieldTypes fields (node x) = .ok (answer x) :=
    fun x hx => h x (List.mem_of_mem_filter hx)
  have hfilter : (items.map node).filter (fun c => !c.isEmpty) = (kept node items).map node :=
    List.filter_map
  unfold Dsl.combine
  rw [hfilter]
  cases hitems : kept node items with
  | nil => rfl
  | cons x rest =>
      rw [hitems] at hkept
      cases rest with
      | nil => simp [hkept x List.mem_cons_self, hone]
      | cons y rest =>
          simp only [List.map_cons, hop]
          rw [← List.map_cons, ← List.map_cons, matchesAll_map hkept]
          rfl

end

end OpenViking.Query
