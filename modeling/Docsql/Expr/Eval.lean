import Docsql.Expr.Syntax

/-!
# The two evaluators

`eval_const` folds constants, `eval_expr` evaluates against a document.  Where a branch is taken
only if needed, the combinators of the syntax module choose among the results of the parts.
-/

namespace Docsql.Expr

open Docsql.Scalar

variable (lib : Library)

/-! ## Constants -/

/-- A number under a minus sign, read with its sign. -/
def negatedLiteral : SqlExpr → Option Int64
  | .value (.number n) => Json.parseI64 ('-' :: n.toList)
  | _ => none

/-- `wrapping_neg` -/
def wrappingNeg (i : Int64) : Value := .int (-i)

mutual

def evalConst : SqlExpr → Eval Value
  | .value v => sqlValue lib v
  | .unaryOp op e =>
    match op, negatedLiteral e with
    | .minus, some i => .ok (.int i)
    | _, _ => do unaryValue op wrappingNeg false (← evalConst e)
  | .binaryOp l op r => do
    let left ← evalConst l
    binop lib left op (← evalConst r)
  | .nested e => evalConst e
  | .position e inside => do
    let needle ← evalConst e
    positionOf lib needle (← evalConst inside)
  | .floor e => do callFunction lib "FLOOR" [← evalConst e]
  | .ceil e => do callFunction lib "CEILING" [← evalConst e]
  | .cast tryCast e dataType => do castResult lib dataType tryCast (← evalConst e)
  | .function name windowed args =>
    let called := lib.upper name
    if windowed then fail s!"window functions (OVER) are not supported: {called}"
    else
      let results := constArgs (takesDatepartName called) args
      if called = "IF" then ifValue lib results
      else do callFunction lib called (← argValues called results)
  | .identifier i =>
    let name := i.value
    fail s!"column {name} not allowed here"
  | .typedString ts => typedStringValue lib ts
  | .case operand conditions elseResult =>
    caseValue (constOption operand) (constOption elseResult) (constBranches conditions)
  | other =>
    let shown := lib.displayExpr other
    fail s!"unsupported expression: {shown}"

def constArgs (datepart : Bool) : List (Option SqlExpr) → List (Option (Eval Value))
  | [] => []
  | none :: rest => none :: constArgs false rest
  | some e :: rest => some (datepartArg datepart e (evalConst e)) :: constArgs false rest

def constOption : Option SqlExpr → Option (Eval Value)
  | none => none
  | some e => some (evalConst e)

def constBranches : List (SqlExpr × SqlExpr) → List (Eval Value × Eval Value)
  | [] => []
  | (condition, result) :: rest => (evalConst condition, evalConst result) :: constBranches rest

end

/-! ## Columns -/

/-- The part in front of the last dot. -/
def qualifier (key : String) : Option (List Char) :=
  match key.toList.reverse.dropWhile (· ≠ '.') with
  | [] => none
  | _ :: front => some front.reverse

/-- How often the qualifier changes along the keys; none for a key without one. -/
def countQualifiers : List Char → List String → Option ℕ
  | _, [] => some 0
  | last, key :: keys =>
    if key = "ROWNUM" then countQualifiers last keys
    else
      match qualifier key with
      | none => none
      | some p =>
        if p = last then countQualifiers last keys
        else (countQualifiers p keys).map (· + 1)

/-- The exact key, then in a row of several tables the first qualified one. -/
def lookupCol (doc : Object) (name : String) : Value :=
  match doc.lookup name with
  | some v => v
  | none =>
    match countQualifiers [] (doc.map Prod.fst) with
    | some (_ + 2) =>
      ((doc.find? fun p => ('.' :: name.toList).isSuffixOf p.1.toList).map Prod.snd).getD .null
    | _ => .null

def startsWithAt (i : Ident) : Bool := !i.quoted && i.value.toList.head? == some '@'

def identifierValue (doc : Object) (i : Ident) : Eval Value :=
  if startsWithAt i then
    let name := i.value
    fail (s!"variables/parameters ({name}) are not supported; " ++
      s!"bind the value or quote the field name (\"{name}\")")
  else .ok (lookupCol doc i.value)

def fullName (parts : List Ident) : String := String.intercalate "." (parts.map Ident.value)

def isSequenceWord (i : Ident) : Bool :=
  !i.quoted && (i.value.toList.map Char.toLower ∈ ["nextval".toList, "currval".toList])

def compoundValue (doc : Object) (parts : List Ident) : Eval Value :=
  let full := fullName parts
  if (parts.head?.map startsWithAt).getD false then
    let name := ((parts.head?.map Ident.value).getD "@")
    fail (s!"variables/parameters ({name}) are not supported; " ++
      "bind the value or quote the field name")
  else if (parts.getLast?.map isSequenceWord).getD false then
    fail (s!"Oracle sequence reference {full} is not supported; " ++
      "migrate the key to AUTOINCREMENT / IDENTITY")
  else
    match doc.lookup full with
    | some v => .ok v
    | none => .ok (lookupCol doc ((parts.getLast?.map Ident.value).getD ""))

/-! ## Rows -/

/-- `checked_neg`, and a float where it fails. -/
def checkedNeg (i : Int64) : Value :=
  if i.toInt = i64Min then .float (negF64 (lib.intToF64 i)) else .int (-i)

def betweenValue (negated : Bool) (v low high : Value) : Eval Value :=
  if isNull v ∨ isNull low ∨ isNull high then .ok (.bool false)
  else do
    match ← cmpCoerced v low, ← cmpCoerced v high with
    | some lo, some hi => return .bool ((lo != .lt && hi != .gt) != negated)
    | _, _ => return .bool false

def foldCase (s : String) : String := String.ofList (s.toList.map lib.lowerFirst)

def escapeChar : Option Literal → Option Char
  | some (.singleQuotedString s) => s.toList.head?
  | _ => none

def likeValue (insensitive negated : Bool) (escape : Option Literal) (v p : Value) : Value :=
  match v, p with
  | .str s, .str pattern =>
    let hit := if insensitive then
        lib.likeMatch (foldCase lib s) (foldCase lib pattern) (escapeChar escape)
      else lib.likeMatch s pattern (escapeChar escape)
    .bool (hit != negated)
  | _, _ => .bool (false != negated)

/-- The elements of `IN` in turn, up to the first that is equal. -/
def inListLoop (negated : Bool) (v : Value) : Bool → List (Eval Value) → Eval Value
  | unknown, [] => .ok (if unknown then .null else .bool negated)
  | unknown, item :: rest => do
    match ← cmpCoerced v (← item) with
    | some .eq => return .bool !negated
    | some _ => inListLoop negated v unknown rest
    | none => inListLoop negated v true rest

/-- An integer argument of `SUBSTRING`; none for NULL. -/
def substringArg (what : String) (default : ℤ) : Option (Eval Value) → Eval (Option ℤ)
  | none => .ok (some default)
  | some r => do
    match ← r with
    | .int i => return some i.toInt
    | .null => return none
    | other =>
      let shown := lib.debug other
      fail s!"SUBSTR {what} must be an integer: {shown}"

def substringValue (base : Value) (start length : Option (Eval Value)) : Eval Value := do
  match ← substringArg lib "start" 1 start with
  | none => return .null
  | some y =>
    match ← substringArg lib "length" (i64Max / 4) length with
    | none => return .null
    | some z => callFunction lib "SUBSTR" [base, .int (.ofInt y), .int (.ofInt z)]

def stripChars (place : Option TrimWhere) (chars text : List Char) : List Char :=
  let inside := fun c => decide (c ∈ chars)
  let front := if place = some .trailing then text else text.dropWhile inside
  if place = some .leading then front else (front.reverse.dropWhile inside).reverse

def trimName : Option TrimWhere → String
  | some .leading => "LTRIM"
  | some .trailing => "RTRIM"
  | _ => "TRIM"

def trimValue (place : Option TrimWhere) (base : Value) (what : Option (Eval Value)) :
    Eval Value :=
  match what with
  | none => callFunction lib (trimName place) [base]
  | some r => do
    match ← r with
    | .null => return .null
    | v =>
      let chars := (valueToText lib.toLibrary v).toList
      let text := (valueToText lib.toLibrary base).toList
      return .str (String.ofList (stripChars place chars text))

variable (doc : Object)

mutual

def evalExpr : SqlExpr → Eval Value
  | .identifier i => identifierValue doc i
  | .compoundIdentifier parts => compoundValue doc parts
  | .value v => sqlValue lib v
  | .typedString ts => typedStringValue lib ts
  | .unaryOp op e => do unaryValue op (checkedNeg lib) true (← evalExpr e)
  | .binaryOp l op r => do
    let left ← evalExpr l
    binop lib left op (← evalExpr r)
  | .nested e => evalExpr e
  | .position e inside => do
    let needle ← evalExpr e
    positionOf lib needle (← evalExpr inside)
  | .isNull e => do return .bool (isNull (← evalExpr e))
  | .isNotNull e => do return .bool !isNull (← evalExpr e)
  | .isDistinctFrom l r => do
    let left ← evalExpr l
    return .bool !(← valuesEqualNullSafe left (← evalExpr r))
  | .isNotDistinctFrom l r => do
    let left ← evalExpr l
    return .bool (← valuesEqualNullSafe left (← evalExpr r))
  | .between e negated low high => do
    let v ← evalExpr e
    let lo ← evalExpr low
    betweenValue negated v lo (← evalExpr high)
  | .like insensitive negated e pattern escape => do
    let v ← evalExpr e
    return likeValue lib insensitive negated escape v (← evalExpr pattern)
  | .case operand conditions elseResult =>
    caseValue (rowOption operand) (rowOption elseResult) (rowBranches conditions)
  | .cast tryCast e dataType => do castResult lib dataType tryCast (← evalExpr e)
  | .substring e start length => do
    substringValue lib (← evalExpr e) (rowOption start) (rowOption length)
  | .trim place e what => do trimValue lib place (← evalExpr e) (rowOption what)
  | .floor e => do callFunction lib "FLOOR" [← evalExpr e]
  | .ceil e => do callFunction lib "CEILING" [← evalExpr e]
  | .function name windowed args =>
    let called := lib.upper name
    if windowed then fail s!"window functions (OVER) are not supported: {called}"
    else if isAggregate called then
      fail s!"aggregate function {called} is not allowed in this context"
    else
      let results := rowArgs (takesDatepartName called) args
      if called = "IF" then ifValue lib results
      else do callFunction lib called (← argValues called results)
  | .inList e list negated => do inListLoop negated (← evalExpr e) false (rowItems list)
  | .subquery => fail "correlated subqueries are not supported"
  | .anyAll => fail "ANY/ALL subqueries are not supported here"
  | .other text => fail s!"unsupported expression: {text}"

def rowArgs (datepart : Bool) : List (Option SqlExpr) → List (Option (Eval Value))
  | [] => []
  | none :: rest => none :: rowArgs false rest
  | some e :: rest => some (datepartArg datepart e (evalExpr e)) :: rowArgs false rest

def rowOption : Option SqlExpr → Option (Eval Value)
  | none => none
  | some e => some (evalExpr e)

def rowBranches : List (SqlExpr × SqlExpr) → List (Eval Value × Eval Value)
  | [] => []
  | (condition, result) :: rest => (evalExpr condition, evalExpr result) :: rowBranches rest

def rowItems : List SqlExpr → List (Eval Value)
  | [] => []
  | e :: rest => evalExpr e :: rowItems rest

end

end Docsql.Expr
