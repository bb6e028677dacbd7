import Docsql.Scalar.Functions

/-!
# Expressions

The expressions of the SQL parser as far as the evaluators tell them apart, and the functions
on values that the evaluators share.
-/

namespace Docsql.Expr

open Docsql.Scalar

/-! ## Syntax -/

structure Ident where
  value : String
  /-- `quote_style` is set. -/
  quoted : Bool
deriving DecidableEq

/-- Literals as the parser leaves them. -/
inductive Literal where
  | number (n : String)
  | singleQuotedString (s : String)
  | doubleQuotedString (s : String)
  | nationalStringLiteral (s : String)
  | boolean (b : Bool)
  | null
  | hexStringLiteral (s : String)
  | other (text : String)
deriving DecidableEq

/-- A typed string; `instant` if its type is one of the timestamp and date types. -/
structure TypedString where
  dataType : String
  instant : Bool
  value : Literal
deriving DecidableEq

inductive UnaryOperator where
  | minus
  | not
  | bitwiseNot
  | other
deriving DecidableEq

inductive BinaryOperator where
  | arith (op : ArithOp)
  | bitwiseOr
  | bitwiseAnd
  | bitwiseXor
  | stringConcat
  | eq
  | notEq
  | lt
  | ltEq
  | gt
  | gtEq
  | and
  | or
  | other (text : String)
deriving DecidableEq

inductive TrimWhere where
  | leading
  | trailing
  | both
deriving DecidableEq

/-- An argument of a function is `none` if it is no plain expression. -/
inductive SqlExpr where
  | value (v : Literal)
  | identifier (i : Ident)
  | compoundIdentifier (parts : List Ident)
  | typedString (ts : TypedString)
  | unaryOp (op : UnaryOperator) (expr : SqlExpr)
  | binaryOp (left : SqlExpr) (op : BinaryOperator) (right : SqlExpr)
  | nested (expr : SqlExpr)
  | position (expr inside : SqlExpr)
  | floor (expr : SqlExpr)
  | ceil (expr : SqlExpr)
  | isNull (expr : SqlExpr)
  | isNotNull (expr : SqlExpr)
  | isDistinctFrom (left right : SqlExpr)
  | isNotDistinctFrom (left right : SqlExpr)
  | between (expr : SqlExpr) (negated : Bool) (low high : SqlExpr)
  | like (insensitive negated : Bool) (expr pattern : SqlExpr) (escape : Option Literal)
  | case (operand : Option SqlExpr) (conditions : List (SqlExpr × SqlExpr))
      (elseResult : Option SqlExpr)
  | cast (tryCast : Bool) (expr : SqlExpr) (dataType : String)
  | substring (expr : SqlExpr) (start length : Option SqlExpr)
  | trim (place : Option TrimWhere) (expr : SqlExpr) (what : Option SqlExpr)
  | function (name : String) (windowed : Bool) (args : List (Option SqlExpr))
  | inList (expr : SqlExpr) (list : List SqlExpr) (negated : Bool)
  | subquery
  | anyAll
  | other (text : String)

def isAggregate (name : String) : Bool :=
  name ∈ ["COUNT", "COUNT_BIG", "SUM", "AVG", "MIN", "MAX", "GROUP_CONCAT", "STRING_AGG",
    "GROUPING"]

/-- The functions of the library, of the crates and of the engine that the evaluators call. -/
structure Library extends Scalar.Library where
  /-- `{s:?}` of a text. -/
  debugText : String → String
  displayLiteral : Literal → String
  displayExpr : SqlExpr → String
  /-- `to_uppercase` -/
  upper : String → String
  /-- The first character of `to_lowercase`. -/
  lowerFirst : Char → Char
  likeMatch : String → String → Option Char → Bool
  /-- The scalar functions beyond `ScalarFn`. -/
  otherFunction : String → List Value → Eval Value
  /-- No aggregate is a scalar function. -/
  otherFunction_aggregate : ∀ name args v, isAggregate name = true →
    otherFunction name args ≠ .ok v

/-- A document. -/
abbrev Object := List (String × Value)

variable (lib : Library)

/-! ## Literals -/

/-- The bytes of a hexadecimal text; `shown` goes into the message. -/
def hexPairs (shown : String) : List Char → Eval (List UInt8)
  | [] => .ok []
  | [c] =>
    match Json.hexDigit c with
    | none => fail s!"bad hex digit: {shown}"
    | some _ => .error .outOfRange
  | c :: d :: rest =>
    match Json.hexDigit c, Json.hexDigit d with
    | some hi, some lo => do return UInt8.ofNat (hi * 16 + lo) :: (← hexPairs shown rest)
    | _, _ => fail s!"bad hex digit: {shown}"

def numberValue (n : String) : Eval Value :=
  match Json.parseI64 n.toList with
  | some i => .ok (.int i)
  | none =>
    match lib.parseF64 n.toList with
    | none => fail s!"bad number {n}"
    | some f =>
      if f.isFinite then .ok (.float f) else fail s!"non-finite numeric literal: {n}"

def sqlValue : Literal → Eval Value
  | .number n => numberValue lib n
  | .singleQuotedString s | .doubleQuotedString s | .nationalStringLiteral s => .ok (.str s)
  | .boolean b => .ok (.bool b)
  | .null => .ok .null
  | .hexStringLiteral s =>
    let cleaned := s.toList.filter fun c => !Timestamp.isWhitespace c
    if Lib.Utf8.byteLen cleaned % 2 ≠ 0 then
      fail s!"hex literal has an odd digit count: x'{s}'"
    else do
      return .bytes (← hexPairs s cleaned)
  | .other text => fail s!"unsupported literal: {text}"

def typedStringValue (ts : TypedString) : Eval Value :=
  if ts.instant then
    match ts.value with
    | .singleQuotedString text | .doubleQuotedString text => do
      match ← parseTimestamp text with
      | some v => return v
      | none => fail s!"bad TIMESTAMP literal '{text}'"
    | other =>
      let shown := lib.displayLiteral other
      fail s!"bad typed literal value: {shown}"
  else
    let shown := ts.dataType
    fail s!"typed literal {shown} is not supported"

/-! ## Operators -/

/-- `-f`: the other sign. -/
def negF64 (f : Binary64) : Binary64 := ⟨f.bits ^^^ BitVec.ofNat 64 (2 ^ 63)⟩

/-- `-d`, but zero for the zeros whose sign would be negative. -/
def negDecimal (d : Decimal) : Decimal :=
  if d.mantissa = 0 ∧ d.neg = false then .ofInt 0 else { d with neg := !d.neg }

def unaryValue (op : UnaryOperator) (negInt : Int64 → Value) (not : Bool) (v : Value) :
    Eval Value :=
  match op, v with
  | .minus, .int i => .ok (negInt i)
  | .minus, .float f => .ok (.float (negF64 f))
  | .minus, .decimal d => .ok (.decimal (negDecimal d))
  | .not, .bool b => if not then .ok (.bool !b) else fail "unsupported unary operand"
  | .not, .null => if not then .ok .null else fail "unsupported unary operand"
  | .bitwiseNot, .int i => .ok (.int (.ofInt (-i.toInt - 1)))
  | _, _ => fail "unsupported unary operand"

/-- `parse::<Decimal>` -/
def parseDecimal (text : List Char) : Option Decimal := lib.parseDecimal (String.ofList text)

/-- A text that is added to a number. -/
def addendNumber (v : Value) : Eval Value :=
  match v with
  | .str s =>
    let text := Timestamp.trim s.toList
    match Json.parseI64 text with
    | some i => .ok (.int i)
    | none =>
      match parseDecimal lib text with
      | some d => .ok (.decimal d)
      | none =>
        let shown := lib.debugText s
        fail s!"cannot convert {shown} to a number for '+'"
  | other => .ok other

def isStr : Value → Bool
  | .str _ => true
  | _ => false

def plusValue (l r : Value) : Eval Value :=
  if isStr l ∧ isStr r then
    .ok (.str (valueToText lib.toLibrary l ++ valueToText lib.toLibrary r))
  else if isStr l ∨ isStr r then
    if isNull l ∨ isNull r then .ok .null
    else do
      let left ← addendNumber lib l
      arith lib.toLibrary left .plus (← addendNumber lib r)
  else
    arith lib.toLibrary l .plus r

def bitwiseOperand : Value → Option Int64
  | .int i => some i
  | .bool b => some (if b then 1 else 0)
  | _ => none

def bitwise (f : Int64 → Int64 → Int64) (l r : Value) : Eval Value :=
  if isNull l ∨ isNull r then .ok .null
  else
    match bitwiseOperand l, bitwiseOperand r with
    | some a, some b => .ok (.int (f a b))
    | _, _ => fail "bitwise operators require integer operands"

/-- A comparison; unknown for a text that is no timestamp beside one. -/
def compareValues (test : Ordering → Bool) (l r : Value) : Eval Value := do
  match ← coerceTimestampOperands l r with
  | none => return .null
  | some p => return .bool (test (cmpValues p.1 p.2))

def andValue : Value → Value → Eval Value
  | .bool a, .bool b => .ok (.bool (a && b))
  | .bool false, .null | .null, .bool false => .ok (.bool false)
  | .bool true, .null | .null, .bool true | .null, .null => .ok .null
  | _, _ => fail "AND requires booleans"

def orValue : Value → Value → Eval Value
  | .bool a, .bool b => .ok (.bool (a || b))
  | .bool true, .null | .null, .bool true => .ok (.bool true)
  | .bool false, .null | .null, .bool false | .null, .null => .ok .null
  | _, _ => fail "OR requires booleans"

def binop (l : Value) (op : BinaryOperator) (r : Value) : Eval Value :=
  match op with
  | .arith .plus => plusValue lib l r
  | .arith op => arith lib.toLibrary l op r
  | .bitwiseOr => bitwise (· ||| ·) l r
  | .bitwiseAnd => bitwise (· &&& ·) l r
  | .bitwiseXor => bitwise (· ^^^ ·) l r
  | .stringConcat =>
    if isNull l ∨ isNull r then .ok .null
    else .ok (.str (valueToText lib.toLibrary l ++ valueToText lib.toLibrary r))
  | .eq => compareValues (· == .eq) l r
  | .notEq => compareValues (· != .eq) l r
  | .lt => compareValues (· == .lt) l r
  | .ltEq => compareValues (· != .gt) l r
  | .gt => compareValues (· == .gt) l r
  | .gtEq => compareValues (· != .lt) l r
  | .and => andValue l r
  | .or => orValue l r
  | .other text => fail s!"unsupported operator: {text}"

/-- `POSITION(needle IN hay)`, counted in characters from one. -/
def positionOf (needle hay : Value) : Eval Value :=
  if isNull needle ∨ isNull hay then .ok .null
  else
    let text := (valueToText lib.toLibrary hay).toList
    match find (valueToText lib.toLibrary needle).toList text with
    | none => .ok (.int 0)
    | some b => do
      let front ← textTo text b
      return .int (.ofInt (front.length + 1))

def valuesEqualNullSafe (a b : Value) : Eval Bool := do return (← cmpCoerced a b) == some .eq

/-! ## Casts -/

def truncToI64 (d : Decimal) : Option Int64 :=
  let n : ℤ := d.mantissa / 10 ^ d.scale
  let signed := if d.neg then -n else n
  if i64Min ≤ signed ∧ signed ≤ i64Max then some (.ofInt signed) else none

def contains (t : String) (part : String) : Bool := decide (part.toList <:+: t.toList)

section Casts

variable (typeName : String)

def castBit : Value → Eval Value
  | .int i => .ok (.bool (i.toInt ≠ 0))
  | .float f => .ok (.bool (f.partialCmp .zero != some .eq))
  | .decimal d => .ok (.bool !d.isZero)
  | .str s => .ok (.bool (s = "1" || s.toList.map Char.toLower = "true".toList))
  | other => .ok other

def castInt : Value → Eval Value
  | .float f =>
    if f.isFinite = false ∨ f.ge twoPow63 ∨ f.lt negTwoPow63 then
      let shown := lib.displayF64 f
      fail s!"cannot CAST {shown} AS {typeName}: out of range"
    else
      .ok (.int f.toI64)
  | .decimal d =>
    match truncToI64 d with
    | some i => .ok (.int i)
    | none =>
      let shown := lib.showDecimal d
      fail s!"cannot CAST {shown} AS {typeName}: out of range"
  | .bool b => .ok (.int (if b then 1 else 0))
  | .timestamp ms => .ok (.int ms)
  | .str s =>
    match Json.parseI64 (Timestamp.trim s.toList) with
    | some i => .ok (.int i)
    | none => fail s!"cannot CAST '{s}' AS {typeName}"
  | .bytes _ => fail s!"cannot CAST a BLOB AS {typeName} (decode it explicitly first)"
  | other => .ok other

def castUndefined (v : Value) : Eval Value :=
  let shown := valueToText lib.toLibrary v
  let kind := Scalar.typeName v
  fail s!"cannot CAST {shown} AS {typeName}: cast from {kind} is not defined"

def castTimestamp : Value → Eval Value
  | .timestamp ms => .ok (.timestamp ms)
  | .int i =>
    if Json.isValidTimestampMs i then .ok (.timestamp i)
    else
      let shown := i.toInt
      fail s!"cannot CAST {shown} AS {typeName}: out of range"
  | .str s => do
    match ← parseTimestamp s with
    | some v => return v
    | none => fail s!"cannot CAST '{s}' AS {typeName}: not a timestamp"
  | other => castUndefined lib typeName other

/-- Midnight of the day. -/
def dayStart (ms : Int64) : Eval Value := do
  return .timestamp (.ofInt (← checked (ms.toInt - ms.toInt % 86400000)))

def castDate : Value → Eval Value
  | .timestamp ms => dayStart ms
  | .str s => do
    match ← parseTimestamp s with
    | some (.timestamp ms) => dayStart ms
    | _ => fail s!"cannot CAST '{s}' AS {typeName}: not a date"
  | other => castUndefined lib typeName other

def castBool : Value → Eval Value
  | .int i => .ok (.bool (i.toInt ≠ 0))
  | .decimal d => .ok (.bool !d.isZero)
  | .str s => .ok (.bool (s = "true"))
  | other => .ok other

def castDecimal : Value → Eval Value
  | .int i => .ok (.decimal (.ofInt i))
  | .float f =>
    match lib.fromF64Retain f with
    | some d => .ok (.decimal d)
    | none =>
      let shown := lib.displayF64 f
      fail s!"cannot CAST {shown} AS {typeName}"
  | .str s =>
    match parseDecimal lib (Timestamp.trim s.toList) with
    | some d => .ok (.decimal d)
    | none => fail s!"cannot CAST '{s}' AS {typeName}"
  | .bytes _ => fail s!"cannot CAST a BLOB AS {typeName} (decode it explicitly first)"
  | other => .ok other

def castReal : Value → Eval Value
  | .int i => .ok (.float (lib.intToF64 i))
  | .decimal d => .ok (.float ((lib.decimalToF64 d).getD Json.nan))
  | .str s =>
    match lib.parseF64 (Timestamp.trim s.toList) with
    | some f => .ok (.float f)
    | none => fail s!"cannot CAST '{s}' AS {typeName}"
  | .bytes _ => fail s!"cannot CAST a BLOB AS {typeName} (decode it explicitly first)"
  | other => .ok other

def castBlob : Value → Eval Value
  | .str s => .ok (.bytes (asBytes s))
  | other => .ok other

/-- A type the engine does not know changes nothing. -/
def castValue (v : Value) : Eval Value :=
  let t := lib.upper typeName
  if isNull v then .ok .null
  else if t = "BIT" then castBit v
  else if contains t "INT" then castInt lib typeName v
  else if contains t "CHAR" ∨ contains t "TEXT" ∨ contains t "STRING" then
    .ok (.str (valueToText lib.toLibrary v))
  else if contains t "TIMESTAMP" ∨ contains t "DATETIME" then castTimestamp lib typeName v
  else if t = "DATE" then castDate lib typeName v
  else if contains t "BOOL" then castBool v
  else if contains t "DECIMAL" ∨ contains t "NUMERIC" then castDecimal lib typeName v
  else if contains t "REAL" ∨ contains t "DOUBLE" ∨ contains t "FLOAT" then
    castReal lib typeName v
  else if contains t "BLOB" ∨ contains t "BYTES" ∨ contains t "BINARY" then castBlob v
  else .ok v

/-- `CAST` and `TRY_CAST`, whose failure is NULL. -/
def castResult (tryCast : Bool) (v : Value) : Eval Value :=
  match tryCast, castValue lib typeName v with
  | true, .error (.error _) => .ok .null
  | _, out => out

end Casts

/-! ## Functions -/

def takesDatepartName (name : String) : Bool :=
  name ∈ ["DATEADD", "DATEDIFF", "DATEDIFF_BIG", "DATEPART", "DATENAME"]

def scalarFn? : String → Option ScalarFn
  | "LOCATE" => some .locate
  | "ABS" => some .abs
  | "ROUND" => some .round
  | "MOD" => some .mod
  | "TRUNCATE" => some .truncate
  | "SUBSTR" => some .substr
  | "SUBSTRING" => some .substring
  | "TRIM" => some (.trim .trim)
  | "LTRIM" => some (.trim .ltrim)
  | "RTRIM" => some (.trim .rtrim)
  | "DECODE" => some .decode
  | "INSTR" => some .instr
  | "LPAD" => some .lpad
  | "RPAD" => some .rpad
  | "GREATEST" => some .greatest
  | "LEAST" => some .least
  | "JSON_EXTRACT" => some .jsonExtract
  | "JSON_TYPE" => some .jsonType
  | _ => none

/-- `scalar_function` by name. -/
def callFunction (name : String) (args : List Value) : Eval Value :=
  match scalarFn? name with
  | some f => scalarFunction lib.toLibrary f args
  | none => lib.otherFunction name args

/-- What `IF` and its kind take for true. -/
def truthy : Value → Bool
  | .bool b => b
  | .int i => i.toInt ≠ 0
  | .float f => f.partialCmp .zero != some .eq
  | .decimal d => !d.isZero
  | .str s =>
    match lib.parseF64 (Timestamp.trim s.toList) with
    | some f => f.partialCmp .zero != some .eq
    | none => false
  | _ => false

/-- `IF`, from the results of its arguments; the branch that is not taken may fail. -/
def ifValue (args : List (Option (Eval Value))) : Eval Value :=
  if args.any Option.isNone then fail "unsupported argument to IF"
  else
    match args with
    | [some condition, some yes, some no] => do
      if truthy lib (← condition) then yes else no
    | _ =>
      let got := args.length
      fail s!"function IF takes exactly 3 arguments, got {got}"

/-- The arguments of a call, from the results of each. -/
def argValues (name : String) : List (Option (Eval Value)) → Eval (List Value)
  | [] => .ok []
  | none :: _ => fail s!"unsupported argument to {name}"
  | some r :: rest => do
    let v ← r
    return v :: (← argValues name rest)

/-- The leading argument of a datepart function, where a bare name stands for itself. -/
def datepartArg (datepart : Bool) (e : SqlExpr) (r : Eval Value) : Eval Value :=
  match datepart, e with
  | true, .identifier i => .ok (.str i.value)
  | _, _ => r

/-- Whether a branch of `CASE` is taken. -/
def caseHit (base : Option Value) (condition : Value) : Eval Bool :=
  match base with
  | some b =>
    if isNull b ∨ isNull condition then .ok false else valuesEqualNullSafe b condition
  | none =>
    match condition with
    | .bool true => .ok true
    | _ => .ok false

/-- `CASE`, from the results of its conditions and branches. -/
def caseBranches (base : Option Value) (orElse : Option (Eval Value)) :
    List (Eval Value × Eval Value) → Eval Value
  | [] => orElse.getD (.ok .null)
  | (condition, result) :: rest => do
    if ← caseHit base (← condition) then result else caseBranches base orElse rest

def caseValue (operand orElse : Option (Eval Value)) (branches : List (Eval Value × Eval Value)) :
    Eval Value :=
  match operand with
  | none => caseBranches none orElse branches
  | some r => do caseBranches (some (← r)) orElse branches

end Docsql.Expr
