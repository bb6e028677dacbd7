import Docsql.Json.Text
import Docsql.Timestamp.Calendar
import Docsql.Lib.Utf8Slice

/-!
# Scalar functions

The built-in functions of `scalar_function` that compute positions, lengths and digits.
Every index, slice and arithmetic step that can stop the program is written out.
-/

namespace Docsql.Scalar

open Docsql.Lib.Utf8

/-! ## Results -/

/-- How a call ends without a value. -/
inductive Stop where
  /-- `Err` with its message. -/
  | error (text : String)
  /-- An index or a slice past the end, or inside a character. -/
  | outOfRange
  /-- Integer or decimal arithmetic. -/
  | overflow
deriving DecidableEq

abbrev Eval := Except Stop

def fail {α : Type} (text : String) : Eval α := .error (.error text)

/-- `xs[i]` -/
def index {α : Type} (xs : List α) (i : ℕ) : Eval α :=
  match xs[i]? with
  | some x => .ok x
  | none => .error .outOfRange

/-- `&xs[lo..hi]` -/
def slice {α : Type} (xs : List α) (lo hi : ℕ) : Eval (List α) :=
  if lo ≤ hi ∧ hi ≤ xs.length then .ok ((xs.take hi).drop lo) else .error .outOfRange

/-- `&s[..n]` of a text, in bytes. -/
def textTo (s : List Char) (n : ℕ) : Eval (List Char) :=
  match takeBytes n s with
  | some front => .ok front
  | none => .error .outOfRange

/-- `&s[n..]` of a text, in bytes. -/
def textFrom (s : List Char) (n : ℕ) : Eval (List Char) :=
  match dropBytes n s with
  | some rest => .ok rest
  | none => .error .outOfRange

def i64Min : ℤ := -2 ^ 63
def i64Max : ℤ := 2 ^ 63 - 1

/-- The result of `i64` arithmetic. -/
def checked (x : ℤ) : Eval ℤ := if i64Min ≤ x ∧ x ≤ i64Max then .ok x else .error .overflow

def saturating (x : ℤ) : ℤ := max i64Min (min x i64Max)

/-- `as usize` -/
def asUsize (x : ℤ) : ℕ := (x % 2 ^ 64).toNat

def clamp (x lo hi : ℤ) : ℤ := max lo (min x hi)

def ofDecimal (d : Option Decimal) : Eval Decimal :=
  match d with
  | some d => .ok d
  | none => .error .overflow

/-! ## Numbers -/

inductive Rounding where
  | midpointAwayFromZero
  | toZero
deriving DecidableEq

namespace Rounding

/-- The integer a magnitude `m / 10 ^ j` is rounded to. -/
def apply : Rounding → ℕ → ℕ → ℕ
  | midpointAwayFromZero, m, j => (2 * m + 10 ^ j) / (2 * 10 ^ j)
  | toZero, m, j => m / 10 ^ j

end Rounding

/-- The formats and the arithmetic of the standard library and of `rust_decimal`. -/
structure Library extends Json.Formats where
  /-- `{f}` -/
  displayF64 : Binary64 → String
  /-- `{f:.1}` -/
  displayF64Tenths : Binary64 → String
  /-- `{v:?}` -/
  debug : Value → String
  intToF64 : Int64 → Binary64
  decimalToF64 : Decimal → Option Binary64
  absF64 : Binary64 → Binary64
  addF64 : Binary64 → Binary64 → Binary64
  subF64 : Binary64 → Binary64 → Binary64
  mulF64 : Binary64 → Binary64 → Binary64
  divF64 : Binary64 → Binary64 → Binary64
  remF64 : Binary64 → Binary64 → Binary64
  /-- `10f64.powi` -/
  powiTen : ℤ → Binary64
  roundF64 : Binary64 → Binary64
  truncF64 : Binary64 → Binary64
  fromF64Retain : Binary64 → Option Decimal
  checkedAdd : Decimal → Decimal → Option Decimal
  checkedSub : Decimal → Decimal → Option Decimal
  checkedMul : Decimal → Decimal → Option Decimal
  checkedDiv : Decimal → Decimal → Option Decimal
  checkedRem : Decimal → Decimal → Option Decimal
  roundDp : Rounding → ℕ → Decimal → Decimal
  /-- Rounded to an integer. -/
  roundDp_zero : ∀ r d, (roundDp r 0 d).scale = 0 ∧
    (roundDp r 0 d).mantissa = r.apply d.mantissa d.scale
  /-- A quotient by a power of ten is exact where it has a representation, and below one
  elsewhere. -/
  div_exact : ∀ (d p : Decimal) (k : ℕ), p.scale = 0 → p.mantissa = 10 ^ k →
    d.scale + k ≤ 28 → ∃ q, checkedDiv d p = some q ∧
      q.mantissa * 10 ^ (d.scale + k) = d.mantissa * 10 ^ q.scale
  div_small : ∀ (d p : Decimal) (k : ℕ), p.scale = 0 → p.mantissa = 10 ^ k → k ≤ 15 →
    28 < d.scale + k → ∃ q, checkedDiv d p = some q ∧ q.mantissa ≤ 10 ^ q.scale
  /-- A product of integers overflows the mantissa or not at all. -/
  mul_integer : ∀ a b : Decimal, a.scale = 0 → b.scale = 0 →
    (checkedMul a b = none ↔ 2 ^ 96 ≤ a.mantissa * b.mantissa)

variable (lib : Library)

/-- The operators panic where the checked methods return `None`. -/
def Library.div (a b : Decimal) : Eval Decimal := ofDecimal (lib.checkedDiv a b)

def Library.mul (a b : Decimal) : Eval Decimal := ofDecimal (lib.checkedMul a b)

/-! ## Values -/

def isNull : Value → Bool
  | .null => true
  | _ => false

def typeName : Value → String
  | .null => "null"
  | .bool _ => "bool"
  | .int _ => "int"
  | .float _ => "float"
  | .decimal _ => "decimal"
  | .timestamp _ => "timestamp"
  | .str _ => "string"
  | .bytes _ => "bytes"
  | .array _ => "array"
  | .object _ => "object"

/-- `x'…'` -/
def showBytes (b : List UInt8) : String :=
  "x'" ++ String.ofList (b.flatMap fun x =>
    [Json.hexChar (x.toNat / 16), Json.hexChar (x.toNat % 16)]) ++ "'"

def valueToText : Value → String
  | .str s => s
  | .int i => String.ofList (Json.showInt i.toInt)
  | .float f =>
    let s := lib.displayF64 f
    if s.toList.any (· ∈ ['.', 'e', 'E']) then s else lib.displayF64Tenths f
  | .decimal d => lib.showDecimal d
  | .bool b => if b then "true" else "false"
  | .null => ""
  | .timestamp ms => Timestamp.formatTimestampMs ms.toInt
  | .bytes b => showBytes b
  | other => lib.debug other

def asF64 : Value → Eval Binary64
  | .int i => .ok (lib.intToF64 i)
  | .float f => .ok f
  | .decimal d => .ok ((lib.decimalToF64 d).getD Json.nan)
  | other =>
    let kind := typeName other
    fail s!"non-numeric operand of type {kind}"

def asDecimal : Value → Eval Decimal
  | .decimal d => .ok d
  | .int i => .ok (.ofInt i)
  | .float f =>
    match lib.fromF64Retain f with
    | some d => .ok d
    | none =>
      let shown := lib.displayF64 f
      fail s!"non-finite float in arithmetic: {shown}"
  | other =>
    let kind := typeName other
    fail s!"non-numeric operand of type {kind}"

/-! ## Comparison -/

def parseTimestamp (s : String) : Eval (Option Value) :=
  match Timestamp.parseTimestampMs s with
  | .ok ms => .ok (some (.timestamp (.ofInt ms)))
  | .error .malformed => .ok none
  | .error .panic => .error .outOfRange

def coerceTimestampOperands (l r : Value) : Eval (Option (Value × Value)) :=
  match l, r with
  | .timestamp t, .str s => do return (← parseTimestamp s).map fun p => (.timestamp t, p)
  | .str s, .timestamp t => do return (← parseTimestamp s).map fun p => (p, .timestamp t)
  | .timestamp _, .int _ | .int _, .timestamp _ | .timestamp _, .decimal _
  | .decimal _, .timestamp _ | .timestamp _, .float _ | .float _, .timestamp _ => .ok none
  | l, r => .ok (some (l, r))

def cmpCoerced (a b : Value) : Eval (Option Ordering) := do
  return (← coerceTimestampOperands a b).map fun p => cmpValues p.1 p.2

/-! ## Arithmetic -/

inductive ArithOp where
  | plus
  | minus
  | multiply
  | divide
  | modulo
deriving DecidableEq

def ArithOp.symbol : ArithOp → String
  | plus => "+"
  | minus => "-"
  | multiply => "*"
  | divide => "/"
  | modulo => "%"

/-- `checked_add` and its kind. -/
def checkedI64 (x : ℤ) : Value :=
  if i64Min ≤ x ∧ x ≤ i64Max then .int (.ofInt x) else .null

/-- A timestamp with a canonical text, or NULL. -/
def shiftedTimestamp (ms : ℤ) : Value :=
  if Json.timestampMinMs ≤ ms ∧ ms ≤ Json.timestampMaxMs then .timestamp (.ofInt ms) else .null

def timestampArith (op : ArithOp) (l r : Value) : Eval Value :=
  match op, l, r with
  | .plus, .timestamp t, .int n | .plus, .int n, .timestamp t =>
    .ok (shiftedTimestamp (t.toInt + n.toInt))
  | .minus, .timestamp t, .int n => .ok (shiftedTimestamp (t.toInt - n.toInt))
  | .minus, .timestamp a, .timestamp b => .ok (checkedI64 (a.toInt - b.toInt))
  | _, _, _ =>
    fail "timestamp arithmetic: TIMESTAMP ± INTEGER (ms) or TIMESTAMP - TIMESTAMP"

def decimalArith (op : ArithOp) (a b : Decimal) : Value :=
  let out := match op with
    | .plus => lib.checkedAdd a b
    | .minus => lib.checkedSub a b
    | .multiply => lib.checkedMul a b
    | .divide => lib.checkedDiv a b
    | .modulo => lib.checkedRem a b
  match out with
  | some d => .decimal d
  | none => .null

def floatArith (op : ArithOp) (a b : Binary64) : Value :=
  let zero := b.partialCmp .zero == some .eq
  match op with
  | .plus => .float (lib.addF64 a b)
  | .minus => .float (lib.subF64 a b)
  | .multiply => .float (lib.mulF64 a b)
  | .divide => if zero then .null else .float (lib.divF64 a b)
  | .modulo => if zero then .null else .float (lib.remF64 a b)

def intArith (op : ArithOp) (a b : ℤ) : Value :=
  match op with
  | .plus => checkedI64 (a + b)
  | .minus => checkedI64 (a - b)
  | .multiply => checkedI64 (a * b)
  | .divide => if b = 0 then .null else checkedI64 (a.tdiv b)
  | .modulo =>
    -- `checked_rem` refuses the quotient that overflows
    if b = 0 ∨ a = i64Min ∧ b = -1 then .null else checkedI64 (a.tmod b)

def isTimestamp : Value → Bool
  | .timestamp _ => true
  | _ => false

def isDecimal : Value → Bool
  | .decimal _ => true
  | _ => false

def isFloat : Value → Bool
  | .float _ => true
  | _ => false

def arith (l : Value) (op : ArithOp) (r : Value) : Eval Value :=
  if isNull l ∨ isNull r then .ok .null
  else if isTimestamp l ∨ isTimestamp r then timestampArith op l r
  else if isDecimal l ∨ isDecimal r then do
    return decimalArith lib op (← asDecimal lib l) (← asDecimal lib r)
  else if isFloat l ∨ isFloat r then do
    return floatArith lib op (← asF64 lib l) (← asF64 lib r)
  else
    match l, r with
    | .int a, .int b => .ok (intArith op a.toInt b.toInt)
    | l, r =>
      let left := typeName l
      let right := typeName r
      let sign := op.symbol
      fail s!"non-numeric operands: {left} {sign} {right}"

/-! ## Arguments -/

def arg (args : List Value) (i : ℕ) (name : String) : Eval Value :=
  match args[i]? with
  | some v => .ok v
  | none =>
    let place := i + 1
    fail s!"function {name} requires argument {place}"

def exactArity (name : String) (args : List Value) (n : ℕ) : Eval Unit :=
  let got := args.length
  if got ≠ n then fail s!"function {name} takes exactly {n} argument(s), got {got}" else .ok ()

def arityBetween (name range : String) (args : List Value) (lo hi : ℕ) : Eval Unit :=
  let got := args.length
  if got < lo ∨ hi < got then fail s!"function {name} takes {range} arguments, got {got}"
  else .ok ()

/-- An integer argument, or the default for any other and for none. -/
def intArg (args : List Value) (i : ℕ) (default : ℤ) : ℤ :=
  match args[i]? with
  | some (.int n) => n.toInt
  | _ => default

/-! ## Text -/

/-- `str::find`: the byte offset of the first occurrence. -/
def find (needle : List Char) : List Char → Option ℕ
  | [] => if needle = [] then some 0 else none
  | c :: cs =>
    if needle <+: c :: cs then some 0 else (find needle cs).map (c.utf8Size + ·)

/-- `str::find` with a set of characters. -/
def findChar (p : Char → Bool) : List Char → Option ℕ
  | [] => none
  | c :: cs => if p c then some 0 else (findChar p cs).map (c.utf8Size + ·)

/-- The third argument of `LOCATE`. -/
def locateStart : Option Value → Eval ℤ
  | none => .ok 1
  | some (.int n) => .ok n.toInt
  | some other =>
    let kind := typeName other
    fail s!"function LOCATE: start must be an integer, got {kind}"

/-- The place of the first occurrence behind `skip` characters. -/
def locateFrom (needle hay : List Char) (skip : ℤ) : Eval ℤ :=
  if (hay.length : ℤ) < skip then
    .ok 0
  else do
    let tail ← slice hay (asUsize skip) hay.length
    match find needle tail with
    | none => .ok 0
    | some b => do
      let front ← textTo tail b
      checked ((← checked (skip + front.length)) + 1)

def locate (args : List Value) : Eval Value :=
  let got := args.length
  if got < 2 ∨ 3 < got then
    fail s!"function LOCATE takes 2 or 3 arguments, got {got}"
  else if args.any isNull then
    .ok .null
  else do
    let needle := valueToText lib (← arg args 0 "LOCATE")
    let hay := valueToText lib (← arg args 1 "LOCATE")
    let start ← locateStart args[2]?
    return .int (.ofInt (← locateFrom needle.toList hay.toList (saturating (start - 1))))

/-- Where the characters begin and how many they are, of a text with `n` characters. -/
def substrStart (n y z : ℤ) : Eval (ℤ × ℤ) :=
  if y < 0 then do
    let b0 ← checked (n + y)
    if b0 < 0 then do
      let take ← checked (z + b0)
      pure (0, take)
    else
      pure (b0, z)
  else if 0 < y then do
    let b ← checked (y - 1)
    pure (b, z)
  else do
    let take ← checked (z - 1)
    pure (0, take)

/-- A negative length takes the characters in front. -/
def substrEnds (b take : ℤ) : Eval (ℤ × ℤ) :=
  if take < 0 then do
    let e ← checked (b + take)
    pure (max e 0, max b 0)
  else
    pure (max b 0, saturating (b + take))

def substrChars (s : List Char) (y z : ℤ) : Eval (List Char) := do
  let n : ℤ := s.length
  let start ← substrStart n y z
  let ends ← substrEnds start.1 start.2
  let lo := (clamp ends.1 0 n).toNat
  let hi := (clamp ends.2 0 n).toNat
  if lo < hi then slice s lo hi else pure []

/-- `SUBSTR` and `SUBSTRING`. -/
def substr (name : String) (args : List Value) : Eval Value := do
  arityBetween name "1 to 3" args 1 3
  let v ← arg args 0 name
  if isNull v then
    return .null
  else
    let s := (valueToText lib v).toList
    return .str (String.ofList (← substrChars s (intArg args 1 1) (intArg args 2 i64Max)))

inductive TrimFn where
  | trim
  | ltrim
  | rtrim
deriving DecidableEq

def TrimFn.name : TrimFn → String
  | trim => "TRIM"
  | ltrim => "LTRIM"
  | rtrim => "RTRIM"

def trimFn (f : TrimFn) (args : List Value) : Eval Value := do
  exactArity f.name args 1
  let v ← arg args 0 f.name
  if isNull v then
    return .null
  else
    let text := (valueToText lib v).toList
    return .str (String.ofList (match f with
      | .trim => Timestamp.trim text
      | .ltrim => text.dropWhile Timestamp.isWhitespace
      | .rtrim => (text.reverse.dropWhile Timestamp.isWhitespace).reverse))

def instr (args : List Value) : Eval Value := do
  exactArity "INSTR" args 2
  if args.any isNull then
    return .null
  else
    match ← arg args 0 "INSTR", ← arg args 1 "INSTR" with
    | .str hay, .str needle =>
      match find needle.toList hay.toList with
      | none => return .int 0
      | some b =>
        let front ← textTo hay.toList b
        return .int (.ofInt (front.length + 1))
    | _, _ => fail "function INSTR requires text arguments"

/-- `MAX_PAD_LENGTH` -/
def maxPadLength : ℕ := 2 ^ 20

/-- The characters the padding is made of. -/
def padding (fill : List Char) : ℕ → Eval (List Char)
  | 0 => .ok []
  | need + 1 => do
    let front ← padding fill need
    return front ++ [← index fill (need % fill.length)]

def padName (left : Bool) : String := if left then "LPAD" else "RPAD"

def padLength (name : String) : Value → Eval ℕ
  | .int n =>
    if 0 ≤ n.toInt then .ok n.toInt.toNat
    else
      let shown := n.toInt
      fail s!"function {name}: length must be non-negative ({shown})"
  | _ => fail s!"function {name}: length must be an integer"

/-- The characters to pad with: a space unless the argument is a text with characters. -/
def padFill : Option Value → List Char
  | some (.str p) => if p.toList = [] then [' '] else p.toList
  | _ => [' ']

def padChars (left : Bool) (chars fill : List Char) (len : ℕ) : Eval (List Char) :=
  if len ≤ chars.length then
    slice chars 0 len
  else do
    let out ← padding fill (len - chars.length)
    pure (if left then out ++ chars else chars ++ out)

/-- `LPAD` and `RPAD`. -/
def pad (left : Bool) (args : List Value) : Eval Value := do
  arityBetween (padName left) "2 or 3" args 2 3
  if args.any isNull then
    return .null
  else
    match ← arg args 0 (padName left) with
    | .str s =>
      let len ← padLength (padName left) (← arg args 1 (padName left))
      if maxPadLength < len then
        let name := padName left
        fail s!"function {name}: length exceeds the supported maximum ({maxPadLength})"
      else
        return .str (String.ofList (← padChars left s.toList (padFill args[2]?) len))
    | _ =>
      let name := padName left
      fail s!"function {name} requires a text argument"

/-! ## Numbers -/

def abs (args : List Value) : Eval Value := do
  exactArity "ABS" args 1
  match ← arg args 0 "ABS" with
  | .int i => return .int (.ofInt (← checked |i.toInt|))
  | .float f => return .float (lib.absF64 f)
  | .decimal d => return .decimal { d with neg := false }
  | .null => return .null
  | other =>
    let shown := lib.debug other
    fail s!"ABS of non-numeric: {shown}"

/-- The exponent of `10i64.checked_pow((-digits).min(15))`. -/
def shiftOf (digits : ℤ) : ℕ := min (-digits).toNat 15

/-- A power of ten that fits an `i64`. -/
def powerOfTen (k : ℕ) : Decimal := .ofInt (.ofInt (10 ^ k))

/-- Rounds at a power of ten: divide, round to an integer, multiply back. -/
def roundAt (r : Rounding) (d : Decimal) (k : ℕ) : Eval Decimal := do
  let shift := powerOfTen k
  lib.mul (lib.roundDp r 0 (← lib.div d shift)) shift

/-- A decimal at a number of digits, behind the point or in front of it. -/
def roundDecimal (r : Rounding) (d : Decimal) (digits : ℤ) : Eval Decimal :=
  if 0 ≤ digits then .ok (lib.roundDp r (min digits.toNat 28) d)
  else roundAt lib r d (shiftOf digits)

/-- The second argument of `ROUND`, kept in a range. -/
def roundDigits (hi : ℤ) : Option Value → ℤ
  | some (.int n) => clamp n.toInt (-15) hi
  | _ => 0

def round (args : List Value) : Eval Value := do
  arityBetween "ROUND" "1 or 2" args 1 2
  match ← arg args 0 "ROUND" with
  | .null => return .null
  | .decimal d =>
    return .decimal
      (← roundDecimal lib .midpointAwayFromZero d (roundDigits 28 args[1]?))
  | v =>
    let x ← asF64 lib v
    let m := lib.powiTen (roundDigits 15 args[1]?)
    return .float (lib.divF64 (lib.roundF64 (lib.mulF64 x m)) m)

def modulo (args : List Value) : Eval Value := do
  exactArity "MOD" args 2
  arith lib (← index args 0) .modulo (← index args 1)

def truncateDigits : Value → Eval ℤ
  | .int n => .ok (clamp n.toInt (-15) 28)
  | other =>
    let kind := typeName other
    fail s!"function TRUNCATE: digits must be an integer, got {kind}"

def truncateInt (i : Int64) (digits : ℤ) : Eval Value :=
  if 0 ≤ digits then
    .ok (.int i)
  else do
    let shift : ℤ := 10 ^ shiftOf digits
    let cut ← checked (i.toInt.tdiv shift)
    return .int (.ofInt (← checked (cut * shift)))

def truncate (args : List Value) : Eval Value := do
  exactArity "TRUNCATE" args 2
  let v ← arg args 0 "TRUNCATE"
  let digits ← truncateDigits (← arg args 1 "TRUNCATE")
  match v with
  | .null => return .null
  | .int i => truncateInt i digits
  | .decimal d => return .decimal (← roundDecimal lib .toZero d digits)
  | .float f =>
    let m := lib.powiTen digits
    return .float (lib.divF64 (lib.truncF64 (lib.mulF64 f m)) m)
  | other =>
    let kind := typeName other
    fail s!"TRUNCATE of non-numeric: {kind}"

/-! ## Choices -/

/-- Whether `DECODE` takes a search value for its expression. -/
def decodeMatches (expr s : Value) : Eval Bool :=
  match expr, s with
  | .null, .null => .ok true
  | .null, _ | _, .null => .ok false
  | a, b => do return (← cmpCoerced a b) == some .eq

/-- The loop over searches and results, `i` being the next search. -/
def decodeLoop (args : List Value) (expr : Value) : ℕ → ℕ → Eval (Option Value)
  | 0, _ => .ok none
  | n + 1, i =>
    if i + 1 < args.length then do
      if ← decodeMatches expr (← index args i) then
        return some (← index args (i + 1))
      else
        decodeLoop args expr n (i + 2)
    else
      .ok none

def decode (args : List Value) : Eval Value := do
  let got := args.length
  if got < 3 then
    fail s!"function DECODE takes at least 3 arguments, got {got}"
  else
    match ← decodeLoop args (← index args 0) got 1 with
    | some v => return v
    | none => if got % 2 = 0 then index args (got - 1) else return .null

/-- The greatest or the least of `best` and the values, the first of those that tie. -/
def extremumLoop (want : Ordering) : Value → List Value → Eval Value
  | best, [] => .ok best
  | best, v :: vs => do
    let o := (← cmpCoerced v best).getD (cmpValues v best)
    extremumLoop want (if o = want then v else best) vs

/-- `GREATEST` and `LEAST`. -/
def extremum (greatest : Bool) (args : List Value) : Eval Value := do
  if args = [] then
    let name := if greatest then "GREATEST" else "LEAST"
    fail s!"function {name} requires at least 1 argument"
  else if args.any isNull then
    return .null
  else
    extremumLoop (if greatest then .gt else .lt) (← index args 0)
      (← slice args 1 args.length)

/-! ## JSON -/

/-- `parse::<usize>` -/
def parseUsize (text : List Char) : Option ℕ :=
  let digits := match text with
    | '+' :: rest => rest
    | _ => text
  if digits ≠ [] ∧ digits.all Char.isDigit ∧ Lib.Digits.ofDigits digits < 2 ^ 64 then
    some (Lib.Digits.ofDigits digits)
  else
    none

/-- The steps of a path from a value on. -/
def lookupLoop : ℕ → Value → List Char → Eval (Option Value)
  | 0, cur, _ => .ok (some cur)
  | _ + 1, cur, [] => .ok (some cur)
  | n + 1, cur, c :: stripped =>
    if c = '.' then do
      let stop := (findChar (fun d => d = '.' || d = '[') stripped).getD (byteLen stripped)
      let key ← textTo stripped stop
      if key = [] then
        return none
      else
        match cur with
        | .object fields =>
          match fields.lookup (String.ofList key) with
          | some v => lookupLoop n v (← textFrom stripped stop)
          | none => return none
        | _ => return none
    else if c = '[' then
      match findChar (· = ']') stripped with
      | none => .ok none
      | some stop => do
        match parseUsize (← textTo stripped stop) with
        | none => return none
        | some idx =>
          match cur with
          | .array items =>
            match items[idx]? with
            | some v => lookupLoop n v (← textFrom stripped (stop + 1))
            | none => return none
          | _ => return none
    else
      .ok none

def jsonPathLookup (root : Value) (path : String) : Eval (Option Value) := do
  let p := Timestamp.trim path.toList
  if p.head? = some '$' then
    let rest ← textFrom p 1
    lookupLoop rest.length root rest
  else
    return none

def jsonTypeName : Value → String
  | .null => "null"
  | .bool _ => "boolean"
  | .int _ => "integer"
  | .float _ => "real"
  | .decimal _ => "real"
  | .timestamp _ => "timestamp"
  | .str _ => "text"
  | .bytes _ => "blob"
  | .array _ => "array"
  | .object _ => "object"

/-- What the path argument selects. -/
def jsonTarget (name : String) (parsed : Value) (args : List Value) : Eval (Option Value) :=
  if args.length = 2 then do
    match ← arg args 1 name with
    | .str path => jsonPathLookup parsed path
    | _ => fail s!"function {name} path must be text"
  else
    .ok (some parsed)

/-- `JSON_EXTRACT`, and `JSON_TYPE` of what it finds. -/
def jsonFn (wantType : Bool) (args : List Value) : Eval Value := do
  let name := if wantType then "JSON_TYPE" else "JSON_EXTRACT"
  arityBetween name "1 or 2" args 1 2
  match ← arg args 0 name with
  | .str text =>
    match Json.fromText lib.toFormats text with
    | .error _ => return .null
    | .ok parsed =>
      match ← jsonTarget name parsed args with
      | none => return .null
      | some v => return if wantType then .str (jsonTypeName v) else v
  | _ => return .null

/-! ## Dispatch -/

inductive ScalarFn where
  | locate
  | instr
  | substr
  | substring
  | lpad
  | rpad
  | abs
  | round
  | truncate
  | mod
  | trim (f : TrimFn)
  | decode
  | greatest
  | least
  | jsonExtract
  | jsonType
deriving DecidableEq

def scalarFunction : ScalarFn → List Value → Eval Value
  | .locate => locate lib
  | .instr => instr
  | .substr => substr lib "SUBSTR"
  | .substring => substr lib "SUBSTRING"
  | .lpad => pad true
  | .rpad => pad false
  | .abs => abs lib
  | .round => round lib
  | .truncate => truncate lib
  | .mod => modulo lib
  | .trim f => trimFn lib f
  | .decode => decode
  | .greatest => extremum true
  | .least => extremum false
  | .jsonExtract => jsonFn lib false
  | .jsonType => jsonFn lib true

end Docsql.Scalar
