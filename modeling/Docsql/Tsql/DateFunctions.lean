import Docsql.Expr.Syntax

/-!
# T-SQL date functions

The date family of `scalar_impl` (`tsql.rs`) with its calendar arithmetic on `i64`.  Every
operation the source leaves unchecked is a step that may overflow.
-/

namespace Docsql.Tsql

open Docsql.Scalar (Eval Stop fail index checked saturating i64Min i64Max typeName valueToText)
open Docsql.Json (timestampMinMs timestampMaxMs isValidTimestampMs)
open Docsql.Expr (Library)

/-! ## Calendar -/

/-- `days_from_civil` -/
def daysFromCivil (y : ℤ) (m d : ℕ) : Eval ℤ := do
  let y ← (if m ≤ 2 then checked (y - 1) else pure y)
  let shifted ← (if 0 ≤ y then pure y else checked (y - 399))
  let era := shifted.tdiv 400
  let yoe := (← checked (y - (← checked (era * 400)))).toNat
  let mp := if 2 < m then m - 3 else m + 9
  let doy := (153 * mp + 2) / 5 + d - 1
  let doe := yoe * 365 + yoe / 4 - yoe / 100 + doy
  checked ((← checked ((← checked (era * 146097)) + doe)) - 719468)

/-- `civil_from_days` -/
def civilFromDays (z : ℤ) : Eval (ℤ × ℕ × ℕ) := do
  let z ← checked (z + 719468)
  let shifted ← (if 0 ≤ z then pure z else checked (z - 146096))
  let era := shifted.tdiv 146097
  let doe := (← checked (z - (← checked (era * 146097)))).toNat
  let yoe := (doe - doe / 1460 + doe / 36524 - doe / 146096) / 365
  let y ← checked (yoe + (← checked (era * 400)))
  let doy := doe - (365 * yoe + yoe / 4 - yoe / 100)
  let mp := (5 * doy + 2) / 153
  let d := doy - (153 * mp + 2) / 5 + 1
  let m := if mp < 10 then mp + 3 else mp - 9
  let y ← (if m ≤ 2 then checked (y + 1) else pure y)
  pure (y, m, d)

inductive DatePart where
  | year
  | quarter
  | month
  | dayOfYear
  | day
  | week
  | weekday
  | hour
  | minute
  | second
  | millisecond
  | microsecond
  | nanosecond
deriving DecidableEq

/-- The names and abbreviations of a part. -/
def DatePart.names : List (DatePart × List String) :=
  [(.year, ["year", "yy", "yyyy"]), (.quarter, ["quarter", "qq", "q"]),
    (.month, ["month", "mm", "m"]), (.dayOfYear, ["dayofyear", "dy", "y"]),
    (.day, ["day", "dd", "d"]), (.week, ["week", "wk", "ww"]), (.weekday, ["weekday", "dw"]),
    (.hour, ["hour", "hh"]), (.minute, ["minute", "mi", "n"]), (.second, ["second", "ss", "s"]),
    (.millisecond, ["millisecond", "ms"]), (.microsecond, ["microsecond", "mcs"]),
    (.nanosecond, ["nanosecond", "ns"])]

/-- An instant taken apart; weeks begin on Sunday, its day 1. -/
structure TsParts where
  year : ℤ
  month : ℤ
  day : ℤ
  hour : ℤ
  minute : ℤ
  second : ℤ
  millisecond : ℤ
  doy : ℤ
  weekday : ℤ
  days : ℤ

def tsParts (ms : ℤ) : Eval TsParts := do
  let secs := ms / 1000
  let days := secs / 86400
  let rem := secs % 86400
  let (year, month, day) ← civilFromDays days
  let doy ← checked ((← checked (days - (← daysFromCivil year 1 1))) + 1)
  let weekday ← checked ((← checked (days + 4)) % 7 + 1)
  pure { year, month, day, hour := rem / 3600, minute := rem % 3600 / 60, second := rem % 60,
         millisecond := ms % 1000, doy, weekday, days }

def dateOvf {α : Type} : Eval α := fail "date arithmetic overflow"

/-- `checked_add` -/
def add64 (a b : ℤ) : Eval ℤ := if i64Min ≤ a + b ∧ a + b ≤ i64Max then .ok (a + b) else dateOvf

/-- `checked_mul` -/
def mul64 (a b : ℤ) : Eval ℤ := if i64Min ≤ a * b ∧ a * b ≤ i64Max then .ok (a * b) else dateOvf

/-- The instant of the parts of a date and a time of day. -/
def msFromParts (year month day hour minute second millisecond : ℤ) : Eval ℤ :=
  if ¬(1 ≤ month ∧ month ≤ 12) then
    fail s!"month {month} out of range"
  else if ¬(0 ≤ hour ∧ hour ≤ 23) ∨ ¬(0 ≤ minute ∧ minute ≤ 59) ∨
      ¬(0 ≤ second ∧ second ≤ 59) then
    fail "time component out of range"
  else if ¬(0 ≤ millisecond ∧ millisecond ≤ 999) then
    fail "millisecond component out of range"
  else if ¬(1 ≤ day ∧ day ≤ 31) then
    fail s!"day {day} out of range"
  else do
    let days ← daysFromCivil year month.toNat day.toNat
    if (← civilFromDays days) ≠ (year, month.toNat, day.toNat) then
      fail s!"day {day} does not exist in month {month}"
    else do
      let clock ← checked (hour * 3600 + minute * 60 + second)
      let secs ← add64 (← mul64 days 86400) clock
      let ms ← add64 (← mul64 secs 1000) millisecond
      if ¬(timestampMinMs ≤ ms ∧ ms ≤ timestampMaxMs) then
        fail "date out of the supported range (0001-01-01..9999-12-31)"
      else
        pure ms

def daysInMonth (year month : ℤ) : ℤ :=
  if month ∈ [1, 3, 5, 7, 8, 10, 12] then 31
  else if month ∈ [4, 6, 9, 11] then 30
  else if (year.tmod 4 = 0 ∧ year.tmod 100 ≠ 0) ∨ year.tmod 400 = 0 then 29
  else 28

/-! ## Arithmetic on instants -/

/-- The months of a part that counts months. -/
def DatePart.months : DatePart → Option ℤ
  | .year => some 12
  | .quarter => some 3
  | .month => some 1
  | _ => none

/-- Some months on; a day that its month does not have is the last day. -/
def addMonths (p : TsParts) (n step : ℤ) : Eval ℤ := do
  let total ← add64 (← add64 (← mul64 p.year 12) (← checked (p.month - 1))) (← mul64 n step)
  let y := total / 12
  let m := total % 12 + 1
  msFromParts y m (min p.day (daysInMonth y m)) p.hour p.minute p.second p.millisecond

def addUnits (ms n unit : ℤ) : Eval ℤ := do add64 ms (← mul64 n unit)

def addDays (ms n step : ℤ) : Eval ℤ := do add64 ms (← mul64 (← mul64 n step) 86400000)

def dateadd (part : DatePart) (n ms : ℤ) : Eval ℤ := do
  let p ← tsParts ms
  let out ← (match part with
    | .year => addMonths p n 12
    | .quarter => addMonths p n 3
    | .month => addMonths p n 1
    | .day | .dayOfYear | .weekday => addDays ms n 1
    | .week => addDays ms n 7
    | .hour => addUnits ms n 3600000
    | .minute => addUnits ms n 60000
    | .second => addUnits ms n 1000
    | .millisecond => add64 ms n
    | .microsecond => add64 ms (n / 1000)
    | .nanosecond => add64 ms (n / 1000000))
  if ¬(timestampMinMs ≤ out ∧ out ≤ timestampMaxMs) then
    fail "DATEADD result out of the supported timestamp range"
  else
    pure out

def datepartValue (part : DatePart) (ms : ℤ) : Eval ℤ := do
  let p ← tsParts ms
  match part with
  | .year => pure p.year
  | .quarter => pure ((p.month - 1) / 3 + 1)
  | .month => pure p.month
  | .dayOfYear => pure p.doy
  | .day => pure p.day
  | .week => do
    let jan1Wd := (← checked (p.days - (p.doy - 1) + 4)) % 7
    pure ((p.doy - 1 + jan1Wd) / 7 + 1)
  | .weekday => pure p.weekday
  | .hour => pure p.hour
  | .minute => pure p.minute
  | .second => pure p.second
  | .millisecond => pure p.millisecond
  | .microsecond => checked (p.millisecond * 1000)
  | .nanosecond => checked (p.millisecond * 1000000)

/-- The Sunday a week begins with. -/
def TsParts.sunday (p : TsParts) : ℤ := p.days - (p.weekday - 1)

/-- The boundaries crossed from one instant to the other. -/
def datediff (part : DatePart) (a b : ℤ) : Eval ℤ := do
  let pa ← tsParts a
  let pb ← tsParts b
  match part with
  | .year => checked (pb.year - pa.year)
  | .quarter =>
    checked ((pb.year * 4 + (pb.month - 1) / 3) - (pa.year * 4 + (pa.month - 1) / 3))
  | .month => checked ((pb.year * 12 + pb.month) - (pa.year * 12 + pa.month))
  | .day | .dayOfYear | .weekday => checked (pb.days - pa.days)
  | .week => do return (← checked (pb.sunday - pa.sunday)).tdiv 7
  | .hour => checked (b / 3600000 - a / 3600000)
  | .minute => checked (b / 60000 - a / 60000)
  | .second => checked (b / 1000 - a / 1000)
  | .millisecond => checked (b - a)
  | .microsecond => do mul64 (← checked (b - a)) 1000
  | .nanosecond => do mul64 (← checked (b - a)) 1000000

/-! ## Arguments -/

variable (lib : Library)

def textArg : Value → Option String
  | .null => none
  | other => some (valueToText lib.toLibrary other)

def datepartCode (name : String) : Eval DatePart :=
  let lower := String.ofList ((Timestamp.trim name.toList).map Char.toLower)
  match DatePart.names.find? fun p => lower ∈ p.2 with
  | some p => .ok p.1
  | none =>
    let shown := lib.debugText lower
    fail s!"unknown datepart {shown}"

/-- An instant; `none` for NULL. -/
def tsArg (v : Value) (fnName : String) : Eval (Option ℤ) :=
  match v with
  | .null => .ok none
  | .timestamp ms => .ok (some ms.toInt)
  | .int ms =>
    if isValidTimestampMs ms then .ok (some ms.toInt)
    else
      let shown := ms.toInt
      fail s!"cannot interpret {shown} as a timestamp in {fnName}: out of range"
  | .str s =>
    match Timestamp.parseTimestampMs s with
    | .ok ms => .ok (some ms)
    | .error .malformed =>
      let shown := lib.debugText s
      fail s!"cannot convert string {shown} to a date/time value in {fnName}"
    | .error .panic => .error .outOfRange
  | other =>
    let kind := typeName other
    fail s!"{fnName} requires a date/time value, got {kind}"

/-- An integer; `none` for NULL. -/
def intArg (v : Value) (fnName : String) (arg : ℕ) : Eval (Option ℤ) :=
  match v with
  | .null => .ok none
  | .int i => .ok (some i.toInt)
  | other =>
    let place := arg + 1
    let kind := typeName other
    fail s!"function {fnName}: argument {place} must be an integer, got {kind}"

def threeArgDate (args : List Value) (name : String) (f : DatePart → ℤ → ℤ → Eval Value) :
    Eval Value :=
  match args with
  | [p, a, b] =>
    match textArg lib p with
    | none => pure .null
    | some pname => do
      let part ← datepartCode lib pname
      match ← intArg a name 1, ← tsArg lib b name with
      | some a, some b => f part a b
      | _, _ => pure .null
  | _ => fail s!"function {name} takes 3 arguments (datepart, number, date)"

def twoArgDatepart (args : List Value) (name : String) (f : DatePart → ℤ → Eval Value) :
    Eval Value :=
  match args with
  | [p, v] =>
    match textArg lib p with
    | none => pure .null
    | some pname => do
      let part ← datepartCode lib pname
      match ← tsArg lib v name with
      | some ms => f part ms
      | none => pure .null
  | _ => fail s!"function {name} takes 2 arguments (datepart, date)"

/-! ## Dates from parts -/

def eomonth (v : Value) (months : ℤ) : Eval Value := do
  match ← tsArg lib v "EOMONTH" with
  | none => pure .null
  | some ms => do
    let p ← tsParts ms
    let total ← add64 (← add64 (← mul64 p.year 12) (← checked (p.month - 1))) months
    let y := total / 12
    let m := total % 12 + 1
    return .timestamp (.ofInt (← msFromParts y m (daysInMonth y m) 0 0 0 0))

/-- The parts in their order; a slot that is not there is zero, and NULL ends the call. -/
def readParts (name : String) (args : List Value) : List (Option ℕ) → Eval (Option (List ℤ))
  | [] => .ok (some [])
  | none :: slots => do return (← readParts name args slots).map (0 :: ·)
  | some slot :: slots =>
    match args[slot]? with
    | some (.int n) => do return (← readParts name args slots).map (n.toInt :: ·)
    | none | some .null => .ok none
    | some other =>
      let place := slot + 1
      let kind := typeName other
      fail s!"function {name}: part {place} must be an integer, got {kind}"

/-- The argument slots of year, month and day. -/
def dateSlots : List (Option ℕ) := [some 0, some 1, some 2]

/-- A function of seven parts, at a list of them. -/
def ofParts {α : Type} (f : ℤ → ℤ → ℤ → ℤ → ℤ → ℤ → ℤ → α) (parts : List ℤ) : α :=
  f (parts.getD 0 0) (parts.getD 1 0) (parts.getD 2 0) (parts.getD 3 0) (parts.getD 4 0)
    (parts.getD 5 0) (parts.getD 6 0)

def fromPartsCall (name : String) (args : List Value) (slots : List (Option ℕ)) : Eval Value :=
  let want := 3 + slots.countP Option.isSome
  if args.length ≠ want then
    let got := args.length
    fail s!"function {name} takes exactly {want} arguments, got {got}"
  else do
    match ← readParts name args (dateSlots ++ slots) with
    | none => pure .null
    | some parts => return .timestamp (.ofInt (← ofParts msFromParts parts))

/-- The digits a fraction of a second has. -/
def fracPrecision (args : List Value) (precIdx : ℕ) : ℕ :=
  match args[precIdx]? with
  | some (.int p) => if 0 ≤ p.toInt ∧ p.toInt ≤ 7 then p.toInt.toNat else 7
  | _ => 7

/-- The fraction of the second in milliseconds; `none` for NULL. -/
def fracToMs (name : String) (args : List Value) (precIdx : ℕ) : Eval (Option ℤ) :=
  match (args[6]? : Option Value) with
  | none | some .null => .ok none
  | some v => do
    match ← intArg v name 6 with
    | none => pure none
    | some frac =>
      if frac < 0 then
        fail s!"function {name}: fractions cannot be negative"
      else
        pure (some ((saturating (frac * 1000)).tdiv (10 ^ fracPrecision args precIdx)))

def smalldatetimeFromParts (name : String) (args : List Value) : Eval Value :=
  match args with
  | [y, m, d, h, mi, s] => do
    match ← intArg s name 5 with
    | none => pure .null
    | some secs => do
      match ← intArg mi name 4 with
      | none => pure .null
      | some n => do
        let minute ← checked (n + if 30 ≤ secs then 1 else 0)
        fromPartsCall name [y, m, d, h, .int (.ofInt minute)] [some 3, some 4, none, none]
  | _ =>
    let got := args.length
    fail s!"function {name} takes exactly 6 arguments, got {got}"

/-- With a fraction in the seventh place; its precision stands in the place `minArgs`. -/
def datetime2FromParts (name : String) (minArgs : ℕ) (args : List Value) : Eval Value :=
  if args.length < minArgs then
    fail s!"function {name} takes at least {minArgs} arguments"
  else do
    match ← fracToMs name args minArgs with
    | none => pure .null
    | some fracMs => do
      match ← fromPartsCall name (args.take 6) [some 3, some 4, some 5, none] with
      | .timestamp ms => return .timestamp (.ofInt (← add64 ms.toInt fracMs))
      | other => pure other

/-! ## The family -/

inductive DateFn where
  | dateadd
  | datediff
  | datediffBig
  | datepart
  | datename
  | eomonth
  | dateFromParts
  | datetimeFromParts
  | smalldatetimeFromParts
  | datetime2FromParts
  | datetimeoffsetFromParts
deriving DecidableEq

def DateFn.name : DateFn → String
  | dateadd => "DATEADD"
  | datediff => "DATEDIFF"
  | datediffBig => "DATEDIFF_BIG"
  | datepart => "DATEPART"
  | datename => "DATENAME"
  | eomonth => "EOMONTH"
  | dateFromParts => "DATEFROMPARTS"
  | datetimeFromParts => "DATETIMEFROMPARTS"
  | smalldatetimeFromParts => "SMALLDATETIMEFROMPARTS"
  | datetime2FromParts => "DATETIME2FROMPARTS"
  | datetimeoffsetFromParts => "DATETIMEOFFSETFROMPARTS"

def monthNames : List String :=
  ["January", "February", "March", "April", "May", "June", "July", "August", "September",
    "October", "November", "December"]

def dayNames : List String :=
  ["Sunday", "Monday", "Tuesday", "Wednesday", "Thursday", "Friday", "Saturday"]

def datediffCall (name : String) (args : List Value) : Eval Value :=
  match args with
  | [p, a, b] =>
    match textArg lib p with
    | none => pure .null
    | some pname => do
      let part ← datepartCode lib pname
      match ← tsArg lib a name, ← tsArg lib b name with
      | some a, some b => return .int (.ofInt (← datediff part a b))
      | _, _ => pure .null
  | _ => fail s!"function {name} takes 3 arguments (datepart, startdate, enddate)"

def datenameOf (part : DatePart) (ms : ℤ) : Eval Value := do
  match part with
  | .month => return .str (← index monthNames ((← datepartValue .month ms) - 1).toNat)
  | .weekday => return .str (← index dayNames ((← datepartValue .weekday ms) - 1).toNat)
  | other => return .str (String.ofList (Json.showInt (← datepartValue other ms)))

/-- The date functions of `scalar_impl`. -/
def dateFunction (f : DateFn) (args : List Value) : Eval Value :=
  match f with
  | .dateadd =>
    threeArgDate lib args f.name fun p n ms => do
      return .timestamp (.ofInt (← dateadd p n ms))
  | .datediff | .datediffBig => datediffCall lib f.name args
  | .datepart =>
    twoArgDatepart lib args f.name fun p ms => do return .int (.ofInt (← datepartValue p ms))
  | .datename => twoArgDatepart lib args f.name datenameOf
  | .eomonth =>
    match args with
    | [v] => eomonth lib v 0
    | [v, o] => do
      match ← intArg o f.name 1 with
      | some n => eomonth lib v n
      | none => pure .null
    | _ => fail "function EOMONTH takes 1 or 2 arguments"
  | .dateFromParts => fromPartsCall f.name args [none, none, none, none]
  | .datetimeFromParts => fromPartsCall f.name args [some 3, some 4, some 5, some 6]
  | .smalldatetimeFromParts => smalldatetimeFromParts f.name args
  | .datetime2FromParts => datetime2FromParts f.name 7 args
  | .datetimeoffsetFromParts => datetime2FromParts f.name 9 args

end Docsql.Tsql
