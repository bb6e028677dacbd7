import Docsql.Lib.CutPoint
import Docsql.Scalar.Functions
import Docsql.ValueOrder

/-!
# Window frames

A frame clause is checked once and then gives every row of a sorted partition an interval of
positions.
-/

namespace Docsql.Window

open Scalar (Eval Library fail typeName)
open Lib (bisect)

/-! ## Sort order -/

/-- One key of ORDER BY. -/
structure OrderKey where
  asc : Option Bool := none
  nullsFirst : Option Bool := none

def cmpMaybeNull (a b : Value) (nullsFirst : Option Bool) : Ordering :=
  let nullsFirst := nullsFirst.getD true
  match a, b with
  | .null, .null => .eq
  | .null, _ => if nullsFirst then .lt else .gt
  | _, .null => if nullsFirst then .gt else .lt
  | a, b => cmpValues a b

namespace OrderKey

def ascending (o : OrderKey) : Bool := o.asc.getD true

/-- The comparison of the sort by this key. -/
def cmp (o : OrderKey) (a b : Value) : Ordering :=
  let ord := cmpMaybeNull a b o.nullsFirst
  if o.ascending then ord else ord.swap

end OrderKey

/-- Key after key. -/
def cmpKeys : List OrderKey → List Value → List Value → Ordering
  | o :: order, a :: as, b :: bs => (o.cmp a b).then (cmpKeys order as bs)
  | _, _, _ => .eq

/-! ## Frame clauses -/

inductive FrameBound (α : Type) where
  | unbounded
  | preceding (offset : α)
  | currentRow
  | following (offset : α)
  | unboundedFollowing
deriving DecidableEq

abbrev FrameRowBound := FrameBound ℕ

/-- An interval offset shifts timestamps only. -/
structure FrameRangeOffset where
  off : Value
  interval : Bool

abbrev FrameValueBound := FrameBound FrameRangeOffset

inductive WindowFramePlan where
  | rows (start stop : FrameRowBound)
  | groups (start stop : FrameRowBound)
  | range (start stop : FrameValueBound)

def FrameBound.rank {α : Type} : FrameBound α → ℕ
  | unbounded => 0
  | preceding _ => 1
  | currentRow => 2
  | following _ => 3
  | unboundedFollowing => 4

inductive DateTimeField where
  | day
  | hour
  | minute
  | second
  | other

/-- `INTERVAL 'text' field`; the text is absent where it is no string literal. -/
structure IntervalLiteral where
  leadingField : Option DateTimeField
  lastField : Option DateTimeField
  text : Option (List Char)

/-- An offset expression: an interval literal, and what `eval_const` makes of it. -/
structure OffsetExpr where
  interval : Option IntervalLiteral := none
  const : Eval Value

inductive WindowFrameBound where
  | currentRow
  | preceding (offset : Option OffsetExpr)
  | following (offset : Option OffsetExpr)

inductive WindowFrameUnits where
  | rows
  | range
  | groups

structure WindowFrame where
  units : WindowFrameUnits
  startBound : WindowFrameBound
  endBound : Option WindowFrameBound

def rowOffset (e : OffsetExpr) : Eval ℕ := do
  match ← e.const with
  | .int k =>
    if 0 ≤ k.toInt then return k.toInt.toNat
    else fail "ROWS/GROUPS frame offsets must be non-negative integers, got int"
  | other =>
    let kind := typeName other
    fail s!"ROWS/GROUPS frame offsets must be non-negative integers, got {kind}"

/-- Milliseconds of a unit. -/
def DateTimeField.unit : DateTimeField → Option ℤ
  | day => some 86400000
  | hour => some 3600000
  | minute => some 60000
  | second => some 1000
  | other => none

variable (lib : Library)

def intervalOffset (iv : IntervalLiteral) : Eval FrameRangeOffset :=
  match iv.leadingField.bind DateTimeField.unit with
  | none => fail ("INTERVAL frame offsets support DAY/HOUR/MINUTE/SECOND only " ++
      "(YEAR/MONTH calendar arithmetic is not supported)")
  | some unit =>
    if iv.lastField.isSome then
      fail "INTERVAL frame offsets take a single unit: INTERVAL 'n' DAY/HOUR/MINUTE/SECOND"
    else
      match iv.text with
      | none => fail "INTERVAL frame offset value must be a string literal"
      | some text =>
        match lib.parseF64 (Timestamp.trim text) with
        | none =>
          let shown := String.ofList text
          fail s!"invalid INTERVAL value '{shown}'"
        | some secs =>
          if !secs.isFinite || secs.lt .zero then
            fail "INTERVAL frame offsets must be non-negative"
          else
            let ms := (lib.mulF64 secs (lib.intToF64 (.ofInt unit))).toI64
            if ms = 0 ∧ Binary64.lt .zero secs then
              fail "INTERVAL frame offset is smaller than one millisecond"
            else return { off := .int ms, interval := true }

def rangeOffset (e : OffsetExpr) : Eval FrameRangeOffset :=
  match e.interval with
  | some iv => intervalOffset lib iv
  | none => do
    let v ← e.const
    match v with
    | .int _ | .float _ | .decimal _ =>
      if cmpValues v (.int 0) = .lt then fail "RANGE frame offsets must be non-negative"
      else return { off := v, interval := false }
    | other =>
      let kind := typeName other
      fail s!"RANGE frame offsets must be numeric constants, got {kind}"

def frameBound {α : Type} (read : OffsetExpr → Eval α) : WindowFrameBound → Eval (FrameBound α)
  | .preceding none => return .unbounded
  | .preceding (some e) => return .preceding (← read e)
  | .currentRow => return .currentRow
  | .following (some e) => return .following (← read e)
  | .following none => return .unboundedFollowing

def afterEnd : String := "window frame start cannot be after its end"

/-- A start after its end, by the kind of the bounds or by their offsets. -/
def misplaced {α : Type} (less : α → α → Bool) (start stop : FrameBound α) : Bool :=
  stop.rank < start.rank ||
    match start, stop with
    | .preceding a, .preceding b => less a b
    | .following a, .following b => less b a
    | _, _ => false

def hasOffset {α : Type} : FrameBound α → Bool
  | .preceding _ | .following _ => true
  | _ => false

def rowFrame (frame : WindowFrame) : Eval (FrameRowBound × FrameRowBound) := do
  let start ← frameBound rowOffset frame.startBound
  let stop ← frameBound rowOffset (frame.endBound.getD .currentRow)
  if misplaced (fun a b => a < b) start stop then fail afterEnd else return (start, stop)

def parseWindowFrame (frame : WindowFrame) (orderLen : ℕ) : Eval WindowFramePlan :=
  match frame.units with
  | .rows => do
    let (start, stop) ← rowFrame frame
    return .rows start stop
  | .groups => do
    let (start, stop) ← rowFrame frame
    return .groups start stop
  | .range => do
    let start ← frameBound (rangeOffset lib) frame.startBound
    let stop ← frameBound (rangeOffset lib) (frame.endBound.getD .currentRow)
    if misplaced (fun a b => cmpValues a.off b.off = .lt) start stop then fail afterEnd
    else if (hasOffset start || hasOffset stop) && orderLen != 1 then
      fail ("RANGE with a value offset requires exactly one ORDER BY key " ++
        "                     (the frame shifts THE sort key)")
    else return .range start stop

/-! ## Shifted keys -/

def frameOffsetF64 : Value → Eval Binary64
  | .int k => return lib.intToF64 k
  | .float f => return f
  | .decimal d => return (lib.decimalToF64 d).getD Json.nan
  | _ => fail "RANGE frame offset must be numeric"

def moveF64 (up : Bool) (k f : Binary64) : Value :=
  .float (if up then lib.addF64 k f else lib.subF64 k f)

def moveInt (up : Bool) (k o : Int64) : ℤ :=
  if up then k.toInt + o.toInt else k.toInt - o.toInt

/-- `None`: outside the domain of the key. -/
def shiftRangeKeyValue (key off : Value) (up : Bool) : Eval (Option Value) :=
  match key, off with
  | .null, _ => return none
  | .int k, .int o =>
    let v := moveInt up k o
    return if Scalar.i64Min ≤ v ∧ v ≤ Scalar.i64Max then some (.int (.ofInt v)) else none
  | .float k, off => do return some (moveF64 lib up k (← frameOffsetF64 lib off))
  | .int k, .float f => return some (moveF64 lib up (lib.intToF64 k) f)
  | .decimal k, off => do
    let o ← Scalar.asDecimal lib off
    return (if up then lib.checkedAdd k o else lib.checkedSub k o).map .decimal
  | .int k, .decimal o =>
    let k := Decimal.ofInt k
    return (if up then lib.checkedAdd k o else lib.checkedSub k o).map .decimal
  | .timestamp t, .int o =>
    let ms := moveInt up t o
    return if Json.timestampMinMs ≤ ms ∧ ms ≤ Json.timestampMaxMs then
      some (.timestamp (.ofInt ms)) else none
  | _, _ => fail "RANGE value offsets need a numeric or TIMESTAMP ORDER BY key"

def isTimestampOrNull : Value → Bool
  | .timestamp _ | .null => true
  | _ => false

def shiftRangeKey (key : Value) (off : FrameRangeOffset) (up : Bool) : Eval (Option Value) :=
  if off.interval && !isTimestampOrNull key then
    fail ("INTERVAL frame offsets require a TIMESTAMP ORDER BY key " ++
      "(numeric keys take a plain constant offset)")
  else shiftRangeKeyValue lib key off.off up

/-! ## Partitions -/

/-- The rows of a partition by their order keys, as the sort leaves them. -/
structure Partition where
  order : List OrderKey
  keys : List (List Value)
  widths : ∀ k ∈ keys, k.length = order.length
  sorted : keys.Pairwise fun a b => cmpKeys order a b ≠ .gt
  nonempty : keys ≠ []

namespace Partition

variable (P : Partition)

def n : ℕ := P.keys.length

/-- The order keys of a position. -/
def key (p : ℕ) : List Value := P.keys.getD p []

def firstKey (p : ℕ) : Value := (P.key p).headD .null

/-- The options of the first key. -/
def firstOrder : OrderKey := P.order.headD {}

/-- The order keys compare equal; without ORDER BY each row is on its own. -/
def peers (p q : ℕ) : Bool :=
  if P.order = [] then p = q else cmpKeys P.order (P.key p) (P.key q) = .eq

/-- The last peer of `p` from `q` on. -/
def runEnd (p q : ℕ) : ℕ :=
  if q + 1 < P.n ∧ P.peers p (q + 1) = true then runEnd p (q + 1) else q
termination_by P.n - q

theorem le_runEnd (p q : ℕ) : q ≤ P.runEnd p q := by
  fun_induction runEnd with
  | case1 q _ ih => omega
  | case2 => exact le_rfl

/-- `group_spans`: the peer runs from `p` on. -/
def spansFrom (p : ℕ) : List (ℕ × ℕ) :=
  if p < P.n then (p, P.runEnd p p) :: spansFrom (P.runEnd p p + 1) else []
termination_by P.n - p
decreasing_by
  have := P.le_runEnd p p
  omega

def groupSpans : List (ℕ × ℕ) := P.spansFrom 0

/-- `group_of`: the number of the run that holds the position. -/
def groupOf (p : ℕ) : ℕ := P.groupSpans.findIdx fun s => s.1 ≤ p && p ≤ s.2

/-! ## Bounds -/

def windowKeySearch (target : Value) (upper : Bool) : ℕ :=
  let o := P.firstOrder
  bisect (fun q =>
    let ord := cmpMaybeNull (P.firstKey q) target o.nullsFirst
    if upper then if o.ascending then ord = .gt else ord = .lt
    else if o.ascending then ord ≠ .lt else ord ≠ .gt) 0 P.n

def rowsBounds (start stop : FrameRowBound) (p : ℕ) : ℕ × ℕ :=
  let n := P.n
  let lo := match start with
    | .unbounded => 0
    | .preceding k => p - min k n
    | .currentRow => p
    | .following k => p + min k n
    | .unboundedFollowing => n
  let hi := match stop with
    | .unbounded => 0
    | .preceding k => p - min k n
    | .currentRow => p
    | .following k => min (p + min k n) (n - 1)
    | .unboundedFollowing => n - 1
  (lo, hi)

def groupPosition (bound : FrameRowBound) (g groups : ℕ) : ℕ :=
  match bound with
  | .unbounded => 0
  | .preceding k => g - k
  | .currentRow => g
  | .following k => min (g + k) (groups - 1)
  | .unboundedFollowing => groups - 1

def groupsBounds (start stop : FrameRowBound) (p : ℕ) : ℕ × ℕ :=
  let spans := P.groupSpans
  let g := P.groupOf p
  ((spans[groupPosition start g spans.length]?.map Prod.fst).getD P.n,
    (spans[groupPosition stop g spans.length]?.map Prod.snd).getD 0)

/-- `bound_value`; `None` is unbounded or outside the domain. -/
def boundValue (key : Value) : FrameValueBound → Eval (Option Value)
  | .unbounded | .unboundedFollowing => return none
  | .currentRow => return some key
  | .preceding v => shiftRangeKey lib key v !P.firstOrder.ascending
  | .following v => shiftRangeKey lib key v P.firstOrder.ascending

/-- The values of both bounds; in ascending order the start is shifted first. -/
def boundValues (key : Value) (start stop : FrameValueBound) :
    Eval (Option Value × Option Value) :=
  if P.firstOrder.ascending then do
    let low ← P.boundValue lib key start
    let high ← P.boundValue lib key stop
    return (low, high)
  else do
    let high ← P.boundValue lib key stop
    let low ← P.boundValue lib key start
    return (low, high)

def rangeBounds (start stop : FrameValueBound) (p : ℕ) : Eval (ℕ × ℕ) := do
  let key := P.firstKey p
  if Scalar.isNull key then
    return (P.windowKeySearch key false, P.windowKeySearch key true - 1)
  else
    let (low, high) ← P.boundValues lib key start stop
    let lo := low.elim 0 fun t => P.windowKeySearch t false
    let hi := high.elim (P.n - 1) fun t => P.windowKeySearch t true
    return if hi = 0 then (max lo 1, 0) else (lo, hi - 1)

def frameBounds : WindowFramePlan → Eval (List (ℕ × ℕ))
  | .rows start stop => return (List.range P.n).map (P.rowsBounds start stop)
  | .groups start stop => return (List.range P.n).map (P.groupsBounds start stop)
  | .range start stop =>
    if P.order = [] then return List.replicate P.n (0, P.n - 1)
    else (List.range P.n).mapM (P.rangeBounds lib start stop)

/-- `eval_expr(&args[0], &rows[sorted[target]])`; an index past the end stops the program. -/
def valueAt (arg : ℕ → Eval Value) (target : ℕ) : Eval Value :=
  if target < P.n then arg target else .error .outOfRange

/-- FIRST_VALUE of a row with these bounds. -/
def firstValue (arg : ℕ → Eval Value) (bounds : ℕ × ℕ) : Eval Value := P.valueAt arg bounds.1

/-- LAST_VALUE of a row with these bounds. -/
def lastValue (arg : ℕ → Eval Value) (bounds : ℕ × ℕ) : Eval Value := P.valueAt arg bounds.2

end Partition

end Docsql.Window
