import Docsql.Lib.SuffixBest
import Docsql.RowIdentity
import Docsql.Scalar.Functions
import Docsql.Window.Frame

/-!
# Window aggregates

An aggregate over a sorted partition: a fold that grows with the default frame, a fold that
slides with the bounds of a frame clause, and the fold of one frame on its own.
-/

namespace Docsql.Window

open Scalar (Eval Library fail index isNull isDecimal checkedI64 asDecimal valueToText)
open Lib (enqueue)

/-! ## Calls -/

inductive AggOp where
  | count
  | sum
  | avg
  | min
  | max
  | groupConcat
deriving DecidableEq

/-- What the folds know of a call. -/
structure AggKind where
  op : AggOp
  sep : Option String := none
  distinct : Bool := false
  /-- The argument is the sentinel of COUNT(*). -/
  countStar : Bool := false

/-- An aggregate call over rows. -/
structure AggCall (ρ : Type) extends AggKind where
  arg : ρ → Eval Value
  filter : Option (ρ → Eval Value) := none

/-- What encoding a value can report. -/
def encodingError : EncodeError → String
  | .stringTooLarge => "encoding error: string exceeds 4 GiB limit"
  | .tooManyItems => "encoding error: collection exceeds 4 GiB limit"
  | .tooDeep => "encoding error: nesting exceeds 128 levels"
  | _ => "encoding error: unexpected end of input"

section Folds

variable (codec : DecimalCodec) (lib : Library)

/-! ## Sums -/

/-- `add_values` and `sub_values`: NULL is sticky, Decimal wins over Int and Float, and an Int
overflow is NULL. -/
def combineValues (dec : Decimal → Decimal → Option Decimal)
    (flt : Binary64 → Binary64 → Binary64) (int : ℤ → ℤ → ℤ) (a b : Value) : Eval Value :=
  if isNull a || isNull b then return .null
  else if isDecimal a || isDecimal b then do
    let x ← asDecimal lib a
    let y ← asDecimal lib b
    return (dec x y).elim .null .decimal
  else
    match a, b with
    | .int x, .int y => return checkedI64 (int x.toInt y.toInt)
    | .int x, .float y => return .float (flt (lib.intToF64 x) y)
    | .float x, .int y => return .float (flt x (lib.intToF64 y))
    | .float x, .float y => return .float (flt x y)
    | _, _ => fail "SUM of non-numeric values"

def addValues : Value → Value → Eval Value :=
  combineValues lib lib.checkedAdd lib.addF64 (· + ·)

def subValues : Value → Value → Eval Value :=
  combineValues lib lib.checkedSub lib.subF64 (· - ·)

/-- The sum starts from zero, so a lone value is checked as well. -/
def pushSum (sum : Option Value) (v : Value) : Eval (Option Value) := do
  let next ← addValues lib (sum.getD (.int 0)) v
  return some next

/-- The sum without `v`, and whether it was given up. -/
def popSum (sum : Option Value) (v : Value) : Option Value × Bool :=
  match sum with
  | none | some .null => (some .null, true)
  | some s =>
    match subValues lib s v with
    | .ok next => (some next, isNull next)
    | .error _ => (none, true)

/-! ## Averages -/

/-- The fields `avg_…` of the folds. -/
structure Avg where
  decMode : Bool := false
  vals : List Value := []
  dec : Decimal := .ofInt 0
  f64 : Binary64 := .zero

namespace Avg

def addDec (acc d : Decimal) : Eval Decimal :=
  match lib.checkedAdd acc d with
  | some next => return next
  | none => fail "AVG sum overflow"

def addValue (acc : Decimal) (v : Value) : Eval Decimal := do addDec lib acc (← asDecimal lib v)

def toF64 : Value → Eval Binary64
  | .int i => return lib.intToF64 i
  | .float f => return f
  | _ => fail "AVG of non-numeric"

/-- The first Decimal turns the sum into an exact one, for good. -/
def push (a : Avg) (v : Value) : Eval Avg :=
  match v with
  | .decimal d => do
    let dec ← if a.decMode then pure a.dec else a.vals.foldlM (addValue lib) (.ofInt 0)
    let dec ← addDec lib dec d
    return { a with decMode := true, vals := if a.decMode then a.vals else [], dec := dec }
  | other =>
    if a.decMode then do
      let dec ← addValue lib a.dec other
      return { a with dec := dec }
    else do
      let f ← toF64 lib other
      return { a with vals := a.vals ++ [other], f64 := lib.addF64 a.f64 f }

/-- The average without `v`, and whether it was given up. -/
def pop (a : Avg) (v : Value) : Avg × Bool :=
  if isDecimal v && !a.decMode then (a, true)
  else if a.decMode then
    match (asDecimal lib v).toOption.bind (lib.checkedSub a.dec) with
    | some next => ({ a with dec := next }, false)
    | none => (a, true)
  else
    match a.vals with
    | [] => (a, true)
    | front :: vals =>
      match toF64 lib front with
      | .ok f => ({ a with vals := vals, f64 := lib.subF64 a.f64 f }, false)
      | .error _ => ({ a with vals := vals, f64 := lib.subF64 a.f64 .zero }, true)

def value (a : Avg) (nonnull : ℤ) : Value :=
  if nonnull = 0 then .null
  else if a.decMode then
    (lib.checkedDiv a.dec (.ofInt (.ofInt nonnull))).elim .null .decimal
  else .float (lib.divF64 a.f64 (lib.intToF64 (.ofInt nonnull)))

end Avg

/-! ## Extrema -/

/-- The comparison of a candidate with a value that beats it. -/
def AggOp.beaten : AggOp → Option Ordering
  | .min => some .gt
  | .max => some .lt
  | _ => none

/-- Ties keep the first value. -/
def keepBest (beaten : Ordering) (best : Option Value) (v : Value) : Option Value :=
  match best with
  | some m => if cmpValues m v = beaten then some v else some m
  | none => some v

/-- `b` beats the candidate `a`. -/
def beats (beaten : Ordering) (b a : Value) : Bool := cmpValues a b == beaten

/-! ## The growing fold -/

structure RunningAgg where
  seen : List (List UInt8) := []
  kept : ℤ := 0
  nonnull : ℤ := 0
  sum : Option Value := none
  avg : Avg := {}
  min : Option Value := none
  max : Option Value := none
  concat : String := ""
  concatAny : Bool := false

namespace RunningAgg

variable (kind : AggKind)

/-- A value that is not NULL and, under DISTINCT, new. -/
def fold (st : RunningAgg) (v : Value) : Eval RunningAgg :=
  let st := { st with nonnull := st.nonnull + 1 }
  match kind.op with
  | .count => return st
  | .sum => do
    let sum ← pushSum lib st.sum v
    return { st with sum := sum }
  | .avg => do
    let avg ← st.avg.push lib v
    return { st with avg := avg }
  | .min => return { st with min := keepBest .gt st.min v }
  | .max => return { st with max := keepBest .lt st.max v }
  | .groupConcat =>
    let text := valueToText lib v
    return { st with
      concat := if st.concatAny then st.concat ++ kind.sep.getD "," ++ text else st.concat ++ text
      concatAny := true }

/-- `push_row`; rows that FILTER excludes have no argument. -/
def pushRow (st : RunningAgg) (row : Bool × Option Value) : Eval RunningAgg :=
  let st := if row.1 then { st with kept := st.kept + 1 } else st
  match row.2 with
  | none => return st
  | some v =>
    if isNull v then return st
    else if kind.distinct then
      match encode codec v with
      | .error e => fail (encodingError e)
      | .ok bytes =>
        if bytes ∈ st.seen then return st else fold lib kind { st with seen := bytes :: st.seen } v
    else fold lib kind st v

def snapshot (st : RunningAgg) : Value :=
  match kind.op with
  | .count => .int (.ofInt (if kind.countStar then st.kept else st.nonnull))
  | .sum => st.sum.getD .null
  | .avg => st.avg.value lib st.nonnull
  | .min => st.min.getD .null
  | .max => st.max.getD .null
  | .groupConcat => if st.concatAny then .str st.concat else .null

end RunningAgg

/-! ## The sliding fold -/

structure SlidingFrameAgg where
  kept : ℤ := 0
  nonnull : ℤ := 0
  sum : Option Value := none
  avg : Avg := {}
  extreme : List (ℕ × Value) := []
  window : List (ℕ × Bool × Option Value) := []
  degraded : Bool := false

namespace SlidingFrameAgg

variable (kind : AggKind)

def push (st : SlidingFrameAgg) (pos : ℕ) (row : Bool × Option Value) : Eval SlidingFrameAgg :=
  let st := { st with
    window := st.window ++ [(pos, row)]
    kept := if row.1 then st.kept + 1 else st.kept }
  match row.2 with
  | none => return st
  | some v =>
    if isNull v then return st
    else
      match kind.op.beaten with
      | some beaten =>
        return { st with
          extreme := enqueue (fun b a => beats beaten b.2 a.2) st.extreme (pos, v) }
      | none =>
        let st := { st with nonnull := st.nonnull + 1 }
        match kind.op with
        | .sum => do
          let sum ← pushSum lib st.sum v
          return { st with sum := sum }
        | .avg => do
          let avg ← st.avg.push lib v
          return { st with avg := avg }
        | _ => return st

/-- One turn of `pop_to`, the row already taken from the window. -/
def popRow (st : SlidingFrameAgg) (pos : ℕ) (row : Bool × Option Value) : SlidingFrameAgg :=
  match kind.op.beaten with
  | some _ =>
    if st.extreme.head?.any (·.1 = pos) then { st with extreme := st.extreme.tail } else st
  | none =>
    let st := if row.1 then { st with kept := st.kept - 1 } else st
    match row.2 with
    | none => st
    | some v =>
      if isNull v then st
      else
        let st := { st with nonnull := st.nonnull - 1 }
        match kind.op with
        | .sum =>
          let next := popSum lib st.sum v
          { st with sum := next.1, degraded := st.degraded || next.2 }
        | .avg =>
          let next := st.avg.pop lib v
          { st with avg := next.1, degraded := st.degraded || next.2 }
        | _ => st

def popWindow (lo : ℕ) : List (ℕ × Bool × Option Value) → SlidingFrameAgg → SlidingFrameAgg
  | [], st => { st with window := [] }
  | (pos, row) :: rest, st =>
    if pos < lo then popWindow lo rest (popRow lib kind st pos row)
    else { st with window := (pos, row) :: rest }

def popTo (lo : ℕ) (st : SlidingFrameAgg) : SlidingFrameAgg := popWindow lib kind lo st.window st

def value (st : SlidingFrameAgg) : Value :=
  match kind.op with
  | .count => .int (.ofInt (if kind.countStar then st.kept else st.nonnull))
  | .sum => st.sum.getD .null
  | .avg => st.avg.value lib st.nonnull
  | .min | .max => (st.extreme.head?.map (·.2)).getD .null
  | .groupConcat => .null

end SlidingFrameAgg

/-! ## Frames of a partition -/

variable (kind : AggKind) (rows : List (Bool × Option Value))

/-- Folds the rows from `lo` up to `hi`. -/
def pushRange (st : RunningAgg) (lo hi : ℕ) : Eval RunningAgg :=
  (List.range' lo (hi + 1 - lo)).foldlM
    (fun st r => do st.pushRow codec lib kind (← index rows r)) st

/-- A fresh fold of `lo..=hi`. -/
def freshFold (lo hi : ℕ) : Eval Value := do
  let run ← pushRange codec lib kind rows {} lo hi
  return run.snapshot lib kind

/-- Default frames: all of them begin with the partition, so that one fold serves. -/
def defaultFrames (P : Partition) (p : ℕ) (run : RunningAgg) : Eval (List Value) :=
  if p < P.n then do
    let stop := if P.order = [] then P.n - 1 else P.runEnd p p
    let run ← pushRange codec lib kind rows run p stop
    let rest ← defaultFrames P (stop + 1) run
    return List.replicate (stop + 1 - p) (run.snapshot lib kind) ++ rest
  else return []
termination_by P.n - p
decreasing_by
  have := P.le_runEnd p p
  split_ifs <;> omega

/-- Frames of a clause, sliding; `next` is the next position to push. -/
def slideFrames : List (ℕ × ℕ) → SlidingFrameAgg → ℕ → Eval (List Value)
  | [], _, _ => return []
  | (lo, hi) :: bounds, win, next =>
    if hi < lo || win.degraded then do
      let v ← freshFold codec lib { kind with distinct := false } rows lo hi
      let rest ← slideFrames bounds win next
      return v :: rest
    else do
      let win ← (List.range' next (hi + 1 - next)).foldlM
        (fun st r => do st.push lib kind r (← index rows r)) win
      let win := win.popTo lib kind lo
      let v ← if win.degraded then freshFold codec lib { kind with distinct := false } rows lo hi
        else pure (win.value lib kind)
      let rest ← slideFrames bounds win (max next (hi + 1))
      return v :: rest

/-- DISTINCT and GROUP_CONCAT cannot be undone. -/
def AggKind.invertible (kind : AggKind) : Bool := kind.op != .groupConcat && !kind.distinct

def aggregateFrames (P : Partition) (frames : Option (List (ℕ × ℕ))) : Eval (List Value) :=
  match frames with
  | none => defaultFrames codec lib kind rows P 0 {}
  | some bounds =>
    if kind.invertible then slideFrames codec lib kind rows bounds {} 0
    else bounds.mapM fun b => freshFold codec lib kind rows b.1 b.2

end Folds

/-! ## Rows -/

section Rows

variable {ρ : Type} (call : AggCall ρ)

def isTrue : Value → Bool
  | .bool b => b
  | _ => false

/-- FILTER is TRUE on the row. -/
def AggCall.passes (r : ρ) : Eval Bool :=
  match call.filter with
  | some flt => do return isTrue (← flt r)
  | none => return true

/-- FILTER first, argument second. -/
def AggCall.evalRow (r : ρ) : Eval (Bool × Option Value) := do
  if ← call.passes r then
    let v ← call.arg r
    return (true, some v)
  else return (false, none)

variable (codec : DecimalCodec) (lib : Library)

/-- The aggregate part of `compute_windows`, in the order of the sorted partition. -/
def windowAggregate (P : Partition) (rows : List ρ) (frames : Option (List (ℕ × ℕ))) :
    Eval (List Value) := do
  let evaluated ← rows.mapM call.evalRow
  aggregateFrames codec lib call.toAggKind evaluated P frames

/-! ## The batch evaluator -/

/-- The combination of the values that are left. -/
def combineAgg (kind : AggKind) (kept : ℕ) (vals : List Value) : Eval Value :=
  match kind.op with
  | .count => return .int (.ofInt (if kind.countStar then kept else vals.length))
  | .sum =>
    if vals = [] then return .null else vals.foldlM (addValues lib) (.int 0)
  | .avg =>
    if vals = [] then return .null
    else if vals.any isDecimal then do
      let acc ← vals.foldlM (Avg.addValue lib) (.ofInt 0)
      return (lib.checkedDiv acc (.ofInt (.ofInt vals.length))).elim .null .decimal
    else do
      let acc ← vals.foldlM (fun acc v => return lib.addF64 acc (← Avg.toF64 lib v)) .zero
      return .float (lib.divF64 acc (lib.intToF64 (.ofInt vals.length)))
  | .min => return (Lib.firstBest (beats .gt) vals).getD .null
  | .max => return (Lib.firstBest (beats .lt) vals).getD .null
  | .groupConcat =>
    if vals = [] then return .null
    else return .str ((kind.sep.getD ",").intercalate (vals.map (valueToText lib)))

/-- The rows that pass FILTER. -/
def AggCall.keptRows : List ρ → Eval (List ρ)
  | [] => return []
  | d :: docs => do
    let kept ← call.passes d
    let rest ← AggCall.keptRows docs
    return if kept then d :: rest else rest

def evalAgg (docs : List ρ) : Eval Value := do
  let kept ← call.keptRows docs
  let args ← kept.mapM call.arg
  let vals := args.filter fun v => !isNull v
  let vals := if call.distinct then Lib.KeyedBag.keepFirst (valueKey codec) [] vals else vals
  combineAgg lib call.toAggKind kept.length vals

end Rows

end Docsql.Window
