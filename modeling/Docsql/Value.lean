import Docsql.Lib.Binary64
import Mathlib.Data.Nat.Size
import Mathlib.Order.Compare

/-!
# Document values

The value type of `value.rs` and its total order `cmp_values`, which every
index, sort and uniqueness check of the engine relies on.  An object is the
key-ordered association list a `BTreeMap<String, Value>` iterates over; the
predicate `Value.WF` says that its keys are strictly increasing in byte order.
-/

namespace Docsql

/-- Encoded keys are equal when all of their bytes are. -/
instance lawfulBytes : LawfulBEq (List UInt8) := inferInstance

instance lawfulChars : LawfulBEq (List Char) := inferInstance

/-- The payload of a `rust_decimal` number: sign flag, 96-bit mantissa and
scale, standing for `± mantissa / 10 ^ scale`. -/
structure RawDecimal where
  neg : Bool
  mantissa : ℕ
  scale : ℕ
deriving DecidableEq, Repr

/-- A valid decimal. -/
structure Decimal extends RawDecimal where
  mantissa_lt : mantissa < 2 ^ 96
  scale_le : scale ≤ 28
deriving DecidableEq, Repr

inductive Value where
  | null
  | bool (b : Bool)
  | int (i : Int64)
  | float (f : Binary64)
  | decimal (d : Decimal)
  | timestamp (ms : Int64)
  | str (s : String)
  | bytes (b : List UInt8)
  | array (items : List Value)
  | object (fields : List (String × Value))

/-- The UTF-8 bytes of a string. -/
def asBytes (s : String) : List UInt8 := s.toByteArray.data.toList

/-- `Ord` of strings and byte vectors: lexicographic on the bytes. -/
def cmpBytes (x y : List UInt8) : Ordering := List.compareLex compare x y

def cmpStr (x y : String) : Ordering := cmpBytes (asBytes x) (asBytes y)

/-! ## Well-formed values -/

/-- Keys in the order a `BTreeMap` iterates over them, each once. -/
def SortedKeys {α : Type} (fields : List (String × α)) : Prop :=
  fields.Pairwise fun p q => cmpStr p.1 q.1 = .lt

mutual

/-- Every object inside the value has strictly increasing keys. -/
def Value.WF : Value → Prop
  | .array items => wfItems items
  | .object fields => SortedKeys fields ∧ wfFields fields
  | _ => True

def wfItems : List Value → Prop
  | [] => True
  | v :: vs => v.WF ∧ wfItems vs

def wfFields : List (String × Value) → Prop
  | [] => True
  | (_, v) :: fs => v.WF ∧ wfFields fs

end

/-! ## Numbers -/

namespace Decimal

/-- `mantissa()`: the mantissa with its sign. -/
def signed (d : Decimal) : ℤ := if d.neg then -(d.mantissa : ℤ) else d.mantissa

def isZero (d : Decimal) : Bool := d.mantissa == 0

/-- The comparison of `rust_decimal`, taken to be exact. -/
def cmp (x y : Decimal) : Ordering :=
  compare (x.signed * 10 ^ y.scale) (y.signed * 10 ^ x.scale)

def ofInt (i : Int64) : Decimal where
  neg := decide (i.toInt < 0)
  mantissa := i.toInt.natAbs
  scale := 0
  mantissa_lt := by
    have h1 := i.toInt_lt
    have h2 := i.le_toInt
    omega
  scale_le := by norm_num

end Decimal

/-- `a` against `b * 2 ^ j` by bit length, shifting only when the lengths
agree. -/
def cmpTimesPow2 (a b j : ℕ) : Ordering :=
  match compare (Nat.size a) (Nat.size b + j) with
  | .eq => compare a (b <<< j % 2 ^ 128)
  | other => other

/-- The loop that makes the binary64 significand odd.  Fifty-three rounds are
enough for every nonzero significand below `2 ^ 53`. -/
def stripTwos : ℕ → ℕ → ℤ → ℕ × ℤ
  | 0, m, e => (m, e)
  | fuel + 1, m, e => if m % 2 = 0 then stripTwos fuel (m / 2) (e + 1) else (m, e)

/-- `|d|` against `|f|` for nonzero finite arguments: both sides are multiplied
by `10 ^ scale` and the powers of two are compared by shifting. -/
def cmpDecimalF64Mag (d : Decimal) (f : Binary64) : Ordering :=
  let (m₀, e₀) : ℕ × ℤ :=
    if f.expBits = 0 then (f.frac, -1074) else (f.frac + 2 ^ 52, (f.expBits : ℤ) - 1075)
  let (m, e) := stripTwos 53 m₀ e₀
  let a5 := m * 5 ^ d.scale
  let shift := e + d.scale
  if 0 ≤ shift then cmpTimesPow2 d.mantissa a5 shift.toNat
  else (cmpTimesPow2 a5 d.mantissa (-shift).toNat).swap

def cmpDecimalF64 (d : Decimal) (f : Binary64) : Ordering :=
  if f.isNan then .lt
  else if f.isInfinite then
    if Binary64.lt .zero f then .lt else .gt
  else
    let zeroD := d.isZero
    let zeroF := f.partialCmp .zero == some .eq
    if zeroD || zeroF then
      match zeroD, zeroF with
      | true, true => .eq
      | true, false => if Binary64.lt .zero f then .lt else .gt
      | _, _ => if d.neg then .lt else .gt
    else if d.neg != f.isSignNegative then
      if d.neg then .lt else .gt
    else
      let mag := cmpDecimalF64Mag d f
      if d.neg then mag.swap else mag

/-- `2 ^ 63` as a binary64 constant. -/
def twoPow63 : Binary64 := .ofFields false 1086 0

def negTwoPow63 : Binary64 := .ofFields true 1086 0

def cmpIntF64 (i : Int64) (f : Binary64) : Ordering :=
  if f.isNan then .lt
  else if f.ge twoPow63 then .lt
  else if f.lt negTwoPow63 then .gt
  else
    let t := f.trunc
    match compare i.toInt t.toI64.toInt with
    | .eq =>
      let frac := f.sub t
      if Binary64.lt .zero frac then .lt
      else if frac.lt .zero then .gt
      else .eq
    | other => other

def cmpF64 (x y : Binary64) : Ordering :=
  match x.isNan, y.isNan with
  | true, true => .eq
  | true, false => .gt
  | false, true => .lt
  | false, false => (x.partialCmp y).getD .eq

/-! ## The order of values -/

def rank : Value → ℕ
  | .null => 0
  | .bool _ => 1
  | .int _ | .float _ | .decimal _ => 2
  | .timestamp _ => 3
  | .str _ => 4
  | .bytes _ => 5
  | .array _ => 6
  | .object _ => 7

mutual

/-- `Null < Bool < numbers < Timestamp < Str < Bytes < Array < Object`, numbers
compared numerically across their three representations. -/
def cmpValues : Value → Value → Ordering
  | .null, .null => .eq
  | .bool x, .bool y => compare x y
  | .int x, .int y => compare x.toInt y.toInt
  | .decimal x, .decimal y => x.cmp y
  | .decimal x, .int y => x.cmp (.ofInt y)
  | .int x, .decimal y => (Decimal.ofInt x).cmp y
  | .decimal x, .float y => cmpDecimalF64 x y
  | .float x, .decimal y => (cmpDecimalF64 y x).swap
  | .int i, .float f => cmpIntF64 i f
  | .float f, .int i => (cmpIntF64 i f).swap
  | .float x, .float y => cmpF64 x y
  | .timestamp x, .timestamp y => compare x.toInt y.toInt
  | .str x, .str y => cmpStr x y
  | .bytes x, .bytes y => cmpBytes x y
  | .array xs, .array ys => cmpItems xs ys
  | .object xs, .object ys => cmpFields xs ys
  | a, b => compare (rank a) (rank b)

/-- Element by element while both sides last, then by length. -/
def cmpItems : List Value → List Value → Ordering
  | x :: xs, y :: ys =>
    match cmpValues x y with
    | .eq => cmpItems xs ys
    | o => o
  | [], ys => compare 0 ys.length
  | x :: xs, [] => compare (x :: xs).length 0

def cmpFields : List (String × Value) → List (String × Value) → Ordering
  | [], [] => .eq
  | [], _ :: _ => .lt
  | _ :: _, [] => .gt
  | (ka, va) :: xs, (kb, vb) :: ys =>
    match cmpStr ka kb with
    | .eq =>
      match cmpValues va vb with
      | .eq => cmpFields xs ys
      | o => o
    | o => o

end

end Docsql
