import Docsql.Lib.Bytes
import Docsql.Lib.StreamReader
import Docsql.ValueOrder

/-!
# The binary encoding of values

`encode.rs`: a tag byte followed by a payload, integers little-endian, strings
and containers prefixed by a `u32` length.  The encoder and the decoder count
the nesting depth separately and stop at the same bound.
-/

namespace Docsql

inductive EncodeError where
  | stringTooLarge
  | tooManyItems
  | eof
  | unknownTag (tag : UInt8)
  | badBool (b : UInt8)
  | tooDeep
  | duplicateKey (k : String)
  | badDecimalScale (scale : ℕ)
deriving DecidableEq, Repr

def maxDepth : ℕ := 128

/-- The sixteen-byte form of `rust_decimal`.  Reading it back does not check
the scale. -/
structure DecimalCodec where
  serialize : Decimal → List UInt8
  deserialize : List UInt8 → RawDecimal
  length_serialize : ∀ d, (serialize d).length = 16
  mantissa_deserialize : ∀ b, (deserialize b).mantissa < 2 ^ 96
  deserialize_serialize : ∀ d, deserialize (serialize d) = d.toRawDecimal

/-! ## Encoder

The functions return the bytes they append to `out`. -/

abbrev Encoded := Except EncodeError (List UInt8)

def putU32 (n : ℕ) : Encoded :=
  if n < 2 ^ 32 then .ok (Bytes.toLE 4 n) else .error .tooManyItems

def i64Bytes (i : Int64) : List UInt8 := Bytes.toLE 8 i.toUInt64.toNat

def f64Bytes (f : Binary64) : List UInt8 := Bytes.toLE 8 f.bits.toNat

/-- The check every `encode_at` starts with. -/
def guardDepth (depth : ℕ) (body : Encoded) : Encoded :=
  if maxDepth < depth then .error .tooDeep else body

section Codec

variable (codec : DecimalCodec)

mutual

def encodeAt (depth : ℕ) : Value → Encoded
  | .null => guardDepth depth (.ok [0])
  | .bool b => guardDepth depth (.ok [1, if b then 1 else 0])
  | .int i => guardDepth depth (.ok (2 :: i64Bytes i))
  | .float f => guardDepth depth (.ok (3 :: f64Bytes f))
  | .decimal d => guardDepth depth (.ok (8 :: codec.serialize d))
  | .timestamp ms => guardDepth depth (.ok (9 :: i64Bytes ms))
  | .str s => guardDepth depth do
    let len ← putU32 (asBytes s).length
    return 4 :: (len ++ asBytes s)
  | .bytes b => guardDepth depth do
    let len ← putU32 b.length
    return 5 :: (len ++ b)
  | .array items => guardDepth depth do
    let len ← putU32 items.length
    let body ← encodeItems (depth + 1) items
    return 6 :: (len ++ body)
  | .object fields => guardDepth depth do
    let len ← putU32 fields.length
    let body ← encodeFields (depth + 1) fields
    return 7 :: (len ++ body)

def encodeItems (depth : ℕ) : List Value → Encoded
  | [] => .ok []
  | v :: vs => do
    let head ← encodeAt depth v
    let tail ← encodeItems depth vs
    return head ++ tail

def encodeFields (depth : ℕ) : List (String × Value) → Encoded
  | [] => .ok []
  | (k, v) :: fs => do
    let klen ← putU32 (asBytes k).length
    let head ← encodeAt depth v
    let tail ← encodeFields depth fs
    return klen ++ (asBytes k ++ (head ++ tail))

end

def encode (v : Value) : Encoded := encodeAt codec 0 v

/-- The document encoder of the heap, which never builds a `Value`. -/
def encodeObject (doc : List (String × Value)) : Encoded := do
  let len ← putU32 doc.length
  let body ← encodeFields codec 1 doc
  return 7 :: (len ++ body)

end Codec

/-! ## Decoder -/

/-- The decoder threads the unread part of its buffer. -/
abbrev Decoder := StreamReader EncodeError UInt8

def take (n : ℕ) : Decoder (List UInt8) := fun buf =>
  if buf.length < n then .error .eof else .ok (buf.take n, buf.drop n)

def u8 : Decoder UInt8 := do
  let b ← take 1
  return b.headD 0

def u32 : Decoder ℕ := do
  let b ← take 4
  return Bytes.ofLE b

def i64v : Decoder Int64 := do
  let b ← take 8
  return (UInt64.ofNat (Bytes.ofLE b)).toInt64

def f64v : Decoder Binary64 := do
  let b ← take 8
  return ⟨BitVec.ofNat 64 (Bytes.ofLE b)⟩

def bytes : Decoder (List UInt8) := do
  let len ← u32
  take len

/-- `String::from_utf8`; invalid UTF-8 is reported as the end of the input. -/
def fromUtf8 (raw : List UInt8) : Decoder String :=
  match String.fromUTF8? ⟨raw.toArray⟩ with
  | some s => return s
  | none => throw .eof

def string : Decoder String := do
  let raw ← bytes
  fromUtf8 raw

/-- `BTreeMap::insert`. -/
def insertField {α : Type} (k : String) (v : α) : List (String × α) → List (String × α)
  | [] => [(k, v)]
  | (k', v') :: fs =>
    match cmpStr k k' with
    | .lt => (k, v) :: (k', v') :: fs
    | .eq => (k, v) :: fs
    | .gt => (k', v') :: insertField k v fs

def containsKey {α : Type} (k : String) (fs : List (String × α)) : Bool :=
  fs.any fun p => cmpStr k p.1 == .eq

/-- `n` items in a row. -/
def itemsLoop (item : Decoder Value) : ℕ → Decoder (List Value)
  | 0 => return []
  | n + 1 => do
    let v ← item
    let vs ← itemsLoop item n
    return v :: vs

/-- `n` more key-value pairs; a repeated key is corruption. -/
def fieldsLoop (item : Decoder Value) :
    ℕ → List (String × Value) → Decoder (List (String × Value))
  | 0, obj => return obj
  | n + 1, obj => do
    let k ← string
    let v ← item
    if containsKey k obj then throw (.duplicateKey k)
    else fieldsLoop item n (insertField k v obj)

section Codec

variable (codec : DecimalCodec)

def decimalv : Decoder Decimal := do
  let b ← take 16
  let d := codec.deserialize b
  if h : d.scale ≤ 28 then
    return { toRawDecimal := d, mantissa_lt := codec.mantissa_deserialize b, scale_le := h }
  else throw (.badDecimalScale d.scale)

def boolv : Decoder Bool := do
  match ← u8 with
  | 0 => return false
  | 1 => return true
  | b => throw (.badBool b)

/-- One value with `room` levels of nesting left: `room` is
`MAX_DEPTH + 1 - depth`. -/
def valueAt : ℕ → Decoder Value
  | 0 => throw .tooDeep
  | room + 1 => do
    match ← u8 with
    | 0 => return .null
    | 1 => return .bool (← boolv)
    | 2 => return .int (← i64v)
    | 3 => return .float (← f64v)
    | 4 => return .str (← string)
    | 5 => return .bytes (← bytes)
    | 6 => return .array (← itemsLoop (valueAt room) (← u32))
    | 7 => return .object (← fieldsLoop (valueAt room) (← u32) [])
    | 8 => return .decimal (← decimalv codec)
    | 9 => return .timestamp (← i64v)
    | t => throw (.unknownTag t)

def value : Decoder Value := valueAt codec (maxDepth + 1)

/-- Exactly one value; trailing bytes are an error. -/
def decode (buf : List UInt8) : Except EncodeError Value := do
  let (v, rest) ← (value codec).run buf
  if rest.length ≠ 0 then throw (.unknownTag 0xff)
  return v

/-- One value and the number of bytes it took. -/
def decodePrefix (buf : List UInt8) : Except EncodeError (Value × ℕ) := do
  let (v, rest) ← (value codec).run buf
  return (v, buf.length - rest.length)

end Codec

end Docsql
