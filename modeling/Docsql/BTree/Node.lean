import Docsql.PageStore
import Docsql.EncodeRoundTrip

/-!
# Node pages of the B+ tree index

The page format of `btree.rs`: a kind byte, a `u16` cell count, for an internal
node the `u32` of its leftmost child, then cells of a `u16` key length, the key
bytes and a payload.  Lookups read single cells of a page in place; every other
operation decodes the whole node.
-/

namespace Docsql.BTree

inductive BTreeError where
  | pager (e : PagerError)
  | encode (e : EncodeError)
  | keyTooLarge (len : ℕ)
  | duplicate
  | corrupt (msg : String)
deriving DecidableEq, Repr

def leafKind : UInt8 := 1

def internalKind : UInt8 := 2

inductive Node where
  | leaf (cells : List (Value × UInt64))
  | internal (leftmost : ℕ) (cells : List (Value × ℕ))

/-! ## Writing -/

/-- What a cell carries behind its key. -/
structure Payload (α : Type) where
  width : ℕ
  toBytes : α → List UInt8
  ofBytes : List UInt8 → α
  valid : α → Prop
  length_toBytes : ∀ v, (toBytes v).length = width
  ofBytes_toBytes : ∀ v, valid v → ofBytes (toBytes v) = v

def locator : Payload UInt64 where
  width := 8
  toBytes v := Bytes.toLE 8 v.toNat
  ofBytes b := UInt64.ofNat (Bytes.ofLE b)
  valid _ := True
  length_toBytes v := Bytes.length_toLE 8 v.toNat
  ofBytes_toBytes v _ := by
    have hlt : v.toNat < 256 ^ 8 := v.toNat_lt
    rw [Bytes.ofLE_toLE hlt, UInt64.ofNat_toNat]

def childId : Payload ℕ where
  width := 4
  toBytes c := Bytes.toLE 4 c
  ofBytes b := Bytes.ofLE b
  valid c := c < 2 ^ 32
  length_toBytes c := Bytes.length_toLE 4 c
  ofBytes_toBytes _ h := Bytes.ofLE_toLE h

section Codec

variable (codec : DecimalCodec) {α : Type}

def encodeKey (k : Value) : Except BTreeError (List UInt8) :=
  match encode codec k with
  | .ok kb => .ok kb
  | .error e => .error (.encode e)

/-- The cells from position `pos` on. -/
def writeCells (p : Payload α) : List (Value × α) → ℕ → Except BTreeError (List UInt8)
  | [], _ => .ok []
  | (k, v) :: cells, pos => do
    let kb ← encodeKey codec k
    if 2 ^ 16 ≤ kb.length then throw (.keyTooLarge kb.length)
    if pageSize < pos + 2 + kb.length + p.width then throw (.keyTooLarge kb.length)
    let rest ← writeCells p cells (pos + 2 + kb.length + p.width)
    return Bytes.toLE 2 kb.length ++ (kb ++ (p.toBytes v ++ rest))

/-- The rest of the page stays zero. -/
def padded (bs : List UInt8) : Page := bs ++ List.replicate (pageSize - bs.length) 0

/-- The page image `write_node` builds. -/
def nodeImage : Node → Except BTreeError Page
  | .leaf cells => do
    let body ← writeCells codec locator cells 3
    return padded (leafKind :: (Bytes.toLE 2 cells.length ++ body))
  | .internal leftmost cells => do
    let body ← writeCells codec childId cells 7
    return padded (internalKind :: (Bytes.toLE 2 cells.length ++ (Bytes.toLE 4 leftmost ++ body)))

/-! ## Reading a whole node -/

/-- A bounds-checked byte range. -/
def takeOr (msg : String) (page : Page) (pos n : ℕ) : Except BTreeError (List UInt8) :=
  if pos + n ≤ page.length then .ok ((page.drop pos).take n) else .error (.corrupt msg)

/-- The stored key length is authoritative: a decode that takes fewer bytes is
corruption. -/
def decodeKey (buf : List UInt8) (klen : ℕ) : Except BTreeError Value :=
  match decodePrefix codec buf with
  | .error e => .error (.encode e)
  | .ok (k, used) =>
    if used ≠ klen then .error (.corrupt "node cell key length mismatch") else .ok k

def readCells (p : Payload α) (page : Page) : ℕ → ℕ → Except BTreeError (List (Value × α))
  | 0, _ => .ok []
  | n + 1, pos => do
    let len ← takeOr "truncated node cell" page pos 2
    let klen := Bytes.ofLE len
    let buf ← takeOr "truncated node cell" page (pos + 2) klen
    let k ← decodeKey codec buf klen
    let v ← takeOr "truncated node cell" page (pos + 2 + klen) p.width
    let rest ← readCells p page n (pos + 2 + klen + p.width)
    return (k, p.ofBytes v) :: rest

def decodeNode (page : Page) : Except BTreeError Node :=
  let kind := page.headD 0
  let count := Bytes.ofLE ((page.drop 1).take 2)
  if kind = leafKind then do
    return .leaf (← readCells codec locator page count 3)
  else if kind = internalKind then do
    let leftmost := Bytes.ofLE ((page.drop 3).take 4)
    return .internal leftmost (← readCells codec childId page count 7)
  else .error (.corrupt "unknown node type")

/-! ## Reading cells in place -/

/-- The offsets of `n` cells from `pos` on, and the end of the last one. -/
def startsLoop (page : Page) (width : ℕ) : ℕ → ℕ → Except BTreeError (List ℕ × ℕ)
  | 0, pos => .ok ([], pos)
  | n + 1, pos => do
    let len ← takeOr "truncated node page" page pos 2
    let (starts, stop) ← startsLoop page width n (pos + 2 + Bytes.ofLE len + width)
    return (pos :: starts, stop)

def firstByte : Page → Except BTreeError UInt8
  | [] => .error (.corrupt "empty node page")
  | b :: _ => .ok b

/-- The kind of a node page, its leftmost child and the offsets of its cells. -/
def nodeStarts (page : Page) : Except BTreeError (UInt8 × Option ℕ × List ℕ) := do
  let kind ← firstByte page
  if kind ≠ leafKind ∧ kind ≠ internalKind then throw (.corrupt "unknown node type")
  let count ← takeOr "truncated node page" page 1 2
  if kind = internalKind then do
    let leftmost ← takeOr "truncated node page" page 3 4
    let (starts, stop) ← startsLoop page childId.width (Bytes.ofLE count) 7
    if page.length < stop then throw (.corrupt "truncated node page")
    return (kind, some (Bytes.ofLE leftmost), starts)
  else do
    let (starts, stop) ← startsLoop page locator.width (Bytes.ofLE count) 3
    if page.length < stop then throw (.corrupt "truncated node page")
    return (kind, none, starts)

def decodeKeyAt (page : Page) (pos : ℕ) : Except BTreeError Value := do
  let len ← takeOr "truncated node page" page pos 2
  let buf ← takeOr "truncated node page" page (pos + 2) (Bytes.ofLE len)
  decodeKey codec buf (Bytes.ofLE len)

/-- The payload of the cell at `pos`. -/
def payloadAt (p : Payload α) (page : Page) (pos : ℕ) : Except BTreeError α := do
  let len ← takeOr "truncated node page" page pos 2
  let v ← takeOr "truncated node page" page (pos + 2 + Bytes.ofLE len) p.width
  return p.ofBytes v

def goRight (wantGt : Bool) (k key : Value) : Bool :=
  if wantGt then cmpValues k key != .gt else cmpValues k key == .lt

/-- Binary search over the cells of a page, one decoded key per step: the first
cell not below `key`, or with `wantGt` the first cell above it.  `fuel` bounds
the rounds. -/
def seekLoop (page : Page) (starts : List ℕ) (key : Value) (wantGt : Bool) :
    ℕ → ℕ → ℕ → Except BTreeError ℕ
  | 0, lo, _ => .ok lo
  | fuel + 1, lo, hi =>
    if lo < hi then do
      let mid := lo + (hi - lo) / 2
      let k ← decodeKeyAt codec page (starts.getD mid 0)
      if goRight wantGt k key then seekLoop page starts key wantGt fuel (mid + 1) hi
      else seekLoop page starts key wantGt fuel lo mid
    else .ok lo

def cellsSeek (page : Page) (starts : List ℕ) (key : Value) (wantGt : Bool) :
    Except BTreeError ℕ :=
  seekLoop codec page starts key wantGt (starts.length + 1) 0 starts.length

end Codec

end Docsql.BTree
