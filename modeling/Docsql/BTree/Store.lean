import Docsql.BTree.Node
import Docsql.Lib.BPlusTree

/-!
# The B+ tree index over a page store

The operations of `btree.rs` on the pages a transaction sees.  Every recursion
carries the number of levels it may still descend, `MAX_TREE_DEPTH + 1 - depth`.
-/

namespace Docsql.BTree

open BPlusTree (partitionPoint)
open StateExcept (fromExcept)

abbrev BTreeM := StateExcept Store BTreeError

def maxTreeDepth : ℕ := 64

def leafCellCap : ℕ := (pageSize - 3) / 2

def internalCellCap : ℕ := (pageSize - 7) / 2

/-! ## Pages -/

def allocatePage : BTreeM ℕ := StateExcept.mapError .pager Store.allocatePage

def readPage (id : ℕ) : BTreeM Page := StateExcept.mapError .pager (Store.readPage id)

def writePage (id : ℕ) (page : Page) : BTreeM Unit :=
  StateExcept.mapError .pager (Store.writePage id page)

section Codec

variable (codec : DecimalCodec)

def readNode (id : ℕ) : BTreeM Node := do
  let page ← readPage id
  fromExcept (decodeNode codec page)

def writeNode (id : ℕ) (node : Node) : BTreeM Unit := do
  let page ← fromExcept (nodeImage codec node)
  writePage id page

/-! ## Node sizes and split points -/

variable {α : Type}

/-- The sizes of the cells. -/
def cellSizes (payload : ℕ) : List (Value × α) → Except BTreeError (List ℕ)
  | [] => .ok []
  | (k, _) :: cells => do
    let kb ← encodeKey codec k
    let sizes ← cellSizes payload cells
    return (2 + kb.length + payload) :: sizes

def nodeBytes (cells : List (Value × α)) (header payload : ℕ) : Except BTreeError ℕ := do
  let sizes ← cellSizes codec payload cells
  return header + sizes.sum

/-- The bytes of the node up to each cell boundary. -/
def prefixSums : ℕ → List ℕ → List ℕ
  | acc, [] => [acc]
  | acc, n :: sizes => acc :: prefixSums (acc + n) sizes

/-- Move the split point up until the right node fits, at most to `boundary`. -/
def growSplit (sums : List ℕ) (header total boundary : ℕ) : ℕ → ℕ → ℕ
  | 0, m => m
  | fuel + 1, m =>
    if m < boundary ∧ pageSize < header + (total - sums.getD m 0) then
      growSplit sums header total boundary fuel (m + 1)
    else m

/-- The split point on the sizes of the cells. -/
def splitPoint (sizes : List ℕ) (i header : ℕ) : ℕ :=
  let sums := prefixSums header sizes
  let total := sums.getLastD header
  let boundary := ((sums.findIdx? fun n => decide (pageSize < n)).map fun j => max j 1).getD
    (sizes.length - 1)
  min (growSplit sums header total boundary boundary (max (min boundary i) 1)) (sizes.length - 1)

/-- The split index of an overflowing node whose new cell is at `i`. -/
def splitAtForInsert (cells : List (Value × α)) (i header payload : ℕ) :
    Except BTreeError ℕ := do
  let sizes ← cellSizes codec payload cells
  return splitPoint sizes i header

/-! ## Routing -/

/-- How many cells are not above `key`. -/
def notAbove (key : Value) (cells : List (Value × α)) : ℕ :=
  partitionPoint (fun c => cmpValues c.1 key != .gt) cells

def descend (cells : List (Value × ℕ)) (leftmost : ℕ) (key : Value) : ℕ :=
  let idx := notAbove key cells
  if idx = 0 then leftmost else (cells.map Prod.snd).getD (idx - 1) leftmost

/-- Children that may hold `key`, the routed one first.  Keys equal to a
separator may have stayed left of it. -/
def candidateChildren (cells : List (Value × ℕ)) (leftmost : ℕ) (key : Value) : List ℕ :=
  let primary := descend cells leftmost key
  let leftmostUpperGe := cells.head?.all fun c => cmpValues c.1 key != .lt
  let others := (List.range cells.length).filterMap fun i =>
    cells[i]?.bind fun c =>
      if c.2 = primary then none
      else
        let lowerLe := cmpValues c.1 key != .gt
        let upperGe := cells[i + 1]?.all fun d => cmpValues d.1 key != .lt
        if lowerLe && upperGe then some c.2 else none
  primary :: ((if leftmostUpperGe && leftmost != primary then [leftmost] else []) ++ others)

/-! ## Create -/

def create : BTreeM ℕ := do
  let root ← allocatePage
  writePage root (leafKind :: List.replicate (pageSize - 1) 0)
  return root

/-! ## Insert -/

/-- An internal node takes the separator and the right half of a cut child. -/
def takeSeparator (id leftmost : ℕ) (cells : List (Value × ℕ)) (mid : Value) (right : ℕ) :
    BTreeM (Option (Value × ℕ)) := do
  let i := notAbove mid cells
  let mb ← fromExcept (encodeKey codec mid)
  if internalCellCap < 2 + mb.length + 4 then throw (.keyTooLarge mb.length)
  else
    let cells := cells.insertIdx i (mid, right)
    if (← fromExcept (nodeBytes codec cells 7 4)) ≤ pageSize then
      writeNode codec id (.internal leftmost cells)
      return none
    else
      let m ← fromExcept (splitAtForInsert codec cells i 7 4)
      match cells.drop m with
      | [] => return none
      | (midKey, newLeftmost) :: rightCells =>
        let right ← allocatePage
        writeNode codec id (.internal leftmost (cells.take m))
        writeNode codec right (.internal newLeftmost rightCells)
        return some (midKey, right)

/-- Returns the separator and the page of the right half when the node was cut. -/
def insertRec (key : Value) (val : UInt64) (unique : Bool) :
    ℕ → ℕ → BTreeM (Option (Value × ℕ))
  | 0, _ => throw (.corrupt "tree depth exceeds limit (cycle?)")
  | room + 1, id => do
    match ← readNode codec id with
    | .leaf cells =>
      let i := notAbove key cells
      if unique && (cells.take i).getLast?.any fun c => cmpValues c.1 key == .eq then
        throw .duplicate
      else
        let kb ← fromExcept (encodeKey codec key)
        if leafCellCap < 2 + kb.length + 8 then throw (.keyTooLarge kb.length)
        else
          let cells := cells.insertIdx i (key, val)
          if (← fromExcept (nodeBytes codec cells 3 8)) ≤ pageSize then
            writeNode codec id (.leaf cells)
            return none
          else
            let m ← fromExcept (splitAtForInsert codec cells i 3 8)
            let right ← allocatePage
            writeNode codec id (.leaf (cells.take m))
            writeNode codec right (.leaf (cells.drop m))
            return (cells.drop m).head?.map fun c => (c.1, right)
    | .internal leftmost cells =>
      let child := descend cells leftmost key
      match ← insertRec key val unique room child with
      | none => return none
      | some (mid, right) => takeSeparator codec id leftmost cells mid right

/-- Insert below `root`; returns the root afterwards. -/
def insert (root : ℕ) (key : Value) (val : UInt64) (unique : Bool) : BTreeM ℕ := do
  match ← insertRec codec key val unique (maxTreeDepth + 1) root with
  | none => return root
  | some (mid, right) =>
    let newRoot ← allocatePage
    writeNode codec newRoot (.internal root [(mid, right)])
    return newRoot

/-! ## Lookup -/

/-- The rest of the children of an equal run, until one answers. -/
def getCells (visit : ℕ → BTreeM (Option UInt64)) (page : Page) (primary : ℕ) :
    List ℕ → BTreeM (Option UInt64)
  | [] => return none
  | pos :: starts => do
    let child ← fromExcept (payloadAt childId page pos)
    if child = primary then getCells visit page primary starts
    else
      match ← visit child with
      | some v => return some v
      | none => getCells visit page primary starts

def getAt (key : Value) : ℕ → ℕ → BTreeM (Option UInt64)
  | 0, _ => throw (.corrupt "tree depth exceeds limit (cycle?)")
  | room + 1, id => do
    let page ← readPage id
    let (kind, leftmost, starts) ← fromExcept (nodeStarts page)
    if kind = leafKind then
      let i ← fromExcept (cellsSeek codec page starts key false)
      if i < starts.length then
        let k ← fromExcept (decodeKeyAt codec page (starts.getD i 0))
        if cmpValues k key = .eq then
          return some (← fromExcept (payloadAt locator page (starts.getD i 0)))
        else return none
      else return none
    else
      match leftmost with
      | none => throw (.corrupt "internal node missing leftmost")
      | some leftmost =>
        let s ← fromExcept (cellsSeek codec page starts key false)
        let g ← fromExcept (cellsSeek codec page starts key true)
        let primary ← fromExcept (if g = 0 then .ok leftmost
          else payloadAt childId page (starts.getD (g - 1) 0))
        match ← getAt key room primary with
        | some v => return some v
        | none =>
          match ← (if s = 0 ∧ leftmost ≠ primary then getAt key room leftmost else pure none) with
          | some v => return some v
          | none =>
            getCells (getAt key room) page primary ((starts.take (g - 1)).drop (s - 1))

def get (root : ℕ) (key : Value) : BTreeM (Option UInt64) :=
  getAt codec key (maxTreeDepth + 1) root

/-! ## Scan -/

/-- `max.is_some_and(|m| out.len() >= m)`. -/
def filled (max : Option ℕ) (out : List (Value × UInt64)) : Bool :=
  max.any fun m => decide (m ≤ out.length)

def pushCells (max : Option ℕ) : List (Value × UInt64) → List (Value × UInt64) →
    List (Value × UInt64)
  | [], out => out
  | cell :: cells, out =>
    if filled max (out ++ [cell]) then out ++ [cell] else pushCells max cells (out ++ [cell])

/-- Walk the children until the window is filled. -/
def scanChildren (max : Option ℕ)
    (visit : ℕ → List (Value × UInt64) → BTreeM (List (Value × UInt64))) :
    List ℕ → List (Value × UInt64) → BTreeM (List (Value × UInt64))
  | [], out => return out
  | child :: children, out => do
    if filled max out then return out
    else
      let out ← visit child out
      scanChildren max visit children out

def scanRec (max : Option ℕ) :
    ℕ → ℕ → List (Value × UInt64) → BTreeM (List (Value × UInt64))
  | 0, _, _ => throw (.corrupt "tree depth exceeds limit (cycle?)")
  | room + 1, id, out => do
    if filled max out then return out
    else
      match ← readNode codec id with
      | .leaf cells => return pushCells max cells out
      | .internal leftmost cells =>
        let out ← scanRec max room leftmost out
        scanChildren max (scanRec max room) (cells.map Prod.snd) out

def scanLimited (root : ℕ) (max : Option ℕ) : BTreeM (List (Value × UInt64)) :=
  scanRec codec max (maxTreeDepth + 1) root []

def scan (root : ℕ) : BTreeM (List (Value × UInt64)) := scanLimited codec root none

/-! ## Delete -/

/-- The window loop of `binary_search_by`: the last element the order does not
put above the target, as far as the window goes. -/
def searchLoop {β : Type} (ord : β → Ordering) (xs : List β) : ℕ → ℕ → ℕ → ℕ
  | 0, base, _ => base
  | fuel + 1, base, size =>
    if 1 < size then
      let half := size / 2
      let mid := base + half
      searchLoop ord xs fuel (if xs[mid]?.any fun x => ord x == .gt then base else mid)
        (size - half)
    else base

/-- `binary_search_by`: the index of a match. -/
def binarySearchBy {β : Type} (ord : β → Ordering) (xs : List β) : Option ℕ :=
  let base := searchLoop ord xs xs.length 0 xs.length
  if xs[base]?.any fun x => ord x == .eq then some base else none

/-- The leaf matcher of `delete`. -/
def matchKey (key : Value) (cells : List (Value × UInt64)) : Option (List (Value × UInt64)) :=
  (binarySearchBy (fun c => cmpValues c.1 key) cells).map fun i => cells.eraseIdx i

/-- Back to the first cell of a run of equal keys. -/
def runStart (key : Value) (cells : List (Value × UInt64)) : ℕ → ℕ
  | 0 => 0
  | i + 1 =>
    if cells[i]?.any fun c => cmpValues c.1 key == .eq then runStart key cells i else i + 1

/-- The position of the locator inside a run of equal keys. -/
def scanRun (key : Value) (loc : UInt64) : List (Value × UInt64) → ℕ → Option ℕ
  | [], _ => none
  | c :: cells, j =>
    if cmpValues c.1 key = .eq then
      if c.2 = loc then some j else scanRun key loc cells (j + 1)
    else none

/-- The leaf matcher of `delete_entry`. -/
def matchEntry (key : Value) (loc : UInt64) (cells : List (Value × UInt64)) :
    Option (List (Value × UInt64)) :=
  match binarySearchBy (fun c => cmpValues c.1 key) cells with
  | none => none
  | some i =>
    let start := runStart key cells i
    (scanRun key loc (cells.drop start) start).map fun j => cells.eraseIdx j

/-- Whether one of the children deleted something; the rest is not visited. -/
def anyChild (visit : ℕ → BTreeM Bool) : List ℕ → BTreeM Bool
  | [] => return false
  | child :: children => do
    if ← visit child then return true else anyChild visit children

def deleteRec (key : Value)
    (leafMatch : List (Value × UInt64) → Option (List (Value × UInt64))) : ℕ → ℕ → BTreeM Bool
  | 0, _ => throw (.corrupt "tree depth exceeds limit (cycle?)")
  | room + 1, id => do
    match ← readNode codec id with
    | .leaf cells =>
      match leafMatch cells with
      | some cells =>
        writeNode codec id (.leaf cells)
        return true
      | none => return false
    | .internal leftmost cells =>
      anyChild (deleteRec key leafMatch room) (candidateChildren cells leftmost key)

def delete (root : ℕ) (key : Value) : BTreeM Bool :=
  deleteRec codec key (matchKey key) (maxTreeDepth + 1) root

def deleteEntry (root : ℕ) (key : Value) (loc : UInt64) : BTreeM Bool :=
  deleteRec codec key (matchEntry key loc) (maxTreeDepth + 1) root

end Codec

end Docsql.BTree
