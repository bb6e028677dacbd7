import Docsql.Heap.Page

/-!
# The document heap

`heap.rs` over the pages a transaction sees.  A document that does not fit a
page keeps a prefix in its slot, behind `0xFF | total | chain head`, and the
rest on a chain of pages `0xFE | next | len | payload`.
-/

namespace Docsql

/-- The page lists of a table.  `overflowFree` is a stack, last pushed first. -/
structure Heap where
  pages : List ℕ := []
  overflowFree : List ℕ := []
  dropped : List ℕ := []

namespace Heap

open StateExcept (read update throwIf)

abbrev Doc := List (String × Value)

def overflowMark : UInt8 := 0xFF

def chainMark : UInt8 := 0xFE

def overflowSlotHeaderLen : ℕ := 9

def chainHeaderLen : ℕ := 7

def maxDocSize : ℕ := 16 * 1024 * 1024

/-- Payload bytes of a full chain page. -/
def minChunk : ℕ := pageSize - chainHeaderLen

structure HeapState where
  store : Store
  heap : Heap

abbrev HeapM := StateExcept HeapState HeapError

/-! ## Access to the pager and the heap record -/

def onStore {α : Type} (m : StoreM α) : HeapM α := fun st =>
  match m st.store with
  | (.ok a, s) => (.ok a, { st with store := s })
  | (.error e, s) => (.error (.pager e), { st with store := s })

def loadPage (id : ℕ) : HeapM Page := onStore (Store.readPage id)

def writePage (id : ℕ) (page : Page) : HeapM Unit := onStore (Store.writePage id page)

def allocatePage : HeapM ℕ := onStore Store.allocatePage

def updateHeap (f : Heap → Heap) : HeapM Unit := update fun st => { st with heap := f st.heap }

def fromExcept {α : Type} (x : Except HeapError α) : HeapM α := StateExcept.fromExcept x

def checkPageOwned (page : ℕ) : HeapM Unit := do
  let st ← read
  if page ∈ st.heap.pages then return ()
  else throw (.page page "page not owned by this heap")

/-! ## Overflow chains -/

/-- Total length and first chain page of an overflow slot. -/
def overflowSlotHeader (content : List UInt8) (pageId : ℕ) : Except HeapError (ℕ × ℕ) :=
  if content.length < overflowSlotHeaderLen then .error (.page pageId "overflow slot truncated")
  else .ok (Bytes.ofLE (slice content 1 4), Bytes.ofLE (slice content 5 4))

/-- Next page and payload length of a chain page. -/
def chainHeader (page : Page) (id : ℕ) : Except HeapError (ℕ × ℕ) :=
  if page.head? ≠ some chainMark then .error (.page id "overflow chain corrupt (bad marker)")
  else .ok (Bytes.ofLE (slice page 1 4), Bytes.ofLE (slice page 5 2))

/-- The walk of `slot_document_bytes`.  The hop bound `total / minChunk + 2` is
counted down. -/
def assembleChain (pageId total : ℕ) : ℕ → ℕ → List ℕ → List UInt8 → HeapM (List UInt8)
  | 0, next, _, out =>
    if next = 0 then return out else throw (.page pageId "overflow chain corrupt")
  | hopsLeft + 1, next, seen, out =>
    if next = 0 then return out
    else do
      throwIf (next ∈ seen) (.page pageId "overflow chain corrupt")
      let page ← loadPage next
      let (nxt, len) ← fromExcept (chainHeader page next)
      throwIf (page.length < chainHeaderLen + len ∨ total < out.length + len)
        (.page next "overflow chain corrupt (bad length)")
      assembleChain pageId total hopsLeft nxt (next :: seen) (out ++ slice page chainHeaderLen len)

def slotDocumentBytes (pageId : ℕ) (page : Page) (off len : ℕ) : HeapM (List UInt8) :=
  let content := slice page off len
  if content.head? ≠ some overflowMark then return content
  else do
    let (total, head) ← fromExcept (overflowSlotHeader content pageId)
    throwIf (maxDocSize < total)
      (.page pageId "overflow chain corrupt (total exceeds max document size)")
    let out ← assembleChain pageId total (total / minChunk + 3) head []
      (content.drop overflowSlotHeaderLen)
    throwIf (out.length ≠ total) (.page pageId "overflow chain corrupt (short read)")
    return out

/-- The walk of `recycle_chain`: the pages of the chain and their payload. -/
def walkChain (total : ℕ) (ownPages : List ℕ) :
    ℕ → ℕ → List ℕ → ℕ → HeapM (List ℕ × ℕ)
  | 0, next, chain, assembled =>
    if next = 0 then return (chain, assembled)
    else throw (.page next "overflow chain corrupt (cycle)")
  | hopsLeft + 1, next, chain, assembled =>
    if next = 0 then return (chain, assembled)
    else do
      throwIf (next ∈ chain) (.page next "overflow chain corrupt (cycle)")
      throwIf (next ∈ ownPages) (.page next "overflow chain corrupt (chain into heap page)")
      let page ← loadPage next
      let (nxt, len) ← fromExcept (chainHeader page next)
      throwIf (page.length < chainHeaderLen + len ∨ total < assembled + len)
        (.page next "overflow chain corrupt (bad length)")
      walkChain total ownPages hopsLeft nxt (chain ++ [next]) (assembled + len)

def releaseChain : List ℕ → HeapM Unit
  | [] => return ()
  | id :: chain => do
    writePage id zeroPage
    updateHeap fun h => { h with overflowFree := id :: h.overflowFree }
    releaseChain chain

def recycleChain (head total inlineLen : ℕ) : HeapM Unit := do
  throwIf (maxDocSize < total)
    (.page head "overflow chain corrupt (total exceeds max document size)")
  let st ← read
  let (chain, assembled) ← walkChain total st.heap.pages (total / minChunk + 3) head [] 0
  throwIf (inlineLen + assembled ≠ total)
    (.page head "overflow chain corrupt (short chain)")
  releaseChain chain

/-- Recycle the chain of a slot, if it has one. -/
def recycleSlot (pageId : ℕ) (content : List UInt8) : HeapM Unit := do
  if content.head? = some overflowMark then
    let (total, head) ← fromExcept (overflowSlotHeader content pageId)
    recycleChain head total (content.length - overflowSlotHeaderLen)

/-! ## Reading documents -/

section Codec

variable (codec : DecimalCodec)

/-- The document in a slot; anything but one object is corruption. -/
def decodeDoc (pageId : ℕ) (bytes : List UInt8) : Except HeapError Doc :=
  match decodePrefix codec bytes with
  | .error e => .error (.encode e)
  | .ok (v, usedLen) =>
    if usedLen ≠ bytes.length then .error (.page pageId "document slot has trailing bytes")
    else
      match v with
      | .object o => .ok o
      | _ => .error (.page pageId "non-object document root")

/-- The live documents of a page with their locators. -/
def readSlots (pageId : ℕ) (page : Page) : List ((ℕ × ℕ) × ℕ) → HeapM (List (ℕ × Doc))
  | [] => return []
  | ((off, len), i) :: rest =>
    if len = 0 then readSlots pageId page rest
    else do
      let bytes ← slotDocumentBytes pageId page off len
      let doc ← fromExcept (decodeDoc codec pageId bytes)
      let docs ← readSlots pageId page rest
      return (packLoc pageId i, doc) :: docs

def scanPages : List ℕ → HeapM (List (ℕ × Doc))
  | [] => return []
  | id :: ids => do
    let page ← loadPage id
    fromExcept (validatePage page id)
    let docs ← readSlots codec id page (slots page).zipIdx
    let more ← scanPages ids
    return docs ++ more

def scan : HeapM (List Doc) := do
  let st ← read
  let docs ← scanPages codec st.heap.pages
  return docs.map Prod.snd

def countPages : List ℕ → HeapM ℕ
  | [] => return 0
  | id :: ids => do
    let page ← loadPage id
    fromExcept (validatePage page id)
    let n ← countPages ids
    return ((slots page).filter fun p => p.2 ≠ 0).length + n

def liveCount : HeapM ℕ := do
  let st ← read
  countPages st.heap.pages

def docAt (loc : ℕ) : HeapM (Option Doc) := do
  let (pageId, slotIdx) := unpackLoc loc
  checkPageOwned pageId
  let page ← loadPage pageId
  fromExcept (validatePage page pageId)
  throwIf (countOf page ≤ slotIdx) (.page pageId "slot out of range")
  let (off, len) := slot page slotIdx
  if len = 0 then return none
  else do
    let bytes ← slotDocumentBytes pageId page off len
    let doc ← fromExcept (decodeDoc codec pageId bytes)
    return some doc

/-! ## Storing documents -/

/-- A page of its own for the content of one slot. -/
def insertFresh (content : List UInt8) : HeapM ℕ := do
  let id ← allocatePage
  writePage id (putDoc zeroPage (pageSize - content.length) content)
  updateHeap fun h => { h with pages := h.pages ++ [id] }
  return packLoc id 0

/-- `slice::chunks`. -/
def chunks (size : ℕ) : ℕ → List UInt8 → List (List UInt8)
  | 0, _ => []
  | fuel + 1, bytes =>
    if bytes.isEmpty then [] else bytes.take size :: chunks size fuel (bytes.drop size)

/-- Chain pages: the free list first, then fresh pages. -/
def takeChainPages (ownPages : List ℕ) : ℕ → HeapM (List ℕ)
  | 0 => return []
  | n + 1 => do
    let st ← read
    match st.heap.overflowFree with
    | id :: free =>
      updateHeap fun h => { h with overflowFree := free }
      throwIf (id ∈ ownPages) (.page id "overflow free list names a live page of this heap")
      let ids ← takeChainPages ownPages n
      return id :: ids
    | [] =>
      let id ← allocatePage
      let ids ← takeChainPages ownPages n
      return id :: ids

def chainPage (next : ℕ) (chunk : List UInt8) : Page :=
  chainMark :: (Bytes.toLE 4 next ++ (Bytes.toLE 2 chunk.length ++
    (chunk ++ List.replicate (pageSize - chainHeaderLen - chunk.length) 0)))

def writeChain : List (List UInt8) → List ℕ → HeapM Unit
  | chunk :: rest, id :: ids => do
    writePage id (chainPage (ids.headD 0) chunk)
    writeChain rest ids
  | _, _ => return ()

/-- The free space of the last page. -/
def lastFreeSpace (pages : List ℕ) : HeapM (Option ℕ) :=
  match pages.getLast? with
  | some last => do
    let page ← loadPage last
    fromExcept (validatePage page last)
    return some (freeSpace page)
  | none => return none

/-- Put the content of a slot on the last page. -/
def insertLast (last : ℕ) (content : List UInt8) : HeapM ℕ := do
  let page ← loadPage last
  fromExcept (validatePage page last)
  let page' := putDoc page (contentStart page - content.length) content
  writePage last page'
  return packLoc last (countOf page' - 1)

def insertOverflow (bytes : List UInt8) : HeapM ℕ := do
  let st ← read
  let slotNeed := slotSize + overflowSlotHeaderLen
  let lastFree ← lastFreeSpace st.heap.pages
  let useLast := lastFree.any fun free => slotNeed ≤ free
  let maxInline :=
    if useLast then lastFree.getD 0 - slotNeed
    else pageSize - headerFixed - slotSize - overflowSlotHeaderLen
  let inlineLen := min maxInline bytes.length
  let parts := chunks minChunk bytes.length (bytes.drop inlineLen)
  let chain ← takeChainPages st.heap.pages parts.length
  writeChain parts chain
  let content := overflowMark :: (Bytes.toLE 4 bytes.length ++
    (Bytes.toLE 4 (chain.headD 0) ++ bytes.take inlineLen))
  if useLast then insertLast (st.heap.pages.getLastD 0) content
  else insertFresh content

def encodeDoc (doc : Doc) : Except HeapError (List UInt8) :=
  match encodeObject codec doc with
  | .error e => .error (.encode e)
  | .ok bytes =>
    if maxDocSize < bytes.length then .error (.docTooLarge bytes.length maxDocSize) else .ok bytes

/-- `insert` behind the encoding of the document. -/
def insertBytes (bytes : List UInt8) : HeapM ℕ := do
  if pageSize - headerFixed < bytes.length + slotSize then insertOverflow bytes
  else
    let st ← read
    let lastFree ← lastFreeSpace st.heap.pages
    if lastFree.any fun free => bytes.length + slotSize ≤ free then
      insertLast (st.heap.pages.getLastD 0) bytes
    else insertFresh bytes

def insert (doc : Doc) : HeapM ℕ := do
  let bytes ← fromExcept (encodeDoc codec doc)
  insertBytes bytes

structure ReplaceOutcome where
  placed : ℕ
  moved : List (ℕ × ℕ)
deriving DecidableEq, Repr

/-- Slot moves of a page as locator moves. -/
def locMoves (pageId : ℕ) (moves : List (ℕ × ℕ)) : List (ℕ × ℕ) :=
  moves.map fun p => (packLoc pageId p.1, packLoc pageId p.2)

/-- A page without documents leaves the page list. -/
def dropIfEmpty (pageId : ℕ) (page : Page) : HeapM Unit := do
  if countOf page = 0 then
    updateHeap fun h => { h with
      pages := h.pages.filter (· ≠ pageId)
      dropped := h.dropped ++ [pageId] }

/-- `none` marks the replaced document. -/
def replaceEntries (page : Page) (slotIdx : ℕ) (bytes : List UInt8) :
    List (Option ℕ × List UInt8) :=
  (liveDocs page).map fun p => if p.1 = slotIdx then (none, bytes) else (some p.1, p.2)

/-- The slots whose number changed. -/
def entryMoves (entries : List (Option ℕ × List UInt8)) : List (ℕ × ℕ) :=
  entries.zipIdx.filterMap fun e =>
    match e.1.1 with
    | some old => if old ≠ e.2 then some (old, e.2) else none
    | none => none

/-- `replace` behind the release of the old chain: the page is rewritten in place,
or the document leaves it and is inserted again. -/
def replaceTail (pageId slotIdx : ℕ) (bytes : List UInt8) (page : Page) : HeapM ReplaceOutcome := do
  let entries := replaceEntries page slotIdx bytes
  if pageSize < headerFixed + entries.length * slotSize +
      (entries.map fun e => e.2.length).sum then
    let (page', moves) := repack (tombstone page slotIdx)
    dropIfEmpty pageId page'
    writePage pageId page'
    let placed ← insertBytes bytes
    return { placed := placed, moved := locMoves pageId moves }
  else
    writePage pageId (packDocs (entries.map Prod.snd) pageSize zeroPage)
    return {
      placed := packLoc pageId (entries.findIdx fun e => e.1.isNone)
      moved := locMoves pageId (entryMoves entries) }

/-- `replace` behind the encoding of the document. -/
def replaceSlot (pageId slotIdx : ℕ) (bytes : List UInt8) : HeapM ReplaceOutcome := do
  checkPageOwned pageId
  let page ← loadPage pageId
  fromExcept (validatePage page pageId)
  throwIf (countOf page ≤ slotIdx) (.page pageId "slot out of range")
  let (off, len) := slot page slotIdx
  throwIf (len = 0) (.page pageId "replace of a dead slot")
  recycleSlot pageId (slice page off len)
  replaceTail pageId slotIdx bytes page

def replace (loc : ℕ) (doc : Doc) : HeapM ReplaceOutcome := do
  let bytes ← fromExcept (encodeDoc codec doc)
  let (pageId, slotIdx) := unpackLoc loc
  replaceSlot pageId slotIdx bytes

/-! ## Removing documents -/

/-- The loop over the slots of one page. -/
def killSlots (pageId : ℕ) : List ℕ → Page → HeapM Page
  | [], page => return page
  | i :: rest, page => do
    throwIf (countOf page ≤ i) (.page pageId "slot out of range")
    let (off, len) := slot page i
    if len = 0 then killSlots pageId rest page
    else
      recycleSlot pageId (slice page off len)
      killSlots pageId rest (tombstone page i)

/-- The slots of one page among the locators, ascending, each once. -/
def slotsOn (pageId : ℕ) (locs : List ℕ) : List ℕ :=
  let onPage := locs.filter fun loc => (unpackLoc loc).1 = pageId
  (onPage.map fun loc => (unpackLoc loc).2).toFinset.sort (· ≤ ·)

def removePages (locs : List ℕ) : List ℕ → HeapM (List (ℕ × ℕ))
  | [] => return []
  | pageId :: ids => do
    let page ← loadPage pageId
    fromExcept (validatePage page pageId)
    let page ← killSlots pageId (slotsOn pageId locs) page
    let (page', moves) := repack page
    writePage pageId page'
    dropIfEmpty pageId page'
    let more ← removePages locs ids
    return locMoves pageId moves ++ more

def checkPagesOwned : List ℕ → HeapM Unit
  | [] => return ()
  | id :: ids => do
    checkPageOwned id
    checkPagesOwned ids

def removeMany (locs : List ℕ) : HeapM (List (ℕ × ℕ)) := do
  let pageIds := (locs.map fun loc => (unpackLoc loc).1).toFinset.sort (· ≤ ·)
  checkPagesOwned pageIds
  removePages locs pageIds

end Codec

end Heap

end Docsql
