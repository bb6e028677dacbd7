import Docsql.Encode
import Docsql.PageStore

/-!
# Slotted heap pages

The page layer of `heap.rs`: a `u16` slot count, a directory of `(offset, len)`
pairs, and documents packed from the page end.  A slot of length zero is a
tombstone.
-/

namespace Docsql.Heap

inductive HeapError where
  | page (id : ℕ) (reason : String)
  | encode (e : EncodeError)
  | pager (e : PagerError)
  | docTooLarge (size max : ℕ)
deriving DecidableEq, Repr

def slotSize : ℕ := 4

def headerFixed : ℕ := 2

/-! ## Reading a page -/

def countOf (page : Page) : ℕ := Bytes.ofLE (page.take 2)

/-- Offset and length of slot `i`. -/
def slot (page : Page) (i : ℕ) : ℕ × ℕ :=
  (Bytes.ofLE ((page.drop (headerFixed + i * slotSize)).take 2),
    Bytes.ofLE ((page.drop (headerFixed + i * slotSize + 2)).take 2))

def slots (page : Page) : List (ℕ × ℕ) := (List.range (countOf page)).map (slot page)

/-- `page[off..off + len]`. -/
def slice (page : Page) (off len : ℕ) : List UInt8 := (page.drop off).take len

/-- The bounds check of the live slots; returns their total length. -/
def validateSlots (id dirEnd pageLen : ℕ) : List (ℕ × ℕ) → Except HeapError ℕ
  | [] => .ok 0
  | (off, len) :: rest =>
    if len = 0 then validateSlots id dirEnd pageLen rest
    else if off < dirEnd ∨ pageLen < off + len then
      .error (.page id "document region out of bounds")
    else do
      let liveBytes ← validateSlots id dirEnd pageLen rest
      return len + liveBytes

def validatePage (page : Page) (id : ℕ) : Except HeapError Unit :=
  let dirEnd := headerFixed + countOf page * slotSize
  if page.length < dirEnd then .error (.page id "slot directory overflows page")
  else do
    let liveBytes ← validateSlots id dirEnd page.length (slots page)
    if page.length < dirEnd + liveBytes then
      throw (.page id "document regions do not fit beside the slot directory")

/-- Lowest document offset; tombstones never lower it. -/
def contentStart (page : Page) : ℕ :=
  (slots page).foldl (fun start p => if 0 < p.2 then min start p.1 else start) pageSize

/-- The gap between the directory and the packed documents, saturating. -/
def freeSpace (page : Page) : ℕ :=
  contentStart page - (headerFixed + countOf page * slotSize)

/-- The live slots with their content, in slot order. -/
def liveDocs (page : Page) : List (ℕ × List UInt8) :=
  (slots page).zipIdx.filterMap fun p =>
    if 0 < p.1.2 then some (p.2, slice page p.1.1 p.1.2) else none

/-! ## Changing a page -/

/-- `page[off..off + bytes.len()].copy_from_slice(bytes)`. -/
def blit (page : Page) (off : ℕ) (bytes : List UInt8) : Page :=
  page.take off ++ (bytes ++ page.drop (off + bytes.length))

def setCount (page : Page) (n : ℕ) : Page := blit page 0 (Bytes.toLE 2 n)

def pushSlot (page : Page) (off len : ℕ) : Page :=
  let i := countOf page
  let entry := headerFixed + i * slotSize
  setCount (blit (blit page entry (Bytes.toLE 2 off)) (entry + 2) (Bytes.toLE 2 len)) (i + 1)

def tombstone (page : Page) (i : ℕ) : Page :=
  let entry := headerFixed + i * slotSize
  blit (blit page entry (Bytes.toLE 2 pageSize)) (entry + 2) (Bytes.toLE 2 0)

/-- Put a document at `off` and give it the next slot. -/
def putDoc (page : Page) (off : ℕ) (bytes : List UInt8) : Page :=
  pushSlot (blit page off bytes) off bytes.length

/-- Documents packed one below the other, from `start` down. -/
def packDocs : List (List UInt8) → ℕ → Page → Page
  | [], _, page => page
  | b :: bs, start, page => packDocs bs (start - b.length) (putDoc page (start - b.length) b)

/-- Re-pack the live documents of a page in slot order; the moves list old and
new slots. -/
def repack (page : Page) : Page × List (ℕ × ℕ) :=
  let live := liveDocs page
  (packDocs (live.map Prod.snd) pageSize zeroPage,
    live.zipIdx.map fun p => (p.1.1, p.2))

/-! ## Locators -/

def packLoc (page slotIdx : ℕ) : ℕ := page * 2 ^ 16 + slotIdx % 2 ^ 16

def unpackLoc (loc : ℕ) : ℕ × ℕ := (loc / 2 ^ 16 % 2 ^ 32, loc % 2 ^ 16)

end Docsql.Heap
