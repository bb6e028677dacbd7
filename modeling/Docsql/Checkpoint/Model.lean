import Docsql.PageStore
import Mathlib.Data.Finset.Basic
import Mathlib.Logic.Relation

/-!
# Dropping the write-ahead log

Commits go to the log first and to the data file behind it.  A background thread
makes the data file durable and reports how much of the log that covers, and on
the strength of such a report, which may be an old one, the writer drops the
log.  Each critical section of the pager is one step, the steps of the two threads
interleave freely, and a page write or a sync of the data file may fail.
-/

namespace Docsql.Checkpoint

/-! ## The log and the data file -/

/-- The staged pages of a transaction. -/
abbrev Staged := List (ℕ × Page)

/-- The last image of a page among some writes. -/
def lastImage (writes : Staged) (id : ℕ) : Option Page := writes.reverse.lookup id

/-- `pending_writes` keeps the newest image of a page. -/
def enqueue (pending : Staged) (write : ℕ × Page) : Staged :=
  write :: pending.filter fun q => q.1 ≠ write.1

/-- The bytes of a frame around its payload. -/
def frameLen : ℕ := 25

/-- `begin`, one frame a page, and the commit frame. -/
def txLen (staged : Staged) : ℕ := frameLen + staged.length * (frameLen + 4 + pageSize) + frameLen

def walHeader : ℕ := 8

/-- `log` holds the committed images since the log was last dropped, `appended` its
length in bytes.  `unsynced` are the pages written since the last sync began,
`syncing` the ones a running sync has to make durable; likewise for the page count
in the header of the data file.  `committed` is what was last committed, for the
statements only. -/
structure Disk where
  log : Staged
  appended : ℕ
  deferred : ℕ
  pending : Staged
  file : ℕ → Page
  numPages : ℕ
  persistedPages : ℕ
  unsynced : Finset ℕ
  syncing : Finset ℕ
  headerSyncing : ℕ
  headerSynced : ℕ
  committed : ℕ → Option Page

namespace Disk

/-- The state `open` leaves behind. -/
def opened (file : ℕ → Page) (pages : ℕ) : Disk where
  log := []
  appended := walHeader
  deferred := 0
  pending := []
  file := file
  numPages := pages
  persistedPages := pages
  unsynced := ∅
  syncing := ∅
  headerSyncing := pages
  headerSynced := pages
  committed id := if id < pages then some (file id) else none

/-- The fence `Wal::commit` and `sync_wal` put behind outstanding deferred commits. -/
def fenceLen (d : Disk) : ℕ := if d.deferred = 0 then 0 else frameLen

/-- The WAL section of a commit. -/
def append (d : Disk) (staged : Staged) (fsync : Bool) : Disk :=
  { d with
    log := d.log ++ staged
    appended := d.appended + txLen staged + (if fsync then d.fenceLen else 0)
    deferred := if fsync then 0 else d.deferred + 1
    pending := staged.foldl enqueue d.pending
    committed := fun id => (lastImage staged id).or (d.committed id) }

/-- Frames without a commit frame. -/
def appendDead (d : Disk) (n : ℕ) : Disk := { d with appended := d.appended + n }

def fence (d : Disk) : Disk := { d with appended := d.appended + d.fenceLen, deferred := 0 }

/-- One ABORT frame for each outstanding deferred commit. -/
def abortDeferred (d : Disk) : Disk :=
  { d with appended := d.appended + d.deferred * frameLen, deferred := 0 }

def allocate (d : Disk) : Disk := { d with numPages := d.numPages + 1 }

/-- `write_file_page` before it reaches the page itself. -/
def countPage (d : Disk) (id : ℕ) : Disk :=
  let n := max d.numPages (id + 1)
  { d with
    numPages := n
    persistedPages := if d.persistedPages ≤ id then n else d.persistedPages }

/-- A page of the queue is written and retired. -/
def writePage (d : Disk) (id : ℕ) (data : Page) : Disk :=
  { d.countPage id with
    file := Function.update d.file id data
    unsynced := d.unsynced ∪ {id}
    pending := d.pending.filter fun q => q.1 ≠ id }

/-- A failed write leaves anything in the page. -/
def writeFailed (d : Disk) (id : ℕ) (junk : Page) : Disk :=
  { d.countPage id with
    file := Function.update d.file id junk
    unsynced := d.unsynced ∪ {id} }

def startSync (d : Disk) : Disk :=
  { d with
    syncing := d.syncing ∪ d.unsynced
    unsynced := ∅
    headerSyncing := d.persistedPages }

def syncOk (d : Disk) : Disk := { d with syncing := ∅, headerSynced := d.headerSyncing }

def syncFailed (d : Disk) : Disk := { d with syncing := ∅, unsynced := d.unsynced ∪ d.syncing }

/-- `Wal::checkpoint`. -/
def truncate (d : Disk) : Disk := { d with log := [], appended := walHeader, deferred := 0 }

/-- A sync that began after the last write of the page has succeeded, and the
header it made durable counts the page. -/
def Durable (d : Disk) (id : ℕ) : Prop :=
  id ∉ d.unsynced ∧ id ∉ d.syncing ∧ id < d.headerSynced

end Disk

/-! ## The two threads -/

structure CkptState where
  requested : Bool
  pendingLen : ℕ
  started : ℕ
  completed : ℕ
  coveredLen : ℕ
  lastOk : Bool

namespace CkptState

def initial : CkptState := ⟨false, 0, 0, 0, 0, false⟩

/-- The test of `free_truncate_if_covered`. -/
def covers (c : CkptState) (len : ℕ) : Bool :=
  c.lastOk && c.completed == c.started && !c.requested && decide (len ≤ c.coveredLen)

def request (c : CkptState) (len : ℕ) : CkptState := { c with requested := true, pendingLen := len }

def pickUp (c : CkptState) : CkptState := { c with requested := false, started := c.started + 1 }

def report (c : CkptState) (covered : ℕ) (ok : Bool) : CkptState :=
  { c with
    completed := c.completed + 1
    lastOk := ok
    coveredLen := if ok then covered else c.coveredLen }

def reset (c : CkptState) : CkptState := { c with coveredLen := 0 }

/-- No sync is queued or running. -/
def Quiet (c : CkptState) : Prop := c.requested = false ∧ c.completed = c.started

instance (c : CkptState) : Decidable c.Quiet := inferInstanceAs (Decidable (_ ∧ _))

end CkptState

/-- The background thread, with the log length its sync will cover.  While it has
picked up a request it waits for a pause in the appends, however long. -/
inductive Thread where
  | waiting
  | picked (covered : ℕ)
  | syncing (covered : ℕ)
  | synced (covered : ℕ) (ok : Bool)

/-- Who asks for a free truncation. -/
inductive Caller where
  | commit (staged : Staged) (fsync : Bool)
  | checkpoint

/-- The critical section the writer enters next. -/
inductive Writer where
  | idle
  | freeTruncate (len : ℕ) (caller : Caller)
  | truncateFree (len : ℕ) (caller : Caller)
  | resetFree (caller : Caller)
  | append (staged : Staged) (fsync : Bool)
  | flush (ids : List ℕ)
  | maybeCheckpoint
  | request (len : ℕ)
  | stall (len : ℕ)
  | await (len baseline : ℕ)
  | truncateHard
  | resetHard

/-- After a free truncation that did not happen. -/
def Caller.refused (len : ℕ) : Caller → Writer
  | .commit staged fsync => .append staged fsync
  | .checkpoint => .request len

def Caller.truncated : Caller → Writer
  | .commit staged fsync => .append staged fsync
  | .checkpoint => .idle

structure Pager where
  disk : Disk
  ckpt : CkptState
  thread : Thread
  writer : Writer
  snaps : ℕ

namespace Pager

def opened (file : ℕ → Page) (pages : ℕ) : Pager where
  disk := .opened file pages
  ckpt := .initial
  thread := .waiting
  writer := .idle
  snaps := 0

/-- The queued pages in the order of the map. -/
def flushOrder (d : Disk) : List ℕ := (d.pending.map Prod.fst).mergeSort

/-- Where `try_free_truncate` and `maybe_checkpoint` go on when a page is still queued
or the log is short. -/
def gate (soft : ℕ) (d : Disk) (caller : Caller) (otherwise : Writer) : Writer :=
  if d.pending ≠ [] ∨ d.appended < soft then otherwise else .freeTruncate d.appended caller

section Steps

variable (soft hard : ℕ)

/-- The steps of the writer. -/
inductive WriterStep : Pager → Pager → Prop where
  | commit (s : Pager) (staged : Staged) (fsync : Bool) (h : s.writer = .idle)
      (hstaged : staged ≠ []) :
      WriterStep s { s with
        writer := gate soft s.disk (.commit staged fsync) (.append staged fsync) }
  | syncWal (s : Pager) (h : s.writer = .idle) :
      WriterStep s { s with disk := s.disk.fence, writer := .flush (flushOrder s.disk) }
  | abortTx (s : Pager) (h : s.writer = .idle) :
      WriterStep s { s with disk := s.disk.appendDead frameLen, writer := .maybeCheckpoint }
  | abortDeferred (s : Pager) (h : s.writer = .idle) :
      WriterStep s { s with disk := s.disk.abortDeferred }
  | allocate (s : Pager) (h : s.writer = .idle) : WriterStep s { s with disk := s.disk.allocate }
  | append (s : Pager) (staged : Staged) (fsync : Bool) (h : s.writer = .append staged fsync) :
      WriterStep s { s with
        disk := s.disk.append staged fsync
        writer := if fsync then .flush (flushOrder (s.disk.append staged fsync)) else .idle }
  | appendFailed (s : Pager) (staged : Staged) (fsync : Bool) (n : ℕ)
      (h : s.writer = .append staged fsync) :
      WriterStep s { s with disk := s.disk.appendDead n, writer := .idle }
  | flushRetired (s : Pager) (id : ℕ) (ids : List ℕ) (h : s.writer = .flush (id :: ids))
      (hid : s.disk.pending.lookup id = none) : WriterStep s { s with writer := .flush ids }
  | flushPage (s : Pager) (id : ℕ) (ids : List ℕ) (data : Page)
      (h : s.writer = .flush (id :: ids)) (hid : s.disk.pending.lookup id = some data) :
      WriterStep s { s with disk := s.disk.writePage id data, writer := .flush ids }
  | flushFailed (s : Pager) (id : ℕ) (ids : List ℕ) (data junk : Page)
      (h : s.writer = .flush (id :: ids)) (hid : s.disk.pending.lookup id = some data) :
      WriterStep s { s with disk := s.disk.writeFailed id junk, writer := .flush ids }
  | flushDone (s : Pager) (h : s.writer = .flush []) :
      WriterStep s { s with writer := .maybeCheckpoint }
  | maybeCheckpoint (s : Pager) (h : s.writer = .maybeCheckpoint) :
      WriterStep s { s with writer := gate soft s.disk .checkpoint .idle }
  | freeTruncate (s : Pager) (len : ℕ) (caller : Caller) (h : s.writer = .freeTruncate len caller) :
      WriterStep s { s with
        writer := if s.ckpt.covers len then .truncateFree len caller else caller.refused len }
  | deferToSnapshots (s : Pager) (len : ℕ) (caller : Caller)
      (h : s.writer = .truncateFree len caller) (hsnaps : s.snaps ≠ 0) :
      WriterStep s { s with writer := caller.refused len }
  | truncateFree (s : Pager) (len : ℕ) (caller : Caller) (h : s.writer = .truncateFree len caller)
      (hsnaps : s.snaps = 0) :
      WriterStep s { s with disk := s.disk.truncate, writer := .resetFree caller }
  | resetFree (s : Pager) (caller : Caller) (h : s.writer = .resetFree caller) :
      WriterStep s { s with ckpt := s.ckpt.reset, writer := caller.truncated }
  | request (s : Pager) (len : ℕ) (h : s.writer = .request len) :
      WriterStep s { s with
        ckpt := if s.ckpt.Quiet then s.ckpt.request len else s.ckpt
        writer := if len < hard then .idle else .stall len }
  | stallDone (s : Pager) (len : ℕ) (h : s.writer = .stall len) (hquiet : s.ckpt.Quiet)
      (hcovered : s.ckpt.lastOk = true ∧ len ≤ s.ckpt.coveredLen) :
      WriterStep s { s with writer := .truncateHard }
  | stallRequest (s : Pager) (len : ℕ) (h : s.writer = .stall len) (hquiet : s.ckpt.Quiet)
      (hcovered : ¬(s.ckpt.lastOk = true ∧ len ≤ s.ckpt.coveredLen)) :
      WriterStep s { s with ckpt := s.ckpt.request len, writer := .await len s.ckpt.started }
  | awaited (s : Pager) (len baseline : ℕ) (h : s.writer = .await len baseline)
      (hdone : baseline < s.ckpt.completed) :
      WriterStep s { s with writer := if s.ckpt.lastOk then .stall len else .idle }
  | truncateHard (s : Pager) (h : s.writer = .truncateHard) :
      WriterStep s { s with disk := s.disk.truncate, writer := .resetHard }
  | resetHard (s : Pager) (h : s.writer = .resetHard) :
      WriterStep s { s with ckpt := s.ckpt.reset, writer := .idle }

/-- The steps of `spawn_checkpoint_thread`. -/
inductive ThreadStep : Pager → Pager → Prop where
  | pickUp (s : Pager) (h : s.thread = .waiting) (hrequested : s.ckpt.requested = true) :
      ThreadStep s { s with ckpt := s.ckpt.pickUp, thread := .picked s.ckpt.pendingLen }
  | startSync (s : Pager) (covered : ℕ) (h : s.thread = .picked covered) :
      ThreadStep s { s with disk := s.disk.startSync, thread := .syncing covered }
  | syncOk (s : Pager) (covered : ℕ) (h : s.thread = .syncing covered) :
      ThreadStep s { s with disk := s.disk.syncOk, thread := .synced covered true }
  | syncFailed (s : Pager) (covered : ℕ) (h : s.thread = .syncing covered) :
      ThreadStep s { s with disk := s.disk.syncFailed, thread := .synced covered false }
  | report (s : Pager) (covered : ℕ) (ok : Bool) (h : s.thread = .synced covered ok) :
      ThreadStep s { s with ckpt := s.ckpt.report covered ok, thread := .waiting }

/-- The steps of the readers. -/
inductive ReaderStep : Pager → Pager → Prop where
  | beginSnapshot (s : Pager) : ReaderStep s { s with snaps := s.snaps + 1 }
  | endSnapshot (s : Pager) : ReaderStep s { s with snaps := s.snaps - 1 }

def Step (s s' : Pager) : Prop := WriterStep soft hard s s' ∨ ThreadStep s s' ∨ ReaderStep s s'

/-- Any interleaving from any opened file. -/
def Reachable (s : Pager) : Prop :=
  ∃ file pages, Relation.ReflTransGen (Step soft hard) (opened file pages) s

end Steps

end Pager

end Docsql.Checkpoint
