import Docsql.Wal.Frame

/-!
# The write-ahead log

`wal.rs`: the operations of the log on its file and counters, and `open`, which
scans a surviving file and cuts its torn end off.  File writes and fsyncs may
fail; what they return is read from a list of outcomes.
-/

namespace Docsql

namespace Wal

/-! ## Deferred commits during a scan -/

inductive DeferredStatus where
  | pending
  | durable
  | voided
deriving DecidableEq, Repr

structure DeferredEntry where
  lsn : UInt64
  txid : UInt64
  status : DeferredStatus
deriving DecidableEq, Repr

abbrev DeferredSet := List DeferredEntry

namespace DeferredSet

def push (d : DeferredSet) (lsn txid : UInt64) : DeferredSet := d ++ [⟨lsn, txid, .pending⟩]

def fence (d : DeferredSet) (fenceLsn : UInt64) : DeferredSet :=
  d.map fun e => if e.lsn < fenceLsn ∧ e.status = .pending then { e with status := .durable } else e

/-- A voided entry stays voided. -/
def abort (d : DeferredSet) (txid abortLsn : UInt64) : DeferredSet :=
  d.map fun e => if e.txid = txid ∧ e.lsn < abortLsn then { e with status := .voided } else e

def durableLsns (d : DeferredSet) : List UInt64 :=
  (d.filter fun e => e.status = .durable).map DeferredEntry.lsn

def durableTxids (d : DeferredSet) : List UInt64 :=
  (d.filter fun e => e.status = .durable).map DeferredEntry.txid

end DeferredSet

end Wal

/-! ## State and operations -/

/-- `io` lists what the coming file operations return; behind its end they
succeed. -/
structure Wal where
  file : List UInt8
  nextLsn : UInt64
  lastCommitLsn : UInt64
  durableLsn : UInt64
  appended : ℕ
  deferredSinceFence : ℕ
  deferredTxids : List UInt64
  epoch : ℕ
  poisoned : Option String
  io : List Bool

namespace Wal

abbrev WalM := StateExcept Wal WalError

open StateExcept (read update)

/-- `write_all_at`. -/
def writeAllAt (file : List UInt8) (offset : ℕ) (bytes : List UInt8) : List UInt8 :=
  file.take offset ++ (List.replicate (offset - file.length) 0 ++
    (bytes ++ file.drop (offset + bytes.length)))

/-- `set_len`. -/
def setLen (file : List UInt8) (len : ℕ) : List UInt8 :=
  file.take len ++ List.replicate (len - file.length) 0

/-- The log `open` creates where there is none. -/
def create (io : List Bool) : Wal where
  file := header
  nextLsn := 1
  lastCommitLsn := 0
  durableLsn := 0
  appended := header.length
  deferredSinceFence := 0
  deferredTxids := []
  epoch := 0
  poisoned := none
  io := io

/-- Whether the next file operation succeeds. -/
def ioOk : WalM Bool := do
  let w ← read
  update fun w => { w with io := w.io.tail }
  return w.io.headD true

def poison (reason : String) : WalM Unit := update fun w => { w with poisoned := some reason }

def append (kind : UInt8) (txid : UInt64) (payload : List UInt8) : WalM UInt64 := do
  let w ← read
  match w.poisoned with
  | some reason => throw (.io reason)
  | none =>
    let record : LogRecord := ⟨w.nextLsn, kind, txid, payload⟩
    if !(← ioOk) then
      -- whatever part of the frame was written is cut off again
      update fun w => { w with file := setLen w.file w.appended }
      throw (.io "write")
    update fun w => { w with
      file := writeAllAt w.file w.appended record.frame
      appended := w.appended + record.frame.length }
    if kind = kindCommitDeferred then
      update fun w => { w with
        deferredSinceFence := w.deferredSinceFence + 1
        deferredTxids := w.deferredTxids ++ [txid] }
    update fun w => { w with nextLsn := w.nextLsn + 1 }
    return record.lsn

def begin (txid : UInt64) : WalM UInt64 := append kindBegin txid []

def logWrite (txid : UInt64) (payload : List UInt8) : WalM UInt64 := append kindWrite txid payload

def abort (txid : UInt64) : WalM UInt64 := append kindAbort txid []

def noteCommit (lsn : UInt64) : WalM Unit :=
  update fun w => { w with lastCommitLsn := max w.lastCommitLsn lsn }

def commitDeferred (txid : UInt64) : WalM UInt64 := do
  let lsn ← append kindCommitDeferred txid []
  noteCommit lsn
  return lsn

def fence : WalM UInt64 := do
  let w ← read
  if w.deferredSinceFence = 0 then return 0
  if w.deferredTxids.isEmpty then
    throw (.io ("WAL deferred bookkeeping diverged (outstanding count without txids); " ++
      "refusing to fence"))
  let lsn ← append kindFence 0 []
  update fun w => { w with deferredSinceFence := 0, deferredTxids := [] }
  noteCommit lsn
  return lsn

def sync : WalM Unit := do
  if !(← ioOk) then
    poison "WAL fsync failed; on-disk durability is ambiguous"
    throw (.io "fsync")
  update fun w => { w with durableLsn := max w.durableLsn w.lastCommitLsn }

/-- The step, with the log poisoned if it fails. -/
def orPoison {α : Type} (reason : String) (m : WalM α) : WalM α :=
  tryCatch m fun e => do
    poison reason
    throw e

def commit (txid : UInt64) : WalM UInt64 := do
  let fenceLsn ← fence
  let lsn ←
    if 0 < fenceLsn then
      orPoison "WAL append failed after fence; on-disk durability is ambiguous"
        (append kindCommit txid [])
    else append kindCommit txid []
  noteCommit lsn
  sync
  return lsn

/-- The loop of `abort_deferred` over the outstanding transactions. -/
def abortLoop : List UInt64 → WalM Unit
  | [] => return ()
  | txid :: txids => do
    let _ ← orPoison "WAL abort append failed; on-disk rollback state is ambiguous"
      (append kindAbort txid [])
    abortLoop txids

def abortDeferred : WalM Unit := do
  let w ← read
  abortLoop w.deferredTxids
  update fun w => { w with deferredTxids := [], deferredSinceFence := 0 }

/-- Empty the file, then write and sync a fresh header. -/
def checkpoint : WalM Unit := do
  if !(← ioOk) then throw (.io "set_len")
  update fun w => { w with file := [] }
  orPoison "checkpoint truncated the WAL but could not rewrite its header" do
    if !(← ioOk) then throw (.io "write")
    update fun w => { w with file := header }
    if !(← ioOk) then throw (.io "fsync")
  update fun w => { w with
    durableLsn := 0
    lastCommitLsn := 0
    nextLsn := 1
    appended := header.length
    deferredSinceFence := 0
    deferredTxids := []
    epoch := w.epoch + 1
    poisoned := none }

/-! ## Opening a surviving log -/

structure OpenScan where
  nextLsn : UInt64 := 1
  durable : UInt64 := 0
  openTx : Finset UInt64 := ∅
  deferred : DeferredSet := []

namespace OpenScan

def note (s : OpenScan) (rec : LogRecord) : OpenScan :=
  let s :=
    if rec.kind = kindBegin then { s with openTx := insert rec.txid s.openTx }
    else if rec.kind = kindCommit ∧ rec.txid ∈ s.openTx then
      { s with openTx := s.openTx.erase rec.txid, durable := max s.durable rec.lsn }
    else if rec.kind = kindCommitDeferred ∧ rec.txid ∈ s.openTx then
      { s with deferred := s.deferred.push rec.lsn rec.txid }
    else if rec.kind = kindFence then { s with deferred := s.deferred.fence rec.lsn }
    else if rec.kind = kindAbort then
      { s with
        openTx := s.openTx.erase rec.txid
        deferred := s.deferred.abort rec.txid rec.lsn }
    else s
  { s with nextLsn := rec.lsn + 1 }

end OpenScan

def openWal (file : List UInt8) (io : List Bool) : Except WalError Wal :=
  if file.length = 0 then .ok (.create io)
  else if file.length < header.length then .error (.corrupt 0 "bad header")
  else if file.take header.length ≠ header then .error (.corrupt 0 "bad header")
  else do
    let (recs, goodEnd) ← frames file
    let scan := recs.foldl OpenScan.note {}
    let durable := scan.deferred.durableLsns.foldl max scan.durable
    return {
      file := setLen file goodEnd
      nextLsn := scan.nextLsn
      lastCommitLsn := durable
      durableLsn := durable
      appended := goodEnd
      deferredSinceFence := 0
      deferredTxids := []
      epoch := 0
      poisoned := none
      io := io }

/-! ## Runs -/

inductive Op where
  | begin (txid : UInt64)
  | logWrite (txid : UInt64) (payload : List UInt8)
  | commit (txid : UInt64)
  | commitDeferred (txid : UInt64)
  | fence
  | sync
  | abort (txid : UInt64)
  | abortDeferred
  | checkpoint
deriving DecidableEq, Repr

namespace Op

def exec : Op → WalM Unit
  | .begin txid => do let _ ← Wal.begin txid
  | .logWrite txid payload => do let _ ← Wal.logWrite txid payload
  | .commit txid => do let _ ← Wal.commit txid
  | .commitDeferred txid => do let _ ← Wal.commitDeferred txid
  | .fence => do let _ ← Wal.fence
  | .sync => Wal.sync
  | .abort txid => do let _ ← Wal.abort txid
  | .abortDeferred => Wal.abortDeferred
  | .checkpoint => Wal.checkpoint

/-- The payload is one a valid frame may carry. -/
def Bounded : Op → Prop
  | .logWrite _ payload => payload.length ≤ maxFramePayload
  | _ => True

instance : ∀ op : Op, Decidable op.Bounded
  | .logWrite _ payload => inferInstanceAs (Decidable (payload.length ≤ maxFramePayload))
  | .begin _ | .commit _ | .commitDeferred _ | .fence | .sync | .abort _ | .abortDeferred
  | .checkpoint => inferInstanceAs (Decidable True)

end Op

/-- The log after the operations; a failed one is reported and the caller goes
on. -/
def run (ops : List Op) (w : Wal) : Wal := ops.foldl (fun w op => (op.exec w).2) w

end Wal

end Docsql
