import Docsql.Lib.Run
import Docsql.Backup.Restore

/-!
# Snapshot adoptions and the exported chain

An adoption voids the journal, moves the epoch and sweeps the exported segments, first
in the directory and then in the remote copy.  Exports run beside it in steps of their
own and compare the epoch twice.  A restore replays what it finds in both places.
-/

namespace Docsql.Backup.Adoption

open Lib.Run

/-- An incremental file under its name, with the epoch its journal read saw. -/
structure Segment where
  stamp : ℕ
  epoch : ℕ
  file : IncrFile

/-- A full backup and the number of adoptions before its dump. -/
structure Anchor where
  base : Base
  adoptions : ℕ

/-- The one backup or export in flight. -/
inductive Task where
  | idle
  | started (cursor : ℕ)
  | read (seg : Segment)
  | written (seg : Segment)
  | checked (seg : Segment)
  | renamed (seg : Segment)
  | landed (seg : Segment)
  /-- Uploads, with the PUT that is under way. -/
  | uploading (put : Option Segment)
  | dumped (anchor : Anchor)

/-- The sweep takes the temporary file of an export, whose next step then fails. -/
def Task.sweepTmp : Task → Task
  | .written _ | .checked _ => .idle
  | task => task

/-- How far an adoption is; it holds the write path to its end. -/
inductive Phase where
  | idle
  | voided
  | bumped
  | swept
deriving DecidableEq

structure State where
  /-- All entries with their present texts, trimmed ones included. -/
  hist : List Line := []
  trimmed : ℕ := 0
  dir : List Segment := []
  remote : List Segment := []
  bases : List Anchor := []
  epoch : ℕ := 0
  /-- `REMOTE_INVAL_MARKER` is in the directory. -/
  marker : Bool := false
  task : Task := .idle
  phase : Phase := .idle
  stamp : ℕ := 0
  /-- The last entry that an adoption overruled. -/
  voidedTo : ℕ := 0
  adoptions : ℕ := 0
  adoptedAt : ℤ := 0
  /-- No listing has shown the remote copy clean since the last adoption. -/
  unconfirmed : Bool := false

def node (s : State) : Node where
  journal := (s.hist.filter fun l => s.trimmed < l.seq).map Line.row
  next := s.hist.length + 1
  incr := s.dir.map Segment.file
  bases := s.bases.map Anchor.base

/-- `journal_void_all` on one entry. -/
def voidLine (l : Line) : Line := { l with sql := voidSentinel }

inductive Event where
  | write (ts : ℤ) (sql : JournalText)
  | trim (cutoff : ℕ)
  /-- The transaction of `apply_repair_sync`. -/
  | adopt (now : ℤ)
  | bumpEpoch
  | sweepLocal
  | markRemote
  | deleteRemote (stamp : ℕ)
  | confirmRemote
  | finishAdoption
  | startExport
  | readJournal
  | writeTmp
  | checkEpoch
  | renameFile
  | recheckEpoch
  | writeSidecar (keep : ℕ)
  | failTask
  | startPut (stamp : ℕ)
  | landPut
  | endTask
  | dumpBackup (dump : List String) (now : ℕ)
  | landBackup (keep : ℕ)

def dropStamp (stamp : ℕ) (segs : List Segment) : List Segment :=
  segs.filter fun seg => seg.stamp ≠ stamp

/-- A task that fails takes the file it is about with it. -/
def failTask (s : State) : State :=
  match s.task with
  | .renamed _ => s
  | .landed seg => { s with dir := dropStamp seg.stamp s.dir, task := .idle }
  | _ => { s with task := .idle }

/-- The journal read of an export, under the write path. -/
def readJournal (s : State) : State :=
  match s.task with
  | .started cursor =>
    if s.phase = .idle then
      match segmentAfter (node s) cursor with
      | .ok (some f) => { s with task := .read ⟨s.stamp, s.epoch, f⟩, stamp := s.stamp + 1 }
      | _ => { s with task := .idle }
    else s
  | _ => s

def checkEpoch (s : State) : State :=
  match s.task with
  | .written seg =>
    if s.epoch = seg.epoch then { s with task := .checked seg } else { s with task := .idle }
  | _ => s

/-- The second check, after the rename. -/
def recheckEpoch (s : State) : State :=
  match s.task with
  | .renamed seg =>
    if s.epoch = seg.epoch then { s with task := .landed seg }
    else { s with dir := dropStamp seg.stamp s.dir, task := .idle }
  | _ => s

def startPut (s : State) (stamp : ℕ) : State :=
  match s.task with
  | .uploading none =>
    match s.dir.find? fun seg => seg.stamp = stamp with
    | some seg => { s with task := .uploading (some seg) }
    | none => s
  | _ => s

def landPut (s : State) : State :=
  match s.task with
  | .uploading (some seg) =>
    { s with remote := dropStamp seg.stamp s.remote ++ [seg], task := .uploading none }
  | _ => s

/-- A listing without segments; the one that counts comes after the local sweep. -/
def confirmRemote (s : State) : State :=
  if s.remote.isEmpty then
    { s with marker := false
             unconfirmed := s.unconfirmed && (s.phase = .voided || s.phase = .bumped) }
  else s

/-- Steps that do not apply leave the state as it is. -/
def step (s : State) : Event → State
  | .write ts sql =>
    if s.phase = .idle then { s with hist := s.hist ++ [⟨s.hist.length + 1, ts, sql⟩] } else s
  | .trim cutoff => if s.phase = .idle then { s with trimmed := max s.trimmed cutoff } else s
  | .adopt now =>
    if s.phase = .idle then
      { s with hist := s.hist.map voidLine, phase := .voided, voidedTo := s.hist.length
               adoptions := s.adoptions + 1, adoptedAt := now, unconfirmed := true }
    else s
  | .bumpEpoch =>
    if s.phase = .voided then { s with epoch := s.epoch + 1, phase := .bumped } else s
  | .sweepLocal =>
    if s.phase = .bumped then
      { s with dir := [], task := s.task.sweepTmp, phase := .swept }
    else s
  | .markRemote => if s.phase = .swept then { s with marker := true } else s
  | .deleteRemote stamp => { s with remote := dropStamp stamp s.remote }
  | .confirmRemote => confirmRemote s
  | .finishAdoption => if s.phase = .swept then { s with phase := .idle } else s
  | .startExport =>
    match s.task with
    | .idle => { s with task := .started (pitrCursor (node s)) }
    | _ => s
  | .readJournal => readJournal s
  | .writeTmp =>
    match s.task with
    | .read seg => { s with task := .written seg }
    | _ => s
  | .checkEpoch => checkEpoch s
  | .renameFile =>
    match s.task with
    | .checked seg => { s with dir := s.dir ++ [seg], task := .renamed seg }
    | _ => s
  | .recheckEpoch => recheckEpoch s
  | .writeSidecar keep =>
    match s.task with
    | .landed _ => { s with dir := pruneOldest (max keep 4) s.dir, task := .uploading none }
    | _ => s
  | .failTask => failTask s
  | .startPut stamp => startPut s stamp
  | .landPut => landPut s
  | .endTask =>
    match s.task with
    | .uploading _ => { s with task := .idle }
    | _ => s
  | .dumpBackup dump now =>
    match s.task with
    | .idle =>
      if s.phase = .idle then
        let head := journalHead (node s)
        { s with task := .dumped ⟨⟨some ⟨head, now⟩, dump⟩, s.adoptions⟩ }
      else s
    | _ => s
  | .landBackup keep =>
    match s.task with
    | .dumped anchor =>
      { s with bases := pruneOldest keep (s.bases ++ [anchor]), task := .uploading none }
    | _ => s

def run (events : List Event) : State := events.foldl step {}

/-! ## Restores -/

/-- The directory after the missing segments have been fetched. -/
def fetched (s : State) : List Segment :=
  s.dir ++ s.remote.filter fun seg => seg.stamp ∉ s.dir.map Segment.stamp

def restore (s : State) (anchor : Anchor) (target : ℤ) :
    Except String (List String × Option String) :=
  restoreInner { node s with incr := (fetched s).map Segment.file } anchor.base (some target)

/-- No task and no adoption is in flight. -/
structure Quiet (s : State) : Prop where
  task : s.task = .idle
  phase : s.phase = .idle

/-- No text of an overruled entry is replayed, and a backup from before the last
adoption is refused for a target after it. -/
def Discards (s : State) (anchor : Anchor) (target : ℤ) : Prop :=
  (∀ stmts note, restore s anchor target = .ok (stmts, note) →
    ∃ lines : List Line, stmts = anchor.base.dump ++ lines.map Line.sql ∧
      ∀ l ∈ lines, l ∈ s.hist ∧ s.voidedTo < l.seq) ∧
  (anchor.adoptions < s.adoptions → s.adoptedAt ≤ target →
    ∃ e, restore s anchor target = .error e)

/-- A PUT lands while the epoch is still the one its journal read saw, or before the
remote copy has been confirmed clean. -/
def LandsInTime (s : State) : Event → Prop
  | .landPut =>
    match s.task with
    | .uploading (some seg) => s.unconfirmed = true ∨ seg.epoch = s.epoch
    | _ => True
  | _ => True

/-! ## The invariant -/

def Task.segment? : Task → Option Segment
  | .read seg | .written seg | .checked seg | .renamed seg | .landed seg => some seg
  | .uploading put => put
  | _ => none

def Task.anchor? : Task → Option Anchor
  | .dumped anchor => some anchor
  | _ => none

/-- A segment that is somewhere. -/
def Known (s : State) (seg : Segment) : Prop :=
  seg ∈ s.dir ∨ seg ∈ s.remote ∨ s.task.segment? = some seg

/-- The local sweep of the last adoption is done. -/
def Swept (s : State) : Prop := s.phase = .swept ∨ s.phase = .idle

structure Inv (s : State) : Prop where
  numbered : Numbered 1 s.hist
  voidedTo_le : s.voidedTo ≤ s.hist.length
  voided : ∀ l ∈ s.hist, l.seq ≤ s.voidedTo → l.sql = voidSentinel
  epochs : ∀ seg, Known s seg → seg.epoch ≤ s.epoch
  /-- What was read in this epoch is still the history, unless it has just been voided. -/
  stretches : ∀ seg, Known s seg → seg.epoch = s.epoch → s.phase ≠ .voided →
    ∃ h, Stretch s.hist seg.file h
  dirFresh : Swept s → ∀ seg ∈ s.dir, seg.epoch = s.epoch ∨ s.task = .renamed seg
  remoteFresh : s.unconfirmed = false → ∀ seg ∈ s.remote, seg.epoch = s.epoch
  settled : s.unconfirmed = false → Swept s
  anchors : ∀ a, a ∈ s.bases ∨ s.task.anchor? = some a →
    ∀ h, a.base.header = some h → h.journalSeq ≤ s.hist.length

section Steps

variable {s : State}

theorem inv_init : Inv {} where
  numbered := rfl
  voidedTo_le := le_rfl
  voided := by simp
  epochs := by simp [Known, Task.segment?]
  stretches := by simp [Known, Task.segment?]
  dirFresh := by simp
  remoteFresh := by simp
  settled := fun _ => .inr rfl
  anchors := by simp [Task.anchor?]

/-- Moves of segments and backups that add none. -/
theorem Inv.move (h : Inv s) {dir remote : List Segment} {bases : List Anchor} {task : Task}
    (hknown : ∀ seg, seg ∈ dir ∨ seg ∈ remote ∨ task.segment? = some seg → Known s seg)
    (hdir : Swept s → ∀ seg ∈ dir, seg.epoch = s.epoch ∨ task = .renamed seg)
    (hremote : s.unconfirmed = false → ∀ seg ∈ remote, seg.epoch = s.epoch)
    (hanchors : ∀ a, a ∈ bases ∨ task.anchor? = some a → a ∈ s.bases ∨ s.task.anchor? = some a) :
    Inv { s with dir := dir, remote := remote, bases := bases, task := task } where
  numbered := h.numbered
  voidedTo_le := h.voidedTo_le
  voided := h.voided
  epochs := fun seg hseg => h.epochs seg (hknown seg hseg)
  stretches := fun seg hseg => h.stretches seg (hknown seg hseg)
  dirFresh := hdir
  remoteFresh := hremote
  settled := h.settled
  anchors := fun a ha => h.anchors a (hanchors a ha)

theorem Inv.moveFiles (h : Inv s) {dir remote : List Segment} {task : Task}
    (hknown : ∀ seg, seg ∈ dir ∨ seg ∈ remote ∨ task.segment? = some seg → Known s seg)
    (hdir : Swept s → ∀ seg ∈ dir, seg.epoch = s.epoch ∨ task = .renamed seg)
    (hremote : s.unconfirmed = false → ∀ seg ∈ remote, seg.epoch = s.epoch)
    (htask : task.anchor? = none) :
    Inv { s with dir := dir, remote := remote, task := task } := by
  refine h.move hknown hdir hremote fun a ha => ?_
  rw [htask] at ha
  exact .inl (ha.resolve_right (by simp))

/-- A task moves on with the segment it has. -/
theorem Inv.moveTask (h : Inv s) {task : Task} (hnot : ∀ seg, s.task ≠ .renamed seg)
    (hsegment : ∀ seg, task.segment? = some seg → Known s seg)
    (hanchor : ∀ a, task.anchor? = some a → s.task.anchor? = some a) :
    Inv { s with task := task } := by
  refine h.move (fun seg hseg => ?_) (fun hswept seg hseg => ?_) h.remoteFresh fun a ha =>
    ha.imp id (hanchor a)
  · rcases hseg with hseg | hseg | hseg
    · exact .inl hseg
    · exact .inr (.inl hseg)
    · exact hsegment seg hseg
  · exact .inl ((h.dirFresh hswept seg hseg).resolve_right (hnot seg))

theorem mem_of_mem_dropStamp {stamp : ℕ} {segs : List Segment} {seg : Segment}
    (h : seg ∈ dropStamp stamp segs) : seg ∈ segs ∧ seg.stamp ≠ stamp := by
  obtain ⟨hmem, hne⟩ := List.mem_filter.1 h
  exact ⟨hmem, of_decide_eq_true hne⟩

theorem Inv.write (h : Inv s) (ts : ℤ) (sql : JournalText) :
    Inv { s with hist := s.hist ++ [⟨s.hist.length + 1, ts, sql⟩] } where
  numbered := h.numbered.snoc (Nat.add_comm _ _)
  voidedTo_le := by
    rw [List.length_append]
    exact h.voidedTo_le.trans (Nat.le_add_right _ _)
  voided := fun l hl hle => by
    rcases List.mem_append.1 hl with hl | hl
    · exact h.voided l hl hle
    · have hbound := h.voidedTo_le
      rw [List.mem_singleton.1 hl] at hle
      dsimp only at hle
      omega
  epochs := h.epochs
  stretches := fun seg hseg hepoch hphase => by
    obtain ⟨hd, hstretch⟩ := h.stretches seg hseg hepoch hphase
    exact ⟨hd, hstretch.snoc (Nat.lt_succ_self _)⟩
  dirFresh := h.dirFresh
  remoteFresh := h.remoteFresh
  settled := h.settled
  anchors := fun a ha hd hhd => by
    rw [List.length_append]
    exact (h.anchors a ha hd hhd).trans (Nat.le_add_right _ _)

theorem map_voidLine_seq (hist : List Line) :
    (hist.map voidLine).map Line.seq = hist.map Line.seq := by
  rw [List.map_map]
  rfl

theorem Inv.adopt (h : Inv s) (now : ℤ) :
    Inv { s with hist := s.hist.map voidLine, phase := .voided, voidedTo := s.hist.length
                 adoptions := s.adoptions + 1, adoptedAt := now, unconfirmed := true } where
  numbered := by
    have hnumbered := h.numbered
    unfold Numbered at hnumbered ⊢
    rw [map_voidLine_seq, List.length_map, hnumbered]
  voidedTo_le := by rw [List.length_map]
  voided := fun l hl _ => by
    obtain ⟨l', -, rfl⟩ := List.mem_map.1 hl
    rfl
  epochs := h.epochs
  stretches := fun seg _ _ hphase => absurd rfl hphase
  dirFresh := fun hswept => by
    rcases hswept with hswept | hswept <;> cases hswept
  remoteFresh := fun hconfirmed => by cases hconfirmed
  settled := fun hconfirmed => by cases hconfirmed
  anchors := by
    rw [List.length_map]
    exact h.anchors

theorem Inv.bumpEpoch (h : Inv s) (hphase : s.phase = .voided) :
    Inv { s with epoch := s.epoch + 1, phase := .bumped } where
  numbered := h.numbered
  voidedTo_le := h.voidedTo_le
  voided := h.voided
  epochs := fun seg hseg => (h.epochs seg hseg).trans (Nat.le_succ _)
  stretches := fun seg hseg hepoch _ => by
    have hle := h.epochs seg hseg
    rw [hepoch] at hle
    exact absurd hle (Nat.not_succ_le_self _)
  dirFresh := fun hswept => by
    rcases hswept with hswept | hswept <;> cases hswept
  remoteFresh := fun hconfirmed => by
    have hswept := h.settled hconfirmed
    rw [Swept, hphase] at hswept
    rcases hswept with hswept | hswept <;> cases hswept
  settled := fun hconfirmed => by
    have hswept := h.settled hconfirmed
    rw [Swept, hphase] at hswept
    rcases hswept with hswept | hswept <;> cases hswept
  anchors := h.anchors

theorem segment_of_sweepTmp {task : Task} {seg : Segment}
    (h : task.sweepTmp.segment? = some seg) : task.segment? = some seg := by
  cases task <;> first | exact h | cases h

theorem anchor?_sweepTmp (task : Task) : task.sweepTmp.anchor? = task.anchor? := by
  cases task <;> rfl

theorem Inv.sweepLocal (h : Inv s) (hphase : s.phase = .bumped) :
    Inv { s with dir := [], task := s.task.sweepTmp, phase := .swept } := by
  have hknown (seg : Segment) (hseg : seg ∈ ([] : List Segment) ∨ seg ∈ s.remote ∨
      s.task.sweepTmp.segment? = some seg) : Known s seg :=
    .inr ((hseg.resolve_left List.not_mem_nil).imp id segment_of_sweepTmp)
  exact {
    numbered := h.numbered
    voidedTo_le := h.voidedTo_le
    voided := h.voided
    epochs := fun seg hseg => h.epochs seg (hknown seg hseg)
    stretches := fun seg hseg hepoch _ =>
      h.stretches seg (hknown seg hseg) hepoch (by rw [hphase]; decide)
    dirFresh := fun _ seg hseg => absurd hseg List.not_mem_nil
    remoteFresh := h.remoteFresh
    settled := fun _ => .inl rfl
    anchors := fun a ha => h.anchors a (by rwa [anchor?_sweepTmp] at ha) }

theorem Inv.finishAdoption (h : Inv s) (hphase : s.phase = .swept) :
    Inv { s with phase := .idle } where
  numbered := h.numbered
  voidedTo_le := h.voidedTo_le
  voided := h.voided
  epochs := h.epochs
  stretches := fun seg hseg hepoch _ => h.stretches seg hseg hepoch (by rw [hphase]; decide)
  dirFresh := fun _ => h.dirFresh (.inl hphase)
  remoteFresh := h.remoteFresh
  settled := fun _ => .inr rfl
  anchors := h.anchors

theorem Inv.confirmRemote (h : Inv s) : Inv (confirmRemote s) := by
  unfold Adoption.confirmRemote
  split
  · rename_i hempty
    have hnil : s.remote = [] := List.isEmpty_iff.1 hempty
    refine ⟨h.numbered, h.voidedTo_le, h.voided, h.epochs, h.stretches, h.dirFresh,
      fun _ seg hseg => ?_, fun hconfirmed => ?_, h.anchors⟩
    · rw [hnil] at hseg
      exact absurd hseg List.not_mem_nil
    · show Swept s
      dsimp only at hconfirmed
      cases hphase : s.phase with
      | idle => exact .inr hphase
      | swept => exact .inl hphase
      | voided | bumped =>
        refine h.settled ?_
        rw [hphase] at hconfirmed
        simpa using hconfirmed
  · exact h

/-! What each kind of step does to the segments. -/

theorem Inv.setTrimmed (h : Inv s) (trimmed : ℕ) : Inv { s with trimmed := trimmed } :=
  ⟨h.numbered, h.voidedTo_le, h.voided, h.epochs, h.stretches, h.dirFresh, h.remoteFresh,
    h.settled, h.anchors⟩

theorem Inv.setMarker (h : Inv s) (marker : Bool) : Inv { s with marker := marker } :=
  ⟨h.numbered, h.voidedTo_le, h.voided, h.epochs, h.stretches, h.dirFresh, h.remoteFresh,
    h.settled, h.anchors⟩

theorem Inv.deleteRemote (h : Inv s) (stamp : ℕ) :
    Inv { s with remote := dropStamp stamp s.remote } := by
  refine h.move (fun seg hseg => ?_) h.dirFresh (fun hconfirmed seg hseg => ?_) fun a ha => ha
  · rcases hseg with hseg | hseg | hseg
    · exact .inl hseg
    · exact .inr (.inl (mem_of_mem_dropStamp hseg).1)
    · exact .inr (.inr hseg)
  · exact h.remoteFresh hconfirmed seg (mem_of_mem_dropStamp hseg).1

theorem Inv.readJournal (h : Inv s) : Inv (readJournal s) := by
  unfold Adoption.readJournal
  split
  case h_2 => exact h
  rename_i cursor htask
  split
  case isFalse => exact h
  rename_i hidle
  have hnot (seg : Segment) : s.task ≠ .renamed seg := by simp [htask]
  rcases segmentAfter_cases h.numbered (n := node s) rfl cursor with
    ⟨e, he⟩ | hnone | ⟨f, hd, hf, -, hok⟩
  · rw [he]
    exact h.moveTask hnot (by simp [Task.segment?]) (by simp [Task.anchor?])
  · rw [hnone]
    exact h.moveTask hnot (by simp [Task.segment?]) (by simp [Task.anchor?])
  · rw [hok]
    dsimp only
    refine ⟨h.numbered, h.voidedTo_le, h.voided, fun seg hseg => ?_,
      fun seg hseg hepoch hphase => ?_, fun hswept seg hseg => ?_, h.remoteFresh, h.settled,
      fun a ha => ?_⟩
    · rcases hseg with hseg | hseg | hseg
      · exact h.epochs seg (.inl hseg)
      · exact h.epochs seg (.inr (.inl hseg))
      · exact (congrArg Segment.epoch (Option.some.inj hseg)).ge
    · rcases hseg with hseg | hseg | hseg
      · exact h.stretches seg (.inl hseg) hepoch hphase
      · exact h.stretches seg (.inr (.inl hseg)) hepoch hphase
      · exact ⟨hd, Option.some.inj hseg ▸ hf⟩
    · exact .inl ((h.dirFresh hswept seg hseg).resolve_right (hnot seg))
    · rcases ha with ha | ha
      · exact h.anchors a (.inl ha)
      · cases ha

theorem Inv.renameFile (h : Inv s) {seg : Segment} (htask : s.task = .checked seg) :
    Inv { s with dir := s.dir ++ [seg], task := .renamed seg } := by
  have hheld : s.task.segment? = some seg := by rw [htask]; rfl
  refine h.moveFiles (fun r hr => ?_) (fun hswept r hr => ?_) h.remoteFresh rfl
  · rcases hr with hr | hr | hr
    · rcases List.mem_append.1 hr with hr | hr
      · exact .inl hr
      · exact .inr (.inr (List.mem_singleton.1 hr ▸ hheld))
    · exact .inr (.inl hr)
    · exact .inr (.inr (hheld.trans hr))
  · rcases List.mem_append.1 hr with hr | hr
    · exact .inl ((h.dirFresh hswept r hr).resolve_right (by simp [htask]))
    · exact .inr (by rw [List.mem_singleton.1 hr])

theorem Inv.checkEpoch (h : Inv s) : Inv (checkEpoch s) := by
  unfold Adoption.checkEpoch
  split
  case h_2 => exact h
  rename_i seg htask
  have hnot (r : Segment) : s.task ≠ .renamed r := by simp [htask]
  have hheld : s.task.segment? = some seg := by rw [htask]; rfl
  split
  · exact h.moveTask hnot (fun r hr => .inr (.inr (hheld.trans hr))) (by simp [Task.anchor?])
  · exact h.moveTask hnot (by simp [Task.segment?]) (by simp [Task.anchor?])

theorem Inv.recheckEpoch (h : Inv s) : Inv (recheckEpoch s) := by
  unfold Adoption.recheckEpoch
  split
  case h_2 => exact h
  rename_i seg htask
  have hheld : s.task.segment? = some seg := by rw [htask]; rfl
  have hother {r : Segment} (hr : s.task = .renamed r) : r = seg := by
    rw [htask] at hr
    exact (Task.renamed.inj hr).symm
  split
  · rename_i hepoch
    refine h.moveFiles (fun r hr => ?_) (fun hswept r hr => ?_) h.remoteFresh rfl
    · exact hr.imp id fun hr => hr.imp id fun hr => hheld.trans hr
    · rcases h.dirFresh hswept r hr with hr | hr
      · exact .inl hr
      · exact .inl (by rw [hother hr, hepoch])
  · refine h.moveFiles (fun r hr => ?_) (fun hswept r hr => ?_) h.remoteFresh rfl
    · rcases hr with hr | hr | hr
      · exact .inl (mem_of_mem_dropStamp hr).1
      · exact .inr (.inl hr)
      · cases hr
    · -- The file of the export itself is the one that goes.
      obtain ⟨hr, hne⟩ := mem_of_mem_dropStamp hr
      refine .inl ((h.dirFresh hswept r hr).resolve_right fun hsame => hne ?_)
      rw [hother hsame]

theorem Inv.writeSidecar (h : Inv s) {seg : Segment} (htask : s.task = .landed seg) (keep : ℕ) :
    Inv { s with dir := pruneOldest (max keep 4) s.dir, task := .uploading none } := by
  refine h.moveFiles (fun r hr => ?_) (fun hswept r hr => ?_) h.remoteFresh rfl
  · rcases hr with hr | hr | hr
    · exact .inl (List.mem_of_mem_drop hr)
    · exact .inr (.inl hr)
    · cases hr
  · exact .inl ((h.dirFresh hswept r (List.mem_of_mem_drop hr)).resolve_right (by simp [htask]))

theorem Inv.failTask (h : Inv s) : Inv (failTask s) := by
  unfold Adoption.failTask
  split
  · exact h
  · rename_i seg htask
    refine h.moveFiles (fun r hr => ?_) (fun hswept r hr => ?_) h.remoteFresh rfl
    · rcases hr with hr | hr | hr
      · exact .inl (mem_of_mem_dropStamp hr).1
      · exact .inr (.inl hr)
      · cases hr
    · exact .inl ((h.dirFresh hswept r (mem_of_mem_dropStamp hr).1).resolve_right
        (by simp [htask]))
  · rename_i hnot _
    exact h.moveTask (fun r => hnot r) (by simp [Task.segment?]) (by simp [Task.anchor?])

theorem Inv.startPut (h : Inv s) (stamp : ℕ) : Inv (startPut s stamp) := by
  unfold Adoption.startPut
  split
  case h_2 => exact h
  rename_i htask
  split
  · rename_i seg hfound
    refine h.moveTask (by simp [htask]) (fun r hr => ?_) (by simp [Task.anchor?])
    rw [← Option.some.inj hr]
    exact .inl (List.mem_of_find?_eq_some hfound)
  · exact h

theorem Inv.landPut (h : Inv s) (hfit : LandsInTime s .landPut) : Inv (landPut s) := by
  unfold Adoption.landPut
  split
  case h_2 => exact h
  rename_i seg htask
  have hheld : s.task.segment? = some seg := by rw [htask]; rfl
  simp only [LandsInTime, htask] at hfit
  refine h.moveFiles (fun r hr => ?_) (fun hswept r hr => ?_) (fun hconfirmed r hr => ?_) rfl
  · rcases hr with hr | hr | hr
    · exact .inl hr
    · rcases List.mem_append.1 hr with hr | hr
      · exact .inr (.inl (mem_of_mem_dropStamp hr).1)
      · exact .inr (.inr (List.mem_singleton.1 hr ▸ hheld))
    · cases hr
  · exact .inl ((h.dirFresh hswept r hr).resolve_right (by simp [htask]))
  · rcases List.mem_append.1 hr with hr | hr
    · exact h.remoteFresh hconfirmed r (mem_of_mem_dropStamp hr).1
    · rw [List.mem_singleton.1 hr]
      exact hfit.resolve_left (by simp [hconfirmed])

theorem Inv.dumpBackup (h : Inv s) (htask : s.task = .idle) (dump : List String) (now : ℕ) :
    Inv { s with task := .dumped ⟨⟨some ⟨journalHead (node s), now⟩, dump⟩, s.adoptions⟩ } where
  numbered := h.numbered
  voidedTo_le := h.voidedTo_le
  voided := h.voided
  epochs := fun seg hseg => h.epochs seg (hseg.imp id (Or.imp id nofun))
  stretches := fun seg hseg => h.stretches seg (hseg.imp id (Or.imp id nofun))
  dirFresh := fun hswept seg hseg =>
    .inl ((h.dirFresh hswept seg hseg).resolve_right (by simp [htask]))
  remoteFresh := h.remoteFresh
  settled := h.settled
  anchors := fun a ha hd hhd => by
    rcases ha with ha | ha
    · exact h.anchors a (.inl ha) hd hhd
    · rw [← Option.some.inj ha] at hhd
      rw [← Option.some.inj hhd]
      exact journalHead_le h.numbered rfl

theorem Inv.landBackup (h : Inv s) {anchor : Anchor} (htask : s.task = .dumped anchor)
    (keep : ℕ) :
    Inv { s with bases := pruneOldest keep (s.bases ++ [anchor]), task := .uploading none } := by
  refine h.move (fun seg hseg => hseg.imp id (Or.imp id nofun)) (fun hswept seg hseg => ?_)
    h.remoteFresh fun a ha => ?_
  · exact .inl ((h.dirFresh hswept seg hseg).resolve_right (by simp [htask]))
  · rcases List.mem_append.1 (List.mem_of_mem_drop (ha.resolve_right nofun)) with ha | ha
    · exact .inl ha
    · rw [htask, List.mem_singleton.1 ha]
      exact .inr rfl

theorem step_inv (h : Inv s) (e : Event) (hfit : LandsInTime s e) : Inv (step s e) := by
  cases e with
  | write ts sql =>
    dsimp only [step]
    split
    · exact h.write ts sql
    · exact h
  | trim cutoff =>
    dsimp only [step]
    split
    · exact h.setTrimmed _
    · exact h
  | adopt now =>
    dsimp only [step]
    split
    · exact h.adopt now
    · exact h
  | bumpEpoch =>
    dsimp only [step]
    split
    · rename_i hphase
      exact h.bumpEpoch hphase
    · exact h
  | sweepLocal =>
    dsimp only [step]
    split
    · rename_i hphase
      exact h.sweepLocal hphase
    · exact h
  | markRemote =>
    dsimp only [step]
    split
    · exact h.setMarker true
    · exact h
  | deleteRemote stamp => exact h.deleteRemote stamp
  | confirmRemote => exact h.confirmRemote
  | finishAdoption =>
    dsimp only [step]
    split
    · rename_i hphase
      exact h.finishAdoption hphase
    · exact h
  | startExport =>
    dsimp only [step]
    split
    · rename_i htask
      exact h.moveTask (by simp [htask]) (by simp [Task.segment?]) (by simp [Task.anchor?])
    · exact h
  | readJournal => exact h.readJournal
  | writeTmp =>
    dsimp only [step]
    split
    · rename_i seg htask
      refine h.moveTask (by simp [htask]) (fun r hr => .inr (.inr ?_)) (by simp [Task.anchor?])
      rw [htask]
      exact hr
    · exact h
  | checkEpoch => exact h.checkEpoch
  | renameFile =>
    dsimp only [step]
    split
    · rename_i seg htask
      exact h.renameFile htask
    · exact h
  | recheckEpoch => exact h.recheckEpoch
  | writeSidecar keep =>
    dsimp only [step]
    split
    · rename_i seg htask
      exact h.writeSidecar htask keep
    · exact h
  | failTask => exact h.failTask
  | startPut stamp => exact h.startPut stamp
  | landPut => exact h.landPut hfit
  | endTask =>
    dsimp only [step]
    split
    · rename_i put htask
      exact h.moveTask (by simp [htask]) (by simp [Task.segment?]) (by simp [Task.anchor?])
    · exact h
  | dumpBackup dump now =>
    dsimp only [step]
    split
    · rename_i htask
      split
      · exact h.dumpBackup htask dump now
      · exact h
    · exact h
  | landBackup keep =>
    dsimp only [step]
    split
    · rename_i anchor htask
      exact h.landBackup htask keep
    · exact h

end Steps

/-! ## What a restore finds -/

/-- The last entry the files name, or the base. -/
def chainEnd (files : List IncrFile) (baseSeq : ℕ) : ℕ :=
  ((files.filterMap IncrFile.header).map PitrHeader.toSeq).foldr max baseSeq

theorem chainEnd_isLast (files : List IncrFile) (baseSeq : ℕ) :
    IsLast files baseSeq (chainEnd files baseSeq) := by
  unfold chainEnd
  induction files with
  | nil => exact ⟨le_rfl, by simp, .inl rfl⟩
  | cons f files ih =>
    cases hf : f.header with
    | none =>
      rw [List.filterMap_cons_none hf]
      refine ⟨ih.ge_base, List.forall_mem_cons.2 ⟨by simp [hf], ih.upper⟩, ?_⟩
      exact ih.reached.imp id fun ⟨g, hg, hrest⟩ => ⟨g, List.mem_cons_of_mem f hg, hrest⟩
    | some h =>
      rw [List.filterMap_cons_some hf, List.map_cons, List.foldr_cons]
      set last := ((files.filterMap IncrFile.header).map PitrHeader.toSeq).foldr max baseSeq
      refine ⟨ih.ge_base.trans (le_max_right _ _), List.forall_mem_cons.2 ⟨fun h' hh => ?_,
        fun g hg h' hh => (ih.upper g hg h' hh).trans (le_max_right _ _)⟩, ?_⟩
      · rw [hf] at hh
        rw [← Option.some.inj hh]
        exact le_max_left _ _
      · rcases le_total last h.toSeq with hle | hle
        · exact .inr ⟨f, List.mem_cons_self, h, hf, (max_eq_left hle).symm⟩
        · rw [max_eq_right hle]
          exact ih.reached.imp id fun ⟨g, hg, hrest⟩ => ⟨g, List.mem_cons_of_mem f hg, hrest⟩

/-- The segments hold everything from the base to the last entry they name. -/
def Whole (s : State) (baseSeq : ℕ) : Prop :=
  let files := (fetched s).map Segment.file
  ∀ k, baseSeq < k → k ≤ chainEnd files baseSeq → Held files k

section Restore

variable {s : State}

theorem Inv.fetched_epoch (h : Inv s) (hquiet : Quiet s) (hconfirmed : s.unconfirmed = false)
    {seg : Segment} (hseg : seg ∈ fetched s) : Known s seg ∧ seg.epoch = s.epoch := by
  rcases List.mem_append.1 hseg with hdir | hremote
  · refine ⟨.inl hdir, (h.dirFresh (.inr hquiet.phase) seg hdir).resolve_right ?_⟩
    simp [hquiet.task]
  · have hremote := List.mem_of_mem_filter hremote
    exact ⟨.inr (.inl hremote), h.remoteFresh hconfirmed seg hremote⟩

theorem Inv.fetched_stretch (h : Inv s) (hquiet : Quiet s) (hconfirmed : s.unconfirmed = false) :
    ∀ f ∈ (fetched s).map Segment.file, ∃ hd, Stretch s.hist f hd := by
  intro f hf
  obtain ⟨seg, hseg, rfl⟩ := List.mem_map.1 hf
  obtain ⟨hknown, hepoch⟩ := h.fetched_epoch hquiet hconfirmed hseg
  exact h.stretches seg hknown hepoch (by simp [hquiet.phase])

theorem Inv.chainEnd_le (h : Inv s) (hquiet : Quiet s) (hconfirmed : s.unconfirmed = false)
    {baseSeq : ℕ} (hbase : baseSeq ≤ s.hist.length) :
    chainEnd ((fetched s).map Segment.file) baseSeq ≤ s.hist.length := by
  rcases (chainEnd_isLast ((fetched s).map Segment.file) baseSeq).reached with
    hbaseline | ⟨f, hf, hd, hhd, hto⟩
  · rw [hbaseline]
    exact hbase
  · obtain ⟨hd', hstretch⟩ := h.fetched_stretch hquiet hconfirmed f hf
    rw [hstretch.header] at hhd
    rw [← hto, ← Option.some.inj hhd]
    exact hstretch.bounded

/-- A replayed text is one that was written after the last adoption. -/
theorem Inv.replayed_kept (h : Inv s) (target : ℤ) (a b : ℕ) :
    ∃ lines : List Line,
      replayed target (s.hist.filter fun l => a < l.seq ∧ l.seq ≤ b) = lines.map Line.sql ∧
      ∀ l ∈ lines, l ∈ s.hist ∧ s.voidedTo < l.seq := by
  refine ⟨_, rfl, fun l hl => ?_⟩
  obtain ⟨hl, htext⟩ := List.mem_filter.1 hl
  have hhist := List.mem_of_mem_filter hl
  refine ⟨hhist, not_le.1 fun hle => ?_⟩
  exact (of_decide_eq_true htext).1 (h.voided l hhist hle)

theorem Inv.discards_iff (h : Inv s) (hquiet : Quiet s) (hconfirmed : s.unconfirmed = false)
    {anchor : Anchor} {head : BackupHeader} (hanchor : anchor ∈ s.bases)
    (hhead : anchor.base.header = some head) (target : ℤ) :
    Discards s anchor target ↔ ¬(anchor.adoptions < s.adoptions ∧ s.adoptedAt ≤ target) ∨
      Precedes head target ∨ ¬Whole s head.journalSeq := by
  have hrefused (hfail : ∃ e, restore s anchor target = .error e) :
      Discards s anchor target := by
    refine ⟨fun stmts note hok => ?_, fun _ _ => hfail⟩
    obtain ⟨e, he⟩ := hfail
    rw [he] at hok
    cases hok
  have hfiles := h.fetched_stretch hquiet hconfirmed
  have hlast := chainEnd_isLast ((fetched s).map Segment.file) head.journalSeq
  by_cases hpre : Precedes head target
  · exact iff_of_true (hrefused (restoreInner_precedes hhead hpre)) (.inr (.inl hpre))
  by_cases hwhole : Whole s head.journalSeq
  case neg =>
    refine iff_of_true (hrefused ?_) (.inr (.inr hwhole))
    dsimp only [Whole] at hwhole
    push Not at hwhole
    obtain ⟨k, hk, hle, hnot⟩ := hwhole
    exact restoreInner_collect_error hhead
      (collect_error h.numbered hfiles hlast target hk hle hnot)
  have hbound := h.chainEnd_le hquiet hconfirmed (h.anchors anchor (.inl hanchor) head hhead)
  have hrestore := restoreInner_collect_ok (n := { node s with
    incr := (fetched s).map Segment.file }) hhead hpre
    (collect_ok h.numbered hfiles hlast hbound target hwhole)
  rw [or_iff_left (not_or.2 ⟨hpre, not_not.2 hwhole⟩)]
  constructor
  · rintro ⟨-, hrefuses⟩ ⟨hbefore, hafter⟩
    obtain ⟨e, he⟩ := hrefuses hbefore hafter
    rw [restore, hrestore] at he
    cases he
  · intro hlater
    refine ⟨fun stmts note hok => ?_, fun hbefore hafter => absurd ⟨hbefore, hafter⟩ hlater⟩
    rw [restore, hrestore] at hok
    obtain ⟨lines, hlines, hkept⟩ := h.replayed_kept target head.journalSeq
      (chainEnd ((fetched s).map Segment.file) head.journalSeq)
    refine ⟨lines, ?_, hkept⟩
    rw [← hlines]
    exact (Prod.mk.inj (Except.ok.inj hok)).1.symm

end Restore

theorem run_inv {events : List Event} (hfit : Fits step LandsInTime {} events) :
    Inv (run events) :=
  inv_of_fit inv_init (fun _ e h => step_inv h e) hfit.at_prefix List.prefix_rfl

def backupEvents (now : ℕ) : List Event := [.dumpBackup [] now, .landBackup 7, .endTask]

def exportEvents : List Event :=
  [.startExport, .readJournal, .writeTmp, .checkEpoch, .renameFile, .recheckEpoch, .writeSidecar 7]

def adoptionEvents (now : ℤ) : List Event :=
  [.adopt now, .bumpEpoch, .sweepLocal, .markRemote, .confirmRemote, .finishAdoption]

/-- A backup and an export after an adoption. -/
def laterRun : List Event :=
  [Event.write 10 firstWrite] ++ adoptionEvents 15 ++ backupEvents 20 ++
    [Event.write 30 secondWrite] ++ exportEvents ++ [Event.startPut 0, Event.landPut, Event.endTask]

def laterBase : Anchor := ⟨⟨some ⟨1, 20⟩, []⟩, 1⟩

/-- The PUT of a segment is under way when an adoption sweeps both places. -/
def lateRun : List Event :=
  backupEvents 5 ++ [Event.write 10 firstWrite] ++ exportEvents ++ [Event.startPut 0] ++
    adoptionEvents 15 ++ [Event.landPut, Event.endTask]

/-- Nothing is in flight, but a backup from before the adoption stays in use. -/
def combiningRun : List Event :=
  backupEvents 5 ++ adoptionEvents 15 ++ [Event.write 20 secondWrite] ++ exportEvents ++
    [Event.endTask]

def earlyBase : Anchor := ⟨emptyBase, 0⟩

/-- One segment that holds one entry is replayed after an empty base. -/
theorem restore_single {s : State} {seg : Segment} {l : Line} {target : ℤ}
    (hfetched : fetched s = [seg]) (hfile : seg.file = ⟨some ⟨1, 1⟩, [l], true⟩)
    (hseq : l.seq = 1) (hkept : l.sql ≠ voidSentinel ∧ l.ts ≤ target) (htarget : 5 ≤ target) :
    ∃ note, restore s earlyBase target = .ok ([l.sql], note) := by
  have hnumbered : Numbered 1 [l] := by simp [Numbered, hseq]
  have hfiles : ∀ f ∈ [seg.file], ∃ hd, Stretch [l] f hd := by
    intro f hf
    rw [List.mem_singleton.1 hf, hfile]
    exact ⟨⟨1, 1⟩, rfl, rfl, by simp [hseq], le_rfl, le_rfl⟩
  have hlast : IsLast [seg.file] 0 1 := by
    have hend := chainEnd_isLast [seg.file] 0
    rwa [hfile] at hend ⊢
  have hcollect := collect_ok hnumbered hfiles hlast le_rfl target fun k hk hle =>
    ⟨seg.file, List.mem_singleton_self _, l, by simp [hfile], by omega⟩
  have hpre : ¬Precedes ⟨0, 5⟩ target := by
    rintro ⟨-, hlt | hlt⟩
    · omega
    · dsimp only at hlt
      omega
  have htexts : replayed target ([l].filter fun l => 0 < l.seq ∧ l.seq ≤ 1) = [l.sql] := by
    simp [replayed, hseq, hkept]
  have hhead : emptyBase.header = some ⟨0, 5⟩ := rfl
  have hrestore := restoreInner_collect_ok (n := { node s with incr := [seg.file] }) hhead hpre
    hcollect
  rw [htexts] at hrestore
  rw [restore, hfetched]
  exact ⟨_, hrestore⟩

end Docsql.Backup.Adoption
