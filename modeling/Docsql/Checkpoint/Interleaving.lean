import Docsql.Checkpoint.Coverage

/-!
# Interleavings of the writer and the checkpoint thread

Every state of every run keeps the reports truthful, whichever critical sections of
the other thread come in between.
-/

namespace Docsql.Checkpoint

open Relation (ReflTransGen)

/-! ## What each thread may rely on -/

/-- How many syncs are under way. -/
def Thread.running : Thread → ℕ
  | .waiting => 0
  | _ => 1

def Thread.Ok (d : Disk) : Thread → Prop
  | .waiting => True
  | .picked covered => d.Flushed covered
  | .syncing covered => d.Handed covered
  | .synced covered ok => ok = true → d.Covered covered

/-- A truncation that has passed its test finds no sync queued or running until it
has reset the coverage. -/
def Writer.Ok (d : Disk) (ckpt : CkptState) : Writer → Prop
  | .idle | .append _ _ | .flush _ | .maybeCheckpoint => True
  | .freeTruncate len _ | .request len | .stall len => len = d.appended ∧ d.pending = []
  | .truncateFree len _ => len = d.appended ∧ ckpt.Quiet ∧ d.appended ≤ ckpt.coveredLen
  | .truncateHard => ckpt.Quiet ∧ d.appended ≤ ckpt.coveredLen
  | .resetFree _ | .resetHard => ckpt.Quiet ∧ d.log = [] ∧ d.pending = [] ∧ 0 < d.appended
  | .await len baseline => (len = d.appended ∧ d.pending = []) ∧
      baseline ≤ ckpt.completed ∧ (ckpt.completed ≤ baseline → ¬ckpt.Quiet)

def Writer.Resetting : Writer → Prop
  | .resetFree _ | .resetHard => True
  | _ => False

namespace Pager

structure Inv (s : Pager) : Prop where
  sound : s.disk.Sound
  counts : s.ckpt.started = s.ckpt.completed + s.thread.running
  requested : s.ckpt.requested = true → s.disk.Flushed s.ckpt.pendingLen
  thread : s.thread.Ok s.disk
  covered : ¬s.writer.Resetting → s.disk.Covered s.ckpt.coveredLen
  writer : s.writer.Ok s.disk s.ckpt

variable {s s' : Pager} {soft hard : ℕ} {caller : Caller}

theorem walHeader_pos : 0 < walHeader := Nat.succ_pos 7

theorem inv_opened (file : ℕ → Page) (pages : ℕ) : (opened file pages).Inv where
  sound := Disk.sound_opened file pages
  counts := rfl
  requested h := by cases h
  thread := trivial
  covered _ := Disk.covered_zero _ walHeader_pos
  writer := trivial

theorem Inv.waiting_of_quiet (h : s.Inv) (hquiet : s.ckpt.Quiet) : s.thread = .waiting := by
  have hcounts := h.counts
  rw [hquiet.2] at hcounts
  cases hthread : s.thread with
  | waiting => rfl
  | picked c | syncing c | synced c ok =>
    rw [hthread] at hcounts
    exact absurd hcounts (Nat.succ_ne_self _).symm

theorem Inv.busy_of_running (h : s.Inv) (hrun : s.thread.running = 1) : ¬s.ckpt.Quiet := by
  intro hquiet
  rw [h.waiting_of_quiet hquiet] at hrun
  cases hrun

/-! ## Steps of the writer -/

/-- A change of the data that leaves all reports truthful. -/
structure Keeps (d d' : Disk) : Prop where
  sound : d.Sound → d'.Sound
  flushed : ∀ c, d.Flushed c → d'.Flushed c
  handed : ∀ c, d.Handed c → d'.Handed c
  covered : ∀ c, d.Covered c → d'.Covered c

theorem Keeps.refl (d : Disk) : Keeps d d :=
  ⟨fun h => h, fun _ h => h, fun _ h => h, fun _ h => h⟩

theorem keeps_grow (d : Disk) (n m : ℕ) :
    Keeps d { d with appended := d.appended + n, deferred := m } :=
  ⟨fun h => h.grow n m, fun _ h => h.grow n m, fun _ h => h.grow n m, fun _ h => h.grow n m⟩

theorem keeps_allocate (d : Disk) : Keeps d d.allocate :=
  ⟨fun h => ⟨h.shown, h.logged, h.redo, h.counted, h.header⟩, fun _ h => h, fun _ h => h,
    fun _ h => h⟩

theorem keeps_append (d : Disk) (staged : Staged) (fsync : Bool) :
    Keeps d (d.append staged fsync) :=
  ⟨fun h => h.append staged fsync, fun _ h => h.append staged fsync,
    fun _ h => h.append staged fsync, fun _ h => h.append staged fsync⟩

theorem keeps_writePage {d : Disk} {id : ℕ} {data : Page} (hid : d.pending.lookup id = some data) :
    Keeps d (d.writePage id data) where
  sound h := h.writePage hid
  flushed _ h := Disk.flushed_of_lt rfl (h.lt_of_queued hid)
  handed _ h := Disk.handed_of_lt rfl (h.1.lt_of_queued hid)
  covered _ h := Disk.covered_of_lt rfl (h.1.lt_of_queued hid)

theorem keeps_writeFailed {d : Disk} {id : ℕ} {data : Page} (junk : Page)
    (hid : d.pending.lookup id = some data) : Keeps d (d.writeFailed id junk) where
  sound h := h.writeFailed hid
  flushed _ h := Disk.flushed_of_lt rfl (h.lt_of_queued hid)
  handed _ h := Disk.handed_of_lt rfl (h.1.lt_of_queued hid)
  covered _ h := Disk.covered_of_lt rfl (h.1.lt_of_queued hid)

theorem Keeps.thread {d d' : Disk} (h : Keeps d d') {t : Thread} (ht : t.Ok d) : t.Ok d' := by
  cases t with
  | waiting => trivial
  | picked c => exact h.flushed c ht
  | syncing c => exact h.handed c ht
  | synced c ok => exact fun hok => h.covered c (ht hok)

/-- A step of the writer that neither drops the log nor asks for a sync. -/
theorem Inv.write (h : s.Inv) (hs : ¬s.writer.Resetting) {d : Disk} (hk : Keeps s.disk d)
    {w : Writer} (hw : w.Ok d s.ckpt) : Inv { s with disk := d, writer := w } where
  sound := hk.sound h.sound
  counts := h.counts
  requested hr := hk.flushed _ (h.requested hr)
  thread := hk.thread h.thread
  covered _ := hk.covered _ (h.covered hs)
  writer := hw

theorem Inv.goto (h : s.Inv) (hs : ¬s.writer.Resetting) {w : Writer} (hw : w.Ok s.disk s.ckpt) :
    Inv { s with writer := w } :=
  h.write hs (.refl s.disk) hw

theorem gate_ok {d : Disk} {ckpt : CkptState} {otherwise : Writer}
    (h : otherwise.Ok d ckpt) : (gate soft d caller otherwise).Ok d ckpt := by
  rw [gate]
  split_ifs with hgate
  · exact h
  · exact ⟨rfl, by_contra fun hne => hgate (.inl hne)⟩

theorem refused_ok {d : Disk} {ckpt : CkptState} {len : ℕ} (hlen : len = d.appended)
    (hpending : d.pending = []) : (caller.refused len).Ok d ckpt := by
  cases caller with
  | commit staged fsync => trivial
  | checkpoint => exact ⟨hlen, hpending⟩

/-- A passed test of the coverage finds the queue empty. -/
theorem Inv.pending_of_covered (h : s.Inv) (hs : ¬s.writer.Resetting)
    (hle : s.disk.appended ≤ s.ckpt.coveredLen) : s.disk.pending = [] :=
  (h.covered hs).1.2 hle

theorem Inv.truncate (h : s.Inv) (hs : ¬s.writer.Resetting) (hquiet : s.ckpt.Quiet)
    (hle : s.disk.appended ≤ s.ckpt.coveredLen) {w : Writer}
    (hw : w.Resetting ∧ w.Ok s.disk.truncate s.ckpt) :
    Inv { s with disk := s.disk.truncate, writer := w } where
  sound := h.sound.truncate (h.pending_of_covered hs hle) ((h.covered hs).2 hle)
  counts := h.counts
  requested hr := by
    have := hquiet.1
    rw [show s.ckpt.requested = true from hr] at this
    cases this
  thread := by
    show s.thread.Ok s.disk.truncate
    rw [h.waiting_of_quiet hquiet]
    trivial
  covered hnot := absurd hw.1 hnot
  writer := hw.2

theorem Inv.reset (h : s.Inv) (hpos : 0 < s.disk.appended) {w : Writer}
    (hw : w.Ok s.disk s.ckpt.reset) : Inv { s with ckpt := s.ckpt.reset, writer := w } where
  sound := h.sound
  counts := h.counts
  requested := h.requested
  thread := h.thread
  covered _ := Disk.covered_zero s.disk hpos
  writer := hw

theorem Inv.request (h : s.Inv) (hs : ¬s.writer.Resetting) {len : ℕ}
    (hlen : len = s.disk.appended ∧ s.disk.pending = []) {w : Writer}
    (hw : w.Ok s.disk (s.ckpt.request len)) :
    Inv { s with ckpt := s.ckpt.request len, writer := w } where
  sound := h.sound
  counts := h.counts
  requested _ := ⟨hlen.1.le, fun _ => hlen.2⟩
  thread := h.thread
  covered _ := h.covered hs
  writer := hw

theorem Inv.writerStep (h : s.Inv) (hstep : WriterStep soft hard s s') : s'.Inv := by
  have hok := h.writer
  cases hstep with
  | commit staged fsync hw _ =>
    exact h.goto (by rw [hw]; exact id) (gate_ok trivial)
  | syncWal hw =>
    exact h.write (by rw [hw]; exact id) (keeps_grow _ _ _) trivial
  | abortTx hw =>
    exact h.write (by rw [hw]; exact id) (keeps_grow _ _ _) trivial
  | abortDeferred hw =>
    have := h.write (w := s.writer) (by rw [hw]; exact id)
      (keeps_grow s.disk (s.disk.deferred * frameLen) 0) (by rw [hw]; trivial)
    exact this
  | allocate hw =>
    have := h.write (w := s.writer) (by rw [hw]; exact id) (keeps_allocate s.disk)
      (by rw [hw]; trivial)
    exact this
  | append staged fsync hw =>
    apply h.write (by rw [hw]; exact id) (keeps_append _ staged fsync)
    cases fsync <;> trivial
  | appendFailed staged fsync n hw =>
    exact h.write (by rw [hw]; exact id) (keeps_grow _ _ _) trivial
  | flushRetired id ids hw _ => exact h.goto (by rw [hw]; exact fun h => h) trivial
  | flushPage id ids data hw hid =>
    exact h.write (by rw [hw]; exact fun h => h) (keeps_writePage hid) trivial
  | flushFailed id ids data junk hw hid =>
    exact h.write (by rw [hw]; exact fun h => h) (keeps_writeFailed junk hid) trivial
  | flushDone hw => exact h.goto (by rw [hw]; exact id) trivial
  | maybeCheckpoint hw => exact h.goto (by rw [hw]; exact id) (gate_ok trivial)
  | freeTruncate len caller hw =>
    rw [hw] at hok
    apply h.goto (by rw [hw]; exact id)
    split_ifs with hcovers
    · simp only [CkptState.covers, Bool.and_eq_true, beq_iff_eq, Bool.not_eq_true',
        decide_eq_true_eq] at hcovers
      exact ⟨hok.1, ⟨hcovers.1.2, hcovers.1.1.2⟩, hok.1 ▸ hcovers.2⟩
    · exact refused_ok hok.1 hok.2
  | deferToSnapshots len caller hw _ =>
    rw [hw] at hok
    have hnot : ¬s.writer.Resetting := by rw [hw]; exact id
    exact h.goto hnot (refused_ok hok.1 (h.pending_of_covered hnot hok.2.2))
  | truncateFree len caller hw _ =>
    rw [hw] at hok
    have hnot : ¬s.writer.Resetting := by rw [hw]; exact id
    have hpending := h.pending_of_covered hnot hok.2.2
    exact h.truncate hnot hok.2.1 hok.2.2 ⟨trivial, hok.2.1, rfl, hpending, walHeader_pos⟩
  | resetFree caller hw =>
    rw [hw] at hok
    apply h.reset hok.2.2.2
    cases caller <;> trivial
  | request len hw =>
    rw [hw] at hok
    have hnot : ¬s.writer.Resetting := by rw [hw]; exact id
    have hgo : (if len < hard then Writer.idle else .stall len).Ok s.disk (s.ckpt.request len) ∧
        (if len < hard then Writer.idle else .stall len).Ok s.disk s.ckpt := by
      split_ifs
      · exact ⟨trivial, trivial⟩
      · exact ⟨hok, hok⟩
    by_cases hquiet : s.ckpt.Quiet
    · simp only [hquiet, if_true]
      exact h.request hnot hok hgo.1
    · simp only [hquiet, if_false]
      exact h.goto hnot hgo.2
  | stallDone len hw hquiet hcovered =>
    rw [hw] at hok
    exact h.goto (by rw [hw]; exact id) ⟨hquiet, hok.1 ▸ hcovered.2⟩
  | stallRequest len hw hquiet _ =>
    rw [hw] at hok
    apply h.request (by rw [hw]; exact id) hok
    exact ⟨hok, hquiet.2.ge, fun _ hq => by cases hq.1⟩
  | awaited len baseline hw _ =>
    rw [hw] at hok
    apply h.goto (by rw [hw]; exact id)
    split_ifs
    · exact hok.1
    · trivial
  | truncateHard hw =>
    rw [hw] at hok
    have hnot : ¬s.writer.Resetting := by rw [hw]; exact id
    have hpending := h.pending_of_covered hnot hok.2
    exact h.truncate hnot hok.1 hok.2 ⟨trivial, hok.1, rfl, hpending, walHeader_pos⟩
  | resetHard hw =>
    rw [hw] at hok
    exact h.reset hok.2.2.2 trivial

/-! ## Steps of the checkpoint thread -/

/-- While a sync is queued or running the other thread changes nothing the writer has
looked at, and a report releases a writer that waits for it. -/
theorem writer_ok_of_busy {d : Disk} (d' : Disk) {ckpt : CkptState} (ckpt' : CkptState)
    {w : Writer} (h : w.Ok d ckpt)
    (hbusy : ¬ckpt.Quiet) (happended : d'.appended = d.appended) (hpending : d'.pending = d.pending)
    (hcompleted : ckpt.completed ≤ ckpt'.completed)
    (hstill : ckpt'.completed = ckpt.completed → ¬ckpt'.Quiet) :
    ¬w.Resetting ∧ w.Ok d' ckpt' := by
  cases w with
  | idle | append _ _ | flush _ | maybeCheckpoint => exact ⟨id, trivial⟩
  | freeTruncate len caller | request len | stall len =>
    exact ⟨id, h.1.trans happended.symm, hpending.trans h.2⟩
  | truncateFree len caller => exact absurd h.2.1 hbusy
  | truncateHard | resetFree caller | resetHard => exact absurd h.1 hbusy
  | await len baseline =>
    obtain ⟨hlen, hbase, -⟩ := h
    refine ⟨id, ⟨hlen.1.trans happended.symm, hpending.trans hlen.2⟩, hbase.trans hcompleted, ?_⟩
    intro hle
    exact hstill (le_antisymm (hle.trans hbase) hcompleted)

theorem Inv.threadStep (h : s.Inv) (hstep : ThreadStep s s') : s'.Inv := by
  have ht := h.thread
  have hcounts := h.counts
  cases hstep with
  | pickUp hthread hrequested =>
    have hbusy : ¬s.ckpt.Quiet := by
      rintro ⟨hnone, -⟩
      rw [hrequested] at hnone
      cases hnone
    rw [hthread] at ht hcounts
    have hstill : ¬s.ckpt.pickUp.Quiet := by
      rintro ⟨-, heq⟩
      replace heq : s.ckpt.completed = s.ckpt.started + 1 := heq
      rw [hcounts, Thread.running] at heq
      omega
    obtain ⟨-, hwriter⟩ :=
      writer_ok_of_busy s.disk s.ckpt.pickUp h.writer hbusy rfl rfl le_rfl fun _ => hstill
    exact ⟨h.sound, congrArg (· + 1) hcounts, (fun hr => by cases hr),
      h.requested hrequested, h.covered, hwriter⟩
  | startSync covered hthread =>
    have hbusy := h.busy_of_running (by rw [hthread]; rfl)
    rw [hthread] at ht hcounts
    obtain ⟨-, hwriter⟩ :=
      writer_ok_of_busy s.disk.startSync s.ckpt h.writer hbusy rfl rfl le_rfl fun _ => hbusy
    exact ⟨h.sound.startSync, hcounts, h.requested, Disk.Flushed.startSync ht h.sound,
      fun hr => (h.covered hr).startSync, hwriter⟩
  | syncOk covered hthread =>
    have hbusy := h.busy_of_running (by rw [hthread]; rfl)
    rw [hthread] at ht hcounts
    obtain ⟨-, hwriter⟩ :=
      writer_ok_of_busy s.disk.syncOk s.ckpt h.writer hbusy rfl rfl le_rfl fun _ => hbusy
    exact ⟨h.sound.syncOk, hcounts, h.requested, fun _ => Disk.Handed.syncOk ht,
      fun hr => (h.covered hr).syncOk h.sound, hwriter⟩
  | syncFailed covered hthread =>
    have hbusy := h.busy_of_running (by rw [hthread]; rfl)
    rw [hthread] at hcounts
    obtain ⟨-, hwriter⟩ :=
      writer_ok_of_busy s.disk.syncFailed s.ckpt h.writer hbusy rfl rfl le_rfl fun _ => hbusy
    exact ⟨h.sound.syncFailed, hcounts, h.requested, (fun hok => by cases hok),
      fun hr => (h.covered hr).syncFailed, hwriter⟩
  | report covered ok hthread =>
    have hbusy := h.busy_of_running (by rw [hthread]; rfl)
    rw [hthread] at ht hcounts
    obtain ⟨hnot, hwriter⟩ := writer_ok_of_busy s.disk (s.ckpt.report covered ok) h.writer
      hbusy rfl rfl (Nat.le_succ _) fun heq => absurd heq (Nat.succ_ne_self _)
    refine ⟨h.sound, hcounts, h.requested, trivial, fun _ => ?_, hwriter⟩
    cases ok with
    | true => exact ht rfl
    | false => exact h.covered hnot

theorem Inv.readerStep (h : s.Inv) (hstep : ReaderStep s s') : s'.Inv := by
  cases hstep <;> exact ⟨h.sound, h.counts, h.requested, h.thread, h.covered, h.writer⟩

theorem Reachable.inv (h : Reachable soft hard s) : s.Inv := by
  obtain ⟨file, pages, hrun⟩ := h
  induction hrun with
  | refl => exact inv_opened file pages
  | tail _ hstep ih =>
    rcases hstep with hstep | hstep | hstep
    · exact ih.writerStep hstep
    · exact ih.threadStep hstep
    · exact ih.readerStep hstep

/-! ## Results -/

/-- Only a truncation makes the log shorter. -/
theorem truncates_of_shorter (hstep : Step soft hard s s')
    (hlt : s'.disk.appended < s.disk.appended) :
    (∃ len caller, s.writer = .truncateFree len caller) ∨ s.writer = .truncateHard := by
  rcases hstep with hstep | hstep | hstep
  · cases hstep with
    | truncateFree len caller hw _ => exact .inl ⟨len, caller, hw⟩
    | truncateHard hw => exact .inr hw
    | append staged fsync _ =>
      exact absurd hlt (not_lt.mpr (Disk.appended_lt_append s.disk staged fsync).le)
    | syncWal _ | abortTx _ | abortDeferred _ | appendFailed _ _ _ _ =>
      exact absurd hlt (not_lt.mpr (Nat.le_add_right _ _))
    | _ => exact absurd hlt (lt_irrefl _)
  · cases hstep <;> exact absurd hlt (lt_irrefl _)
  · cases hstep <;> exact absurd hlt (lt_irrefl _)

theorem Inv.covered_of_truncates (h : s.Inv)
    (hw : (∃ len caller, s.writer = .truncateFree len caller) ∨ s.writer = .truncateHard) :
    s.disk.pending = [] ∧ ∀ id, lastImage s.disk.log id ≠ none → s.disk.Durable id := by
  have hok := h.writer
  rcases hw with ⟨len, caller, hw⟩ | hw
  · rw [hw] at hok
    have hcovered := h.covered (by rw [hw]; exact id)
    exact ⟨hcovered.1.2 hok.2.2, hcovered.2 hok.2.2⟩
  · rw [hw] at hok
    have hcovered := h.covered (by rw [hw]; exact id)
    exact ⟨hcovered.1.2 hok.2, hcovered.2 hok.2⟩

/-- A sync that is queued or running can go on. -/
theorem Inv.thread_can_step (h : s.Inv) (hbusy : ¬s.ckpt.Quiet) : ∃ s', ThreadStep s s' := by
  have hcounts := h.counts
  cases hthread : s.thread with
  | waiting =>
    rw [hthread] at hcounts
    have hrequested : s.ckpt.requested = true := by
      by_contra hnot
      exact hbusy ⟨by simpa using hnot, hcounts.symm⟩
    exact ⟨_, .pickUp s hthread hrequested⟩
  | picked covered => exact ⟨_, .startSync s covered hthread⟩
  | syncing covered => exact ⟨_, .syncOk s covered hthread⟩
  | synced covered ok => exact ⟨_, .report s covered ok hthread⟩

/-- The writer never waits for a sync that nobody will finish. -/
theorem Inv.progress (h : s.Inv) (hw : s.writer ≠ .idle) :
    (∃ s', WriterStep soft hard s s') ∨ ∃ s', ThreadStep s s' := by
  have hok := h.writer
  cases hwriter : s.writer with
  | idle => exact absurd hwriter hw
  | freeTruncate len caller => exact .inl ⟨_, .freeTruncate s len caller hwriter⟩
  | truncateFree len caller =>
    by_cases hsnaps : s.snaps = 0
    · exact .inl ⟨_, .truncateFree s len caller hwriter hsnaps⟩
    · exact .inl ⟨_, .deferToSnapshots s len caller hwriter hsnaps⟩
  | resetFree caller => exact .inl ⟨_, .resetFree s caller hwriter⟩
  | append staged fsync => exact .inl ⟨_, .append s staged fsync hwriter⟩
  | flush ids =>
    cases ids with
    | nil => exact .inl ⟨_, .flushDone s hwriter⟩
    | cons id ids =>
      cases hid : s.disk.pending.lookup id with
      | none => exact .inl ⟨_, .flushRetired s id ids hwriter hid⟩
      | some data => exact .inl ⟨_, .flushPage s id ids data hwriter hid⟩
  | maybeCheckpoint => exact .inl ⟨_, .maybeCheckpoint s hwriter⟩
  | request len => exact .inl ⟨_, .request s len hwriter⟩
  | stall len =>
    by_cases hquiet : s.ckpt.Quiet
    · by_cases hcovered : s.ckpt.lastOk = true ∧ len ≤ s.ckpt.coveredLen
      · exact .inl ⟨_, .stallDone s len hwriter hquiet hcovered⟩
      · exact .inl ⟨_, .stallRequest s len hwriter hquiet hcovered⟩
    · exact .inr (h.thread_can_step hquiet)
  | await len baseline =>
    rw [hwriter] at hok
    by_cases hdone : baseline < s.ckpt.completed
    · exact .inl ⟨_, .awaited s len baseline hwriter hdone⟩
    · exact .inr (h.thread_can_step (hok.2.2 (not_lt.mp hdone)))
  | truncateHard => exact .inl ⟨_, .truncateHard s hwriter⟩
  | resetHard => exact .inl ⟨_, .resetHard s hwriter⟩

/-- In every interleaving: a step that drops the log finds every image in it written
and made durable by a sync that began later; at all times a committed image is the
last one in the log or durable in the data file; and a writer in the middle of an
operation is never stuck. -/
theorem checkpoint_safe (h : Reachable soft hard s) :
    (∀ s', Step soft hard s s' → s'.disk.appended < s.disk.appended →
        s.disk.pending = [] ∧ ∀ id data, lastImage s.disk.log id = some data →
          s.disk.file id = data ∧ s.disk.Durable id) ∧
      (∀ id data, s.disk.committed id = some data →
        lastImage s.disk.log id = some data ∨ s.disk.file id = data ∧ s.disk.Durable id) ∧
      (s.writer ≠ .idle → (∃ s', WriterStep soft hard s s') ∨ ∃ s', ThreadStep s s') := by
  have hinv := h.inv
  refine ⟨?_, ?_, hinv.progress⟩
  · intro s' hstep hlt
    obtain ⟨hpending, hdurable⟩ := hinv.covered_of_truncates (truncates_of_shorter hstep hlt)
    refine ⟨hpending, fun id data hlast => ⟨?_, hdurable id (by rw [hlast]; simp)⟩⟩
    have hcommitted := hinv.sound.logged id (by rw [hlast]; simp)
    have hshown := hinv.sound.shown id data (hcommitted.symm.trans hlast)
    rw [hpending] at hshown
    exact hshown
  · intro id data hcommitted
    by_cases hlog : lastImage s.disk.log id = none
    · obtain ⟨hpending, hdurable⟩ := hinv.sound.redo id (by rw [hcommitted]; simp) hlog
      have hshown := hinv.sound.shown id data hcommitted
      rw [hpending] at hshown
      exact .inr ⟨hshown, hdurable⟩
    · exact .inl ((hinv.sound.logged id hlog).trans hcommitted)

/-- A commit, the sync of its page in the background, and the next commit, which is
about to drop the log. -/
theorem checkpoint_safe_covered :
    ∃ s s', Reachable 0 (2 ^ 20) s ∧ Step 0 (2 ^ 20) s s' ∧
      s'.disk.appended < s.disk.appended ∧ s.disk.file 1 = [7] ∧ s.disk.Durable 1 := by
  have h₀ : ReflTransGen (Step 0 (2 ^ 20)) (opened (fun _ => []) 2) _ := .refl
  have h₁ := h₀.tail (.inl (.commit _ [(1, [7])] true rfl (List.cons_ne_nil _ _)))
  have h₂ := h₁.tail (.inl (.freeTruncate _ _ _ rfl))
  have h₃ := h₂.tail (.inl (.append _ _ _ rfl))
  have h₄ := h₃.tail
    (.inl (.flushPage _ 1 [] [7] (congrArg Writer.flush (List.mergeSort_singleton 1)) rfl))
  have h₅ := h₄.tail (.inl (.flushDone _ rfl))
  have h₆ := h₅.tail (.inl (.maybeCheckpoint _ rfl))
  have h₇ := h₆.tail (.inl (.freeTruncate _ _ _ rfl))
  have h₈ := h₇.tail (.inl (.request _ _ rfl))
  have h₉ := h₈.tail (.inr (.inl (.pickUp _ rfl rfl)))
  have h₁₀ := h₉.tail (.inr (.inl (.startSync _ _ rfl)))
  have h₁₁ := h₁₀.tail (.inr (.inl (.syncOk _ _ rfl)))
  have h₁₂ := h₁₁.tail (.inr (.inl (.report _ _ _ rfl)))
  have h₁₃ := h₁₂.tail (.inl (.commit _ [(1, [8])] true rfl (List.cons_ne_nil _ _)))
  have h₁₄ := h₁₃.tail (.inl (.freeTruncate _ _ _ rfl))
  have hreach : Reachable 0 (2 ^ 20) _ := ⟨_, _, h₁₄⟩
  refine ⟨_, _, hreach, .inl (.truncateFree _ _ _ rfl rfl), ?_, ?_⟩
  · decide
  · apply ((checkpoint_safe hreach).1 _ (.inl (.truncateFree _ _ _ rfl rfl)) ?_).2 1 [7] rfl
    decide

end Pager

end Docsql.Checkpoint
