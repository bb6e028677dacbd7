import Docsql.Wal.Log

/-!
# Torn tails

`Logged w recs` says that the file of `w` is the header and the frames of
`recs`, numbered from one on.  Every operation keeps it, with more records at
the end, and a log that lost its header takes no more frames.  What `open` finds
in any prefix of the file then follows from what the frame reader delivers.
-/

namespace Docsql.Wal

open StateExcept (read update)

structure Logged (w : Wal) (recs : List LogRecord) : Prop where
  file : w.file = header ++ logBytes recs
  appended : w.appended = w.file.length
  contiguous : Contiguous (some 1) recs
  next : nextAfter (some 1) recs = some w.nextLsn
  bounded : Bounded recs

variable {w w' : Wal} {recs recs' : List LogRecord} {kind : UInt8} {txid : UInt64}
variable {payload : List UInt8} {α β : Type}

theorem Contiguous.none {next : Option UInt64} (h : Contiguous next recs) :
    Contiguous Option.none recs := by
  cases recs with
  | nil => trivial
  | cons rec recs => exact ⟨by simp, h.2⟩

/-! ## Appending -/

@[simp] theorem ioOk_bind (g : Bool → WalM α) (w : Wal) :
    (ioOk >>= g) w = g (w.io.headD true) { w with io := w.io.tail } := rfl

theorem append_poisoned {reason : String} (h : w.poisoned = some reason) :
    append kind txid payload w = (.error (.io reason), w) := by
  rw [append, StateExcept.read_bind, h]
  rfl

theorem append_fails (h : w.poisoned = none) (hio : w.io.headD true = false) :
    append kind txid payload w =
      (.error (.io "write"), { w with io := w.io.tail, file := setLen w.file w.appended }) := by
  rw [append, StateExcept.read_bind, h]
  simp only [ioOk_bind, hio, Bool.not_false, if_true]
  rw [← h]
  rfl

theorem append_ok (kind : UInt8) (txid : UInt64) (payload : List UInt8)
    (h : w.poisoned = none) (hio : w.io.headD true = true) :
    ∃ w', append kind txid payload w = (.ok w.nextLsn, w') ∧
      w'.file = writeAllAt w.file w.appended (LogRecord.frame ⟨w.nextLsn, kind, txid, payload⟩) ∧
      w'.appended = w.appended + (LogRecord.frame ⟨w.nextLsn, kind, txid, payload⟩).length ∧
      w'.nextLsn = w.nextLsn + 1 ∧ w'.poisoned = none ∧ w'.io = w.io.tail := by
  rw [append, StateExcept.read_bind, h]
  simp only [ioOk_bind, hio]
  by_cases hk : kind = kindCommitDeferred <;> simp [hk, h]

theorem writeAllAt_end (file bytes : List UInt8) :
    writeAllAt file file.length bytes = file ++ bytes := by
  simp [writeAllAt]

theorem setLen_self (file : List UInt8) : setLen file file.length = file := by
  simp [setLen]

theorem setLen_left (xs ys : List UInt8) : setLen (xs ++ ys) xs.length = xs := by
  simp [setLen]

/-! ## Steps that keep the log -/

/-- The step appends records to a well-formed log and leaves the file of a
poisoned one alone. -/
structure Safe (m : WalM α) : Prop where
  grows : ∀ w recs, Logged w recs → ∃ new, Logged (m w).2 (recs ++ new)
  stuck : ∀ w : Wal, w.poisoned.isSome → (m w).2.poisoned.isSome ∧ (m w).2.file = w.file

theorem Safe.pure (a : α) : Safe (Pure.pure a : WalM α) :=
  ⟨fun w recs h => ⟨[], by rwa [List.append_nil]⟩, fun w h => ⟨h, rfl⟩⟩

theorem Safe.throw (e : WalError) : Safe (MonadExcept.throw e : WalM α) :=
  ⟨fun w recs h => ⟨[], by rwa [List.append_nil]⟩, fun w h => ⟨h, rfl⟩⟩

theorem Safe.read : Safe (StateExcept.read : WalM Wal) :=
  ⟨fun w recs h => ⟨[], by rwa [List.append_nil]⟩, fun w h => ⟨h, rfl⟩⟩

/-- A change of the counters the log does not depend on. -/
theorem Safe.update {f : Wal → Wal} (hfile : ∀ w, (f w).file = w.file)
    (happended : ∀ w, (f w).appended = w.appended) (hnext : ∀ w, (f w).nextLsn = w.nextLsn)
    (hpoisoned : ∀ w : Wal, w.poisoned.isSome → (f w).poisoned.isSome) :
    Safe (StateExcept.update f : WalM Unit) := by
  refine ⟨?_, fun w h => ⟨hpoisoned w h, hfile w⟩⟩
  intro w recs h
  refine ⟨[], ?_⟩
  rw [List.append_nil]
  exact ⟨(hfile w).trans h.file, by
    rw [show (StateExcept.update f w).2 = f w from rfl, happended, hfile, h.appended],
    h.contiguous, by rw [show (StateExcept.update f w).2 = f w from rfl, hnext, h.next], h.bounded⟩

/-- What a step does after one that succeeds or fails. -/
theorem Safe.seq {m : WalM α} {k : Except WalError α → WalM β} {run : WalM β}
    (hrun : ∀ w, run w = k (m w).1 (m w).2) (hm : Safe m) (hk : ∀ x, Safe (k x)) : Safe run := by
  refine ⟨?_, ?_⟩
  · intro w recs h
    obtain ⟨new, hnew⟩ := hm.grows w recs h
    obtain ⟨new', hnew'⟩ := (hk (m w).1).grows _ _ hnew
    rw [hrun]
    exact ⟨new ++ new', by rwa [← List.append_assoc]⟩
  · intro w h
    obtain ⟨hpoisoned, hfile⟩ := hm.stuck w h
    obtain ⟨hpoisoned', hfile'⟩ := (hk (m w).1).stuck _ hpoisoned
    rw [hrun]
    exact ⟨hpoisoned', hfile'.trans hfile⟩

theorem Safe.bind {m : WalM α} {f : α → WalM β} (hm : Safe m) (hf : ∀ a, Safe (f a)) :
    Safe (m >>= f) := by
  refine Safe.seq (k := fun x => match x with
    | .ok a => f a
    | .error e => MonadExcept.throw e) ?_ hm ?_
  · intro w
    rw [StateExcept.bind_apply]
    rcases m w with ⟨_ | _, _⟩ <;> rfl
  · rintro (e | a)
    · exact Safe.throw e
    · exact hf a

theorem Safe.ite {c : Prop} [Decidable c] {m m' : WalM α} (hm : Safe m) (hm' : Safe m') :
    Safe (if c then m else m') := by
  split_ifs
  · exact hm
  · exact hm'

theorem Safe.poison (reason : String) : Safe (poison reason) :=
  Safe.update (fun _ => rfl) (fun _ => rfl) (fun _ => rfl) fun _ _ => rfl

theorem Safe.noteCommit (lsn : UInt64) : Safe (noteCommit lsn) :=
  Safe.update (fun _ => rfl) (fun _ => rfl) (fun _ => rfl) fun _ h => h

theorem Safe.ioOk : Safe ioOk :=
  Safe.bind Safe.read fun _ =>
    Safe.bind (Safe.update (fun _ => rfl) (fun _ => rfl) (fun _ => rfl) fun _ h => h) fun _ =>
      Safe.pure _

theorem Safe.orPoison {m : WalM α} (reason : String) (hm : Safe m) :
    Safe (orPoison reason m) := by
  refine Safe.seq (k := fun x => match x with
    | .ok a => Pure.pure a
    | .error e => do
      Wal.poison reason
      MonadExcept.throw e) ?_ hm ?_
  · intro w
    rw [Wal.orPoison, StateExcept.tryCatch_apply]
    rcases m w with ⟨_ | _, _⟩ <;> rfl
  · rintro (e | a)
    · exact (Safe.poison reason).bind fun _ => Safe.throw e
    · exact Safe.pure a

theorem Safe.append (kind : UInt8) (txid : UInt64) (h : payload.length ≤ maxFramePayload) :
    Safe (append kind txid payload) := by
  refine ⟨?_, ?_⟩
  · intro w recs hlog
    cases hpoisoned : w.poisoned with
    | some reason =>
        rw [append_poisoned hpoisoned]
        exact ⟨[], by rwa [List.append_nil]⟩
    | none =>
        cases hio : w.io.headD true with
        | false =>
            rw [append_fails hpoisoned hio]
            refine ⟨[], ?_⟩
            rw [List.append_nil]
            have hfile : setLen w.file w.appended = w.file := by
              rw [hlog.appended, setLen_self]
            exact ⟨hfile.trans hlog.file, hlog.appended.trans (by rw [hfile]), hlog.contiguous,
              hlog.next, hlog.bounded⟩
        | true =>
            obtain ⟨w', happend, hfile, happended, hnext, -⟩ :=
              append_ok kind txid payload hpoisoned hio
            rw [hlog.appended, writeAllAt_end] at hfile
            rw [happend]
            refine ⟨[⟨w.nextLsn, kind, txid, payload⟩], ?_, ?_, ?_, ?_, ?_⟩
            · simp [hfile, hlog.file]
            · simp [hfile, happended, hlog.appended]
            · exact hlog.contiguous.append ⟨by simp [hlog.next], trivial⟩
            · rw [nextAfter_append, hnext]
              rfl
            · intro rec hrec
              rcases List.mem_append.mp hrec with hrec | hrec
              · exact hlog.bounded rec hrec
              · rw [List.mem_singleton.mp hrec]
                exact h
  · intro w hpoisoned
    obtain ⟨reason, hreason⟩ := Option.isSome_iff_exists.mp hpoisoned
    rw [append_poisoned hreason]
    exact ⟨hpoisoned, rfl⟩

/-! ## The operations -/

theorem Safe.append_nil (kind : UInt8) (txid : UInt64) : Safe (Wal.append kind txid []) :=
  Safe.append kind txid (Nat.zero_le _)

theorem Safe.fence : Safe fence := by
  refine Safe.read.bind fun w => Safe.ite (Safe.pure _) ?_
  refine Safe.ite ((Safe.throw _).bind fun _ => ?_) ?_
  all_goals
    refine (Safe.append_nil _ _).bind fun lsn => ?_
    refine Safe.bind (Safe.update (fun _ => rfl) (fun _ => rfl) (fun _ => rfl) fun _ h => h)
      fun _ => ?_
    exact (Safe.noteCommit lsn).bind fun _ => Safe.pure lsn

theorem Safe.sync : Safe sync := by
  have hnote : Safe (StateExcept.update fun w =>
      { w with durableLsn := max w.durableLsn w.lastCommitLsn } : WalM Unit) :=
    Safe.update (fun _ => rfl) (fun _ => rfl) (fun _ => rfl) fun _ h => h
  refine Safe.ioOk.bind fun ok => Safe.ite ?_ hnote
  exact (Safe.poison _).bind fun _ => (Safe.throw _).bind fun _ => hnote

theorem Safe.commit (txid : UInt64) : Safe (commit txid) := by
  have hend : ∀ lsn : UInt64, Safe (do
      Wal.noteCommit lsn
      Wal.sync
      Pure.pure lsn : WalM UInt64) :=
    fun lsn => (Safe.noteCommit lsn).bind fun _ => Safe.sync.bind fun _ => Safe.pure lsn
  refine Safe.fence.bind fun fenceLsn => Safe.ite ?_ ?_
  · exact (Safe.orPoison _ (Safe.append_nil _ _)).bind hend
  · exact (Safe.append_nil _ _).bind hend

theorem Safe.abortLoop (txids : List UInt64) : Safe (abortLoop txids) := by
  induction txids with
  | nil => exact Safe.pure ()
  | cons txid txids ih => exact (Safe.orPoison _ (Safe.append_nil _ _)).bind fun _ => ih

theorem Safe.abortDeferred : Safe abortDeferred :=
  Safe.read.bind fun w => (Safe.abortLoop w.deferredTxids).bind fun _ =>
    Safe.update (fun _ => rfl) (fun _ => rfl) (fun _ => rfl) fun _ h => h

theorem Safe.exec {op : Op} (hop : op.Bounded) (hne : op ≠ .checkpoint) : Safe op.exec := by
  cases op with
  | begin txid => exact (Safe.append_nil _ txid).bind fun _ => Safe.pure ()
  | logWrite txid payload => exact (Safe.append _ txid hop).bind fun _ => Safe.pure ()
  | commit txid => exact (Safe.commit txid).bind fun _ => Safe.pure ()
  | commitDeferred txid =>
      refine Safe.bind ?_ fun _ => Safe.pure ()
      exact (Safe.append_nil _ txid).bind fun lsn =>
        (Safe.noteCommit lsn).bind fun _ => Safe.pure lsn
  | fence => exact Safe.fence.bind fun _ => Safe.pure ()
  | sync => exact Safe.sync
  | abort txid => exact (Safe.append_nil _ txid).bind fun _ => Safe.pure ()
  | abortDeferred => exact Safe.abortDeferred
  | checkpoint => exact absurd rfl hne

/-- What a checkpoint leaves, by the file operation that fails. -/
theorem checkpoint_cases (w : Wal) :
    (∃ io, (checkpoint w).2 = { w with io := io }) ∨
    ((checkpoint w).2.poisoned.isSome ∧
      ((checkpoint w).2.file = [] ∨ (checkpoint w).2.file = header)) ∨
    Logged (checkpoint w).2 [] := by
  unfold checkpoint
  rw [ioOk_bind]
  cases w.io.headD true with
  | false => exact Or.inl ⟨w.io.tail, rfl⟩
  | true =>
      right
      simp only [Bool.not_true, Bool.false_eq_true, if_false, StateExcept.update_bind]
      rw [StateExcept.bind_apply, orPoison, StateExcept.tryCatch_apply, ioOk_bind]
      cases w.io.tail.headD true with
      | false => exact Or.inl ⟨rfl, Or.inl rfl⟩
      | true =>
          simp only [Bool.not_true, Bool.false_eq_true, if_false, StateExcept.update_bind]
          rw [ioOk_bind]
          cases w.io.tail.tail.headD true with
          | false => exact Or.inl ⟨rfl, Or.inr rfl⟩
          | true => exact Or.inr ⟨rfl, rfl, trivial, rfl, by simp [Bounded]⟩

/-! ## Runs -/

/-- A log with its frames, or one that lost them and takes no more. -/
def Sound (w : Wal) : Prop :=
  (∃ recs, Logged w recs) ∨ (w.poisoned.isSome ∧ (w.file = [] ∨ w.file = header))

theorem logged_create (io : List Bool) : Logged (create io) [] :=
  ⟨rfl, rfl, trivial, rfl, by simp [Bounded]⟩

theorem Sound.exec {op : Op} (hop : op.Bounded) (h : Sound w) : Sound (op.exec w).2 := by
  by_cases hck : op = .checkpoint
  · subst hck
    rcases checkpoint_cases w with ⟨io, heq⟩ | hlost | hlog
    · show Sound (checkpoint w).2
      rw [heq]
      refine h.imp ?_ id
      rintro ⟨recs, hlog⟩
      exact ⟨recs, hlog.file, hlog.appended, hlog.contiguous, hlog.next, hlog.bounded⟩
    · exact Or.inr hlost
    · exact Or.inl ⟨[], hlog⟩
  · have hsafe := Safe.exec hop hck
    rcases h with ⟨recs, hlog⟩ | ⟨hpoisoned, hfile⟩
    · obtain ⟨new, hnew⟩ := hsafe.grows w recs hlog
      exact Or.inl ⟨_, hnew⟩
    · obtain ⟨hpoisoned', hfile'⟩ := hsafe.stuck w hpoisoned
      right
      rw [hfile']
      exact ⟨hpoisoned', hfile⟩

theorem Sound.run {ops : List Op} (hops : ∀ op ∈ ops, op.Bounded) (h : Sound w) :
    Sound (run ops w) := by
  induction ops generalizing w with
  | nil => exact h
  | cons op ops ih =>
      exact ih (fun op' h' => hops op' (List.mem_cons_of_mem _ h'))
        (h.exec (hops op List.mem_cons_self))

/-- Without a checkpoint the records stay and more follow. -/
theorem Logged.run {ops : List Op} (hops : ∀ op ∈ ops, op.Bounded) (hck : Op.checkpoint ∉ ops)
    (h : Logged w recs) : ∃ new, Logged (run ops w) (recs ++ new) := by
  induction ops generalizing w recs with
  | nil => exact ⟨[], by rwa [List.append_nil]⟩
  | cons op ops ih =>
      have hsafe := Safe.exec (hops op List.mem_cons_self) fun heq => hck (by simp [heq])
      obtain ⟨new, hnew⟩ := hsafe.grows w recs h
      obtain ⟨new', hnew'⟩ := ih (fun op' h' => hops op' (List.mem_cons_of_mem _ h'))
        (fun hmem => hck (List.mem_cons_of_mem _ hmem)) hnew
      exact ⟨new ++ new', by rwa [← List.append_assoc]⟩

theorem Logged.scan (h : Logged w recs) : scanFile w.file = .ok recs := by
  rw [scanFile, h.file, frames_log h.bounded h.contiguous.none]
  rfl

/-- The file of a reachable log. -/
theorem Sound.file (h : Sound w) : w.file = [] ∨
    ∃ recs, w.file = header ++ logBytes recs ∧ Contiguous (some 1) recs ∧ Bounded recs := by
  rcases h with ⟨recs, hlog⟩ | ⟨-, hfile | hfile⟩
  · exact Or.inr ⟨recs, hlog.file, hlog.contiguous, hlog.bounded⟩
  · exact Or.inl hfile
  · exact Or.inr ⟨[], by simp [hfile], trivial, by simp [Bounded]⟩

/-! ## Opening -/

theorem foldl_note_nextLsn (recs : List LogRecord) (s : OpenScan) :
    some (recs.foldl OpenScan.note s).nextLsn = nextAfter (some s.nextLsn) recs := by
  induction recs generalizing s with
  | nil => rfl
  | cons rec recs ih =>
      rw [List.foldl_cons, ih, nextAfter]
      rfl

/-- Behind a valid header, `open` stands or falls with the scan. -/
theorem openWal_header (rest : List UInt8) (io : List Bool) :
    openWal (header ++ rest) io = do
      let (recs, goodEnd) ← frames (header ++ rest)
      let scan := recs.foldl OpenScan.note {}
      let durable := scan.deferred.durableLsns.foldl max scan.durable
      return {
        file := setLen (header ++ rest) goodEnd
        nextLsn := scan.nextLsn
        lastCommitLsn := durable
        durableLsn := durable
        appended := goodEnd
        deferredSinceFence := 0
        deferredTxids := []
        epoch := 0
        poisoned := none
        io := io } := by
  have hlen : header.length = 8 := rfl
  rw [openWal, if_neg (by rw [List.length_append]; omega),
    if_neg (by rw [List.length_append]; omega), if_neg (by rw [List.take_left' rfl]; simp)]

theorem openWal_take (hbounded : Bounded recs) (hcont : Contiguous (some 1) recs) (n : ℕ)
    (io : List Bool) : ∃ w', openWal (header ++ (logBytes recs).take n) io = .ok w' ∧
      Logged w' (framesInside n recs) := by
  obtain ⟨later, hlater⟩ := framesInside_isPrefix n recs
  obtain ⟨torn, htake, -⟩ := take_logBytes n recs
  have hkept : Contiguous (some 1) (framesInside n recs) := by
    rw [← hlater] at hcont
    exact hcont.left
  refine ⟨_, by rw [openWal_header, frames_take hbounded hcont.none]; rfl, ?_⟩
  have hfile : setLen (header ++ (logBytes recs).take n)
      (header ++ logBytes (framesInside n recs)).length =
        header ++ logBytes (framesInside n recs) := by
    rw [htake, ← List.append_assoc, setLen_left]
  refine ⟨hfile, ?_, hkept, ?_, ?_⟩
  · simp only [hfile]
  · exact (foldl_note_nextLsn (framesInside n recs) {}).symm
  · intro rec hrec
    exact hbounded rec (by rw [← hlater]; exact List.mem_append_left _ hrec)

/-- Part of a written log opens with its complete frames, and later frames
continue them. -/
theorem openWal_cut (hbounded : Bounded recs) (hcont : Contiguous (some 1) recs) {n : ℕ}
    (hn : header.length ≤ n) (io : List Bool) :
    ∃ w', openWal ((header ++ logBytes recs).take n) io = .ok w' ∧
      Logged w' (framesInside (n - header.length) recs) := by
  rw [List.take_append, List.take_of_length_le hn]
  exact openWal_take hbounded hcont _ io

/-! ## Damage inside the log -/

/-- A byte changed behind the LSN of a frame leaves the frames before it and
its LSN as they were. -/
theorem set_in_frame (pre post : List LogRecord) (rec : LogRecord) {o : ℕ} (b : UInt8)
    (ho : 8 ≤ o) :
    ∃ bad, (header ++ logBytes (pre ++ rec :: post)).set
        (header.length + (logBytes pre).length + o) b = header ++ (logBytes pre ++ bad) ∧
      word64 (bad.take 8) = rec.lsn := by
  refine ⟨(rec.frame ++ logBytes post).set o b, ?_, ?_⟩
  · rw [logBytes_append, logBytes_cons, List.set_append_right _ _ (by omega),
      List.set_append_right _ _ (by omega)]
    congr 3
    omega
  · rw [List.take_set_of_le ho, LogRecord.frame_take_lsn, word64,
      Bytes.ofLE_toLE (UInt64.toNat_lt _), UInt64.ofNat_toNat]

/-- A frame longer than the reader accepts is damage as soon as bytes follow. -/
theorem frames_oversize (rec : LogRecord) (tail : List UInt8)
    (hmax : maxFramePayload < rec.payload.length) (hlt : rec.payload.length < 2 ^ 32)
    (htail : 0 < tail.length) :
    ∃ e, frames (header ++ (rec.frame ++ tail)) = .error e := by
  have hlen := rec.length_frame
  refine ⟨.corrupt rec.lsn "corrupt frame length mid-log", ?_⟩
  have hread : (FrameReader.fromFile (header ++ (rec.frame ++ tail))).readFrame =
      .error (.corrupt rec.lsn "corrupt frame length mid-log") := by
    have hrest : (FrameReader.fromFile (header ++ (rec.frame ++ tail))).rest = rec.frame ++ tail :=
      List.drop_left' rfl
    have hmid : header.length + 21 + rec.payload.length + 4 <
        (header ++ (rec.frame ++ tail)).length := by
      rw [List.length_append, List.length_append, hlen]
      omega
    rw [FrameReader.readFrame, hrest, if_neg (by rw [List.length_append, hlen]; omega)]
    simp only [LogRecord.claimedLen_frame tail hlt]
    rw [if_pos hmax, LogRecord.frame_take_lsn, word64, Bytes.ofLE_toLE (UInt64.toNat_lt _),
      UInt64.ofNat_toNat]
    exact if_pos hmid
  obtain ⟨fuel, hfuel⟩ : ∃ fuel, (header ++ (rec.frame ++ tail)).length = fuel + 1 :=
    ⟨_, (Nat.succ_pred_eq_of_pos (by simp [header])).symm⟩
  rw [frames, hfuel, FrameReader.collect, hread]

theorem openWal_oversize (payload : List UInt8) (hmax : maxFramePayload < payload.length)
    (hlt : payload.length < 2 ^ 32) (io : List Bool) :
    ∃ e, openWal (run [.logWrite 1 payload, .begin 2] (create [])).file io = .error e := by
  obtain ⟨w₁, hw₁, hfile₁, happended₁, -, hpoisoned₁, hio₁⟩ := append_ok (w := create [])
    kindWrite 1 payload rfl rfl
  obtain ⟨w₂, hw₂, hfile₂, -⟩ := append_ok kindBegin 2 []
    hpoisoned₁ (by rw [hio₁]; rfl)
  have hrun : run [.logWrite 1 payload, .begin 2] (create []) = w₂ := by
    simp only [run, List.foldl_cons, List.foldl_nil, Op.exec, logWrite, Wal.begin,
      StateExcept.bind_apply, StateExcept.pure_apply, hw₁, hw₂]
  have hend : w₁.appended = w₁.file.length := by
    rw [happended₁, hfile₁, show (create []).appended = (create []).file.length from rfl,
      writeAllAt_end, List.length_append]
  rw [hend, writeAllAt_end, hfile₁, show (create []).appended = (create []).file.length from rfl,
    writeAllAt_end, List.append_assoc] at hfile₂
  obtain ⟨e, he⟩ := frames_oversize ⟨(create []).nextLsn, kindWrite, 1, payload⟩
    (LogRecord.frame ⟨w₁.nextLsn, kindBegin, 2, []⟩) hmax hlt
    (by rw [LogRecord.length_frame]; omega)
  refine ⟨e, ?_⟩
  rw [hrun, hfile₂, show (create []).file = header from rfl, openWal_header, he]
  rfl

end Docsql.Wal
