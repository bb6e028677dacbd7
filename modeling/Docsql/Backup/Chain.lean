import Mathlib.Data.List.Sort
import Mathlib.Tactic
import Docsql.Lib.StateExcept

/-!
# Backups, incremental exports and point-in-time restores

The journal of a node, the files of its backup directory and what `backup.rs` does
with them.  Names carry increasing stamps, so a directory is a list in the order in
which its files were written.
-/

namespace Docsql.Backup

/-- A row of the journal; rows from before the time stamps have none. -/
structure Row where
  seq : ℕ
  ts : Option ℤ
  sql : String

/-- A line of an incremental file. -/
structure Line where
  seq : ℕ
  ts : ℤ
  sql : String
deriving DecidableEq

structure PitrHeader where
  fromSeq : ℕ
  toSeq : ℕ

/-- An incremental file; `intact` when its checksum holds. -/
structure IncrFile where
  header : Option PitrHeader
  lines : List Line
  intact : Bool := true

structure BackupHeader where
  journalSeq : ℕ
  ts : ℕ

/-- A full backup with the statements of its dump; the first format had no header. -/
structure Base where
  header : Option BackupHeader
  dump : List String

/-- What is written over the text of a journal entry that a snapshot overruled. -/
def voidSentinel : String := "PRAGMA discarded_by_snapshot_adoption;"

structure Node where
  journal : List Row := []
  /-- The next sequence number. -/
  next : ℕ := 1
  incr : List IncrFile := []
  bases : List Base := []

/-! ## Reading the chain back -/

def gapError (expected seq : ℕ) : String :=
  s!"incremental chain has a gap: journal seq {expected}..{seq} is missing " ++
    "(journal window trimmed or a segment pruned); take a fresh full backup"

/-- The first sequence number a file without a header holds beyond the base. -/
def strayLine (baseSeq : ℕ) (f : IncrFile) : Option ℕ :=
  (f.lines.find? fun l => baseSeq < l.seq).map Line.seq

/-- The entries beyond the base, and the last one the files claim to hold. -/
def gather (baseSeq : ℕ) : List IncrFile → List Line → ℕ → Except String (List Line × ℕ)
  | [], entries, ceiling => .ok (entries, ceiling)
  | f :: files, entries, ceiling =>
    if f.intact = false then
      .error "failed checksum verification (corrupted or tampered); refusing to restore"
    else
      match f.header with
      | some h =>
        if h.toSeq ≤ baseSeq then gather baseSeq files entries ceiling
        else
          gather baseSeq files (entries ++ f.lines.filter fun l => baseSeq < l.seq)
            (max ceiling h.toSeq)
      | none =>
        match strayLine baseSeq f with
        | some seq => .error (s!"incremental file has no readable header but carries " ++
            s!"journal seq {seq} > base {baseSeq}; take a fresh full backup")
        | none => gather baseSeq files entries ceiling

/-- Walks the ordered entries and demands that none is missing. -/
def audit (target : ℤ) : List Line → ℕ → List String → Except String (List String × ℕ)
  | [], expected, out => .ok (out, expected)
  | l :: entries, expected, out =>
    if l.seq < expected then audit target entries expected out
    else if expected < l.seq then .error (gapError expected l.seq)
    else
      audit target entries (expected + 1)
        (if l.sql ≠ voidSentinel ∧ l.ts ≤ target then out ++ [l.sql] else out)

/-- The texts to replay after a base, and the last entry the chain holds. -/
def collectPitrEntries (dir : List IncrFile) (baseSeq : ℕ) (target : ℤ) :
    Except String (List String × ℕ) := do
  let (entries, ceiling) ← gather baseSeq dir [] baseSeq
  let (out, expected) ← audit target (entries.mergeSort fun a b => a.seq ≤ b.seq) (baseSeq + 1) []
  if expected ≤ ceiling then
    throw (s!"incremental chain is missing its tail: segments claim journal seq up to " ++
      s!"{ceiling} but the chain stops at {expected - 1} (a segment was pruned or the " ++
      "window trimmed); take a fresh full backup")
  return (out, expected - 1)

/-! ## Writing the chain -/

/-- The entry everything in the directory already covers. -/
def pitrCursor (n : Node) : ℕ :=
  let exported := ((n.incr.getLast?.bind IncrFile.header).map PitrHeader.toSeq).getD 0
  match n.bases.getLast?.bind Base.header with
  | some h => max exported h.journalSeq
  | none => exported

def journalEntriesAfter (n : Node) (after limit : ℕ) : List Row :=
  (n.journal.filter fun r => after < r.seq).take limit

def Row.line? (r : Row) : Option Line := r.ts.map fun ts => ⟨r.seq, ts, r.sql⟩

/-- The newest `keep` files. -/
def pruneOldest {α : Type} (keep : ℕ) (files : List α) : List α :=
  files.drop (files.length - max keep 1)

def exportLimit : ℕ := 200000

/-- The journal entries after the cursor as one more incremental file. -/
def segmentAfter (n : Node) (cursor : ℕ) : Except String (Option IncrFile) :=
  let usable := (journalEntriesAfter n cursor exportLimit).filterMap Row.line?
  match usable with
  | [] => .ok none
  | first :: rest =>
    let firstSeq := first.seq
    if cursor + 1 < firstSeq then
      .error (s!"journal window trimmed below the PITR cursor (first live seq {firstSeq}, " ++
        s!"cursor {cursor}); take a fresh full backup to re-anchor the chain")
    else
      let header : PitrHeader := ⟨firstSeq, ((first :: rest).getLast (List.cons_ne_nil _ _)).seq⟩
      .ok (some ⟨some header, usable, true⟩)

def exportIncremental (n : Node) (keep : ℕ) : Except String Node := do
  match ← segmentAfter n (pitrCursor n) with
  | none => return n
  | some f => return { n with incr := pruneOldest (max keep 4) (n.incr ++ [f]) }

/-- The highest sequence number in the journal. -/
def journalHead (n : Node) : ℕ := (n.journal.map Row.seq).foldr max 0

/-- A full backup at time `now`. -/
def backupInner (n : Node) (dump : List String) (now keep : ℕ) : Node :=
  { n with bases := pruneOldest keep (n.bases ++ [⟨some ⟨journalHead n, now⟩, dump⟩]) }

def journalAppend (n : Node) (ts : ℤ) (sql : String) : Node :=
  { n with journal := n.journal ++ [⟨n.next, some ts, sql⟩], next := n.next + 1 }

/-- Both trims delete the entries up to a sequence number. -/
def journalTrim (n : Node) (cutoff : ℕ) : Node :=
  { n with journal := n.journal.filter fun r => cutoff < r.seq }

/-! ## Restoring -/

def auditLimit : ℕ := 1000

def tailNote (unexported : ℕ) : String :=
  s!"{unexported} journal write(s) at or before the target are not " ++
    "in the incremental chain (they postdate the last export); " ++
    "the restore stops at the chain tail — verify, then re-run " ++
    "after the next export or a fresh full backup"

/-- The live entries after the chain that belong before the target. -/
def unexported (n : Node) (chainLast : ℕ) (target : ℤ) : ℕ :=
  ((journalEntriesAfter n chainLast auditLimit).filter fun r => r.ts.any (· ≤ target)).length

/-- The statements a restore replays, and the note it leaves. -/
def restoreInner (n : Node) (base : Base) (targetMs : Option ℤ) :
    Except String (List String × Option String) :=
  match targetMs with
  | none => .ok (base.dump, none)
  | some target =>
    match base.header with
    | none => .error ("restore to timestamp requires a v2 backup (journal-seq header); " ++
        "take a new full backup first")
    | some head =>
      let snapshot := head.ts
      if 0 < snapshot ∧ (target < 0 ∨ target < snapshot) then
        .error (s!"restore target {target} precedes the base backup's snapshot time " ++
          s!"{snapshot}; take an earlier full backup")
      else do
        let (stmts, chainLast) ← collectPitrEntries n.incr head.journalSeq target
        let count := unexported n chainLast target
        return (base.dump ++ stmts, if 0 < count then some (tailNote count) else none)

end Docsql.Backup

/-!
# The audit of an incremental chain

What `collect_pitr_entries` returns on files that hold stretches of one history:
the history after the base when no entry of it is missing, and an error otherwise.
-/

namespace Docsql.Backup

theorem range'_filter {start a b : ℕ} (n : ℕ) (hstart : start ≤ a + 1) (hb : b < start + n) :
    (List.range' start n).filter (fun k => a < k ∧ k ≤ b) = List.range' (a + 1) (b - a) := by
  have hperm : List.Perm ((List.range' start n).filter fun k => a < k ∧ k ≤ b)
      (List.range' (a + 1) (b - a)) := by
    rw [List.perm_ext_iff_of_nodup (List.Nodup.filter _ List.nodup_range') List.nodup_range']
    intro k
    simp only [List.mem_filter, List.mem_range'_1, decide_eq_true_eq]
    omega
  exact hperm.eq_of_pairwise' (List.Pairwise.filter _ List.pairwise_lt_range') List.pairwise_lt_range'

/-- Consecutive entries from `start` on. -/
def Numbered (start : ℕ) (lines : List Line) : Prop :=
  lines.map Line.seq = List.range' start lines.length

namespace Numbered

variable {start : ℕ} {l : Line} {lines : List Line}

theorem head_seq (h : Numbered start (l :: lines)) : l.seq = start := by
  unfold Numbered at h
  rw [List.map_cons, List.length_cons, List.range'_succ] at h
  exact (List.cons.inj h).1

theorem tail (h : Numbered start (l :: lines)) : Numbered (start + 1) lines := by
  unfold Numbered at h ⊢
  rw [List.map_cons, List.length_cons, List.range'_succ] at h
  exact (List.cons.inj h).2

theorem mem_range (h : Numbered start lines) (hl : l ∈ lines) :
    start ≤ l.seq ∧ l.seq < start + lines.length := by
  have hseq : l.seq ∈ List.range' start lines.length := by
    rw [← h]
    exact List.mem_map_of_mem hl
  rw [List.mem_range'_1] at hseq
  exact hseq

theorem exists_seq (h : Numbered start lines) {k : ℕ} (hk : start ≤ k)
    (hlt : k < start + lines.length) : ∃ l ∈ lines, l.seq = k := by
  have hseq : k ∈ lines.map Line.seq := by
    rw [h, List.mem_range'_1]
    exact ⟨hk, hlt⟩
  exact List.mem_map.1 hseq

theorem nodup (h : Numbered start lines) : (lines.map Line.seq).Nodup := by
  rw [h]
  exact List.nodup_range'

/-- Entries of one history with the same number are the same. -/
theorem inj (h : Numbered start lines) {l' : Line} (hl : l ∈ lines) (hl' : l' ∈ lines)
    (hseq : l.seq = l'.seq) : l = l' :=
  List.inj_on_of_nodup_map h.nodup hl hl' hseq

theorem snoc (h : Numbered start lines) (hl : l.seq = start + lines.length) :
    Numbered start (lines ++ [l]) := by
  unfold Numbered at h ⊢
  rw [List.map_append, h, List.length_append, List.length_singleton, List.range'_concat]
  simp [hl]

/-- The entries after `a` up to `b`. -/
theorem window (h : Numbered start lines) {a b : ℕ} (ha : start ≤ a + 1)
    (hb : b < start + lines.length) :
    Numbered (a + 1) (lines.filter fun l => a < l.seq ∧ l.seq ≤ b) := by
  have hseqs : (lines.filter fun l => a < l.seq ∧ l.seq ≤ b).map Line.seq =
      List.range' (a + 1) (b - a) := by
    rw [← range'_filter lines.length ha hb, ← h, List.filter_map]
    rfl
  have hlength := congrArg List.length hseqs
  rw [List.length_map, List.length_range'] at hlength
  unfold Numbered
  rw [hseqs, hlength]

end Numbered

/-- The texts of the entries up to the target. -/
def replayed (target : ℤ) (lines : List Line) : List String :=
  (lines.filter fun l => l.sql ≠ voidSentinel ∧ l.ts ≤ target).map Line.sql

section Audit

variable {target : ℤ}

theorem audit_cons_old {l : Line} {entries : List Line} {expected : ℕ} {out : List String}
    (h : l.seq < expected) :
    audit target (l :: entries) expected out = audit target entries expected out := by
  rw [audit, if_pos h]

theorem audit_cons_next {l : Line} {entries : List Line} {expected : ℕ} {out : List String}
    (h : l.seq = expected) :
    audit target (l :: entries) expected out =
      audit target entries (expected + 1) (out ++ replayed target [l]) := by
  rw [audit, if_neg (by omega), if_neg (by omega)]
  by_cases hl : l.sql ≠ voidSentinel ∧ l.ts ≤ target
  · rw [if_pos hl]
    simp [replayed, hl]
  · rw [if_neg hl]
    have hnone : replayed target [l] = [] := by
      rw [replayed, List.filter_cons_of_neg (by simpa using hl)]
      rfl
    rw [hnone, List.append_nil]

/-- Nothing is missing: the entries hold `rest`, and nothing else from `expected` on. -/
theorem audit_ok {entries rest : List Line} {expected : ℕ} (target : ℤ) (out : List String)
    (hsorted : entries.Pairwise fun a b => a.seq ≤ b.seq) (hrest : Numbered expected rest)
    (hin : ∀ l ∈ rest, l ∈ entries) (hout : ∀ l ∈ entries, expected ≤ l.seq → l ∈ rest) :
    audit target entries expected out =
      .ok (out ++ replayed target rest, expected + rest.length) := by
  induction entries generalizing rest expected out with
  | nil =>
    have hnil : rest = [] := List.eq_nil_iff_forall_not_mem.2 fun l hl =>
      absurd (hin l hl) List.not_mem_nil
    rw [hnil]
    simp [audit, replayed]
  | cons l entries ih =>
    obtain ⟨hle, hsorted⟩ := List.pairwise_cons.1 hsorted
    by_cases hold : l.seq < expected
    · rw [audit_cons_old hold]
      refine ih out hsorted hrest (fun r hr => ?_) fun r hr hseq =>
        hout r (List.mem_cons_of_mem l hr) hseq
      rcases List.mem_cons.1 (hin r hr) with rfl | hmem
      · exact absurd (hrest.mem_range hr).1 (by omega)
      · exact hmem
    · -- The first entry that is not old is the one that is expected.
      have hl : l ∈ rest := hout l List.mem_cons_self (by omega)
      cases rest with
      | nil => exact absurd hl List.not_mem_nil
      | cons r rest =>
        have hr := hrest.head_seq
        have hnext : l.seq = expected := by
          rcases List.mem_cons.1 (hin r List.mem_cons_self) with hsame | hmem
          · rw [← hsame, hr]
          · have := hle r hmem
            omega
        have hsame : l = r := hrest.inj hl List.mem_cons_self (by rw [hnext, hr])
        subst hsame
        rw [audit_cons_next hnext]
        rw [ih _ hsorted hrest.tail (fun s hs => ?_) fun s hs hseq => ?_]
        · simp only [List.length_cons, List.append_assoc, replayed, ← List.map_append,
            ← List.filter_append, List.singleton_append]
          rw [show expected + 1 + rest.length = expected + (rest.length + 1) by omega]
        · rcases List.mem_cons.1 (hin s (List.mem_cons_of_mem l hs)) with rfl | hmem
          · have := (hrest.tail.mem_range hs).1
            omega
          · exact hmem
        · rcases List.mem_cons.1 (hout s (List.mem_cons_of_mem l hs) (by omega)) with rfl | hmem
          · omega
          · exact hmem

/-- An entry is missing before one that is there. -/
theorem audit_error {entries : List Line} {expected missing : ℕ} (target : ℤ)
    (out : List String) (hsorted : entries.Pairwise fun a b => a.seq ≤ b.seq) (hge : expected ≤ missing)
    (hnone : ∀ l ∈ entries, l.seq ≠ missing) (hlater : ∃ l ∈ entries, missing < l.seq) :
    ∃ e, audit target entries expected out = .error e := by
  induction entries generalizing expected out with
  | nil =>
    obtain ⟨l, hl, -⟩ := hlater
    exact absurd hl List.not_mem_nil
  | cons l entries ih =>
    obtain ⟨hle, hsorted⟩ := List.pairwise_cons.1 hsorted
    have hrest (h : l.seq < missing) : ∃ l ∈ entries, missing < l.seq := by
      obtain ⟨later, hmem, hlt⟩ := hlater
      rcases List.mem_cons.1 hmem with rfl | hmem
      · omega
      · exact ⟨later, hmem, hlt⟩
    have hnone' : ∀ l ∈ entries, l.seq ≠ missing := fun r hr =>
      hnone r (List.mem_cons_of_mem l hr)
    have hne := hnone l List.mem_cons_self
    rcases Nat.lt_trichotomy l.seq expected with hold | hnext | hgap
    · rw [audit_cons_old hold]
      exact ih out hsorted hge hnone' (hrest (by omega))
    · rw [audit_cons_next hnext]
      exact ih _ hsorted (by omega) hnone' (hrest (by omega))
    · exact ⟨_, by rw [audit, if_neg (by omega), if_pos hgap]⟩

end Audit

/-! ## Files that hold stretches of a history -/

/-- A file holds the entries its header names. -/
structure Stretch (hist : List Line) (f : IncrFile) (h : PitrHeader) : Prop where
  header : f.header = some h
  intact : f.intact = true
  lines : f.lines = hist.filter fun l => h.fromSeq ≤ l.seq ∧ l.seq ≤ h.toSeq
  ordered : h.fromSeq ≤ h.toSeq
  bounded : h.toSeq ≤ hist.length

/-- An entry is in one of the files. -/
def Held (files : List IncrFile) (k : ℕ) : Prop := ∃ f ∈ files, ∃ l ∈ f.lines, l.seq = k

/-- The last entry of the files, or the base. -/
structure IsLast (files : List IncrFile) (baseSeq last : ℕ) : Prop where
  ge_base : baseSeq ≤ last
  upper : ∀ f ∈ files, ∀ h, f.header = some h → h.toSeq ≤ last
  reached : last = baseSeq ∨ ∃ f ∈ files, ∃ h, f.header = some h ∧ h.toSeq = last

section Collect

variable {hist : List Line} {files : List IncrFile} {baseSeq last : ℕ}

/-- What is gathered from files with headers. -/
theorem gather_spec (entries : List Line) {ceiling : ℕ}
    (hfiles : ∀ f ∈ files, ∃ h, Stretch hist f h) (hbase : baseSeq ≤ ceiling) :
    ∃ entries' ceiling', gather baseSeq files entries ceiling = .ok (entries', ceiling') ∧
      (∀ l, l ∈ entries' ↔ l ∈ entries ∨ baseSeq < l.seq ∧ ∃ f ∈ files, l ∈ f.lines) ∧
      ceiling ≤ ceiling' ∧ (∀ f ∈ files, ∀ h, f.header = some h → h.toSeq ≤ ceiling') ∧
      (ceiling' = ceiling ∨ ∃ f ∈ files, ∃ h, f.header = some h ∧ h.toSeq = ceiling') := by
  induction files generalizing entries ceiling with
  | nil => exact ⟨entries, ceiling, rfl, by simp, le_rfl, by simp, .inl rfl⟩
  | cons f files ih =>
    obtain ⟨⟨h, hf⟩, hfiles⟩ := List.forall_mem_cons.1 hfiles
    have hlines {l : Line} (hl : l ∈ f.lines) : l.seq ≤ h.toSeq := by
      rw [hf.lines, List.mem_filter] at hl
      exact (of_decide_eq_true hl.2).2
    have hhead {h' : PitrHeader} (hh : f.header = some h') : h' = h := by
      rw [hf.header] at hh
      exact (Option.some.inj hh).symm
    unfold gather
    rw [if_neg (by simp [hf.intact]), hf.header]
    dsimp only
    split
    · rename_i hcovered
      obtain ⟨entries', ceiling', hrun, hmem, hge, hupper, hreached⟩ := ih entries hfiles hbase
      refine ⟨entries', ceiling', hrun, fun l => ?_, hge, ?_, ?_⟩
      · rw [hmem l]
        have hnot : baseSeq < l.seq → l ∉ f.lines := fun hlt hl => by
          have := hlines hl
          omega
        simp only [List.mem_cons, exists_eq_or_imp]
        apply or_congr Iff.rfl
        apply and_congr_right
        intro hlt
        rw [or_iff_right (hnot hlt)]
      · refine List.forall_mem_cons.2 ⟨fun h' hh => ?_, hupper⟩
        rw [hhead hh]
        omega
      · refine hreached.imp id ?_
        rintro ⟨g, hg, hrest⟩
        exact ⟨g, List.mem_cons_of_mem f hg, hrest⟩
    · rename_i hbeyond
      obtain ⟨entries', ceiling', hrun, hmem, hge, hupper, hreached⟩ :=
        ih (entries ++ f.lines.filter fun l => baseSeq < l.seq) hfiles
          (hbase.trans (le_max_left ceiling h.toSeq))
      refine ⟨entries', ceiling', hrun, fun l => ?_, by omega, ?_, ?_⟩
      · rw [hmem l, List.mem_append, List.mem_filter]
        simp only [List.mem_cons, exists_eq_or_imp, decide_eq_true_eq]
        rw [or_assoc, and_comm (a := l ∈ f.lines), ← and_or_left]
      · refine List.forall_mem_cons.2 ⟨fun h' hh => ?_, hupper⟩
        rw [hhead hh]
        omega
      · rcases hreached with hsame | ⟨g, hg, hrest⟩
        · rcases le_total ceiling h.toSeq with hle | hle
          · exact .inr ⟨f, List.mem_cons_self, h, hf.header, by omega⟩
          · exact .inl (by omega)
        · exact .inr ⟨g, List.mem_cons_of_mem f hg, hrest⟩

theorem IsLast.unique {last' : ℕ} (h : IsLast files baseSeq last)
    (h' : IsLast files baseSeq last') : last = last' := by
  refine le_antisymm ?_ ?_
  · rcases h.reached with rfl | ⟨f, hf, hd, hhd, rfl⟩
    · exact h'.ge_base
    · exact h'.upper f hf hd hhd
  · rcases h'.reached with rfl | ⟨f, hf, hd, hhd, rfl⟩
    · exact h.ge_base
    · exact h.upper f hf hd hhd

/-- The entries of the directory, in order. -/
theorem gathered_sorted (hfiles : ∀ f ∈ files, ∃ h, Stretch hist f h)
    (hlast : IsLast files baseSeq last) :
    ∃ entries, gather baseSeq files [] baseSeq = .ok (entries, last) ∧
      (∀ l, l ∈ entries.mergeSort (fun a b => a.seq ≤ b.seq) ↔
        baseSeq < l.seq ∧ ∃ f ∈ files, l ∈ f.lines) ∧
      (entries.mergeSort fun a b => a.seq ≤ b.seq).Pairwise fun a b => a.seq ≤ b.seq := by
  obtain ⟨entries, ceiling, hrun, hmem, hge, hupper, hreached⟩ :=
    gather_spec [] hfiles (le_refl baseSeq)
  have hceiling : ceiling = last := IsLast.unique ⟨hge, hupper, hreached⟩ hlast
  refine ⟨entries, by rw [hrun, hceiling], fun l => ?_, ?_⟩
  · rw [List.mem_mergeSort, hmem l]
    simp
  · have hpairs : (entries.mergeSort fun a b => a.seq ≤ b.seq).Pairwise
        fun a b => decide (a.seq ≤ b.seq) = true :=
      List.pairwise_mergeSort (fun a b c => by simp; omega) (fun a b => by simp; omega) entries
    simpa using hpairs

theorem mem_hist_of_mem (hfiles : ∀ f ∈ files, ∃ h, Stretch hist f h) {f : IncrFile} {l : Line}
    (hf : f ∈ files) (hl : l ∈ f.lines) : l ∈ hist ∧ ∃ h, f.header = some h ∧ l.seq ≤ h.toSeq := by
  obtain ⟨h, hstretch⟩ := hfiles f hf
  rw [hstretch.lines, List.mem_filter] at hl
  exact ⟨hl.1, h, hstretch.header, (of_decide_eq_true hl.2).2⟩

/-- The whole chain is there. -/
theorem collect_ok (hhist : Numbered 1 hist) (hfiles : ∀ f ∈ files, ∃ h, Stretch hist f h)
    (hlast : IsLast files baseSeq last) (hbound : last ≤ hist.length) (target : ℤ)
    (hheld : ∀ k, baseSeq < k → k ≤ last → Held files k) :
    collectPitrEntries files baseSeq target =
      .ok (replayed target (hist.filter fun l => baseSeq < l.seq ∧ l.seq ≤ last), last) := by
  obtain ⟨entries, hgather, hmem, hsorted⟩ := gathered_sorted hfiles hlast
  have hrest := hhist.window (a := baseSeq) (b := last) (by omega) (by omega)
  have hlength : (hist.filter fun l => baseSeq < l.seq ∧ l.seq ≤ last).length =
      last - baseSeq := by
    have := congrArg List.length (range'_filter (a := baseSeq) (b := last) hist.length
      (Nat.le_add_left 1 baseSeq) (by omega))
    rw [← hhist, List.filter_map, List.length_map, List.length_range'] at this
    exact this
  have haudit := audit_ok target [] hsorted hrest (fun l hl => ?_)
    fun l hl _ => ?_
  · unfold collectPitrEntries
    rw [hgather]
    show (do
      let r ← audit target _ (baseSeq + 1) []
      _ : Except String (List String × ℕ)) = _
    rw [haudit, hlength]
    have hge := hlast.ge_base
    show (if baseSeq + 1 + (last - baseSeq) ≤ last then _ else _) = _
    rw [if_neg (by omega)]
    show Except.ok (_, baseSeq + 1 + (last - baseSeq) - 1) = _
    rw [List.nil_append, show baseSeq + 1 + (last - baseSeq) - 1 = last by omega]
  · obtain ⟨hin, hwin⟩ := List.mem_filter.1 hl
    have hwin := of_decide_eq_true hwin
    obtain ⟨f, hf, l', hl', hseq⟩ := hheld l.seq hwin.1 hwin.2
    have hsame : l' = l := hhist.inj (mem_hist_of_mem hfiles hf hl').1 hin hseq
    exact (hmem l).2 ⟨hwin.1, f, hf, hsame ▸ hl'⟩
  · obtain ⟨hlt, f, hf, hl'⟩ := (hmem l).1 hl
    obtain ⟨hin, h, hheader, hle⟩ := mem_hist_of_mem hfiles hf hl'
    exact List.mem_filter.2 ⟨hin, decide_eq_true ⟨hlt, hle.trans (hlast.upper f hf h hheader)⟩⟩

/-- An entry of the chain is missing. -/
theorem collect_error (hhist : Numbered 1 hist) (hfiles : ∀ f ∈ files, ∃ h, Stretch hist f h)
    (hlast : IsLast files baseSeq last) (target : ℤ) {missing : ℕ} (hlt : baseSeq < missing)
    (hle : missing ≤ last) (hnot : ¬Held files missing) :
    ∃ e, collectPitrEntries files baseSeq target = .error e := by
  obtain ⟨entries, hgather, hmem, hsorted⟩ := gathered_sorted hfiles hlast
  -- The last file ends beyond what is missing.
  obtain ⟨f, hf, h, hheader, htop⟩ : ∃ f ∈ files, ∃ h, f.header = some h ∧ h.toSeq = last := by
    rcases hlast.reached with hbase | htop
    · omega
    · exact htop
  obtain ⟨h', hstretch⟩ := hfiles f hf
  have hsame : h' = h := Option.some.inj (hstretch.header.symm.trans hheader)
  subst hsame
  obtain ⟨l, hl, hseq⟩ := hhist.exists_seq (k := last) (by omega)
    (by have := hstretch.bounded; omega)
  have hline : l ∈ f.lines := by
    rw [hstretch.lines, List.mem_filter]
    have := hstretch.ordered
    exact ⟨hl, decide_eq_true ⟨by omega, by omega⟩⟩
  have hne : last ≠ missing := by
    rintro rfl
    exact hnot ⟨f, hf, l, hline, hseq⟩
  obtain ⟨e, he⟩ := audit_error target [] hsorted (Nat.succ_le_of_lt hlt)
    (fun r hr hr' => by
      obtain ⟨-, g, hg, hrg⟩ := (hmem r).1 hr
      exact hnot ⟨g, hg, r, hrg, hr'⟩)
    ⟨l, (hmem l).2 ⟨by omega, f, hf, hline⟩, by omega⟩
  refine ⟨e, ?_⟩
  unfold collectPitrEntries
  rw [hgather]
  exact Except.bind_eq_error_iff.2 (.inr ⟨_, rfl, Except.bind_eq_error_iff.2 (.inl he)⟩)

end Collect

end Docsql.Backup
