import Docsql.Backup.Chain

/-!
# What a point-in-time restore replays

Runs of a node that changes through its own journaled writes only.  A restore that
goes through replays the journal after its base up to the last exported entry.
Whether that is all depends on the part of the journal its last check looks at.
-/

namespace Docsql.Backup

/-- The text of a journaled write; a PRAGMA is a read and never journaled. -/
abbrev JournalText := { sql : String // sql ≠ voidSentinel }

inductive Event where
  | write (ts : ℤ) (sql : JournalText)
  | backup (dump : List String) (now keep : ℕ)
  | exportTick (keep : ℕ)
  | trim (cutoff : ℕ)

/-- A failed export leaves the node as it was. -/
def step (n : Node) : Event → Node
  | .write ts sql => journalAppend n ts sql
  | .backup dump now keep => backupInner n dump now keep
  | .exportTick keep => match exportIncremental n keep with
    | .ok n' => n'
    | .error _ => n
  | .trim cutoff => journalTrim n cutoff

def run (events : List Event) : Node := events.foldl step {}

/-- The line an event adds to a history of `count` entries. -/
def Event.line? (count : ℕ) : Event → List Line
  | .write ts sql => [⟨count + 1, ts, sql⟩]
  | _ => []

/-- All entries of a run, trimmed or not. -/
def written (events : List Event) : List Line :=
  events.foldl (fun hist e => hist ++ e.line? hist.length) []

/-- The last exported entry; the newest file is never pruned. -/
def lastExported (n : Node) : ℕ :=
  ((n.incr.getLast?.bind IncrFile.header).map PitrHeader.toSeq).getD 0

def Line.row (l : Line) : Row := ⟨l.seq, some l.ts, l.sql⟩

/-! ## Stretches of a history -/

section History

variable {hist : List Line} {start : ℕ}

theorem Numbered.take_eq_filter (h : Numbered start hist) (n : ℕ) :
    hist.take n = hist.filter fun l => l.seq < start + n := by
  induction hist generalizing start n with
  | nil => simp
  | cons l hist ih =>
    have hl := h.head_seq
    cases n with
    | zero =>
      refine (List.filter_eq_nil_iff.2 fun r hr => ?_).symm
      have := (h.mem_range hr).1
      simpa using this
    | succ n =>
      rw [List.take_succ_cons, ih h.tail n, List.filter_cons_of_pos (by simp; omega)]
      congr 2
      funext r
      rw [show start + 1 + n = start + (n + 1) by omega]

theorem Numbered.take (h : Numbered start hist) (n : ℕ) : Numbered start (hist.take n) := by
  induction hist generalizing start n with
  | nil =>
    rw [List.take_nil]
    exact h
  | cons l hist ih =>
    cases n with
    | zero => rfl
    | succ n =>
      have htail := ih h.tail n
      unfold Numbered at htail ⊢
      rw [List.take_succ_cons, List.map_cons, htail, h.head_seq, List.length_cons,
        List.range'_succ]

theorem Numbered.getLast_seq (h : Numbered start hist) (hne : hist ≠ []) :
    (hist.getLast hne).seq + 1 = start + hist.length := by
  have hlast : (hist.map Line.seq).getLast (by simpa using hne) = (hist.getLast hne).seq := by
    rw [List.getLast_map]
  have hlength : 0 < hist.length := List.length_pos_iff.2 hne
  have hrange : (List.range' start hist.length).getLast (by simpa using hne) =
      start + hist.length - 1 := by
    rw [List.getLast_range']
  have hsame : (hist.getLast hne).seq = start + hist.length - 1 := by
    rw [← hlast, ← hrange]
    congr 1
  omega

theorem Numbered.after (h : Numbered 1 hist) (m : ℕ) :
    Numbered (m + 1) (hist.filter fun l => m < l.seq) := by
  have hwindow := h.window (a := m) (b := hist.length) (by omega) (by omega)
  have hsame : (hist.filter fun l => m < l.seq ∧ l.seq ≤ hist.length) =
      hist.filter fun l => m < l.seq := by
    refine List.filter_congr fun l hl => ?_
    have := (h.mem_range hl).2
    simp only [decide_eq_decide]
    omega
  rwa [hsame] at hwindow

/-- What a read of the journal finds after an entry. -/
theorem Numbered.read_eq (h : Numbered 1 hist) (m limit : ℕ) :
    (hist.filter fun l => m < l.seq).take limit = hist.filter fun l =>
      m + 1 ≤ l.seq ∧ l.seq ≤ m + ((hist.filter fun l => m < l.seq).take limit).length := by
  have hafter := h.after m
  have htake := hafter.take_eq_filter limit
  have hrange {l : Line} (hl : l ∈ (hist.filter fun l => m < l.seq).take limit) :=
    ((hafter.take limit).mem_range hl).2
  have hlimit : ((hist.filter fun l => m < l.seq).take limit).length ≤ limit :=
    List.length_take_le _ _
  rw [htake] at hrange hlimit
  conv_lhs => rw [htake, List.filter_filter]
  rw [htake]
  refine List.filter_congr fun l hl => ?_
  simp only [← Bool.decide_and, decide_eq_decide]
  constructor
  · rintro ⟨hlt, hm⟩
    have := hrange (List.mem_filter.2 ⟨List.mem_filter.2 ⟨hl, decide_eq_true hm⟩,
      decide_eq_true hlt⟩)
    omega
  · rintro ⟨hm, hle⟩
    omega

end History

/-! ## The invariant of a run -/

/-- The node after a history of writes. -/
structure Inv (hist : List Line) (n : Node) : Prop where
  numbered : Numbered 1 hist
  next : n.next = hist.length + 1
  /-- Only a first part of the journal is trimmed. -/
  journal : ∃ k, n.journal = (hist.filter fun l => k < l.seq).map Line.row
  files : ∀ f ∈ n.incr, ∃ h, Stretch hist f h
  newest : ∀ f ∈ n.incr, ∀ h, f.header = some h → h.toSeq ≤ lastExported n
  bases : ∀ b ∈ n.bases, ∀ h, b.header = some h → h.journalSeq ≤ hist.length
  texts : ∀ l ∈ hist, l.sql ≠ voidSentinel

section Steps

variable {hist : List Line} {n : Node}

theorem lastExported_snoc (n : Node) (files : List IncrFile) {f : IncrFile} {h : PitrHeader}
    (hf : f.header = some h) : lastExported { n with incr := files ++ [f] } = h.toSeq := by
  simp [lastExported, hf]

theorem pruneOldest_snoc {α : Type} (keep : ℕ) (files : List α) (f : α) :
    ∃ kept, pruneOldest keep (files ++ [f]) = kept ++ [f] ∧ ∀ g ∈ kept, g ∈ files := by
  refine ⟨files.drop (files.length + 1 - max keep 1), ?_, fun g hg => List.mem_of_mem_drop hg⟩
  rw [pruneOldest, List.length_append, List.length_singleton,
    List.drop_append_of_le_length (by omega)]

theorem Stretch.snoc {f : IncrFile} {h : PitrHeader} (hf : Stretch hist f h) {l : Line}
    (hl : hist.length < l.seq) : Stretch (hist ++ [l]) f h where
  header := hf.header
  intact := hf.intact
  lines := by
    have hbound := hf.bounded
    rw [hf.lines, List.filter_append, List.filter_cons_of_neg (by simp; omega)]
    simp
  ordered := hf.ordered
  bounded := by
    rw [List.length_append]
    exact hf.bounded.trans (Nat.le_add_right _ _)

theorem filter_rows (hist : List Line) (k m : ℕ) :
    (((hist.filter fun l => k < l.seq).map Line.row).filter fun r => m < r.seq) =
      (hist.filter fun l => max k m < l.seq).map Line.row := by
  rw [List.filter_map, List.filter_filter]
  congr 1
  refine List.filter_congr fun l _ => ?_
  show (decide (m < l.seq) && decide (k < l.seq)) = decide (max k m < l.seq)
  rw [← Bool.decide_and, decide_eq_decide]
  omega

/-- The rows a read of a trimmed journal returns. -/
theorem journalEntriesAfter_eq {k : ℕ}
    (hjournal : n.journal = (hist.filter fun l => k < l.seq).map Line.row) (m limit : ℕ) :
    journalEntriesAfter n m limit =
      ((hist.filter fun l => max k m < l.seq).take limit).map Line.row := by
  rw [journalEntriesAfter, hjournal, filter_rows, List.map_take]

theorem filterMap_line?_row (lines : List Line) :
    (lines.map Line.row).filterMap Row.line? = lines := by
  rw [List.filterMap_map]
  exact List.filterMap_some

/-- A segment is refused, empty, or made of the entries right after the cursor. -/
theorem segmentAfter_cases (hnumbered : Numbered 1 hist) {k : ℕ}
    (hjournal : n.journal = (hist.filter fun l => k < l.seq).map Line.row) (cursor : ℕ) :
    (∃ e, segmentAfter n cursor = .error e) ∨ segmentAfter n cursor = .ok none ∨
      ∃ f hd, Stretch hist f hd ∧ hd.fromSeq = cursor + 1 ∧
        segmentAfter n cursor = .ok (some f) := by
  set m := max k cursor with hm
  set stretch := (hist.filter fun l => m < l.seq).take exportLimit with hstretch
  have hafter : Numbered (m + 1) stretch := (hnumbered.after m).take exportLimit
  have hlines := hnumbered.read_eq m exportLimit
  rw [← hstretch] at hlines
  have husable : (journalEntriesAfter n cursor exportLimit).filterMap Row.line? = stretch := by
    rw [journalEntriesAfter_eq hjournal, ← hm, ← hstretch, filterMap_line?_row]
  unfold segmentAfter
  dsimp only
  rw [husable]
  cases hcase : stretch with
  | nil => exact .inr (.inl rfl)
  | cons first rest =>
    rw [hcase] at hafter hlines
    dsimp only
    by_cases hgap : cursor + 1 < first.seq
    · simp only [if_pos hgap]
      exact .inl ⟨_, rfl⟩
    · simp only [if_neg hgap]
      have hfirst := hafter.head_seq
      have hlast := hafter.getLast_seq (List.cons_ne_nil first rest)
      have hin : (first :: rest).getLast (List.cons_ne_nil first rest) ∈ hist := by
        have hsub : ∀ l ∈ first :: rest, l ∈ hist := fun l hl => by
          rw [hlines] at hl
          exact List.mem_of_mem_filter hl
        exact hsub _ (List.getLast_mem _)
      have hbound := (hnumbered.mem_range hin).2
      refine .inr (.inr ⟨_, _, ⟨rfl, rfl, ?_, ?_, ?_⟩, ?_, rfl⟩)
      · have hto : ((first :: rest).getLast (List.cons_ne_nil first rest)).seq =
            m + (first :: rest).length := by omega
        dsimp only
        rw [hfirst, hto]
        exact hlines
      · simp only [List.length_cons] at hlast ⊢
        omega
      · dsimp only
        omega
      · dsimp only
        omega

/-- An export fails, finds nothing, or adds the entries right after the cursor. -/
theorem exportIncremental_cases (h : Inv hist n) (keep : ℕ) :
    (∃ e, exportIncremental n keep = .error e) ∨ exportIncremental n keep = .ok n ∨
      ∃ f hd, Stretch hist f hd ∧ hd.fromSeq = pitrCursor n + 1 ∧
        exportIncremental n keep =
          .ok { n with incr := pruneOldest (max keep 4) (n.incr ++ [f]) } := by
  obtain ⟨k, hjournal⟩ := h.journal
  unfold exportIncremental
  rcases segmentAfter_cases h.numbered hjournal (pitrCursor n) with
    ⟨e, he⟩ | hnone | ⟨f, hd, hf, hfrom, hok⟩
  · rw [he]
    exact .inl ⟨e, rfl⟩
  · rw [hnone]
    exact .inr (.inl rfl)
  · rw [hok]
    exact .inr (.inr ⟨f, hd, hf, hfrom, rfl⟩)

theorem Inv.write (h : Inv hist n) (ts : ℤ) (sql : JournalText) :
    Inv (hist ++ [⟨hist.length + 1, ts, sql⟩]) (journalAppend n ts sql) where
  numbered := h.numbered.snoc (Nat.add_comm _ _)
  next := by
    rw [List.length_append, journalAppend, h.next]
    rfl
  journal := by
    obtain ⟨k, hjournal⟩ := h.journal
    refine ⟨min k hist.length, ?_⟩
    have hold : (hist.filter fun l => min k hist.length < l.seq) =
        hist.filter fun l => k < l.seq := by
      refine List.filter_congr fun l hl => ?_
      have := (h.numbered.mem_range hl).2
      simp only [decide_eq_decide]
      omega
    rw [List.filter_append, hold, List.filter_cons_of_pos (by simp), List.map_append,
      journalAppend, hjournal, h.next]
    rfl
  files := fun f hf => by
    obtain ⟨hd, hstretch⟩ := h.files f hf
    exact ⟨hd, hstretch.snoc (Nat.lt_succ_self _)⟩
  newest := h.newest
  bases := fun b hb hd hhd => by
    rw [List.length_append]
    exact (h.bases b hb hd hhd).trans (Nat.le_add_right _ _)
  texts := fun l hl => by
    rcases List.mem_append.1 hl with hl | hl
    · exact h.texts l hl
    · rw [List.mem_singleton] at hl
      rw [hl]
      exact sql.2

theorem foldr_max_le {bound : ℕ} {seqs : List ℕ} (h : ∀ k ∈ seqs, k ≤ bound) :
    seqs.foldr max 0 ≤ bound := by
  induction seqs with
  | nil => exact Nat.zero_le bound
  | cons k seqs ih =>
    exact max_le (h k List.mem_cons_self) (ih fun r hr => h r (List.mem_cons_of_mem k hr))

theorem journalHead_le (hnumbered : Numbered 1 hist) {k : ℕ}
    (hjournal : n.journal = (hist.filter fun l => k < l.seq).map Line.row) :
    journalHead n ≤ hist.length := by
  refine foldr_max_le fun seq hseq => ?_
  rw [hjournal, List.map_map, List.mem_map] at hseq
  obtain ⟨l, hl, rfl⟩ := hseq
  have hrange := (hnumbered.mem_range (List.mem_of_mem_filter hl)).2
  show l.seq ≤ hist.length
  omega

theorem Inv.backup (h : Inv hist n) (dump : List String) (now keep : ℕ) :
    Inv hist (backupInner n dump now keep) where
  numbered := h.numbered
  next := h.next
  journal := h.journal
  files := h.files
  newest := h.newest
  bases := fun b hb hd hhd => by
    rcases List.mem_append.1 (List.mem_of_mem_drop hb) with hb | hb
    · exact h.bases b hb hd hhd
    · rw [List.mem_singleton.1 hb] at hhd
      obtain ⟨k, hjournal⟩ := h.journal
      rw [← Option.some.inj hhd]
      exact journalHead_le h.numbered hjournal
  texts := h.texts

theorem Inv.trim (h : Inv hist n) (cutoff : ℕ) : Inv hist (journalTrim n cutoff) where
  numbered := h.numbered
  next := h.next
  journal := by
    obtain ⟨k, hjournal⟩ := h.journal
    refine ⟨max k cutoff, ?_⟩
    rw [journalTrim, hjournal, filter_rows]
  files := h.files
  newest := h.newest
  bases := h.bases
  texts := h.texts

/-- The cursor is at or after the last export. -/
theorem lastExported_le_cursor (n : Node) : lastExported n ≤ pitrCursor n := by
  unfold pitrCursor
  dsimp only
  split
  · exact le_max_left _ _
  · exact le_rfl

theorem Inv.exported (h : Inv hist n) {f : IncrFile} {hd : PitrHeader} (hf : Stretch hist f hd)
    (hfrom : hd.fromSeq = pitrCursor n + 1) (keep : ℕ) :
    Inv hist { n with incr := pruneOldest (max keep 4) (n.incr ++ [f]) } := by
  obtain ⟨kept, hkept, hmem⟩ := pruneOldest_snoc (max keep 4) n.incr f
  have hlast := lastExported_snoc n kept hf.header
  have hcursor := lastExported_le_cursor n
  have hordered := hf.ordered
  rw [hkept]
  refine ⟨h.numbered, h.next, h.journal, fun g hg => ?_, fun g hg hd' hhd => ?_, h.bases,
    h.texts⟩
  · rcases List.mem_append.1 hg with hg | hg
    · exact h.files g (hmem g hg)
    · exact ⟨hd, List.mem_singleton.1 hg ▸ hf⟩
  · rw [hlast]
    rcases List.mem_append.1 hg with hg | hg
    · have := h.newest g (hmem g hg) hd' hhd
      omega
    · rw [List.mem_singleton.1 hg, hf.header] at hhd
      rw [Option.some.inj hhd]

theorem step_inv (h : Inv hist n) (e : Event) : Inv (hist ++ e.line? hist.length) (step n e) := by
  cases e with
  | write ts sql => exact h.write ts sql
  | backup dump now keep =>
    simpa only [step, Event.line?, List.append_nil] using h.backup dump now keep
  | trim cutoff =>
    simpa only [step, Event.line?, List.append_nil] using h.trim cutoff
  | exportTick keep =>
    simp only [Event.line?, List.append_nil]
    rcases exportIncremental_cases h keep with ⟨e, he⟩ | hsame | ⟨f, hd, hf, hfrom, hok⟩
    · simpa only [step, he] using h
    · simpa only [step, hsame] using h
    · simpa only [step, hok] using h.exported hf hfrom keep

theorem foldl_inv (h : Inv hist n) (events : List Event) :
    Inv (events.foldl (fun hist e => hist ++ e.line? hist.length) hist)
      (events.foldl step n) := by
  induction events generalizing hist n with
  | nil => exact h
  | cons e events ih => exact ih (step_inv h e)

theorem run_inv (events : List Event) : Inv (written events) (run events) := by
  have hstart : Inv [] ({} : Node) :=
    ⟨rfl, rfl, ⟨0, rfl⟩, by simp, by simp, by simp, by simp⟩
  exact foldl_inv hstart events

end Steps

/-! ## What a restore returns -/

/-- The target is before the snapshot of the base. -/
def Precedes (head : BackupHeader) (target : ℤ) : Prop :=
  0 < head.ts ∧ (target < 0 ∨ target < head.ts)

/-- The entries from the base to the last export are all in retained files. -/
def Complete (n : Node) (baseSeq : ℕ) : Prop :=
  ∀ k, baseSeq < k → k ≤ lastExported n → Held n.incr k

/-- When the target takes in entries beyond the chain, the first ones that are still in
the journal show one of them. -/
def TailSeen (hist : List Line) (n : Node) (baseSeq : ℕ) (target : ℤ) : Prop :=
  (∃ l ∈ hist, max baseSeq (lastExported n) < l.seq ∧ l.ts ≤ target) →
    ∃ r ∈ journalEntriesAfter n (max baseSeq (lastExported n)) auditLimit,
      r.ts.any (· ≤ target)

/-- A restore without a note replays the history after its base up to the target, and an
entry that no retained file holds makes it fail. -/
def Faithful (hist : List Line) (n : Node) (base : Base) (baseSeq : ℕ) (target : ℤ) : Prop :=
  (∀ stmts, restoreInner n base (some target) = .ok (stmts, none) →
    stmts = base.dump ++
      (hist.filter fun l => baseSeq < l.seq ∧ l.ts ≤ target).map Line.sql) ∧
  ((∃ k, baseSeq < k ∧ k ≤ lastExported n ∧ ¬Held n.incr k) →
    ∃ e, restoreInner n base (some target) = .error e)

section Restore

variable {hist : List Line} {n : Node} {base : Base} {head : BackupHeader} {target : ℤ}

theorem Inv.isLast (h : Inv hist n) (baseSeq : ℕ) :
    IsLast n.incr baseSeq (max baseSeq (lastExported n)) where
  ge_base := le_max_left _ _
  upper := fun f hf hd hhd => (h.newest f hf hd hhd).trans (le_max_right _ _)
  reached := by
    rcases le_total (lastExported n) baseSeq with hle | hle
    · exact .inl (max_eq_left hle)
    · rw [max_eq_right hle]
      -- The newest file is the one that ends with the last export.
      cases hnewest : n.incr.getLast? with
      | none =>
        have hzero : lastExported n = 0 := by
          rw [lastExported, hnewest]
          rfl
        exact .inl (by omega)
      | some f =>
        have hf : f ∈ n.incr := List.mem_of_getLast? hnewest
        obtain ⟨hd, hstretch⟩ := h.files f hf
        refine .inr ⟨f, hf, hd, hstretch.header, ?_⟩
        rw [lastExported, hnewest, Option.bind_some, hstretch.header]
        rfl

theorem Inv.lastExported_le (h : Inv hist n) : lastExported n ≤ hist.length := by
  rcases (h.isLast 0).reached with hzero | ⟨f, hf, hd, hhd, hto⟩
  · omega
  · obtain ⟨hd', hstretch⟩ := h.files f hf
    have hsame : hd' = hd := Option.some.inj (hstretch.header.symm.trans hhd)
    have hbound := hstretch.bounded
    rw [hsame, hto] at hbound
    omega

theorem Inv.collect_complete (h : Inv hist n) {baseSeq : ℕ} (hbase : baseSeq ≤ hist.length)
    (target : ℤ) (hcomplete : Complete n baseSeq) :
    collectPitrEntries n.incr baseSeq target =
      .ok (replayed target (hist.filter fun l =>
        baseSeq < l.seq ∧ l.seq ≤ max baseSeq (lastExported n)),
        max baseSeq (lastExported n)) := by
  refine collect_ok h.numbered h.files (h.isLast baseSeq) ?_ target fun k hk hle => ?_
  · exact max_le hbase h.lastExported_le
  · exact hcomplete k hk (by omega)

theorem Inv.collect_incomplete (h : Inv hist n) {baseSeq : ℕ} (target : ℤ)
    (hcomplete : ¬Complete n baseSeq) :
    ∃ e, collectPitrEntries n.incr baseSeq target = .error e := by
  unfold Complete at hcomplete
  push Not at hcomplete
  obtain ⟨k, hk, hle, hnot⟩ := hcomplete
  exact collect_error h.numbered h.files (h.isLast baseSeq) target hk (by omega) hnot

theorem restoreInner_precedes (hhead : base.header = some head) (h : Precedes head target) :
    ∃ e, restoreInner n base (some target) = .error e := by
  unfold restoreInner
  rw [hhead]
  exact ⟨_, if_pos h⟩

theorem restoreInner_after (hhead : base.header = some head) (hpre : ¬Precedes head target) :
    restoreInner n base (some target) = (do
      let (stmts, chainLast) ← collectPitrEntries n.incr head.journalSeq target
      let count := unexported n chainLast target
      return (base.dump ++ stmts, if 0 < count then some (tailNote count) else none)) := by
  unfold restoreInner
  rw [hhead]
  exact if_neg hpre

theorem restoreInner_collect_error (hhead : base.header = some head)
    (h : ∃ e, collectPitrEntries n.incr head.journalSeq target = .error e) :
    ∃ e, restoreInner n base (some target) = .error e := by
  by_cases hpre : Precedes head target
  · exact restoreInner_precedes hhead hpre
  · obtain ⟨e, he⟩ := h
    refine ⟨e, ?_⟩
    rw [restoreInner_after hhead hpre, he]
    rfl

theorem restoreInner_collect_ok (hhead : base.header = some head) (hpre : ¬Precedes head target)
    {stmts : List String} {chainLast : ℕ}
    (h : collectPitrEntries n.incr head.journalSeq target = .ok (stmts, chainLast)) :
    restoreInner n base (some target) = .ok (base.dump ++ stmts,
      if 0 < unexported n chainLast target then
        some (tailNote (unexported n chainLast target)) else none) := by
  rw [restoreInner_after hhead hpre, h]
  rfl

theorem unexported_pos_iff (n : Node) (chainLast : ℕ) (target : ℤ) :
    0 < unexported n chainLast target ↔
      ∃ r ∈ journalEntriesAfter n chainLast auditLimit, r.ts.any (· ≤ target) := by
  rw [unexported, List.length_pos_iff_exists_mem]
  simp only [List.mem_filter]

/-- The texts of a history that holds no void entry. -/
theorem replayed_window (htexts : ∀ l ∈ hist, l.sql ≠ voidSentinel) (target : ℤ)
    (a b : ℕ) :
    replayed target (hist.filter fun l => a < l.seq ∧ l.seq ≤ b) =
      ((hist.filter fun l => a < l.seq ∧ l.ts ≤ target).filter fun l => l.seq ≤ b).map
        Line.sql := by
  unfold replayed
  rw [List.filter_filter, List.filter_filter]
  congr 1
  refine List.filter_congr fun l hl => ?_
  rw [← Bool.decide_and, ← Bool.decide_and, decide_eq_decide]
  have := htexts l hl
  tauto

/-- The chain is all of the history up to the target when nothing follows it. -/
theorem window_eq_iff (hist : List Line) (target : ℤ) (a b : ℕ) :
    ((hist.filter fun l => a < l.seq ∧ l.ts ≤ target).filter fun l => l.seq ≤ b).map
        Line.sql = (hist.filter fun l => a < l.seq ∧ l.ts ≤ target).map Line.sql ↔
      ¬∃ l ∈ hist, max a b < l.seq ∧ l.ts ≤ target := by
  constructor
  · rintro hsame ⟨l, hl, hlt, hts⟩
    have hlength := congrArg List.length hsame
    rw [List.length_map, List.length_map, List.length_filter_eq_length_iff] at hlength
    have := hlength l (List.mem_filter.2 ⟨hl, decide_eq_true ⟨by omega, hts⟩⟩)
    rw [decide_eq_true_eq] at this
    omega
  · intro hnone
    congr 1
    refine List.filter_eq_self.2 fun l hl => ?_
    obtain ⟨hl, hwin⟩ := List.mem_filter.1 hl
    obtain ⟨hlt, hts⟩ := of_decide_eq_true hwin
    rw [decide_eq_true_eq]
    by_contra hnot
    exact hnone ⟨l, hl, by omega, hts⟩

theorem Inv.faithful_iff (h : Inv hist n) (hbase : base ∈ n.bases)
    (hhead : base.header = some head) (target : ℤ) :
    Faithful hist n base head.journalSeq target ↔
      Precedes head target ∨ ¬Complete n head.journalSeq ∨
        TailSeen hist n head.journalSeq target := by
  have hrefused (hfail : ∃ e, restoreInner n base (some target) = .error e) :
      Faithful hist n base head.journalSeq target := by
    obtain ⟨e, he⟩ := hfail
    refine ⟨fun stmts hok => ?_, fun _ => ⟨e, he⟩⟩
    rw [he] at hok
    cases hok
  by_cases hpre : Precedes head target
  · exact iff_of_true (hrefused (restoreInner_precedes hhead hpre)) (.inl hpre)
  by_cases hcomplete : Complete n head.journalSeq
  case neg =>
    have hfail := restoreInner_collect_error hhead (h.collect_incomplete target hcomplete)
    exact iff_of_true (hrefused hfail) (.inr (.inl hcomplete))
  set last := max head.journalSeq (lastExported n) with hlast
  have hcollect := h.collect_complete (h.bases base hbase head hhead) target hcomplete
  rw [replayed_window h.texts, ← hlast] at hcollect
  have hrestore := restoreInner_collect_ok hhead hpre hcollect
  have hmax : max head.journalSeq last = last := max_eq_right (hlast ▸ le_max_left _ _)
  have hwindow := window_eq_iff hist target head.journalSeq last
  rw [hmax] at hwindow
  rw [or_iff_right hpre, or_iff_right (not_not.2 hcomplete)]
  constructor
  · rintro ⟨hexact, -⟩ hbeyond
    rw [← hlast] at hbeyond ⊢
    by_contra hunseen
    have hcount := (unexported_pos_iff n last target).not.2 hunseen
    rw [if_neg hcount] at hrestore
    exact hwindow.1 (List.append_cancel_left (hexact _ hrestore)) hbeyond
  · intro hseen
    refine ⟨fun stmts hok => ?_, ?_⟩
    · rw [hrestore] at hok
      obtain ⟨hstmts, hnote⟩ := Prod.mk.inj (Except.ok.inj hok)
      have hcount : ¬0 < unexported n last target := fun hpos => by
        rw [if_pos hpos] at hnote
        cases hnote
      have hnone := mt hseen ((unexported_pos_iff n last target).not.1 hcount)
      rw [← hstmts, hwindow.2 hnone]
    · rintro ⟨k, hk, hle, hnot⟩
      exact absurd (hcomplete k hk hle) hnot

end Restore

/-- Point-in-time restores of a retained backup, after any run. -/
theorem restore_faithful_iff (events : List Event) {base : Base} {head : BackupHeader}
    (hbase : base ∈ (run events).bases) (hhead : base.header = some head) (target : ℤ) :
    Faithful (written events) (run events) base head.journalSeq target ↔
      Precedes head target ∨ ¬Complete (run events) head.journalSeq ∨
        TailSeen (written events) (run events) head.journalSeq target :=
  (run_inv events).faithful_iff hbase hhead target

/-- A base before the first write; the second write is after the target. -/
def emptyBase : Base := ⟨some ⟨0, 5⟩, []⟩

def firstWrite : JournalText := ⟨"INSERT INTO led VALUES (1, 'A')", by decide⟩

def secondWrite : JournalText := ⟨"INSERT INTO led VALUES (2, 'B')", by decide⟩

def exportedRun : List Event :=
  [.backup [] 5 7, .write 10 firstWrite, .exportTick 7, .write 20 secondWrite]

theorem restore_faithful_exportedRun :
    emptyBase ∈ (run exportedRun).bases ∧
      Faithful (written exportedRun) (run exportedRun) emptyBase 0 15 := by
  have hbase : emptyBase ∈ (run exportedRun).bases := List.mem_singleton.2 rfl
  refine ⟨hbase, (restore_faithful_iff exportedRun hbase rfl 15).2 (.inr (.inr ?_))⟩
  rintro ⟨l, hl, hlt, hts⟩
  fin_cases hl
  · exact absurd hlt (by decide)
  · exact absurd hts (by decide)

/-- The first write is trimmed before an export could carry it. -/
def trimmedRun : List Event :=
  [.backup [] 5 7, .write 10 firstWrite, .write 20 secondWrite, .trim 1]

theorem trimmed_write_not_replayed :
    emptyBase ∈ (run trimmedRun).bases ∧
      restoreInner (run trimmedRun) emptyBase (some 15) = .ok ([], none) ∧
      ¬Faithful (written trimmedRun) (run trimmedRun) emptyBase 0 15 := by
  have hcollect := (run_inv trimmedRun).collect_complete (Nat.zero_le _) 15
    fun k hk hle => absurd hk (not_lt.2 hle)
  have hrestore : restoreInner (run trimmedRun) emptyBase (some 15) = .ok ([], none) := by
    have hpre : ¬Precedes ⟨0, 5⟩ 15 := by
      unfold Precedes
      simp
    exact restoreInner_collect_ok rfl hpre hcollect
  refine ⟨List.mem_singleton.2 rfl, hrestore, fun hfaithful => ?_⟩
  have hlost := hfaithful.1 [] hrestore
  exact absurd hlost (by decide)

end Docsql.Backup
