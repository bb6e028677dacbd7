import Docsql.Lib.Run
import Docsql.Backup.Restore

/-!
# Retained backups and the export cursor

An export starts where the newest backup ends.  Older backups keep an unbroken chain as
long as each new one is taken with everything before it exported.
-/

namespace Docsql.Backup

open Lib.Run

/-- The export that an event makes prunes no file. -/
def KeepsSegments (n : Node) : Event → Prop
  | .exportTick keep => n.incr.length < max keep 4
  | _ => True

/-- A full backup is taken where the exports stand, or no other one stays. -/
def Anchored (n : Node) : Event → Prop
  | .backup _ _ keep =>
    journalHead n = pitrCursor n ∨ (n.bases = [] ∨ keep ≤ 1) ∧ pitrCursor n ≤ journalHead n
  | _ => True

/-- The files hold everything between a retained backup and the cursor. -/
def Chained (n : Node) : Prop :=
  ∀ b ∈ n.bases, ∀ h, b.header = some h → ∀ k, h.journalSeq < k → k ≤ pitrCursor n →
    Held n.incr k

section Steps

variable {hist : List Line} {n : Node}

theorem pitrCursor_backup (n : Node) (dump : List String) (now keep : ℕ) :
    pitrCursor (backupInner n dump now keep) = max (lastExported n) (journalHead n) := by
  obtain ⟨kept, hkept, -⟩ := pruneOldest_snoc keep n.bases ⟨some ⟨journalHead n, now⟩, dump⟩
  unfold pitrCursor backupInner
  dsimp only
  rw [hkept, List.getLast?_concat]
  rfl

/-- An export moves the cursor to the end of its file. -/
theorem pitrCursor_snoc {f : IncrFile} {hd : PitrHeader} (hf : f.header = some hd)
    (hle : pitrCursor n ≤ hd.toSeq) : pitrCursor { n with incr := n.incr ++ [f] } = hd.toSeq := by
  unfold pitrCursor at hle ⊢
  dsimp only at hle ⊢
  rw [List.getLast?_concat, Option.bind_some, hf]
  split
  · rename_i h hbase
    rw [hbase] at hle
    exact max_eq_left ((le_max_right _ _).trans hle)
  · rfl

theorem pruneOldest_alone {α : Type} {keep : ℕ} {files : List α} (f : α)
    (h : files = [] ∨ keep ≤ 1) : pruneOldest keep (files ++ [f]) = [f] := by
  rcases h with rfl | hkeep
  · simp [pruneOldest]
  · rw [pruneOldest, max_eq_right hkeep, List.length_append, List.length_singleton,
      Nat.add_sub_cancel, List.drop_left]

theorem pruneOldest_all {α : Type} {keep : ℕ} {files : List α} (f : α)
    (h : files.length < keep) : pruneOldest keep (files ++ [f]) = files ++ [f] := by
  rw [pruneOldest, List.length_append, List.length_singleton,
    Nat.sub_eq_zero_of_le (by omega), List.drop_zero]

theorem Chained.backup (h : Chained n) {dump : List String} {now keep : ℕ}
    (hanchored : Anchored n (.backup dump now keep)) :
    Chained (backupInner n dump now keep) := by
  intro b hb hd hhd k hk hle
  rw [pitrCursor_backup] at hle
  have hexported := lastExported_le_cursor n
  rcases hanchored with hhead | ⟨halone, hhead⟩
  · rcases List.mem_append.1 (List.mem_of_mem_drop hb) with hold | hnew
    · exact h b hold hd hhd k hk (by omega)
    · rw [List.mem_singleton.1 hnew] at hhd
      rw [← Option.some.inj hhd] at hk
      dsimp only at hk
      omega
  · have hbases : (backupInner n dump now keep).bases = [⟨some ⟨journalHead n, now⟩, dump⟩] :=
      pruneOldest_alone _ halone
    rw [hbases] at hb
    rw [List.mem_singleton.1 hb] at hhd
    rw [← Option.some.inj hhd] at hk
    dsimp only at hk
    omega

theorem Chained.exported (h : Chained n) (hinv : Inv hist n) {f : IncrFile} {hd : PitrHeader}
    (hf : Stretch hist f hd) (hfrom : hd.fromSeq = pitrCursor n + 1) :
    Chained { n with incr := n.incr ++ [f] } := by
  have hordered := hf.ordered
  have hcursor := pitrCursor_snoc (n := n) hf.header (by omega)
  intro b hb hb' hhead k hk hle
  rw [hcursor] at hle
  by_cases hold : k ≤ pitrCursor n
  · obtain ⟨g, hg, hheld⟩ := h b hb hb' hhead k hk hold
    exact ⟨g, List.mem_append_left _ hg, hheld⟩
  · -- The new file starts right after the cursor.
    have hbound := hf.bounded
    obtain ⟨l, hl, hseq⟩ := hinv.numbered.exists_seq (k := k) (by omega) (by omega)
    refine ⟨f, List.mem_append_right _ (List.mem_singleton_self f), l, ?_, hseq⟩
    rw [hf.lines, List.mem_filter]
    exact ⟨hl, decide_eq_true ⟨by omega, by omega⟩⟩

/-- A node of some history whose retained backups all have their chains. -/
def Restorable (n : Node) : Prop := (∃ hist, Inv hist n) ∧ Chained n

theorem step_restorable {n : Node} {e : Event} (h : Restorable n)
    (hfit : KeepsSegments n e ∧ Anchored n e) : Restorable (step n e) := by
  obtain ⟨⟨hist, hinv⟩, hchained⟩ := h
  refine ⟨⟨_, step_inv hinv e⟩, ?_⟩
  cases e with
  | write ts sql => exact hchained
  | trim cutoff => exact hchained
  | backup dump now keep => exact hchained.backup hfit.2
  | exportTick keep =>
    rcases exportIncremental_cases hinv keep with ⟨e, he⟩ | hsame | ⟨f, hd, hf, hfrom, hok⟩
    · simpa only [step, he] using hchained
    · simpa only [step, hsame] using hchained
    · rw [pruneOldest_all f hfit.1] at hok
      simpa only [step, hok] using hchained.exported hinv hf hfrom

end Steps

/-- A retained backup restores to any target at or after it. -/
theorem retained_base_restorable {events : List Event}
    (hkeeps : Fits step KeepsSegments {} events) (hanchored : Fits step Anchored {} events)
    {base : Base} {head : BackupHeader} (hbase : base ∈ (run events).bases)
    (hhead : base.header = some head) (target : ℤ) :
    ∃ stmts last, collectPitrEntries (run events).incr head.journalSeq target =
      .ok (stmts, last) := by
  have hinit : Restorable {} :=
    ⟨⟨_, run_inv []⟩, fun b hb => absurd hb List.not_mem_nil⟩
  have hfit : ∀ done e, done ++ [e] <+: events →
      KeepsSegments (done.foldl step {}) e ∧ Anchored (done.foldl step {}) e :=
    fun done e hdone => ⟨hkeeps.at_prefix done e hdone, hanchored.at_prefix done e hdone⟩
  obtain ⟨-, hchained⟩ : Restorable (run events) :=
    inv_of_fit hinit (fun _ _ => step_restorable) hfit List.prefix_rfl
  have hinv := run_inv events
  refine ⟨_, _, hinv.collect_complete (hinv.bases base hbase head hhead) target ?_⟩
  intro k hk hle
  exact hchained base hbase head hhead k hk (hle.trans (lastExported_le_cursor _))

/-- The second backup is taken right after an export. -/
def anchoredRun : List Event :=
  [.backup [] 5 7, .write 10 firstWrite, .exportTick 7, .backup [] 12 7,
    .write 20 secondWrite, .exportTick 7]

theorem retained_base_restorable_anchoredRun :
    Fits step KeepsSegments {} anchoredRun ∧ Fits step Anchored {} anchoredRun ∧
      emptyBase ∈ (run anchoredRun).bases ∧
      ∃ stmts last, collectPitrEntries (run anchoredRun).incr 0 15 = .ok (stmts, last) := by
  have hkeeps : Fits step KeepsSegments {} anchoredRun := by
    refine ⟨trivial, trivial, ?_, trivial, trivial, ?_, trivial⟩
    · show 0 < 7
      decide
    · show 1 < 7
      decide
  have hanchored : Fits step Anchored {} anchoredRun :=
    ⟨.inl rfl, trivial, trivial, .inl rfl, trivial, trivial, trivial⟩
  have hbase : emptyBase ∈ (run anchoredRun).bases := List.mem_cons_self
  exact ⟨hkeeps, hanchored, hbase, retained_base_restorable hkeeps hanchored hbase rfl 15⟩

/-- The second backup is taken between a write and its export. -/
def skippingRun : List Event :=
  [.backup [] 5 7, .write 10 firstWrite, .backup [] 12 7, .write 20 secondWrite,
    .exportTick 7]

theorem newer_backup_breaks_older :
    Fits step KeepsSegments {} skippingRun ∧ emptyBase ∈ (run skippingRun).bases ∧
      ¬∃ stmts last, collectPitrEntries (run skippingRun).incr 0 15 = .ok (stmts, last) := by
  have hkeeps : Fits step KeepsSegments {} skippingRun := by
    refine ⟨trivial, trivial, trivial, trivial, ?_, trivial⟩
    show 0 < 7
    decide
  refine ⟨hkeeps, List.mem_cons_self, ?_⟩
  rintro ⟨stmts, last, hok⟩
  have hmissing : ¬Complete (run skippingRun) 0 := by
    intro hcomplete
    obtain ⟨f, hf, l, hl, hseq⟩ := hcomplete 1 (by decide) (by decide)
    rw [List.mem_singleton.1 hf] at hl
    rw [List.mem_singleton.1 hl] at hseq
    exact absurd hseq (by decide)
  obtain ⟨e, he⟩ := (run_inv skippingRun).collect_incomplete 15 hmissing
  rw [hok] at he
  cases he

end Docsql.Backup
