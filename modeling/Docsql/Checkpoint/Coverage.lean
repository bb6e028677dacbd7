import Docsql.Checkpoint.Model

/-!
# The log is dropped only when the data file covers it

A report covers a length of the log.  Once the log has outgrown that length the
report says nothing, and until then no page is queued and the pages of the
log are untouched since the reported sync began; no append can hide in between,
because a commit only makes the log longer.
-/

namespace Docsql.Checkpoint

/-! ## The newest image of a page -/

section Images

variable {pending staged : Staged} {id id' : ℕ} {data : Page}

theorem lookup_filter_ne (h : id' ≠ id) :
    (pending.filter fun q => q.1 ≠ id).lookup id' = pending.lookup id' := by
  induction pending with
  | nil => rfl
  | cons q pending ih =>
      by_cases hq : q.1 = id
      · have hne : (id' == q.1) = false := beq_false_of_ne fun heq => h (heq.trans hq)
        rw [List.filter_cons_of_neg (by simpa using hq), ih, List.lookup_cons, hne]
      · rw [List.filter_cons_of_pos (by simpa using hq), List.lookup_cons, List.lookup_cons, ih]

theorem lookup_filter_self (id : ℕ) (pending : Staged) :
    (pending.filter fun q => q.1 ≠ id).lookup id = none := by
  apply List.lookup_eq_none_iff.mpr
  intro q hq
  have hne := of_decide_eq_true (List.mem_filter.mp hq).2
  exact bne_iff_ne.mpr (Ne.symm hne)

theorem lookup_enqueue (write : ℕ × Page) :
    (enqueue pending write).lookup id =
      if id = write.1 then some write.2 else pending.lookup id := by
  rw [enqueue, List.lookup_cons]
  by_cases h : id = write.1
  · rw [if_pos h, h, beq_self_eq_true]
  · rw [if_neg h, beq_false_of_ne h]
    exact lookup_filter_ne h

theorem lastImage_singleton (write : ℕ × Page) (id : ℕ) :
    lastImage [write] id = if id = write.1 then some write.2 else none := by
  rw [lastImage, List.reverse_singleton, List.lookup_cons]
  by_cases h : id = write.1
  · rw [if_pos h, h, beq_self_eq_true]
  · rw [if_neg h, beq_false_of_ne h]
    rfl

theorem lastImage_append (xs ys : Staged) (id : ℕ) :
    lastImage (xs ++ ys) id = (lastImage ys id).or (lastImage xs id) := by
  rw [lastImage, List.reverse_append, List.lookup_append]
  rfl

/-- The queue after a commit. -/
theorem lookup_foldl_enqueue (staged pending : Staged) (id : ℕ) :
    (staged.foldl enqueue pending).lookup id = (lastImage staged id).or (pending.lookup id) := by
  induction staged generalizing pending with
  | nil => rfl
  | cons write staged ih =>
      have hsplit := lastImage_append [write] staged id
      rw [List.singleton_append] at hsplit
      rw [List.foldl_cons, ih, hsplit, lookup_enqueue, Option.or_assoc, lastImage_singleton]
      congr 1
      split_ifs <;> rfl

end Images

namespace Disk

variable {d : Disk} {c id : ℕ} {data junk : Page}

/-! ## The data file behind the log -/

/-- What is read is what was committed, and what the log does not hold the data file
holds durably. -/
structure Sound (d : Disk) : Prop where
  shown : ∀ id data, d.committed id = some data → (d.pending.lookup id).getD (d.file id) = data
  logged : ∀ id, lastImage d.log id ≠ none → lastImage d.log id = d.committed id
  redo : ∀ id, d.committed id ≠ none → lastImage d.log id = none →
    d.pending.lookup id = none ∧ d.Durable id
  counted : ∀ id, lastImage d.log id ≠ none → d.pending.lookup id = none → id < d.persistedPages
  header : d.headerSynced ≤ d.headerSyncing ∧ d.headerSyncing ≤ d.persistedPages

/-- As long as the log is no longer than `c`, nothing is queued. -/
def Flushed (d : Disk) (c : ℕ) : Prop := c ≤ d.appended ∧ (d.appended ≤ c → d.pending = [])

/-- And the running sync covers the pages of the log. -/
def Handed (d : Disk) (c : ℕ) : Prop :=
  d.Flushed c ∧ (d.appended ≤ c →
    ∀ id, lastImage d.log id ≠ none → id ∉ d.unsynced ∧ id < d.headerSyncing)

/-- And the pages of the log are durable. -/
def Covered (d : Disk) (c : ℕ) : Prop :=
  d.Flushed c ∧ (d.appended ≤ c → ∀ id, lastImage d.log id ≠ none → d.Durable id)

theorem sound_opened (file : ℕ → Page) (pages : ℕ) : (opened file pages).Sound where
  shown id data h := by
    simp only [opened, Option.ite_none_right_eq_some, Option.some.injEq] at h
    exact h.2
  logged id h := absurd rfl h
  redo id h _ := by
    have hlt : id < pages := by
      by_contra hge
      exact h (if_neg hge)
    exact ⟨rfl, Finset.notMem_empty id, Finset.notMem_empty id, hlt⟩
  counted id h := absurd rfl h
  header := ⟨le_rfl, le_rfl⟩

theorem covered_zero (d : Disk) (h : 0 < d.appended) : d.Covered 0 :=
  ⟨⟨Nat.zero_le _, fun hle => absurd hle (by omega)⟩, fun hle => absurd hle (by omega)⟩

/-- A step that only makes the log longer. -/
theorem Sound.grow (h : d.Sound) (n m : ℕ) :
    Sound { d with appended := d.appended + n, deferred := m } :=
  ⟨h.shown, h.logged, h.redo, h.counted, h.header⟩

theorem Flushed.grow (h : d.Flushed c) (n m : ℕ) :
    Flushed { d with appended := d.appended + n, deferred := m } c := by
  refine ⟨h.1.trans (Nat.le_add_right _ _), fun hle => h.2 ?_⟩
  exact (Nat.le_add_right _ _).trans hle

theorem Handed.grow (h : d.Handed c) (n m : ℕ) :
    Handed { d with appended := d.appended + n, deferred := m } c :=
  ⟨h.1.grow n m, fun hle => h.2 ((Nat.le_add_right _ _).trans hle)⟩

theorem Covered.grow (h : d.Covered c) (n m : ℕ) :
    Covered { d with appended := d.appended + n, deferred := m } c :=
  ⟨h.1.grow n m, fun hle => h.2 ((Nat.le_add_right _ _).trans hle)⟩

/-! ### Commits -/

theorem Sound.append (h : d.Sound) (staged : Staged) (fsync : Bool) :
    (d.append staged fsync).Sound where
  shown id data hc := by
    show ((staged.foldl enqueue d.pending).lookup id).getD (d.file id) = data
    replace hc : (lastImage staged id).or (d.committed id) = some data := hc
    rw [lookup_foldl_enqueue]
    cases hlast : lastImage staged id with
    | some image =>
      rw [hlast] at hc
      exact Option.some.inj hc
    | none =>
      rw [hlast] at hc
      exact h.shown id data hc
  logged id hne := by
    show lastImage (d.log ++ staged) id = (lastImage staged id).or (d.committed id)
    replace hne : lastImage (d.log ++ staged) id ≠ none := hne
    rw [lastImage_append] at hne ⊢
    cases hlast : lastImage staged id with
    | some image => rfl
    | none =>
      rw [hlast] at hne
      exact h.logged id hne
  redo id hc hnone := by
    show (staged.foldl enqueue d.pending).lookup id = none ∧ d.Durable id
    replace hc : (lastImage staged id).or (d.committed id) ≠ none := hc
    replace hnone : lastImage (d.log ++ staged) id = none := hnone
    rw [lastImage_append] at hnone
    obtain ⟨hstaged, hlog⟩ := Option.or_eq_none_iff.mp hnone
    rw [hstaged, Option.none_or] at hc
    rw [lookup_foldl_enqueue, hstaged, Option.none_or]
    exact h.redo id hc hlog
  counted id hne hpending := by
    replace hne : lastImage (d.log ++ staged) id ≠ none := hne
    replace hpending : (staged.foldl enqueue d.pending).lookup id = none := hpending
    rw [lookup_foldl_enqueue] at hpending
    obtain ⟨hstaged, hold⟩ := Option.or_eq_none_iff.mp hpending
    rw [lastImage_append, hstaged, Option.none_or] at hne
    exact h.counted id hne hold
  header := h.header

/-- A commit makes the log longer, so no earlier report covers it. -/
theorem appended_lt_append (d : Disk) (staged : Staged) (fsync : Bool) :
    d.appended < (d.append staged fsync).appended := by
  show d.appended < d.appended + txLen staged + _
  have : 0 < txLen staged := by
    unfold txLen frameLen
    omega
  omega

theorem Flushed.append (h : d.Flushed c) (staged : Staged) (fsync : Bool) :
    (d.append staged fsync).Flushed c := by
  have hlt := appended_lt_append d staged fsync
  exact ⟨h.1.trans hlt.le, fun hle => absurd (hlt.trans_le hle) (not_lt.mpr h.1)⟩

theorem Handed.append (h : d.Handed c) (staged : Staged) (fsync : Bool) :
    (d.append staged fsync).Handed c := by
  have hlt := appended_lt_append d staged fsync
  exact ⟨h.1.append staged fsync, fun hle => absurd (hlt.trans_le hle) (not_lt.mpr h.1.1)⟩

theorem Covered.append (h : d.Covered c) (staged : Staged) (fsync : Bool) :
    (d.append staged fsync).Covered c := by
  have hlt := appended_lt_append d staged fsync
  exact ⟨h.1.append staged fsync, fun hle => absurd (hlt.trans_le hle) (not_lt.mpr h.1.1)⟩

/-! ### Writes to the data file -/

theorem pending_ne_nil (hid : d.pending.lookup id = some data) : d.pending ≠ [] := by
  intro hnil
  rw [hnil] at hid
  cases hid

theorem persistedPages_le_countPage (d : Disk) (id : ℕ) :
    d.persistedPages ≤ (d.countPage id).persistedPages := by
  show d.persistedPages ≤ if d.persistedPages ≤ id then max d.numPages (id + 1) else _
  split_ifs <;> omega

theorem lt_countPage (d : Disk) (id : ℕ) : id < (d.countPage id).persistedPages := by
  show id < if d.persistedPages ≤ id then max d.numPages (id + 1) else _
  split_ifs <;> omega

theorem Durable.of_touched {unsynced : Finset ℕ} (h : d.Durable id') (hne : id' ≠ id)
    (hun : unsynced = d.unsynced ∪ {id}) :
    id' ∉ unsynced ∧ id' ∉ d.syncing ∧ id' < d.headerSynced := by
  refine ⟨?_, h.2⟩
  rw [hun]
  intro hmem
  rcases Finset.mem_union.mp hmem with hold | hnew
  · exact h.1 hold
  · exact hne (Finset.mem_singleton.mp hnew)

theorem Sound.writePage (h : d.Sound) (hid : d.pending.lookup id = some data) :
    (d.writePage id data).Sound where
  shown id' data' hc := by
    show ((d.pending.filter fun q => q.1 ≠ id).lookup id').getD
      (Function.update d.file id data id') = data'
    have hold := h.shown id' data' hc
    by_cases heq : id' = id
    · subst heq
      rw [hid] at hold
      rw [lookup_filter_self, Function.update_self]
      exact hold
    · rw [lookup_filter_ne heq, Function.update_of_ne heq]
      exact hold
  logged := h.logged
  redo id' hc hnone := by
    obtain ⟨hpending, hdurable⟩ := h.redo id' hc hnone
    have hne : id' ≠ id := by
      rintro rfl
      rw [hid] at hpending
      cases hpending
    refine ⟨?_, hdurable.of_touched hne rfl⟩
    exact (lookup_filter_ne hne).trans hpending
  counted id' hne hpending := by
    by_cases heq : id' = id
    · rw [heq]
      exact lt_countPage d id
    · replace hpending : (d.pending.filter fun q => q.1 ≠ id).lookup id' = none := hpending
      rw [lookup_filter_ne heq] at hpending
      exact (h.counted id' hne hpending).trans_le (persistedPages_le_countPage d id)
  header := ⟨h.header.1, h.header.2.trans (persistedPages_le_countPage d id)⟩

theorem Sound.writeFailed (h : d.Sound) (hid : d.pending.lookup id = some data) :
    (d.writeFailed id junk).Sound where
  shown id' data' hc := by
    show (d.pending.lookup id').getD (Function.update d.file id junk id') = data'
    have hold := h.shown id' data' hc
    by_cases heq : id' = id
    · subst heq
      rw [hid] at hold ⊢
      exact hold
    · rw [Function.update_of_ne heq]
      exact hold
  logged := h.logged
  redo id' hc hnone := by
    obtain ⟨hpending, hdurable⟩ := h.redo id' hc hnone
    have hne : id' ≠ id := by
      rintro rfl
      rw [hid] at hpending
      cases hpending
    exact ⟨hpending, hdurable.of_touched hne rfl⟩
  counted id' hne hpending :=
    (h.counted id' hne hpending).trans_le (persistedPages_le_countPage d id)
  header := ⟨h.header.1, h.header.2.trans (persistedPages_le_countPage d id)⟩

/-- While a page is queued no report covers the log. -/
theorem Flushed.lt_of_queued (h : d.Flushed c) (hid : d.pending.lookup id = some data) :
    c < d.appended := by
  by_contra hge
  exact pending_ne_nil hid (h.2 (not_lt.mp hge))

/-- A report that the log has outgrown stays without content. -/
theorem flushed_of_lt {d' : Disk} (hlen : d'.appended = d.appended) (h : c < d.appended) :
    d'.Flushed c := by
  rw [← hlen] at h
  exact ⟨h.le, fun hle => absurd hle (not_le.mpr h)⟩

theorem covered_of_lt {d' : Disk} (hlen : d'.appended = d.appended) (h : c < d.appended) :
    d'.Covered c := by
  refine ⟨flushed_of_lt hlen h, fun hle => absurd hle (not_le.mpr ?_)⟩
  rwa [hlen]

theorem handed_of_lt {d' : Disk} (hlen : d'.appended = d.appended) (h : c < d.appended) :
    d'.Handed c := by
  refine ⟨flushed_of_lt hlen h, fun hle => absurd hle (not_le.mpr ?_)⟩
  rwa [hlen]

/-! ### Syncs of the data file -/

theorem Durable.startSync (h : d.Durable id) : d.startSync.Durable id :=
  ⟨Finset.notMem_empty id, fun hmem => (Finset.mem_union.mp hmem).elim h.2.1 h.1, h.2.2⟩

theorem Sound.startSync (h : d.Sound) : d.startSync.Sound where
  shown := h.shown
  logged := h.logged
  redo id hc hnone := ⟨(h.redo id hc hnone).1, (h.redo id hc hnone).2.startSync⟩
  counted := h.counted
  header := ⟨h.header.1.trans h.header.2, le_rfl⟩

theorem Flushed.startSync (h : d.Flushed c) (hs : d.Sound) : d.startSync.Handed c := by
  refine ⟨h, fun hle id hne => ⟨Finset.notMem_empty id, ?_⟩⟩
  apply hs.counted id hne
  rw [h.2 hle]
  rfl

theorem Covered.startSync (h : d.Covered c) : d.startSync.Covered c :=
  ⟨h.1, fun hle id hne => (h.2 hle id hne).startSync⟩

theorem Durable.syncOk (h : d.Durable id) (hs : d.Sound) : d.syncOk.Durable id :=
  ⟨h.1, Finset.notMem_empty id, h.2.2.trans_le hs.header.1⟩

theorem Sound.syncOk (h : d.Sound) : d.syncOk.Sound where
  shown := h.shown
  logged := h.logged
  redo id hc hnone := ⟨(h.redo id hc hnone).1, (h.redo id hc hnone).2.syncOk h⟩
  counted := h.counted
  header := ⟨le_rfl, h.header.2⟩

theorem Handed.syncOk (h : d.Handed c) : d.syncOk.Covered c := by
  refine ⟨h.1, fun hle id hne => ?_⟩
  obtain ⟨hun, hheader⟩ := h.2 hle id hne
  exact ⟨hun, Finset.notMem_empty id, hheader⟩

theorem Covered.syncOk (h : d.Covered c) (hs : d.Sound) : d.syncOk.Covered c :=
  ⟨h.1, fun hle id hne => (h.2 hle id hne).syncOk hs⟩

theorem Durable.syncFailed (h : d.Durable id) : d.syncFailed.Durable id :=
  ⟨fun hmem => (Finset.mem_union.mp hmem).elim h.1 h.2.1, Finset.notMem_empty id, h.2.2⟩

theorem Sound.syncFailed (h : d.Sound) : d.syncFailed.Sound where
  shown := h.shown
  logged := h.logged
  redo id hc hnone := ⟨(h.redo id hc hnone).1, (h.redo id hc hnone).2.syncFailed⟩
  counted := h.counted
  header := h.header

theorem Covered.syncFailed (h : d.Covered c) : d.syncFailed.Covered c :=
  ⟨h.1, fun hle id hne => (h.2 hle id hne).syncFailed⟩

/-! ### Dropping the log -/

theorem Sound.truncate (h : d.Sound) (hpending : d.pending = [])
    (hdurable : ∀ id, lastImage d.log id ≠ none → d.Durable id) : d.truncate.Sound where
  shown := h.shown
  logged id hne := absurd rfl hne
  redo id hc _ := by
    by_cases hlog : lastImage d.log id = none
    · exact h.redo id hc hlog
    · refine ⟨?_, hdurable id hlog⟩
      show d.pending.lookup id = none
      rw [hpending]
      rfl
  counted id hne := absurd rfl hne
  header := h.header

end Disk

end Docsql.Checkpoint
