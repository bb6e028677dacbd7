import Mathlib.Tactic
import Docsql.Lib.Run

/-!
# Numbers of the catch-up journal

`engine/journal.rs`: every committed write gets a number, which peers record as
their position.  The next number is kept in memory and is read off the table after
a restart; two trims delete from the low end, one by number and one by text size.
-/

namespace Docsql.Cluster

structure JournalEntry where
  seq : ℕ
  sql : String
  ts : ℤ

/-- The table `_cluster_log` and the two values the database caches. -/
structure Journal where
  entries : List JournalEntry := []
  journalNext : Option ℕ := none
  journalBytes : Option ℕ := none

namespace Journal

def discarded : String := "PRAGMA discarded_by_snapshot_adoption;"

/-- `SUM(LENGTH(sql))`, which counts characters. -/
def textLength (entries : List JournalEntry) : ℕ := (entries.map fun e => e.sql.length).sum

variable (j : Journal)

/-- `MAX(seq)`, 0 when empty. -/
def journalHead : ℕ := (j.entries.map JournalEntry.seq).max?.getD 0

/-- `ORDER BY seq ASC`. -/
def inOrder : List JournalEntry := j.entries.insertionSort fun d e => d.seq ≤ e.seq

def nextSeq : ℕ :=
  match j.journalNext with
  | some n => n
  | none => j.journalHead + 1

/-- The number is the primary key of the table. -/
def Accepts (seq : ℕ) : Prop := ∀ e ∈ j.entries, e.seq ≠ seq

instance (seq : ℕ) : Decidable (j.Accepts seq) := inferInstanceAs (Decidable (∀ e ∈ _, _))

/-- `ok`: the insert itself goes through. -/
def journalAppend (sql : String) (now : ℤ) (ok : Bool) : Option ℕ × Journal :=
  let next := j.nextSeq
  if ok = true ∧ j.Accepts next then
    (some next, {
      entries := j.entries ++ [⟨next, sql, now⟩]
      journalNext := some (next + 1)
      journalBytes := j.journalBytes.map (· + (sql.utf8ByteSize + 64)) })
  else (none, j)

def deleteUpTo (cutoff : ℕ) (ok : Bool) : List JournalEntry :=
  if ok then j.entries.filter fun e => cutoff < e.seq else j.entries

def journalTrim (keep : ℕ) (ok : Bool) : Journal :=
  if keep = 0 then j
  else
    let head := j.journalHead
    if head ≤ keep then j
    else { j with entries := j.deleteUpTo (head - keep) ok, journalBytes := none }

/-- The oldest entries whose lengths cover the excess. -/
def cutoffLoop (excess : ℕ) : ℕ → ℕ → List JournalEntry → ℕ
  | _, cutoff, [] => cutoff
  | acc, _, e :: rest =>
    if excess ≤ acc + e.sql.length then e.seq
    else cutoffLoop excess (acc + e.sql.length) e.seq rest

/-- The cached total, or one scan. -/
def totalBytes : ℕ := j.journalBytes.getD (textLength j.entries)

def journalTrimBytes (maxBytes : ℕ) (ok : Bool) : Journal :=
  let total := j.totalBytes
  if total ≤ maxBytes then { j with journalBytes := some total }
  else
    let cutoff := cutoffLoop (total - maxBytes) 0 0 j.inOrder
    if 0 < cutoff then
      { j with entries := j.deleteUpTo cutoff ok, journalBytes := none }
    else { j with journalBytes := some total }

def journalVoidAll (ok : Bool) : Journal :=
  { j with
    entries := if ok then j.entries.map fun e => { e with sql := discarded } else j.entries
    journalBytes := none }

/-- Only the table is on disk. -/
def reopen : Journal := { j with journalNext := none, journalBytes := none }

inductive Op where
  | append (sql : String) (now : ℤ) (ok : Bool)
  | trim (keep : ℕ) (ok : Bool)
  | trimBytes (maxBytes : ℕ) (ok : Bool)
  | voidAll (ok : Bool)
  | reopen

end Journal

/-- A run: the journal and every number an append has returned. -/
structure JournalRun where
  journal : Journal := {}
  returned : List ℕ := []

namespace JournalRun

open Journal

def step (r : JournalRun) : Op → JournalRun
  | .append sql now ok =>
    let (seq, journal) := r.journal.journalAppend sql now ok
    { journal := journal, returned := r.returned ++ seq.toList }
  | .trim keep ok => { r with journal := r.journal.journalTrim keep ok }
  | .trimBytes maxBytes ok => { r with journal := r.journal.journalTrimBytes maxBytes ok }
  | .voidAll ok => { r with journal := r.journal.journalVoidAll ok }
  | .reopen => { r with journal := r.journal.reopen }

def run (ops : List Op) : JournalRun := ops.foldl step {}

/-- What the next number is read from stays: while it is not in memory, a trim by
size leaves the newest entry, and an emptied table is not reopened. -/
def Keeps (r : JournalRun) : Op → Prop
  | .trimBytes maxBytes ok =>
    ok = true → r.journal.journalNext = none → r.journal.entries ≠ [] →
      r.journal.totalBytes ≤ maxBytes ∨
        r.journal.totalBytes - maxBytes ≤ textLength r.journal.inOrder.dropLast
  | .reopen => r.journal.entries = [] → r.journal.journalNext = none
  | _ => True

/-- The last number returned. -/
def last (r : JournalRun) : ℕ := r.returned.getLast?.getD 0

structure Sound (r : JournalRun) : Prop where
  increasing : r.returned.Pairwise (· < ·)
  positive : ∀ q ∈ r.returned, 0 < q
  sorted : r.journal.entries.Pairwise fun d e => d.seq < e.seq
  known : ∀ e ∈ r.journal.entries, e.seq ∈ r.returned
  newest : ∀ e ∈ r.journal.entries.getLast?, e.seq = r.last
  next : ∀ n, r.journal.journalNext = some n → r.returned ≠ [] ∧ n = r.last + 1
  fresh : r.journal.journalNext = none → r.journal.entries = [] → r.returned = []

end JournalRun

namespace Journal

variable {j : Journal} {init entries : List JournalEntry} {e : JournalEntry}

/-! ## The table in order -/

theorem journalHead_of_sorted (hentries : j.entries = init ++ [e])
    (h : j.entries.Pairwise fun d e => d.seq < e.seq) : j.journalHead = e.seq := by
  rw [hentries] at h
  have hbelow := (List.pairwise_append.mp h).2.2
  have hmax : (j.entries.map JournalEntry.seq).max? = some e.seq := by
    rw [List.max?_eq_some_iff, hentries]
    refine ⟨by simp, fun q hq => ?_⟩
    obtain ⟨d, hd, rfl⟩ := List.mem_map.mp hq
    rcases List.mem_append.mp hd with hd | hd
    · exact (hbelow d hd e (List.mem_singleton_self e)).le
    · rw [List.mem_singleton.mp hd]
  rw [journalHead, hmax, Option.getD_some]

theorem inOrder_of_sorted (h : j.entries.Pairwise fun d e => d.seq < e.seq) :
    j.inOrder = j.entries :=
  (h.imp fun hlt => hlt.le).insertionSort_eq

theorem deleteUpTo_sublist (j : Journal) (cutoff : ℕ) (ok : Bool) :
    List.Sublist (j.deleteUpTo cutoff ok) j.entries := by
  unfold deleteUpTo
  split
  · exact List.filter_sublist
  · exact List.Sublist.refl _

/-- The newest entry stays when the cut lies below it. -/
theorem deleteUpTo_newest {cutoff : ℕ} (ok : Bool) (hentries : j.entries = init ++ [e])
    (h : cutoff < e.seq) : ∃ kept, j.deleteUpTo cutoff ok = kept ++ [e] := by
  unfold deleteUpTo
  split
  · refine ⟨init.filter fun e => cutoff < e.seq, ?_⟩
    rw [hentries, List.filter_append, List.filter_singleton, decide_eq_true h]
    rfl
  · exact ⟨init, hentries⟩

theorem deleteUpTo_all {cutoff : ℕ} (h : ∀ e ∈ j.entries, e.seq ≤ cutoff) :
    j.deleteUpTo cutoff true = [] := by
  rw [deleteUpTo, if_pos rfl, List.filter_eq_nil_iff]
  intro e he
  simpa using h e he

/-- The scan stops before the newest entry exactly when the others cover the excess. -/
theorem cutoffLoop_before_newest {excess acc cutoff : ℕ} (hacc : acc < excess)
    (h : excess ≤ acc + textLength init) :
    ∃ d ∈ init, cutoffLoop excess acc cutoff (init ++ [e]) = d.seq := by
  induction init generalizing acc cutoff with
  | nil =>
      rw [textLength, List.map_nil, List.sum_nil] at h
      omega
  | cons d init ih =>
      rw [List.cons_append, cutoffLoop]
      rw [textLength, List.map_cons, List.sum_cons, ← textLength] at h
      split_ifs with hcover
      · exact ⟨d, List.mem_cons_self, rfl⟩
      · obtain ⟨d', hd', heq⟩ := @ih (acc + d.sql.length) d.seq (by omega) (by omega)
        exact ⟨d', List.mem_cons_of_mem _ hd', heq⟩

theorem cutoffLoop_at_newest {excess acc cutoff : ℕ} (h : acc + textLength init < excess) :
    cutoffLoop excess acc cutoff (init ++ [e]) = e.seq := by
  induction init generalizing acc cutoff with
  | nil =>
      rw [List.nil_append, cutoffLoop]
      split_ifs
      · rfl
      · rfl
  | cons d init ih =>
      rw [textLength, List.map_cons, List.sum_cons, ← textLength] at h
      rw [List.cons_append, cutoffLoop, if_neg (by omega)]
      exact ih (by omega)

end Journal

namespace JournalRun

open Journal

variable {r : JournalRun}

/-! ## One append -/

theorem Sound.le_last (h : r.Sound) : ∀ q ∈ r.returned, q ≤ r.last := by
  intro q hq
  rcases List.eq_nil_or_concat' r.returned with hnil | ⟨init, n, hconcat⟩
  · rw [hnil] at hq
    cases hq
  · have hinc := h.increasing
    rw [hconcat] at hinc hq
    rw [last, hconcat, List.getLast?_concat, Option.getD_some]
    rcases List.mem_append.mp hq with hq | hq
    · exact ((List.pairwise_append.mp hinc).2.2 q hq n (List.mem_singleton_self n)).le
    · exact (List.mem_singleton.mp hq).le

theorem Sound.nextSeq_eq (h : r.Sound) : r.journal.nextSeq = r.last + 1 := by
  unfold nextSeq
  split
  · rename_i n hnext
    exact (h.next n hnext).2
  · rename_i hnext
    rcases List.eq_nil_or_concat' r.journal.entries with hnil | ⟨init, e, hconcat⟩
    · have hempty := h.fresh hnext hnil
      rw [last, hempty, journalHead, hnil]
      rfl
    · have hnewest : e.seq = r.last := h.newest e (by simp [hconcat])
      rw [journalHead_of_sorted hconcat h.sorted, hnewest]

theorem Sound.accepts (h : r.Sound) : r.journal.Accepts (r.last + 1) := by
  intro e he heq
  have := h.le_last _ (h.known e he)
  omega

theorem Sound.append_eq (h : r.Sound) (sql : String) (now : ℤ) :
    r.step (.append sql now true) = {
      journal := {
        entries := r.journal.entries ++ [⟨r.last + 1, sql, now⟩]
        journalNext := some (r.last + 1 + 1)
        journalBytes := r.journal.journalBytes.map (· + (sql.utf8ByteSize + 64)) }
      returned := r.returned ++ [r.last + 1] } := by
  have hok : true = true ∧ r.journal.Accepts (r.last + 1) := ⟨rfl, h.accepts⟩
  rw [step, journalAppend, h.nextSeq_eq]
  dsimp only
  rw [if_pos hok]
  rfl

theorem append_of_failed (r : JournalRun) (sql : String) (now : ℤ) :
    r.step (.append sql now false) = r := by
  have hok : ¬(false = true ∧ r.journal.Accepts r.journal.nextSeq) := by simp
  rw [step, journalAppend]
  dsimp only
  rw [if_neg hok]
  simp

/-- One more number keeps the sequence strictly increasing. -/
theorem Sound.append_increasing (h : r.Sound) (sql : String) (now : ℤ) :
    (r.step (.append sql now true)).returned.Pairwise (· < ·) := by
  rw [h.append_eq]
  refine List.pairwise_append.mpr ⟨h.increasing, List.pairwise_singleton _ _, ?_⟩
  intro q hq n hn
  rw [List.mem_singleton.mp hn]
  exact Nat.lt_succ_of_le (h.le_last q hq)

theorem Sound.append (h : r.Sound) (sql : String) (now : ℤ) (ok : Bool) :
    (r.step (.append sql now ok)).Sound := by
  cases ok with
  | false => rwa [append_of_failed]
  | true =>
      have hinc := h.append_increasing sql now
      have hlast : (r.step (.append sql now true)).last = r.last + 1 := by
        rw [h.append_eq, last, List.getLast?_concat, Option.getD_some]
      rw [h.append_eq] at hinc hlast ⊢
      refine ⟨hinc, ?_, ?_, ?_, ?_, ?_, ?_⟩
      · intro q hq
        rcases List.mem_append.mp hq with hq | hq
        · exact h.positive q hq
        · rw [List.mem_singleton.mp hq]
          exact Nat.succ_pos _
      · refine List.pairwise_append.mpr ⟨h.sorted, List.pairwise_singleton _ _, ?_⟩
        intro d hd e he
        rw [List.mem_singleton.mp he]
        exact Nat.lt_succ_of_le (h.le_last _ (h.known d hd))
      · intro e he
        rcases List.mem_append.mp he with he | he
        · exact List.mem_append_left _ (h.known e he)
        · rw [List.mem_singleton.mp he]
          exact List.mem_append_right _ (List.mem_singleton_self _)
      · intro e he
        rw [List.getLast?_concat, Option.mem_some_iff] at he
        rw [hlast, ← he]
      · intro n hn
        rw [hlast, ← Option.some.inj hn]
        exact ⟨List.append_ne_nil_of_right_ne_nil _ (List.cons_ne_nil _ _), rfl⟩
      · intro hn
        cases hn

/-! ## The other steps -/

/-- A step that returns no number and drops entries at the low end only. -/
theorem Sound.shrink (h : r.Sound) {j : Journal}
    (hsub : List.Sublist (j.entries.map JournalEntry.seq) (r.journal.entries.map JournalEntry.seq))
    (hnewest : ∀ e ∈ j.entries.getLast?, e.seq = r.last)
    (hnext : ∀ n, j.journalNext = some n → r.journal.journalNext = some n)
    (hfresh : j.journalNext = none → j.entries = [] → r.returned = []) :
    Sound { r with journal := j } := by
  have hsorted : (r.journal.entries.map JournalEntry.seq).Pairwise (· < ·) :=
    List.pairwise_map.mpr h.sorted
  refine ⟨h.increasing, h.positive, ?_, ?_, hnewest, fun n hn => h.next n (hnext n hn), hfresh⟩
  · exact List.pairwise_map.mp (hsorted.sublist hsub)
  · intro e he
    have hmem := hsub.subset (List.mem_map_of_mem he)
    obtain ⟨d, hd, hseq⟩ := List.mem_map.mp hmem
    rw [← hseq]
    exact h.known d hd

theorem Sound.trim (h : r.Sound) (keep : ℕ) (ok : Bool) : (r.step (.trim keep ok)).Sound := by
  rw [step, journalTrim]
  split_ifs with hkeep
  · exact h
  dsimp only
  split_ifs with hhead
  · exact h
  rcases List.eq_nil_or_concat' r.journal.entries with hnil | ⟨init, e, hconcat⟩
  · rw [journalHead, hnil] at hhead
    exact absurd (Nat.zero_le keep) hhead
  · have heq := journalHead_of_sorted hconcat h.sorted
    obtain ⟨kept, hkept⟩ := deleteUpTo_newest ok hconcat
      (show r.journal.journalHead - keep < e.seq by omega)
    have hnewest : e.seq = r.last := h.newest e (by simp [hconcat])
    refine h.shrink ((deleteUpTo_sublist _ _ _).map _) ?_ (fun n hn => hn) ?_
    · simp [hkept, hnewest]
    · simp [hkept]

theorem Sound.voidAll (h : r.Sound) (ok : Bool) : (r.step (.voidAll ok)).Sound := by
  have hseqs : (r.journal.journalVoidAll ok).entries.map JournalEntry.seq =
      r.journal.entries.map JournalEntry.seq := by
    cases ok
    · rfl
    · simp [journalVoidAll]
  have hnil : (r.journal.journalVoidAll ok).entries = [] ↔ r.journal.entries = [] := by
    rw [← List.map_eq_nil_iff (f := JournalEntry.seq), hseqs, List.map_eq_nil_iff]
  refine h.shrink (by rw [hseqs]) ?_ (fun n hn => hn) fun hn hempty => h.fresh hn (hnil.mp hempty)
  intro e he
  have hlast := congrArg List.getLast? hseqs
  rw [List.getLast?_map, List.getLast?_map, Option.mem_def.mp he] at hlast
  obtain ⟨d, hd, hseq⟩ := Option.map_eq_some_iff.mp hlast.symm
  rw [← hseq]
  exact h.newest d hd

theorem Sound.reopen (h : r.Sound) (hkeeps : r.Keeps .reopen) : (r.step .reopen).Sound :=
  h.shrink (List.Sublist.refl _) h.newest (fun _ hn => by cases hn)
    fun _ hempty => h.fresh (hkeeps hempty) hempty

/-- The cut of a trim by size, against the newest entry. -/
theorem Sound.cutoff_lt_iff (h : r.Sound) {init : List JournalEntry} {e : JournalEntry}
    (hconcat : r.journal.entries = init ++ [e]) {excess : ℕ} (hpos : 0 < excess) :
    (cutoffLoop excess 0 0 r.journal.inOrder < e.seq ↔
      excess ≤ textLength r.journal.inOrder.dropLast) ∧
    cutoffLoop excess 0 0 r.journal.inOrder ≤ e.seq := by
  have hsorted := h.sorted
  rw [inOrder_of_sorted h.sorted, hconcat, List.dropLast_concat]
  rw [hconcat] at hsorted
  by_cases hcover : excess ≤ textLength init
  · obtain ⟨d, hd, heq⟩ : ∃ d ∈ init, cutoffLoop excess 0 0 (init ++ [e]) = d.seq :=
      cutoffLoop_before_newest hpos (by rwa [Nat.zero_add])
    have hlt := (List.pairwise_append.mp hsorted).2.2 d hd e (List.mem_singleton_self e)
    rw [heq]
    exact ⟨iff_of_true hlt hcover, hlt.le⟩
  · rw [cutoffLoop_at_newest (by omega)]
    exact ⟨iff_of_false (lt_irrefl _) hcover, le_refl _⟩

theorem Sound.le_newest (h : r.Sound) {init : List JournalEntry} {e : JournalEntry}
    (hconcat : r.journal.entries = init ++ [e]) : ∀ d ∈ r.journal.entries, d.seq ≤ e.seq := by
  intro d hd
  have hnewest : e.seq = r.last := h.newest e (by simp [hconcat])
  rw [hnewest]
  exact h.le_last _ (h.known d hd)

theorem Sound.trimBytes (h : r.Sound) {maxBytes : ℕ} {ok : Bool}
    (hkeeps : r.Keeps (.trimBytes maxBytes ok)) : (r.step (.trimBytes maxBytes ok)).Sound := by
  have hsame : ∀ bytes, Sound { r with
      journal := { r.journal with journalBytes := bytes } } := fun _ =>
    h.shrink (List.Sublist.refl _) h.newest (fun _ hn => hn) h.fresh
  rw [step, journalTrimBytes]
  dsimp only
  split_ifs with htotal hcut
  · exact hsame _
  · cases ok with
    | false => exact hsame none
    | true =>
      have hsub := deleteUpTo_sublist r.journal
        (cutoffLoop (r.journal.totalBytes - maxBytes) 0 0 r.journal.inOrder) true
      rcases List.eq_nil_or_concat' r.journal.entries with hnil | ⟨init, e, hconcat⟩
      · rw [hnil, List.sublist_nil] at hsub
        refine h.shrink (by simp [hsub]) (by simp [hsub]) (fun _ hn => hn) fun hn _ => ?_
        exact h.fresh hn hnil
      · obtain ⟨hiff, hle⟩ := h.cutoff_lt_iff hconcat
          (show 0 < r.journal.totalBytes - maxBytes by omega)
        have hnewest : e.seq = r.last := h.newest e (by simp [hconcat])
        rcases hle.lt_or_eq with hlt | heq
        · obtain ⟨kept, hkept⟩ := deleteUpTo_newest true hconcat hlt
          refine h.shrink (hsub.map _) ?_ (fun _ hn => hn) ?_
          · simp [hkept, hnewest]
          · simp [hkept]
        · have hall := deleteUpTo_all (h.le_newest hconcat)
          rw [← heq] at hall
          refine h.shrink (hsub.map _) (by simp [hall]) (fun _ hn => hn) fun hn _ => ?_
          have hne : r.journal.entries ≠ [] := by simp [hconcat]
          have hcover := (hkeeps rfl hn hne).resolve_left htotal
          have hlt := hiff.mpr hcover
          omega
  · exact hsame _

theorem Sound.step (h : r.Sound) (op : Op) (hkeeps : r.Keeps op) : (r.step op).Sound := by
  cases op with
  | append sql now ok => exact h.append sql now ok
  | trim keep ok => exact h.trim keep ok
  | trimBytes maxBytes ok => exact h.trimBytes hkeeps
  | voidAll ok => exact h.voidAll ok
  | reopen => exact h.reopen hkeeps

/-! ## The condition is needed -/

/-- From an empty table the numbers start again. -/
theorem append_of_emptied (hentries : r.journal.entries = []) (hnext : r.journal.journalNext = none)
    (sql : String) (now : ℤ) :
    (r.step (.append sql now true)).returned = r.returned ++ [1] := by
  have hseq : r.journal.nextSeq = 1 := by
    rw [nextSeq, hnext, journalHead, hentries]
    rfl
  have haccepts : true = true ∧ r.journal.Accepts 1 := ⟨rfl, by simp [Accepts, hentries]⟩
  rw [JournalRun.step, journalAppend, hseq]
  dsimp only
  rw [if_pos haccepts]
  rfl

/-- After a step, one more append still returns a larger number. -/
def Continues (r : JournalRun) : Prop :=
  ∀ sql now, (r.step (.append sql now true)).returned.Pairwise (· < ·)

theorem not_continues_of_emptied (hentries : r.journal.entries = [])
    (hnext : r.journal.journalNext = none) (hsome : ∃ q ∈ r.returned, 0 < q) :
    ¬r.Continues := by
  intro h
  obtain ⟨q, hq, hpos⟩ := hsome
  have hinc := h "" 0
  rw [append_of_emptied hentries hnext] at hinc
  have hlt := (List.pairwise_append.mp hinc).2.2 q hq 1 (List.mem_singleton_self 1)
  omega

theorem Sound.keeps_of_continues (h : r.Sound) (op : Op) (hcont : (r.step op).Continues) :
    r.Keeps op := by
  cases op with
  | trimBytes maxBytes ok =>
    rintro rfl hnext hne
    by_contra hcover
    obtain ⟨htotal, hcover⟩ := not_or.mp hcover
    obtain ⟨init, e, hconcat⟩ := (List.eq_nil_or_concat' r.journal.entries).resolve_left hne
    have hmem : e ∈ r.journal.entries := by simp [hconcat]
    have hpos := h.positive _ (h.known e hmem)
    obtain ⟨hiff, hle⟩ := h.cutoff_lt_iff hconcat
      (show 0 < r.journal.totalBytes - maxBytes by omega)
    have hcut := le_antisymm hle (not_lt.mp fun hlt => hcover (hiff.mp hlt))
    have hall := deleteUpTo_all (h.le_newest hconcat)
    rw [← hcut] at hall
    have hstep : r.step (.trimBytes maxBytes true) = { r with
        journal := { r.journal with entries := [], journalBytes := none } } := by
      rw [JournalRun.step, journalTrimBytes]
      dsimp only
      rw [if_neg htotal, if_pos (by omega), hall]
    rw [hstep] at hcont
    exact not_continues_of_emptied (r := { r with
      journal := { r.journal with entries := [], journalBytes := none } }) rfl hnext
        ⟨_, h.known e hmem, hpos⟩ hcont
  | reopen =>
    intro hnil
    by_contra hnext
    obtain ⟨n, hn⟩ := Option.ne_none_iff_exists'.mp hnext
    obtain ⟨q, hq⟩ := List.exists_mem_of_ne_nil _ (h.next n hn).1
    exact not_continues_of_emptied (r := r.step .reopen) hnil rfl ⟨q, hq, h.positive q hq⟩ hcont
  | append | trim | voidAll => trivial

/-! ## Whole runs -/

theorem sound_init : Sound {} :=
  ⟨List.Pairwise.nil, by simp, List.Pairwise.nil, by simp, by simp, by simp, by simp⟩

theorem returned_prefix (r : JournalRun) (ops : List Op) :
    r.returned <+: (ops.foldl step r).returned := by
  induction ops generalizing r with
  | nil => exact List.prefix_refl _
  | cons op ops ih =>
      refine List.IsPrefix.trans ?_ (ih (r.step op))
      cases op with
      | append => exact List.prefix_append _ _
      | trim | trimBytes | voidAll | reopen => exact List.prefix_refl _

/-- A position splits the journal: what lies up to it had been appended when it was
recorded, what lies above came later. -/
theorem position_splits {done rest : List Op} (h : (run (done ++ rest)).Sound) {p : ℕ}
    (hp : p ∈ (run done).returned.getLast?) :
    ∀ e ∈ (run (done ++ rest)).journal.entries, e.seq ≤ p ↔ e.seq ∈ (run done).returned := by
  intro e he
  have hmem := h.known e he
  have hinc := h.increasing
  obtain ⟨init, hinit⟩ := List.getLast?_eq_some_iff.mp hp
  have hrun : run (done ++ rest) = rest.foldl step (run done) := List.foldl_append
  obtain ⟨later, hlater⟩ := returned_prefix (run done) rest
  rw [← hrun, hinit] at hlater
  rw [← hlater] at hmem hinc
  rw [hinit]
  have hsplit := List.pairwise_append.mp hinc
  constructor
  · intro hle
    refine (List.mem_append.mp hmem).resolve_right fun hafter => ?_
    have := hsplit.2.2 p (by simp) e.seq hafter
    omega
  · intro hbefore
    rcases List.mem_append.mp hbefore with hq | hq
    · exact ((List.pairwise_append.mp hsplit.1).2.2 e.seq hq p (List.mem_singleton_self p)).le
    · exact (List.mem_singleton.mp hq).le

/-- The numbers of a run never repeat, whatever is appended next, exactly when no
trim or restart loses what the next number is read from; and then a recorded
position means the entries appended before it. -/
theorem numbers_never_repeat_iff (ops : List Op) :
    ((∀ done op, done ++ [op] <+: ops → (run done).Keeps op) ↔
      ∀ done, done <+: ops → (run done).Continues) ∧
    ((∀ done op, done ++ [op] <+: ops → (run done).Keeps op) →
      (run ops).returned.Pairwise (· < ·) ∧
      ∀ done rest, done ++ rest = ops → ∀ p ∈ (run done).returned.getLast?,
        ∀ e ∈ (run ops).journal.entries, e.seq ≤ p ↔ e.seq ∈ (run done).returned) := by
  refine ⟨?_, fun hkeeps => ?_⟩
  · exact Docsql.Lib.Run.fit_iff_good sound_init (fun r op h hkeeps => h.step op hkeeps)
      (fun r h => h.append_increasing) (fun r op h hcont => h.keeps_of_continues op hcont) ops
  · have hsound : (run ops).Sound := Docsql.Lib.Run.inv_of_fit sound_init
      (fun r op h hk => h.step op hk) hkeeps (List.prefix_refl ops)
    refine ⟨hsound.increasing, ?_⟩
    rintro done rest rfl p hp
    exact position_splits hsound hp

/-- Two entries, a cap that their text fits, and a restart. -/
def cappedThenReopened : List Op :=
  [.append "a" 0 true, .trimBytes 1000 true, .append "b" 0 true, .trimBytes 50 true, .reopen,
    .append "c" 0 true]

/-- The cached total counts 64 bytes for each entry, the lengths that are taken from
it do not: the table is emptied and the numbers start again. -/
theorem number_repeats_after_trim :
    textLength (run (cappedThenReopened.take 3)).journal.entries ≤ 50 ∧
      (run cappedThenReopened).returned = [1, 2, 1] ∧
      ¬(run cappedThenReopened).returned.Pairwise (· < ·) := by
  decide

theorem numbers_after_covered_trim :
    let ops : List Op := [.append "aaaa" 0 true, .append "b" 0 true, .trimBytes 3 true, .reopen,
      .append "c" 0 true]
    (run ops).returned = [1, 2, 3] ∧ (run ops).returned.Pairwise (· < ·) := by
  intro ops
  refine ⟨by decide, ((numbers_never_repeat_iff ops).2 ?_).1⟩
  refine Docsql.Lib.Run.Fits.at_prefix ⟨trivial, trivial, ?_, ?_, trivial, trivial⟩
  · intro _ hnext
    exact absurd hnext (by decide)
  · intro hnil
    exact absurd hnil (by decide)

end JournalRun

end Docsql.Cluster
