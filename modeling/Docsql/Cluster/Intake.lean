import Docsql.Lib.Run
import Docsql.Cluster.Join

/-!
# Every write reaches the joiner once

Seen from one origin the joiner holds a block of numbers from 1 on, and its queue
the block that follows the moment it was listed.  The two must meet.
-/

namespace Docsql.Cluster.Join

variable {ι : Type*} [DecidableEq ι] {i j : ι} {n a b : ℕ}

@[simp] theorem numbers_nil (i : ι) : numbers i [] = [] := rfl

@[simp] theorem numbers_append (i : ι) (xs ys : List (ι × ℕ)) :
    numbers i (xs ++ ys) = numbers i xs ++ numbers i ys := by
  simp [numbers]

theorem numbers_cons_self (i : ι) (n : ℕ) (rest : List (ι × ℕ)) :
    numbers i ((i, n) :: rest) = n :: numbers i rest := by
  simp [numbers]

theorem numbers_cons_ne (h : j ≠ i) (n : ℕ) (rest : List (ι × ℕ)) :
    numbers i ((j, n) :: rest) = numbers i rest := by
  simp [numbers, h]

theorem mem_numbers {writes : List (ι × ℕ)} : n ∈ numbers i writes ↔ (i, n) ∈ writes := by
  simp [numbers]

/-- The numbers after `a` and up to `b`. -/
def between (a b : ℕ) : List ℕ := List.range' (a + 1) (b - a)

theorem between_self (a : ℕ) : between a a = [] := by simp [between]

theorem between_succ (h : a ≤ b) : between a (b + 1) = between a b ++ [b + 1] := by
  have hlen : b + 1 - a = b - a + 1 := by omega
  have hlast : a + 1 + 1 * (b - a) = b + 1 := by omega
  rw [between, between, hlen, List.range'_concat, hlast]

theorem between_cons (h : a < b) : between a b = (a + 1) :: between (a + 1) b := by
  have hlen : b - a = b - (a + 1) + 1 := by omega
  rw [between, between, hlen, List.range'_succ]

theorem mem_between : n ∈ between a b ↔ a < n ∧ n ≤ b := by
  rw [between, List.mem_range'_1]
  omega

theorem between_eq_nil (h : between a b = []) : b ≤ a := by
  by_contra hlt
  rw [between_cons (not_le.mp hlt)] at h
  cases h

namespace World

/-- How many writes of `i` the node `j` has. -/
def reached (w : World ι) (j i : ι) : ℕ := if j ∈ w.waiting i then w.seq i - 1 else w.seq i

/-- The live nodes and what was probed of them. -/
structure Wf (w : World ι) : Prop where
  blocks : ∀ j i, numbers i (w.state j) = between 0 (w.reached j i)
  self : ∀ i, i ∉ w.waiting i
  started : ∀ i, ¬ w.PathFree i → 1 ≤ w.seq i
  toJoiner_listed : ∀ i, w.toJoiner i = true → w.listed i = true
  heads_le : ∀ i, w.heads i ≤ w.seq i
  down_queue : w.up = false → w.queue = []

/-- Before the replay: the queue of an origin starts after `since`, its last number
that was not sent to the joiner. -/
structure Intake (w : World ι) (i : ι) (since : ℕ) : Prop where
  since_le : since ≤ w.arrived i
  queued : numbers i w.queue = between since (w.arrived i)
  unlisted : w.listed i = false → since = w.seq i

/-- The dump of a captured state meets the queue. -/
structure Meets (w : World ι) (dump : List (ι × ℕ)) (i : ι) (since last : ℕ) : Prop where
  listed : w.listed i = true
  block : numbers i dump = between 0 last
  since_le : since ≤ last
  heads_le : w.heads i ≤ last
  last_le : last ≤ w.seq i

/-- After the replay: the state holds everything up to `last`, and what comes next is
covered by the position or follows it directly. -/
structure Settled (w : World ι) (i : ι) (last next : ℕ) : Prop where
  listed : w.listed i = true
  block : numbers i w.applied = between 0 last
  queued : numbers i w.queue = between next (w.arrived i)
  next_le : next ≤ w.arrived i
  next_le_last : next ≤ last
  last_le : last ≤ w.seq i
  position_le : w.position i ≤ last
  covers : last ≤ w.position i ∨ next = last

def PhaseInv (w : World ι) (since : ι → ℕ) : Phase ι → Prop
  | .probing => True
  | .quiescing server => w.up = true ∧ ∀ i, w.answer i = .granted →
      w.heads i ≤ w.reached server i ∧ (w.listed i = true → since i ≤ w.reached server i)
  | .serving _ dump => w.up = true ∧ ∀ i, ∃ last, Meets w dump i (since i) last
  | .received dump => w.up = true ∧ ∀ i, ∃ last, Meets w dump i (since i) last
  | .adopted => False
  | .joined => False

/-- Before the replay. -/
structure Waiting (w : World ι) (since : ι → ℕ) : Prop where
  intake : ∀ i, Intake w i (since i)
  gate : w.gateClosed = false
  positions : ∀ i, w.position i = 0
  phase : PhaseInv w since w.phase

/-- After it. -/
structure Adopted (w : World ι) : Prop where
  phase : w.phase = .adopted ∨ w.phase = .joined
  settled : ∀ i, ∃ last next, Settled w i last next
  closed : w.gateClosed = true → w.queue = []
  done : w.phase = .joined → w.gateClosed = true
  up : w.up = true

structure Inv (w : World ι) : Prop where
  wf : Wf w
  progress : (∃ since, Waiting w since) ∨ Adopted w

variable {w w' : World ι} {since : ℕ}

omit [DecidableEq ι] in
theorem arrived_add_one (hjoiner : w.toJoiner i = true) (hseq : 1 ≤ w.seq i) :
    w.arrived i + 1 = w.seq i := by
  rw [arrived, if_pos hjoiner]
  omega

omit [DecidableEq ι] in
theorem arrived_of_done (hjoiner : w.toJoiner i = false) : w.arrived i = w.seq i := by
  rw [arrived, if_neg (by rw [hjoiner]; exact Bool.false_ne_true)]

omit [DecidableEq ι] in
theorem arrived_le (w : World ι) (i : ι) : w.arrived i ≤ w.seq i := by
  unfold arrived
  split
  · exact Nat.sub_le _ _
  · exact le_refl _

theorem reached_le (w : World ι) (j i : ι) : w.reached j i ≤ w.seq i := by
  unfold reached
  split
  · exact Nat.sub_le _ _
  · exact le_refl _

theorem reached_of_not_mem (h : j ∉ w.waiting i) : w.reached j i = w.seq i := if_neg h

/-! ## Steps that an origin does not notice -/

/-- The two worlds agree on what the joiner knows of an origin. -/
structure Same (w w' : World ι) (i : ι) : Prop where
  seq : w'.seq i = w.seq i
  toJoiner : w'.toJoiner i = w.toJoiner i
  listed : w'.listed i = w.listed i
  heads : w'.heads i = w.heads i
  position : w'.position i = w.position i
  queue : numbers i w'.queue = numbers i w.queue
  applied : numbers i w'.applied = numbers i w.applied

theorem Same.arrived (h : Same w w' i) : w'.arrived i = w.arrived i := by
  rw [World.arrived, World.arrived, h.seq, h.toJoiner]

theorem Intake.same (hi : Intake w i since) (h : Same w w' i) : Intake w' i since := by
  refine ⟨?_, ?_, ?_⟩
  · rw [h.arrived]
    exact hi.since_le
  · rw [h.queue, h.arrived]
    exact hi.queued
  · rw [h.listed, h.seq]
    exact hi.unlisted

theorem Meets.same {dump : List (ι × ℕ)} {last : ℕ} (hm : Meets w dump i since last)
    (h : Same w w' i) : Meets w' dump i since last :=
  ⟨h.listed.trans hm.listed, hm.block, hm.since_le, h.heads.le.trans hm.heads_le,
    hm.last_le.trans h.seq.ge⟩

theorem Settled.same {last next : ℕ} (hs : Settled w i last next) (h : Same w w' i) :
    Settled w' i last next := by
  refine ⟨h.listed.trans hs.listed, h.applied.trans hs.block, ?_, ?_, hs.next_le_last,
    hs.last_le.trans h.seq.ge, h.position.le.trans hs.position_le, ?_⟩
  · rw [h.queue, h.arrived]
    exact hs.queued
  · rw [h.arrived]
    exact hs.next_le
  · rw [h.position]
    exact hs.covers

/-- The phase looks at the serving node, at the answers and at what is listed. -/
theorem PhaseInv.mono {since since' : ι → ℕ} {phase : Phase ι} (hp : PhaseInv w since phase)
    (hup : w'.up = w.up) (hanswer : w'.answer = w.answer) (hheads : w'.heads = w.heads)
    (hlisted : ∀ i, w.listed i = true → w'.listed i = true ∧ since' i = since i)
    (hlisted' : ∀ i, w'.listed i = true → w.listed i = true)
    (hreached : ∀ server, phase = .quiescing server →
      ∀ i, w.reached server i ≤ w'.reached server i)
    (hseq : ∀ i, w.seq i ≤ w'.seq i) : PhaseInv w' since' phase := by
  have hmeets : ∀ dump, (∀ i, ∃ last, Meets w dump i (since i) last) →
      ∀ i, ∃ last, Meets w' dump i (since' i) last := by
    intro dump hall i
    obtain ⟨last, hm⟩ := hall i
    obtain ⟨hl, hs⟩ := hlisted i hm.listed
    exact ⟨last, hl, hm.block, hs ▸ hm.since_le, hheads ▸ hm.heads_le, hm.last_le.trans (hseq i)⟩
  cases phase with
  | probing => trivial
  | quiescing server =>
    refine ⟨hup.trans hp.1, fun i hi => ?_⟩
    obtain ⟨hh, hs⟩ := hp.2 i (hanswer ▸ hi)
    refine ⟨hheads ▸ hh.trans (hreached server rfl i), fun hl => ?_⟩
    have hold := hlisted' i hl
    rw [(hlisted i hold).2]
    exact (hs hold).trans (hreached server rfl i)
  | serving server dump => exact ⟨hup.trans hp.1, hmeets dump hp.2⟩
  | received dump => exact ⟨hup.trans hp.1, hmeets dump hp.2⟩
  | adopted => exact hp
  | joined => exact hp

/-! ## Writes -/

variable [Fintype ι]

/-- What a write changes: the fields of its node. -/
structure Wrote (w w' : World ι) (i : ι) : Prop where
  free : w.PathFree i
  seq : w'.seq i = w.seq i + 1
  state : w'.state i = w.state i ++ [(i, w.seq i + 1)]
  waiting : w'.waiting i = Finset.univ.erase i
  toJoiner : w'.toJoiner i = w.listed i
  others : ∀ k, k ≠ i → w'.seq k = w.seq k ∧ w'.state k = w.state k ∧
    w'.waiting k = w.waiting k ∧ w'.toJoiner k = w.toJoiner k
  listed : w'.listed = w.listed
  phase : w'.phase = w.phase
  answer : w'.answer = w.answer
  up : w'.up = w.up
  gate : w'.gateClosed = w.gateClosed
  queue : w'.queue = w.queue
  applied : w'.applied = w.applied
  heads : w'.heads = w.heads
  position : w'.position = w.position

theorem write_cases (w : World ι) (i : ι) : w.write i = w ∨ Wrote w (w.write i) i := by
  unfold write
  split
  · rename_i h
    refine .inr ⟨h.1, Function.update_self _ _ _, Function.update_self _ _ _,
      Function.update_self _ _ _, Function.update_self _ _ _, fun k hk => ?_, rfl, rfl, rfl, rfl,
      rfl, rfl, rfl, rfl, rfl⟩
    exact ⟨Function.update_of_ne hk _ _, Function.update_of_ne hk _ _,
      Function.update_of_ne hk _ _, Function.update_of_ne hk _ _⟩
  · exact .inl rfl

omit [Fintype ι] in
theorem reached_congr (hwaiting : w'.waiting i = w.waiting i) (hseq : w'.seq i = w.seq i)
    (j : ι) : w'.reached j i = w.reached j i := by
  rw [reached, reached, hwaiting, hseq]

theorem Wrote.same (h : Wrote w w' j) (hij : i ≠ j) : Same w w' i :=
  ⟨(h.others i hij).1, (h.others i hij).2.2.2, congrFun h.listed i, congrFun h.heads i,
    congrFun h.position i, congrArg (numbers i) h.queue, congrArg (numbers i) h.applied⟩

/-- Nothing of the origin was under way, and only its own node has the new write. -/
theorem Wrote.reached (h : Wrote w w' i) (j : ι) :
    w'.reached j i = if j = i then w.seq i + 1 else w.seq i := by
  rw [World.reached, h.waiting, h.seq]
  by_cases hj : j = i
  · rw [if_pos hj, hj, if_neg (Finset.notMem_erase _ _)]
  · rw [if_neg hj, if_pos (Finset.mem_erase.mpr ⟨hj, Finset.mem_univ _⟩), Nat.add_sub_cancel]

theorem Wrote.blocks (h : Wrote w w' i) (hw : Wf w) (j k : ι) :
    numbers k (w'.state j) = between 0 (w'.reached j k) := by
  have hstate : numbers k (w'.state j) =
      numbers k (w.state j) ++ if j = i ∧ k = i then [w.seq i + 1] else [] := by
    by_cases hj : j = i
    · subst hj
      rw [h.state, numbers_append]
      by_cases hk : k = j
      · subst hk
        rw [numbers_cons_self, numbers_nil, if_pos ⟨rfl, rfl⟩]
      · rw [numbers_cons_ne (Ne.symm hk), numbers_nil, if_neg fun hand => hk hand.2]
    · rw [(h.others j hj).2.1, if_neg fun hand => hj hand.1, List.append_nil]
  rw [hstate, hw.blocks j k]
  by_cases hk : k = i
  · subst hk
    have hbefore : w.reached j k = w.seq k :=
      reached_of_not_mem (by rw [h.free.1]; exact Finset.notMem_empty _)
    rw [hbefore, h.reached j]
    by_cases hj : j = k
    · rw [if_pos ⟨hj, rfl⟩, if_pos hj, between_succ (Nat.zero_le _)]
    · rw [if_neg fun hand => hj hand.1, if_neg hj, List.append_nil]
  · rw [if_neg fun hand => hk hand.2, List.append_nil,
      reached_congr (h.others k hk).2.2.1 (h.others k hk).1]

theorem Wf.write (hw : Wf w) (i : ι) : Wf (w.write i) := by
  rcases write_cases w i with heq | h
  · rw [heq]
    exact hw
  refine ⟨h.blocks hw, fun k => ?_, fun k hk => ?_, fun k hk => ?_, fun k => ?_, fun hdown => ?_⟩
  · by_cases hki : k = i
    · rw [hki, h.waiting]
      exact Finset.notMem_erase _ _
    · rw [(h.others k hki).2.2.1]
      exact hw.self k
  · by_cases hki : k = i
    · rw [hki, h.seq]
      exact Nat.le_add_left _ _
    · obtain ⟨hseq, -, hwaiting, hjoiner⟩ := h.others k hki
      rw [hseq]
      exact hw.started k fun hfree => hk ⟨hwaiting.trans hfree.1, hjoiner.trans hfree.2⟩
  · rw [h.listed]
    by_cases hki : k = i
    · subst hki
      exact h.toJoiner.symm.trans hk
    · exact hw.toJoiner_listed k ((h.others k hki).2.2.2.symm.trans hk)
  · rw [h.heads]
    by_cases hki : k = i
    · rw [hki, h.seq]
      exact (hw.heads_le i).trans (Nat.le_succ _)
    · rw [(h.others k hki).1]
      exact hw.heads_le k
  · rw [h.queue]
    exact hw.down_queue (h.up.symm.trans hdown)

theorem Wrote.arrived (h : Wrote w w' i) (hl : w.listed i = true) : w'.arrived i = w.arrived i := by
  rw [World.arrived, h.toJoiner, hl, if_pos rfl, h.seq, arrived_of_done h.free.2,
    Nat.add_sub_cancel]

theorem Wrote.intake (h : Wrote w w' i) (hi : Intake w i since) :
    Intake w' i (if w.listed i = true then since else w.seq i + 1) := by
  cases hl : w.listed i with
  | true =>
    rw [if_pos rfl]
    refine ⟨h.arrived hl ▸ hi.since_le, ?_, fun hno => ?_⟩
    · rw [h.arrived hl, h.queue]
      exact hi.queued
    · rw [h.listed, hl] at hno
      cases hno
  | false =>
    have harrived : w'.arrived i = w.seq i + 1 := by
      rw [arrived_of_done (h.toJoiner.trans hl), h.seq]
    rw [if_neg Bool.false_ne_true]
    refine ⟨harrived.ge, ?_, fun _ => h.seq.symm⟩
    rw [harrived, h.queue, between_self, hi.queued, hi.unlisted hl, arrived_of_done h.free.2,
      between_self]

/-- A write that goes to the joiner too does not move where its queue starts. -/
theorem Waiting.write {since : ι → ℕ} (hwait : Waiting w since) (j : ι) :
    ∃ since', Waiting (w.write j) since' := by
  rcases write_cases w j with heq | h
  · rw [heq]
    exact ⟨since, hwait⟩
  refine ⟨Function.update since j (if w.listed j = true then since j else w.seq j + 1),
    fun i => ?_, h.gate.trans hwait.gate, fun i => h.position ▸ hwait.positions i, ?_⟩
  · by_cases hij : i = j
    · subst hij
      rw [Function.update_self]
      exact h.intake (hwait.intake i)
    · rw [Function.update_of_ne hij]
      exact (hwait.intake i).same (h.same hij)
  · rw [h.phase]
    refine hwait.phase.mono h.up h.answer h.heads (fun i hi => ⟨h.listed ▸ hi, ?_⟩)
      (fun i hi => h.listed ▸ hi) (fun server _ i => ?_) fun i => ?_
    · by_cases hij : i = j
      · subst hij
        rw [Function.update_self, if_pos hi]
      · exact Function.update_of_ne hij _ _
    · by_cases hij : i = j
      · subst hij
        refine (w.reached_le server i).trans ?_
        rw [h.reached server]
        split
        · exact Nat.le_succ _
        · exact le_refl _
      · exact (reached_congr (h.others i hij).2.2.1 (h.others i hij).1 server).ge
    · by_cases hij : i = j
      · rw [hij, h.seq]
        exact Nat.le_succ _
      · exact (h.others i hij).1.ge

theorem Settled.write {last next : ℕ} (hs : Settled w i last next) (j : ι) :
    Settled (w.write j) i last next := by
  rcases write_cases w j with heq | h
  · rw [heq]
    exact hs
  by_cases hij : i = j
  · subst hij
    have harrived := h.arrived hs.listed
    refine ⟨h.listed ▸ hs.listed, h.applied ▸ hs.block, ?_, harrived ▸ hs.next_le,
      hs.next_le_last, h.seq ▸ hs.last_le.trans (Nat.le_succ _), h.position ▸ hs.position_le,
      h.position ▸ hs.covers⟩
    rw [h.queue, harrived]
    exact hs.queued
  · exact hs.same (h.same hij)

/-! ## Legs -/

omit [Fintype ι] in
/-- A step that changes neither the joiner nor what an origin has sent to it. -/
theorem Waiting.of_same {since : ι → ℕ} (hwait : Waiting w since) (hsame : ∀ i, Same w w' i)
    (hgate : w'.gateClosed = w.gateClosed) (hphase : w'.phase = w.phase) (hup : w'.up = w.up)
    (hanswer : w'.answer = w.answer) (hreached : ∀ j i, w.reached j i ≤ w'.reached j i) :
    Waiting w' since := by
  refine ⟨fun i => (hwait.intake i).same (hsame i), hgate.trans hwait.gate,
    fun i => (hsame i).position.trans (hwait.positions i), ?_⟩
  rw [hphase]
  exact hwait.phase.mono hup hanswer (funext fun i => (hsame i).heads)
    (fun i hi => ⟨(hsame i).listed.trans hi, rfl⟩) (fun i hi => (hsame i).listed.symm.trans hi)
    (fun server _ i => hreached server i) fun i => (hsame i).seq.ge

omit [Fintype ι] in
theorem Adopted.of_same (hadopt : Adopted w) (hsame : ∀ i, Same w w' i)
    (hgate : w'.gateClosed = w.gateClosed) (hphase : w'.phase = w.phase) (hup : w'.up = w.up)
    (hqueue : w'.queue = w.queue) : Adopted w' := by
  refine ⟨hphase ▸ hadopt.phase, fun i => ?_, fun h => ?_, fun h => ?_, hup.trans hadopt.up⟩
  · obtain ⟨last, next, hs⟩ := hadopt.settled i
    exact ⟨last, next, hs.same (hsame i)⟩
  · exact hqueue.trans (hadopt.closed (hgate.symm.trans h))
  · exact hgate.trans (hadopt.done (hphase.symm.trans h))

omit [Fintype ι] in
theorem Wf.deliver (hw : Wf w) (i j : ι) : Wf (w.deliver i j) := by
  unfold World.deliver
  split
  · rename_i hcan
    set w' : World ι := { w with
      state := Function.update w.state j (w.state j ++ [(i, w.seq i)])
      waiting := Function.update w.waiting i ((w.waiting i).erase j) } with hw'
    have hwaiting : ∀ k, k ≠ i → w'.waiting k = w.waiting k :=
      fun k hk => Function.update_of_ne hk _ _
    have hwaiting' : w'.waiting i = (w.waiting i).erase j := Function.update_self _ _ _
    have hseq : 1 ≤ w.seq i := hw.started i fun hfree => by
      rw [hfree.1] at hcan
      exact Finset.notMem_empty _ hcan.1
    refine ⟨fun l k => ?_, fun k => ?_, fun k hk => ?_, hw.toJoiner_listed, hw.heads_le,
      hw.down_queue⟩
    · have hstate : numbers k (w'.state l) =
          numbers k (w.state l) ++ if l = j ∧ k = i then [w.seq i] else [] := by
        by_cases hl : l = j
        · subst hl
          rw [show w'.state l = w.state l ++ [(i, w.seq i)] from Function.update_self _ _ _,
            numbers_append]
          by_cases hk : k = i
          · subst hk
            rw [numbers_cons_self, numbers_nil, if_pos ⟨rfl, rfl⟩]
          · rw [numbers_cons_ne (Ne.symm hk), numbers_nil, if_neg fun hand => hk hand.2]
        · rw [show w'.state l = w.state l from Function.update_of_ne hl _ _,
            if_neg fun hand => hl hand.1, List.append_nil]
      rw [hstate, hw.blocks l k]
      by_cases hk : k = i
      · subst hk
        by_cases hl : l = j
        · subst hl
          have hlast : w.seq k - 1 + 1 = w.seq k := by omega
          rw [if_pos ⟨rfl, rfl⟩, World.reached, if_pos hcan.1,
            reached_of_not_mem (hwaiting' ▸ Finset.notMem_erase _ _)]
          have hsucc := between_succ (Nat.zero_le (w.seq k - 1))
          rw [hlast] at hsucc
          exact hsucc.symm
        · rw [if_neg fun hand => hl hand.1, List.append_nil, World.reached, World.reached,
            hwaiting', show w'.seq k = w.seq k from rfl]
          simp only [Finset.mem_erase, ne_eq, hl, not_false_eq_true, true_and]
      · rw [if_neg fun hand => hk hand.2, List.append_nil, reached_congr (hwaiting k hk) rfl]
    · by_cases hk : k = i
      · subst hk
        rw [hwaiting']
        exact fun hmem => hw.self k (Finset.mem_of_mem_erase hmem)
      · rw [hwaiting k hk]
        exact hw.self k
    · by_cases hki : k = i
      · subst hki
        exact hseq
      · exact hw.started k fun hfree => hk ⟨(hwaiting k hki).trans hfree.1, hfree.2⟩
  · exact hw

omit [Fintype ι] in
theorem deliver_waiting (w : World ι) (i j k : ι) :
    (w.deliver i j).waiting k ⊆ w.waiting k ∧ (w.deliver i j).seq k = w.seq k := by
  unfold World.deliver
  split
  · refine ⟨?_, rfl⟩
    dsimp only
    by_cases hk : k = i
    · subst hk
      rw [Function.update_self]
      exact Finset.erase_subset _ _
    · rw [Function.update_of_ne hk]
  · exact ⟨subset_rfl, rfl⟩

omit [Fintype ι] in
theorem deliver_reached (w : World ι) (i j l k : ι) :
    w.reached l k ≤ (w.deliver i j).reached l k := by
  obtain ⟨hsub, hseq⟩ := deliver_waiting w i j k
  unfold World.reached
  rw [hseq]
  split
  · split
    · exact le_refl _
    · exact Nat.sub_le _ _
  · rename_i hno
    rw [if_neg fun hmem => hno (hsub hmem)]

omit [Fintype ι] in
theorem deliver_same (w : World ι) (i j k : ι) : Same w (w.deliver i j) k := by
  unfold World.deliver
  split
  · exact ⟨rfl, rfl, rfl, rfl, rfl, rfl, rfl⟩
  · exact ⟨rfl, rfl, rfl, rfl, rfl, rfl, rfl⟩

omit [Fintype ι] in
theorem deliver_rest (w : World ι) (i j : ι) :
    (w.deliver i j).gateClosed = w.gateClosed ∧ (w.deliver i j).phase = w.phase ∧
      (w.deliver i j).up = w.up ∧ (w.deliver i j).answer = w.answer ∧
      (w.deliver i j).queue = w.queue := by
  unfold World.deliver
  split
  · exact ⟨rfl, rfl, rfl, rfl, rfl⟩
  · exact ⟨rfl, rfl, rfl, rfl, rfl⟩

/-! ## The joiner's intake -/

omit [DecidableEq ι] [Fintype ι] in
/-- The leg of the last write is through. -/
theorem arrived_cleared (h : w'.toJoiner i = false) (hseq : w'.seq i = w.seq i) :
    w'.arrived i = w.seq i := by
  rw [arrived_of_done h, hseq]

omit [Fintype ι] in
/-- A position update for another origin. -/
theorem applySeq_same (h : i ≠ j) (n : ℕ) : Same w (w.applySeq j n) i := by
  unfold World.applySeq
  split
  · exact ⟨rfl, rfl, rfl, rfl, rfl, rfl, rfl⟩
  · refine ⟨rfl, rfl, rfl, rfl, Function.update_of_ne h _ _, rfl, ?_⟩
    dsimp only
    rw [numbers_append, numbers_cons_ne (Ne.symm h), numbers_nil, List.append_nil]

omit [Fintype ι] in
/-- The number after the queue's start is skipped or is the next one of the state. -/
theorem Settled.applySeq {last next : ℕ} (hs : Settled w' i last next)
    (hseq : w.seq i = w'.seq i) (hlisted : w.listed i = w'.listed i)
    (happlied : w.applied = w'.applied) (hpos : w.position = w'.position)
    (hqueue : numbers i w.queue = between (next + 1) (w.arrived i))
    (hnext : next + 1 ≤ w.arrived i) :
    ∃ last', Settled (w.applySeq i (next + 1)) i last' (next + 1) := by
  have hle := hs.next_le_last
  have hposle := hs.position_le
  have harrived := w.arrived_le i
  have hlast := hs.last_le
  unfold World.applySeq
  split
  · rename_i hcov
    rw [hpos] at hcov
    have hpast : last ≤ w'.position i := by
      rcases hs.covers with hc | hc
      · exact hc
      · omega
    exact ⟨last, hlisted.trans hs.listed, happlied ▸ hs.block, hqueue, hnext,
      hcov.trans hs.position_le, hseq ▸ hs.last_le, hpos ▸ hs.position_le,
      .inl (hpos ▸ hpast)⟩
  · rename_i hcov
    rw [hpos] at hcov
    -- The position ends before it, so it is the number after the last one applied.
    have heq : next = last := by
      rcases hs.covers with hc | hc
      · omega
      · exact hc
    subst heq
    have hself : Function.update w.position i (next + 1) i = next + 1 :=
      Function.update_self _ _ _
    refine ⟨next + 1, hlisted.trans hs.listed, ?_, hqueue, hnext, le_refl _,
      hnext.trans harrived, hself.le, .inl hself.ge⟩
    dsimp only
    rw [numbers_append, numbers_cons_self, numbers_nil, happlied, hs.block,
      between_succ (Nat.zero_le _)]

omit [Fintype ι] in
theorem Wf.cleared (hw : Wf w) (i : ι) :
    Wf { w with toJoiner := Function.update w.toJoiner i false } := by
  refine ⟨hw.blocks, hw.self, fun k hk => ?_, fun k hk => ?_, hw.heads_le, hw.down_queue⟩
  · refine hw.started k fun hfree => hk ⟨hfree.1, ?_⟩
    by_cases hki : k = i
    · subst hki
      exact Function.update_self _ _ _
    · exact (Function.update_of_ne hki _ _).trans hfree.2
  · by_cases hki : k = i
    · subst hki
      exact absurd ((Function.update_self k false w.toJoiner).symm.trans hk) nofun
    · exact hw.toJoiner_listed k ((Function.update_of_ne hki _ _).symm.trans hk)

omit [Fintype ι] in
theorem cleared_same (h : j ≠ i) :
    Same w { w with toJoiner := Function.update w.toJoiner i false } j :=
  ⟨rfl, Function.update_of_ne h _ _, rfl, rfl, rfl, rfl, rfl⟩

omit [Fintype ι] in
/-- One more frame in the queue. -/
theorem queued_same (h : j ≠ i) (n : ℕ) : Same w { w with
    toJoiner := Function.update w.toJoiner i false
    queue := w.queue ++ [(i, n)] } j := by
  refine ⟨rfl, Function.update_of_ne h _ _, rfl, rfl, rfl, ?_, rfl⟩
  dsimp only
  rw [numbers_append, numbers_cons_ne h.symm, numbers_nil, List.append_nil]

omit [Fintype ι] in
/-- The block of the queue grows by the write that arrives. -/
theorem queued_block (hw : Wf w) (hjoiner : w.toJoiner i = true)
    (hle : a ≤ w.arrived i) (hblock : numbers i w.queue = between a (w.arrived i)) :
    numbers i (w.queue ++ [(i, w.seq i)]) = between a (w.seq i) := by
  have hseq := arrived_add_one hjoiner (hw.started i fun hfree => by
    rw [hfree.2] at hjoiner
    cases hjoiner)
  rw [numbers_append, numbers_cons_self, numbers_nil, hblock, ← hseq, between_succ hle]

omit [Fintype ι] in
theorem Inv.arrive (h : Inv w) (i : ι) : Inv (w.arrive i) := by
  have hw := h.wf
  unfold World.arrive
  split
  swap
  · exact h
  rename_i hcan
  obtain ⟨hjoiner, hup⟩ := hcan
  have hseq := arrived_add_one hjoiner (hw.started i fun hfree => by
    rw [hfree.2] at hjoiner
    cases hjoiner)
  have hwf := hw.cleared i
  dsimp only
  split
  · -- Behind the closed gate, so the dump is replayed and the queue is empty.
    rename_i hclosed
    rcases h.progress with ⟨since, hwait⟩ | hadopt
    · rw [hwait.gate] at hclosed
      cases hclosed
    have hqueue := hadopt.closed hclosed
    set w' : World ι := { w with toJoiner := Function.update w.toJoiner i false } with hw'
    have harrived : w'.arrived i = w.seq i := arrived_cleared (Function.update_self _ _ _) rfl
    have hrest : (w'.applySeq i (w.seq i)).phase = w.phase ∧
        (w'.applySeq i (w.seq i)).gateClosed = w.gateClosed ∧
        (w'.applySeq i (w.seq i)).queue = w.queue ∧
        (w'.applySeq i (w.seq i)).up = w.up := by
      unfold World.applySeq
      split
      · exact ⟨rfl, rfl, rfl, rfl⟩
      · exact ⟨rfl, rfl, rfl, rfl⟩
    obtain ⟨hphase, hgate, hq, hup'⟩ := hrest
    refine ⟨?_, .inr ⟨hphase ▸ hadopt.phase, fun j => ?_, fun _ => hq.trans hqueue,
      fun hdone => hgate.trans (hadopt.done (hphase.symm.trans hdone)), hup'.trans hup⟩⟩
    · unfold World.applySeq
      split
      · exact hwf
      · exact ⟨hwf.blocks, hwf.self, hwf.started, hwf.toJoiner_listed, hwf.heads_le,
          hwf.down_queue⟩
    · by_cases hij : j = i
      · subst hij
        obtain ⟨last, next, hs⟩ := hadopt.settled j
        have hnext : next = w.arrived j := by
          have hempty := hs.queued
          rw [hqueue, numbers_nil] at hempty
          exact le_antisymm hs.next_le (between_eq_nil hempty.symm)
        have hq' : numbers j w'.queue = between (next + 1) (w'.arrived j) := by
          rw [harrived, hnext, hseq, between_self, show w'.queue = w.queue from rfl, hqueue,
            numbers_nil]
        obtain ⟨last', hs'⟩ := hs.applySeq (w := w') rfl rfl rfl rfl hq' (by rw [harrived]; omega)
        rw [← hseq, ← hnext]
        exact ⟨last', next + 1, hs'⟩
      · obtain ⟨last, next, hs⟩ := hadopt.settled j
        exact ⟨last, next, (hs.same (cleared_same hij)).same (applySeq_same hij _)⟩
  · rename_i hopen
    refine ⟨⟨hwf.blocks, hwf.self, hwf.started, hwf.toJoiner_listed, hwf.heads_le,
      fun hdown => absurd (hup.symm.trans hdown) nofun⟩, ?_⟩
    set w' : World ι := { w with
      toJoiner := Function.update w.toJoiner i false
      queue := w.queue ++ [(i, w.seq i)] } with hw'
    have harrived : w'.arrived i = w.seq i := arrived_cleared (Function.update_self _ _ _) rfl
    rcases h.progress with ⟨since, hwait⟩ | hadopt
    · refine .inl ⟨since, fun j => ?_, hwait.gate, hwait.positions, ?_⟩
      · by_cases hij : j = i
        · subst hij
          have hi := hwait.intake j
          refine ⟨?_, ?_, hi.unlisted⟩
          · rw [harrived]
            exact hi.since_le.trans (w.arrived_le j)
          · rw [harrived]
            exact queued_block hw hjoiner hi.since_le hi.queued
        · exact (hwait.intake j).same (queued_same hij _)
      · exact hwait.phase.mono rfl rfl rfl (fun _ hl => ⟨hl, rfl⟩) (fun _ hl => hl)
          (fun _ _ _ => le_refl _) fun _ => le_refl _
    · refine .inr ⟨hadopt.phase, fun j => ?_, fun hc => absurd hc hopen, hadopt.done, hup⟩
      obtain ⟨last, next, hs⟩ := hadopt.settled j
      refine ⟨last, next, ?_⟩
      by_cases hij : j = i
      · subst hij
        refine ⟨hs.listed, hs.block, ?_, ?_, hs.next_le_last, hs.last_le, hs.position_le,
          hs.covers⟩
        · rw [harrived]
          exact queued_block hw hjoiner hs.next_le hs.queued
        · rw [harrived]
          exact hs.next_le.trans (w.arrived_le j)
      · exact hs.same (queued_same hij _)

omit [Fintype ι] in
/-- While the joiner is down nothing is queued, so its queue starts after the loss. -/
theorem Inv.lose (h : Inv w) (i : ι) : Inv (w.lose i) := by
  unfold World.lose
  split
  · exact h
  rename_i hdown
  rw [Bool.not_eq_true] at hdown
  have hqueue := h.wf.down_queue hdown
  refine ⟨h.wf.cleared i, ?_⟩
  rcases h.progress with ⟨since, hwait⟩ | hadopt
  · have hphase : PhaseInv w since w.phase := hwait.phase
    refine .inl ⟨Function.update since i (w.seq i), fun j => ?_, hwait.gate, hwait.positions, ?_⟩
    · by_cases hij : j = i
      · subst hij
        rw [Function.update_self]
        set w' : World ι := { w with toJoiner := Function.update w.toJoiner j false } with hw'
        have harrived : w'.arrived j = w.seq j := arrived_cleared (Function.update_self _ _ _) rfl
        refine ⟨harrived.ge, ?_, fun _ => rfl⟩
        rw [harrived, between_self, show w'.queue = w.queue from rfl, hqueue, numbers_nil]
      · rw [Function.update_of_ne hij]
        exact (hwait.intake j).same (cleared_same hij)
    · dsimp only
      cases hp : w.phase with
      | probing => trivial
      | quiescing server =>
        rw [hp] at hphase
        exact absurd (hphase.1.symm.trans hdown) nofun
      | serving server dump =>
        rw [hp] at hphase
        exact absurd (hphase.1.symm.trans hdown) nofun
      | received dump =>
        rw [hp] at hphase
        exact absurd (hphase.1.symm.trans hdown) nofun
      | adopted =>
        rw [hp] at hphase
        exact hphase
      | joined =>
        rw [hp] at hphase
        exact hphase
  · exact absurd (hadopt.up.symm.trans hdown) nofun

/-! ## Probes, holds and the capture -/

omit [Fintype ι] in
/-- Steps on fields that the invariant of the live nodes does not mention. -/
theorem Wf.of_eq (hw : Wf w) (hseq : w'.seq = w.seq) (hstate : w'.state = w.state)
    (hwaiting : w'.waiting = w.waiting) (hjoiner : w'.toJoiner = w.toJoiner)
    (hlisted : ∀ i, w.listed i = true → w'.listed i = true) (hheads : w'.heads = w.heads)
    (hdown : w'.up = false → w'.queue = []) : Wf w' := by
  refine ⟨fun j i => ?_, fun i => ?_, fun i hi => ?_, fun i hi => ?_, fun i => ?_, hdown⟩
  · rw [hstate, reached_congr (congrFun hwaiting i) (congrFun hseq i)]
    exact hw.blocks j i
  · rw [hwaiting]
    exact hw.self i
  · rw [hseq]
    refine hw.started i fun hfree => hi ⟨?_, ?_⟩
    · rw [hwaiting]
      exact hfree.1
    · rw [hjoiner]
      exact hfree.2
  · rw [hjoiner] at hi
    exact hlisted i (hw.toJoiner_listed i hi)
  · rw [hheads, hseq]
    exact hw.heads_le i

omit [Fintype ι] in
theorem Inv.start (h : Inv w) : Inv { w with up := true } := by
  have hw := h.wf
  refine ⟨hw.of_eq rfl rfl rfl rfl (fun _ hl => hl) rfl nofun, ?_⟩
  rcases h.progress with ⟨since, hwait⟩ | hadopt
  · refine .inl ⟨since, fun i => (hwait.intake i).same ⟨rfl, rfl, rfl, rfl, rfl, rfl, rfl⟩,
      hwait.gate, hwait.positions, ?_⟩
    have hphase := hwait.phase
    dsimp only
    cases hp : w.phase with
    | probing => trivial
    | quiescing server =>
      rw [hp] at hphase
      exact ⟨rfl, hphase.2⟩
    | serving server dump =>
      rw [hp] at hphase
      refine ⟨rfl, fun i => ?_⟩
      obtain ⟨last, hm⟩ := hphase.2 i
      exact ⟨last, hm.same ⟨rfl, rfl, rfl, rfl, rfl, rfl, rfl⟩⟩
    | received dump =>
      rw [hp] at hphase
      refine ⟨rfl, fun i => ?_⟩
      obtain ⟨last, hm⟩ := hphase.2 i
      exact ⟨last, hm.same ⟨rfl, rfl, rfl, rfl, rfl, rfl, rfl⟩⟩
    | adopted =>
      rw [hp] at hphase
      exact hphase
    | joined =>
      rw [hp] at hphase
      exact hphase
  · exact .inr (hadopt.of_same (fun i => ⟨rfl, rfl, rfl, rfl, rfl, rfl, rfl⟩) rfl rfl
      hadopt.up.symm rfl)

omit [Fintype ι] in
/-- New heads, between two attempts. -/
theorem Inv.setHeads (h : Inv w) {heads : ι → ℕ} (hphase : w.phase = .probing)
    (hheads : ∀ i, heads i ≤ w.seq i) : Inv { w with heads := heads } := by
  have hw := h.wf
  refine ⟨⟨hw.blocks, hw.self, hw.started, hw.toJoiner_listed, hheads, hw.down_queue⟩, ?_⟩
  rcases h.progress with ⟨since, hwait⟩ | hadopt
  · refine .inl ⟨since, fun i => ?_, hwait.gate, hwait.positions, ?_⟩
    · exact ⟨(hwait.intake i).since_le, (hwait.intake i).queued, (hwait.intake i).unlisted⟩
    · dsimp only
      rw [hphase]
      trivial
  · rcases hadopt.phase with hp | hp
    · exact absurd (hphase.symm.trans hp) nofun
    · exact absurd (hphase.symm.trans hp) nofun

omit [Fintype ι] in
theorem Inv.probe (h : Inv w) (i : ι) : Inv (w.probe i) := by
  unfold World.probe
  split
  · rename_i hphase
    refine h.setHeads hphase fun k => ?_
    by_cases hk : k = i
    · subst hk
      rw [Function.update_self]
    · rw [Function.update_of_ne hk]
      exact h.wf.heads_le k
  · exact h

omit [Fintype ι] in
theorem Inv.newRound (h : Inv w) : Inv w.newRound := by
  unfold World.newRound
  split
  · rename_i hphase
    exact h.setHeads hphase fun _ => Nat.zero_le _
  · exact h

omit [Fintype ι] in
/-- The phases before the replay leave the rest alone. -/
theorem Waiting.enter {since : ι → ℕ} (hwait : Waiting w since) {phase : Phase ι}
    {answer : ι → Answer}
    (hphase : PhaseInv { w with phase := phase, answer := answer } since phase) :
    Waiting { w with phase := phase, answer := answer } since :=
  ⟨fun i => (hwait.intake i).same ⟨rfl, rfl, rfl, rfl, rfl, rfl, rfl⟩, hwait.gate,
    hwait.positions, hphase⟩

omit [Fintype ι] in
/-- The phase tells which half of the invariant holds. -/
theorem Inv.waiting (h : Inv w) (hadopted : w.phase ≠ .adopted) (hjoined : w.phase ≠ .joined) :
    ∃ since, Waiting w since := by
  rcases h.progress with hwait | hadopt
  · exact hwait
  · rcases hadopt.phase with hp | hp
    · exact absurd hp hadopted
    · exact absurd hp hjoined

omit [Fintype ι] in
theorem Inv.adopted (h : Inv w) (hphase : w.phase = .adopted) : Adopted w := by
  rcases h.progress with ⟨since, hwait⟩ | hadopt
  · have hfalse := hwait.phase
    rw [hphase] at hfalse
    exact hfalse.elim
  · exact hadopt

omit [Fintype ι] in
theorem Inv.requestSync (h : Inv w) (server : ι) : Inv (w.requestSync server) := by
  unfold World.requestSync
  split
  · rename_i hphase
    split
    · rename_i hcan
      obtain ⟨since, hwait⟩ := h.waiting (hphase ▸ nofun) (hphase ▸ nofun)
      exact ⟨h.wf.of_eq rfl rfl rfl rfl (fun _ hl => hl) rfl h.wf.down_queue,
        .inl ⟨since, hwait.enter ⟨hcan.1, fun _ hgranted => absurd hgranted nofun⟩⟩⟩
    · exact h
  · exact h

omit [Fintype ι] in
/-- A granted hold has waited out the writes of the node. -/
theorem Inv.hold (h : Inv w) (advertised : Bool) (i : ι) : Inv (w.hold advertised i) := by
  unfold World.hold
  split
  swap
  · exact h
  rename_i server hphase
  split
  swap
  · exact h
  rename_i hcan
  obtain ⟨-, -, hfree, -⟩ := hcan
  obtain ⟨since, hwait⟩ := h.waiting (hphase ▸ nofun) (hphase ▸ nofun)
  have hquiet := hwait.phase
  rw [hphase] at hquiet
  have hlisted : ∀ k, w.listed k = true →
      Function.update w.listed i (w.listed i || advertised) k = true := by
    intro k hk
    by_cases hki : k = i
    · subst hki
      rw [Function.update_self, hk, Bool.true_or]
    · rw [Function.update_of_ne hki]
      exact hk
  refine ⟨h.wf.of_eq rfl rfl rfl rfl hlisted rfl h.wf.down_queue, .inl ⟨since, fun k => ?_,
    hwait.gate, hwait.positions, ?_⟩⟩
  · refine ⟨(hwait.intake k).since_le, (hwait.intake k).queued, fun hno => ?_⟩
    refine (hwait.intake k).unlisted ?_
    by_contra hl
    rw [Bool.not_eq_false] at hl
    exact absurd ((hlisted k hl).symm.trans hno) nofun
  · dsimp only
    rw [hphase]
    refine ⟨hquiet.1, fun k hgranted => ?_⟩
    by_cases hki : k = i
    · subst hki
      have hreached : w.reached server k = w.seq k :=
        reached_of_not_mem (by rw [hfree.1]; exact Finset.notMem_empty _)
      exact ⟨hreached ▸ h.wf.heads_le k, fun _ =>
        hreached ▸ (hwait.intake k).since_le.trans (w.arrived_le k)⟩
    · obtain ⟨hheads, hsince⟩ := hquiet.2 k ((Function.update_of_ne hki _ _).symm.trans hgranted)
      exact ⟨hheads, fun hl => hsince ((Function.update_of_ne hki _ _).symm.trans hl)⟩

omit [Fintype ι] in
theorem Inv.unreachable (h : Inv w) (i : ι) : Inv (w.unreachable i) := by
  unfold World.unreachable
  split
  swap
  · exact h
  rename_i server hphase
  split
  swap
  · exact h
  obtain ⟨since, hwait⟩ := h.waiting (hphase ▸ nofun) (hphase ▸ nofun)
  have hquiet := hwait.phase
  rw [hphase] at hquiet
  refine ⟨h.wf.of_eq rfl rfl rfl rfl (fun _ hl => hl) rfl h.wf.down_queue,
    .inl ⟨since, fun k => (hwait.intake k).same ⟨rfl, rfl, rfl, rfl, rfl, rfl, rfl⟩,
      hwait.gate, hwait.positions, ?_⟩⟩
  dsimp only
  rw [hphase]
  refine ⟨hquiet.1, fun k hgranted => ?_⟩
  by_cases hki : k = i
  · subst hki
    exact absurd ((Function.update_self k Answer.unreachable w.answer).symm.trans hgranted) nofun
  · exact hquiet.2 k ((Function.update_of_ne hki _ _).symm.trans hgranted)

/-- The captured state meets the queue of every origin. -/
theorem Inv.capture (h : Inv w) {advertised room : Bool}
    (hfit : Fit advertised w (.capture room)) : Inv (w.capture advertised room) := by
  unfold World.capture
  split
  swap
  · exact h
  rename_i server hphase
  split
  swap
  · exact h
  rename_i hanswered
  obtain ⟨hserver, hothers⟩ := hfit server hphase
  obtain ⟨since, hwait⟩ := h.waiting (hphase ▸ nofun) (hphase ▸ nofun)
  have hquiet := hwait.phase
  rw [hphase] at hquiet
  have hlisted : ∀ k,
      Function.update w.listed server (w.listed server || (advertised && room)) k = true := by
    intro k
    by_cases hk : k = server
    · subst hk
      rw [Function.update_self]
      exact hserver
    · rw [Function.update_of_ne hk]
      exact (hothers k hk).1
  refine ⟨h.wf.of_eq rfl rfl rfl rfl (fun k _ => hlisted k) rfl h.wf.down_queue, .inl ⟨since,
    fun k => ⟨(hwait.intake k).since_le, (hwait.intake k).queued,
      fun hno => absurd ((hlisted k).symm.trans hno) nofun⟩, hwait.gate, hwait.positions,
    hquiet.1, fun k => ?_⟩⟩
  have hseq : server ∉ w.waiting k → since k ≤ w.reached server k ∧
      w.heads k ≤ w.reached server k := by
    intro hnot
    rw [reached_of_not_mem hnot]
    exact ⟨(hwait.intake k).since_le.trans (w.arrived_le k), h.wf.heads_le k⟩
  have hmeet : since k ≤ w.reached server k ∧ w.heads k ≤ w.reached server k := by
    by_cases hk : k = server
    · subst hk
      exact hseq (h.wf.self k)
    · cases hans : w.answer k with
      | missing => exact absurd hans (hanswered k hk)
      | granted =>
        obtain ⟨hheads, hsince⟩ := hquiet.2 k hans
        exact ⟨hsince (hothers k hk).1, hheads⟩
      | unreachable => exact hseq ((hothers k hk).2 hans)
  exact ⟨w.reached server k, hlisted k, h.wf.blocks server k, hmeet.1, hmeet.2,
    w.reached_le server k⟩

omit [Fintype ι] in
/-- Leaving a phase before the replay. -/
theorem Inv.setPhase (h : Inv w) {phase : Phase ι} (hadopted : w.phase ≠ .adopted)
    (hjoined : w.phase ≠ .joined)
    (hphase : ∀ since, Waiting w since → PhaseInv { w with phase := phase } since phase) :
    Inv { w with phase := phase } := by
  obtain ⟨since, hwait⟩ := h.waiting hadopted hjoined
  exact ⟨h.wf.of_eq rfl rfl rfl rfl (fun _ hl => hl) rfl h.wf.down_queue,
    .inl ⟨since, hwait.enter (hphase since hwait)⟩⟩

omit [Fintype ι] in
theorem Inv.send (h : Inv w) : Inv w.send := by
  unfold World.send
  split
  · rename_i server dump hphase
    refine h.setPhase (hphase ▸ nofun) (hphase ▸ nofun) fun since hwait => ?_
    have hserve := hwait.phase
    rw [hphase] at hserve
    refine ⟨hserve.1, fun i => ?_⟩
    obtain ⟨last, hm⟩ := hserve.2 i
    exact ⟨last, hm.same ⟨rfl, rfl, rfl, rfl, rfl, rfl, rfl⟩⟩
  · exact h

omit [Fintype ι] in
theorem Inv.abort (h : Inv w) : Inv w.abort := by
  unfold World.abort
  split
  · rename_i hphase
    exact h.setPhase (hphase ▸ nofun) (hphase ▸ nofun) fun _ _ => trivial
  · rename_i hphase
    exact h.setPhase (hphase ▸ nofun) (hphase ▸ nofun) fun _ _ => trivial
  · rename_i hphase
    exact h.setPhase (hphase ▸ nofun) (hphase ▸ nofun) fun _ _ => trivial
  · exact h

/-! ## The replay and the drain -/

omit [Fintype ι] in
/-- Where the dump reaches past the probed head, the queue starts after it. -/
theorem Meets.covers {dump : List (ι × ℕ)} {last : ℕ} (hm : Meets w dump i since last)
    (hi : Intake w i since)
    (hfit : ∀ n, ((i, n) ∈ w.queue ∨ w.toJoiner i = true ∧ n = w.seq i) → (i, n) ∈ dump →
      n ≤ w.heads i) : last ≤ w.heads i ∨ since = last := by
  by_contra hgap
  rw [not_or, not_le] at hgap
  have hlt : since < last := lt_of_le_of_ne hm.since_le hgap.2
  have hlast := hm.last_le
  have hdump : (i, last) ∈ dump := by
    rw [← mem_numbers, hm.block, mem_between]
    omega
  have hcomes : (i, last) ∈ w.queue ∨ w.toJoiner i = true ∧ last = w.seq i := by
    by_cases harrived : last ≤ w.arrived i
    · left
      rw [← mem_numbers, hi.queued, mem_between]
      exact ⟨hlt, harrived⟩
    · right
      unfold World.arrived at harrived
      split at harrived
      · rename_i hjoiner
        exact ⟨hjoiner, by omega⟩
      · omega
  exact absurd (hfit last hcomes hdump) (not_le.mpr hgap.1)

omit [Fintype ι] in
theorem Inv.replay {advertised : Bool} (h : Inv w) (hfit : Fit advertised w .replay) :
    Inv w.replay := by
  unfold World.replay
  split
  swap
  · exact h
  rename_i dump hphase
  obtain ⟨since, hwait⟩ := h.waiting (hphase ▸ nofun) (hphase ▸ nofun)
  have hreceived := hwait.phase
  rw [hphase] at hreceived
  refine ⟨h.wf.of_eq rfl rfl rfl rfl (fun _ hl => hl) rfl h.wf.down_queue,
    .inr ⟨.inl rfl, fun i => ?_, fun hc => absurd (hwait.gate.symm.trans hc) nofun, nofun,
      hreceived.1⟩⟩
  obtain ⟨last, hm⟩ := hreceived.2 i
  have hi := hwait.intake i
  have hpos : max (w.position i) (w.heads i) = w.heads i := by
    rw [hwait.positions i, Nat.zero_max]
  refine ⟨last, since i, hm.listed, hm.block, hi.queued, hi.since_le, hm.since_le, hm.last_le,
    hpos.le.trans hm.heads_le, ?_⟩
  exact (hm.covers hi fun n => hfit dump hphase i n).imp_left fun hle => hle.trans hpos.ge

omit [Fintype ι] in
theorem Inv.drain (h : Inv w) : Inv w.drain := by
  unfold World.drain
  split
  swap
  · exact h
  rename_i i n rest hphase hqueue
  have hadopt := h.adopted hphase
  set w' : World ι := { w with queue := rest } with hw'
  have hwf : Wf w' := h.wf.of_eq rfl rfl rfl rfl (fun _ hl => hl) rfl
    fun hdown => absurd (hadopt.up.symm.trans hdown) nofun
  have hrest : (w'.applySeq i n).phase = w.phase ∧ (w'.applySeq i n).gateClosed = w.gateClosed ∧
      (w'.applySeq i n).up = w.up := by
    unfold World.applySeq
    split
    · exact ⟨rfl, rfl, rfl⟩
    · exact ⟨rfl, rfl, rfl⟩
  obtain ⟨hphase', hgate, hup⟩ := hrest
  have hopen : w.gateClosed = false := by
    by_contra hclosed
    rw [Bool.not_eq_false] at hclosed
    rw [hadopt.closed hclosed] at hqueue
    cases hqueue
  refine ⟨?_, .inr ⟨hphase' ▸ hadopt.phase, fun j => ?_, fun hc => ?_, fun hdone => ?_,
    hup.trans hadopt.up⟩⟩
  · unfold World.applySeq
    split
    · exact hwf
    · exact hwf.of_eq rfl rfl rfl rfl (fun _ hl => hl) rfl hwf.down_queue
  · obtain ⟨last, next, hs⟩ := hadopt.settled j
    have hqueued := hs.queued
    rw [hqueue] at hqueued
    by_cases hij : j = i
    · subst hij
      rw [numbers_cons_self] at hqueued
      have hlt : next < w.arrived j := by
        by_contra hle
        have hend : next = w.arrived j := le_antisymm hs.next_le (not_lt.mp hle)
        rw [hend, between_self] at hqueued
        cases hqueued
      rw [between_cons hlt] at hqueued
      obtain ⟨rfl, hblock⟩ := List.cons.inj hqueued
      obtain ⟨last', hs'⟩ := hs.applySeq (w := w') rfl rfl rfl rfl hblock hlt
      exact ⟨last', next + 1, hs'⟩
    · rw [numbers_cons_ne (Ne.symm hij)] at hqueued
      have hs' : Settled w' j last next :=
        hs.same ⟨rfl, rfl, rfl, rfl, rfl, hqueued.trans hs.queued.symm, rfl⟩
      exact ⟨last, next, hs'.same (applySeq_same hij n)⟩
  · exact absurd (hopen.symm.trans (hgate.symm.trans hc)) nofun
  · exact absurd (hphase.symm.trans (hphase'.symm.trans hdone)) nofun

omit [Fintype ι] in
theorem Inv.closeGate (h : Inv w) : Inv w.closeGate := by
  unfold World.closeGate
  split
  · rename_i hphase hqueue
    have hadopt := h.adopted hphase
    refine ⟨h.wf.of_eq rfl rfl rfl rfl (fun _ hl => hl) rfl h.wf.down_queue,
      .inr ⟨hadopt.phase, fun i => ?_, fun _ => hqueue, fun _ => rfl, hadopt.up⟩⟩
    obtain ⟨last, next, hs⟩ := hadopt.settled i
    exact ⟨last, next, hs.same ⟨rfl, rfl, rfl, rfl, rfl, rfl, rfl⟩⟩
  · exact h

omit [Fintype ι] in
theorem Inv.probeFresh (h : Inv w) (i : ι) : Inv (w.probeFresh i) := by
  unfold World.probeFresh
  split
  · rename_i hphase _
    exact ⟨h.wf.of_eq rfl rfl rfl rfl (fun _ hl => hl) rfl h.wf.down_queue,
      .inr ((h.adopted hphase).of_same (fun _ => ⟨rfl, rfl, rfl, rfl, rfl, rfl, rfl⟩) rfl rfl rfl
        rfl)⟩
  · exact h

omit [Fintype ι] in
/-- A head that the state covers. -/
theorem Inv.seedFresh {advertised : Bool} (h : Inv w) (i : ι)
    (hfit : Fit advertised w (.seedFresh i)) : Inv (w.seedFresh i) := by
  unfold World.seedFresh
  split
  swap
  · exact h
  rename_i head hphase hfresh
  have hadopt := h.adopted hphase
  refine ⟨h.wf.of_eq rfl rfl rfl rfl (fun _ hl => hl) rfl h.wf.down_queue,
    .inr ⟨hadopt.phase, fun j => ?_, hadopt.closed, hadopt.done, hadopt.up⟩⟩
  obtain ⟨last, next, hs⟩ := hadopt.settled j
  refine ⟨last, next, ?_⟩
  by_cases hij : j = i
  · subst hij
    have hle : head ≤ last := by
      rcases hfit hphase head hfresh with rfl | hmem
      · exact Nat.zero_le _
      · rw [← mem_numbers, hs.block, mem_between] at hmem
        exact hmem.2
    have hself : Function.update w.position j (max (w.position j) head) j =
        max (w.position j) head := Function.update_self _ _ _
    refine ⟨hs.listed, hs.block, hs.queued, hs.next_le, hs.next_le_last, hs.last_le,
      hself.le.trans (max_le hs.position_le hle), ?_⟩
    exact hs.covers.imp_left fun hc => (hc.trans (le_max_left _ _)).trans hself.ge
  · exact hs.same ⟨rfl, rfl, rfl, rfl, Function.update_of_ne hij _ _, rfl, rfl⟩

omit [Fintype ι] in
theorem Inv.finish (h : Inv w) : Inv w.finish := by
  unfold World.finish
  split
  · rename_i hphase hclosed
    have hadopt := h.adopted hphase
    refine ⟨h.wf.of_eq rfl rfl rfl rfl (fun _ hl => hl) rfl h.wf.down_queue,
      .inr ⟨.inr rfl, fun i => ?_, hadopt.closed, fun _ => hclosed, hadopt.up⟩⟩
    obtain ⟨last, next, hs⟩ := hadopt.settled i
    exact ⟨last, next, hs.same ⟨rfl, rfl, rfl, rfl, rfl, rfl, rfl⟩⟩
  · exact h

/-! ## Runs -/

theorem Inv.write (h : Inv w) (j : ι) : Inv (w.write j) := by
  refine ⟨h.wf.write j, ?_⟩
  rcases h.progress with ⟨since, hwait⟩ | hadopt
  · exact .inl (hwait.write j)
  · right
    refine ⟨?_, fun i => ?_, ?_, ?_, ?_⟩
    · rcases write_cases w j with heq | hwrote
      · rw [heq]
        exact hadopt.phase
      · rw [hwrote.phase]
        exact hadopt.phase
    · obtain ⟨last, next, hs⟩ := hadopt.settled i
      exact ⟨last, next, hs.write j⟩
    · rcases write_cases w j with heq | hwrote
      · rw [heq]
        exact hadopt.closed
      · rw [hwrote.gate, hwrote.queue]
        exact hadopt.closed
    · rcases write_cases w j with heq | hwrote
      · rw [heq]
        exact hadopt.done
      · rw [hwrote.gate, hwrote.phase]
        exact hadopt.done
    · rcases write_cases w j with heq | hwrote
      · rw [heq]
        exact hadopt.up
      · exact hwrote.up.trans hadopt.up

omit [Fintype ι] in
theorem Inv.deliver (h : Inv w) (i j : ι) : Inv (w.deliver i j) := by
  obtain ⟨hgate, hphase, hup, hanswer, hqueue⟩ := deliver_rest w i j
  refine ⟨h.wf.deliver i j, ?_⟩
  rcases h.progress with ⟨since, hwait⟩ | hadopt
  · exact .inl ⟨since, hwait.of_same (deliver_same w i j) hgate hphase hup hanswer
      (deliver_reached w i j)⟩
  · exact .inr (hadopt.of_same (deliver_same w i j) hgate hphase hup hqueue)

omit [Fintype ι] in
theorem Inv.release (h : Inv w) (i : ι) :
    Inv { w with held := Function.update w.held i false } := by
  refine ⟨h.wf.of_eq rfl rfl rfl rfl (fun _ hl => hl) rfl h.wf.down_queue, ?_⟩
  rcases h.progress with ⟨since, hwait⟩ | hadopt
  · exact .inl ⟨since, hwait.of_same (fun _ => ⟨rfl, rfl, rfl, rfl, rfl, rfl, rfl⟩) rfl rfl rfl rfl
      fun _ _ => le_refl _⟩
  · exact .inr (hadopt.of_same (fun _ => ⟨rfl, rfl, rfl, rfl, rfl, rfl, rfl⟩) rfl rfl rfl rfl)

theorem Inv.step {advertised : Bool} (h : Inv w) {e : Event ι} (hfit : Fit advertised w e) :
    Inv (step advertised w e) := by
  cases e with
  | write i => exact h.write i
  | deliver i j => exact h.deliver i j
  | arrive i => exact h.arrive i
  | lose i => exact h.lose i
  | start => exact h.start
  | newRound => exact h.newRound
  | probe i => exact h.probe i
  | requestSync server => exact h.requestSync server
  | hold i => exact h.hold advertised i
  | unreachable i => exact h.unreachable i
  | release i => exact h.release i
  | capture room => exact h.capture hfit
  | send => exact h.send
  | abort => exact h.abort
  | replay => exact h.replay hfit
  | drain => exact h.drain
  | closeGate => exact h.closeGate
  | probeFresh i => exact h.probeFresh i
  | seedFresh i => exact h.seedFresh i hfit
  | finish => exact h.finish

omit [Fintype ι] in
theorem inv_start (static : ι → Bool) : Inv ({ listed := static } : World ι) := by
  refine ⟨⟨fun _ _ => rfl, fun _ => Finset.notMem_empty _, fun i hi => ?_, nofun,
    fun _ => le_refl _, fun _ => rfl⟩, .inl ⟨fun _ => 0, fun _ => ?_, rfl, fun _ => rfl, trivial⟩⟩
  · exact absurd ⟨rfl, rfl⟩ hi
  · exact ⟨le_refl _, rfl, fun _ => rfl⟩

omit [Fintype ι] in
theorem Inv.appliedOnce (h : Inv w) (hjoined : w.phase = .joined) : AppliedOnce w := by
  intro i
  rcases h.progress with ⟨since, hwait⟩ | hadopt
  · have hfalse := hwait.phase
    rw [hjoined] at hfalse
    exact hfalse.elim
  · obtain ⟨last, next, hs⟩ := hadopt.settled i
    have hempty := hs.queued
    rw [hadopt.closed (hadopt.done hjoined), numbers_nil] at hempty
    refine ⟨last, (between_eq_nil hempty.symm).trans hs.next_le_last, hs.last_le, ?_⟩
    rw [hs.block, between, Nat.sub_zero]

/-- Once `bootstrap_sync` has adopted a dump and the gate is closed, the joiner has
every write once, in every run whose captures, replays and late heads fit. -/
theorem join_applies_once (static : ι → Bool) (advertised : Bool) (events : List (Event ι))
    (hfit : ∀ done e, done ++ [e] <+: events → Fit advertised (run static advertised done) e) :
    ∀ done, done <+: events → (run static advertised done).phase = .joined →
      AppliedOnce (run static advertised done) := by
  intro done hdone hjoined
  have hinv : Inv (run static advertised done) :=
    Lib.Run.inv_of_fit (inv_start static) (fun _ _ h hf => h.step hf) hfit hdone
  exact hinv.appliedOnce hjoined

/-- A mesh of one node that registers the joiner when it serves the dump. -/
theorem join_applies_once_registered :
    (run (fun _ : Unit => false) true [.start, .write (), .probe (), .requestSync (),
      .capture true, .send, .write (), .arrive (), .replay, .drain, .closeGate, .probeFresh (),
      .seedFresh (), .finish]).phase = .joined ∧
    AppliedOnce (run (fun _ : Unit => false) true [.start, .write (), .probe (), .requestSync (),
      .capture true, .send, .write (), .arrive (), .replay, .drain, .closeGate, .probeFresh (),
      .seedFresh (), .finish]) := by
  refine ⟨rfl, join_applies_once _ _ _ (Lib.Run.Fits.at_prefix ?_) _ (List.prefix_refl _) rfl⟩
  refine ⟨trivial, trivial, trivial, trivial, fun server hphase => ?_, trivial, trivial, trivial,
    fun dump hphase i n hcomes hdump => ?_, trivial, trivial, trivial, fun hphase head hfresh => ?_,
    trivial, trivial⟩
  · exact ⟨rfl, fun i hi => absurd rfl hi⟩
  · obtain rfl : [((), 1)] = dump := Phase.received.inj hphase
    obtain rfl : n = 1 := congrArg Prod.snd (List.mem_singleton.mp hdump)
    exact le_refl 1
  · obtain rfl : 2 = head := Option.some.inj hfresh
    exact .inr (by decide)

/-- A node that always had the joiner among its peers sends it a write after the probe:
the write is queued, captured with the dump, and applied twice. -/
theorem static_peer_write_applied_twice :
    ¬ ∀ (static : Unit → Bool) (advertised : Bool) (events : List (Event Unit)),
      (run static advertised events).phase = .joined →
        AppliedOnce (run static advertised events) := by
  intro h
  obtain ⟨last, -, hle, hblock⟩ := h (fun _ => true) true [.start, .probe (), .write (),
    .arrive (), .requestSync (), .capture true, .send, .replay, .drain, .closeGate, .finish] rfl ()
  have hlen := congrArg List.length hblock
  rw [List.length_range'] at hlen
  obtain rfl : 2 = last := hlen
  exact absurd hle (by decide)

end World

end Docsql.Cluster.Join
