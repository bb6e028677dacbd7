import Docsql.Window.FrameBounds

/-!
# Peer groups

The layout of a partition in runs of peers, and the frames that count rows or groups.
-/

namespace Docsql.Window

open Scalar (Eval Library)
open Lib

namespace Partition

variable {P : Partition} {p q r : ℕ}

/-! ## Runs of peers -/

theorem peers_self (P : Partition) (p : ℕ) : P.peers p p = true := by
  unfold peers
  split_ifs
  · exact decide_eq_true rfl
  · rw [cmpKeys_self]
    rfl

/-- Peers have the same peers. -/
theorem peers_of_peers (h : P.peers p q = true) (hp : p < P.n) (hq : q < P.n) (hr : r < P.n) :
    P.peers p r = P.peers q r := by
  unfold peers at h ⊢
  split_ifs at h ⊢
  · rw [of_decide_eq_true h]
  · rw [(cmpKeys_triangle P.order (key_length hp) (key_length hq) (key_length hr)).left
      (of_decide_eq_true h)]

/-- The run of `p` reaches from `q` to where the peers change. -/
theorem runEnd_spec (hp : p < P.n) (hq : q < P.n) (hpeers : P.peers p q = true) :
    P.runEnd p q < P.n ∧ (∀ r, q ≤ r → r < P.runEnd p q → P.peers r (r + 1) = true) ∧
      (P.runEnd p q + 1 < P.n →
        P.peers (P.runEnd p q) (P.runEnd p q + 1) = false) := by
  fun_induction runEnd P p q with
  | case1 q hnext ih =>
    obtain ⟨hlast, hsame, hchange⟩ := ih hnext.1 hnext.2
    refine ⟨hlast, fun r hle hlt => ?_, hchange⟩
    rcases hle.eq_or_lt with rfl | hlt'
    · rw [← peers_of_peers hpeers hp hq hnext.1]
      exact hnext.2
    · exact hsame r hlt' hlt
  | case2 q hnext =>
    refine ⟨hq, fun r hle hlt => absurd hlt (not_lt.mpr hle), fun hlast => ?_⟩
    rw [← peers_of_peers hpeers hp hq hlast]
    exact Bool.eq_false_iff.mpr fun h => hnext ⟨hlast, h⟩

/-! ## Numbers of groups -/

theorem groupNumber_zero (P : Partition) : P.groupNumber 0 = 0 := rfl

theorem groupNumber_succ (P : Partition) (p : ℕ) :
    P.groupNumber (p + 1) = P.groupNumber p + if P.peers p (p + 1) then 0 else 1 := by
  unfold groupNumber
  rw [List.range_succ, List.filter_append, List.length_append, List.filter_singleton]
  cases P.peers p (p + 1) <;> rfl

theorem groupNumber_mono (P : Partition) : Monotone P.groupNumber :=
  monotone_nat_of_le_succ fun p => by
    rw [groupNumber_succ]
    exact Nat.le_add_right _ _

/-- One number along a run. -/
theorem groupNumber_run {e : ℕ} (hsame : ∀ r, p ≤ r → r < e → P.peers r (r + 1) = true)
    (hpq : p ≤ q) (hqe : q ≤ e) : P.groupNumber q = P.groupNumber p := by
  induction q, hpq using Nat.le_induction with
  | base => rfl
  | succ q hpq ih =>
    rw [groupNumber_succ, hsame q hpq hqe, if_pos rfl, Nat.add_zero]
    exact ih (Nat.le_of_succ_le hqe)

/-- The spans from `p` on are the groups from the one of `p` on. -/
theorem spansFrom_spec (hp : p ≤ P.n) :
    (∀ i s, (P.spansFrom p)[i]? = some s → p ≤ s.1 ∧ s.1 ≤ s.2 ∧ s.2 < P.n ∧
      ∀ q, p ≤ q → q < P.n →
        ((s.1 ≤ q ∧ q ≤ s.2) ↔ P.groupNumber q = P.groupNumber p + i)) ∧
      (p < P.n → P.groupNumber p + (P.spansFrom p).length = P.groupNumber (P.n - 1) + 1) := by
  induction hlen : P.n - p using Nat.strong_induction_on generalizing p with
  | _ w ih =>
    rw [spansFrom]
    split_ifs with hlt
    · obtain ⟨hlast, hsame, hchange⟩ := runEnd_spec hlt hlt (P.peers_self p)
      have hle := P.le_runEnd p p
      generalize P.runEnd p p = e at hlast hsame hchange hle ⊢
      have hrun : ∀ q, p ≤ q → q ≤ e → P.groupNumber q = P.groupNumber p :=
        fun q => groupNumber_run hsame
      have hnext : e + 1 < P.n → P.groupNumber (e + 1) = P.groupNumber p + 1 := by
        intro h
        rw [groupNumber_succ, hchange h, hrun e hle le_rfl]
        rfl
      obtain ⟨hspans, hcount⟩ := ih (P.n - (e + 1)) (by omega) (show e + 1 ≤ P.n from hlast) rfl
      have hlater : ∀ q, e < q → q < P.n → P.groupNumber p + 1 ≤ P.groupNumber q := by
        intro q heq hq
        rw [← hnext (by omega)]
        exact P.groupNumber_mono heq
      refine ⟨fun i s hs => ?_, fun _ => ?_⟩
      · cases i with
        | zero =>
          obtain rfl := Option.some.inj hs
          refine ⟨le_rfl, hle, hlast, fun q hpq hq => ⟨fun h => hrun q hpq h.2, fun h => ?_⟩⟩
          refine ⟨hpq, ?_⟩
          by_contra hqe
          have := hlater q (not_le.mp hqe) hq
          omega
        | succ i =>
          rw [List.getElem?_cons_succ] at hs
          have hmore : e + 1 < P.n := by
            by_contra hend
            rw [spansFrom, if_neg hend] at hs
            cases hs
          obtain ⟨hbegin, hspan, hstop, hmem⟩ := hspans i s hs
          refine ⟨by omega, hspan, hstop, fun q hpq hq => ?_⟩
          by_cases hqe : q ≤ e
          · rw [hrun q hpq hqe]
            omega
          · rw [hmem q (by omega) hq, hnext hmore]
            omega
      · rw [List.length_cons]
        by_cases hmore : e + 1 < P.n
        · have hrest := hcount hmore
          have hfirst := hnext hmore
          omega
        · rw [spansFrom, if_neg hmore, List.length_nil, ← hrun e hle le_rfl,
            show P.n - 1 = e by omega]
    · exact ⟨fun i s hs => (by cases hs), fun h => absurd h hlt⟩

/-- The span of a group. -/
theorem span_of_group {g : ℕ} (hg : g ≤ P.groupNumber (P.n - 1)) :
    ∃ s, P.groupSpans[g]? = some s ∧ s.1 ≤ s.2 ∧ s.2 < P.n ∧
      ∀ q < P.n, (s.1 ≤ q ∧ q ≤ s.2) ↔ P.groupNumber q = g := by
  obtain ⟨hspans, hcount⟩ := @spansFrom_spec P 0 (Nat.zero_le _)
  have hlen := hcount P.n_pos
  rw [groupNumber_zero, Nat.zero_add] at hlen
  have hs := List.getElem?_eq_getElem (show g < P.groupSpans.length by
    rw [groupSpans]
    omega)
  obtain ⟨-, hle, hlt, hmem⟩ := hspans g _ hs
  refine ⟨_, hs, hle, hlt, fun q hq => ?_⟩
  rw [hmem q (Nat.zero_le q) hq, groupNumber_zero, Nat.zero_add]

theorem length_groupSpans (P : Partition) :
    P.groupSpans.length = P.groupNumber (P.n - 1) + 1 := by
  have hlen := (@spansFrom_spec P 0 (Nat.zero_le _)).2 P.n_pos
  rwa [groupNumber_zero, Nat.zero_add] at hlen

/-- `group_of` is the number of the group. -/
theorem groupOf_eq (hp : p < P.n) : P.groupOf p = P.groupNumber p := by
  have hlast : P.groupNumber p ≤ P.groupNumber (P.n - 1) := P.groupNumber_mono (by omega)
  obtain ⟨s, hs, -, -, hmem⟩ := span_of_group hlast
  obtain ⟨hlt, hget⟩ := List.getElem?_eq_some_iff.mp hs
  unfold groupOf
  rw [List.findIdx_eq hlt]
  refine ⟨?_, fun j hj => ?_⟩
  · rw [hget]
    simpa using (hmem p hp).mpr rfl
  · obtain ⟨t, ht, -, -, hmemt⟩ := span_of_group (hj.le.trans hlast)
    obtain ⟨hlt', hget'⟩ := List.getElem?_eq_some_iff.mp ht
    rw [hget']
    by_contra hin
    have hin' : t.1 ≤ p ∧ p ≤ t.2 := by simpa using hin
    exact hj.ne ((hmemt p hp).mp hin').symm

/-- The positions between two groups, both included. -/
theorem mem_spans {low high : ℕ} (hlow : low ≤ P.groupNumber (P.n - 1))
    (hhigh : high ≤ P.groupNumber (P.n - 1)) :
    ((P.groupSpans[low]?.map Prod.fst).getD P.n ≤ q ∧
      q ≤ (P.groupSpans[high]?.map Prod.snd).getD 0) ↔
        q < P.n ∧ low ≤ P.groupNumber q ∧ P.groupNumber q ≤ high := by
  obtain ⟨s, hs, hsle, hslt, hsmem⟩ := span_of_group hlow
  obtain ⟨t, ht, htle, htlt, htmem⟩ := span_of_group hhigh
  rw [hs, ht]
  simp only [Option.map_some, Option.getD_some]
  have hfirst : P.groupNumber s.1 = low := (hsmem s.1 (by omega)).mp ⟨le_rfl, hsle⟩
  have hlast : P.groupNumber t.2 = high := (htmem t.2 htlt).mp ⟨htle, le_rfl⟩
  constructor
  · rintro ⟨hsq, hqt⟩
    exact ⟨hqt.trans_lt htlt, hfirst ▸ P.groupNumber_mono hsq, hlast ▸ P.groupNumber_mono hqt⟩
  · rintro ⟨hq, hlq, hqh⟩
    constructor
    · by_contra hlt
      have hle := P.groupNumber_mono (not_le.mp hlt).le
      have hin := (hsmem q hq).mpr (by omega)
      omega
    · by_contra hlt
      have hle := P.groupNumber_mono (not_le.mp hlt).le
      have hin := (htmem q hq).mpr (by omega)
      omega

end Partition

/-! ## Counting bounds -/

section Counting

variable {start stop : FrameRowBound} {p last : ℕ}

/-- A start that is not after its end, as the clause is checked. -/
structure Ordered (start stop : FrameRowBound) : Prop where
  begins : start ≠ .unboundedFollowing
  ends : stop ≠ .unbounded
  placed : misplaced (fun a b => decide (a < b)) start stop = false

theorem Ordered.offsets (h : Ordered start stop) : start.rank ≤ stop.rank ∧
    (∀ a b, start = .preceding a → stop = .preceding b → b ≤ a) ∧
      ∀ a b, start = .following a → stop = .following b → a ≤ b := by
  have hplaced := h.placed
  unfold misplaced at hplaced
  rw [Bool.or_eq_false_iff] at hplaced
  refine ⟨not_lt.mp (of_decide_eq_false hplaced.1), ?_, ?_⟩
  · rintro a b rfl rfl
    simpa using hplaced.2
  · rintro a b rfl rfl
    simpa using hplaced.2

/-- A frame of counted positions is empty exactly where a bound leaves the partition. -/
theorem counted_nonempty_iff (h : Ordered start stop) (hp : p ≤ last) :
    (∃ q ≤ last, startsBy start p q ∧ endsBy stop p q) ↔ InsidePartition start stop p last := by
  obtain ⟨hrank, hprec, hfoll⟩ := h.offsets
  constructor
  · rintro ⟨q, hq, hs, he⟩
    constructor
    · rintro k rfl
      simp only [endsBy] at he
      omega
    · rintro k rfl
      simp only [startsBy] at hs
      omega
  · rintro ⟨hstop, hstart⟩
    cases start with
    | unboundedFollowing => exact absurd rfl h.begins
    | unbounded =>
      cases stop with
      | unbounded => exact absurd rfl h.ends
      | preceding b =>
        have hb := hstop b rfl
        exact ⟨0, Nat.zero_le _, trivial, by simp only [endsBy]; omega⟩
      | _ => exact ⟨p, hp, trivial, by simp [endsBy]⟩
    | preceding a =>
      cases stop with
      | unbounded => exact absurd rfl h.ends
      | preceding b =>
        have hb := hstop b rfl
        have hab := hprec a b rfl rfl
        exact ⟨p - b, by omega, by simp only [startsBy]; omega, by simp only [endsBy]; omega⟩
      | _ => exact ⟨p, hp, by simp [startsBy], by simp [endsBy]⟩
    | currentRow =>
      cases stop with
      | unbounded => exact absurd rfl h.ends
      | preceding b => simp [FrameBound.rank] at hrank
      | _ => exact ⟨p, hp, by simp [startsBy], by simp [endsBy]⟩
    | following a =>
      have ha := hstart a rfl
      cases stop with
      | unbounded => exact absurd rfl h.ends
      | preceding b => simp [FrameBound.rank] at hrank
      | currentRow => simp [FrameBound.rank] at hrank
      | following b =>
        have hab := hfoll a b rfl rfl
        exact ⟨p + a, ha, by simp [startsBy], by simp only [endsBy]; omega⟩
      | unboundedFollowing => exact ⟨p + a, ha, by simp [startsBy], trivial⟩

end Counting

namespace Partition

variable {P : Partition} {start stop : FrameRowBound} {p q : ℕ}

theorem rows_row (h : Ordered start stop) (hp : p < P.n)
    (hin : InsidePartition start stop p (P.n - 1)) :
    ((P.rowsBounds start stop p).1 ≤ q ∧ q ≤ (P.rowsBounds start stop p).2) ↔
      q < P.n ∧ startsBy start p q ∧ endsBy stop p q := by
  obtain ⟨hstop, hstart⟩ := hin
  have hlo : q < P.n → ((P.rowsBounds start stop p).1 ≤ q ↔ startsBy start p q) := by
    intro hq
    cases start with
    | unboundedFollowing => exact absurd rfl h.begins
    | unbounded => exact iff_of_true (Nat.zero_le q) trivial
    | _ =>
      simp only [rowsBounds, startsBy]
      omega
  have hhi : q ≤ (P.rowsBounds start stop p).2 ↔ q < P.n ∧ endsBy stop p q := by
    cases stop with
    | unbounded => exact absurd rfl h.ends
    | preceding k =>
      have hk := hstop k rfl
      simp only [rowsBounds, endsBy]
      omega
    | unboundedFollowing =>
      simp only [rowsBounds, endsBy, and_true]
      omega
    | _ =>
      simp only [rowsBounds, endsBy]
      omega
  rw [hhi]
  constructor
  · rintro ⟨hs, hq, he⟩
    exact ⟨hq, (hlo hq).mp hs, he⟩
  · rintro ⟨hq, hs, he⟩
    exact ⟨(hlo hq).mpr hs, hq, he⟩

theorem groups_row (h : Ordered start stop) (hp : p < P.n)
    (hin : InsidePartition start stop (P.groupNumber p) (P.groupNumber (P.n - 1))) :
    ((P.groupsBounds start stop p).1 ≤ q ∧ q ≤ (P.groupsBounds start stop p).2) ↔
      q < P.n ∧ startsBy start (P.groupNumber p) (P.groupNumber q) ∧
        endsBy stop (P.groupNumber p) (P.groupNumber q) := by
  obtain ⟨hstop, hstart⟩ := hin
  have hgp : P.groupNumber p ≤ P.groupNumber (P.n - 1) := P.groupNumber_mono (by omega)
  have hinside : ∀ bound, groupPosition bound (P.groupNumber p) P.groupSpans.length ≤
      P.groupNumber (P.n - 1) := by
    intro bound
    rw [length_groupSpans]
    cases bound <;> simp only [groupPosition] <;> omega
  unfold groupsBounds
  dsimp only
  rw [groupOf_eq hp, mem_spans (hinside start) (hinside stop), length_groupSpans]
  refine and_congr_right fun hq => and_congr ?_ ?_
  · cases start with
    | unboundedFollowing => exact absurd rfl h.begins
    | following k =>
      have hk := hstart k rfl
      simp only [groupPosition, startsBy]
      omega
    | unbounded => exact iff_of_true (Nat.zero_le _) trivial
    | _ =>
      simp only [groupPosition, startsBy]
      omega
  · have hgq : P.groupNumber q ≤ P.groupNumber (P.n - 1) := P.groupNumber_mono (by omega)
    cases stop with
    | unbounded => exact absurd rfl h.ends
    | preceding k =>
      have hk := hstop k rfl
      simp only [groupPosition, endsBy]
      omega
    | unboundedFollowing => exact iff_of_true hgq trivial
    | _ =>
      simp only [groupPosition, endsBy]
      omega

end Partition

end Docsql.Window
