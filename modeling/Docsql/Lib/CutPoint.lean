import Mathlib.Tactic

/-!
# Cut points

A property of the positions below a length that, once it holds, holds from there on is known
from the first position with it.  Bisection finds it; two of them bound an interval.
-/

namespace Docsql.Lib

/-- The positions with the property are those from `c` on. -/
structure IsCut (n : ℕ) (P : ℕ → Prop) (c : ℕ) : Prop where
  le : c ≤ n
  iff : ∀ q < n, P q ↔ c ≤ q

/-- What holds at one position holds at the later ones. -/
def Lasting (n : ℕ) (P : ℕ → Prop) : Prop := ∀ p q, p ≤ q → q < n → P p → P q

namespace IsCut

variable {n a b c d : ℕ} {P Q : ℕ → Prop}

theorem all : IsCut n (fun _ => True) 0 := ⟨Nat.zero_le n, fun q _ => by simp⟩

theorem last (h : 0 < n) : IsCut n (fun q => q = n - 1) (n - 1) :=
  ⟨Nat.sub_le n 1, fun q hq => by omega⟩

theorem congr (h : IsCut n P c) (hPQ : ∀ q < n, P q ↔ Q q) : IsCut n Q c :=
  ⟨h.le, fun q hq => (hPQ q hq).symm.trans (h.iff q hq)⟩

theorem exists_of_lasting (h : Lasting n P) : ∃ c, IsCut n P c := by
  classical
  by_cases hsome : ∃ q, q < n ∧ P q
  · refine ⟨Nat.find hsome, (Nat.find_spec hsome).1.le, fun q hq => ⟨fun hP => ?_, fun hle => ?_⟩⟩
    · exact Nat.find_le ⟨hq, hP⟩
    · exact h _ q hle hq (Nat.find_spec hsome).2
  · refine ⟨n, le_rfl, fun q hq => ⟨fun hP => ?_, fun hle => ?_⟩⟩
    · exact absurd ⟨q, hq, hP⟩ hsome
    · omega

/-- More positions, an earlier cut. -/
theorem le_of_imp (hP : IsCut n P a) (hQ : IsCut n Q b) (h : ∀ q < n, P q → Q q) : b ≤ a := by
  by_contra hlt
  have hn : a < n := (not_le.mp hlt).trans_le hQ.le
  have hle := (hQ.iff a hn).mp (h a hn ((hP.iff a hn).mpr le_rfl))
  omega

theorem imp_of_le (hP : IsCut n P a) (hQ : IsCut n Q b) (h : b ≤ a) : ∀ q < n, P q → Q q :=
  fun q hq hp => (hQ.iff q hq).mpr (h.trans ((hP.iff q hq).mp hp))

/-- An interval that is not empty is given by its two cuts only. -/
theorem interval_eq_iff {start stop start' stop' : ℕ → Prop} (hc : IsCut n start c)
    (hd : IsCut n stop d) (ha : IsCut n start' a) (hb : IsCut n stop' b)
    (hsome : ∃ q < n, start' q ∧ ¬stop' q) :
    (∀ q, (c ≤ q ∧ q < d) ↔ q < n ∧ start' q ∧ ¬stop' q) ↔
      (∀ q < n, start q ↔ start' q) ∧ ∀ q < n, stop q ↔ stop' q := by
  obtain ⟨r, hr, hstart, hstop⟩ := hsome
  have har := (ha.iff r hr).mp hstart
  have hrb : r < b := not_le.mp fun hle => hstop ((hb.iff r hr).mpr hle)
  have hin : ∀ q, (q < n ∧ start' q ∧ ¬stop' q) ↔ a ≤ q ∧ q < b := by
    intro q
    constructor
    · rintro ⟨hq, hs, he⟩
      exact ⟨(ha.iff q hq).mp hs, not_le.mp fun hle => he ((hb.iff q hq).mpr hle)⟩
    · rintro ⟨hle, hlt⟩
      have hq := hlt.trans_le hb.le
      exact ⟨hq, (ha.iff q hq).mpr hle, fun he => absurd ((hb.iff q hq).mp he) (not_le.mpr hlt)⟩
  constructor
  · intro h
    have hsame : ∀ q, (c ≤ q ∧ q < d) ↔ a ≤ q ∧ q < b := fun q => (h q).trans (hin q)
    have hr' := (hsame r).mpr ⟨har, hrb⟩
    have hca : c = a := by
      have hleft := (hsame a).mpr ⟨le_rfl, har.trans_lt hrb⟩
      have hright := (hsame c).mp ⟨le_rfl, hr'.1.trans_lt hr'.2⟩
      omega
    have hdb : d = b := by
      have hleft := (hsame (b - 1)).mpr ⟨by omega, by omega⟩
      have hright := (hsame (d - 1)).mp ⟨by omega, by omega⟩
      omega
    subst hca hdb
    exact ⟨fun q hq => (hc.iff q hq).trans (ha.iff q hq).symm,
      fun q hq => (hd.iff q hq).trans (hb.iff q hq).symm⟩
  · rintro ⟨hstarts, hstops⟩ q
    have hca : c = a := le_antisymm (ha.le_of_imp hc fun q hq => (hstarts q hq).mpr)
      (hc.le_of_imp ha fun q hq => (hstarts q hq).mp)
    have hdb : d = b := le_antisymm (hb.le_of_imp hd fun q hq => (hstops q hq).mpr)
      (hd.le_of_imp hb fun q hq => (hstops q hq).mp)
    rw [hca, hdb]
    exact (hin q).symm

/-- An interval that is not empty begins and ends at its cuts. -/
theorem of_interval {start stop : ℕ → Prop} (hstart : Lasting n start) (hstop : Lasting n stop)
    (h : ∀ q, (a ≤ q ∧ q ≤ b) ↔ q < n ∧ start q ∧ ¬stop q) (hle : a ≤ b) :
    IsCut n start a ∧ IsCut n stop (b + 1) := by
  obtain ⟨ha, hsa, hea⟩ := (h a).mp ⟨le_rfl, hle⟩
  obtain ⟨hb, hsb, heb⟩ := (h b).mp ⟨hle, le_rfl⟩
  refine ⟨⟨ha.le, fun q hq => ⟨fun hs => ?_, fun haq => hstart a q haq hq hsa⟩⟩,
    ⟨hb, fun q hq => ⟨fun he => ?_, fun hbq => ?_⟩⟩⟩
  · by_contra hlt
    exact hlt ((h q).mpr ⟨hq, hs, fun he => hea (hstop q a (by omega) ha he)⟩).1
  · by_contra hlt
    exact heb (hstop q b (by omega) hb he)
  · by_contra he
    have := ((h q).mpr ⟨hq, hstart b q (by omega) hq hsb, he⟩).2
    omega

end IsCut

/-! ## Bisection -/

/-- The first position in `[lo, hi)` that passes. -/
def bisect (pass : ℕ → Bool) (lo hi : ℕ) : ℕ :=
  if lo < hi then
    let mid := lo + (hi - lo) / 2
    if pass mid then bisect pass lo mid else bisect pass (mid + 1) hi
  else lo
termination_by hi - lo

theorem bisect_isCut {n : ℕ} {pass : ℕ → Bool}
    (hlast : Lasting n fun q => pass q = true) {lo hi : ℕ}
    (hle : lo ≤ hi) (hn : hi ≤ n) (hlo : ∀ q < lo, pass q = false)
    (hhi : ∀ q, hi ≤ q → q < n → pass q = true) :
    IsCut n (fun q => pass q = true) (bisect pass lo hi) := by
  induction hwidth : hi - lo using Nat.strong_induction_on generalizing lo hi with
  | _ w ih =>
    rw [bisect]
    by_cases hlt : lo < hi
    · rw [if_pos hlt]
      dsimp only
      generalize hmid : lo + (hi - lo) / 2 = mid
      have hbelow : lo ≤ mid := by omega
      have habove : mid < hi := by omega
      split_ifs with hpass
      · exact ih _ (by omega) hbelow (by omega) hlo (fun q hle hq => hlast mid q hle hq hpass) rfl
      · refine ih _ (by omega) (by omega) hn (fun q hq => ?_) hhi rfl
        by_contra hq'
        exact hpass (hlast q mid (by omega) (by omega) (by simpa using hq'))
    · rw [if_neg hlt]
      refine ⟨by omega, fun q hq => ⟨fun h => ?_, fun h => hhi q (by omega) hq⟩⟩
      by_contra hq'
      rw [hlo q (by omega)] at h
      cases h

theorem bisect_all_isCut {n : ℕ} {pass : ℕ → Bool} (hlast : Lasting n fun q => pass q = true) :
    IsCut n (fun q => pass q = true) (bisect pass 0 n) :=
  bisect_isCut hlast (Nat.zero_le n) le_rfl (fun _ hq => absurd hq (Nat.not_lt_zero _))
    fun _ hle hq => absurd hq (not_lt.mpr hle)

end Docsql.Lib
