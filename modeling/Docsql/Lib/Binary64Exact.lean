import Docsql.Lib.Binary64

/-!
# Integers that a double holds

Rounding keeps a number of at most 53 significant bits, so sums of small integers are exact.
-/

namespace Binary64

/-- The double nearest to `z * 2 ^ (-1074)`. -/
def roundScaled (z : ℤ) : Binary64 := if z = 0 then zero else roundMag (decide (z < 0)) z.natAbs

theorem mag_roundMag_of_dvd {neg : Bool} {n : ℕ} (hn : 2 ^ 52 ≤ n)
    (hlog : Nat.log 2 n < 2098) (hdvd : 2 ^ (Nat.log 2 n - 52) ∣ n) :
    (roundMag neg n).mag = n := by
  have hne : n ≠ 0 := by
    have : 0 < 2 ^ 52 := by norm_num
    omega
  have h52 : 52 ≤ Nat.log 2 n := (Nat.le_log_iff_pow_le (by norm_num) hne).mpr hn
  generalize he : Nat.log 2 n - 52 = e at hdvd
  obtain ⟨q, hq⟩ := hdvd
  have hpos : 0 < 2 ^ e := by positivity
  have hdiv : n / 2 ^ e = q := by rw [hq, Nat.mul_div_cancel_left q hpos]
  have hmod : n % 2 ^ e = 0 := by rw [hq, Nat.mul_mod_right]
  have hqlt : q < 2 ^ 53 := by
    apply Nat.lt_of_mul_lt_mul_left (a := 2 ^ e)
    rw [← hq, ← pow_add, show e + 53 = Nat.log 2 n + 1 by omega]
    exact Nat.lt_pow_succ_log_self (by norm_num) n
  have hqge : 2 ^ 52 ≤ q := by
    apply Nat.le_of_mul_le_mul_left _ hpos
    rw [← hq, ← pow_add, show e + 52 = Nat.log 2 n by omega]
    exact Nat.pow_log_le_self 2 hne
  have hup : ¬(2 * 0 > 2 ^ e ∨ 2 * 0 = 2 ^ e ∧ q % 2 = 1) := by omega
  unfold roundMag
  rw [if_neg (not_lt.mpr hn)]
  simp only [he, hdiv, hmod, if_neg hup, if_neg hqlt.ne]
  rw [if_neg (by omega), mag_ofFields (by omega) (by omega), if_neg (Nat.succ_ne_zero e),
    Nat.sub_add_cancel hqge, Nat.add_sub_cancel, Nat.mul_comm, ← hq]

theorem log_mul_two_pow {m : ℕ} (hm : m ≠ 0) (k : ℕ) :
    Nat.log 2 (m * 2 ^ k) = Nat.log 2 m + k := by
  induction k with
  | zero => rw [pow_zero, Nat.mul_one, Nat.add_zero]
  | succ k ih =>
    rw [pow_succ, ← Nat.mul_assoc, Nat.log_mul_base (by norm_num) (by positivity), ih,
      Nat.add_assoc]

/-- An integer of at most 53 bits. -/
theorem scaled_roundScaled {z : ℤ} (hz : |z| ≤ 2 ^ 53) :
    (roundScaled (z * 2 ^ 1074)).scaled = z * 2 ^ 1074 := by
  have hpow : (0 : ℤ) < 2 ^ 1074 := by positivity
  generalize hk : (1074 : ℕ) = k at hpow ⊢
  unfold roundScaled
  split_ifs with hzero
  · rw [scaled_zero, hzero]
  · have hz0 : z ≠ 0 := fun h => hzero (by rw [h, Int.zero_mul])
    have habs : (z * 2 ^ k).natAbs = z.natAbs * 2 ^ k := by
      rw [Int.natAbs_mul, Int.natAbs_pow]
      rfl
    have hm : z.natAbs ≠ 0 := Int.natAbs_ne_zero.mpr hz0
    have hle : z.natAbs ≤ 2 ^ 53 := by
      zify
      exact hz
    have hlog := log_mul_two_pow hm k
    have hlogm : Nat.log 2 z.natAbs ≤ 53 :=
      (Nat.log_mono_right hle).trans (Nat.log_pow (by norm_num) 53).le
    have hmag : (roundMag (decide (z * 2 ^ k < 0)) (z * 2 ^ k).natAbs).mag =
        z.natAbs * 2 ^ k := by
      rw [habs]
      apply mag_roundMag_of_dvd
      · calc 2 ^ 52 ≤ 2 ^ k := Nat.pow_le_pow_right (by norm_num) (by omega)
          _ ≤ z.natAbs * 2 ^ k := Nat.le_mul_of_pos_left _ (Nat.pos_of_ne_zero hm)
      · omega
      · rw [hlog]
        rcases hlogm.eq_or_lt with h53 | hlt
        · have heq : z.natAbs = 2 ^ 53 :=
            hle.antisymm (h53 ▸ Nat.pow_log_le_self 2 hm)
          rw [heq, Nat.log_pow (by norm_num), ← pow_add]
          exact pow_dvd_pow 2 (by omega)
        · exact (pow_dvd_pow 2 (by omega)).trans (Nat.dvd_mul_left _ _)
    unfold scaled
    rw [isSignNegative_roundMag, hmag]
    have hcast : ((z.natAbs * 2 ^ k : ℕ) : ℤ) = |z| * 2 ^ k := by
      push_cast
      rfl
    rw [hcast]
    rcases lt_or_gt_of_ne hz0 with hneg | hpos
    · rw [if_pos (by simpa using Int.mul_neg_of_neg_of_pos hneg hpow), abs_of_neg hneg]
      ring
    · rw [if_neg (by simpa using (Int.mul_pos hpos hpow).le), abs_of_pos hpos]

/-- The double nearest to an integer. -/
def ofInt (z : ℤ) : Binary64 := roundScaled (z * 2 ^ 1074)

theorem ofInt_zero : ofInt 0 = zero := by
  unfold ofInt roundScaled
  exact if_pos (Int.zero_mul _)

theorem roundScaled_add {a b : ℤ} (ha : |a| ≤ 2 ^ 53) (hb : |b| ≤ 2 ^ 53) :
    roundScaled ((ofInt a).scaled + (ofInt b).scaled) = ofInt (a + b) := by
  unfold ofInt
  rw [scaled_roundScaled ha, scaled_roundScaled hb, ← Int.add_mul]

theorem roundScaled_sub {a b : ℤ} (ha : |a| ≤ 2 ^ 53) (hb : |b| ≤ 2 ^ 53) :
    roundScaled ((ofInt a).scaled - (ofInt b).scaled) = ofInt (a - b) := by
  unfold ofInt
  rw [scaled_roundScaled ha, scaled_roundScaled hb, ← Int.sub_mul]

end Binary64
