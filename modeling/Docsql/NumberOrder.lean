import Docsql.Value
import Docsql.Lib.Triangle
import Mathlib.Data.EReal.Basic
import Mathlib.Algebra.Order.Ring.Unbundled.Basic

/-!
# The order of numbers is exact

`cmp_values` compares an `Int`, a `Float` and a `Decimal` by a different
algorithm for each pair.  All of them are compared here with one integer, the
`key`: the number times `2 ^ 1074 * 10 ^ 28`, a common denominator of every
binary64 pattern and every decimal.
-/

namespace Docsql

/-- The three numeric representations. -/
inductive Number where
  | int (i : Int64)
  | float (f : Binary64)
  | decimal (d : Decimal)

namespace Number

def toValue : Number → Value
  | int i => .int i
  | float f => .float f
  | decimal d => .decimal d

/-- The mathematical value, with NaN above everything. -/
noncomputable def exact : Number → WithTop EReal
  | int i => (((i.toInt : ℝ) : EReal) : WithTop EReal)
  | float f =>
    if f.isNan then ⊤
    else if f.isInfinite then ((if f.isSignNegative then ⊥ else ⊤ : EReal) : WithTop EReal)
    else ((((f.scaled : ℝ) / 2 ^ 1074 : ℝ) : EReal) : WithTop EReal)
  | decimal d => ((((d.signed : ℝ) / 10 ^ d.scale : ℝ) : EReal) : WithTop EReal)

/-- The number over the common denominator; infinities are just outside the
range of the finite numbers. -/
def key : Number → WithTop ℤ
  | int i => ((i.toInt * 10 ^ 28 * 2 ^ 1074 : ℤ) : WithTop ℤ)
  | float f => if f.isNan then ⊤ else ((f.scaled * 10 ^ 28 : ℤ) : WithTop ℤ)
  | decimal d => ((d.signed * 10 ^ (28 - d.scale) * 2 ^ 1074 : ℤ) : WithTop ℤ)

end Number

/-! ## Comparisons of scaled integers -/

theorem compare_mul_pos {R : Type*} [Semiring R] [LinearOrder R] [IsStrictOrderedRing R]
    {a b c : R} (hc : 0 < c) : compare (a * c) (b * c) = compare a b := by
  rw [← cmp_eq_compare, ← cmp_eq_compare, cmp_mul_pos_right hc]

theorem compare_natCast (a b : ℕ) : compare (a : ℤ) (b : ℤ) = compare a b := by
  rw [← cmp_eq_compare, ← cmp_eq_compare]
  exact Int.natCast_strictMono.cmp_map_eq a b

theorem compare_neg (a b : ℤ) : compare (-a) (-b) = (compare a b).swap := by
  rw [← cmp_eq_compare, ← cmp_eq_compare, cmp_swap]
  rcases lt_trichotomy a b with h | h | h
  · rw [(neg_lt_neg h).cmp_eq_gt, h.cmp_eq_gt]
  · rw [h, cmp_self_eq_eq, cmp_self_eq_eq]
  · rw [(neg_lt_neg h).cmp_eq_lt, h.cmp_eq_lt]

theorem compare_coe (a b : ℤ) :
    compare (a : WithTop ℤ) (b : WithTop ℤ) = compare a b := by
  rw [← cmp_eq_compare, ← cmp_eq_compare]
  exact WithTop.coe_strictMono.cmp_map_eq a b

/-! ## Decimals against decimals and integers -/

theorem signed_ofInt (i : Int64) : (Decimal.ofInt i).signed = i.toInt := by
  by_cases h : i.toInt < 0
  · simp only [Decimal.signed, Decimal.ofInt, h, decide_true, if_true]
    omega
  · simp only [Decimal.signed, Decimal.ofInt, h, decide_false, Bool.false_eq_true, if_false]
    omega

theorem cmp_decimal (x y : Decimal) :
    x.cmp y = compare (x.signed * 10 ^ (28 - x.scale)) (y.signed * 10 ^ (28 - y.scale)) := by
  have hx : (10 : ℤ) ^ (28 - x.scale) * 10 ^ x.scale = 10 ^ 28 := by
    rw [← pow_add, Nat.sub_add_cancel x.scale_le]
  have hy : (10 : ℤ) ^ (28 - y.scale) * 10 ^ y.scale = 10 ^ 28 := by
    rw [← pow_add, Nat.sub_add_cancel y.scale_le]
  have hpos : (0 : ℤ) < 10 ^ x.scale * 10 ^ y.scale := by positivity
  rw [Decimal.cmp, ← compare_mul_pos (show (0 : ℤ) < 10 ^ 28 by norm_num),
    ← compare_mul_pos hpos (a := x.signed * _)]
  congr 1
  · rw [← hx]
    ring
  · rw [← hy]
    ring

/-! ## Integers against floats -/

theorem scaled_ofFields_1086 (neg : Bool) :
    (Binary64.ofFields neg 1086 0).scaled = (if neg then -2 ^ 63 else 2 ^ 63) * 2 ^ 1074 := by
  have hmag : (Binary64.ofFields neg 1086 0).mag = 2 ^ 63 * 2 ^ 1074 := by
    rw [Binary64.mag_ofFields (by norm_num) (by norm_num), if_neg (by norm_num), Nat.zero_add,
      ← pow_add, ← pow_add]
  rw [Binary64.scaled, Binary64.isSignNegative_ofFields (by norm_num) (by norm_num), hmag]
  cases neg
  · simp only [Bool.false_eq_true, if_false]
    push_cast
    rfl
  · simp only [if_true]
    push_cast
    rw [neg_mul]

theorem isNan_ofFields_zero (neg : Bool) {e : ℕ} (he : e < 2048) :
    (Binary64.ofFields neg e 0).isNan = false := by
  rw [Binary64.isNan, Binary64.frac_ofFields he (by norm_num)]
  simp

/-- The integer part decides unless it is equal. -/
theorem compare_mul_tdiv_of_lt {i n u : ℤ} (hu : 0 < u) (h : i < n.tdiv u) : i * u < n := by
  rcases le_total 0 n with hn | hn
  · have := (Binary64.tdiv_bounds_of_nonneg hu hn).1
    nlinarith
  · have := (Binary64.tdiv_bounds_of_nonpos hu hn).2
    nlinarith

theorem compare_mul_tdiv_of_gt {i n u : ℤ} (hu : 0 < u) (h : n.tdiv u < i) : n < i * u := by
  rcases le_total 0 n with hn | hn
  · have := (Binary64.tdiv_bounds_of_nonneg hu hn).2
    nlinarith
  · have := (Binary64.tdiv_bounds_of_nonpos hu hn).1
    nlinarith

section IntFloat

variable {f : Binary64}

/-- The range check of `cmp_int_f64` leaves only finite patterns. -/
theorem isFinite_of_abs_scaled_le (hnan : f.isNan = false) {k : ℕ} (hk : k < 1024)
    (hle : f.mag ≤ 2 ^ k * 2 ^ 1074) : f.isFinite = true := by
  rw [Binary64.isFinite_iff]
  refine ⟨hnan, ?_⟩
  by_contra hinf
  have hmag := Binary64.mag_of_isInfinite (by simpa using hinf)
  rw [hmag, ← pow_add] at hle
  have := (Nat.pow_le_pow_iff_right (by norm_num : 1 < 2)).mp hle
  omega

/-- The cast of the integer part is exact inside the `i64` range. -/
theorem toInt_toI64_trunc (hfin : f.isFinite = true)
    (hlow : -2 ^ 63 ≤ f.scaled.tdiv (2 ^ 1074)) (hhigh : f.scaled.tdiv (2 ^ 1074) < 2 ^ 63) :
    f.trunc.toI64.toInt = f.scaled.tdiv (2 ^ 1074) := by
  have hn : f.trunc.scaled.tdiv (2 ^ 1074) = f.scaled.tdiv (2 ^ 1074) := by
    rw [Binary64.scaled_trunc, Int.mul_tdiv_cancel _ (by positivity)]
  rw [Binary64.toI64, Binary64.isNan_of_isFinite (Binary64.isFinite_trunc hfin), hn]
  simp only [Bool.false_eq_true, if_false]
  rw [if_neg (by omega), if_neg (by omega), Int64.toInt_ofInt_of_le (by omega) (by omega)]

theorem compare_trunc (i : Int64) (hfin : f.isFinite = true)
    (hlow : -2 ^ 63 ≤ f.scaled.tdiv (2 ^ 1074)) (hhigh : f.scaled.tdiv (2 ^ 1074) < 2 ^ 63) :
    (match compare i.toInt f.trunc.toI64.toInt with
      | .eq =>
        if Binary64.lt .zero (f.sub f.trunc) then .lt
        else if (f.sub f.trunc).lt .zero then .gt
        else .eq
      | other => other) = compare (i.toInt * 2 ^ 1074) f.scaled := by
  have hu : (0 : ℤ) < 2 ^ 1074 := by positivity
  have hpos := Binary64.zero_lt_sub_iff hfin (Binary64.isFinite_trunc hfin)
  have hneg := Binary64.sub_lt_zero_iff hfin (Binary64.isFinite_trunc hfin)
  rw [toInt_toI64_trunc hfin hlow hhigh]
  rw [Binary64.scaled_trunc] at hpos hneg
  generalize (2 : ℤ) ^ 1074 = u at *
  cases hcmp : compare i.toInt (f.scaled.tdiv u) with
  | lt =>
      exact (compare_lt_iff_lt.mpr (compare_mul_tdiv_of_lt hu (compare_lt_iff_lt.mp hcmp))).symm
  | gt =>
      exact (compare_gt_iff_gt.mpr (compare_mul_tdiv_of_gt hu (compare_gt_iff_gt.mp hcmp))).symm
  | eq =>
      -- equal integer parts: the sign of the exact difference decides
      rw [compare_eq_iff_eq.mp hcmp]
      simp only [hpos, hneg]
      rcases lt_trichotomy (f.scaled.tdiv u * u) f.scaled with h | h | h
      · rw [if_pos h, compare_lt_iff_lt.mpr h]
      · rw [if_neg h.not_lt, if_neg h.not_gt, compare_eq_iff_eq.mpr h]
      · rw [if_neg h.not_gt, if_pos h, compare_gt_iff_gt.mpr h]

theorem mag_le_of_scaled {n : ℕ} (hlow : -(n : ℤ) ≤ f.scaled) (hhigh : f.scaled ≤ n) :
    f.mag ≤ n := by
  rw [← Binary64.natAbs_scaled]
  omega

theorem tdiv_range {n b u : ℤ} (hu : 0 < u) (hlow : -b * u ≤ n) (hhigh : n < b * u) :
    -b ≤ n.tdiv u ∧ n.tdiv u < b := by
  constructor
  · by_contra h
    have := compare_mul_tdiv_of_gt hu (not_le.mp h)
    omega
  · rcases le_total 0 n with hn | hn
    · have := (Binary64.tdiv_bounds_of_nonneg hu hn).1
      exact lt_of_mul_lt_mul_right (this.trans_lt hhigh) hu.le
    · have hneg : (n.tdiv u - 1) * u < 0 := (Binary64.tdiv_bounds_of_nonpos hu hn).2.trans_le hn
      have ht := neg_of_mul_neg_left hneg hu.le
      have hb : 0 < b := by nlinarith
      omega

theorem cmpIntF64_eq (i : Int64) (hnan : f.isNan = false) :
    cmpIntF64 i f = compare (i.toInt * 2 ^ 1074) f.scaled := by
  have hu : (0 : ℤ) < 2 ^ 1074 := by positivity
  have hge := Binary64.ge_eq_true_iff hnan (isNan_ofFields_zero false
    (show 1086 < 2048 by norm_num))
  have hlt := Binary64.lt_eq_true_iff hnan (isNan_ofFields_zero true
    (show 1086 < 2048 by norm_num))
  rw [scaled_ofFields_1086] at hge hlt
  simp only [Bool.false_eq_true, if_false, if_true] at hge hlt
  rw [cmpIntF64, hnan, twoPow63, negTwoPow63]
  simp only [Bool.false_eq_true, if_false, hge, hlt]
  by_cases hbig : 2 ^ 63 * 2 ^ 1074 ≤ f.scaled
  · have := mul_lt_mul_of_pos_right i.toInt_lt hu
    rw [if_pos hbig, compare_lt_iff_lt.mpr (this.trans_le hbig)]
  · by_cases hsmall : f.scaled < -2 ^ 63 * 2 ^ 1074
    · have := mul_le_mul_of_nonneg_right i.le_toInt hu.le
      rw [if_neg hbig, if_pos hsmall, compare_gt_iff_gt.mpr (hsmall.trans_le this)]
    · rw [if_neg hbig, if_neg hsmall]
      have hrange := tdiv_range hu (not_lt.mp hsmall) (not_le.mp hbig)
      refine compare_trunc i (isFinite_of_abs_scaled_le hnan (k := 63) (by norm_num) ?_)
        hrange.1 hrange.2
      apply mag_le_of_scaled
      · push_cast
        rw [← neg_mul]
        exact not_lt.mp hsmall
      · push_cast
        exact (not_le.mp hbig).le

end IntFloat

/-! ## Decimals against floats -/

theorem stripTwos_eq (fuel m : ℕ) (e : ℤ) :
    ∃ k : ℕ, (stripTwos fuel m e).2 = e + k ∧ m = (stripTwos fuel m e).1 * 2 ^ k := by
  induction fuel generalizing m e with
  | zero => exact ⟨0, by simp [stripTwos]⟩
  | succ fuel ih =>
      unfold stripTwos
      split_ifs with hm
      · obtain ⟨k, hk, hmk⟩ := ih (m / 2) (e + 1)
        refine ⟨k + 1, by rw [hk]; push_cast; ring, ?_⟩
        rw [pow_succ, ← mul_assoc, ← hmk]
        omega
      · exact ⟨0, by simp⟩

/-- Fifty-three rounds leave an odd significand. -/
theorem stripTwos_odd {fuel m : ℕ} (e : ℤ) (hm : 0 < m) (hlt : m < 2 ^ fuel) :
    (stripTwos fuel m e).1 % 2 = 1 := by
  induction fuel generalizing m e with
  | zero => omega
  | succ fuel ih =>
      rw [pow_succ] at hlt
      unfold stripTwos
      split_ifs with hev
      · exact ih (e + 1) (by omega) (by omega)
      · omega

theorem cmpTimesPow2_eq {a b : ℕ} (j : ℕ) (ha : a < 2 ^ 128) (hb : 0 < b) :
    cmpTimesPow2 a b j = compare a (b * 2 ^ j) := by
  have hsize : Nat.size (b * 2 ^ j) = Nat.size b + j := by
    rw [← Nat.shiftLeft_eq, Nat.size_shiftLeft hb.ne']
  unfold cmpTimesPow2
  rw [← hsize]
  cases hcmp : compare (Nat.size a) (Nat.size (b * 2 ^ j)) with
  | lt =>
      have hlt := compare_lt_iff_lt.mp hcmp
      symm
      rw [compare_lt_iff_lt]
      exact (Nat.lt_size_self a).trans_le (Nat.lt_size.mp hlt)
  | gt =>
      have hlt := compare_gt_iff_gt.mp hcmp
      symm
      rw [compare_gt_iff_gt]
      exact (Nat.lt_size_self _).trans_le (Nat.lt_size.mp hlt)
  | eq =>
      have heq := compare_eq_iff_eq.mp hcmp
      have hlt : b * 2 ^ j < 2 ^ 128 := by
        rw [← Nat.size_le, ← heq, Nat.size_le]
        exact ha
      rw [Nat.shiftLeft_eq, Nat.mod_eq_of_lt hlt]

/-- The significand the comparison starts from. -/
theorem mag_eq_significand (f : Binary64) : ∃ m₀ k₀ : ℕ, m₀ < 2 ^ 53 ∧ f.mag = m₀ * 2 ^ k₀ ∧
    (if f.expBits = 0 then (f.frac, -1074) else (f.frac + 2 ^ 52, (f.expBits : ℤ) - 1075)) =
      (m₀, (k₀ : ℤ) - 1074) := by
  have hf := f.frac_lt
  by_cases h0 : f.expBits = 0
  · refine ⟨f.frac, 0, by omega, by simp [Binary64.mag, h0], by simp [h0]⟩
  · refine ⟨f.frac + 2 ^ 52, f.expBits - 1, by omega, by simp [Binary64.mag, h0], ?_⟩
    rw [if_neg h0]
    congr 1
    omega

/-- Both sides of the magnitude comparison, multiplied by `2 ^ 1074` and
`10 ^ scale`. -/
theorem cmpDecimalF64Mag_eq {d : Decimal} {f : Binary64} (hd : d.mantissa ≠ 0)
    (hf : f.mag ≠ 0) :
    cmpDecimalF64Mag d f = compare (d.mantissa * 2 ^ 1074) (f.mag * 10 ^ d.scale) := by
  obtain ⟨m₀, k₀, hm₀, hmag, hfields⟩ := mag_eq_significand f
  obtain ⟨k, hk, hmk⟩ := stripTwos_eq 53 m₀ ((k₀ : ℤ) - 1074)
  unfold cmpDecimalF64Mag
  rw [hfields]
  simp only
  rw [hk]
  generalize (stripTwos 53 m₀ ((k₀ : ℤ) - 1074)).1 = m at hmk ⊢
  have hm : 0 < m := Nat.pos_of_ne_zero fun h => hf (by rw [hmag, hmk, h, zero_mul, zero_mul])
  have hm53 : m < 2 ^ 53 := by
    refine lt_of_le_of_lt ?_ hm₀
    rw [hmk]
    exact Nat.le_mul_of_pos_right _ (by positivity)
  have ha5 : m * 5 ^ d.scale < 2 ^ 128 := by
    have h5 : 5 ^ d.scale ≤ 5 ^ 28 := Nat.pow_le_pow_right (by norm_num) d.scale_le
    calc m * 5 ^ d.scale ≤ 2 ^ 53 * 5 ^ 28 := Nat.mul_le_mul hm53.le h5
      _ < 2 ^ 128 := by norm_num
  have hrhs : f.mag * 10 ^ d.scale = m * 5 ^ d.scale * 2 ^ (k + k₀ + d.scale) := by
    rw [hmag, hmk, show (10 : ℕ) = 5 * 2 by norm_num, mul_pow, pow_add, pow_add]
    ring
  rw [hrhs]
  split_ifs with hshift
  · obtain ⟨j, hj⟩ := Int.eq_ofNat_of_zero_le hshift
    have hexp : k + k₀ + d.scale = j + 1074 := by omega
    rw [hj, Int.toNat_natCast, cmpTimesPow2_eq j (d.mantissa_lt.trans (by norm_num))
      (by positivity), hexp, pow_add, ← mul_assoc, compare_mul_pos (by positivity)]
  · obtain ⟨j, hj⟩ := Int.eq_ofNat_of_zero_le (a := -((k₀ : ℤ) - 1074 + k + d.scale)) (by omega)
    have hpow : (2 : ℕ) ^ 1074 = 2 ^ j * 2 ^ (k + k₀ + d.scale) := by
      rw [← pow_add, show j + (k + k₀ + d.scale) = 1074 by omega]
    rw [hj, Int.toNat_natCast, cmpTimesPow2_eq j ha5 (Nat.pos_of_ne_zero hd),
      ← Std.OrientedOrd.eq_swap]
    rw [hpow, ← mul_assoc, compare_mul_pos (by positivity)]

theorem zero_lt_iff {f : Binary64} (hnan : f.isNan = false) (hmag : f.mag ≠ 0) :
    Binary64.lt .zero f = !f.isSignNegative := by
  rw [Bool.eq_iff_iff, Binary64.lt_eq_true_iff Binary64.isNan_zero hnan, Binary64.scaled_zero,
    Binary64.scaled]
  cases f.isSignNegative
  · simp only [Bool.false_eq_true, if_false, Bool.not_false, iff_true]
    omega
  · simp only [if_true, Bool.not_true, Bool.false_eq_true, iff_false]
    omega

theorem partialCmp_zero_iff {f : Binary64} (hnan : f.isNan = false) :
    (f.partialCmp .zero == some .eq) = decide (f.mag = 0) := by
  rw [Binary64.partialCmp, hnan, Binary64.isNan_zero, Binary64.scaled_zero, Bool.eq_iff_iff,
    decide_eq_true_iff, ← Binary64.scaled_eq_zero_iff]
  simp

theorem signed_mul_pow (b : Bool) (m c k : ℕ) :
    (if b then -(m : ℤ) else m) * (c : ℤ) ^ k =
      if b then -((m * c ^ k : ℕ) : ℤ) else (m * c ^ k : ℕ) := by
  split_ifs <;> push_cast <;> ring

/-- Sign and magnitude decide the order of two integers. -/
theorem compare_signed (a b : Bool) {m n : ℕ} (h : m ≠ 0 ∨ n ≠ 0) :
    compare (if a then -(m : ℤ) else m) (if b then -(n : ℤ) else n) =
      if a != b then (if a then .lt else .gt)
      else if a then (compare m n).swap else compare m n := by
  cases a <;> cases b
  · exact compare_natCast m n
  · exact compare_gt_iff_gt.mpr (by simp only [Bool.false_eq_true, if_false, if_true]; omega)
  · exact compare_lt_iff_lt.mpr (by simp only [Bool.false_eq_true, if_false, if_true]; omega)
  · simp only [if_true, bne_self_eq_false, Bool.false_eq_true, if_false]
    rw [compare_neg, compare_natCast]

/-- A decimal is far below the patterns of the infinities. -/
theorem decimal_lt_infinite (d : Decimal) {f : Binary64} (hinf : f.isInfinite = true) :
    d.mantissa * 2 ^ 1074 < f.mag * 10 ^ d.scale := by
  have hpow : (2 : ℕ) ^ 2098 = 2 ^ 1024 * 2 ^ 1074 := by rw [← pow_add]
  have h10 : 1 ≤ 10 ^ d.scale := Nat.one_le_pow _ _ (by norm_num)
  rw [Binary64.mag_of_isInfinite hinf, hpow]
  calc d.mantissa * 2 ^ 1074 < 2 ^ 1024 * 2 ^ 1074 := by
        apply Nat.mul_lt_mul_of_pos_right _ (by positivity)
        exact d.mantissa_lt.trans (Nat.pow_lt_pow_right (by norm_num) (by norm_num))
    _ ≤ 2 ^ 1024 * 2 ^ 1074 * 10 ^ d.scale := Nat.le_mul_of_pos_right _ h10

/-- The case split of `cmp_decimal_f64`, over any magnitudes `m` and `n` that
`cmp_decimal_f64_mag` compares correctly. -/
theorem cmpDecimalF64_of_mag {d : Decimal} {f : Binary64} {m n : ℕ} (hnan : f.isNan = false)
    (hm0 : m = 0 ↔ d.mantissa = 0) (hn0 : n = 0 ↔ f.mag = 0)
    (hinf : f.isInfinite = true → m < n)
    (hmag : d.mantissa ≠ 0 → f.mag ≠ 0 → cmpDecimalF64Mag d f = compare m n) :
    cmpDecimalF64 d f = compare (if d.neg then -(m : ℤ) else m)
      (if f.isSignNegative then -(n : ℤ) else n) := by
  rw [cmpDecimalF64, hnan, partialCmp_zero_iff hnan, Decimal.isZero]
  simp only [Bool.false_eq_true, if_false]
  by_cases hI : f.isInfinite = true
  · have hlt := hinf hI
    have hn : f.mag ≠ 0 := by
      rw [← hn0.ne]
      omega
    rw [if_pos hI, zero_lt_iff hnan hn, compare_signed _ _ (Or.inr (by omega)),
      compare_lt_iff_lt.mpr hlt]
    cases d.neg <;> cases f.isSignNegative <;> rfl
  rw [if_neg hI]
  by_cases hm : d.mantissa = 0 <;> by_cases hn : f.mag = 0
  · simp [hm, hn, hm0.mpr hm, hn0.mpr hn]
  · have hlt : m < n := by
      have := hm0.mpr hm
      have := hn0.not.mpr hn
      omega
    rw [compare_signed _ _ (Or.inr (by omega)), compare_lt_iff_lt.mpr hlt, zero_lt_iff hnan hn,
      decide_eq_false hn, beq_iff_eq.mpr hm]
    cases d.neg <;> cases f.isSignNegative <;> rfl
  · have hlt : n < m := by
      have := hm0.not.mpr hm
      have := hn0.mpr hn
      omega
    rw [compare_signed _ _ (Or.inl (by omega)), compare_gt_iff_gt.mpr hlt, decide_eq_true hn,
      beq_eq_false_iff_ne.mpr hm]
    cases d.neg <;> cases f.isSignNegative <;> rfl
  · rw [compare_signed _ _ (Or.inr (hn0.not.mpr hn)), hmag hm hn, decide_eq_false hn,
      beq_eq_false_iff_ne.mpr hm]
    cases d.neg <;> cases f.isSignNegative <;> rfl

theorem cmpDecimalF64_eq (d : Decimal) {f : Binary64} (hnan : f.isNan = false) :
    cmpDecimalF64 d f = compare (d.signed * 2 ^ 1074) (f.scaled * 10 ^ d.scale) := by
  have hd : d.signed * 2 ^ 1074 =
      if d.neg then -((d.mantissa * 2 ^ 1074 : ℕ) : ℤ) else (d.mantissa * 2 ^ 1074 : ℕ) :=
    signed_mul_pow _ _ 2 1074
  have hf : f.scaled * 10 ^ d.scale =
      if f.isSignNegative then -((f.mag * 10 ^ d.scale : ℕ) : ℤ)
      else (f.mag * 10 ^ d.scale : ℕ) :=
    signed_mul_pow _ _ 10 d.scale
  rw [hd, hf]
  exact cmpDecimalF64_of_mag hnan (by simp) (by simp) (decimal_lt_infinite d) cmpDecimalF64Mag_eq

/-! ## One key for all numbers -/

theorem compare_coe_top (a : ℤ) : compare (a : WithTop ℤ) ⊤ = .lt :=
  compare_lt_iff_lt.mpr (WithTop.coe_lt_top a)

theorem compare_top_coe (a : ℤ) : compare (⊤ : WithTop ℤ) a = .gt :=
  compare_gt_iff_gt.mpr (WithTop.coe_lt_top a)

theorem key_float_of_isNan {f : Binary64} (h : f.isNan = true) : (Number.float f).key = ⊤ :=
  if_pos h

theorem key_float {f : Binary64} (h : f.isNan = false) :
    (Number.float f).key = ((f.scaled * 10 ^ 28 : ℤ) : WithTop ℤ) :=
  if_neg (by simp [h])

theorem cmpDecimalF64_eq_key (d : Decimal) (f : Binary64) :
    cmpDecimalF64 d f = compare (Number.decimal d).key (Number.float f).key := by
  cases hnan : f.isNan with
  | true =>
      rw [key_float_of_isNan hnan, cmpDecimalF64, if_pos hnan]
      exact (compare_coe_top _).symm
  | false =>
      have h10 : (10 : ℤ) ^ 28 = 10 ^ d.scale * 10 ^ (28 - d.scale) := by
        rw [← pow_add, Nat.add_sub_cancel' d.scale_le]
      rw [cmpDecimalF64_eq d hnan, key_float hnan, Number.key, compare_coe, h10, mul_right_comm,
        ← mul_assoc, compare_mul_pos (by positivity)]

theorem cmpIntF64_eq_key (i : Int64) (f : Binary64) :
    cmpIntF64 i f = compare (Number.int i).key (Number.float f).key := by
  cases hnan : f.isNan with
  | true =>
      rw [key_float_of_isNan hnan, cmpIntF64, if_pos hnan]
      exact (compare_coe_top _).symm
  | false =>
      rw [cmpIntF64_eq i hnan, key_float hnan, Number.key, compare_coe, mul_right_comm,
        compare_mul_pos (by positivity)]

theorem cmpF64_eq_key (x y : Binary64) :
    cmpF64 x y = compare (Number.float x).key (Number.float y).key := by
  unfold cmpF64
  cases hx : x.isNan <;> cases hy : y.isNan
  · rw [key_float hx, key_float hy, compare_coe, compare_mul_pos (by positivity)]
    simp [Binary64.partialCmp, hx, hy]
  · rw [key_float hx, key_float_of_isNan hy, compare_coe_top]
  · rw [key_float hy, key_float_of_isNan hx, compare_top_coe]
  · rw [key_float_of_isNan hx, key_float_of_isNan hy]
    exact (compare_eq_iff_eq.mpr rfl).symm

theorem cmp_decimal_eq_key (x y : Decimal) :
    x.cmp y = compare (Number.decimal x).key (Number.decimal y).key := by
  unfold Number.key
  rw [cmp_decimal, compare_coe, compare_mul_pos (by positivity)]

theorem key_decimal_ofInt (i : Int64) : (Number.decimal (.ofInt i)).key = (Number.int i).key := by
  rw [Number.key, Number.key, signed_ofInt]
  rfl

theorem cmpValues_eq_key (x y : Number) :
    cmpValues x.toValue y.toValue = compare x.key y.key := by
  cases x with
  | int i =>
      cases y with
      | int j =>
          simp only [Number.toValue, cmpValues, Number.key]
          rw [compare_coe, mul_assoc, mul_assoc, compare_mul_pos (by positivity)]
      | float f => exact cmpIntF64_eq_key i f
      | decimal d =>
          rw [← key_decimal_ofInt]
          exact cmp_decimal_eq_key (.ofInt i) d
  | float f =>
      cases y with
      | int j =>
          rw [Std.OrientedOrd.eq_swap (a := (Number.float f).key), ← cmpIntF64_eq_key]
          rfl
      | float g => exact cmpF64_eq_key f g
      | decimal d =>
          rw [Std.OrientedOrd.eq_swap (a := (Number.float f).key), ← cmpDecimalF64_eq_key]
          rfl
  | decimal d =>
      cases y with
      | int j =>
          rw [← key_decimal_ofInt]
          exact cmp_decimal_eq_key d (.ofInt j)
      | float f => exact cmpDecimalF64_eq_key d f
      | decimal e => exact cmp_decimal_eq_key d e

/-! ## The key determines the exact value -/

/-- The magnitude of the key of an infinity. -/
def keyBound : ℤ := 2 ^ 2098 * 10 ^ 28

/-- The extended real a key stands for. -/
noncomputable def ofKey (n : ℤ) : EReal :=
  if n = keyBound then ⊤ else if n = -keyBound then ⊥
  else (((n : ℝ) / (10 ^ 28 * 2 ^ 1074) : ℝ) : EReal)

theorem keyBound_pos : 0 < keyBound := by
  unfold keyBound
  positivity

theorem ofKey_strictMonoOn : StrictMonoOn ofKey (Set.Icc (-keyBound) keyBound) := by
  intro m hm n hn hlt
  have hpos := keyBound_pos
  have hm' : m ≠ keyBound := by
    have := hn.2
    omega
  have hn' : n ≠ -keyBound := by
    have := hm.1
    omega
  unfold ofKey
  rw [if_neg hm', if_neg hn']
  split_ifs
  · exact bot_lt_top
  · exact EReal.bot_lt_coe _
  · exact EReal.coe_lt_top _
  · rw [EReal.coe_lt_coe_iff]
    exact div_lt_div_of_pos_right (by exact_mod_cast hlt) (by positivity)

theorem ofKey_of_abs_lt {n : ℤ} (h : |n| < keyBound) :
    ofKey n = (((n : ℝ) / (10 ^ 28 * 2 ^ 1074) : ℝ) : EReal) := by
  rw [abs_lt] at h
  rw [ofKey, if_neg h.2.ne, if_neg h.1.ne']

/-- Integers and decimals stay far inside the range of the keys. -/
theorem abs_key_lt {a : ℤ} {k : ℕ} (ha : |a| < 2 ^ 96) (hk : k ≤ 28) :
    |a * 10 ^ k * 2 ^ 1074| < keyBound := by
  have hpow : (2 : ℤ) ^ 2098 = 2 ^ 1024 * 2 ^ 1074 := by rw [← pow_add]
  have h10 : (10 : ℤ) ^ k ≤ 10 ^ 28 := pow_le_pow_right₀ (by norm_num) hk
  have h96 : (2 : ℤ) ^ 96 < 2 ^ 1024 := pow_lt_pow_right₀ (by norm_num) (by norm_num)
  rw [abs_mul, abs_mul, abs_of_pos (by positivity : (0 : ℤ) < 10 ^ k),
    abs_of_pos (by positivity : (0 : ℤ) < 2 ^ 1074), keyBound, hpow]
  calc |a| * 10 ^ k * 2 ^ 1074 ≤ |a| * 10 ^ 28 * 2 ^ 1074 := by gcongr
    _ < 2 ^ 1024 * 10 ^ 28 * 2 ^ 1074 := by gcongr; exact ha.trans h96
    _ = 2 ^ 1024 * 2 ^ 1074 * 10 ^ 28 := by ring

theorem abs_signed_lt (d : Decimal) : |d.signed| < 2 ^ 96 := by
  have := d.mantissa_lt
  unfold Decimal.signed
  split_ifs <;> rw [abs_lt] <;> omega

theorem abs_toInt_lt (i : Int64) : |i.toInt| < 2 ^ 96 := by
  have := i.toInt_lt
  have := i.le_toInt
  rw [abs_lt]
  omega

/-- A number is the value of a key inside the bounds, or a NaN. -/
theorem exact_eq_ofKey (x : Number) :
    (x.key = ⊤ ∧ x.exact = ⊤) ∨
      ∃ n ∈ Set.Icc (-keyBound) keyBound, x.key = (n : WithTop ℤ) ∧
        x.exact = (ofKey n : WithTop EReal) := by
  cases x with
  | int i =>
      have habs := abs_key_lt (abs_toInt_lt i) (le_refl 28)
      refine Or.inr ⟨_, abs_le.mp habs.le, rfl, ?_⟩
      rw [ofKey_of_abs_lt habs, Number.exact]
      simp only [Int.cast_mul, Int.cast_pow, Int.cast_ofNat]
      rw [mul_assoc, mul_div_cancel_right₀ _ (by positivity)]
  | decimal d =>
      have habs := abs_key_lt (abs_signed_lt d) (Nat.sub_le 28 d.scale)
      refine Or.inr ⟨_, abs_le.mp habs.le, rfl, ?_⟩
      have h10 : (10 : ℝ) ^ 28 = 10 ^ d.scale * 10 ^ (28 - d.scale) := by
        rw [← pow_add, Nat.add_sub_cancel' d.scale_le]
      rw [ofKey_of_abs_lt habs, Number.exact, h10]
      simp only [Int.cast_mul, Int.cast_pow, Int.cast_ofNat]
      rw [mul_assoc (d.signed : ℝ), mul_assoc ((10 : ℝ) ^ d.scale),
        mul_div_mul_right _ _ (by positivity)]
  | float f =>
      cases hnan : f.isNan with
      | true => exact Or.inl ⟨key_float_of_isNan hnan, by simp [Number.exact, hnan]⟩
      | false =>
          have habs : |f.scaled * 10 ^ 28| = (f.mag : ℤ) * 10 ^ 28 := by
            rw [abs_mul, abs_of_pos (by positivity : (0 : ℤ) < 10 ^ 28), Int.abs_eq_natAbs,
              Binary64.natAbs_scaled]
          cases hinf : f.isInfinite with
          | true =>
              have hmag : (f.mag : ℤ) * 10 ^ 28 = keyBound := by
                rw [Binary64.mag_of_isInfinite hinf, keyBound, Nat.cast_pow, Nat.cast_ofNat]
              refine Or.inr ⟨_, abs_le.mp (habs.trans hmag).le, key_float hnan, ?_⟩
              have hpos := keyBound_pos
              rw [Number.exact, if_neg (by simp [hnan]), if_pos hinf, Binary64.scaled]
              cases f.isSignNegative
              · simp only [Bool.false_eq_true, if_false]
                rw [hmag, ofKey, if_pos rfl]
              · simp only [if_true]
                rw [neg_mul, hmag, ofKey, if_neg (by omega), if_pos rfl]
          | false =>
              have hfin : f.isFinite = true := (Binary64.isFinite_iff f).mpr ⟨hnan, hinf⟩
              have hlt : |f.scaled * 10 ^ 28| < keyBound := by
                have hmag : (f.mag : ℤ) < 2 ^ 2098 := by
                  exact_mod_cast Binary64.mag_lt_of_isFinite hfin
                rw [habs, keyBound]
                exact mul_lt_mul_of_pos_right hmag (by positivity)
              refine Or.inr ⟨_, abs_le.mp hlt.le, key_float hnan, ?_⟩
              rw [ofKey_of_abs_lt hlt, Number.exact, if_neg (by simp [hnan]),
                if_neg (by simp [hinf])]
              simp only [Int.cast_mul, Int.cast_pow, Int.cast_ofNat]
              rw [mul_comm ((10 : ℝ) ^ 28), mul_div_mul_right _ _ (by positivity)]

theorem compare_key_eq_exact (x y : Number) :
    compare x.key y.key = compare x.exact y.exact := by
  rcases exact_eq_ofKey x with ⟨hx, hx'⟩ | ⟨m, hm, hx, hx'⟩ <;>
    rcases exact_eq_ofKey y with ⟨hy, hy'⟩ | ⟨n, hn, hy, hy'⟩ <;> rw [hx, hx', hy, hy']
  · rw [compare_eq_iff_eq.mpr rfl, compare_eq_iff_eq.mpr rfl]
  · rw [compare_top_coe, compare_gt_iff_gt.mpr (WithTop.coe_lt_top _)]
  · rw [compare_coe_top, compare_lt_iff_lt.mpr (WithTop.coe_lt_top _)]
  · rw [compare_coe, ← cmp_eq_compare, ← cmp_eq_compare, WithTop.coe_strictMono.cmp_map_eq,
      ofKey_strictMonoOn.cmp_map_eq hm hn]

/-- On numbers the order is the order of the exact values. -/
theorem cmpValues_eq_exact (x y : Number) :
    cmpValues x.toValue y.toValue = compare x.exact y.exact :=
  (cmpValues_eq_key x y).trans (compare_key_eq_exact x y)

end Docsql
