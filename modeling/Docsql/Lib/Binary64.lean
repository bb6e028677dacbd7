import Mathlib.Tactic
import Mathlib.Data.Nat.Log

/-!
# IEEE 754 binary64 on bit patterns

Every finite binary64 number is an integer multiple of `2 ^ (-1074)`, so the
number behind a pattern is carried by the integer `scaled`.  The pattern of an
infinity gets `± 2 ^ 2098` by the same formula, which is `± 2 ^ 1024` and lies
outside the finite range, so the order of `scaled` is the IEEE order on every
pattern that is not a NaN.
-/

/-- A binary64 pattern: sign bit, eleven exponent bits, fifty-two fraction
bits. -/
structure Binary64 where
  bits : BitVec 64
deriving DecidableEq, Repr

namespace Binary64

def expBits (f : Binary64) : ℕ := f.bits.toNat / 2 ^ 52 % 2 ^ 11

def frac (f : Binary64) : ℕ := f.bits.toNat % 2 ^ 52

def isSignNegative (f : Binary64) : Bool := decide (2 ^ 63 ≤ f.bits.toNat)

def isNan (f : Binary64) : Bool := f.expBits == 2047 && f.frac != 0

def isInfinite (f : Binary64) : Bool := f.expBits == 2047 && f.frac == 0

def isFinite (f : Binary64) : Bool := f.expBits != 2047

/-- `|f| * 2 ^ 1074`. -/
def mag (f : Binary64) : ℕ :=
  if f.expBits = 0 then f.frac else (f.frac + 2 ^ 52) * 2 ^ (f.expBits - 1)

/-- `f * 2 ^ 1074`. -/
def scaled (f : Binary64) : ℤ := if f.isSignNegative then -(f.mag : ℤ) else f.mag

/-- The IEEE comparison: unordered as soon as a NaN takes part. -/
def partialCmp (a b : Binary64) : Option Ordering :=
  if a.isNan || b.isNan then none else some (compare a.scaled b.scaled)

def lt (a b : Binary64) : Bool := partialCmp a b == some .lt

def ge (a b : Binary64) : Bool := partialCmp a b == some .gt || partialCmp a b == some .eq

/-- The pattern with the given sign, exponent field and fraction field. -/
def ofFields (neg : Bool) (e m : ℕ) : Binary64 :=
  ⟨BitVec.ofNat 64 ((if neg then 2 ^ 63 else 0) + e * 2 ^ 52 + m)⟩

def zero : Binary64 := ofFields false 0 0

/-- Round `n * 2 ^ (-1074)` to the nearest pattern, ties to even, overflowing
to infinity. -/
def roundMag (neg : Bool) (n : ℕ) : Binary64 :=
  if n < 2 ^ 52 then ofFields neg 0 n
  else
    let e := Nat.log 2 n - 52
    let q := n / 2 ^ e
    let r := n % 2 ^ e
    let up := 2 * r > 2 ^ e ∨ (2 * r = 2 ^ e ∧ q % 2 = 1)
    let q' := if up then q + 1 else q
    let e' := if q' = 2 ^ 53 then e + 1 else e
    let m := if q' = 2 ^ 53 then 0 else q' - 2 ^ 52
    if 2046 ≤ e' then ofFields neg 2047 0 else ofFields neg (e' + 1) m

/-- `a - b`, correctly rounded. -/
def sub (a b : Binary64) : Binary64 :=
  if a.isNan || b.isNan then ofFields false 2047 1
  else if a.isInfinite then
    if b.isInfinite && (a.isSignNegative == b.isSignNegative) then ofFields false 2047 1 else a
  else if b.isInfinite then ofFields (!b.isSignNegative) 2047 0
  else
    let d := a.scaled - b.scaled
    if d = 0 then ofFields (a.isSignNegative && !b.isSignNegative && a.mag == 0) 0 0
    else roundMag (decide (d < 0)) d.natAbs

/-- The integer part, towards zero. -/
def trunc (f : Binary64) : Binary64 :=
  if f.expBits < 1023 then ofFields f.isSignNegative 0 0
  else if 1075 ≤ f.expBits then f
  else ofFields f.isSignNegative f.expBits
    (f.frac / 2 ^ (1075 - f.expBits) * 2 ^ (1075 - f.expBits))

/-- The saturating float-to-integer cast; a NaN casts to zero. -/
def toI64 (f : Binary64) : Int64 :=
  if f.isNan then 0
  else
    let n := f.scaled.tdiv (2 ^ 1074)
    if n < -2 ^ 63 then Int64.minValue else if 2 ^ 63 ≤ n then Int64.maxValue else Int64.ofInt n

theorem expBits_lt (f : Binary64) : f.expBits < 2048 := Nat.mod_lt _ (by norm_num)

theorem frac_lt (f : Binary64) : f.frac < 2 ^ 52 := Nat.mod_lt _ (by norm_num)

section Fields

variable {neg : Bool} {e m : ℕ}

theorem ofFields_toNat (he : e < 2048) (hm : m < 2 ^ 52) :
    (ofFields neg e m).bits.toNat = (if neg then 2 ^ 63 else 0) + e * 2 ^ 52 + m := by
  rw [ofFields, BitVec.toNat_ofNat, Nat.mod_eq_of_lt]
  split_ifs <;> omega

theorem expBits_ofFields (he : e < 2048) (hm : m < 2 ^ 52) : (ofFields neg e m).expBits = e := by
  rw [expBits, ofFields_toNat he hm]
  split_ifs <;> omega

theorem frac_ofFields (he : e < 2048) (hm : m < 2 ^ 52) : (ofFields neg e m).frac = m := by
  rw [frac, ofFields_toNat he hm]
  split_ifs <;> omega

theorem isSignNegative_ofFields (he : e < 2048) (hm : m < 2 ^ 52) :
    (ofFields neg e m).isSignNegative = neg := by
  rw [isSignNegative, ofFields_toNat he hm]
  cases neg
  · simp only [Bool.false_eq_true, if_false, decide_eq_false_iff_not]
    omega
  · simp only [if_true, decide_eq_true_eq]
    omega

theorem mag_ofFields (he : e < 2048) (hm : m < 2 ^ 52) :
    (ofFields neg e m).mag = if e = 0 then m else (m + 2 ^ 52) * 2 ^ (e - 1) := by
  rw [mag, expBits_ofFields he hm, frac_ofFields he hm]

end Fields

theorem mag_pos_of_expBits_ne {f : Binary64} (h : f.expBits ≠ 0) : 0 < f.mag := by
  rw [mag, if_neg h]
  positivity

theorem natAbs_scaled (f : Binary64) : f.scaled.natAbs = f.mag := by
  unfold scaled
  split_ifs <;> simp

theorem scaled_eq_zero_iff (f : Binary64) : f.scaled = 0 ↔ f.mag = 0 := by
  rw [← natAbs_scaled, Int.natAbs_eq_zero]

/-! ## Finite patterns stay below the infinities -/

theorem mag_lt_of_expBits_le {f : Binary64} {k : ℕ} (hk : 52 ≤ k) (h : 52 + f.expBits ≤ k) :
    f.mag < 2 ^ k := by
  have hf := f.frac_lt
  unfold mag
  split_ifs with he
  · exact hf.trans_le (Nat.pow_le_pow_right (by norm_num) (by omega))
  · calc (f.frac + 2 ^ 52) * 2 ^ (f.expBits - 1)
        < 2 ^ 53 * 2 ^ (f.expBits - 1) := by
          apply Nat.mul_lt_mul_of_pos_right _ (by positivity)
          omega
      _ = 2 ^ (53 + (f.expBits - 1)) := (pow_add 2 53 _).symm
      _ ≤ 2 ^ k := Nat.pow_le_pow_right (by norm_num) (by omega)

theorem mag_lt_of_isFinite {f : Binary64} (h : f.isFinite = true) : f.mag < 2 ^ 2098 := by
  have hlt := f.expBits_lt
  have hne : f.expBits ≠ 2047 := by simpa [isFinite] using h
  exact mag_lt_of_expBits_le (by norm_num) (by omega)

theorem mag_of_isInfinite {f : Binary64} (h : f.isInfinite = true) : f.mag = 2 ^ 2098 := by
  have h' : f.expBits = 2047 ∧ f.frac = 0 := by simpa [isInfinite] using h
  rw [mag, h'.1, h'.2, if_neg (by norm_num), Nat.zero_add, ← pow_add]

theorem isFinite_iff (f : Binary64) :
    f.isFinite = true ↔ f.isNan = false ∧ f.isInfinite = false := by
  by_cases he : f.expBits = 2047 <;> by_cases hf : f.frac = 0 <;>
    simp [isFinite, isNan, isInfinite, he, hf]

/-! ## Truncation -/

theorem mag_trunc {f : Binary64} : f.trunc.mag = f.mag / 2 ^ 1074 * 2 ^ 1074 := by
  have hf := f.frac_lt
  have hlt := f.expBits_lt
  unfold trunc
  split_ifs with hsmall hbig
  · rw [mag_ofFields (by norm_num) (by norm_num), if_pos rfl, Nat.div_eq_of_lt, Nat.zero_mul]
    exact mag_lt_of_expBits_le (by norm_num) (by omega)
  · -- no fraction bit is below the unit: the magnitude is a multiple of it
    have hsplit : f.mag = (f.frac + 2 ^ 52) * 2 ^ (f.expBits - 1075) * 2 ^ 1074 := by
      rw [mag, if_neg (by omega), mul_assoc, ← pow_add]
      congr 2
      omega
    rw [hsplit, Nat.mul_div_cancel _ (by positivity)]
  · set k := 1075 - f.expBits with hk
    have hdvd : 2 ^ k ∣ 2 ^ 52 := pow_dvd_pow 2 (by omega)
    have hle : f.frac / 2 ^ k * 2 ^ k ≤ f.frac := Nat.div_mul_le_self _ _
    have hunit : (2 : ℕ) ^ 1074 = 2 ^ k * 2 ^ (f.expBits - 1) := by
      rw [← pow_add]
      congr 1
      omega
    have hsum : (f.frac + 2 ^ 52) / 2 ^ k * 2 ^ k = f.frac / 2 ^ k * 2 ^ k + 2 ^ 52 := by
      rw [Nat.add_div_of_dvd_left hdvd, add_mul, Nat.div_mul_cancel hdvd]
    rw [mag_ofFields hlt (by omega), if_neg (by omega), mag, if_neg (by omega), hunit,
      Nat.mul_div_mul_right _ _ (by positivity), ← hsum]
    ring

theorem isSignNegative_trunc (f : Binary64) : f.trunc.isSignNegative = f.isSignNegative := by
  have hf := f.frac_lt
  have hlt := f.expBits_lt
  unfold trunc
  split_ifs
  · exact isSignNegative_ofFields (by norm_num) (by norm_num)
  · rfl
  · exact isSignNegative_ofFields hlt ((Nat.div_mul_le_self _ _).trans_lt hf)

theorem isFinite_trunc {f : Binary64} (h : f.isFinite = true) : f.trunc.isFinite = true := by
  have hf := f.frac_lt
  have hlt := f.expBits_lt
  unfold trunc
  split_ifs
  · rw [isFinite, expBits_ofFields (by norm_num) (by norm_num)]
    rfl
  · exact h
  · rw [isFinite, expBits_ofFields hlt ((Nat.div_mul_le_self _ _).trans_lt hf)]
    exact h

theorem scaled_trunc (f : Binary64) :
    f.trunc.scaled = f.scaled.tdiv (2 ^ 1074) * 2 ^ 1074 := by
  have hcast : ((f.mag / 2 ^ 1074 : ℕ) : ℤ) = (f.mag : ℤ).tdiv (2 ^ 1074) := by
    rw [Int.ofNat_tdiv]
    norm_cast
  rw [scaled, scaled, isSignNegative_trunc, mag_trunc]
  split_ifs
  · rw [Int.neg_tdiv, ← hcast]
    push_cast
    ring
  · rw [← hcast]
    push_cast
    ring

/-- The integer part lies between zero and the number, less than one unit away. -/
theorem tdiv_bounds_of_nonneg {n u : ℤ} (hu : 0 < u) (hn : 0 ≤ n) :
    n.tdiv u * u ≤ n ∧ n < (n.tdiv u + 1) * u := by
  have hmod := Int.mul_tdiv_add_tmod n u
  have hlt := Int.tmod_lt_of_pos n hu
  have h0 := Int.tmod_nonneg u hn
  constructor <;> nlinarith

theorem tdiv_bounds_of_nonpos {n u : ℤ} (hu : 0 < u) (hn : n ≤ 0) :
    n ≤ n.tdiv u * u ∧ (n.tdiv u - 1) * u < n := by
  have h := tdiv_bounds_of_nonneg hu (neg_nonneg.mpr hn)
  rw [Int.neg_tdiv] at h
  constructor <;> nlinarith [h.1, h.2]

/-! ## Rounding keeps the sign -/

/-- A rounded magnitude is a pattern whose fields are in range, nonzero when
the magnitude is and never a NaN. -/
theorem roundMag_eq_ofFields (neg : Bool) (n : ℕ) :
    ∃ e m, e < 2048 ∧ m < 2 ^ 52 ∧ roundMag neg n = ofFields neg e m ∧
      (0 < n → e = 0 → 0 < m) ∧ (e = 2047 → m = 0) := by
  unfold roundMag
  split_ifs with hsmall
  · exact ⟨0, n, by norm_num, hsmall, rfl, fun hn _ => hn, fun h => absurd h (by norm_num)⟩
  · extract_lets e q r up q' e' m
    have hm : m < 2 ^ 52 := by
      have hlog : n < 2 ^ (Nat.log 2 n + 1) := Nat.lt_pow_succ_log_self (by norm_num) n
      have h52 : 52 ≤ Nat.log 2 n :=
        (Nat.le_log_iff_pow_le (by norm_num) (by omega)).mpr (by omega)
      have hq : q < 2 ^ 53 := by
        apply Nat.div_lt_of_lt_mul
        rw [← pow_add]
        exact hlog.trans_le (Nat.pow_le_pow_right (by norm_num) (by omega))
      have hq' : q' ≤ q + 1 := by
        unfold q'
        split_ifs <;> omega
      unfold m
      split_ifs <;> omega
    split_ifs with hinf
    · exact ⟨2047, 0, by norm_num, by norm_num, rfl, fun _ h => absurd h (by norm_num), fun _ => rfl⟩
    · exact ⟨e' + 1, m, by omega, hm, rfl, fun _ h => absurd h (by omega),
        fun h => absurd h (by omega)⟩

theorem mag_roundMag_pos {neg : Bool} {n : ℕ} (hn : 0 < n) : 0 < (roundMag neg n).mag := by
  obtain ⟨e, m, he, hm, heq, hpos, -⟩ := roundMag_eq_ofFields neg n
  rw [heq, mag_ofFields he hm]
  split_ifs with h0
  · exact hpos hn h0
  · positivity

theorem isSignNegative_roundMag (neg : Bool) (n : ℕ) :
    (roundMag neg n).isSignNegative = neg := by
  obtain ⟨e, m, he, hm, heq, -, -⟩ := roundMag_eq_ofFields neg n
  rw [heq, isSignNegative_ofFields he hm]

theorem isNan_roundMag (neg : Bool) (n : ℕ) : (roundMag neg n).isNan = false := by
  obtain ⟨e, m, he, hm, heq, -, hinf⟩ := roundMag_eq_ofFields neg n
  rw [heq, isNan, expBits_ofFields he hm, frac_ofFields he hm]
  by_cases h : e = 2047 <;> simp_all

/-! ## Comparisons -/

theorem scaled_zero : zero.scaled = 0 := by
  rw [scaled_eq_zero_iff, zero, mag_ofFields (by norm_num) (by norm_num), if_pos rfl]

theorem isNan_of_isFinite {f : Binary64} (h : f.isFinite = true) : f.isNan = false :=
  ((isFinite_iff f).mp h).1

theorem lt_eq_true_iff {a b : Binary64} (ha : a.isNan = false) (hb : b.isNan = false) :
    a.lt b = true ↔ a.scaled < b.scaled := by
  simp [lt, partialCmp, ha, hb, compare_lt_iff_lt]

theorem ge_eq_true_iff {a b : Binary64} (ha : a.isNan = false) (hb : b.isNan = false) :
    a.ge b = true ↔ b.scaled ≤ a.scaled := by
  have hcmp : a.partialCmp b = some (compare a.scaled b.scaled) := by
    simp [partialCmp, ha, hb]
  rw [ge, hcmp, le_iff_lt_or_eq, ← compare_gt_iff_gt, eq_comm (a := b.scaled),
    ← compare_eq_iff_eq (a := a.scaled)]
  simp

theorem isNan_zero : zero.isNan = false := by
  rw [isNan, zero, expBits_ofFields (by norm_num) (by norm_num)]
  rfl

section Sub

variable {a b : Binary64} (ha : a.isFinite = true) (hb : b.isFinite = true)
include ha hb

theorem sub_of_isFinite : a.sub b =
    if a.scaled - b.scaled = 0 then
      ofFields (a.isSignNegative && !b.isSignNegative && a.mag == 0) 0 0
    else roundMag (decide (a.scaled - b.scaled < 0)) (a.scaled - b.scaled).natAbs := by
  have ha' := (isFinite_iff a).mp ha
  have hb' := (isFinite_iff b).mp hb
  simp [sub, ha'.1, ha'.2, hb'.1, hb'.2]

theorem isNan_sub : (a.sub b).isNan = false := by
  rw [sub_of_isFinite ha hb]
  split_ifs
  · rw [isNan, expBits_ofFields (by norm_num) (by norm_num)]
    rfl
  · exact isNan_roundMag _ _

/-- Rounding never changes on which side of zero a difference lies. -/
theorem scaled_sub_sign : (0 < (a.sub b).scaled ↔ b.scaled < a.scaled) ∧
    ((a.sub b).scaled < 0 ↔ a.scaled < b.scaled) := by
  rw [sub_of_isFinite ha hb]
  split_ifs with h0
  · have hzero : ∀ neg, (ofFields neg 0 0).scaled = 0 := by
      intro neg
      rw [scaled_eq_zero_iff, mag_ofFields (by norm_num) (by norm_num), if_pos rfl]
    rw [hzero]
    omega
  · have hpos : 0 < (roundMag (decide (a.scaled - b.scaled < 0))
        (a.scaled - b.scaled).natAbs).mag := mag_roundMag_pos (by omega)
    rw [scaled, isSignNegative_roundMag]
    generalize (roundMag _ _).mag = m at hpos ⊢
    by_cases hneg : a.scaled - b.scaled < 0
    · simp only [hneg, decide_true, if_true]
      omega
    · simp only [hneg, decide_false, Bool.false_eq_true, if_false]
      omega

theorem zero_lt_sub_iff : zero.lt (a.sub b) = true ↔ b.scaled < a.scaled := by
  rw [lt_eq_true_iff isNan_zero (isNan_sub ha hb), scaled_zero]
  exact (scaled_sub_sign ha hb).1

theorem sub_lt_zero_iff : (a.sub b).lt zero = true ↔ a.scaled < b.scaled := by
  rw [lt_eq_true_iff (isNan_sub ha hb) isNan_zero, scaled_zero]
  exact (scaled_sub_sign ha hb).2

end Sub

end Binary64
