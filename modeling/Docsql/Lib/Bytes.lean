import Mathlib.Tactic

/-!
# Little-endian words

Fixed-width little-endian byte strings of natural numbers.  A width-`w` word
keeps its argument modulo `256 ^ w`, and a byte string is the word of the
number it denotes, so the two directions are inverse on every bounded number
and on every string of the right length.
-/

namespace Bytes

/-- The `w` little-endian bytes of `n`. -/
def toLE : ℕ → ℕ → List UInt8
  | 0, _ => []
  | w + 1, n => UInt8.ofNat n :: toLE w (n / 256)

/-- The number a little-endian byte string denotes. -/
def ofLE : List UInt8 → ℕ
  | [] => 0
  | b :: bs => b.toNat + 256 * ofLE bs

@[simp] theorem length_toLE (w n : ℕ) : (toLE w n).length = w := by
  induction w generalizing n with
  | zero => rfl
  | succ w ih => simp [toLE, ih]

theorem ofLE_toLE_mod (w n : ℕ) : ofLE (toLE w n) = n % 256 ^ w := by
  induction w generalizing n with
  | zero => simp [toLE, ofLE, Nat.mod_one]
  | succ w ih =>
      have hstep : n % 256 ^ (w + 1) = n % 256 + 256 * (n / 256 % 256 ^ w) := by
        rw [pow_succ', Nat.mod_mul]
      simp only [toLE, ofLE, ih, hstep]
      simp

@[simp] theorem ofLE_toLE {w n : ℕ} (h : n < 256 ^ w) : ofLE (toLE w n) = n := by
  rw [ofLE_toLE_mod, Nat.mod_eq_of_lt h]

theorem ofLE_lt (bs : List UInt8) : ofLE bs < 256 ^ bs.length := by
  induction bs with
  | nil => simp [ofLE]
  | cons b bs ih =>
      have hb : b.toNat < 256 := UInt8.toNat_lt b
      simp only [ofLE, List.length_cons, pow_succ']
      omega

theorem toLE_ofLE (bs : List UInt8) : toLE bs.length (ofLE bs) = bs := by
  induction bs with
  | nil => rfl
  | cons b bs ih =>
      have hb : b.toNat < 256 := UInt8.toNat_lt b
      have hdiv : (b.toNat + 256 * ofLE bs) / 256 = ofLE bs := by omega
      have hhead : UInt8.ofNat (b.toNat + 256 * ofLE bs) = b := by
        apply UInt8.toNat_inj.mp
        simp only [UInt8.toNat_ofNat']
        omega
      simp only [ofLE, List.length_cons, toLE, hdiv, ih, hhead]

theorem toLE_inj {w m n : ℕ} (hm : m < 256 ^ w) (hn : n < 256 ^ w)
    (h : toLE w m = toLE w n) : m = n := by
  rw [← ofLE_toLE hm, ← ofLE_toLE hn, h]

end Bytes
