import Docsql.Lib.Utf8Slice

/-!
# Decimal digits of a fixed width

Zero-padded decimal text.  At one width, the order of the texts is that of the numbers.
-/

namespace Docsql.Lib.Digits

open Docsql.Lib.Utf8

/-- The last `w` decimal digits. -/
def fixedDigits : ℕ → ℕ → List Char
  | 0, _ => []
  | w + 1, n => fixedDigits w (n / 10) ++ [Nat.digitChar (n % 10)]

/-- Decimal text with zeros in front up to a width. -/
def padDigits (w n : ℕ) : List Char :=
  List.replicate (w - (Nat.toDigits 10 n).length) '0' ++ Nat.toDigits 10 n

/-- The number a text of digits stands for. -/
def ofDigits (cs : List Char) : ℕ := cs.foldl (fun acc c => acc * 10 + (c.toNat - 48)) 0

variable {w n m : ℕ}

@[simp] theorem length_fixedDigits (w n : ℕ) : (fixedDigits w n).length = w := by
  induction w generalizing n with
  | zero => rfl
  | succ w ih => rw [fixedDigits, List.length_append, ih, List.length_singleton]

theorem isDigit_of_mem_fixedDigits : ∀ c ∈ fixedDigits w n, c.isDigit = true := by
  induction w generalizing n with
  | zero =>
    intro c hc
    cases hc
  | succ w ih =>
    intro c hc
    rcases List.mem_append.mp hc with hc | hc
    · exact ih c hc
    · rw [List.mem_singleton.mp hc, Nat.isDigit_digitChar, decide_eq_true_iff]
      omega

theorem ascii_fixedDigits (w n : ℕ) : Ascii (fixedDigits w n) :=
  ascii_of_isDigit isDigit_of_mem_fixedDigits

theorem ofDigits_append_digit (cs : List Char) {k : ℕ} (h : k < 10) :
    ofDigits (cs ++ [Nat.digitChar k]) = ofDigits cs * 10 + k := by
  rw [ofDigits, List.foldl_append, List.foldl_cons, List.foldl_nil,
    Nat.toNat_digitChar_of_lt_ten h, Nat.add_sub_cancel_left]
  rfl

theorem ofDigits_fixedDigits (h : n < 10 ^ w) : ofDigits (fixedDigits w n) = n := by
  induction w generalizing n with
  | zero =>
    rw [pow_zero] at h
    obtain rfl : n = 0 := by omega
    rfl
  | succ w ih =>
    rw [pow_succ] at h
    rw [fixedDigits, ofDigits_append_digit _ (by omega), ih (by omega)]
    omega

theorem fixedDigits_zero (w : ℕ) : fixedDigits w 0 = List.replicate w '0' := by
  induction w with
  | zero => rfl
  | succ w ih =>
    rw [fixedDigits, Nat.zero_div, ih, List.replicate_succ']
    rfl

theorem padDigits_eq (hw : 0 < w) (h : n < 10 ^ w) : padDigits w n = fixedDigits w n := by
  induction w generalizing n with
  | zero => cases hw
  | succ w ih =>
    by_cases hn : n < 10
    · rw [padDigits, Nat.toDigits_of_lt_base hn, fixedDigits, Nat.div_eq_of_lt hn,
        fixedDigits_zero, Nat.mod_eq_of_lt hn]
      rfl
    · have hpos : 0 < w := by
        by_contra hzero
        obtain rfl : w = 0 := by omega
        rw [pow_one] at h
        omega
      rw [pow_succ] at h
      have := ih hpos (show n / 10 < 10 ^ w by omega)
      rw [padDigits, Nat.toDigits_of_base_le (by decide) (by omega), fixedDigits, ← this,
        padDigits, List.length_append, List.length_singleton, Nat.add_sub_add_right,
        List.append_assoc]

/-! ## Order -/

section Order

variable {α : Type} {cmp : α → α → Ordering} {xs ys : List α}

theorem compareLex_append (h : xs.length = ys.length) (xs' ys' : List α) :
    List.compareLex cmp (xs ++ xs') (ys ++ ys') =
      (List.compareLex cmp xs ys).then (List.compareLex cmp xs' ys') := by
  induction xs generalizing ys with
  | nil =>
    obtain rfl := List.length_eq_zero_iff.mp h.symm
    rfl
  | cons x xs ih =>
    cases ys with
    | nil => cases h
    | cons y ys =>
      rw [List.cons_append, List.cons_append, List.compareLex_cons_cons,
        List.compareLex_cons_cons, ih (by simpa using h), Ordering.then_assoc]

end Order

theorem compare_digitChar {j k : ℕ} (hj : j < 16) (hk : k < 16) :
    List.compareLex compare (toBytes [Nat.digitChar j]) (toBytes [Nat.digitChar k]) =
      compare j k := by
  have hall : ∀ j k : Fin 16,
      List.compareLex compare (toBytes [Nat.digitChar j]) (toBytes [Nat.digitChar k]) =
        compare j.val k.val := by
    decide
  exact hall ⟨j, hj⟩ ⟨k, hk⟩

theorem compare_div_mod (d n m : ℕ) :
    (compare (n / d) (m / d)).then (compare (n % d) (m % d)) = compare n m := by
  have hn := Nat.div_add_mod n d
  have hm := Nat.div_add_mod m d
  rcases lt_trichotomy (n / d) (m / d) with h | h | h
  · rw [Nat.compare_eq_lt.mpr h, Nat.compare_eq_lt.mpr (Nat.lt_of_div_lt_div h)]
    rfl
  · rw [Nat.compare_eq_eq.mpr h]
    rw [h] at hn
    rcases lt_trichotomy (n % d) (m % d) with h' | h' | h'
    · rw [Nat.compare_eq_lt.mpr h', Nat.compare_eq_lt.mpr (by omega)]
      rfl
    · rw [Nat.compare_eq_eq.mpr h', Nat.compare_eq_eq.mpr (by omega)]
      rfl
    · rw [Nat.compare_eq_gt.mpr h', Nat.compare_eq_gt.mpr (by omega)]
      rfl
  · rw [Nat.compare_eq_gt.mpr h, Nat.compare_eq_gt.mpr (Nat.lt_of_div_lt_div h)]
    rfl

theorem compare_fixedDigits (hn : n < 10 ^ w) (hm : m < 10 ^ w) :
    List.compareLex compare (toBytes (fixedDigits w n)) (toBytes (fixedDigits w m)) =
      compare n m := by
  induction w generalizing n m with
  | zero =>
    rw [pow_zero] at hn hm
    obtain rfl : n = 0 := by omega
    obtain rfl : m = 0 := by omega
    rfl
  | succ w ih =>
    have hlen : ∀ k, (toBytes (fixedDigits w k)).length = w := fun k => by
      rw [length_toBytes, (ascii_fixedDigits w k).byteLen_eq, length_fixedDigits]
    rw [pow_succ] at hn hm
    rw [fixedDigits, fixedDigits, toBytes_append, toBytes_append,
      compareLex_append ((hlen _).trans (hlen _).symm), ih (by omega) (by omega)]
    rw [compare_digitChar (by omega) (by omega), compare_div_mod]

end Docsql.Lib.Digits
