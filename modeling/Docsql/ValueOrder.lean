import Docsql.NumberOrder

/-!
# The order of values is a total preorder

Arrays and objects compare lexicographically, so transitivity goes through the
three comparisons of a triple at once.
-/

namespace Docsql

/-! ## Strings and bytes -/

instance : Std.TransCmp cmpBytes := inferInstanceAs (Std.TransCmp (List.compareLex compare))

instance : Std.LawfulEqCmp cmpBytes := inferInstanceAs (Std.LawfulEqCmp (List.compareLex compare))

instance : Std.TransCmp cmpStr where
  eq_swap := (inferInstance : Std.OrientedCmp cmpBytes).eq_swap
  isLE_trans := (inferInstance : Std.TransCmp cmpBytes).isLE_trans

theorem cmpBytes_self (b : List UInt8) : cmpBytes b b = .eq :=
  (inferInstance : Std.ReflCmp cmpBytes).compare_self

theorem cmpStr_self (s : String) : cmpStr s s = .eq := cmpBytes_self _

theorem asBytes_inj {s t : String} (h : asBytes s = asBytes t) : s = t := by
  apply String.toByteArray_inj.mp
  apply ByteArray.ext
  exact Array.toList_inj.mp h

instance : Std.LawfulEqCmp cmpStr where
  compare_self := cmpBytes_self _
  eq_of_compare h := asBytes_inj (Std.LawfulEqCmp.eq_of_compare h)

/-! ## One step of the recursion -/

theorem cmpValues_of_rank_ne {a b : Value} (h : rank a ≠ rank b) :
    cmpValues a b = compare (rank a) (rank b) := by
  cases a <;> cases b <;> first | rfl | exact absurd rfl h

@[simp] theorem cmpItems_nil_nil : cmpItems [] [] = .eq := rfl

@[simp] theorem cmpItems_nil_cons (y : Value) (ys : List Value) : cmpItems [] (y :: ys) = .lt := by
  simp [cmpItems, compare_lt_iff_lt]

@[simp] theorem cmpItems_cons_nil (x : Value) (xs : List Value) : cmpItems (x :: xs) [] = .gt := by
  simp [cmpItems, compare_gt_iff_gt]

@[simp] theorem cmpItems_cons_cons (x y : Value) (xs ys : List Value) :
    cmpItems (x :: xs) (y :: ys) = (cmpValues x y).then (cmpItems xs ys) := by
  rw [cmpItems]
  cases cmpValues x y <;> rfl

@[simp] theorem cmpFields_nil_nil : cmpFields [] [] = .eq := rfl

@[simp] theorem cmpFields_nil_cons (y : String × Value) (ys : List (String × Value)) :
    cmpFields [] (y :: ys) = .lt := rfl

@[simp] theorem cmpFields_cons_nil (x : String × Value) (xs : List (String × Value)) :
    cmpFields (x :: xs) [] = .gt := rfl

@[simp] theorem cmpFields_cons_cons (x y : String × Value) (xs ys : List (String × Value)) :
    cmpFields (x :: xs) (y :: ys) =
      (cmpStr x.1 y.1).then ((cmpValues x.2 y.2).then (cmpFields xs ys)) := by
  obtain ⟨ka, va⟩ := x
  obtain ⟨kb, vb⟩ := y
  rw [cmpFields]
  cases cmpStr ka kb <;> cases cmpValues va vb <;> rfl

theorem exists_number {a : Value} (h : rank a = 2) : ∃ x : Number, a = x.toValue := by
  cases a with
  | int i => exact ⟨.int i, rfl⟩
  | float f => exact ⟨.float f, rfl⟩
  | decimal d => exact ⟨.decimal d, rfl⟩
  | _ => simp [rank] at h

/-! ## Reflexivity -/

theorem cmpValues_number_self (x : Number) : cmpValues x.toValue x.toValue = .eq := by
  rw [cmpValues_eq_key]
  exact compare_eq_iff_eq.mpr rfl

mutual

theorem cmpValues_self : ∀ a : Value, cmpValues a a = .eq
  | .null => rfl
  | .bool _ => by simp [cmpValues]
  | .int i => cmpValues_number_self (.int i)
  | .float f => cmpValues_number_self (.float f)
  | .decimal d => cmpValues_number_self (.decimal d)
  | .timestamp _ => by simp [cmpValues]
  | .str s => cmpStr_self s
  | .bytes b => cmpBytes_self b
  | .array xs => cmpItems_self xs
  | .object xs => cmpFields_self xs

theorem cmpItems_self : ∀ xs : List Value, cmpItems xs xs = .eq
  | [] => rfl
  | x :: xs => by rw [cmpItems_cons_cons, cmpValues_self x, cmpItems_self xs]; rfl

theorem cmpFields_self : ∀ xs : List (String × Value), cmpFields xs xs = .eq
  | [] => rfl
  | (k, v) :: xs => by
      rw [cmpFields_cons_cons, cmpValues_self v, cmpFields_self xs, cmpStr_self]
      rfl

end

/-! ## Transitivity -/

/-- Values of different kinds are ordered by kind, so a triple only has to be
looked into when its kinds agree. -/
theorem triangle_of_rank {a b c : Value}
    (h : rank b = rank a → rank c = rank a →
      Triangle (cmpValues a b) (cmpValues b c) (cmpValues a c)) :
    Triangle (cmpValues a b) (cmpValues b c) (cmpValues a c) := by
  have hrank := Triangle.of_transCmp compare (rank a) (rank b) (rank c)
  by_cases hab : rank a = rank b <;> by_cases hbc : rank b = rank c
  · exact h hab.symm (hab.trans hbc).symm
  · rw [cmpValues_of_rank_ne hbc, cmpValues_of_rank_ne (hab.trans_ne hbc), hab]
    exact ⟨fun _ => rfl, fun he => absurd (compare_eq_iff_eq.mp he) hbc, fun he => he.symm⟩
  · have hac := ne_of_ne_of_eq hab hbc
    rw [cmpValues_of_rank_ne hab, cmpValues_of_rank_ne hac, hbc]
    exact ⟨fun he => absurd (compare_eq_iff_eq.mp he) hac, fun _ => rfl, fun _ => rfl⟩
  · rw [cmpValues_of_rank_ne hab, cmpValues_of_rank_ne hbc]
    refine ⟨fun he => absurd (compare_eq_iff_eq.mp he) hab,
      fun he => absurd (compare_eq_iff_eq.mp he) hbc, fun he => ?_⟩
    have hac : rank a ≠ rank c := by
      intro hac
      have := hrank.same he
      rw [compare_eq_iff_eq.mpr hac] at this
      exact hab (compare_eq_iff_eq.mp this.symm)
    rw [cmpValues_of_rank_ne hac]
    exact hrank.same he

theorem triangle_number (x y z : Number) :
    Triangle (cmpValues x.toValue y.toValue) (cmpValues y.toValue z.toValue)
      (cmpValues x.toValue z.toValue) := by
  rw [cmpValues_eq_key, cmpValues_eq_key, cmpValues_eq_key]
  exact Triangle.of_transCmp compare _ _ _

theorem triangle_of_number (x : Number) (b c : Value) :
    Triangle (cmpValues x.toValue b) (cmpValues b c) (cmpValues x.toValue c) := by
  apply triangle_of_rank
  intro hb hc
  have hx : rank x.toValue = 2 := by cases x <;> rfl
  obtain ⟨y, rfl⟩ := exists_number (hb.trans hx)
  obtain ⟨z, rfl⟩ := exists_number (hc.trans hx)
  exact triangle_number x y z

mutual

theorem cmpValues_triangle : ∀ a b c : Value,
    Triangle (cmpValues a b) (cmpValues b c) (cmpValues a c)
  | .int i, b, c => triangle_of_number (.int i) b c
  | .float f, b, c => triangle_of_number (.float f) b c
  | .decimal d, b, c => triangle_of_number (.decimal d) b c
  | .null, b, c => triangle_of_rank fun hb hc => by
      cases b <;> simp [rank] at hb
      cases c <;> simp [rank] at hc
      exact ⟨fun _ => rfl, fun _ => rfl, fun _ => rfl⟩
  | .bool x, b, c => triangle_of_rank fun hb hc => by
      cases b <;> simp [rank] at hb
      cases c <;> simp [rank] at hc
      exact Triangle.of_transCmp compare _ _ _
  | .timestamp x, b, c => triangle_of_rank fun hb hc => by
      cases b <;> simp [rank] at hb
      cases c <;> simp [rank] at hc
      exact Triangle.of_transCmp compare _ _ _
  | .str x, b, c => triangle_of_rank fun hb hc => by
      cases b <;> simp [rank] at hb
      cases c <;> simp [rank] at hc
      exact Triangle.of_transCmp cmpStr _ _ _
  | .bytes x, b, c => triangle_of_rank fun hb hc => by
      cases b <;> simp [rank] at hb
      cases c <;> simp [rank] at hc
      exact Triangle.of_transCmp cmpBytes _ _ _
  | .array xs, b, c => triangle_of_rank fun hb hc => by
      cases b <;> simp [rank] at hb
      cases c <;> simp [rank] at hc
      exact cmpItems_triangle xs _ _
  | .object xs, b, c => triangle_of_rank fun hb hc => by
      cases b <;> simp [rank] at hb
      cases c <;> simp [rank] at hc
      exact cmpFields_triangle xs _ _

theorem cmpItems_triangle : ∀ xs ys zs : List Value,
    Triangle (cmpItems xs ys) (cmpItems ys zs) (cmpItems xs zs)
  | [], ys, zs => by cases ys <;> cases zs <;> constructor <;> simp
  | x :: xs, ys, zs => by
      cases ys with
      | nil => cases zs <;> constructor <;> simp
      | cons y ys =>
          cases zs with
          | nil => exact ⟨by simp, by simp, fun h => by simpa using h.symm⟩
          | cons z zs =>
              simp only [cmpItems_cons_cons]
              exact (cmpValues_triangle x y z).andThen (cmpItems_triangle xs ys zs)

theorem cmpFields_triangle : ∀ xs ys zs : List (String × Value),
    Triangle (cmpFields xs ys) (cmpFields ys zs) (cmpFields xs zs)
  | [], ys, zs => by cases ys <;> cases zs <;> constructor <;> simp
  | (k, v) :: xs, ys, zs => by
      cases ys with
      | nil => cases zs <;> constructor <;> simp
      | cons y ys =>
          cases zs with
          | nil => exact ⟨by simp, by simp, fun h => by simpa using h.symm⟩
          | cons z zs =>
              simp only [cmpFields_cons_cons]
              exact (Triangle.of_transCmp cmpStr k y.1 z.1).andThen
                ((cmpValues_triangle v y.2 z.2).andThen (cmpFields_triangle xs ys zs))

end

theorem cmpValues_swap (a b : Value) : cmpValues a b = (cmpValues b a).swap := by
  have h := cmpValues_triangle a b a
  rw [cmpValues_self] at h
  exact h.eq_swap

instance : Std.TransCmp cmpValues where
  eq_swap := cmpValues_swap _ _
  isLE_trans := (cmpValues_triangle _ _ _).isLE_trans

/-- The order of values is reflexive, oriented and transitive, and on numbers
it is the order of the exact values with NaN above everything. -/
theorem cmpValues_total_preorder :
    (∀ a, cmpValues a a = .eq) ∧
    (∀ a b, cmpValues a b = (cmpValues b a).swap) ∧
    (∀ a b c, (cmpValues a b).isLE = true → (cmpValues b c).isLE = true →
      (cmpValues a c).isLE = true) ∧
    ∀ x y : Number, cmpValues x.toValue y.toValue = compare x.exact y.exact :=
  ⟨cmpValues_self, cmpValues_swap, fun a b c => (cmpValues_triangle a b c).isLE_trans,
    cmpValues_eq_exact⟩

end Docsql
