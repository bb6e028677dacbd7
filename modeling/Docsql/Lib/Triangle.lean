import Mathlib.Order.Compare
import Mathlib.Tactic

/-!
# Triangles of comparison results

Transitivity of a comparison defined by recursion over a syntax tree is not
inductive by itself: in a lexicographic step the tail is reached only when the
heads are equal.  `Triangle` states the three results `cmp a b`, `cmp b c` and
`cmp a c` together, and this form is closed under `Ordering.then`.
-/

/-- The results of comparing `a` with `b`, `b` with `c` and `a` with `c` by a
transitive comparison. -/
structure Triangle (ab bc ac : Ordering) : Prop where
  left : ab = .eq → ac = bc
  right : bc = .eq → ac = ab
  same : ab = bc → ac = ab

namespace Triangle

theorem andThen {ab bc ac ab' bc' ac' : Ordering} (h : Triangle ab bc ac)
    (h' : Triangle ab' bc' ac') : Triangle (ab.then ab') (bc.then bc') (ac.then ac') := by
  obtain ⟨hl, hr, hs⟩ := h
  obtain ⟨hl', hr', hs'⟩ := h'
  refine ⟨fun h => ?_, fun h => ?_, fun h => ?_⟩
  · obtain ⟨hab, hab'⟩ := Ordering.then_eq_eq.mp h
    rw [hl hab, hl' hab']
  · obtain ⟨hbc, hbc'⟩ := Ordering.then_eq_eq.mp h
    rw [hr hbc, hr' hbc']
  · cases ab with
    | eq =>
      rw [hl rfl]
      cases bc with
      | eq => exact hs' h
      | lt => exact h.symm
      | gt => exact h.symm
    | lt =>
      have hac : ac = .lt := by
        cases bc with
        | lt => exact hs rfl
        | eq => exact hr rfl
        | gt => cases h
      rw [hac]
      rfl
    | gt =>
      have hac : ac = .gt := by
        cases bc with
        | lt => cases h
        | eq => exact hr rfl
        | gt => exact hs rfl
      rw [hac]
      rfl

theorem swap {ab bc ac : Ordering} (h : Triangle ab bc ac) :
    Triangle ab.swap bc.swap ac.swap := by
  obtain ⟨hl, hr, hs⟩ := h
  constructor <;> cases ab <;> cases bc <;> simp_all

theorem of_transCmp {α : Type*} (cmp : α → α → Ordering) [Std.TransCmp cmp] (a b c : α) :
    Triangle (cmp a b) (cmp b c) (cmp a c) where
  left h := Std.TransCmp.congr_left h
  right h := (Std.TransCmp.congr_right h).symm
  same h := by
    cases hab : cmp a b with
    | lt => exact Std.TransCmp.lt_trans hab (h ▸ hab)
    | eq => exact Std.TransCmp.eq_trans hab (h ▸ hab)
    | gt => exact Std.TransCmp.gt_trans hab (h ▸ hab)

theorem isLE_trans {ab bc ac : Ordering} (h : Triangle ab bc ac) (hab : ab.isLE = true)
    (hbc : bc.isLE = true) : ac.isLE = true := by
  obtain ⟨hl, hr, hs⟩ := h
  cases ab <;> cases bc <;> simp_all

/-- Above something above. -/
theorem gt_of_le {ab bc ac : Ordering} (h : Triangle ab bc ac) (hab : ab ≠ .gt) (hac : ac = .gt) :
    bc = .gt := by
  obtain ⟨hl, hr, hs⟩ := h
  cases ab <;> cases bc <;> simp_all

/-- Below something below. -/
theorem lt_of_le {ab bc ac : Ordering} (h : Triangle ab bc ac) (hab : ab ≠ .gt) (hbc : bc = .lt) :
    ac = .lt := by
  obtain ⟨hl, hr, hs⟩ := h
  cases ab <;> cases bc <;> simp_all

theorem eq_swap {ab ba : Ordering} (h : Triangle ab ba .eq) : ab = ba.swap := by
  obtain ⟨hl, hr, hs⟩ := h
  cases ab <;> cases ba <;> simp_all

end Triangle
