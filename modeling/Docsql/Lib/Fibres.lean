import Mathlib.Data.List.Basic

/-!
# Lists by key

A list is taken apart into the elements of each key.  Two lists hold the same
elements exactly when they do so key by key.
-/

namespace Fibres

variable {α β κ : Type} [DecidableEq κ] {key : α → κ} {keyOf : β → κ}

/-- The elements of one key. -/
def fibre (key : α → κ) (k : κ) (xs : List α) : List α := xs.filter fun x => key x = k

@[simp] theorem fibre_append (k : κ) (xs ys : List α) :
    fibre key k (xs ++ ys) = fibre key k xs ++ fibre key k ys := List.filter_append ..

theorem mem_fibre {k : κ} {x : α} {xs : List α} : x ∈ fibre key k xs ↔ x ∈ xs ∧ key x = k := by
  simp [fibre]

theorem fibre_eq_nil {k : κ} {xs : List α} (h : ∀ x ∈ xs, key x ≠ k) : fibre key k xs = [] :=
  List.filter_eq_nil_iff.mpr fun x hx => by simpa using h x hx

theorem perm_iff (key : α → κ) {xs ys : List α} :
    xs.Perm ys ↔ ∀ k, (fibre key k xs).Perm (fibre key k ys) := by
  classical
  constructor
  · exact fun h k => h.filter _
  · intro h
    apply List.perm_iff_count.mpr
    intro a
    have hcount := (h (key a)).count_eq a
    unfold fibre at hcount
    rwa [List.count_filter (by simp), List.count_filter (by simp)] at hcount

/-- It is enough to look at the keys that occur. -/
theorem perm_iff_of_keys (key : α → κ) (keyOf : β → κ) {xs ys : List α} {bs : List β}
    (hxs : ∀ x ∈ xs, ∃ b ∈ bs, key x = keyOf b) (hys : ∀ y ∈ ys, ∃ b ∈ bs, key y = keyOf b) :
    xs.Perm ys ↔ ∀ b ∈ bs, (fibre key (keyOf b) xs).Perm (fibre key (keyOf b) ys) := by
  rw [perm_iff key]
  constructor
  · exact fun h b _ => h (keyOf b)
  · intro h k
    by_cases hk : ∃ b ∈ bs, keyOf b = k
    · obtain ⟨b, hb, rfl⟩ := hk
      exact h b hb
    · have hnone : ∀ zs : List α, (∀ z ∈ zs, ∃ b ∈ bs, key z = keyOf b) → fibre key k zs = [] := by
        intro zs hzs
        refine fibre_eq_nil fun z hz heq => ?_
        obtain ⟨b, hb, hkey⟩ := hzs z hz
        exact hk ⟨b, hb, hkey.symm.trans heq⟩
      rw [hnone xs hxs, hnone ys hys]

/-- A list computed element by element is taken apart with the one it comes from. -/
theorem fibre_filterMap {g : β → Option α} (h : ∀ b, ∀ a ∈ g b, key a = keyOf b) (k : κ)
    (bs : List β) : fibre key k (bs.filterMap g) = (fibre keyOf k bs).filterMap g := by
  induction bs with
  | nil => rfl
  | cons b bs ih =>
    have hcons : fibre keyOf k (b :: bs) =
        if keyOf b = k then b :: fibre keyOf k bs else fibre keyOf k bs := by
      by_cases hb : keyOf b = k <;> simp [fibre, hb]
    rw [hcons]
    cases hg : g b with
    | none =>
      rw [List.filterMap_cons_none hg, ih]
      split
      · rw [List.filterMap_cons_none hg]
      · rfl
    | some a =>
      have hkey := h b a hg
      rw [List.filterMap_cons_some hg]
      split
      case isTrue hb =>
        rw [List.filterMap_cons_some hg, ← ih]
        exact List.filter_cons_of_pos (by simp [hkey, hb])
      case isFalse hb =>
        rw [← ih]
        exact List.filter_cons_of_neg (by simp [hkey, hb])

/-- Elements that their keys tell apart. -/
theorem fibre_eq_replicate (hkey : Function.Injective key) (a : α) (xs : List α) :
    fibre key (key a) xs = List.replicate (fibre key (key a) xs).length a :=
  List.eq_replicate_iff.mpr ⟨rfl, fun _ hx => hkey (mem_fibre.mp hx).2⟩

end Fibres
