import Docsql.Lib.BPlusTreeInsert

/-!
# Lookup and deletion in a B+ tree

Equal keys may straddle separators, so a key is searched in every child whose
bounds allow it.  The bracketing invariant makes that search complete.
-/

namespace BPlusTree

variable {ι K V T : Type} {cmp : K → K → Ordering} {strict : Bool}

theorem child_succ {i : ℕ} (first : T) {rest : List (K × T)} {c : K × T} (h : rest[i]? = some c) :
    child (i + 1) first rest = c.2 := by
  induction rest generalizing i first with
  | nil => simp at h
  | cons p rest ih =>
      cases i with
      | zero =>
          obtain rfl : p = c := by simpa using h
          rfl
      | succ i => exact ih p.2 (by simpa using h)

section Chains

variable {P : Option K → Option K → T → Prop}

/-- A child may be replaced by one that satisfies the same bounds. -/
theorem Chain.setChild {lo hi : Option K} {t first : T} {rest : List (K × T)} {i : ℕ}
    (h : Chain cmp strict P lo hi first rest)
    (ht : ∀ lo hi, P lo hi (child i first rest) → P lo hi t) :
    Chain cmp strict P lo hi (setChild i t first rest).1 (setChild i t first rest).2 := by
  induction rest generalizing i first lo with
  | nil =>
      cases i with
      | zero => exact ht lo hi h
      | succ i => exact h
  | cons p rest ih =>
      obtain ⟨k, c⟩ := p
      obtain ⟨hP, hsep, hbelow, htail⟩ := h
      cases i with
      | zero => exact ⟨ht lo (some k) hP, hsep, hbelow, htail⟩
      | succ i => exact ⟨hP, hsep, hbelow, ih htail ht⟩

theorem Chain.exists_child {lo hi : Option K} {first : T} {rest : List (K × T)} (i : ℕ)
    (h : Chain cmp strict P lo hi first rest) :
    ∃ lo' hi', P lo' hi' (child i first rest) := by
  induction rest generalizing i first lo with
  | nil => cases i <;> exact ⟨lo, hi, h⟩
  | cons p rest ih =>
      obtain ⟨hP, -, -, htail⟩ := h
      cases i with
      | zero => exact ⟨_, _, hP⟩
      | succ i => exact ih i htail

variable [Std.TransCmp cmp]

theorem AboveLo.of_sep {lo : Option K} {k a : K} (hsep : SepAbove cmp strict lo k)
    (ha : cmp k a ≠ .gt) : AboveLo cmp lo a :=
  fun l hl => ne_gt_trans (hsep l hl).ne_gt ha

/-- The contents of the children are within the bounds. -/
theorem Chain.flat_bounds {f : T → List (K × V)} {lo hi : Option K} {first : T}
    {rest : List (K × T)} (h : Chain cmp strict P lo hi first rest)
    (hP : ∀ lo hi t, P lo hi t → ∀ c ∈ f t, AboveLo cmp lo c.1 ∧ BelowHi cmp strict hi c.1) :
    ∀ c ∈ flat f first rest, AboveLo cmp lo c.1 ∧ BelowHi cmp strict hi c.1 := by
  induction rest generalizing first lo with
  | nil =>
      rw [flat_nil]
      exact hP lo hi first h
  | cons p rest ih =>
      obtain ⟨k, c⟩ := p
      obtain ⟨hfirst, hsep, hbelow, htail⟩ := h
      intro a ha
      rw [flat_cons] at ha
      rcases List.mem_append.mp ha with ha | ha
      · have hb := hP _ _ _ hfirst a ha
        exact ⟨hb.1, fun u hu => (hb.2 k rfl).trans (hbelow u hu)⟩
      · have hb := ih htail a ha
        exact ⟨AboveLo.of_sep hsep (hb.1 k rfl), hb.2⟩

theorem Chain.flat_sorted {f : T → List (K × V)} {lo hi : Option K} {first : T}
    {rest : List (K × T)} (h : Chain cmp strict P lo hi first rest)
    (hP : ∀ lo hi t, P lo hi t → ∀ c ∈ f t, AboveLo cmp lo c.1 ∧ BelowHi cmp strict hi c.1)
    (hsorted : ∀ lo hi t, P lo hi t → (f t).Pairwise fun a b => Rel cmp strict a.1 b.1) :
    (flat f first rest).Pairwise fun a b => Rel cmp strict a.1 b.1 := by
  induction rest generalizing first lo with
  | nil =>
      rw [flat_nil]
      exact hsorted lo hi first h
  | cons p rest ih =>
      obtain ⟨k, c⟩ := p
      obtain ⟨hfirst, -, -, htail⟩ := h
      rw [flat_cons]
      refine List.pairwise_append.mpr ⟨hsorted _ _ _ hfirst, ih htail, ?_⟩
      intro a ha b hb
      exact ((hP _ _ _ hfirst a ha).2 k rfl).of_rel_of_ne_gt
        ((htail.flat_bounds hP b hb).1 k rfl)

theorem cmp_left_of_eq {a key k : K} (ha : cmp a key = .eq) (hk : cmp k a ≠ .gt) :
    cmp k key ≠ .gt :=
  ne_gt_trans hk (by simp [ha])

theorem cmp_right_of_eq {a key k : K} (ha : cmp a key = .eq) (hk : cmp a k ≠ .gt) :
    cmp k key ≠ .lt := by
  intro hlt
  have h₁ : cmp k a = .lt := Std.TransCmp.lt_of_lt_of_eq hlt (Std.OrientedCmp.eq_symm ha)
  exact hk (Std.OrientedCmp.gt_of_lt h₁)

/-- A cell with a key equal to `key` lives in a child between the two partition
points, whose separators bracket the key. -/
theorem Chain.locate {f : T → List (K × V)} {lo hi : Option K} {first : T}
    {rest : List (K × T)} {key : K} {a : K × V} (h : Chain cmp strict P lo hi first rest)
    (hP : ∀ lo hi t, P lo hi t → ∀ c ∈ f t, AboveLo cmp lo c.1 ∧ BelowHi cmp strict hi c.1)
    (ha : a ∈ flat f first rest) (heq : cmp a.1 key = .eq) :
    ∃ j, a ∈ f (child j first rest) ∧ lower cmp key rest ≤ j ∧ j ≤ upper cmp key rest ∧
      (∀ d ∈ rest[j]?, cmp d.1 key ≠ .lt) ∧
      ∀ i, j = i + 1 → ∀ d ∈ rest[i]?, cmp d.1 key ≠ .gt := by
  induction rest generalizing first lo with
  | nil =>
      rw [flat_nil] at ha
      exact ⟨0, ha, Nat.zero_le _, Nat.zero_le _, nofun, nofun⟩
  | cons p rest ih =>
      obtain ⟨k, c⟩ := p
      obtain ⟨hfirst, -, -, htail⟩ := h
      rw [flat_cons, List.mem_append] at ha
      rcases ha with ha | ha
      · -- in the first child: the separator after it is not below the key
        have hk : cmp k key ≠ .lt := cmp_right_of_eq heq ((hP _ _ _ hfirst a ha).2 k rfl).ne_gt
        refine ⟨0, ha, ?_, Nat.zero_le _, ?_, by simp⟩
        · rw [lower_cons_of_ge hk]
        · rintro d ⟨⟩
          exact hk
      · obtain ⟨j, hmem, hlow, hup, hnext, hprev⟩ := ih htail ha
        have hk : cmp k key ≠ .gt := cmp_left_of_eq heq ((htail.flat_bounds hP a ha).1 k rfl)
        refine ⟨j + 1, hmem, ?_, ?_, by simpa using hnext, ?_⟩
        · by_cases hlt : cmp k key = .lt
          · rw [lower_cons_of_lt hlt]
            exact Nat.succ_le_succ hlow
          · rw [lower_cons_of_ge hlt]
            exact Nat.zero_le _
        · rw [upper_cons_of_le hk]
          exact Nat.succ_le_succ hup
        · rintro i ⟨⟩ d hd
          cases j with
          | zero =>
              obtain rfl : (k, c) = d := by simpa using hd
              exact hk
          | succ j => exact hprev j rfl d (by simpa using hd)

/-- The first cell not below the key is equal to it when any cell is. -/
theorem exists_drop_lower {cells : List (K × V)} {key : K} {a : K × V}
    (hsorted : cells.Pairwise fun a b => Rel cmp strict a.1 b.1) (ha : a ∈ cells)
    (heq : cmp a.1 key = .eq) :
    ∃ k v tail, cells.drop (lower cmp key cells) = (k, v) :: tail ∧ cmp k key = .eq := by
  induction cells with
  | nil => simp at ha
  | cons d cells ih =>
      obtain ⟨hd, htail⟩ := List.pairwise_cons.mp hsorted
      by_cases hlt : cmp d.1 key = .lt
      · rw [lower_cons_of_lt hlt, List.drop_succ_cons]
        rcases List.mem_cons.mp ha with rfl | ha
        · simp [heq] at hlt
        · exact ih htail ha
      · rw [lower_cons_of_ge hlt]
        refine ⟨d.1, d.2, cells, rfl, ?_⟩
        rcases List.mem_cons.mp ha with rfl | ha
        · exact heq
        · have hle := cmp_left_of_eq heq (hd a ha).ne_gt
          cases hcmp : cmp d.1 key with
          | lt => exact absurd hcmp hlt
          | eq => rfl
          | gt => exact absurd hcmp hle

end Chains

namespace LevelTree

section Contents

variable [Std.TransCmp cmp] {h : ℕ} {lo hi : Option K}

theorem Inv.bounds {t : LevelTree ι K V h} (hinv : t.Inv cmp strict lo hi) :
    ∀ c ∈ t.toList, AboveLo cmp lo c.1 ∧ BelowHi cmp strict hi c.1 := by
  induction h generalizing lo hi with
  | zero =>
      obtain ⟨id, cells⟩ := t
      exact hinv.2
  | succ h ih =>
      obtain ⟨id, first, rest⟩ := t
      exact Chain.flat_bounds hinv fun _ _ _ h' => ih h'

theorem Inv.sorted {t : LevelTree ι K V h} (hinv : t.Inv cmp strict lo hi) :
    t.toList.Pairwise fun a b => Rel cmp strict a.1 b.1 := by
  induction h generalizing lo hi with
  | zero =>
      obtain ⟨id, cells⟩ := t
      exact hinv.1
  | succ h ih =>
      obtain ⟨id, first, rest⟩ := t
      exact Chain.flat_sorted hinv (fun _ _ _ h' => h'.bounds) fun _ _ _ h' => ih h'

/-! ## Lookup -/

omit [Std.TransCmp cmp] in
theorem get_mem {t : LevelTree ι K V h} {key : K} {v : V} (hget : get cmp key t = some v) :
    ∃ k, (k, v) ∈ t.toList ∧ cmp k key = .eq := by
  induction h with
  | zero =>
      obtain ⟨id, cells⟩ := t
      simp only [get] at hget
      split at hget
      · cases hget
      · rename_i k v' tail hdrop
        split_ifs at hget with heq
        cases hget
        refine ⟨k, ?_, heq⟩
        have : (k, v) ∈ cells.drop (lower cmp key cells) := hdrop ▸ List.mem_cons_self
        exact List.mem_of_mem_drop this
  | succ h ih =>
      obtain ⟨id, first, rest⟩ := t
      have hchild : ∀ c : LevelTree ι K V h, c = first ∨ (∃ k, (k, c) ∈ rest) →
          get cmp key c = some v → ∃ k, (k, v) ∈ flat toList first rest ∧ cmp k key = .eq := by
        intro c hc hget
        obtain ⟨k, hmem, heq⟩ := ih hget
        refine ⟨k, ?_, heq⟩
        unfold flat
        rcases hc with rfl | ⟨k', hc⟩
        · exact List.mem_append_left _ hmem
        · exact List.mem_append_right _ (List.mem_flatMap.mpr ⟨(k', c), hc, hmem⟩)
      simp only [get, Option.or_eq_some_iff] at hget
      rcases hget with hget | ⟨-, hget | ⟨-, hget⟩⟩
      · exact hchild _ (child_mem _ first rest) hget
      · split_ifs at hget
        exact hchild first (Or.inl rfl) hget
      · obtain ⟨c, hc, hget⟩ := List.exists_of_findSome?_eq_some hget
        exact hchild c.2 (Or.inr ⟨c.1, List.mem_of_mem_take (List.mem_of_mem_drop hc)⟩) hget

omit [Std.TransCmp cmp] in
/-- A child between the partition points is visited. -/
theorem get_isSome_of_child {id : ι} {first : LevelTree ι K V h} {rest : List (K × LevelTree ι K V h)}
    {key : K} {j : ℕ} (hlow : lower cmp key rest ≤ j) (hup : j ≤ upper cmp key rest)
    (hget : (get cmp key (child j first rest)).isSome = true) :
    (get cmp key (h := h + 1) (⟨id, first, rest⟩ : Branch ι K (LevelTree ι K V h))).isSome = true := by
  simp only [get, Option.isSome_or, Bool.or_eq_true]
  by_cases hj : j = upper cmp key rest
  · left
    rwa [← hj]
  · right
    cases j with
    | zero =>
        left
        rw [if_pos ⟨by omega, by omega⟩]
        exact hget
    | succ i =>
        right
        have hle : upper cmp key rest ≤ rest.length := upper_le rest
        obtain ⟨c, hc⟩ : ∃ c, rest[i]? = some c :=
          ⟨_, List.getElem?_eq_getElem (by omega)⟩
        rw [child_succ first hc] at hget
        rw [List.findSome?_isSome_iff]
        refine ⟨c, List.mem_iff_getElem?.mpr ⟨i - (lower cmp key rest - 1), ?_⟩, hget⟩
        rw [List.getElem?_drop, List.getElem?_take_of_lt (by omega), ← hc]
        congr 1
        omega

theorem get_isSome {t : LevelTree ι K V h} {key : K} (hinv : t.Inv cmp strict lo hi) {a : K × V}
    (ha : a ∈ t.toList) (heq : cmp a.1 key = .eq) : (get cmp key t).isSome = true := by
  induction h generalizing lo hi with
  | zero =>
      obtain ⟨id, cells⟩ := t
      obtain ⟨k, v, tail, hdrop, hk⟩ := exists_drop_lower hinv.1 ha heq
      simp [get, hdrop, hk]
  | succ h ih =>
      obtain ⟨id, first, rest⟩ := t
      obtain ⟨j, hmem, hlow, hup, -, -⟩ :=
        Chain.locate (f := toList) hinv (fun _ _ _ h' => h'.bounds) ha heq
      obtain ⟨lo', hi', hchild⟩ := Chain.exists_child j hinv
      exact get_isSome_of_child hlow hup (ih hchild hmem)

end Contents

/-! ## Deletion -/

/-- A leaf matcher removes one cell of the kind `M`, and fails on sorted cells
only when there is none. -/
structure LeafMatch (cmp : K → K → Ordering) (strict : Bool) (key : K) (M : K × V → Prop)
    (leafMatch : List (K × V) → Option (List (K × V))) : Prop where
  eq_key : ∀ p, M p → cmp p.1 key = .eq
  some : ∀ cells cells', leafMatch cells = some cells' →
    cells'.Sublist cells ∧ ∃ p, M p ∧ cells.Perm (p :: cells')
  none : ∀ cells, cells.Pairwise (fun a b => Rel cmp strict a.1 b.1) → leafMatch cells = none →
    ∀ p ∈ cells, ¬M p

section Delete

variable {key : K} {M : K × V → Prop} {leafMatch : List (K × V) → Option (List (K × V))} {h : ℕ}

theorem deleteRec_branch {id : ι} {first : LevelTree ι K V h} {rest : List (K × LevelTree ι K V h)}
    {t' : LevelTree ι K V (h + 1)}
    (hdel : deleteRec cmp key leafMatch (h := h + 1) ⟨id, first, rest⟩ = some t') :
    ∃ i ∈ candidates cmp key rest, ∃ t, deleteRec cmp key leafMatch (child i first rest) = some t ∧
      t' = (⟨id, (setChild i t first rest).1, (setChild i t first rest).2⟩ :
        Branch ι K (LevelTree ι K V h)) := by
  simp only [deleteRec] at hdel
  obtain ⟨i, hi, hmap⟩ := List.exists_of_findSome?_eq_some hdel
  obtain ⟨t, ht, heq⟩ := Option.map_eq_some_iff.mp hmap
  exact ⟨i, hi, t, ht, heq.symm⟩

theorem candidates_le {rest : List (K × T)} {i : ℕ} (hi : i ∈ candidates cmp key rest) :
    i ≤ rest.length := by
  have hup : upper cmp key rest ≤ rest.length := upper_le rest
  simp only [candidates, List.mem_cons, List.mem_append, List.mem_map, List.mem_filter,
    List.mem_range] at hi
  rcases hi with rfl | hi | ⟨j, hj, rfl⟩
  · exact hup
  · split_ifs at hi
    · simp at hi
      omega
    · simp at hi
  · exact hj.1

/-- A deletion removes one cell of the kind asked for. -/
theorem deleteRec_perm (hmatch : LeafMatch cmp strict key M leafMatch) {t t' : LevelTree ι K V h}
    (hdel : deleteRec cmp key leafMatch t = some t') :
    ∃ p, M p ∧ t.toList.Perm (p :: t'.toList) := by
  induction h with
  | zero =>
      obtain ⟨id, cells⟩ := t
      obtain ⟨cells', hcells, rfl⟩ := Option.map_eq_some_iff.mp hdel
      exact (hmatch.some cells cells' hcells).2
  | succ h ih =>
      obtain ⟨id, first, rest⟩ := t
      obtain ⟨i, hi, t, ht, rfl⟩ := deleteRec_branch hdel
      obtain ⟨p, hp, hperm⟩ := ih ht
      obtain ⟨A, B, hold, hnew⟩ := flat_splice toList first rest (candidates_le hi)
      refine ⟨p, hp, ?_⟩
      rw [toList_succ, toList_succ, hold, setChild, hnew, flat_nil]
      refine ((hperm.append_left A).append_right B).trans ?_
      simp

theorem deleteRec_inv [Std.TransCmp cmp] (hmatch : LeafMatch cmp strict key M leafMatch)
    {t t' : LevelTree ι K V h} {lo hi : Option K} (hinv : t.Inv cmp strict lo hi)
    (hdel : deleteRec cmp key leafMatch t = some t') : t'.Inv cmp strict lo hi := by
  induction h generalizing lo hi with
  | zero =>
      obtain ⟨id, cells⟩ := t
      obtain ⟨cells', hcells, rfl⟩ := Option.map_eq_some_iff.mp hdel
      have hsub := (hmatch.some cells cells' hcells).1
      exact ⟨hinv.1.sublist hsub, fun c hc => hinv.2 c (hsub.subset hc)⟩
  | succ h ih =>
      obtain ⟨id, first, rest⟩ := t
      obtain ⟨i, -, t, ht, rfl⟩ := deleteRec_branch hdel
      exact Chain.setChild hinv fun _ _ hchild => ih hchild ht

theorem deleteRec_fits {L : Layout K} (hmatch : LeafMatch cmp strict key M leafMatch)
    {t t' : LevelTree ι K V h} (hfits : t.Fits L)
    (hdel : deleteRec cmp key leafMatch t = some t') : t'.Fits L := by
  induction h with
  | zero =>
      obtain ⟨id, cells⟩ := t
      obtain ⟨cells', hcells, rfl⟩ := Option.map_eq_some_iff.mp hdel
      have hsub := (hmatch.some cells cells' hcells).1
      exact ⟨L.leaf.fits_of_sublist (hsub.map _) hfits.1, fun c hc => hfits.2 c (hsub.subset hc)⟩
  | succ h ih =>
      obtain ⟨id, first, rest⟩ := t
      obtain ⟨i, -, t, ht, rfl⟩ := deleteRec_branch hdel
      obtain ⟨hfit, hok, hfirst, hrest⟩ := hfits
      have hkeys := map_fst_setChild i t first rest
      have hset := setChild_forall i (ih (child_forall i hfirst hrest) ht) hfirst hrest
      refine ⟨by rw [hkeys]; exact hfit, ?_, hset.1, hset.2⟩
      intro c hc
      have : c.1 ∈ rest.map Prod.fst := hkeys ▸ List.mem_map_of_mem hc
      obtain ⟨d, hd, hdc⟩ := List.mem_map.mp this
      exact hdc ▸ hok d hd

/-- A child whose separators bracket the key is a candidate. -/
theorem mem_candidates {rest : List (K × T)} {j : ℕ} (hup : j ≤ upper cmp key rest)
    (hnext : ∀ d ∈ rest[j]?, cmp d.1 key ≠ .lt)
    (hprev : ∀ i, j = i + 1 → ∀ d ∈ rest[i]?, cmp d.1 key ≠ .gt) :
    j ∈ candidates cmp key rest := by
  have hle : upper cmp key rest ≤ rest.length := upper_le rest
  simp only [candidates, List.mem_cons, List.mem_append, List.mem_map, List.mem_filter,
    List.mem_range]
  by_cases hj : j = upper cmp key rest
  · exact Or.inl hj
  · right
    cases j with
    | zero =>
        left
        rw [if_pos]
        · simp
        · rw [Bool.and_eq_true]
          refine ⟨?_, by simpa using Ne.symm hj⟩
          cases hrest : rest with
          | nil => rfl
          | cons d rest' => simpa using hnext d (by simp [hrest])
    | succ i =>
        right
        obtain ⟨c, hc⟩ : ∃ c, rest[i]? = some c := ⟨_, List.getElem?_eq_getElem (by omega)⟩
        refine ⟨i, ⟨by omega, ?_⟩, rfl⟩
        have hcle := hprev i rfl c hc
        simp only [hc, Option.any_some, Bool.and_eq_true]
        refine ⟨⟨by simpa using hj, by simpa using hcle⟩, ?_⟩
        cases hd : rest[i + 1]? with
        | none => rfl
        | some d => simpa using hnext d hd

/-- A failed deletion means that there was nothing to delete. -/
theorem deleteRec_none [Std.TransCmp cmp] (hmatch : LeafMatch cmp strict key M leafMatch)
    {t : LevelTree ι K V h} {lo hi : Option K} (hinv : t.Inv cmp strict lo hi)
    (hdel : deleteRec cmp key leafMatch t = none) : ∀ p ∈ t.toList, ¬M p := by
  induction h generalizing lo hi with
  | zero =>
      obtain ⟨id, cells⟩ := t
      exact hmatch.none cells hinv.1 (Option.map_eq_none_iff.mp hdel)
  | succ h ih =>
      obtain ⟨id, first, rest⟩ := t
      intro p hp hMp
      obtain ⟨j, hmem, -, hup, hnext, hprev⟩ :=
        Chain.locate (f := toList) hinv (fun _ _ _ h' => h'.bounds) hp (hmatch.eq_key p hMp)
      obtain ⟨lo', hi', hchild⟩ := Chain.exists_child j hinv
      have hnone : deleteRec cmp key leafMatch (child j first rest) = none := by
        simp only [deleteRec, List.findSome?_eq_none_iff] at hdel
        exact Option.map_eq_none_iff.mp (hdel j (mem_candidates hup hnext hprev))
      exact ih hchild hnone p hmem hMp

end Delete

end LevelTree

end BPlusTree
