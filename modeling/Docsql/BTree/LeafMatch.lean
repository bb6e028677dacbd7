import Docsql.BTree.LookupRefine

/-!
# The leaf matchers of `delete` and `delete_entry`

Both land on a run of equal keys by binary search.  On sorted cells they remove
a matching cell whenever there is one.
-/

namespace Docsql.BTree

open BPlusTree

/-! ## Binary search -/

section Search

variable {β : Type} {ord : β → Ordering} {xs : List β}

theorem searchLoop_spec (hmono : xs.Pairwise fun a b => (ord b != .gt) = true → (ord a != .gt) = true)
    (fuel base size : ℕ) (hsize : 1 ≤ size) (hend : base + size ≤ xs.length)
    (hfuel : size ≤ fuel + 1)
    (hright : partitionPoint (fun x => ord x != .gt) xs ≤ base + size)
    (hleft : base = 0 ∨ base < partitionPoint (fun x => ord x != .gt) xs) :
    let b := searchLoop ord xs fuel base size
    b < xs.length ∧ partitionPoint (fun x => ord x != .gt) xs ≤ b + 1 ∧
      (b = 0 ∨ b < partitionPoint (fun x => ord x != .gt) xs) := by
  induction fuel generalizing base size with
  | zero =>
      obtain rfl : size = 1 := by omega
      exact ⟨by simpa [searchLoop] using hend, hright, hleft⟩
  | succ fuel ih =>
      rw [searchLoop]
      split_ifs with hlt
      · have hmid : base + size / 2 < xs.length := by omega
        have hget : xs[base + size / 2]? = some xs[base + size / 2] := List.getElem?_eq_getElem hmid
        have hside := lt_partitionPoint_iff hmono hget
        cases hcmp : ord xs[base + size / 2] == .gt with
        | true =>
            have hgt : ¬base + size / 2 < partitionPoint (fun x => ord x != .gt) xs := by
              rw [hside]
              simpa using hcmp
            simp only [hget, Option.any_some, hcmp, if_true]
            exact ih _ _ (by omega) (by omega) (by omega) (by omega) hleft
        | false =>
            have hle : base + size / 2 < partitionPoint (fun x => ord x != .gt) xs := by
              rw [hside]
              simpa using hcmp
            simp only [hget, Option.any_some, hcmp, Bool.false_eq_true, if_false]
            exact ih _ _ (by omega) (by omega) (by omega) (by omega) (Or.inr hle)
      · obtain rfl : size = 1 := by omega
        exact ⟨by omega, hright, hleft⟩

theorem binarySearchBy_some {i : ℕ} (h : binarySearchBy ord xs = some i) :
    ∃ x, xs[i]? = some x ∧ ord x = .eq := by
  unfold binarySearchBy at h
  simp only at h
  split_ifs at h with hany
  obtain ⟨x, hx, heq⟩ := (Option.any_eq_true _ _).mp hany
  cases h
  exact ⟨x, hx, by simpa using heq⟩

/-- On a sorted list the search finds a match if there is one. -/
theorem binarySearchBy_none
    (hmono : xs.Pairwise fun a b => (ord b != .gt) = true → (ord a != .gt) = true)
    (hlt : xs.Pairwise fun a b => ord a = .eq → ord b ≠ .lt)
    (h : binarySearchBy ord xs = none) : ∀ x ∈ xs, ord x ≠ .eq := by
  intro x hx heq
  obtain ⟨i, hi⟩ := List.mem_iff_getElem?.mp hx
  have hilt : i < xs.length := (List.getElem?_eq_some_iff.mp hi).1
  have hpart : i < partitionPoint (fun x => ord x != .gt) xs := by
    rw [lt_partitionPoint_iff hmono hi, heq]
    rfl
  obtain ⟨hb, hright, hleft⟩ := searchLoop_spec hmono xs.length 0 xs.length
    (by omega) (by omega) (by omega) (by simpa using partitionPoint_le _ xs) (Or.inl rfl)
  unfold binarySearchBy at h
  simp only at h
  set b := searchLoop ord xs xs.length 0 xs.length
  have hget : xs[b]? = some xs[b] := List.getElem?_eq_getElem hb
  have hne : ord xs[b] ≠ .eq := by
    intro hbeq
    simp [hget, hbeq] at h
  have hngt : ord xs[b] ≠ .gt := by
    have := (lt_partitionPoint_iff hmono hget).mp (by omega)
    simpa using this
  -- the match is at or before the cell the search stops at
  rcases Nat.lt_or_ge i b with hib | hib
  · have hnlt := List.pairwise_iff_getElem.mp hlt i b hilt hb hib
    rw [List.getElem?_eq_getElem hilt, Option.some.injEq] at hi
    rw [hi] at hnlt
    cases hcmp : ord xs[b] with
    | lt => exact hnlt heq hcmp
    | eq => exact hne hcmp
    | gt => exact hngt hcmp
  · obtain rfl : i = b := by omega
    rw [hget, Option.some.injEq] at hi
    exact hne (hi ▸ heq)

end Search

/-! ## Sorted cells -/

section Cells

variable {strict : Bool} {key : Value} {loc : UInt64} {cells : List (Value × UInt64)}

theorem search_mono (hsorted : cells.Pairwise fun a b => Rel cmpValues strict a.1 b.1) :
    cells.Pairwise fun a b => (cmpValues b.1 key != .gt) = true → (cmpValues a.1 key != .gt) = true := by
  refine hsorted.imp ?_
  intro a b hab hb
  have hb' : cmpValues b.1 key ≠ .gt := by simpa using hb
  simpa using ne_gt_trans hab.ne_gt hb'

theorem search_not_lt (hsorted : cells.Pairwise fun a b => Rel cmpValues strict a.1 b.1) :
    cells.Pairwise fun a b => cmpValues a.1 key = .eq → cmpValues b.1 key ≠ .lt := by
  refine hsorted.imp ?_
  intro a b hab ha
  exact cmp_right_of_eq ha hab.ne_gt

theorem search_none (hsorted : cells.Pairwise fun a b => Rel cmpValues strict a.1 b.1)
    (h : binarySearchBy (fun c => cmpValues c.1 key) cells = none) :
    ∀ c ∈ cells, cmpValues c.1 key ≠ .eq :=
  binarySearchBy_none (search_mono hsorted) (search_not_lt hsorted) h

theorem eraseIdx_match {i : ℕ} {c : Value × UInt64} (hi : cells[i]? = some c) :
    (cells.eraseIdx i).Sublist cells ∧ cells.Perm (c :: cells.eraseIdx i) := by
  obtain ⟨hlt, rfl⟩ := List.getElem?_eq_some_iff.mp hi
  exact ⟨List.eraseIdx_sublist cells i, (List.getElem_cons_eraseIdx_perm hlt).symm⟩

theorem matchKey_leafMatch (key : Value) :
    LevelTree.LeafMatch cmpValues strict key (fun p => cmpValues p.1 key = .eq) (matchKey key) where
  eq_key := fun _ hp => hp
  some := by
    intro cells cells' hm
    obtain ⟨i, hi, rfl⟩ := Option.map_eq_some_iff.mp hm
    obtain ⟨c, hc, heq⟩ := binarySearchBy_some hi
    obtain ⟨hsub, hperm⟩ := eraseIdx_match hc
    exact ⟨hsub, c, heq, hperm⟩
  none := by
    intro cells hsorted hm
    exact search_none hsorted (Option.map_eq_none_iff.mp hm)

/-! ## Runs of equal keys -/

theorem runStart_le (i : ℕ) : runStart key cells i ≤ i := by
  induction i with
  | zero => exact le_rfl
  | succ i ih =>
      rw [runStart]
      split_ifs
      · exact ih.trans (Nat.le_succ i)
      · exact le_rfl

/-- The run starts at an equal cell, and the cell before it is not equal. -/
theorem runStart_spec {i : ℕ} (hi : ∃ c, cells[i]? = some c ∧ cmpValues c.1 key = .eq) :
    (∃ c, cells[runStart key cells i]? = some c ∧ cmpValues c.1 key = .eq) ∧
      ∀ j, runStart key cells i = j + 1 → ∀ c, cells[j]? = some c → cmpValues c.1 key ≠ .eq := by
  induction i with
  | zero => exact ⟨hi, by simp [runStart]⟩
  | succ i ih =>
      rw [runStart]
      split_ifs with hany
      · obtain ⟨c, hc, heq⟩ := (Option.any_eq_true _ _).mp hany
        exact ih ⟨c, hc, by simpa using heq⟩
      · refine ⟨hi, ?_⟩
        rintro j hj c hc heq
        obtain rfl : i = j := by omega
        exact hany (by simp [hc, heq])

theorem scanRun_some {cs : List (Value × UInt64)} {start j : ℕ}
    (h : scanRun key loc cs start = some j) :
    ∃ c, start ≤ j ∧ cs[j - start]? = some c ∧ cmpValues c.1 key = .eq ∧ c.2 = loc := by
  induction cs generalizing start with
  | nil => simp [scanRun] at h
  | cons c cs ih =>
      rw [scanRun] at h
      split_ifs at h with heq hloc
      · cases h
        exact ⟨c, le_rfl, by simp, heq, hloc⟩
      · obtain ⟨d, hle, hd, hdeq, hdloc⟩ := ih h
        refine ⟨d, by omega, ?_, hdeq, hdloc⟩
        rw [show j - start = (j - (start + 1)) + 1 by omega]
        simpa using hd

/-- Past the run of equal keys there is no equal key any more. -/
theorem scanRun_none {cs : List (Value × UInt64)} {start : ℕ}
    (hsorted : cs.Pairwise fun a b => Rel cmpValues strict a.1 b.1)
    (hge : ∀ c ∈ cs, cmpValues c.1 key ≠ .lt) (h : scanRun key loc cs start = none) :
    ∀ c ∈ cs, ¬(cmpValues c.1 key = .eq ∧ c.2 = loc) := by
  induction cs generalizing start with
  | nil => simp
  | cons d cs ih =>
      obtain ⟨hd, htail⟩ := List.pairwise_cons.mp hsorted
      rw [scanRun] at h
      split_ifs at h with heq hloc
      · intro c hc
        rcases List.mem_cons.mp hc with rfl | hc
        · exact fun hboth => hloc hboth.2
        · exact ih htail (fun c hc => hge c (by simp [hc])) h c hc
      · have hgt : cmpValues d.1 key = .gt := by
          have hlt := hge d List.mem_cons_self
          cases hcmp : cmpValues d.1 key with
          | lt => exact absurd hcmp hlt
          | eq => exact absurd hcmp heq
          | gt => rfl
        rintro c hc ⟨hceq, -⟩
        rcases List.mem_cons.mp hc with rfl | hc
        · exact heq hceq
        · exact cmp_left_of_eq hceq (hd c hc).ne_gt hgt

theorem matchEntry_leafMatch (key : Value) (loc : UInt64) :
    LevelTree.LeafMatch cmpValues strict key (fun p => cmpValues p.1 key = .eq ∧ p.2 = loc)
      (matchEntry key loc) where
  eq_key := fun _ hp => hp.1
  some := by
    intro cells cells' hm
    unfold matchEntry at hm
    split at hm
    · cases hm
    · obtain ⟨j, hj, rfl⟩ := Option.map_eq_some_iff.mp hm
      obtain ⟨c, hle, hc, heq, hloc⟩ := scanRun_some hj
      rw [List.getElem?_drop, Nat.add_sub_cancel' hle] at hc
      obtain ⟨hsub, hperm⟩ := eraseIdx_match hc
      exact ⟨hsub, c, ⟨heq, hloc⟩, hperm⟩
  none := by
    intro cells hsorted hm
    unfold matchEntry at hm
    split at hm
    · rename_i hnone
      exact fun c hc hboth => search_none hsorted hnone c hc hboth.1
    · rename_i i hsome
      obtain ⟨⟨d, hd, hdeq⟩, hbefore⟩ := runStart_spec (binarySearchBy_some hsome)
      have hscan := Option.map_eq_none_iff.mp hm
      set start := runStart key cells i
      have hstart : start < cells.length := (List.getElem?_eq_some_iff.mp hd).1
      have hdrop : cells.drop start = d :: cells.drop (start + 1) := by
        obtain ⟨-, rfl⟩ := List.getElem?_eq_some_iff.mp hd
        exact List.drop_eq_getElem_cons hstart
      have hsortedDrop := hsorted.sublist (List.drop_sublist start cells)
      have hge : ∀ c ∈ cells.drop start, cmpValues c.1 key ≠ .lt := by
        rw [hdrop] at hsortedDrop ⊢
        intro c hc
        rcases List.mem_cons.mp hc with rfl | hc
        · simp [hdeq]
        · exact cmp_right_of_eq hdeq ((List.pairwise_cons.mp hsortedDrop).1 c hc).ne_gt
      rintro c hc ⟨heq, hloc⟩
      rw [← List.take_append_drop start cells, List.mem_append] at hc
      rcases hc with hc | hc
      · -- left of the run: the cell before it would be equal too
        obtain ⟨k, hk⟩ := List.mem_iff_getElem?.mp hc
        have hklt : k < start := by
          have := (List.getElem?_eq_some_iff.mp hk).1
          rw [List.length_take] at this
          omega
        rw [List.getElem?_take_of_lt hklt] at hk
        obtain ⟨j, hj⟩ : ∃ j, start = j + 1 := ⟨start - 1, by omega⟩
        have hjget : cells[j]? = some cells[j] := List.getElem?_eq_getElem (by omega)
        refine hbefore j hj _ hjget ?_
        have hsort := List.pairwise_iff_getElem.mp hsorted
        obtain ⟨hkl, rfl⟩ := List.getElem?_eq_some_iff.mp hk
        obtain ⟨hdl, rfl⟩ := List.getElem?_eq_some_iff.mp hd
        rcases Nat.lt_or_ge k j with hkj | hkj
        · have hnlt := cmp_right_of_eq heq (hsort k j hkl (by omega) hkj).ne_gt
          have hngt := cmp_left_of_eq hdeq (hsort j start (by omega) hdl (by omega)).ne_gt
          cases hcmp : cmpValues cells[j].1 key with
          | lt => exact absurd hcmp hnlt
          | eq => rfl
          | gt => exact absurd hcmp hngt
        · obtain rfl : k = j := by omega
          exact heq
      · exact scanRun_none hsortedDrop hge hscan c hc ⟨heq, hloc⟩

end Cells

end Docsql.BTree
