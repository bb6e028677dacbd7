import Docsql.Lib.BPlusTreeOrder

/-!
# Insertion keeps a B+ tree in order

One insertion turns a subtree between two bounds into a subtree and possibly a
right sibling between the same bounds.
-/

namespace BPlusTree

variable {ι K V T : Type}

/-! ## Children -/

theorem child_mem (i : ℕ) (first : T) (rest : List (K × T)) :
    child i first rest = first ∨ ∃ k, (k, child i first rest) ∈ rest := by
  induction rest generalizing i first with
  | nil => cases i <;> exact Or.inl rfl
  | cons p rest ih =>
      cases i with
      | zero => exact Or.inl rfl
      | succ i =>
          right
          rcases ih i p.2 with h | ⟨k, h⟩
          · exact ⟨p.1, by simp [child, h]⟩
          · exact ⟨k, List.mem_cons_of_mem _ h⟩

theorem child_forall {P : T → Prop} {first : T} {rest : List (K × T)} (i : ℕ)
    (hfirst : P first) (hrest : ∀ c ∈ rest, P c.2) : P (child i first rest) := by
  rcases child_mem i first rest with h | ⟨k, h⟩
  · rwa [h]
  · exact hrest _ h

theorem setChild_forall {P : T → Prop} {t first : T} {rest : List (K × T)} (i : ℕ)
    (ht : P t) (hfirst : P first) (hrest : ∀ c ∈ rest, P c.2) :
    P (setChild i t first rest).1 ∧ ∀ c ∈ (setChild i t first rest).2, P c.2 := by
  induction rest generalizing i first with
  | nil =>
      cases i with
      | zero => exact ⟨ht, by simp [setChild, splice]⟩
      | succ i => exact ⟨hfirst, by simp [setChild, splice]⟩
  | cons p rest ih =>
      cases i with
      | zero => exact ⟨ht, by simpa [setChild, splice] using hrest⟩
      | succ i =>
          have htail := ih i (hrest p (by simp)) fun c hc => hrest c (by simp [hc])
          refine ⟨hfirst, ?_⟩
          intro c hc
          rcases List.mem_cons.mp hc with rfl | hc
          · exact htail.1
          · exact htail.2 c hc

/-- Replacing a child by one with the same label keeps all labels. -/
theorem map_setChild {β : Type} (g : T → β) (i : ℕ) {t first : T} {rest : List (K × T)}
    (hi : i ≤ rest.length) (ht : g t = g (child i first rest)) :
    g (setChild i t first rest).1 = g first ∧
      (setChild i t first rest).2.map (fun c => (c.1, g c.2)) =
        rest.map fun c => (c.1, g c.2) := by
  induction rest generalizing i first with
  | nil =>
      obtain rfl : i = 0 := by simpa using hi
      exact ⟨ht, rfl⟩
  | cons p rest ih =>
      cases i with
      | zero => exact ⟨ht, rfl⟩
      | succ i =>
          obtain ⟨hfirst, hrest⟩ := ih i (Nat.le_of_succ_le_succ hi) ht
          refine ⟨rfl, ?_⟩
          simp only [setChild, splice, List.map_cons] at hfirst hrest ⊢
          rw [hfirst, hrest]

theorem mem_flat_of_child {β : Type} {f : T → List β} (i : ℕ) {first : T} {rest : List (K × T)} {b : β}
    (hb : b ∈ f (child i first rest)) : b ∈ flat f first rest := by
  unfold flat
  rcases child_mem i first rest with h | ⟨k, h⟩
  · exact List.mem_append_left _ (h ▸ hb)
  · exact List.mem_append_right _ (List.mem_flatMap.mpr ⟨_, h, hb⟩)

/-- A property of all children after one of them is replaced: the others need it
only as far as they share nothing with the replaced one. -/
theorem setChild_forall_of_disjoint {β : Type} {P : T → Prop} {f : T → List β} (i : ℕ)
    {t first : T} {rest : List (K × T)} (hnodup : (flat f first rest).Nodup) (ht : P t)
    (hfirst : (f first).Disjoint (f (child i first rest)) → P first)
    (hrest : ∀ c ∈ rest, (f c.2).Disjoint (f (child i first rest)) → P c.2)
    (hi : i ≤ rest.length) :
    P (setChild i t first rest).1 ∧ ∀ c ∈ (setChild i t first rest).2, P c.2 := by
  induction rest generalizing i first with
  | nil =>
      obtain rfl : i = 0 := by simpa using hi
      exact ⟨ht, by simp [setChild, splice]⟩
  | cons p rest ih =>
      obtain ⟨k, c⟩ := p
      rw [flat_cons, List.nodup_append'] at hnodup
      obtain ⟨-, htail, hdisj⟩ := hnodup
      cases i with
      | zero =>
          refine ⟨ht, fun d hd => hrest d (by simpa [setChild, splice] using hd) ?_⟩
          intro b hb hb'
          refine hdisj hb' ?_
          rcases List.mem_cons.mp (by simpa [setChild, splice] using hd) with rfl | hd
          · exact List.mem_append_left _ hb
          · exact List.mem_append_right _ (List.mem_flatMap.mpr ⟨_, hd, hb⟩)
      | succ i =>
          have hset := ih i htail (hrest (k, c) (by simp))
            (fun d hd => hrest d (by simp [hd])) (Nat.le_of_succ_le_succ hi)
          refine ⟨hfirst fun b hb hb' => hdisj hb (mem_flat_of_child i hb'), ?_⟩
          intro d hd
          rcases List.mem_cons.mp hd with rfl | hd
          · exact hset.1
          · exact hset.2 d hd

theorem exists_rightLeaf (id : ι) {cells : List (K × V)} (h : cells ≠ []) :
    ∃ k v tail, cells = (k, v) :: tail ∧
      LevelTree.rightLeaf id cells = some (k, (⟨id, cells⟩ : Leaf ι K V)) := by
  obtain ⟨⟨k, v⟩, tail, rfl⟩ := List.exists_cons_of_ne_nil h
  exact ⟨k, v, tail, rfl, rfl⟩

theorem exists_rightBranch {h : ℕ} (id : ι) {rest : List (K × LevelTree ι K V h)} (hne : rest ≠ []) :
    ∃ k c tail, rest = (k, c) :: tail ∧
      LevelTree.rightBranch id rest = some (k, (⟨id, c, tail⟩ : Branch ι K (LevelTree ι K V h))) := by
  obtain ⟨⟨k, c⟩, tail, rfl⟩ := List.exists_cons_of_ne_nil hne
  exact ⟨k, c, tail, rfl, rfl⟩

namespace LevelTree

/-- Every node fits its page and holds admissible keys only. -/
def Fits (L : Layout K) : {h : ℕ} → LevelTree ι K V h → Prop
  | 0, ⟨_, cells⟩ => L.leaf.fits (cells.map Prod.fst) = true ∧ ∀ c ∈ cells, L.ok c.1
  | _ + 1, ⟨_, first, rest⟩ =>
    L.branch.fits (rest.map Prod.fst) = true ∧ (∀ c ∈ rest, L.ok c.1) ∧
      first.Fits L ∧ ∀ c ∈ rest, c.2.Fits L

section Insert

variable {cmp : K → K → Ordering} {L : Layout K} {fresh : ℕ → ι} {unique : Bool} {key : K} {val : V}

/-- The cut of an overflowing cell list: both halves are nonempty and fit. -/
theorem cut_cells {α : Type} {ok : K → Prop} {S : Split K ok} {cells : List (K × α)} {i : ℕ}
    {c : K × α} (hok : ∀ c ∈ cells, ok c.1) (hc : ok c.1) (hi : i ≤ cells.length)
    (hfits : S.fits (cells.map Prod.fst) = true)
    (hover : S.fits ((cells.insertIdx i c).map Prod.fst) = false) :
    let m := S.cut ((cells.insertIdx i c).map Prod.fst) i
    1 ≤ m ∧ m < (cells.insertIdx i c).length ∧
      S.fits (((cells.insertIdx i c).take m).map Prod.fst) = true ∧
      S.fits (((cells.insertIdx i c).drop m).map Prod.fst) = true := by
  intro m
  rw [List.map_insertIdx] at hover
  have hkeys : ∀ x ∈ cells.map Prod.fst, ok x := by
    intro x hx
    obtain ⟨d, hd, rfl⟩ := List.mem_map.mp hx
    exact hok d hd
  obtain ⟨hpos, hle, htake, hdrop⟩ :=
    S.cut_spec hkeys hc (by simpa using hi) hfits hover
  rw [← List.map_insertIdx] at hpos hle htake hdrop
  refine ⟨hpos, ?_, by rwa [List.map_take], by rwa [List.map_drop]⟩
  rw [List.length_insertIdx_of_le_length hi]
  rw [List.length_map] at hle
  exact Nat.lt_succ_of_le hle

theorem insertRec_fits {h : ℕ} {t t' : LevelTree ι K V h} {s : Option (K × LevelTree ι K V h)}
    (hkey : L.ok key) (hfits : t.Fits L)
    (hins : insertRec cmp L fresh unique key val t = some (t', s)) :
    t'.Fits L ∧ ∀ c ∈ s, L.ok c.1 ∧ c.2.Fits L := by
  induction h with
  | zero =>
      obtain ⟨id, cells⟩ := t
      obtain ⟨hfit, hok⟩ := hfits
      have hok' : ∀ c ∈ cells.insertIdx (upper cmp key cells) (key, val), L.ok c.1 := by
        intro c hc
        rcases List.eq_or_mem_of_mem_insertIdx hc with rfl | hc
        · exact hkey
        · exact hok c hc
      obtain ⟨-, ⟨hfit', rfl, rfl⟩ | ⟨hover, rfl, rfl⟩⟩ := insertRec_leaf hins
      · exact ⟨⟨hfit', hok'⟩, by simp⟩
      · obtain ⟨-, hlt, htake, hdrop⟩ := cut_cells hok hkey (upper_le cells) hfit hover
        refine ⟨⟨htake, fun c hc => hok' c (List.mem_of_mem_take hc)⟩, ?_⟩
        obtain ⟨k, v, tail, hcells, hright⟩ := exists_rightLeaf (fresh 0)
          (mt List.drop_eq_nil_iff.mp (not_le.mpr hlt))
        rw [hright]
        rintro c ⟨⟩
        have hmem : (k, v) ∈ (cells.insertIdx (upper cmp key cells) (key, val)).drop _ :=
          hcells ▸ List.mem_cons_self
        exact ⟨hok' (k, v) (List.mem_of_mem_drop hmem), hdrop,
          fun c hc => hok' c (List.mem_of_mem_drop hc)⟩
  | succ h ih =>
      obtain ⟨id, first, rest⟩ := t
      obtain ⟨hfit, hok, hfirst, hrest⟩ := hfits
      obtain ⟨t, cs, hrec, hcase⟩ := insertRec_branch hins
      obtain ⟨ht, hcs⟩ := ih (child_forall _ hfirst hrest) hrec
      obtain ⟨hn1, hn2⟩ := setChild_forall (upper cmp key rest) ht hfirst hrest
      have hkeys := map_fst_setChild (upper cmp key rest) t first rest
      have hok' : ∀ c ∈ (setChild (upper cmp key rest) t first rest).2, L.ok c.1 := by
        intro c hc
        have : c.1 ∈ rest.map Prod.fst := hkeys ▸ List.mem_map_of_mem hc
        obtain ⟨d, hd, hdc⟩ := List.mem_map.mp this
        exact hdc ▸ hok d hd
      rw [← hkeys] at hfit
      obtain ⟨rfl, rfl, rfl⟩ | ⟨mid, right, rfl, hcut⟩ := hcase
      · exact ⟨⟨hfit, hok', hn1, hn2⟩, by simp⟩
      · have hi : upper cmp key rest ≤ rest.length := upper_le rest
        have hlen := length_setChild t first rest hi
        have hj : upper cmp mid rest ≤ (setChild (upper cmp key rest) t first rest).2.length :=
          hlen ▸ upper_le rest
        obtain ⟨hmid, hright⟩ := hcs (mid, right) rfl
        generalize setChild (upper cmp key rest) t first rest = n at *
        have hall : ∀ c ∈ n.2.insertIdx (upper cmp mid rest) (mid, right),
            L.ok c.1 ∧ c.2.Fits L := by
          intro c hc
          rcases List.eq_or_mem_of_mem_insertIdx hc with rfl | hc
          · exact ⟨hmid, hright⟩
          · exact ⟨hok' c hc, hn2 c hc⟩
        obtain ⟨hfit', rfl, rfl⟩ | ⟨hover, rfl, rfl⟩ := hcut
        · exact ⟨⟨hfit', fun c hc => (hall c hc).1, hn1, fun c hc => (hall c hc).2⟩, by simp⟩
        · obtain ⟨-, hlt, htake, hdrop⟩ := cut_cells hok' hmid hj hfit hover
          refine ⟨⟨htake, fun c hc => (hall c (List.mem_of_mem_take hc)).1, hn1,
            fun c hc => (hall c (List.mem_of_mem_take hc)).2⟩, ?_⟩
          obtain ⟨k, c, tail, hcells, hr⟩ := exists_rightBranch (fresh (h + 1))
            (mt List.drop_eq_nil_iff.mp (not_le.mpr hlt))
          rw [hr]
          rintro _ ⟨⟩
          have hmem : ∀ d ∈ (k, c) :: tail, L.ok d.1 ∧ d.2.Fits L := by
            intro d hd
            exact hall d (List.mem_of_mem_drop (hcells ▸ hd))
          rw [hcells] at hdrop
          refine ⟨(hmem (k, c) (by simp)).1, ?_, fun d hd => (hmem d (by simp [hd])).1,
            (hmem (k, c) (by simp)).2, fun d hd => (hmem d (by simp [hd])).2⟩
          exact L.branch.fits_of_sublist (List.sublist_cons_self _ _) hdrop

/-- `promoted` predicts the separator that is passed up. -/
theorem insertRec_promoted {h : ℕ} {t t' : LevelTree ι K V h} {s : Option (K × LevelTree ι K V h)}
    (hins : insertRec cmp L fresh unique key val t = some (t', s)) :
    promoted cmp L key t = s.map Prod.fst := by
  induction h with
  | zero =>
      obtain ⟨id, cells⟩ := t
      have hkeys : ((cells.map Prod.fst).insertIdx (upper cmp key cells) key) =
          (cells.insertIdx (upper cmp key cells) (key, val)).map Prod.fst := by
        rw [List.map_insertIdx]
      simp only [promoted, hkeys]
      obtain ⟨-, ⟨hfit, -, rfl⟩ | ⟨hover, -, rfl⟩⟩ := insertRec_leaf hins
      · simp [hfit]
      · rw [if_neg (by simp [hover]), ← List.map_drop, List.head?_map]
        cases (cells.insertIdx (upper cmp key cells) (key, val)).drop _ <;> rfl
  | succ h ih =>
      obtain ⟨id, first, rest⟩ := t
      obtain ⟨t, cs, hrec, hcase⟩ := insertRec_branch hins
      have hchild := ih hrec
      obtain ⟨rfl, -, rfl⟩ | ⟨mid, right, rfl, hcut⟩ := hcase
      · simp [promoted, hchild]
      · have hkeys : ((rest.map Prod.fst).insertIdx (upper cmp mid rest) mid) =
            ((setChild (upper cmp key rest) t first rest).2.insertIdx (upper cmp mid rest)
              (mid, right)).map Prod.fst := by
          rw [List.map_insertIdx, map_fst_setChild]
        simp only [promoted, hchild, Option.map_some, hkeys]
        obtain ⟨hfit, -, rfl⟩ | ⟨hover, -, rfl⟩ := hcut
        · simp [hfit]
        · rw [if_neg (by simp [hover]), ← List.map_drop, List.head?_map]
          cases ((setChild (upper cmp key rest) t first rest).2.insertIdx (upper cmp mid rest)
            (mid, right)).drop _ <;> rfl

/-- A sorted, bracketed cell list cut in two. -/
theorem Inv.cut_leaf [Std.TransCmp cmp] {strict : Bool} {lo hi : Option K} {id id' : ι}
    {xs ys : List (K × V)} {k : K} {v : V} (hne : xs ≠ [])
    (hinv : Inv cmp strict (h := 0) lo hi (⟨id, xs ++ (k, v) :: ys⟩ : Leaf ι K V)) :
    Chain cmp strict (fun lo hi (t : LevelTree ι K V 0) => t.Inv cmp strict lo hi) lo hi
      (⟨id, xs⟩ : Leaf ι K V) [(k, (⟨id', (k, v) :: ys⟩ : Leaf ι K V))] := by
  obtain ⟨hsorted, hbound⟩ := hinv
  obtain ⟨hxs, hys, hcross⟩ := List.pairwise_append.mp hsorted
  have hkself : cmp k k ≠ .gt := by
    have : cmp k k = .eq := Std.ReflCmp.compare_self
    simp [this]
  refine ⟨⟨hxs, fun c hc => ⟨(hbound c (by simp [hc])).1, ?_⟩⟩, ?_,
    (hbound (k, v) (by simp)).2, hys, fun c hc => ⟨?_, (hbound c (by simp [hc])).2⟩⟩
  · rintro u ⟨⟩
    exact hcross c hc (k, v) (by simp)
  · intro l hl
    obtain ⟨c, hc⟩ := List.exists_mem_of_ne_nil xs hne
    exact Rel.of_ne_gt_of_rel ((hbound c (by simp [hc])).1 l hl) (hcross c hc (k, v) (by simp))
  · rintro l ⟨⟩
    rcases List.mem_cons.mp hc with rfl | hc
    · exact hkself
    · exact ((List.pairwise_cons.mp hys).1 c hc).ne_gt

/-- One insertion between two bounds. -/
theorem insertRec_inv [Std.TransCmp cmp] {h : ℕ} {t t' : LevelTree ι K V h}
    {s : Option (K × LevelTree ι K V h)} {lo hi : Option K}
    (hkey : L.ok key) (hfits : t.Fits L) (hinv : t.Inv cmp unique lo hi)
    (hlo : AboveLo cmp lo key) (hhi : ∀ u ∈ hi, cmp key u = .lt)
    (hplace : unique = false → SplitsInPlace cmp L key t)
    (hins : insertRec cmp L fresh unique key val t = some (t', s)) :
    Chain cmp unique (fun lo hi t => t.Inv cmp unique lo hi) lo hi t' s.toList := by
  induction h generalizing lo hi with
  | zero =>
      obtain ⟨id, cells⟩ := t
      obtain ⟨hsorted, hbound⟩ := hinv
      obtain ⟨hdup, hcase⟩ := insertRec_leaf hins
      have hsorted' := pairwise_insertIdx_upper hsorted hdup val
      have hbound' : ∀ c ∈ cells.insertIdx (upper cmp key cells) (key, val),
          AboveLo cmp lo c.1 ∧ BelowHi cmp unique hi c.1 := by
        intro c hc
        rcases List.eq_or_mem_of_mem_insertIdx hc with rfl | hc
        · exact ⟨hlo, fun u hu => Rel.of_lt (hhi u hu)⟩
        · exact hbound c hc
      obtain ⟨-, rfl, rfl⟩ | ⟨hover, rfl, rfl⟩ := hcase
      · exact ⟨hsorted', hbound'⟩
      · obtain ⟨hpos, hlt, -, -⟩ := cut_cells hfits.2 hkey (upper_le cells) hfits.1 hover
        generalize L.leaf.cut _ _ = m at hpos hlt ⊢
        obtain ⟨k, v, tail, hcells, hright⟩ := exists_rightLeaf (fresh 0)
          (mt List.drop_eq_nil_iff.mp (not_le.mpr hlt))
        rw [hright, hcells]
        refine Inv.cut_leaf (List.ne_nil_of_length_pos ?_) ?_
        · rw [List.length_take]
          omega
        · rw [← hcells, List.take_append_drop]
          exact ⟨hsorted', hbound'⟩
  | succ h ih =>
      obtain ⟨id, first, rest⟩ := t
      obtain ⟨hfit, hok, hfirst, hrest⟩ := hfits
      obtain ⟨t, cs, hrec, hcase⟩ := insertRec_branch hins
      obtain ⟨lo', hi', hchild, hlo', hhi', -, hmid, hctx⟩ := Chain.route hinv hlo hhi
      have hstep := ih (child_forall _ hfirst hrest) hchild hlo' hhi' (fun hu => (hplace hu).1) hrec
      have hnode := hctx t cs.toList hstep
      obtain ⟨rfl, rfl, rfl⟩ | ⟨mid, right, rfl, hcut⟩ := hcase
      · exact hnode
      · obtain ⟨hleft, hsep, hbelow, hrightInv⟩ := hstep
        -- the separator passed up lands right after the child it comes from
        have hj : upper cmp mid rest = upper cmp key rest := by
          apply hmid mid (fun l hl => (hsep l hl).ne_gt) hbelow
          intro hu c hc
          refine (hplace hu).2 mid ?_ c hc
          rw [insertRec_promoted hrec]
          rfl
        have hi : upper cmp key rest ≤ rest.length := upper_le rest
        have hsplice : splice (upper cmp key rest) t [(mid, right)] first rest = _ :=
          insertIdx_setChild t first rest (mid, right) hi
        simp only [Option.toList_some, hsplice] at hnode
        rw [hj] at hcut
        obtain ⟨-, rfl, rfl⟩ | ⟨hover, rfl, rfl⟩ := hcut
        · exact hnode
        · have hkeys := map_fst_setChild (upper cmp key rest) t first rest
          have hlen := length_setChild t first rest hi
          have hok' : ∀ c ∈ (setChild (upper cmp key rest) t first rest).2, L.ok c.1 := by
            intro c hc
            have : c.1 ∈ rest.map Prod.fst := hkeys ▸ List.mem_map_of_mem hc
            obtain ⟨d, hd, hdc⟩ := List.mem_map.mp this
            exact hdc ▸ hok d hd
          have hmidok : L.ok mid := ((insertRec_fits hkey (child_forall _ hfirst hrest) hrec).2
            (mid, right) rfl).1
          rw [← hkeys] at hfit
          obtain ⟨-, hlt, -, -⟩ := cut_cells hok' hmidok (hlen ▸ hi) hfit hover
          generalize L.branch.cut _ _ = m at hlt ⊢
          obtain ⟨k, c, tail, hcells, hr⟩ := exists_rightBranch (fresh (h + 1))
            (mt List.drop_eq_nil_iff.mp (not_le.mpr hlt))
          rw [hr]
          rw [← List.take_append_drop m (List.insertIdx _ _ _), hcells] at hnode
          obtain ⟨hl, hrInv, hsep', hbelow'⟩ := hnode.split
          exact ⟨hl, hsep', hbelow', hrInv⟩

end Insert

end LevelTree

end BPlusTree
