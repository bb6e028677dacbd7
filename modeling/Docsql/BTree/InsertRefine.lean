import Docsql.BTree.Represent

/-!
# `insert` on pages

Running `insert` on the pages of a tree leaves the pages of the tree with the
cell inserted, as long as there are pages left and the tree is no deeper than
the recursion goes.
-/

namespace Docsql.BTree

open BPlusTree StateExcept

variable {codec : DecimalCodec} {h : ℕ} {key : Value} {val : UInt64} {unique : Bool} {s : Store}

theorem KeyOk.exists_encodeKey {k : Value} (hk : KeyOk codec k) :
    ∃ kb, encodeKey codec k = .ok kb ∧ 2 + kb.length + 8 ≤ leafCellCap := by
  obtain ⟨-, kb, hkb, hcap⟩ := hk
  exact ⟨kb, encodeKey_eq_ok.mpr hkb, hcap⟩

theorem notAbove_eq {α : Type} (key : Value) (cells : List (Value × α)) :
    notAbove key cells = upper cmpValues key cells := rfl

/-- Writing both halves of a cut node. -/
theorem write_halves {left right : Node} {pl pr : Page} {id : ℕ} (hs : s.Ok)
    (hid : s.InFile id) (hne : id ≠ s.fresh 0) (havail : 0 < s.available)
    (hleft : nodeImage codec left = .ok pl) (hright : nodeImage codec right = .ok pr) :
    ∃ s', (∀ {β : Type} (f : ℕ → BTreeM β), (do
        let r ← allocatePage
        writeNode codec id left
        writeNode codec r right
        f r) s = f (s.fresh 0) s') ∧
      s.After s' 1 [id] ∧ s'.image id = pl ∧ s'.image (s.fresh 0) = pr := by
  obtain ⟨s₁, halloc, hafter⟩ := allocatePage_ok hs havail
  have hid₁ := hafter.inFile hid
  have hfresh := hafter.fresh_inFile hs Nat.zero_lt_one
  refine ⟨{ s₁ with image := Function.update (Function.update s₁.image id pl) (s.fresh 0) pr },
    ?_, ?_, ?_, ?_⟩
  · intro β f
    rw [bind_ok halloc, bind_ok (writeNode_ok hid₁ hleft)]
    exact bind_ok (writeNode_ok hfresh hright)
  · have h₂ := (hafter.trans (Store.after_write s₁ id pl)).trans (Store.after_write _ (s.fresh 0) pr)
    exact h₂.mono (by simp)
  · simp [Function.update_of_ne hne]
  · simp

/-- `insert_rec` at a leaf that takes the cell. -/
theorem insertRec_leaf_sim {room id : ℕ} {cells : List (Value × UInt64)} {t' : PageTree 0}
    {sp : Option (Value × PageTree 0)} (hs : s.Ok)
    (hown : s.Owns (LevelTree.pages (h := 0) ⟨id, cells⟩))
    (hrep : Represents codec s.image (h := 0) ⟨id, cells⟩)
    (hfits : LevelTree.Fits (h := 0) (layout codec) ⟨id, cells⟩) (hkey : KeyOk codec key)
    (hpages : LevelTree.cuts (h := 0) cmpValues (layout codec) key ⟨id, cells⟩ ≤ s.available)
    (hins : LevelTree.insertRec (h := 0) cmpValues (layout codec) s.fresh unique key val ⟨id, cells⟩ =
      some (t', sp)) :
    ∃ s', insertRec codec key val unique (room + 1) id s =
        (.ok (sp.map fun c => (c.1, c.2.root)), s') ∧
      s.After s' (LevelTree.cuts (h := 0) cmpValues (layout codec) key ⟨id, cells⟩) [id] ∧
      Represents codec s'.image t' ∧ ∀ c ∈ sp, Represents codec s'.image c.2 := by
  obtain ⟨kb, hkb, hcap⟩ := hkey.exists_encodeKey
  have hid : s.InFile id := hown.inFile id List.mem_cons_self
  have hne : id ≠ s.fresh 0 := hown.ne_fresh List.mem_cons_self 0
  obtain ⟨hdup, hcase⟩ := LevelTree.insertRec_leaf hins
  have hdup' : (unique && ((cells.take (upper cmpValues key cells)).getLast?.any fun c =>
      cmpValues c.1 key == .eq)) = false := by
    rw [Bool.and_eq_false_imp]
    intro hu
    rw [Option.any_eq_false]
    intro c hc
    simpa using hdup hu c hc
  have hok : ∀ c ∈ cells.insertIdx (upper cmpValues key cells) (key, val), KeyOk codec c.1 := by
    intro c hc
    rcases List.eq_or_mem_of_mem_insertIdx hc with rfl | hc
    · exact hkey
    · exact hfits.2 c hc
  rw [insertRec, bind_ok (readNode_leaf hown hrep hfits)]
  simp only [notAbove_eq, hdup']
  rw [if_neg (by simp), fromExcept_bind hkb, if_neg (by omega),
    fromExcept_bind (nodeBytes_eq 3 8 hok)]
  have hkeys : ((cells.map Prod.fst).insertIdx (upper cmpValues key cells) key) =
      (cells.insertIdx (upper cmpValues key cells) (key, val)).map Prod.fst := by
    rw [List.map_insertIdx]
  simp only [LevelTree.cuts, hkeys] at hpages ⊢
  obtain ⟨hfit, rfl, rfl⟩ | ⟨hover, rfl, rfl⟩ := hcase
  · obtain ⟨page, hpage⟩ := nodeImage_of_fits_leaf hok hfit
    rw [if_pos (of_decide_eq_true hfit), bind_ok (writeNode_ok hid hpage)]
    refine ⟨_, rfl, ?_, ?_, by simp⟩
    · rw [if_pos hfit]
      exact Store.after_write s id page
    · simpa [Represents] using hpage
  · obtain ⟨-, hlt, htake, hdrop⟩ := LevelTree.cut_cells (c := (key, val)) hfits.2 hkey
      (upper_le cells) hfits.1 hover
    rw [if_neg (by simpa using hover)] at hpages
    obtain ⟨pl, hpl⟩ := nodeImage_of_fits_leaf (fun c hc => hok c (List.mem_of_mem_take hc)) htake
    obtain ⟨pr, hpr⟩ := nodeImage_of_fits_leaf (fun c hc => hok c (List.mem_of_mem_drop hc)) hdrop
    obtain ⟨s', hrun, hafter, hil, hir⟩ := write_halves hs hid hne hpages hpl hpr
    obtain ⟨k, v, tail, hcells, hright⟩ := exists_rightLeaf (s.fresh 0)
      (mt List.drop_eq_nil_iff.mp (not_le.mpr hlt))
    refine ⟨s', ?_, ?_, ?_, ?_⟩
    · rw [if_neg (of_decide_eq_false hover), fromExcept_bind (splitAtForInsert_eq _ 3 8 hok)]
      refine (hrun _).trans (congrArg (fun r => (Except.ok r, s')) ?_)
      rw [hright]
      exact congrArg (fun cs => cs.head?.map fun c => (c.1, s.fresh 0)) hcells
    · rw [if_neg (by simpa using hover)]
      exact hafter
    · rw [Represents, hil]
      exact hpl
    · rw [hright]
      rintro c ⟨⟩
      rw [Represents, hir]
      exact hpr

section Branch

variable {id k : ℕ} {first : PageTree h} {rest : List (Value × PageTree h)} {s' : Store}

theorem nodup_flat (hown : s.Owns (LevelTree.pages (h := h + 1) ⟨id, first, rest⟩)) :
    (flat LevelTree.pages first rest).Nodup :=
  (List.nodup_cons.mp hown.nodup).2

theorem id_not_mem (hown : s.Owns (LevelTree.pages (h := h + 1) ⟨id, first, rest⟩)) :
    id ∉ flat LevelTree.pages first rest :=
  (List.nodup_cons.mp hown.nodup).1

/-- The children after one of them was changed on its own pages. -/
theorem represents_setChild {i : ℕ} {t : PageTree h} (hi : i ≤ rest.length)
    (hown : s.Owns (LevelTree.pages (h := h + 1) ⟨id, first, rest⟩))
    (hrep : Represents codec s.image (h := h + 1) ⟨id, first, rest⟩)
    (hafter : s.After s' k (child i first rest).pages) (ht : Represents codec s'.image t) :
    Represents codec s'.image (setChild i t first rest).1 ∧
      ∀ c ∈ (setChild i t first rest).2, Represents codec s'.image c.2 := by
  have hkeep : ∀ c : PageTree h, Represents codec s.image c →
      (∀ p ∈ c.pages, p ∈ flat LevelTree.pages first rest) →
      c.pages.Disjoint (child i first rest).pages → Represents codec s'.image c := by
    intro c hc hsub hdisj
    refine hc.congr fun p hp => hafter.image p (hdisj hp) ?_
    exact fun j _ => hown.ne_fresh (List.mem_cons_of_mem _ (hsub p hp)) j
  refine setChild_forall_of_disjoint i (nodup_flat hown) ht ?_ ?_ hi
  · exact hkeep first hrep.2.1 fun p hp => List.mem_append_left _ hp
  · intro c hc
    refine hkeep c.2 (hrep.2.2 c hc) fun p hp => ?_
    exact List.mem_append_right _ (List.mem_flatMap.mpr ⟨c, hc, hp⟩)

theorem image_id {i : ℕ} (hown : s.Owns (LevelTree.pages (h := h + 1) ⟨id, first, rest⟩))
    (hafter : s.After s' k (child i first rest).pages) : s'.image id = s.image id := by
  refine hafter.image id ?_ fun j _ => hown.ne_fresh List.mem_cons_self j
  exact fun hmem => id_not_mem hown (mem_flat_of_child i hmem)

theorem after_branch {i : ℕ} (hafter : s.After s' k (child i first rest).pages) :
    s.After s' k (LevelTree.pages (h := h + 1) ⟨id, first, rest⟩) :=
  hafter.mono fun _ hp => Or.inl (List.mem_cons_of_mem _ (mem_flat_of_child i hp))

/-- The internal node is unchanged when a child keeps its page. -/
theorem represents_branch {i : ℕ} {t : PageTree h} (hi : i ≤ rest.length)
    (hown : s.Owns (LevelTree.pages (h := h + 1) ⟨id, first, rest⟩))
    (hrep : Represents codec s.image (h := h + 1) ⟨id, first, rest⟩)
    (hafter : s.After s' k (child i first rest).pages) (ht : Represents codec s'.image t)
    (hroot : t.root = (child i first rest).root) :
    Represents codec s'.image (h := h + 1)
      ⟨id, (setChild i t first rest).1, (setChild i t first rest).2⟩ := by
  obtain ⟨hfirst, hrest⟩ := map_setChild LevelTree.root i hi hroot
  refine ⟨?_, represents_setChild hi hown hrep hafter ht⟩
  rw [childCells, hfirst, hrest, image_id hown hafter]
  exact hrep.1

/-- Where the pages below a node come from when a child was cut. -/
theorem mem_node_pages {i j p : ℕ} {t right : PageTree h} {mid : Value} (hi : i ≤ rest.length)
    (hj : j ≤ rest.length)
    (hperm : (t.pages ++ right.pages).Perm
      ((child i first rest).pages ++ (List.range k).map s.fresh))
    (hp : p ∈ flat LevelTree.pages (setChild i t first rest).1
      ((setChild i t first rest).2.insertIdx j (mid, right))) :
    p ∈ flat LevelTree.pages first rest ∨ ∃ n < k, s.fresh n = p := by
  obtain ⟨A, B, hold, hnew⟩ := flat_splice LevelTree.pages first rest hi
  have hchild : p ∈ t.pages ++ right.pages →
      p ∈ flat LevelTree.pages first rest ∨ ∃ n < k, s.fresh n = p := by
    intro hp
    rcases List.mem_append.mp (hperm.mem_iff.mp hp) with hp | hp
    · exact Or.inl (mem_flat_of_child i hp)
    · exact Or.inr (by simpa using hp)
  have hlen := length_setChild t first rest hi
  rw [(flat_insertIdx_perm LevelTree.pages _ _ (hlen ▸ hj) (mid, right)).mem_iff, setChild, hnew,
    flat_nil] at hp
  simp only [List.mem_append] at hp hchild
  rcases hp with hp | (hp | hp) | hp
  · exact hchild (Or.inr hp)
  · exact Or.inl (by simp [hold, hp])
  · exact hchild (Or.inl hp)
  · exact Or.inl (by simp [hold, hp])

end Branch

/-- An internal node takes the separator of a cut child. -/
theorem takeSeparator_sim {id j : ℕ} {first : PageTree h} {rest : List (Value × PageTree h)}
    {mid : Value} {right : PageTree h} (hs : s.Ok) (hid : s.InFile id)
    (hfits : (layout codec).branch.fits (rest.map Prod.fst) = true)
    (hok : ∀ c ∈ rest, KeyOk codec c.1) (hmid : KeyOk codec mid)
    (hj : j = upper cmpValues mid rest)
    (hpages : (layout codec).branch.fits ((rest.insertIdx j (mid, right)).map Prod.fst) = false →
      0 < s.available)
    (hfirst : Represents codec s.image first)
    (hrest : ∀ c ∈ rest.insertIdx j (mid, right), Represents codec s.image c.2)
    (hold : ∀ p ∈ flat LevelTree.pages first (rest.insertIdx j (mid, right)),
      p ≠ id ∧ p ≠ s.fresh 0) (hne : id ≠ s.fresh 0) :
    let rest' := rest.insertIdx j (mid, right)
    let m := (layout codec).branch.cut (rest'.map Prod.fst) j
    ((layout codec).branch.fits (rest'.map Prod.fst) = true →
      ∃ s', takeSeparator codec id first.root (childCells rest) mid right.root s = (.ok none, s') ∧
        s.After s' 0 [id] ∧ Represents codec s'.image (h := h + 1) ⟨id, first, rest'⟩) ∧
    ((layout codec).branch.fits (rest'.map Prod.fst) = false →
      ∃ s', takeSeparator codec id first.root (childCells rest) mid right.root s =
          (.ok ((LevelTree.rightBranch (s.fresh 0) (rest'.drop m)).map fun c => (c.1, c.2.root)), s') ∧
        s.After s' 1 [id] ∧ Represents codec s'.image (h := h + 1) ⟨id, first, rest'.take m⟩ ∧
        ∀ c ∈ LevelTree.rightBranch (s.fresh 0) (rest'.drop m), Represents codec s'.image c.2) := by
  intro rest' m
  obtain ⟨mb, hmb, hcap⟩ := hmid.exists_encodeKey
  have hup : notAbove mid (childCells rest) = j := by
    rw [hj]
    exact upper_map _ rest
  have hcells : (childCells rest).insertIdx j (mid, right.root) = childCells rest' := by
    simp [childCells, rest', List.map_insertIdx]
  have hok' : ∀ c ∈ childCells rest', KeyOk codec c.1 := by
    intro c hc
    obtain ⟨d, hd, rfl⟩ := List.mem_map.mp hc
    rcases List.eq_or_mem_of_mem_insertIdx hd with rfl | hd
    · exact hmid
    · exact hok d hd
  have hkeep : ∀ {s' : Store} {k : ℕ}, s.After s' k [id] → k ≤ 1 → ∀ c : PageTree h,
      Represents codec s.image c → (∀ p ∈ c.pages, p ∈ flat LevelTree.pages first rest') →
      Represents codec s'.image c := by
    intro s' k hafter hk c hc hsub
    refine hc.congr fun p hp => hafter.image p ?_ ?_
    · simpa using (hold p (hsub p hp)).1
    · intro i hi
      obtain rfl : i = 0 := by omega
      exact (hold p (hsub p hp)).2
  have hcap' : ¬internalCellCap < 2 + mb.length + 4 := by
    have h₁ : leafCellCap = 2046 := rfl
    have h₂ : internalCellCap = 2044 := rfl
    omega
  have hsubfirst : ∀ p ∈ first.pages, p ∈ flat LevelTree.pages first rest' :=
    fun p hp => List.mem_append_left _ hp
  have hsub : ∀ c ∈ rest', ∀ p ∈ c.2.pages, p ∈ flat LevelTree.pages first rest' :=
    fun c hc p hp => List.mem_append_right _ (List.mem_flatMap.mpr ⟨c, hc, hp⟩)
  rw [takeSeparator]
  simp only [hup, hcells]
  rw [fromExcept_bind hmb, if_neg hcap', fromExcept_bind (nodeBytes_eq 7 4 hok'), childCells_keys]
  constructor
  · intro hfit
    obtain ⟨page, hpage⟩ := nodeImage_of_fits_internal first.root hok' (childCells_keys ▸ hfit)
    have hafter := Store.after_write s id page
    rw [if_pos (of_decide_eq_true hfit), bind_ok (writeNode_ok hid hpage)]
    refine ⟨_, rfl, hafter, ?_, hkeep hafter (by omega) first hfirst hsubfirst,
      fun c hc => hkeep hafter (by omega) c.2 (hrest c hc) (hsub c hc)⟩
    simpa using hpage
  · intro hover
    have hjle : j ≤ rest.length := hj ▸ upper_le rest
    obtain ⟨-, hlt, htake, hdrop⟩ := LevelTree.cut_cells (c := (mid, right)) hok hmid hjle hfits hover
    obtain ⟨k, c, tail, hcell, hr⟩ := exists_rightBranch (s.fresh 0)
      (mt List.drop_eq_nil_iff.mp (not_le.mpr hlt))
    have hdropCells : (childCells rest').drop m = (k, c.root) :: childCells tail := by
      rw [childCells, ← List.map_drop]
      exact congrArg childCells hcell
    have htakeCells : (childCells rest').take m = childCells (rest'.take m) := by
      simp [childCells]
    have hmem : ∀ d ∈ (k, c) :: tail, d ∈ rest' := by
      intro d hd
      exact List.mem_of_mem_drop (hcell ▸ hd)
    have hokl : ∀ d ∈ childCells (rest'.take m), KeyOk codec d.1 :=
      fun d hd => hok' d (List.mem_of_mem_take (htakeCells ▸ hd))
    have hokr : ∀ d ∈ childCells tail, KeyOk codec d.1 :=
      fun d hd => hok' d (List.mem_of_mem_drop (hdropCells ▸ List.mem_cons_of_mem _ hd))
    have htail : (layout codec).branch.fits (tail.map Prod.fst) = true := by
      rw [hcell] at hdrop
      exact (layout codec).branch.fits_of_sublist (List.sublist_cons_self _ _) hdrop
    obtain ⟨pl, hpl⟩ := nodeImage_of_fits_internal first.root hokl (childCells_keys ▸ htake)
    obtain ⟨pr, hpr⟩ := nodeImage_of_fits_internal c.root hokr (childCells_keys ▸ htail)
    obtain ⟨s', hrun, hafter, hil, hir⟩ := write_halves hs hid hne (hpages hover) hpl hpr
    rw [if_neg (of_decide_eq_false hover),
      fromExcept_bind (splitAtForInsert_eq j 7 4 hok'), childCells_keys]
    refine ⟨s', ?_, hafter, ⟨?_, hkeep hafter le_rfl first hfirst hsubfirst, ?_⟩, ?_⟩
    · have hm : splitPoint ((rest'.map Prod.fst).map (cellSize codec 4)) j 7 = m := rfl
      have hr' : LevelTree.rightBranch (s.fresh 0) (rest'.drop m) = _ := hr
      simp only [hm, hdropCells, htakeCells]
      rw [hr']
      exact hrun _
    · rw [hil]
      exact hpl
    · intro d hd
      have hd' := List.mem_of_mem_take hd
      exact hkeep hafter le_rfl d.2 (hrest d hd') (hsub d hd')
    · rw [hr]
      rintro d ⟨⟩
      have hrep : ∀ d ∈ (k, c) :: tail, Represents codec s'.image d.2 := fun d hd =>
        hkeep hafter le_rfl d.2 (hrest d (hmem d hd)) (hsub d (hmem d hd))
      refine ⟨?_, hrep (k, c) (by simp), fun d hd => hrep d (by simp [hd])⟩
      rw [hir]
      exact hpr

/-- `insert_rec` on the pages of a tree. -/
theorem insertRec_sim {room : ℕ} {t t' : PageTree h} {sp : Option (Value × PageTree h)}
    (hroom : h < room) (hs : s.Ok) (hown : s.Owns t.pages) (hrep : Represents codec s.image t)
    (hfits : t.Fits (layout codec)) (hkey : KeyOk codec key)
    (hpages : t.cuts cmpValues (layout codec) key ≤ s.available)
    (hins : t.insertRec cmpValues (layout codec) s.fresh unique key val = some (t', sp)) :
    ∃ s', insertRec codec key val unique room t.root s =
        (.ok (sp.map fun c => (c.1, c.2.root)), s') ∧
      s.After s' (t.cuts cmpValues (layout codec) key) t.pages ∧
      Represents codec s'.image t' ∧ ∀ c ∈ sp, Represents codec s'.image c.2 := by
  induction h generalizing room with
  | zero =>
      obtain ⟨id, cells⟩ := t
      obtain ⟨room, rfl⟩ := Nat.exists_eq_add_of_lt hroom
      rw [Nat.zero_add]
      exact insertRec_leaf_sim hs hown hrep hfits hkey hpages hins
  | succ h ih =>
      obtain ⟨id, first, rest⟩ := t
      obtain ⟨room, rfl⟩ : ∃ r, room = r + 1 := ⟨room - 1, by omega⟩
      have hi : upper cmpValues key rest ≤ rest.length := upper_le rest
      obtain ⟨t, cs, hrec, hcase⟩ := LevelTree.insertRec_branch hins
      have hprom := LevelTree.insertRec_promoted hrec
      obtain ⟨hperm, hroot, hcs⟩ := LevelTree.insertRec_pages hkey (child_fits _ hfits) hrec
      have hcuts : (child (upper cmpValues key rest) first rest).cuts cmpValues (layout codec) key ≤
          LevelTree.cuts (h := h + 1) cmpValues (layout codec) key ⟨id, first, rest⟩ := by
        simp only [LevelTree.cuts]
        split
        · exact le_rfl
        · split_ifs <;> omega
      have hroom' : h < room := by omega
      obtain ⟨s₁, hrun, hafter, ht, hright⟩ := ih hroom' (child_owns hown hi)
        (child_represents _ hrep) (child_fits _ hfits) (hcuts.trans hpages) hrec
      rw [LevelTree.root, insertRec, bind_ok (readNode_internal hs hown hrep hfits)]
      simp only [descend_eq]
      rw [bind_ok hrun]
      obtain ⟨rfl, rfl, rfl⟩ | ⟨mid, right, rfl, hcut⟩ := hcase
      · refine ⟨s₁, rfl, ?_, ?_, by simp⟩
        · simp only [LevelTree.cuts, hprom, Option.map_none]
          exact after_branch hafter
        · exact represents_branch hi hown hrep hafter ht hroot
      · obtain ⟨hcutsChild, hright_root⟩ := hcs (mid, right) rfl
        obtain ⟨hrootFirst, hrootRest⟩ := map_setChild LevelTree.root _ hi hroot
        have hset := represents_setChild hi hown hrep hafter ht
        have hkeys := map_fst_setChild (upper cmpValues key rest) t first rest
        have hlen := length_setChild t first rest hi
        have hmid : KeyOk codec mid :=
          ((LevelTree.insertRec_fits hkey (child_fits _ hfits) hrec).2 (mid, right) rfl).1
        have hok : ∀ c ∈ (setChild (upper cmpValues key rest) t first rest).2, KeyOk codec c.1 := by
          intro c hc
          have hc' : c.1 ∈ rest.map Prod.fst := hkeys ▸ List.mem_map_of_mem hc
          obtain ⟨d, hd, hdc⟩ := List.mem_map.mp hc'
          exact hdc ▸ hfits.2.1 d hd
        have hs₁ : s₁.Ok := hafter.ok hs (hcuts.trans hpages)
        have hfresh : s₁.fresh 0 = s.fresh (h + 1) := by
          rw [hafter.fresh, hcutsChild, Nat.add_zero]
        have hid : id ≠ s₁.fresh 0 := by
          rw [hfresh]
          exact hown.ne_fresh List.mem_cons_self _
        have hinFile := hafter.inFile (hown.inFile id List.mem_cons_self)
        have hpagesNode : ∀ p ∈ flat LevelTree.pages (setChild (upper cmpValues key rest) t first rest).1
            ((setChild (upper cmpValues key rest) t first rest).2.insertIdx
              (upper cmpValues mid rest) (mid, right)), p ≠ id ∧ p ≠ s₁.fresh 0 := by
          intro p hp
          rw [hfresh]
          rw [hcutsChild] at hperm
          rcases mem_node_pages hi (upper_le rest) hperm hp with hp | ⟨n, hn, rfl⟩
          · exact ⟨fun heq => id_not_mem hown (heq ▸ hp),
              hown.ne_fresh (List.mem_cons_of_mem _ hp) _⟩
          · refine ⟨(hown.ne_fresh List.mem_cons_self n).symm, fun heq => ?_⟩
            have := hs.fresh_injective heq
            omega
        have hcells : childCells (setChild (upper cmpValues key rest) t first rest).2 =
            childCells rest := hrootRest
        have hj : upper cmpValues mid rest =
            upper cmpValues mid (setChild (upper cmpValues key rest) t first rest).2 := by
          rw [← upper_map LevelTree.root rest, ← hrootRest, upper_map]
        have hfit := hfits.1
        rw [← hkeys] at hfit
        have hkeys' : ((rest.map Prod.fst).insertIdx (upper cmpValues mid rest) mid) =
            ((setChild (upper cmpValues key rest) t first rest).2.insertIdx
              (upper cmpValues mid rest) (mid, right)).map Prod.fst := by
          rw [List.map_insertIdx, hkeys]
        have havail := hafter.available hs (hcuts.trans hpages)
        simp only [LevelTree.cuts, hprom, Option.map_some, hkeys', hcutsChild] at hpages ⊢
        rw [← hrootFirst, ← hcells]
        generalize setChild (upper cmpValues key rest) t first rest = n at *
        have hreps : ∀ c ∈ n.2.insertIdx (upper cmpValues mid rest) (mid, right),
            Represents codec s₁.image c.2 := by
          intro c hc
          rcases List.eq_or_mem_of_mem_insertIdx hc with rfl | hc
          · exact hright (mid, right) rfl
          · exact hset.2 c hc
        rw [hcutsChild] at hafter havail
        obtain ⟨hkept, hcutNode⟩ := takeSeparator_sim hs₁ hinFile hfit hok hmid hj (by
          intro hover
          rw [if_neg (by simp [hover])] at hpages
          omega) hset.1 hreps hpagesNode hid
        have htouched : ∀ p ∈ (child (upper cmpValues key rest) first rest).pages ++ [id],
            p ∈ LevelTree.pages (h := h + 1) ⟨id, first, rest⟩ := by
          intro p hp
          rcases List.mem_append.mp hp with hp | hp
          · exact List.mem_cons_of_mem _ (mem_flat_of_child _ hp)
          · rw [List.mem_singleton.mp hp]
            exact List.mem_cons_self
        obtain ⟨hfit', rfl, rfl⟩ | ⟨hover, rfl, rfl⟩ := hcut
        · obtain ⟨s', hrun', hafter', hrep'⟩ := hkept hfit'
          refine ⟨s', hrun', ?_, hrep', by simp⟩
          rw [if_pos hfit']
          exact (hafter.trans hafter').mono fun p hp => Or.inl (htouched p hp)
        · obtain ⟨s', hrun', hafter', hrep', hrightRep⟩ := hcutNode hover
          rw [hfresh] at hrun' hrightRep
          refine ⟨s', hrun', ?_, hrep', hrightRep⟩
          rw [if_neg (by simp [hover])]
          exact (hafter.trans hafter').mono fun p hp => Or.inl (htouched p hp)

/-- A refused insertion writes nothing. -/
theorem insertRec_duplicate {room : ℕ} {t : PageTree h} (hroom : h < room) (hs : s.Ok)
    (hown : s.Owns t.pages) (hrep : Represents codec s.image t) (hfits : t.Fits (layout codec))
    (hins : t.insertRec cmpValues (layout codec) s.fresh unique key val = none) :
    insertRec codec key val unique room t.root s = (.error .duplicate, s) := by
  induction h generalizing room with
  | zero =>
      obtain ⟨id, cells⟩ := t
      obtain ⟨room, rfl⟩ : ∃ r, room = r + 1 := ⟨room - 1, by omega⟩
      rw [LevelTree.root, insertRec, bind_ok (readNode_leaf hown hrep hfits)]
      simp only [LevelTree.insertRec] at hins
      split_ifs at hins with hdup
      have hdup' : (unique && ((cells.take (notAbove key cells)).getLast?.any fun c =>
          cmpValues c.1 key == .eq)) = true := hdup
      simp only [hdup', if_true]
      rfl
  | succ h ih =>
      obtain ⟨id, first, rest⟩ := t
      obtain ⟨room, rfl⟩ : ∃ r, room = r + 1 := ⟨room - 1, by omega⟩
      have hroom' : h < room := by omega
      have hrec := ih hroom' (child_owns hown (upper_le rest)) (child_represents _ hrep)
        (child_fits _ hfits) (LevelTree.insertRec_branch_none hins)
      rw [LevelTree.root, insertRec, bind_ok (readNode_internal hs hown hrep hfits)]
      simp only [descend_eq]
      exact bind_error hrec

/-- A tree deeper than the recursion goes is refused. -/
theorem insertRec_too_deep {room : ℕ} {t : PageTree h} (hroom : room ≤ h) (hs : s.Ok)
    (hown : s.Owns t.pages) (hrep : Represents codec s.image t) (hfits : t.Fits (layout codec)) :
    insertRec codec key val unique room t.root s =
      (.error (.corrupt "tree depth exceeds limit (cycle?)"), s) := by
  induction h generalizing room with
  | zero =>
      obtain rfl : room = 0 := by omega
      rfl
  | succ h ih =>
      obtain ⟨id, first, rest⟩ := t
      cases room with
      | zero => rfl
      | succ room =>
          have hi : upper cmpValues key rest ≤ rest.length := upper_le rest
          have hrec := ih (Nat.le_of_succ_le_succ hroom) (child_owns hown hi)
            (child_represents _ hrep) (child_fits _ hfits)
          rw [LevelTree.root, insertRec, bind_ok (readNode_internal hs hown hrep hfits)]
          simp only [descend_eq]
          exact bind_error hrec

/-! ## The root -/

/-- The pages from `root` on hold the tree. -/
structure Holds (codec : DecimalCodec) (s : Store) (root : ℕ) (t : PageTree h) : Prop where
  store : s.Ok
  owns : s.Owns t.pages
  represents : Represents codec s.image t
  fits : t.Fits (layout codec)
  root_eq : t.root = root

variable {root : ℕ} {t : PageTree h}

theorem insert_duplicate (ht : Holds codec s root t) (hdepth : h ≤ maxTreeDepth)
    (hins : t.insert cmpValues (layout codec) s.fresh unique key val = none) :
    insert codec root key val unique s = (.error .duplicate, s) := by
  rw [insert, ← ht.root_eq]
  exact bind_error (insertRec_duplicate (Nat.lt_succ_of_le hdepth) ht.store ht.owns ht.represents
    ht.fits (LevelTree.insert_eq_none.mp hins))

theorem insert_too_deep (ht : Holds codec s root t) (hdepth : maxTreeDepth < h) :
    insert codec root key val unique s =
      (.error (.corrupt "tree depth exceeds limit (cycle?)"), s) := by
  rw [insert, ← ht.root_eq]
  exact bind_error (insertRec_too_deep hdepth ht.store ht.owns ht.represents ht.fits)

theorem insert_sim {h' : ℕ} {t' : PageTree h'} (ht : Holds codec s root t)
    (hdepth : h ≤ maxTreeDepth) (hkey : KeyOk codec key)
    (hpages : t.growth cmpValues (layout codec) key ≤ s.available)
    (hins : t.insert cmpValues (layout codec) s.fresh unique key val = some ⟨h', t'⟩) :
    ∃ root' s', insert codec root key val unique s = (.ok root', s') ∧ Holds codec s' root' t' ∧
      s'.available + t.growth cmpValues (layout codec) key = s.available := by
  cases hrec : t.insertRec cmpValues (layout codec) s.fresh unique key val with
  | none => simp [LevelTree.insert, hrec] at hins
  | some p =>
      obtain ⟨t₁, sp⟩ := p
      have hprom := LevelTree.insertRec_promoted hrec
      obtain ⟨hfits, hsp⟩ := LevelTree.insertRec_fits hkey ht.fits hrec
      obtain ⟨hperm, hroot, hcs⟩ := LevelTree.insertRec_pages hkey ht.fits hrec
      have hcuts : t.cuts cmpValues (layout codec) key ≤ s.available := by
        refine le_trans ?_ hpages
        unfold LevelTree.growth
        split_ifs <;> omega
      obtain ⟨s₁, hrun, hafter, hrep, hright⟩ := insertRec_sim (Nat.lt_succ_of_le hdepth) ht.store
        ht.owns ht.represents ht.fits hkey hcuts hrec
      rw [ht.root_eq] at hrun hroot
      have hs₁ := hafter.ok ht.store hcuts
      rw [insert, bind_ok hrun]
      cases sp with
      | none =>
          simp only [LevelTree.insert, hrec, Option.some.injEq] at hins
          cases hins
          refine ⟨root, s₁, rfl, ⟨hs₁, ?_, hrep, hfits, hroot⟩, ?_⟩
          · exact ht.owns.after ht.store hafter (by simpa [LevelTree.splitPages] using hperm)
          · simpa [LevelTree.growth, hprom] using hafter.available ht.store hcuts
      | some c =>
          obtain ⟨mid, right⟩ := c
          simp only [LevelTree.insert, hrec, Option.some.injEq] at hins
          cases hins
          obtain ⟨hmid, hrightFits⟩ := hsp (mid, right) rfl
          obtain ⟨hcutsEq, -⟩ := hcs (mid, right) rfl
          simp only [LevelTree.growth, hprom, Option.map_some, Option.isSome_some, if_true] at hpages
          have havail := hafter.available ht.store hcuts
          obtain ⟨s₂, halloc, hafter₂⟩ := allocatePage_ok hs₁ (by omega)
          have hnew : s₁.fresh 0 = s.fresh (h + 1) := by
            rw [hafter.fresh, hcutsEq, Nat.add_zero]
          have hok : ∀ c ∈ childCells [(mid, right)], KeyOk codec c.1 := by
            intro c hc
            rw [List.mem_singleton.mp hc]
            exact hmid
          obtain ⟨page, hpage⟩ := nodeImage_of_fits_internal root hok
            ((layout codec).branch.fits_singleton hmid)
          have hpage' : nodeImage codec (.internal root [(mid, right.root)]) = .ok page := hpage
          have hinFile := hafter₂.fresh_inFile hs₁ Nat.zero_lt_one
          have hall := (hafter.trans hafter₂).trans (Store.after_write s₂ (s₁.fresh 0) page)
          -- the new root is written to a page none of the halves uses
          have hown := ht.owns.after ht.store hafter hperm
          have hkeep : ∀ c : PageTree h, Represents codec s₁.image c →
              (∀ p ∈ c.pages, p ∈ t₁.pages ++ right.pages) →
              Represents codec (Function.update s₂.image (s₁.fresh 0) page) c := by
            intro c hc hsub
            refine hc.congr fun p hp => ?_
            have hne := hown.ne_fresh (hsub p hp) 0
            rw [Function.update_of_ne hne]
            refine hafter₂.image p (by simp) ?_
            intro i hi
            obtain rfl : i = 0 := by omega
            exact hne
          simp only [Option.map_some]
          rw [bind_ok halloc, bind_ok (writeNode_ok hinFile hpage')]
          refine ⟨s₁.fresh 0, _, rfl, ⟨hall.ok ht.store hpages, ?_, ⟨?_, ?_, ?_⟩, ?_, hnew.symm⟩, ?_⟩
          · refine ht.owns.after ht.store hall ?_
            rw [hcutsEq] at hperm ⊢
            rw [LevelTree.pages_succ, flat_cons, flat_nil, Nat.add_zero, List.range_succ, List.map_append,
              List.map_singleton, ← List.append_assoc]
            refine (hperm.cons _).trans ?_
            exact (List.perm_append_singleton _ _).symm
          · rw [hroot, ← hnew]
            simpa using hpage
          · exact hkeep t₁ hrep fun p hp => List.mem_append_left _ hp
          · intro c hc
            rw [List.mem_singleton.mp hc]
            exact hkeep right (hright (mid, right) rfl) fun p hp => List.mem_append_right _ hp
          · exact ⟨(layout codec).branch.fits_singleton hmid, by simpa using hmid, hfits,
              by simpa using hrightFits⟩
          · simpa [LevelTree.growth, hprom] using hall.available ht.store hpages

end Docsql.BTree
