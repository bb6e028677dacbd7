import Docsql.BTree.InsertRefine

/-!
# Legal inserts and the size of pages

The node that an insertion fills fits its page, or the cut leaves two halves that do.
-/

namespace Docsql.BTree

open BPlusTree StateExcept

variable {codec : DecimalCodec} {α : Type} {header payload : ℕ} {cells : List (Value × α)}

/-! ## Nodes that fit -/

/-- The serialized node is no larger than a page. -/
def FitsPage (codec : DecimalCodec) (header payload : ℕ) (cells : List (Value × α)) : Prop :=
  ∃ n ≤ pageSize, nodeBytes codec cells header payload = .ok n

def Encodes (codec : DecimalCodec) (cells : List (Value × α)) : Prop :=
  ∀ c ∈ cells, ∃ kb, encode codec c.1 = .ok kb

theorem cellSizes_of_encodes (h : Encodes codec cells) :
    cellSizes codec payload cells = .ok ((cells.map Prod.fst).map (cellSize codec payload)) := by
  induction cells with
  | nil => rfl
  | cons c cells ih =>
    obtain ⟨k, v⟩ := c
    obtain ⟨kb, hkb⟩ := h (k, v) List.mem_cons_self
    rw [cellSizes, Except.bind_of_ok (encodeKey_eq_ok.mpr hkb),
      Except.bind_of_ok (ih fun c hc => h c (List.mem_cons_of_mem _ hc))]
    simp [cellSize, keyLen_of_ok hkb, pure, Except.pure]

theorem encodes_of_cellSizes {sizes : List ℕ} (h : cellSizes codec payload cells = .ok sizes) :
    Encodes codec cells := by
  induction cells generalizing sizes with
  | nil => exact fun _ hc => absurd hc List.not_mem_nil
  | cons c cells ih =>
    obtain ⟨k, v⟩ := c
    obtain ⟨kb, hkb, h⟩ := Except.bind_eq_ok_iff.mp h
    obtain ⟨rest, hrest, -⟩ := Except.bind_eq_ok_iff.mp h
    rintro c (_ | ⟨_, hc⟩)
    · exact ⟨kb, encodeKey_eq_ok.mp hkb⟩
    · exact ih hrest c hc

theorem nodeBytes_of_encodes (h : Encodes codec cells) : nodeBytes codec cells header payload =
    .ok (nodeSize codec header payload (cells.map Prod.fst)) := by
  rw [nodeBytes, Except.bind_of_ok (cellSizes_of_encodes h)]
  rfl

theorem fitsPage_iff : FitsPage codec header payload cells ↔
    Encodes codec cells ∧ nodeSize codec header payload (cells.map Prod.fst) ≤ pageSize := by
  constructor
  · rintro ⟨n, hn, hbytes⟩
    obtain ⟨sizes, hsizes, -⟩ := Except.bind_eq_ok_iff.mp hbytes
    have henc := encodes_of_cellSizes hsizes
    rw [nodeBytes_of_encodes henc, Except.ok.injEq] at hbytes
    exact ⟨henc, hbytes ▸ hn⟩
  · rintro ⟨henc, hsize⟩
    exact ⟨_, hsize, nodeBytes_of_encodes henc⟩

theorem FitsPage.sublist {xs ys : List (Value × α)} (h : FitsPage codec header payload ys)
    (hsub : xs.Sublist ys) : FitsPage codec header payload xs := by
  obtain ⟨henc, hsize⟩ := fitsPage_iff.1 h
  refine fitsPage_iff.2 ⟨fun c hc => henc c (hsub.subset hc), ?_⟩
  have hsum := ((hsub.map Prod.fst).map (cellSize codec payload)).sum_le_sum (by simp)
  rw [nodeSize_eq] at hsize ⊢
  omega

/-- `write_node` takes a leaf that fits. -/
theorem FitsPage.leaf_image {cells : List (Value × UInt64)} (h : FitsPage codec 3 8 cells) :
    ∃ page, nodeImage codec (.leaf cells) = .ok page := by
  obtain ⟨henc, hsize⟩ := fitsPage_iff.1 h
  obtain ⟨body, hbody⟩ := writeCells_of_fits (p := locator) henc hsize
  exact ⟨_, Except.bind_of_ok hbody⟩

theorem FitsPage.internal_image {leftmost : ℕ} {cells : List (Value × ℕ)}
    (h : FitsPage codec 7 4 cells) :
    ∃ page, nodeImage codec (.internal leftmost cells) = .ok page := by
  obtain ⟨henc, hsize⟩ := fitsPage_iff.1 h
  obtain ⟨body, hbody⟩ := writeCells_of_fits (p := childId) henc hsize
  exact ⟨_, Except.bind_of_ok hbody⟩

/-! ## Cuts -/

/-- The cut at the chosen index leaves cells on both sides, and both halves fit a page.  Of the
right half the first `promoted` cells move up. -/
def CutFits (codec : DecimalCodec) (header payload promoted i : ℕ) (cells : List (Value × α)) :
    Prop :=
  ∃ m, splitAtForInsert codec cells i header payload = .ok m ∧ 1 ≤ m ∧ m < cells.length ∧
    FitsPage codec header payload (cells.take m) ∧
    FitsPage codec header payload (cells.drop (m + promoted))

theorem encodes_insertIdx {c : Value × α} {kb : List UInt8} {i : ℕ} (h : Encodes codec cells)
    (hkb : encode codec c.1 = .ok kb) : Encodes codec (cells.insertIdx i c) := by
  intro d hd
  rcases List.eq_or_mem_of_mem_insertIdx hd with rfl | hd
  · exact ⟨kb, hkb⟩
  · exact h d hd

/-- A node whose new cell takes at most half of what the header leaves. -/
theorem cut_fits {c : Value × α} {kb : List UInt8} {i : ℕ} (promoted : ℕ)
    (hfits : FitsPage codec header payload cells) (hkb : encode codec c.1 = .ok kb)
    (hcap : header + 2 * (2 + kb.length + payload) ≤ pageSize) (hi : i ≤ cells.length)
    (hover : ¬FitsPage codec header payload (cells.insertIdx i c)) :
    CutFits codec header payload promoted i (cells.insertIdx i c) := by
  obtain ⟨henc, hsize⟩ := fitsPage_iff.1 hfits
  have henc' := encodes_insertIdx (i := i) henc hkb
  have hnew : cellSize codec payload c.1 = 2 + kb.length + payload := by
    rw [cellSize, keyLen_of_ok hkb]
  have hsizes : ((cells.insertIdx i c).map Prod.fst).map (cellSize codec payload) =
      ((cells.map Prod.fst).map (cellSize codec payload)).insertIdx i
        (cellSize codec payload c.1) := by
    rw [List.map_insertIdx, List.map_insertIdx]
  have hover' : pageSize < header + (((cells.map Prod.fst).map
      (cellSize codec payload)).insertIdx i (cellSize codec payload c.1)).sum := by
    rw [← hsizes, ← nodeSize_eq]
    by_contra hle
    exact hover (fitsPage_iff.2 ⟨henc', not_lt.mp hle⟩)
  obtain ⟨hpos, hle, htake, hdrop⟩ := splitPoint_spec (by simpa using hi) (hnew ▸ hcap)
    (by simpa [nodeSize_eq] using hsize) hover'
  rw [← hsizes] at hpos hle htake hdrop
  generalize hm : splitPoint _ i header = m at hpos hle htake hdrop
  refine ⟨m, ?_, hpos, ?_, ?_, ?_⟩
  · rw [splitAtForInsert, Except.bind_of_ok (cellSizes_of_encodes henc'), ← hm]
    rfl
  · rw [List.length_insertIdx_of_le_length hi]
    simp only [List.length_map] at hle
    exact Nat.lt_succ_of_le hle
  · refine fitsPage_iff.2 ⟨fun d hd => henc' d (List.mem_of_mem_take hd), ?_⟩
    rwa [nodeSize_eq, List.map_take, List.map_take]
  · have hright : FitsPage codec header payload ((cells.insertIdx i c).drop m) := by
      refine fitsPage_iff.2 ⟨fun d hd => henc' d (List.mem_of_mem_drop hd), ?_⟩
      rwa [nodeSize_eq, List.map_drop, List.map_drop]
    refine hright.sublist ?_
    rw [← List.drop_drop]
    exact List.drop_sublist _ _

theorem leaf_cut_fits {cells : List (Value × UInt64)} {c : Value × UInt64} {kb : List UInt8}
    {i : ℕ} (hfits : FitsPage codec 3 8 cells) (hkb : encode codec c.1 = .ok kb)
    (hcap : 2 + kb.length + 8 ≤ leafCellCap) (hi : i ≤ cells.length)
    (hover : ¬FitsPage codec 3 8 (cells.insertIdx i c)) :
    CutFits codec 3 8 0 i (cells.insertIdx i c) := by
  refine cut_fits 0 hfits hkb ?_ hi hover
  have hleaf : leafCellCap = 2046 := rfl
  have hpage : pageSize = 4096 := rfl
  omega

theorem branch_cut_fits {cells : List (Value × ℕ)} {c : Value × ℕ} {kb : List UInt8} {i : ℕ}
    (hfits : FitsPage codec 7 4 cells) (hkb : encode codec c.1 = .ok kb)
    (hcap : 2 + kb.length + 4 ≤ internalCellCap) (hi : i ≤ cells.length)
    (hover : ¬FitsPage codec 7 4 (cells.insertIdx i c)) :
    CutFits codec 7 4 1 i (cells.insertIdx i c) := by
  refine cut_fits 1 hfits hkb ?_ hi hover
  have hinternal : internalCellCap = 2044 := rfl
  have hpage : pageSize = 4096 := rfl
  omega

/-- A key that a leaf takes is taken as a separator. -/
theorem separator_cap {kb : List UInt8} (h : 2 + kb.length + 8 ≤ leafCellCap) :
    2 + kb.length + 4 ≤ internalCellCap := by
  have hleaf : leafCellCap = 2046 := rfl
  have hinternal : internalCellCap = 2044 := rfl
  omega

/-! ## Insertions -/

def IsKeyTooLarge (e : BTreeError) : Prop := ∃ n, e = .keyTooLarge n

/-- The run does not fail for space, and what is promoted goes into any internal node. -/
def Spacious (codec : DecimalCodec) (m : BTreeM (Option (Value × ℕ))) (s : Store) : Prop :=
  Avoids m s IsKeyTooLarge fun r => ∀ c ∈ r, KeyOk codec c.1

variable {s : Store} {post : α → Prop}

theorem allocatePage_avoids {f : ℕ → BTreeM α}
    (h : ∀ id s, Avoids (f id) s IsKeyTooLarge post) :
    Avoids (allocatePage >>= f) s IsKeyTooLarge post :=
  Avoids.after_any (Avoids.mapError (fun _ h => h.elim fun _ h => by cases h) fun _ => trivial) h

theorem writeNode_avoids {id : ℕ} {node : Node} {f : Unit → BTreeM α}
    (himage : ∃ page, nodeImage codec node = .ok page)
    (h : ∀ s, Avoids (f ()) s IsKeyTooLarge post) :
    Avoids (writeNode codec id node >>= f) s IsKeyTooLarge post := by
  obtain ⟨page, hpage⟩ := himage
  refine Avoids.after_any ?_ fun _ => h
  exact Avoids.after_except hpage (Avoids.mapError (fun _ h => h.elim fun _ h => by cases h)
    fun _ => trivial)

theorem nodeBytes_le_iff {n : ℕ} (h : nodeBytes codec cells header payload = .ok n) :
    n ≤ pageSize ↔ FitsPage codec header payload cells := by
  constructor
  · exact fun hn => ⟨n, hn, h⟩
  · rintro ⟨m, hm, hbytes⟩
    rw [h, Except.ok.injEq] at hbytes
    exact hbytes ▸ hm

theorem exists_nodeBytes (header payload : ℕ) (h : Encodes codec cells) :
    ∃ n, nodeBytes codec cells header payload = .ok n := ⟨_, nodeBytes_of_encodes h⟩

theorem KeyOk.encodes {k : Value} (h : KeyOk codec k) :
    ∃ kb, encode codec k = .ok kb ∧ 2 + kb.length + 8 ≤ leafCellCap := h.2

theorem takeSeparator_spacious {id leftmost right : ℕ} {cells : List (Value × ℕ)} {mid : Value}
    (hfits : FitsPage codec 7 4 cells) (hok : ∀ c ∈ cells, KeyOk codec c.1)
    (hmid : KeyOk codec mid) (s : Store) :
    Spacious codec (takeSeparator codec id leftmost cells mid right) s := by
  obtain ⟨mb, hmb, hcap⟩ := hmid.encodes
  have hcap' := separator_cap hcap
  have hi : notAbove mid cells ≤ cells.length := upper_le cells
  have hok' : ∀ c ∈ cells.insertIdx (notAbove mid cells) (mid, right), KeyOk codec c.1 := by
    intro c hc
    rcases List.eq_or_mem_of_mem_insertIdx hc with rfl | hc
    · exact hmid
    · exact hok c hc
  obtain ⟨n, hn⟩ := exists_nodeBytes 7 4
    (encodes_insertIdx (c := (mid, right)) (i := notAbove mid cells) (fitsPage_iff.1 hfits).1 hmb)
  rw [Spacious, takeSeparator]
  refine Avoids.after_except (encodeKey_eq_ok.mpr hmb) ?_
  rw [if_neg (not_lt.mpr hcap')]
  refine Avoids.after_except hn ?_
  split
  · rename_i hle
    refine writeNode_avoids ((nodeBytes_le_iff hn).1 hle).internal_image fun s => ?_
    exact Avoids.of_ok rfl fun _ h => by cases h
  · rename_i hgt
    obtain ⟨m, hm, -, hlt, htake, hdrop⟩ := branch_cut_fits hfits hmb hcap' hi
      (mt (nodeBytes_le_iff hn).2 hgt)
    refine Avoids.after_except hm ?_
    split
    · exact Avoids.of_ok rfl fun _ h => by cases h
    · rename_i midKey newLeftmost rightCells hcells
      have hrest : rightCells =
          (cells.insertIdx (notAbove mid cells) (mid, right)).drop (m + 1) := by
        rw [← List.drop_drop, hcells, List.drop_one, List.tail_cons]
      refine allocatePage_avoids fun page s => ?_
      refine writeNode_avoids htake.internal_image fun s => ?_
      refine writeNode_avoids (hrest ▸ hdrop).internal_image fun s => ?_
      refine Avoids.of_ok rfl ?_
      rintro c ⟨⟩
      exact hok' (midKey, newLeftmost) (List.mem_of_mem_drop (hcells ▸ List.mem_cons_self))

theorem insertRec_spacious {h : ℕ} {room : ℕ} {key : Value} {val : UInt64} {unique : Bool}
    {t : PageTree h} (hs : s.Ok) (hown : s.Owns t.pages) (hrep : Represents codec s.image t)
    (hfits : t.Fits (layout codec)) (hkey : KeyOk codec key) :
    Spacious codec (insertRec codec key val unique room t.root) s := by
  have hnot {e : BTreeError} (he : ∀ n, e ≠ .keyTooLarge n) : ¬IsKeyTooLarge e :=
    fun h => h.elim fun n h => he n h
  induction h generalizing room with
  | zero =>
    obtain ⟨id, cells⟩ := t
    cases room with
    | zero => exact Avoids.of_error rfl (hnot (fun _ h => by cases h))
    | succ room =>
      obtain ⟨kb, hkb, hcap⟩ := hkey.encodes
      have henc : Encodes codec cells := fun c hc => ⟨_, (hfits.2 c hc).encodes.choose_spec.1⟩
      have hpage : FitsPage codec 3 8 cells :=
        fitsPage_iff.2 ⟨henc, of_decide_eq_true hfits.1⟩
      have hi : notAbove key cells ≤ cells.length := upper_le cells
      have hok : ∀ c ∈ cells.insertIdx (notAbove key cells) (key, val), KeyOk codec c.1 := by
        intro c hc
        rcases List.eq_or_mem_of_mem_insertIdx hc with rfl | hc
        · exact hkey
        · exact hfits.2 c hc
      obtain ⟨n, hn⟩ := exists_nodeBytes 3 8
        (encodes_insertIdx (c := (key, val)) (i := notAbove key cells) henc hkb)
      rw [Spacious, LevelTree.root, insertRec]
      refine Avoids.after_ok (readNode_leaf hown hrep hfits) ?_
      simp only
      split
      · exact Avoids.of_error rfl (hnot (fun _ h => by cases h))
      · refine Avoids.after_except (encodeKey_eq_ok.mpr hkb) ?_
        rw [if_neg (not_lt.mpr hcap)]
        refine Avoids.after_except hn ?_
        split
        · rename_i hle
          refine writeNode_avoids ((nodeBytes_le_iff hn).1 hle).leaf_image fun s => ?_
          exact Avoids.of_ok rfl fun _ h => by cases h
        · rename_i hgt
          obtain ⟨m, hm, -, -, htake, hdrop⟩ := leaf_cut_fits hpage hkb hcap hi
            (mt (nodeBytes_le_iff hn).2 hgt)
          refine Avoids.after_except hm ?_
          refine allocatePage_avoids fun page s => ?_
          refine writeNode_avoids htake.leaf_image fun s => ?_
          refine writeNode_avoids hdrop.leaf_image fun s => ?_
          refine Avoids.of_ok rfl fun c hc => ?_
          obtain ⟨d, hd, rfl⟩ := Option.map_eq_some_iff.1 hc
          exact hok d (List.mem_of_mem_drop (List.mem_of_head? hd))
  | succ h ih =>
    obtain ⟨id, first, rest⟩ := t
    cases room with
    | zero => exact Avoids.of_error rfl (hnot (fun _ h => by cases h))
    | succ room =>
      have hok : ∀ c ∈ childCells rest, KeyOk codec c.1 := by
        intro c hc
        obtain ⟨d, hd, rfl⟩ := List.mem_map.mp hc
        exact hfits.2.1 d hd
      have hpage : FitsPage codec 7 4 (childCells rest) := by
        refine fitsPage_iff.2 ⟨fun c hc => ⟨_, (hok c hc).encodes.choose_spec.1⟩, ?_⟩
        rw [childCells_keys]
        exact of_decide_eq_true hfits.1
      have hi : upper cmpValues key rest ≤ rest.length := upper_le rest
      have hrec := @ih room _ (child_owns hown hi) (child_represents _ hrep)
        (child_fits _ hfits)
      rw [Spacious, LevelTree.root, insertRec]
      refine Avoids.after_ok (readNode_internal hs hown hrep hfits) ?_
      simp only [descend_eq]
      refine Avoids.bind hrec fun r s hr => ?_
      cases r with
      | none => exact Avoids.of_ok rfl fun _ h => by cases h
      | some c => exact takeSeparator_spacious hpage hok (hr c rfl) s

section Root

variable {h root : ℕ} {t : PageTree h} {key : Value} {val : UInt64} {unique : Bool}

theorem root_fits {k : Value} (hk : KeyOk codec k) (right : ℕ) :
    FitsPage codec 7 4 [(k, right)] := by
  obtain ⟨kb, hkb, hcap⟩ := hk.encodes
  refine fitsPage_iff.2 ⟨fun c hc => ⟨kb, ?_⟩, ?_⟩
  · rw [List.mem_singleton.1 hc]
    exact hkb
  · have hleaf : leafCellCap = 2046 := rfl
    have hpage : pageSize = 4096 := rfl
    simp only [nodeSize_eq, cellSize, keyLen_of_ok hkb, List.map_cons, List.map_nil,
      List.sum_singleton]
    omega

theorem insert_avoids (ht : Holds codec s root t) (hkey : KeyOk codec key) :
    Avoids (insert codec root key val unique) s IsKeyTooLarge fun _ => True := by
  rw [insert, ← ht.root_eq]
  refine Avoids.bind (insertRec_spacious ht.store ht.owns ht.represents ht.fits hkey)
    fun r s hr => ?_
  cases r with
  | none => exact Avoids.of_ok rfl trivial
  | some c =>
    refine allocatePage_avoids fun page s => ?_
    refine writeNode_avoids (root_fits (hr c rfl) c.2).internal_image fun s => ?_
    exact Avoids.of_ok rfl trivial

/-- An insertion goes through or leaves every page as it is. -/
theorem insert_all_or_nothing (ht : Holds codec s root t) (hkey : KeyOk codec key)
    (hpages : t.growth cmpValues (layout codec) key ≤ s.available) :
    (∃ root' s' h', ∃ t' : PageTree h',
      insert codec root key val unique s = (.ok root', s') ∧ Holds codec s' root' t') ∨
      ∃ e, insert codec root key val unique s = (.error e, s) := by
  rcases le_or_gt h maxTreeDepth with hdepth | hdepth
  · cases hins : t.insert cmpValues (layout codec) s.fresh unique key val with
    | none => exact .inr ⟨_, insert_duplicate ht hdepth hins⟩
    | some p =>
      obtain ⟨h', t'⟩ := p
      obtain ⟨root', s', hrun, ht', -⟩ := insert_sim ht hdepth hkey hpages hins
      exact .inl ⟨root', s', h', t', hrun, ht'⟩
  · exact .inr ⟨_, insert_too_deep ht hdepth⟩

end Root

/-- Space never stops a key that passes the size cap. -/
structure SpaceSuffices (codec : DecimalCodec) : Prop where
  leaf : ∀ (cells : List (Value × UInt64)) (c : Value × UInt64) (i : ℕ) (kb : List UInt8),
    FitsPage codec 3 8 cells → i ≤ cells.length → encode codec c.1 = .ok kb →
      2 + kb.length + 8 ≤ leafCellCap → ¬FitsPage codec 3 8 (cells.insertIdx i c) →
      CutFits codec 3 8 0 i (cells.insertIdx i c)
  branch : ∀ (cells : List (Value × ℕ)) (c : Value × ℕ) (i : ℕ) (kb : List UInt8),
    FitsPage codec 7 4 cells → i ≤ cells.length → encode codec c.1 = .ok kb →
      2 + kb.length + 4 ≤ internalCellCap → ¬FitsPage codec 7 4 (cells.insertIdx i c) →
      CutFits codec 7 4 1 i (cells.insertIdx i c)
  promoted : ∀ kb : List UInt8, 2 + kb.length + 8 ≤ leafCellCap →
    2 + kb.length + 4 ≤ internalCellCap
  leafWritten : ∀ cells : List (Value × UInt64), FitsPage codec 3 8 cells →
    ∃ page, nodeImage codec (.leaf cells) = .ok page
  branchWritten : ∀ (leftmost : ℕ) (cells : List (Value × ℕ)), FitsPage codec 7 4 cells →
    ∃ page, nodeImage codec (.internal leftmost cells) = .ok page
  inserted : ∀ (h root : ℕ) (t : PageTree h) (s : Store) (key : Value) (val : UInt64)
    (unique : Bool), Holds codec s root t → KeyOk codec key →
      (∀ n, (insert codec root key val unique s).1 ≠ .error (.keyTooLarge n)) ∧
      (t.growth cmpValues (layout codec) key ≤ s.available →
        (∃ root' s' h', ∃ t' : PageTree h',
          insert codec root key val unique s = (.ok root', s') ∧ Holds codec s' root' t') ∨
        ∃ e, insert codec root key val unique s = (.error e, s))

theorem space_suffices (codec : DecimalCodec) : SpaceSuffices codec where
  leaf _ _ _ _ hfits hi hkb hcap hover := leaf_cut_fits hfits hkb hcap hi hover
  branch _ _ _ _ hfits hi hkb hcap hover := branch_cut_fits hfits hkb hcap hi hover
  promoted _ h := separator_cap h
  leafWritten _ h := h.leaf_image
  branchWritten _ _ h := h.internal_image
  inserted _ _ _ _ _ _ _ ht hkey :=
    ⟨fun n herr => (insert_avoids ht hkey).not_bad herr ⟨n, rfl⟩,
      fun hpages => insert_all_or_nothing ht hkey hpages⟩

end Docsql.BTree
