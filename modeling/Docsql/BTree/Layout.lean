import Docsql.BTree.NodePage
import Docsql.BTree.Store

/-!
# Splits by encoded size

`split_at_for_insert` cuts an overflowing node at the new cell or right behind
it.  Either way both halves fit a page, because no cell takes more than half of
what the header leaves.
-/

namespace Docsql.BTree

open BPlusTree (Split Layout)

/-! ## The split point -/

theorem prefixSums_getElem? (header : ℕ) (sizes : List ℕ) {j : ℕ} (hj : j ≤ sizes.length) :
    (prefixSums header sizes)[j]? = some (header + (sizes.take j).sum) := by
  induction sizes generalizing header j with
  | nil =>
      obtain rfl : j = 0 := by simpa using hj
      simp [prefixSums]
  | cons n sizes ih =>
      cases j with
      | zero => simp [prefixSums]
      | succ j =>
          have := ih (header + n) (Nat.le_of_succ_le_succ hj)
          simpa [prefixSums, Nat.add_assoc] using this

theorem length_prefixSums (header : ℕ) (sizes : List ℕ) :
    (prefixSums header sizes).length = sizes.length + 1 := by
  induction sizes generalizing header with
  | nil => rfl
  | cons n sizes ih => simp [prefixSums, ih]

theorem prefixSums_getD (header : ℕ) (sizes : List ℕ) {j : ℕ} (hj : j ≤ sizes.length) :
    (prefixSums header sizes).getD j 0 = header + (sizes.take j).sum := by
  rw [List.getD_eq_getElem?_getD, prefixSums_getElem? header sizes hj, Option.getD_some]

theorem prefixSums_getLastD (header : ℕ) (sizes : List ℕ) :
    (prefixSums header sizes).getLastD header = header + sizes.sum := by
  have hlast := prefixSums_getElem? header sizes le_rfl
  rw [List.getLastD_eq_getLast?, List.getLast?_eq_getElem?, length_prefixSums,
    Nat.add_sub_cancel, hlast, List.take_length, Option.getD_some]

/-- The first prefix that overflows a page ends behind the new cell. -/
theorem boundary_gt {header c : ℕ} {xs ys : List ℕ} (hfit : header + (xs.sum + ys.sum) ≤ pageSize)
    (hover : pageSize < header + (xs.sum + (c + ys.sum))) :
    xs.length < (((prefixSums header (xs ++ c :: ys)).findIdx? fun n =>
      decide (pageSize < n)).map fun j => max j 1).getD ((xs ++ c :: ys).length - 1) := by
  set sums := prefixSums header (xs ++ c :: ys) with hsums
  cases hfind : sums.findIdx? fun n => decide (pageSize < n) with
  | none =>
      have hlast := prefixSums_getElem? header (xs ++ c :: ys) le_rfl
      rw [List.take_length, List.sum_append, List.sum_cons] at hlast
      have hle := List.findIdx?_eq_none_iff.mp hfind _ (List.mem_of_getElem? hlast)
      simp only [decide_eq_false_iff_not] at hle
      exact absurd hover hle
  | some j =>
      obtain ⟨hj, hgt, -⟩ := List.findIdx?_eq_some_iff_getElem.mp hfind
      have hlt : xs.length < j := by
        by_contra hle
        have hle : j ≤ xs.length := not_lt.mp hle
        have hsum := prefixSums_getElem? header (xs ++ c :: ys) (j := j) (by simp; omega)
        rw [← hsums, List.getElem?_eq_getElem hj, Option.some.injEq] at hsum
        rw [hsum, List.take_append_of_le_length hle] at hgt
        have htake : (xs.take j).sum ≤ xs.sum :=
          (List.take_sublist j xs).sum_le_sum (by simp)
        simp at hgt
        omega
      simp only [Option.map_some, Option.getD_some]
      omega

/-- The cut is at the new cell if the node from there on fits, otherwise right
behind it. -/
theorem splitPoint_eq {header c : ℕ} {xs ys : List ℕ} (hcap : header + 2 * c ≤ pageSize)
    (hfit : header + (xs.sum + ys.sum) ≤ pageSize)
    (hover : pageSize < header + (xs.sum + (c + ys.sum))) :
    splitPoint (xs ++ c :: ys) xs.length header =
      if header + (c + ys.sum) ≤ pageSize then xs.length else xs.length + 1 := by
  have hbound := boundary_gt hfit hover
  unfold splitPoint
  simp only [prefixSums_getLastD]
  generalize ((List.findIdx? _ _).map _).getD _ = b at hbound ⊢
  have hlen : (xs ++ c :: ys).length - 1 = xs.length + ys.length := by
    simp
  have hsum : (xs ++ c :: ys).sum = xs.sum + (c + ys.sum) := by
    simp
  have hat : (prefixSums header (xs ++ c :: ys)).getD xs.length 0 = header + xs.sum := by
    rw [prefixSums_getD _ _ (by simp), List.take_left]
  have hbehind : (prefixSums header (xs ++ c :: ys)).getD (xs.length + 1) 0 =
      header + (xs.sum + c) := by
    rw [prefixSums_getD _ _ (by simp), List.take_length_add_append]
    simp
  -- behind the new cell the rest always fits, so the search stops there at the latest
  have hstop : ∀ fuel, growSplit (prefixSums header (xs ++ c :: ys)) header
      (header + (xs ++ c :: ys).sum) b fuel (xs.length + 1) = xs.length + 1 := by
    intro fuel
    cases fuel with
    | zero => rfl
    | succ fuel =>
        rw [growSplit, if_neg]
        rw [hbehind, hsum]
        omega
  have hstart : ∀ fuel, growSplit (prefixSums header (xs ++ c :: ys)) header
      (header + (xs ++ c :: ys).sum) b (fuel + 1) xs.length =
        if header + (c + ys.sum) ≤ pageSize then xs.length else xs.length + 1 := by
    intro fuel
    rw [growSplit, hat, hsum]
    split_ifs with hgrow hright hright
    · omega
    · rw [← hsum]
      exact hstop fuel
    · rfl
    · omega
  obtain ⟨fuel, rfl⟩ : ∃ fuel, b = fuel + 1 := ⟨b - 1, by omega⟩
  rw [hlen]
  rcases Nat.eq_zero_or_pos xs.length with hxs | hxs
  · -- the new cell comes first: the left node must not be empty
    have hnil : xs.sum = 0 := by
      rw [List.length_eq_zero_iff.mp hxs, List.sum_nil]
    have hys : ys ≠ [] := by
      rintro rfl
      simp at hover
      omega
    have hpos := List.length_pos_of_ne_nil hys
    rw [hxs] at hstop hbound ⊢
    rw [show max (min (fuel + 1) 0) 1 = 0 + 1 by omega, hstop, if_neg (by omega)]
    omega
  · rw [show max (min (fuel + 1) xs.length) 1 = xs.length by omega, hstart]
    split_ifs with hright
    · omega
    · have hys : ys ≠ [] := by
        rintro rfl
        simp at hright
        omega
      have hpos := List.length_pos_of_ne_nil hys
      omega

/-- Both halves of the cut fit a page. -/
theorem splitPoint_spec {header c i : ℕ} {sizes : List ℕ} (hi : i ≤ sizes.length)
    (hcap : header + 2 * c ≤ pageSize) (hfit : header + sizes.sum ≤ pageSize)
    (hover : pageSize < header + (sizes.insertIdx i c).sum) :
    let m := splitPoint (sizes.insertIdx i c) i header
    1 ≤ m ∧ m ≤ sizes.length ∧ header + ((sizes.insertIdx i c).take m).sum ≤ pageSize ∧
      header + ((sizes.insertIdx i c).drop m).sum ≤ pageSize := by
  obtain ⟨xs, ys, rfl, rfl⟩ : ∃ xs ys, sizes = xs ++ ys ∧ i = xs.length :=
    ⟨sizes.take i, sizes.drop i, (List.take_append_drop i sizes).symm, by simp [hi]⟩
  rw [BPlusTree.insertIdx_eq_take_append c hi, List.take_left, List.drop_left] at hover ⊢
  rw [List.sum_append] at hfit
  rw [List.sum_append, List.sum_cons] at hover
  intro m
  have hm : m = _ := splitPoint_eq hcap hfit hover
  split_ifs at hm with hright
  · have hpos : xs ≠ [] := by
      rintro rfl
      simp at hover
      omega
    have := List.length_pos_of_ne_nil hpos
    rw [hm, List.take_left, List.drop_left, List.sum_cons, List.length_append]
    omega
  · have hys : ys ≠ [] := by
      rintro rfl
      simp at hright
      omega
    have := List.length_pos_of_ne_nil hys
    rw [hm, List.take_length_add_append, List.drop_length_add_append, List.length_append,
      List.sum_append]
    simp only [List.take_succ_cons, List.take_zero, List.drop_succ_cons, List.drop_zero,
      List.sum_singleton]
    omega

/-! ## The layout of the tree -/

section Codec

variable (codec : DecimalCodec)

/-- A key that passes the size cap of `insert`. -/
def KeyOk (k : Value) : Prop :=
  k.WF ∧ ∃ kb, encode codec k = .ok kb ∧ 2 + kb.length + 8 ≤ leafCellCap

def cellSize (payload : ℕ) (k : Value) : ℕ := 2 + keyLen codec k + payload

variable {codec}

theorem nodeSize_eq (header payload : ℕ) (keys : List Value) :
    nodeSize codec header payload keys = header + (keys.map (cellSize codec payload)).sum := rfl

theorem KeyOk.cellSize_le {k : Value} (h : KeyOk codec k) (payload : ℕ) :
    cellSize codec payload k ≤ leafCellCap - 8 + payload := by
  obtain ⟨-, kb, hkb, hcap⟩ := h
  rw [cellSize, keyLen_of_ok hkb]
  omega

variable (codec) in
/-- Nodes are cut by the sizes of their encoded keys. -/
def nodeSplit (header payload : ℕ) (hcap : header + 2 * (leafCellCap - 8 + payload) ≤ pageSize) :
    Split Value (KeyOk codec) where
  fits keys := decide (nodeSize codec header payload keys ≤ pageSize)
  cut keys i := splitPoint (keys.map (cellSize codec payload)) i header
  fits_of_sublist := by
    intro xs ys hsub hys
    rw [decide_eq_true_eq, nodeSize_eq] at hys ⊢
    have := (hsub.map (cellSize codec payload)).sum_le_sum (by simp)
    omega
  fits_singleton := by
    intro k hk
    have := hk.cellSize_le payload
    rw [decide_eq_true_eq, nodeSize_eq, List.map_singleton, List.sum_singleton]
    omega
  cut_spec := by
    intro keys i k _ hk hi hfit hover
    rw [decide_eq_true_eq, nodeSize_eq] at hfit
    rw [decide_eq_false_iff_not, nodeSize_eq, not_le, List.map_insertIdx] at hover
    have hsize := hk.cellSize_le payload
    have hspec := splitPoint_spec (by simpa using hi) (by omega) hfit hover
    simp only [decide_eq_true_eq, nodeSize_eq, List.map_take, List.map_drop, List.map_insertIdx]
    simpa using hspec

variable (codec) in
def layout : Layout Value where
  ok := KeyOk codec
  leaf := nodeSplit codec 3 8 (by decide)
  branch := nodeSplit codec 7 4 (by decide)

variable {α : Type} {cells : List (Value × α)}

theorem cellSizes_eq (payload : ℕ) (hok : ∀ c ∈ cells, KeyOk codec c.1) :
    cellSizes codec payload cells = .ok ((cells.map Prod.fst).map (cellSize codec payload)) := by
  induction cells with
  | nil => rfl
  | cons c cells ih =>
      obtain ⟨k, v⟩ := c
      obtain ⟨-, kb, hkb, -⟩ := hok (k, v) (by simp)
      rw [cellSizes, Except.bind_of_ok (encodeKey_eq_ok.mpr hkb),
        Except.bind_of_ok (ih fun c hc => hok c (by simp [hc]))]
      simp [cellSize, keyLen_of_ok hkb, pure, Except.pure]

theorem nodeBytes_eq (header payload : ℕ) (hok : ∀ c ∈ cells, KeyOk codec c.1) :
    nodeBytes codec cells header payload =
      .ok (nodeSize codec header payload (cells.map Prod.fst)) := by
  rw [nodeBytes, Except.bind_of_ok (cellSizes_eq payload hok)]
  rfl

theorem splitAtForInsert_eq (i header payload : ℕ) (hok : ∀ c ∈ cells, KeyOk codec c.1) :
    splitAtForInsert codec cells i header payload =
      .ok (splitPoint ((cells.map Prod.fst).map (cellSize codec payload)) i header) := by
  rw [splitAtForInsert, Except.bind_of_ok (cellSizes_eq payload hok)]
  rfl

/-- A node that fits is written. -/
theorem nodeImage_of_fits_leaf {cells : List (Value × UInt64)}
    (hok : ∀ c ∈ cells, KeyOk codec c.1)
    (hfits : (layout codec).leaf.fits (cells.map Prod.fst) = true) :
    ∃ page, nodeImage codec (.leaf cells) = .ok page := by
  obtain ⟨body, hbody⟩ := writeCells_of_fits (p := locator) 
    (fun c hc => ⟨_, (hok c hc).2.choose_spec.1⟩) (of_decide_eq_true hfits)
  exact ⟨_, Except.bind_of_ok hbody⟩

theorem nodeImage_of_fits_internal (leftmost : ℕ) {cells : List (Value × ℕ)}
    (hok : ∀ c ∈ cells, KeyOk codec c.1)
    (hfits : (layout codec).branch.fits (cells.map Prod.fst) = true) :
    ∃ page, nodeImage codec (.internal leftmost cells) = .ok page := by
  obtain ⟨body, hbody⟩ := writeCells_of_fits (p := childId) 
    (fun c hc => ⟨_, (hok c hc).2.choose_spec.1⟩) (of_decide_eq_true hfits)
  exact ⟨_, Except.bind_of_ok hbody⟩

end Codec

end Docsql.BTree
