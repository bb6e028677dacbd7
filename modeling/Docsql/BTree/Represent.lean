import Docsql.BTree.Layout
import Docsql.Lib.BPlusTreeGrow

/-!
# The tree a page store holds

`Represents` reads the pages from a root id as a B+ tree of a given height.
The routing of `btree.rs`, which works on child ids, picks the same children as
the routing of the tree, which works on positions.
-/

namespace Docsql.BTree

open BPlusTree

abbrev PageTree := LevelTree ℕ Value UInt64

/-! ## Page operations -/

section Pages

variable {codec : DecimalCodec} {s : Store} {id : ℕ} {page : Page}

theorem readPage_ok (h : s.InFile id) : readPage id s = (.ok (s.image id), s) :=
  StateExcept.mapError_ok _ (Store.readPage_ok h)

theorem writePage_ok (h : s.InFile id) :
    writePage id page s = (.ok (), { s with image := Function.update s.image id page }) :=
  StateExcept.mapError_ok _ (Store.writePage_ok h)

theorem allocatePage_ok (hs : s.Ok) (h : 0 < s.available) :
    ∃ s', allocatePage s = (.ok (s.fresh 0), s') ∧ s.After s' 1 [] := by
  obtain ⟨s', hrun, hafter⟩ := Store.allocatePage_ok hs h
  exact ⟨s', StateExcept.mapError_ok _ hrun, hafter⟩

theorem allocatePage_exhausted (hs : s.Ok) (h : s.available = 0) :
    allocatePage s = (.error (.pager (.pageIdExhausted s.numPages)), s) :=
  StateExcept.mapError_error _ (Store.allocatePage_exhausted hs h)

theorem readNode_ok {node : Node} (h : s.InFile id) (hdec : decodeNode codec (s.image id) = .ok node) :
    readNode codec id s = (.ok node, s) := by
  rw [readNode, StateExcept.bind_ok (readPage_ok h), hdec]
  rfl

theorem writeNode_ok {node : Node} (h : s.InFile id) (himg : nodeImage codec node = .ok page) :
    writeNode codec id node s =
      (.ok (), { s with image := Function.update s.image id page }) := by
  rw [writeNode, StateExcept.fromExcept_bind himg]
  exact writePage_ok h

end Pages

/-! ## Trees in pages -/

variable {codec : DecimalCodec} {h : ℕ}

/-- The cells of an internal node over the given children. -/
def childCells (rest : List (Value × PageTree h)) : List (Value × ℕ) :=
  rest.map fun c => (c.1, c.2.root)

/-- The pages of the tree hold its nodes. -/
def Represents (codec : DecimalCodec) (image : ℕ → Page) : {h : ℕ} → PageTree h → Prop
  | 0, ⟨id, cells⟩ => nodeImage codec (.leaf cells) = .ok (image id)
  | _ + 1, ⟨id, first, rest⟩ =>
    nodeImage codec (.internal first.root (childCells rest)) = .ok (image id) ∧
      Represents codec image first ∧ ∀ c ∈ rest, Represents codec image c.2

theorem root_mem_pages (t : PageTree h) : t.root ∈ t.pages := by
  cases h with
  | zero => exact List.mem_cons_self
  | succ h => exact List.mem_cons_self

theorem Represents.congr {image image' : ℕ → Page} {t : PageTree h}
    (hrep : Represents codec image t) (heq : ∀ id ∈ t.pages, image' id = image id) :
    Represents codec image' t := by
  induction h with
  | zero =>
      obtain ⟨id, cells⟩ := t
      rw [Represents, heq id (root_mem_pages (h := 0) ⟨id, cells⟩)]
      exact hrep
  | succ h ih =>
      obtain ⟨id, first, rest⟩ := t
      obtain ⟨hnode, hfirst, hrest⟩ := hrep
      have hflat : ∀ p ∈ flat LevelTree.pages first rest, image' p = image p :=
        fun p hp => heq p (List.mem_cons_of_mem _ hp)
      refine ⟨?_, ih hfirst fun p hp => hflat p (List.mem_append_left _ hp), ?_⟩
      · rw [heq id List.mem_cons_self]
        exact hnode
      · intro c hc
        refine ih (hrest c hc) fun p hp => hflat p ?_
        exact List.mem_append_right _ (List.mem_flatMap.mpr ⟨c, hc, hp⟩)

/-! ## Reading the root -/

section Read

variable {s : Store} {first : PageTree h} {rest : List (Value × PageTree h)} {id : ℕ}
  {cells : List (Value × UInt64)}

theorem childCells_keys : (childCells rest).map Prod.fst = rest.map Prod.fst := by
  simp [childCells]

theorem leaf_ok (hfits : LevelTree.Fits (h := 0) (layout codec) ⟨id, cells⟩) :
    (Node.leaf cells).Ok :=
  fun c hc => (hfits.2 c hc).1

theorem child_root_mem (first : PageTree h) (rest : List (Value × PageTree h)) (i : ℕ) :
    (child i first rest).root ∈ flat LevelTree.pages first rest :=
  mem_flat_of_child i (root_mem_pages _)

theorem cell_root_mem {c : Value × PageTree h} (hc : c ∈ rest) :
    c.2.root ∈ flat LevelTree.pages first rest :=
  List.mem_append_right _ (List.mem_flatMap.mpr ⟨c, hc, root_mem_pages _⟩)

theorem internal_ok (hs : s.Ok) (hown : s.Owns (LevelTree.pages (h := h + 1) ⟨id, first, rest⟩))
    (hfits : LevelTree.Fits (h := h + 1) (layout codec) ⟨id, first, rest⟩) :
    (Node.internal first.root (childCells rest)).Ok := by
  have hlt : ∀ p ∈ flat LevelTree.pages first rest, p < 2 ^ 32 := by
    intro p hp
    exact (hown.inFile p (List.mem_cons_of_mem _ hp)).2.trans hs.lt
  refine ⟨hlt _ (child_root_mem first rest 0), ?_⟩
  intro c hc
  obtain ⟨d, hd, rfl⟩ := List.mem_map.mp hc
  exact ⟨(hfits.2.1 d hd).1, hlt _ (cell_root_mem hd)⟩

theorem readNode_leaf (hown : s.Owns (LevelTree.pages (h := 0) ⟨id, cells⟩))
    (hrep : Represents codec s.image (h := 0) ⟨id, cells⟩)
    (hfits : LevelTree.Fits (h := 0) (layout codec) ⟨id, cells⟩) :
    readNode codec id s = (.ok (.leaf cells), s) :=
  readNode_ok (hown.inFile id List.mem_cons_self) (leaf_page (leaf_ok hfits) hrep).1

theorem readNode_internal (hs : s.Ok)
    (hown : s.Owns (LevelTree.pages (h := h + 1) ⟨id, first, rest⟩))
    (hrep : Represents codec s.image (h := h + 1) ⟨id, first, rest⟩)
    (hfits : LevelTree.Fits (h := h + 1) (layout codec) ⟨id, first, rest⟩) :
    readNode codec id s = (.ok (.internal first.root (childCells rest)), s) :=
  readNode_ok (hown.inFile id List.mem_cons_self)
    (internal_page (internal_ok hs hown hfits) hrep.1).1

end Read

/-! ## Children -/

section Children

variable {s : Store} {first : PageTree h} {rest : List (Value × PageTree h)} {id : ℕ} {key : Value}

theorem child_owns (hown : s.Owns (LevelTree.pages (h := h + 1) ⟨id, first, rest⟩)) {i : ℕ}
    (hi : i ≤ rest.length) : s.Owns (child i first rest).pages := by
  have hsub : (child i first rest).pages.Sublist (LevelTree.pages (h := h + 1) ⟨id, first, rest⟩) := by
    obtain ⟨A, B, hflat, -⟩ := flat_splice LevelTree.pages first rest hi
    rw [LevelTree.pages_succ, hflat]
    refine List.Sublist.cons id ?_
    rw [List.append_assoc]
    exact (List.sublist_append_left _ B).trans (List.sublist_append_right A _)
  exact ⟨hown.nodup.sublist hsub, fun p hp => hown.inFile p (hsub.subset hp),
    fun p hp => hown.live p (hsub.subset hp)⟩

theorem child_represents {image : ℕ → Page} (i : ℕ)
    (hrep : Represents codec image (h := h + 1) ⟨id, first, rest⟩) :
    Represents codec image (child i first rest) :=
  child_forall i hrep.2.1 hrep.2.2

theorem child_fits {L : Layout Value} (i : ℕ)
    (hfits : LevelTree.Fits (h := h + 1) L ⟨id, first, rest⟩) : (child i first rest).Fits L :=
  child_forall i hfits.2.2.1 hfits.2.2.2

/-- Distinct positions are distinct pages. -/
theorem child_root_injective (hnodup : (flat LevelTree.pages first rest).Nodup) {i j : ℕ}
    (hi : i ≤ rest.length) (hj : j ≤ rest.length)
    (heq : (child i first rest).root = (child j first rest).root) : i = j := by
  induction rest generalizing i j first with
  | nil =>
      simp only [List.length_nil, Nat.le_zero] at hi hj
      rw [hi, hj]
  | cons p rest ih =>
      obtain ⟨k, c⟩ := p
      rw [flat_cons, List.nodup_append'] at hnodup
      obtain ⟨-, htail, hdisj⟩ := hnodup
      cases i with
      | zero =>
          cases j with
          | zero => rfl
          | succ j =>
              refine absurd (child_root_mem c rest j) ?_
              have hroot : first.root = (child j c rest).root := heq
              rw [← hroot]
              exact hdisj (root_mem_pages first)
      | succ i =>
          cases j with
          | zero =>
              refine absurd (child_root_mem c rest i) ?_
              have hroot : (child i c rest).root = first.root := heq
              rw [hroot]
              exact hdisj (root_mem_pages first)
          | succ j =>
              rw [ih htail (Nat.le_of_succ_le_succ hi) (Nat.le_of_succ_le_succ hj) heq]

theorem childCells_getD {i : ℕ} (hi : i < rest.length) (d : ℕ) :
    ((childCells rest).map Prod.snd).getD i d = (child (i + 1) first rest).root := by
  have hget : rest[i]? = some rest[i] := List.getElem?_eq_getElem hi
  rw [child_succ first hget]
  simp [childCells, hi]

theorem descend_eq :
    descend (childCells rest) first.root key = (child (upper cmpValues key rest) first rest).root := by
  have hup : notAbove key (childCells rest) = upper cmpValues key rest := upper_map _ rest
  have hle : upper cmpValues key rest ≤ rest.length := upper_le rest
  rw [descend, hup]
  cases hu : upper cmpValues key rest with
  | zero => rfl
  | succ i =>
      simp only [Nat.add_one_ne_zero, if_false, Nat.add_sub_cancel]
      exact childCells_getD (by omega) _

end Children

end Docsql.BTree
