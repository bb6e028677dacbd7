import Docsql.BTree.LookupRefine

/-!
# Lookup in place against lookup by whole nodes

`get_at` never decodes a node: it scans the cell boundaries, searches the
serialized keys and recomputes from the two search results which children may
hold the key.  Nothing here assumes that the pages were written by
`write_node`, only that they decode and that their keys are sorted.
-/

namespace Docsql.BTree

open BPlusTree (LevelTree Chain child child_succ partitionPoint lower upper lt_partitionPoint_iff)
open StateExcept (bind_ok bind_error fromExcept_bind)

/-! ## The lookup by whole nodes -/

/-- The first answer among the children. -/
def firstAnswer (visit : ℕ → BTreeM (Option UInt64)) : List ℕ → BTreeM (Option UInt64)
  | [] => return none
  | id :: ids => do
    match ← visit id with
    | some v => return some v
    | none => firstAnswer visit ids

/-- A child other than the primary one. -/
def otherChild (primary : ℕ) (c : Value × ℕ) : Option ℕ :=
  if c.2 = primary then none else some c.2

section Codec

variable (codec : DecimalCodec)

/-- Decode each node with `read_node` and descend into `candidate_children`. -/
def eagerGetAt (key : Value) : ℕ → ℕ → BTreeM (Option UInt64)
  | 0, _ => throw (.corrupt "tree depth exceeds limit (cycle?)")
  | room + 1, id => do
    match ← readNode codec id with
    | .leaf cells => return (cells.find? fun c => cmpValues c.1 key == .eq).map Prod.snd
    | .internal leftmost cells =>
      firstAnswer (eagerGetAt key room) (candidateChildren cells leftmost key)

def Node.SortedKeys : Node → Prop
  | .leaf cells => cells.Pairwise fun a b => cmpValues a.1 b.1 ≠ .gt
  | .internal _ cells => cells.Pairwise fun a b => cmpValues a.1 b.1 ≠ .gt

def Node.children : Node → List ℕ
  | .leaf _ => []
  | .internal leftmost cells => leftmost :: cells.map Prod.snd

/-- The pages down to `room` levels below `id` decode to nodes with sorted keys.
Pages may repeat and internal nodes may be empty. -/
def Legible (s : Store) : ℕ → ℕ → Prop
  | 0, _ => True
  | room + 1, id =>
    s.InFile id ∧ (s.image id).length = pageSize ∧
      ∃ node, decodeNode codec (s.image id) = .ok node ∧ node.SortedKeys ∧
        ∀ child ∈ node.children, Legible s room child

end Codec

/-! ## Cells of a page that decodes -/

section Cells

variable {codec : DecimalCodec} {α : Type} {p : Payload α} {page : Page}

theorem takeOr_eq_ok {msg : String} {pos n : ℕ} {bytes : List UInt8} :
    takeOr msg page pos n = .ok bytes ↔
      pos + n ≤ page.length ∧ bytes = (page.drop pos).take n := by
  unfold takeOr
  split_ifs with h
  · rw [Except.ok.injEq, eq_comm, and_iff_right h]
  · exact iff_of_false (by simp) fun h' => h h'.1

/-- The two readers name their errors differently and take the same bytes. -/
theorem takeOr_other {msg msg' : String} {pos n : ℕ} {bytes : List UInt8}
    (h : takeOr msg page pos n = .ok bytes) : takeOr msg' page pos n = .ok bytes :=
  takeOr_eq_ok.mpr (takeOr_eq_ok.mp h)

/-- The cell at `pos` reads as `c`. -/
structure ReadsAt (codec : DecimalCodec) (p : Payload α) (page : Page) (pos : ℕ)
    (c : Value × α) : Prop where
  key : decodeKeyAt codec page pos = .ok c.1
  payload : payloadAt p page pos = .ok c.2

/-- The boundary scan finds the cells the decoder reads. -/
theorem startsLoop_of_readCells {n pos : ℕ} {cells : List (Value × α)}
    (hpos : pos ≤ page.length) (h : readCells codec p page n pos = .ok cells) :
    ∃ starts stop, startsLoop page p.width n pos = .ok (starts, stop) ∧ stop ≤ page.length ∧
      List.Forall₂ (ReadsAt codec p page) starts cells := by
  induction n generalizing pos cells with
  | zero =>
      cases h
      exact ⟨[], pos, rfl, hpos, .nil⟩
  | succ n ih =>
      obtain ⟨len, hlen, h⟩ := Except.exists_of_bind_eq_ok h
      obtain ⟨buf, hbuf, h⟩ := Except.exists_of_bind_eq_ok h
      obtain ⟨k, hk, h⟩ := Except.exists_of_bind_eq_ok h
      obtain ⟨v, hv, h⟩ := Except.exists_of_bind_eq_ok h
      obtain ⟨rest, hrest, h⟩ := Except.exists_of_bind_eq_ok h
      cases h
      obtain ⟨starts, stop, hloop, hstop, hcells⟩ := ih (takeOr_eq_ok.mp hv).1 hrest
      refine ⟨pos :: starts, stop, ?_, hstop, .cons ⟨?_, ?_⟩ hcells⟩
      · rw [startsLoop, Except.bind_of_ok (takeOr_other hlen), Except.bind_of_ok hloop]
        rfl
      · rw [decodeKeyAt, Except.bind_of_ok (takeOr_other hlen),
          Except.bind_of_ok (takeOr_other hbuf)]
        exact hk
      · rw [payloadAt, Except.bind_of_ok (takeOr_other hlen), Except.bind_of_ok (takeOr_other hv)]
        rfl

theorem ReadsAt.of_getElem? {starts : List ℕ} {cells : List (Value × α)}
    (h : List.Forall₂ (ReadsAt codec p page) starts cells) {i : ℕ} {c : Value × α}
    (hc : cells[i]? = some c) : ReadsAt codec p page (starts.getD i 0) c := by
  induction h generalizing i with
  | nil => cases hc
  | cons hat _ ih =>
      cases i with
      | zero =>
          cases hc
          exact hat
      | succ i => exact ih hc

theorem firstByte_of_length (hlen : page.length = pageSize) :
    firstByte page = .ok (page.headD 0) := by
  cases page with
  | nil => cases hlen
  | cons kind tail => rfl

theorem kind_of_leaf {cells : List (Value × UInt64)}
    (h : decodeNode codec page = .ok (.leaf cells)) :
    page.headD 0 = leafKind ∧
      readCells codec locator page (Bytes.ofLE ((page.drop 1).take 2)) 3 = .ok cells := by
  simp only [decodeNode] at h
  split_ifs at h with hkind
  · obtain ⟨cells', hcells, h⟩ := Except.exists_of_bind_eq_ok h
    cases h
    exact ⟨hkind, hcells⟩
  · obtain ⟨_, _, h⟩ := Except.exists_of_bind_eq_ok h
    cases h

theorem kind_of_internal {leftmost : ℕ} {cells : List (Value × ℕ)}
    (h : decodeNode codec page = .ok (.internal leftmost cells)) :
    page.headD 0 = internalKind ∧ leftmost = Bytes.ofLE ((page.drop 3).take 4) ∧
      readCells codec childId page (Bytes.ofLE ((page.drop 1).take 2)) 7 = .ok cells := by
  simp only [decodeNode] at h
  split_ifs at h with hkind hkind
  · obtain ⟨_, _, h⟩ := Except.exists_of_bind_eq_ok h
    cases h
  · obtain ⟨cells', hcells, h⟩ := Except.exists_of_bind_eq_ok h
    cases h
    exact ⟨hkind, rfl, hcells⟩

/-- What `node_starts` says of a page that decodes. -/
theorem nodeStarts_of_leaf {cells : List (Value × UInt64)} (hlen : page.length = pageSize)
    (h : decodeNode codec page = .ok (.leaf cells)) :
    ∃ starts, nodeStarts page = .ok (leafKind, none, starts) ∧
      List.Forall₂ (ReadsAt codec locator page) starts cells := by
  obtain ⟨hkind, hcells⟩ := kind_of_leaf h
  obtain ⟨starts, stop, hloop, hstop, hat⟩ :=
    startsLoop_of_readCells (by rw [hlen]; decide) hcells
  refine ⟨starts, ?_, hat⟩
  rw [nodeStarts, Except.bind_of_ok (firstByte_of_length hlen), hkind]
  simp only [ne_eq, not_true_eq_false, false_and, if_false]
  rw [Except.bind_of_ok (takeOr_eq_ok.mpr ⟨by rw [hlen]; decide, rfl⟩), if_neg (by decide),
    Except.bind_of_ok hloop]
  simp only [not_lt.mpr hstop, if_false]
  rfl

theorem nodeStarts_of_internal {leftmost : ℕ} {cells : List (Value × ℕ)}
    (hlen : page.length = pageSize)
    (h : decodeNode codec page = .ok (.internal leftmost cells)) :
    ∃ starts, nodeStarts page = .ok (internalKind, some leftmost, starts) ∧
      List.Forall₂ (ReadsAt codec childId page) starts cells := by
  obtain ⟨hkind, rfl, hcells⟩ := kind_of_internal h
  obtain ⟨starts, stop, hloop, hstop, hat⟩ :=
    startsLoop_of_readCells (by rw [hlen]; decide) hcells
  refine ⟨starts, ?_, hat⟩
  rw [nodeStarts, Except.bind_of_ok (firstByte_of_length hlen), hkind]
  simp only [ne_eq, not_true_eq_false, and_false, if_false]
  rw [Except.bind_of_ok (takeOr_eq_ok.mpr ⟨by rw [hlen]; decide, rfl⟩), if_pos trivial,
    Except.bind_of_ok (takeOr_eq_ok.mpr ⟨by rw [hlen]; decide, rfl⟩), Except.bind_of_ok hloop]
  simp only [not_lt.mpr hstop, if_false]
  rfl

/-! ## The two searches -/

theorem seekLoop_of_reads {starts : List ℕ} {cells : List (Value × α)} {key : Value}
    {wantGt : Bool} (hat : List.Forall₂ (ReadsAt codec p page) starts cells)
    (hmono : cells.Pairwise fun a b =>
      goRight wantGt b.1 key = true → goRight wantGt a.1 key = true) {fuel lo hi : ℕ}
    (hlo : lo ≤ partitionPoint (fun c => goRight wantGt c.1 key) cells)
    (hhi : partitionPoint (fun c => goRight wantGt c.1 key) cells ≤ hi)
    (hlen : hi ≤ cells.length) (hfuel : hi - lo < fuel) :
    seekLoop codec page starts key wantGt fuel lo hi =
      .ok (partitionPoint (fun c => goRight wantGt c.1 key) cells) := by
  induction fuel generalizing lo hi with
  | zero => omega
  | succ fuel ih =>
      rw [seekLoop]
      by_cases hlt : lo < hi
      · obtain ⟨c, hc⟩ : ∃ c, cells[lo + (hi - lo) / 2]? = some c :=
          ⟨_, List.getElem?_eq_getElem (by omega)⟩
        have hside := lt_partitionPoint_iff hmono hc
        rw [if_pos hlt, Except.bind_of_ok (ReadsAt.of_getElem? hat hc).key]
        by_cases hgo : goRight wantGt c.1 key = true
        · rw [if_pos hgo]
          have := hside.mpr hgo
          apply ih <;> omega
        · rw [if_neg hgo]
          have := hside.not.mpr hgo
          apply ih <;> omega
      · rw [if_neg hlt]
        exact congrArg Except.ok (by omega)

section Seek

variable {starts : List ℕ} {cells : List (Value × α)} {key : Value}

theorem lower_mono (hsorted : cells.Pairwise fun a b => cmpValues a.1 b.1 ≠ .gt) :
    cells.Pairwise fun a b => goRight false b.1 key = true → goRight false a.1 key = true := by
  refine hsorted.imp ?_
  intro a b hab hb
  simp only [goRight, Bool.false_eq_true, if_false, beq_iff_eq] at hb ⊢
  exact Std.TransCmp.lt_of_isLE_of_lt (Ordering.ne_gt_iff_isLE.mp hab) hb

theorem upper_mono (hsorted : cells.Pairwise fun a b => cmpValues a.1 b.1 ≠ .gt) :
    cells.Pairwise fun a b => goRight true b.1 key = true → goRight true a.1 key = true := by
  refine hsorted.imp ?_
  intro a b hab hb
  simp only [goRight, if_true, bne_iff_ne] at hb ⊢
  exact BPlusTree.ne_gt_trans hab hb

theorem cellsSeek_lower_of_reads (hat : List.Forall₂ (ReadsAt codec p page) starts cells)
    (hsorted : cells.Pairwise fun a b => cmpValues a.1 b.1 ≠ .gt) :
    cellsSeek codec page starts key false = .ok (lower cmpValues key cells) := by
  apply seekLoop_of_reads hat (lower_mono hsorted) (Nat.zero_le _)
  · rw [hat.length_eq]
    exact BPlusTree.partitionPoint_le _ _
  · exact hat.length_eq.le
  · omega

theorem cellsSeek_upper_of_reads (hat : List.Forall₂ (ReadsAt codec p page) starts cells)
    (hsorted : cells.Pairwise fun a b => cmpValues a.1 b.1 ≠ .gt) :
    cellsSeek codec page starts key true = .ok (upper cmpValues key cells) := by
  apply seekLoop_of_reads hat (upper_mono hsorted) (Nat.zero_le _)
  · rw [hat.length_eq]
    exact BPlusTree.partitionPoint_le _ _
  · exact hat.length_eq.le
  · omega

end Seek

end Cells

/-! ## The children visited -/

section Children

variable {visit : ℕ → BTreeM (Option UInt64)} {s : Store}

theorem firstAnswer_state (hvisit : ∀ id, (visit id s).2 = s) (ids : List ℕ) :
    (firstAnswer visit ids s).2 = s := by
  induction ids with
  | nil => rfl
  | cons id ids ih =>
      have hkeep := hvisit id
      rw [firstAnswer]
      rcases hrun : visit id s with ⟨e | (_ | v), s'⟩
      · rw [hrun] at hkeep
        rw [bind_error hrun]
        exact hkeep
      · rw [hrun] at hkeep
        obtain rfl : s' = s := hkeep
        rw [bind_ok hrun]
        exact ih
      · rw [hrun] at hkeep
        rw [bind_ok hrun]
        exact hkeep

theorem firstAnswer_cons_some {id : ℕ} {ids : List ℕ} {v : UInt64} {s' : Store}
    (h : visit id s = (.ok (some v), s')) :
    firstAnswer visit (id :: ids) s = (.ok (some v), s') := by
  rw [firstAnswer, bind_ok h]
  rfl

theorem firstAnswer_cons_none {id : ℕ} {ids : List ℕ} {s' : Store}
    (h : visit id s = (.ok none, s')) :
    firstAnswer visit (id :: ids) s = firstAnswer visit ids s' := by
  rw [firstAnswer, bind_ok h]

theorem firstAnswer_cons_error {id : ℕ} {ids : List ℕ} {e : BTreeError} {s' : Store}
    (h : visit id s = (.error e, s')) : firstAnswer visit (id :: ids) s = (.error e, s') := by
  rw [firstAnswer, bind_error h]

/-- Visits that agree and leave the store alone answer the same. -/
theorem firstAnswer_congr {visit' : ℕ → BTreeM (Option UInt64)} {ids : List ℕ}
    (hkeep : ∀ id, (visit' id s).2 = s) (h : ∀ id ∈ ids, visit id s = visit' id s) :
    firstAnswer visit ids s = firstAnswer visit' ids s := by
  induction ids with
  | nil => rfl
  | cons id ids ih =>
      have hid := h id List.mem_cons_self
      have hkept := hkeep id
      rcases hrun : visit' id s with ⟨e | (_ | v), s'⟩
      · rw [firstAnswer_cons_error hrun, firstAnswer_cons_error (hid.trans hrun)]
      · rw [hrun] at hkept
        obtain rfl : s' = s := hkept
        rw [firstAnswer_cons_none hrun, firstAnswer_cons_none (hid.trans hrun)]
        exact ih fun id' hid' => h id' (List.mem_cons_of_mem _ hid')
      · rw [firstAnswer_cons_some hrun, firstAnswer_cons_some (hid.trans hrun)]

/-- The loop over the rest of an equal run passes over the primary child. -/
theorem getCells_eq {codec : DecimalCodec} {page : Page} {primary : ℕ} {starts : List ℕ}
    {cells : List (Value × ℕ)} (hat : List.Forall₂ (ReadsAt codec childId page) starts cells)
    (s : Store) :
    getCells visit page primary starts s =
      firstAnswer visit (cells.filterMap (otherChild primary)) s := by
  induction hat generalizing s with
  | nil => rfl
  | @cons pos c starts cells hc _ ih =>
      rw [getCells, fromExcept_bind hc.payload, List.filterMap_cons, otherChild]
      by_cases hp : c.2 = primary
      · rw [if_pos hp, if_pos hp]
        exact ih s
      · rw [if_neg hp, if_neg hp]
        simp only
        rcases hrun : visit c.2 s with ⟨e | (_ | v), s'⟩
        · rw [bind_error hrun, firstAnswer_cons_error hrun]
        · rw [bind_ok hrun, firstAnswer_cons_none hrun]
          exact ih s'
        · rw [bind_ok hrun, firstAnswer_cons_some hrun]
          rfl

end Children

/-- The elements of a list whose position lies in a range. -/
theorem filterMap_range_of_window {α β : Type} (f : α → Option β) (xs : List α) (lo hi : ℕ) :
    ((List.range xs.length).filterMap fun i =>
      if lo ≤ i ∧ i < hi then xs[i]?.bind f else none) = ((xs.take hi).drop lo).filterMap f := by
  induction xs generalizing lo hi with
  | nil => simp
  | cons x xs ih =>
      rw [List.length_cons, List.range_succ_eq_map, List.filterMap_cons, List.filterMap_map]
      cases hi with
      | zero => simp
      | succ hi =>
        cases lo with
        | zero =>
          have := ih 0 hi
          simp only [Nat.zero_le, true_and, List.drop_zero] at this
          simp [← this, List.filterMap_cons]
        | succ lo =>
          have := ih lo hi
          simp [← this]

theorem filterMap_window_pred {α β : Type} (f : α → Option β) (xs : List α) (lo : ℕ) {hi : ℕ}
    (h : xs[hi - 1]?.bind f = none) :
    ((xs.take hi).drop lo).filterMap f = ((xs.take (hi - 1)).drop lo).filterMap f := by
  cases hi with
  | zero => rfl
  | succ hi =>
      rw [Nat.add_sub_cancel] at h ⊢
      rw [List.take_add_one, List.drop_append, List.filterMap_append]
      cases hx : xs[hi]? with
      | none => simp
      | some x =>
        have hlast : ([x].drop (lo - (xs.take hi).length)).filterMap f = [] := by
          apply List.filterMap_eq_nil_iff.mpr
          intro y hy
          rw [List.mem_singleton.mp (List.mem_of_mem_drop hy)]
          simpa [hx] using h
        rw [Option.toList_some, hlast, List.append_nil]

section Candidates

variable {cells : List (Value × ℕ)} {leftmost : ℕ} {key : Value}

theorem descend_mem : descend cells leftmost key ∈ leftmost :: cells.map Prod.snd := by
  simp only [descend]
  split_ifs
  · exact List.mem_cons_self
  · rw [List.getD_eq_getElem?_getD]
    cases hc : (cells.map Prod.snd)[notAbove key cells - 1]? with
    | none => exact List.mem_cons_self
    | some c => exact List.mem_cons_of_mem _ (List.mem_of_getElem? hc)

theorem candidateChildren_subset :
    candidateChildren cells leftmost key ⊆ leftmost :: cells.map Prod.snd := by
  intro id hid
  simp only [candidateChildren, List.mem_cons, List.mem_append] at hid
  rcases hid with rfl | hid | hid
  · exact descend_mem
  · split_ifs at hid
    · rw [List.mem_singleton.mp hid]
      exact List.mem_cons_self
    · cases hid
  · obtain ⟨i, -, hi⟩ := List.mem_filterMap.mp hid
    obtain ⟨c, hc, hi⟩ := Option.bind_eq_some_iff.mp hi
    split_ifs at hi
    cases hi
    exact List.mem_cons_of_mem _ (List.mem_map_of_mem (List.mem_of_getElem? hc))

/-- A nominal range brackets `key` exactly between the two search results. -/
theorem bracketed_iff (key : Value)
    (hsorted : cells.Pairwise fun a b => cmpValues a.1 b.1 ≠ .gt) {i : ℕ} {c : Value × ℕ}
    (hc : cells[i]? = some c) :
    ((cmpValues c.1 key != .gt) && cells[i + 1]?.all fun d => cmpValues d.1 key != .lt) = true ↔
      lower cmpValues key cells - 1 ≤ i ∧ i < upper cmpValues key cells := by
  have hupper : i < upper cmpValues key cells ↔ (cmpValues c.1 key != .gt) = true :=
    lt_partitionPoint_iff (upper_mono hsorted) hc
  have hlower : (cells[i + 1]?.all fun d => cmpValues d.1 key != .lt) = true ↔
      lower cmpValues key cells - 1 ≤ i := by
    have hle : lower cmpValues key cells ≤ cells.length := BPlusTree.partitionPoint_le _ _
    cases hd : cells[i + 1]? with
    | none =>
      have := List.getElem?_eq_none_iff.mp hd
      exact iff_of_true rfl (by omega)
    | some d =>
      have hside : i + 1 < lower cmpValues key cells ↔ (cmpValues d.1 key == .lt) = true :=
        lt_partitionPoint_iff (lower_mono hsorted) hd
      rw [Option.all_some, bne_iff_ne, ne_eq, ← beq_iff_eq, ← hside]
      omega
  rw [Bool.and_eq_true, hlower, hupper, and_comm]

/-- The last cell not above `key` holds the primary child. -/
theorem descend_eq_primary {c : Value × ℕ}
    (hc : cells[upper cmpValues key cells - 1]? = some c) (hpos : upper cmpValues key cells ≠ 0) :
    descend cells leftmost key = c.2 := by
  have hidx : notAbove key cells = upper cmpValues key cells := rfl
  rw [descend, hidx]
  simp only [hpos, if_false]
  rw [List.getD_eq_getElem?_getD, List.getElem?_map]
  exact congrArg (fun o => (o.map Prod.snd).getD leftmost) hc

theorem leftmost_bracketed_iff (key : Value)
    (hsorted : cells.Pairwise fun a b => cmpValues a.1 b.1 ≠ .gt) :
    (cells.head?.all fun c => cmpValues c.1 key != .lt) = true ↔
      lower cmpValues key cells = 0 := by
  cases cells with
  | nil => exact iff_of_true rfl rfl
  | cons c cells =>
    have hside : 0 < lower cmpValues key (c :: cells) ↔ (cmpValues c.1 key == .lt) = true :=
      lt_partitionPoint_iff (lower_mono hsorted) rfl
    rw [List.head?_cons, Option.all_some, bne_iff_ne, ne_eq, ← beq_iff_eq, ← hside]
    omega

/-- The candidates, from the two search results alone. -/
theorem candidateChildren_of_sorted
    (hsorted : cells.Pairwise fun a b => cmpValues a.1 b.1 ≠ .gt) :
    candidateChildren cells leftmost key = descend cells leftmost key ::
      ((if lower cmpValues key cells = 0 ∧ leftmost ≠ descend cells leftmost key then [leftmost]
        else []) ++
      ((cells.take (upper cmpValues key cells - 1)).drop (lower cmpValues key cells - 1)).filterMap
        (otherChild (descend cells leftmost key))) := by
  set primary := descend cells leftmost key with hprimary
  have hlast : cells[upper cmpValues key cells - 1]?.bind (otherChild primary) = none ∨
      upper cmpValues key cells = 0 := by
    by_cases hpos : upper cmpValues key cells = 0
    · exact .inr hpos
    · refine .inl ?_
      cases hc : cells[upper cmpValues key cells - 1]? with
      | none => rfl
      | some c =>
        rw [Option.bind_some, otherChild, if_pos]
        rw [hprimary]
        exact (descend_eq_primary hc hpos).symm
  have hother : ∀ i ∈ List.range cells.length,
      (cells[i]?.bind fun c => if c.2 = primary then none else
        if (cmpValues c.1 key != .gt) && cells[i + 1]?.all fun d => cmpValues d.1 key != .lt then
          some c.2 else none) =
      if lower cmpValues key cells - 1 ≤ i ∧ i < upper cmpValues key cells then
        cells[i]?.bind (otherChild primary) else none := by
    intro i hi
    obtain ⟨c, hc⟩ : ∃ c, cells[i]? = some c :=
      ⟨_, List.getElem?_eq_getElem (List.mem_range.mp hi)⟩
    have hiff := bracketed_iff key hsorted hc
    rw [hc, Option.bind_some, Option.bind_some, otherChild]
    simp only [hiff]
    split_ifs <;> rfl
  have hrest : ((cells.take (upper cmpValues key cells)).drop
      (lower cmpValues key cells - 1)).filterMap (otherChild primary) =
      ((cells.take (upper cmpValues key cells - 1)).drop
        (lower cmpValues key cells - 1)).filterMap (otherChild primary) := by
    rcases hlast with hlast | hzero
    · exact filterMap_window_pred _ _ _ hlast
    · rw [hzero]
  rw [← hrest, ← filterMap_range_of_window, ← List.filterMap_congr hother]
  simp only [candidateChildren, ← hprimary]
  congr 2
  have hleft := leftmost_bracketed_iff key hsorted
  simp only [Bool.and_eq_true, hleft, bne_iff_ne]

end Candidates

/-! ## The two lookups agree -/

section Agree

variable {codec : DecimalCodec} {key : Value} {s : Store}

theorem readPage_state (s : Store) (id : ℕ) : (readPage id s).2 = s := by
  rw [readPage, StateExcept.mapError, Store.readPage, StateExcept.read_bind]
  split_ifs <;> rfl

theorem readNode_state (codec : DecimalCodec) (s : Store) (id : ℕ) :
    (readNode codec id s).2 = s := by
  have hkeep := readPage_state s id
  rw [readNode]
  rcases hrun : readPage id s with ⟨e | page, s'⟩
  · rw [hrun] at hkeep
    rw [bind_error hrun]
    exact hkeep
  · rw [hrun] at hkeep
    rw [bind_ok hrun]
    exact hkeep

theorem eagerGetAt_state (codec : DecimalCodec) (key : Value) (s : Store) (room id : ℕ) :
    (eagerGetAt codec key room id s).2 = s := by
  induction room generalizing id with
  | zero => rfl
  | succ room ih =>
      have hkeep := readNode_state codec s id
      rw [eagerGetAt]
      rcases hrun : readNode codec id s with ⟨e | (cells | ⟨leftmost, cells⟩), s'⟩
      · rw [hrun] at hkeep
        rw [bind_error hrun]
        exact hkeep
      · rw [hrun] at hkeep
        rw [bind_ok hrun]
        exact hkeep
      · rw [hrun] at hkeep
        obtain rfl : s' = s := hkeep
        rw [bind_ok hrun]
        exact firstAnswer_state ih _

/-- In a sorted leaf only the first cell not below `key` can be the first equal one. -/
theorem find?_eq_lower {α : Type} {cells : List (Value × α)}
    (hsorted : cells.Pairwise fun a b => cmpValues a.1 b.1 ≠ .gt) :
    (cells.find? fun c => cmpValues c.1 key == .eq) =
      cells[lower cmpValues key cells]?.filter fun c => cmpValues c.1 key == .eq := by
  induction cells with
  | nil => rfl
  | cons c cells ih =>
      obtain ⟨hhead, htail⟩ := List.pairwise_cons.mp hsorted
      have hpoint : lower cmpValues key (c :: cells) =
          if cmpValues c.1 key == .lt then lower cmpValues key cells + 1 else 0 := by
        rw [lower, partitionPoint, List.takeWhile_cons]
        split_ifs <;> rfl
      rw [hpoint]
      cases hc : cmpValues c.1 key with
      | lt => simpa [hc] using ih htail
      | eq => simp [hc, Option.filter_some]
      | gt =>
        have hnone : (cells.find? fun d => cmpValues d.1 key == .eq) = none := by
          apply List.find?_eq_none.mpr
          intro d hd heq
          have hle := hhead d hd
          have heq' : cmpValues d.1 key = .eq := by simpa using heq
          rw [Std.TransCmp.congr_right heq'] at hle
          exact hle hc
        simp [hc, hnone, Option.filter_some]

theorem getAt_eq_leaf {room id : ℕ} {cells : List (Value × UInt64)} (hin : s.InFile id)
    (hlen : (s.image id).length = pageSize)
    (hnode : decodeNode codec (s.image id) = .ok (.leaf cells))
    (hsorted : cells.Pairwise fun a b => cmpValues a.1 b.1 ≠ .gt) :
    getAt codec key (room + 1) id s =
      (.ok ((cells.find? fun c => cmpValues c.1 key == .eq).map Prod.snd), s) := by
  obtain ⟨starts, hstarts, hat⟩ := nodeStarts_of_leaf hlen hnode
  rw [getAt, bind_ok (readPage_ok hin), fromExcept_bind hstarts]
  simp only [if_true]
  rw [fromExcept_bind (cellsSeek_lower_of_reads hat hsorted), find?_eq_lower hsorted,
    hat.length_eq]
  by_cases hi : lower cmpValues key cells < cells.length
  · have hget : cells[lower cmpValues key cells]? = some cells[lower cmpValues key cells] :=
      List.getElem?_eq_getElem hi
    have hcell := ReadsAt.of_getElem? hat hget
    rw [if_pos hi, fromExcept_bind hcell.key, hget, Option.filter_some]
    by_cases heq : cmpValues cells[lower cmpValues key cells].1 key = .eq
    · rw [if_pos heq, if_pos (beq_iff_eq.mpr heq), fromExcept_bind hcell.payload]
      rfl
    · rw [if_neg heq, if_neg (mt beq_iff_eq.mp heq)]
      rfl
  · rw [if_neg hi, List.getElem?_eq_none_iff.mpr (not_lt.mp hi)]
    rfl

theorem getAt_eq_internal {room id leftmost : ℕ} {cells : List (Value × ℕ)} (hin : s.InFile id)
    (hlen : (s.image id).length = pageSize)
    (hnode : decodeNode codec (s.image id) = .ok (.internal leftmost cells))
    (hsorted : cells.Pairwise fun a b => cmpValues a.1 b.1 ≠ .gt) :
    getAt codec key (room + 1) id s =
      firstAnswer (getAt codec key room) (candidateChildren cells leftmost key) s := by
  obtain ⟨starts, hstarts, hat⟩ := nodeStarts_of_internal hlen hnode
  have hupper : upper cmpValues key cells ≤ cells.length := BPlusTree.partitionPoint_le _ _
  have hprimary : (if upper cmpValues key cells = 0 then Except.ok leftmost
      else payloadAt childId (s.image id) (starts.getD (upper cmpValues key cells - 1) 0)) =
      .ok (descend cells leftmost key) := by
    by_cases hpos : upper cmpValues key cells = 0
    · rw [if_pos hpos]
      exact congrArg Except.ok (if_pos hpos).symm
    · have hget : cells[upper cmpValues key cells - 1]? =
          some cells[upper cmpValues key cells - 1] := List.getElem?_eq_getElem (by omega)
      rw [if_neg hpos, descend_eq_primary hget hpos]
      exact (ReadsAt.of_getElem? hat hget).payload
  have hwindow : List.Forall₂ (ReadsAt codec childId (s.image id))
      ((starts.take (upper cmpValues key cells - 1)).drop (lower cmpValues key cells - 1))
      ((cells.take (upper cmpValues key cells - 1)).drop (lower cmpValues key cells - 1)) :=
    List.forall₂_drop _ (List.forall₂_take _ hat)
  rw [getAt, bind_ok (readPage_ok hin), fromExcept_bind hstarts]
  simp only
  rw [if_neg (by decide), fromExcept_bind (cellsSeek_lower_of_reads hat hsorted),
    fromExcept_bind (cellsSeek_upper_of_reads hat hsorted), fromExcept_bind hprimary,
    candidateChildren_of_sorted hsorted]
  rcases hrun : getAt codec key room (descend cells leftmost key) s with ⟨e | (_ | v), s'⟩
  · rw [bind_error hrun, firstAnswer_cons_error hrun]
  · rw [bind_ok hrun, firstAnswer_cons_none hrun]
    simp only
    split_ifs
    · rw [List.singleton_append]
      rcases hleft : getAt codec key room leftmost s' with ⟨e | (_ | v), s''⟩
      · rw [bind_error hleft, firstAnswer_cons_error hleft]
      · rw [bind_ok hleft, firstAnswer_cons_none hleft]
        exact getCells_eq hwindow s''
      · rw [bind_ok hleft, firstAnswer_cons_some hleft]
        rfl
    · exact getCells_eq hwindow s'
  · rw [bind_ok hrun, firstAnswer_cons_some hrun]
    rfl

/-- An internal page without cells over an empty leaf. -/
def hollowStore : Store where
  image id := if id = 1 then internalKind :: 0 :: 0 :: 2 :: List.replicate (pageSize - 4) 0
    else leafKind :: List.replicate (pageSize - 1) 0
  reusable := []
  numPages := 3

end Agree

/-! ## Trees of the store -/

section Held

variable {codec : DecimalCodec} {s : Store} {h : ℕ} {strict : Bool} {lo hi : Option Value}

theorem nodeImage_length {node : Node} {page : Page} (himg : nodeImage codec node = .ok page) :
    page.length = pageSize := by
  cases node with
  | leaf cells =>
    obtain ⟨body, hbody, himg⟩ := Except.bind_eq_ok_iff.mp himg
    have := (writeCells_length hbody (by decide)).1
    cases himg
    simp [padded]
    omega
  | internal leftmost cells =>
    obtain ⟨body, hbody, himg⟩ := Except.bind_eq_ok_iff.mp himg
    have := (writeCells_length hbody (by decide)).1
    cases himg
    simp [padded]
    omega

/-- The pages of a tree in order are legible, however deep one looks. -/
theorem legible_of_represents {t : PageTree h} (hs : s.Ok) (hown : s.Owns t.pages)
    (hrep : Represents codec s.image t) (hfits : t.Fits (layout codec))
    (hinv : t.Inv cmpValues strict lo hi) (room : ℕ) : Legible codec s room t.root := by
  induction h generalizing room lo hi with
  | zero =>
      obtain ⟨id, cells⟩ := t
      cases room with
      | zero => trivial
      | succ room =>
        refine ⟨hown.inFile id List.mem_cons_self, nodeImage_length hrep, .leaf cells,
          (leaf_page (leaf_ok hfits) hrep).1, ?_, fun _ h => by cases h⟩
        exact hinv.1.imp fun hab => hab.ne_gt
  | succ h ih =>
      obtain ⟨id, first, rest⟩ := t
      cases room with
      | zero => trivial
      | succ room =>
        have hchild : ∀ i ≤ rest.length, Legible codec s room (child i first rest).root := by
          intro i hi
          obtain ⟨lo', hi', hinv'⟩ := Chain.exists_child i hinv
          exact ih (child_owns hown hi) (child_represents i hrep) (child_fits i hfits) hinv' room
        refine ⟨hown.inFile id List.mem_cons_self, nodeImage_length hrep.1,
          .internal first.root (childCells rest),
          (internal_page (internal_ok hs hown hfits) hrep.1).1, ?_, ?_⟩
        · apply List.pairwise_map.mpr
          exact (Chain.pairwise hinv).imp fun hab => hab.ne_gt
        · intro id' hid'
          rcases List.mem_cons.mp hid' with rfl | hid'
          · exact hchild 0 (Nat.zero_le _)
          · obtain ⟨c, hc, rfl⟩ := List.mem_map.mp hid'
            obtain ⟨d, hd, rfl⟩ := List.mem_map.mp hc
            obtain ⟨i, hi⟩ := List.mem_iff_getElem?.mp hd
            have := hchild (i + 1) (List.getElem?_eq_some_iff.mp hi).1
            rwa [child_succ first hi] at this

end Held

end Docsql.BTree
