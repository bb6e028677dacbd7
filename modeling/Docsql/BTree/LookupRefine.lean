import Docsql.BTree.InsertRefine

/-!
# `get`, `scan`, `delete` and `delete_entry` on pages

The readers return what the tree returns and leave the store alone; a deletion
rewrites one leaf.
-/

namespace Docsql.BTree

open BPlusTree StateExcept

variable {codec : DecimalCodec} {h : ℕ} {key : Value} {s : Store} {strict : Bool}
  {lo hi : Option Value}

/-! ## Scan -/

theorem not_filled_none (out : List (Value × UInt64)) : ¬filled none out = true := by
  simp [filled]

theorem pushCells_none (cells out : List (Value × UInt64)) :
    pushCells none cells out = out ++ cells := by
  induction cells generalizing out with
  | nil => simp [pushCells]
  | cons c cells ih => simp [pushCells, filled, ih]

theorem scanChildren_none {T : Type} {visit : ℕ → List (Value × UInt64) →
      BTreeM (List (Value × UInt64))} {f : T → List (Value × UInt64)} {g : T → ℕ}
    (cs : List (Value × T)) (out : List (Value × UInt64))
    (hvisit : ∀ c ∈ cs, ∀ out, visit (g c.2) out s = (.ok (out ++ f c.2), s)) :
    scanChildren none visit (cs.map fun c => g c.2) out s =
      (.ok (out ++ cs.flatMap fun c => f c.2), s) := by
  induction cs generalizing out with
  | nil => simp [scanChildren]
  | cons c cs ih =>
      rw [List.map_cons, scanChildren, if_neg (not_filled_none out), bind_ok (hvisit c (by simp) out), ih _ fun d hd => hvisit d (by simp [hd])]
      simp

theorem scanRec_sim {room : ℕ} {t : PageTree h} (hroom : h < room) (hs : s.Ok)
    (hown : s.Owns t.pages) (hrep : Represents codec s.image t) (hfits : t.Fits (layout codec))
    (out : List (Value × UInt64)) :
    scanRec codec none room t.root out s = (.ok (out ++ t.toList), s) := by
  induction h generalizing room out with
  | zero =>
      obtain ⟨id, cells⟩ := t
      obtain ⟨room, rfl⟩ : ∃ r, room = r + 1 := ⟨room - 1, by omega⟩
      rw [LevelTree.root, scanRec, if_neg (not_filled_none out), bind_ok (readNode_leaf hown hrep hfits)]
      simp [pushCells_none, LevelTree.toList]
  | succ h ih =>
      obtain ⟨id, first, rest⟩ := t
      obtain ⟨room, rfl⟩ : ∃ r, room = r + 1 := ⟨room - 1, by omega⟩
      have hroom' : h < room := by omega
      have hchild : ∀ c : PageTree h, Represents codec s.image c → c.Fits (layout codec) →
          s.Owns c.pages → ∀ out, scanRec codec none room c.root out s = (.ok (out ++ c.toList), s) :=
        fun c hrep hfits hown out => ih hroom' hown hrep hfits out
      have hcell : ∀ c ∈ rest, s.Owns c.2.pages := by
        intro c hc
        obtain ⟨i, hi⟩ := List.mem_iff_getElem?.mp hc
        have hlt : i + 1 ≤ rest.length := (List.getElem?_eq_some_iff.mp hi).1
        rw [← child_succ first hi]
        exact child_owns hown hlt
      rw [LevelTree.root, scanRec, if_neg (not_filled_none out), bind_ok (readNode_internal hs hown hrep hfits)]
      simp only
      rw [bind_ok (hchild first hrep.2.1 hfits.2.2.1 (child_owns (i := 0) hown (Nat.zero_le _)) out)]
      have hroots : (childCells rest).map Prod.snd = rest.map fun c => c.2.root := by
        simp [childCells]
      rw [hroots, scanChildren_none (f := LevelTree.toList) rest _ fun c hc =>
        hchild c.2 (hrep.2.2 c hc) (hfits.2.2.2 c hc) (hcell c hc)]
      simp [LevelTree.toList_succ, flat]

theorem scan_sim {root : ℕ} {t : PageTree h} (ht : Holds codec s root t)
    (hdepth : h ≤ maxTreeDepth) : scan codec root s = (.ok t.toList, s) := by
  rw [scan, scanLimited, ← ht.root_eq]
  exact scanRec_sim (Nat.lt_succ_of_le hdepth) ht.store ht.owns ht.represents ht.fits []

/-! ## Lookup -/

theorem getAt_leaf {room id : ℕ} {cells : List (Value × UInt64)}
    (hown : s.Owns (LevelTree.pages (h := 0) ⟨id, cells⟩))
    (hrep : Represents codec s.image (h := 0) ⟨id, cells⟩)
    (hfits : LevelTree.Fits (h := 0) (layout codec) ⟨id, cells⟩)
    (hsorted : cells.Pairwise fun a b => cmpValues a.1 b.1 ≠ .gt) :
    getAt codec key (room + 1) id s =
      (.ok (LevelTree.get cmpValues key (h := 0) (⟨id, cells⟩ : Leaf ℕ Value UInt64)), s) := by
  obtain ⟨-, starts, hstarts, hlen, hat⟩ := leaf_page (leaf_ok hfits) hrep
  rw [getAt, bind_ok (readPage_ok (hown.inFile id List.mem_cons_self)), fromExcept_bind hstarts]
  simp only [if_true]
  rw [fromExcept_bind (cellsSeek_lower (leaf_ok hfits) hlen hat hsorted)]
  simp only [LevelTree.get]
  by_cases hi : lower cmpValues key cells < cells.length
  · have hget : cells[lower cmpValues key cells]? = some cells[lower cmpValues key cells] :=
      List.getElem?_eq_getElem hi
    obtain ⟨klen, hcell⟩ := hat _ _ hget
    have hwf := leaf_ok hfits _ (List.getElem_mem hi)
    rw [if_pos (hlen ▸ hi), fromExcept_bind (decodeKeyAt_of_cellAt hwf hcell),
      List.drop_eq_getElem_cons hi]
    simp only
    split_ifs with heq
    · rw [fromExcept_bind (payloadAt_of_cellAt trivial hcell)]
      rfl
    · rfl
  · rw [if_neg (hlen ▸ hi), List.drop_eq_nil_of_le (not_lt.mp hi)]
    rfl

/-- The loop over the rest of an equal run. -/
theorem getCells_sim {visit : ℕ → BTreeM (Option UInt64)} {page : Page} {primary : ℕ}
    {starts : List ℕ} {cs : List (Value × PageTree h)}
    (hcs : List.Forall₂ (fun pos c => payloadAt childId page pos = .ok c.2.root ∧
      c.2.root ≠ primary ∧ visit c.2.root s = (.ok (c.2.get cmpValues key), s)) starts cs) :
    getCells visit page primary starts s =
      (.ok (cs.findSome? fun c => c.2.get cmpValues key), s) := by
  induction hcs with
  | nil => rfl
  | cons hc htail ih =>
      obtain ⟨hpay, hne, hvisit⟩ := hc
      rw [getCells, fromExcept_bind hpay, if_neg hne, bind_ok hvisit, List.findSome?_cons]
      split
      · rename_i v hv
        simp [hv]
      · rename_i hv
        simp only [hv]
        exact ih

theorem getAt_sim {room : ℕ} {t : PageTree h} (hroom : h < room) (hs : s.Ok)
    (hown : s.Owns t.pages) (hrep : Represents codec s.image t) (hfits : t.Fits (layout codec))
    (hinv : t.Inv cmpValues strict lo hi) :
    getAt codec key room t.root s = (.ok (t.get cmpValues key), s) := by
  induction h generalizing room lo hi with
  | zero =>
      obtain ⟨id, cells⟩ := t
      obtain ⟨room, rfl⟩ : ∃ r, room = r + 1 := ⟨room - 1, by omega⟩
      exact getAt_leaf hown hrep hfits (hinv.1.imp fun hab => hab.ne_gt)
  | succ h ih =>
      obtain ⟨id, first, rest⟩ := t
      obtain ⟨room, rfl⟩ : ∃ r, room = r + 1 := ⟨room - 1, by omega⟩
      have hroom' : h < room := by omega
      have hchild : ∀ i ≤ rest.length, getAt codec key room (child i first rest).root s =
          (.ok ((child i first rest).get cmpValues key), s) := by
        intro i hi
        obtain ⟨lo', hi', hinv'⟩ := Chain.exists_child i hinv
        exact ih hroom' (child_owns hown hi) (child_represents i hrep) (child_fits i hfits) hinv'
      have hnodeOk := internal_ok hs hown hfits
      obtain ⟨-, starts, hstarts, hlen, hat⟩ := internal_page hnodeOk hrep.1
      have hwf : ∀ c ∈ childCells rest, c.1.WF := fun c hc => (hnodeOk.2 c hc).1
      have hsorted : (childCells rest).Pairwise fun a b => cmpValues a.1 b.1 ≠ .gt := by
        rw [childCells, List.pairwise_map]
        exact (Chain.pairwise hinv).imp fun hab => hab.ne_gt
      have hlower : cellsSeek codec (s.image id) starts key false =
          .ok (lower cmpValues key rest) := by
        rw [cellsSeek_lower hwf hlen hat hsorted]
        exact congrArg Except.ok (lower_map _ rest)
      have hupper : cellsSeek codec (s.image id) starts key true =
          .ok (upper cmpValues key rest) := by
        rw [cellsSeek_upper hwf hlen hat hsorted]
        exact congrArg Except.ok (upper_map _ rest)
      have hg : upper cmpValues key rest ≤ rest.length := upper_le rest
      have hpay : ∀ i < rest.length, payloadAt childId (s.image id) (starts.getD i 0) =
          .ok (child (i + 1) first rest).root := by
        intro i hi
        have hget : rest[i]? = some rest[i] := List.getElem?_eq_getElem hi
        have hcell : (childCells rest)[i]? = some (rest[i].1, rest[i].2.root) := by
          simp [childCells, hi]
        obtain ⟨klen, hcell'⟩ := hat i _ hcell
        rw [child_succ first hget]
        exact payloadAt_of_cellAt (hnodeOk.2 _ (List.mem_of_getElem? hcell)).2 hcell'
      have hprimary : (if upper cmpValues key rest = 0 then Except.ok first.root
          else payloadAt childId (s.image id) (starts.getD (upper cmpValues key rest - 1) 0)) =
          .ok (child (upper cmpValues key rest) first rest).root := by
        cases hu : upper cmpValues key rest with
        | zero => rfl
        | succ g => exact hpay g (by omega)
      have hleftmost : first.root ≠ (child (upper cmpValues key rest) first rest).root ↔
          upper cmpValues key rest ≠ 0 := by
        refine not_congr ⟨fun heq => ?_, fun hu => by rw [hu]; rfl⟩
        exact (child_root_injective (nodup_flat hown) (Nat.zero_le _) hg heq).symm
      rw [LevelTree.root, getAt, bind_ok (readPage_ok (hown.inFile id List.mem_cons_self)),
        fromExcept_bind hstarts]
      simp only
      rw [if_neg (by decide), fromExcept_bind hlower, fromExcept_bind hupper,
        fromExcept_bind hprimary, bind_ok (hchild _ hg), LevelTree.get]
      cases hgot : (child (upper cmpValues key rest) first rest).get cmpValues key with
      | some v => rfl
      | none =>
          simp only [hleftmost, Option.none_or]
          have hfirst : (if lower cmpValues key rest = 0 ∧ upper cmpValues key rest ≠ 0 then
              getAt codec key room first.root else pure none : BTreeM (Option UInt64)) s =
              (.ok (if lower cmpValues key rest = 0 ∧ upper cmpValues key rest ≠ 0 then
                first.get cmpValues key else none), s) := by
            split_ifs
            · exact hchild 0 (Nat.zero_le _)
            · rfl
          rw [bind_ok hfirst]
          cases hleft : (if lower cmpValues key rest = 0 ∧ upper cmpValues key rest ≠ 0 then
              first.get cmpValues key else none) with
          | some v => rfl
          | none =>
              refine getCells_sim (List.forall₂_iff_get.mpr ⟨by simp [hlen, childCells], ?_⟩)
              intro i hi₁ hi₂
              simp only [List.length_drop, List.length_take] at hi₁ hi₂
              have hlt : lower cmpValues key rest - 1 + i < rest.length := by omega
              have hget : rest[lower cmpValues key rest - 1 + i]? =
                  some rest[lower cmpValues key rest - 1 + i] := List.getElem?_eq_getElem hlt
              have hroot := child_succ first hget
              simp only [List.get_eq_getElem, List.getElem_drop, List.getElem_take]
              rw [← hroot]
              refine ⟨?_, ?_, hchild _ hlt⟩
              · have hlt' : lower cmpValues key rest - 1 + i < starts.length := by omega
                rw [← hpay _ hlt, List.getD_eq_getElem?_getD, List.getElem?_eq_getElem hlt',
                  Option.getD_some]
              · intro heq
                have := child_root_injective (nodup_flat hown) hlt hg heq
                omega

theorem get_sim {root : ℕ} {t : PageTree h} (ht : Holds codec s root t) (hdepth : h ≤ maxTreeDepth)
    (hinv : t.Inv cmpValues strict lo hi) :
    get codec root key s = (.ok (t.get cmpValues key), s) := by
  rw [get, ← ht.root_eq]
  exact getAt_sim (Nat.lt_succ_of_le hdepth) ht.store ht.owns ht.represents ht.fits hinv

/-! ## Delete -/

theorem filterMap_if {α β : Type} (p : α → Bool) (g : α → β) (xs : List α) :
    xs.filterMap (fun a => if p a then some (g a) else none) = (xs.filter p).map g := by
  induction xs with
  | nil => rfl
  | cons a xs ih => cases hp : p a <;> simp [hp, ih]

theorem candidateChildren_eq {first : PageTree h} {rest : List (Value × PageTree h)}
    (hnodup : (flat LevelTree.pages first rest).Nodup) :
    candidateChildren (childCells rest) first.root key =
      (LevelTree.candidates cmpValues key rest).map fun i => (child i first rest).root := by
  have hg : upper cmpValues key rest ≤ rest.length := upper_le rest
  have hprimary : ∀ i ≤ rest.length,
      (child i first rest).root = (child (upper cmpValues key rest) first rest).root ↔
        i = upper cmpValues key rest := by
    intro i hi
    exact ⟨child_root_injective hnodup hi hg, fun heq => by rw [heq]⟩
  have hleftmost : (first.root != (child (upper cmpValues key rest) first rest).root) =
      (upper cmpValues key rest != 0) := by
    have := hprimary 0 (Nat.zero_le _)
    rw [Bool.eq_iff_iff, bne_iff_ne, bne_iff_ne, ne_eq, ne_eq]
    exact not_congr (this.trans eq_comm)
  have hother : ∀ i ∈ List.range rest.length,
      ((childCells rest)[i]?.bind fun c =>
        if c.2 = (child (upper cmpValues key rest) first rest).root then none
        else if (cmpValues c.1 key != .gt) &&
          ((childCells rest)[i + 1]?.all fun d => cmpValues d.1 key != .lt) then some c.2
        else none) =
      if (i + 1 != upper cmpValues key rest && (rest[i]?.any fun c => cmpValues c.1 key != .gt) &&
        (rest[i + 1]?.all fun c => cmpValues c.1 key != .lt)) then
          some (child (i + 1) first rest).root else none := by
    intro i hi
    have hlt : i < rest.length := List.mem_range.mp hi
    have hget : rest[i]? = some rest[i] := List.getElem?_eq_getElem hlt
    have hp := hprimary (i + 1) hlt
    rw [child_succ first hget] at hp ⊢
    simp only [childCells, List.getElem?_map, hget, Option.map_some, Option.bind_some, hp,
      Option.any_some, Option.all_map]
    by_cases hu : i + 1 = upper cmpValues key rest
    · simp [hu]
    · cases hnext : rest[i + 1]? <;> simp [hu]
  have hhead : ((childCells rest).head?.all fun c => cmpValues c.1 key != .lt) =
      rest.head?.all fun c => cmpValues c.1 key != .lt := by
    cases rest <;> rfl
  unfold candidateChildren LevelTree.candidates
  simp only [descend_eq, hleftmost, hhead]
  rw [show (childCells rest).length = rest.length by simp [childCells],
    List.filterMap_congr hother, filterMap_if]
  simp only [List.map_cons, List.map_append, List.map_map]
  congr 2
  split_ifs <;> rfl

theorem anyChild_false {visit : ℕ → BTreeM Bool} {ids : List ℕ}
    (hids : ∀ id ∈ ids, visit id s = (.ok false, s)) : anyChild visit ids s = (.ok false, s) := by
  induction ids with
  | nil => rfl
  | cons id ids ih =>
      rw [anyChild, bind_ok (hids id (by simp))]
      exact ih fun id hid => hids id (by simp [hid])

theorem anyChild_true {visit : ℕ → BTreeM Bool} {ids ids' : List ℕ} {id : ℕ} {s' : Store}
    (hids : ∀ id ∈ ids, visit id s = (.ok false, s)) (hid : visit id s = (.ok true, s')) :
    anyChild visit (ids ++ id :: ids') s = (.ok true, s') := by
  induction ids with
  | nil =>
      rw [List.nil_append, anyChild, bind_ok hid]
      rfl
  | cons id ids ih =>
      rw [List.cons_append, anyChild, bind_ok (hids id (by simp))]
      exact ih fun id hid => hids id (by simp [hid])

section Delete

variable {M : Value × UInt64 → Prop}
  {leafMatch : List (Value × UInt64) → Option (List (Value × UInt64))}

theorem deleteRec_none_sim {room : ℕ} {t : PageTree h} (hroom : h < room) (hs : s.Ok)
    (hown : s.Owns t.pages) (hrep : Represents codec s.image t) (hfits : t.Fits (layout codec))
    (hdel : t.deleteRec cmpValues key leafMatch = none) :
    deleteRec codec key leafMatch room t.root s = (.ok false, s) := by
  induction h generalizing room with
  | zero =>
      obtain ⟨id, cells⟩ := t
      obtain ⟨room, rfl⟩ : ∃ r, room = r + 1 := ⟨room - 1, by omega⟩
      have hnone : leafMatch cells = none := Option.map_eq_none_iff.mp hdel
      rw [LevelTree.root, deleteRec, bind_ok (readNode_leaf hown hrep hfits)]
      simp only [hnone]
      rfl
  | succ h ih =>
      obtain ⟨id, first, rest⟩ := t
      obtain ⟨room, rfl⟩ : ∃ r, room = r + 1 := ⟨room - 1, by omega⟩
      have hroom' : h < room := by omega
      rw [LevelTree.root, deleteRec, bind_ok (readNode_internal hs hown hrep hfits)]
      simp only [candidateChildren_eq (nodup_flat hown)]
      refine anyChild_false ?_
      intro id hid
      obtain ⟨i, hi, rfl⟩ := List.mem_map.mp hid
      simp only [LevelTree.deleteRec, List.findSome?_eq_none_iff] at hdel
      exact ih hroom' (child_owns hown (LevelTree.candidates_le hi)) (child_represents i hrep)
        (child_fits i hfits) (Option.map_eq_none_iff.mp (hdel i hi))

theorem deleteRec_some_sim (hmatch : LevelTree.LeafMatch cmpValues strict key M leafMatch) {room : ℕ}
    {t t' : PageTree h} (hroom : h < room) (hs : s.Ok) (hown : s.Owns t.pages)
    (hrep : Represents codec s.image t) (hfits : t.Fits (layout codec))
    (hdel : t.deleteRec cmpValues key leafMatch = some t') :
    ∃ s', deleteRec codec key leafMatch room t.root s = (.ok true, s') ∧ s.After s' 0 t.pages ∧
      Represents codec s'.image t' := by
  induction h generalizing room with
  | zero =>
      have hfits' := LevelTree.deleteRec_fits hmatch hfits hdel
      obtain ⟨id, cells⟩ := t
      obtain ⟨room, rfl⟩ : ∃ r, room = r + 1 := ⟨room - 1, by omega⟩
      obtain ⟨cells', hcells, rfl⟩ := Option.map_eq_some_iff.mp hdel
      obtain ⟨page, hpage⟩ := nodeImage_of_fits_leaf hfits'.2 hfits'.1
      rw [LevelTree.root, deleteRec, bind_ok (readNode_leaf hown hrep hfits)]
      simp only [hcells]
      rw [bind_ok (writeNode_ok (hown.inFile id List.mem_cons_self) hpage)]
      refine ⟨_, rfl, Store.after_write s id page, ?_⟩
      simpa [Represents] using hpage
  | succ h ih =>
      obtain ⟨id, first, rest⟩ := t
      obtain ⟨room, rfl⟩ : ∃ r, room = r + 1 := ⟨room - 1, by omega⟩
      have hroom' : h < room := by omega
      simp only [LevelTree.deleteRec] at hdel
      obtain ⟨before, i, behind, hsplit, hi, hbefore⟩ := List.findSome?_eq_some_iff.mp hdel
      obtain ⟨t, ht, rfl⟩ := Option.map_eq_some_iff.mp hi
      have hcand : ∀ j ∈ before ++ i :: behind, j ≤ rest.length := by
        intro j hj
        exact LevelTree.candidates_le (hsplit ▸ hj)
      have hile := hcand i (by simp)
      obtain ⟨s', hrun, hafter, hrep'⟩ := ih hroom' (child_owns hown hile)
        (child_represents i hrep) (child_fits i hfits) ht
      rw [LevelTree.root, deleteRec, bind_ok (readNode_internal hs hown hrep hfits)]
      simp only [candidateChildren_eq (nodup_flat hown), hsplit, List.map_append, List.map_cons]
      refine ⟨s', anyChild_true ?_ hrun, after_branch hafter,
        represents_branch hile hown hrep hafter hrep' (LevelTree.deleteRec_pages ht).2⟩
      intro id hid
      obtain ⟨j, hj, rfl⟩ := List.mem_map.mp hid
      exact deleteRec_none_sim hroom' hs (child_owns hown (hcand j (by simp [hj])))
        (child_represents j hrep) (child_fits j hfits)
        (Option.map_eq_none_iff.mp (hbefore j hj))

end Delete

end Docsql.BTree
