import Docsql.Heap.Insert

/-!
# Re-packing pages

`replace` and `remove_many` drop slots from a page and re-pack the rest, which
renumbers the slots behind a dropped one.  `relocate` is what the caller does
with the reported moves, and `relocate_page` says that the moves of a page are
right: the surviving documents are listed under their new locators.
-/

namespace Docsql.Heap

variable {codec : DecimalCodec} {st st' : HeapState} {rep front back : Layout} {pid i : ℕ}
variable {slots pre post : List SlotRep} {r : SlotRep} {bytes : List UInt8} {doc : Doc}
variable {dead gone : List ℕ} {moves : List (ℕ × ℕ)}

/-! ## The caller's side -/

/-- The new locator of a document, after the reported moves. -/
def applyMoves (moves : List (ℕ × ℕ)) (loc : ℕ) : ℕ := (moves.lookup loc).getD loc

/-- The documents a caller keeps track of, without those that are gone and with
the moves applied. -/
def relocate (gone : List ℕ) (moves : List (ℕ × ℕ)) (live : List (ℕ × Doc)) : List (ℕ × Doc) :=
  (live.filter fun e => e.1 ∉ gone).map fun e => (applyMoves moves e.1, e.2)

@[simp] theorem relocate_append (live live' : List (ℕ × Doc)) :
    relocate gone moves (live ++ live') =
      relocate gone moves live ++ relocate gone moves live' := by
  simp [relocate]

theorem relocate_perm {live live' : List (ℕ × Doc)} (h : live.Perm live') :
    (relocate gone moves live).Perm (relocate gone moves live') :=
  (h.filter _).map _

/-- Documents that are neither gone nor moved. -/
theorem relocate_eq_self {live : List (ℕ × Doc)} (hgone : ∀ e ∈ live, e.1 ∉ gone)
    (hmoves : ∀ e ∈ live, ∀ m ∈ moves, m.1 ≠ e.1) : relocate gone moves live = live := by
  have hfilter : live.filter (fun e => e.1 ∉ gone) = live := by
    rw [List.filter_eq_self]
    intro e he
    simpa using hgone e he
  rw [relocate, hfilter]
  conv_rhs => rw [← List.map_id live]
  refine List.map_congr_left ?_
  intro e he
  have hnone : moves.lookup e.1 = none := by
    rw [List.lookup_eq_none_iff]
    intro m hm
    exact bne_iff_ne.mpr (hmoves e he m hm).symm
  rw [applyMoves, hnone]
  rfl

theorem lookup_of_nodup {α : Type} {table : List (ℕ × α)} {key : ℕ} {val : α}
    (hnodup : (table.map Prod.fst).Nodup) (hmem : (key, val) ∈ table) :
    table.lookup key = some val := by
  obtain ⟨front, back, rfl⟩ := List.append_of_mem hmem
  rw [List.lookup_eq_some_iff]
  refine ⟨front, back, rfl, ?_⟩
  intro m hm
  rw [List.map_append, List.map_cons] at hnodup
  have hne := (List.nodup_append.mp hnodup).2.2 m.1 (List.mem_map_of_mem hm) key List.mem_cons_self
  exact bne_iff_ne.mpr hne.symm

/-! ## One page -/

/-- The slots that stay, with their old numbers. -/
def keptSlots (slots : List SlotRep) (dead : List ℕ) : List (SlotRep × ℕ) :=
  slots.zipIdx.filter fun q => q.2 ∉ dead

def kept (slots : List SlotRep) (dead : List ℕ) : List SlotRep :=
  (keptSlots slots dead).map Prod.fst

def pageMoves (slots : List SlotRep) (dead : List ℕ) : List (ℕ × ℕ) :=
  (keptSlots slots dead).zipIdx.map fun q => (q.1.2, q.2)

theorem zipIdx_contents (slots : List SlotRep) :
    (contents slots).zipIdx = slots.zipIdx.map fun q => (q.1.content, q.2) := by
  rw [contents, List.zipIdx_map]
  rfl

theorem survivors_contents (slots : List SlotRep) (dead : List ℕ) :
    survivors (contents slots) dead =
      (keptSlots slots dead).map fun q => (q.2, q.1.content) := by
  rw [survivors, zipIdx_contents, List.filter_map, List.map_map]
  rfl

/-- Re-packing a page with dead slots. -/
theorem repack_contents (h : Fits (contents slots)) (dead : List ℕ) :
    repack (marked (contents slots) dead) =
      (image (contents (kept slots dead)), pageMoves slots dead) := by
  rw [h.repack_marked, survivors_contents, List.map_map, List.zipIdx_map, List.map_map]
  congr 1
  rw [kept, contents, List.map_map]
  rfl

theorem kept_sublist (slots : List SlotRep) (dead : List ℕ) : (kept slots dead).Sublist slots := by
  have hsub := (List.filter_sublist (l := slots.zipIdx)
    (p := fun q : SlotRep × ℕ => q.2 ∉ dead)).map Prod.fst
  rwa [List.zipIdx_map_fst] at hsub

theorem keptSlots_congr {dead' : List ℕ} (h : ∀ i, i ∈ dead ↔ i ∈ dead') :
    keptSlots slots dead = keptSlots slots dead' := by
  simp only [keptSlots, h]

theorem mem_keptSlots {q : SlotRep × ℕ} (h : q ∈ keptSlots slots dead) :
    q.2 < slots.length ∧ slots[q.2]? = some q.1 ∧ q.2 ∉ dead := by
  rw [keptSlots, List.mem_filter, List.mem_zipIdx_iff_getElem?, decide_eq_true_eq] at h
  exact ⟨List.getElem?_eq_some_iff.mp h.1 |>.1, h.1, h.2⟩

theorem nodup_keptSlots (slots : List SlotRep) (dead : List ℕ) :
    ((keptSlots slots dead).map Prod.snd).Nodup := by
  have hsub := (List.filter_sublist (l := slots.zipIdx)
    (p := fun q : SlotRep × ℕ => q.2 ∉ dead)).map Prod.snd
  refine List.Nodup.sublist hsub ?_
  rw [List.zipIdx_map_snd]
  exact List.nodup_range'

theorem packLoc_inj {pid j : ℕ} (hi : i < 2 ^ 16) (hj : j < 2 ^ 16)
    (h : packLoc pid i = packLoc pid j) : i = j := by
  unfold packLoc at h
  omega

/-- The documents of a page after re-packing. -/
theorem relocate_page (hlen : slots.length < 2 ^ 16)
    (hgone : ∀ i < slots.length, packLoc pid i ∈ gone ↔ i ∈ dead)
    (hmoves : ∀ i < slots.length,
      moves.lookup (packLoc pid i) = (locMoves pid (pageMoves slots dead)).lookup (packLoc pid i)) :
    relocate gone moves (pageEntries pid slots) = pageEntries pid (kept slots dead) := by
  have hfilter : (pageEntries pid slots).filter (fun e => e.1 ∉ gone) =
      (keptSlots slots dead).map fun q => (packLoc pid q.2, q.1.doc) := by
    rw [pageEntries, List.filter_map, keptSlots]
    congr 1
    refine List.filter_congr ?_
    intro q hq
    have hq' := (List.getElem?_eq_some_iff.mp (List.mem_zipIdx_iff_getElem?.mp hq)).1
    simp [hgone q.2 hq']
  have hkeys : ((locMoves pid (pageMoves slots dead)).map Prod.fst).Nodup := by
    rw [locMoves, pageMoves, List.map_map, List.map_map]
    have hmap : (keptSlots slots dead).zipIdx.map
        ((Prod.fst ∘ fun p => (packLoc pid p.1, packLoc pid p.2)) ∘ fun q => (q.1.2, q.2)) =
        ((keptSlots slots dead).map Prod.snd).map (packLoc pid) := by
      conv_rhs => rw [← List.zipIdx_map_fst 0 (keptSlots slots dead)]
      rw [List.map_map, List.map_map]
      rfl
    rw [hmap]
    refine (nodup_keptSlots slots dead).map_on ?_
    intro i hi j hj heq
    obtain ⟨q, hq, rfl⟩ := List.mem_map.mp hi
    obtain ⟨q', hq', rfl⟩ := List.mem_map.mp hj
    have := (mem_keptSlots hq).1
    have := (mem_keptSlots hq').1
    exact packLoc_inj (by omega) (by omega) heq
  rw [relocate, hfilter, List.map_map, kept, pageEntries]
  apply List.ext_getElem
  · simp
  · intro k hk hk'
    have hk'' : k < (keptSlots slots dead).length := by simpa using hk
    have hq := List.getElem_mem hk''
    have hmem : (packLoc pid (keptSlots slots dead)[k].2, packLoc pid k) ∈
        locMoves pid (pageMoves slots dead) := by
      rw [locMoves, pageMoves, List.map_map, List.mem_map]
      exact ⟨((keptSlots slots dead)[k], k), List.mem_zipIdx_iff_getElem?.mpr (by simp), rfl⟩
    have hlookup := lookup_of_nodup hkeys hmem
    rw [← hmoves _ (mem_keptSlots hq).1] at hlookup
    simp [applyMoves, hlookup]

/-! ## Dropping the dead slots of a page -/

/-- The slots of a page whose dead slots have given their chains away. -/
def retireSlots (slots : List SlotRep) (dead : List ℕ) : List SlotRep :=
  slots.zipIdx.map fun q => if q.2 ∈ dead then q.1.retired else q.1

theorem retireSlots_nil (slots : List SlotRep) : retireSlots slots [] = slots := by
  simp [retireSlots]

@[simp] theorem length_retireSlots (slots : List SlotRep) (dead : List ℕ) :
    (retireSlots slots dead).length = slots.length := by
  simp [retireSlots]

theorem getElem?_retireSlots (slots : List SlotRep) (dead : List ℕ) (i : ℕ) :
    (retireSlots slots dead)[i]? =
      slots[i]?.map fun r => if i ∈ dead then r.retired else r := by
  rw [retireSlots, List.getElem?_map, List.getElem?_zipIdx, Option.map_map]
  simp [Function.comp_def]

@[simp] theorem contents_retireSlots (slots : List SlotRep) (dead : List ℕ) :
    contents (retireSlots slots dead) = contents slots := by
  apply List.ext_getElem?
  intro i
  rw [contents, contents, List.getElem?_map, getElem?_retireSlots, List.getElem?_map,
    Option.map_map]
  congr 1
  funext r
  simp only [Function.comp]
  split_ifs <;> rfl

/-- One more slot gives its chain away. -/
theorem retireSlots_cons (hi : i < slots.length) :
    retireSlots slots (i :: dead) =
      (retireSlots slots dead).take i ++
        (slots[i]).retired :: (retireSlots slots dead).drop (i + 1) := by
  have hset := List.set_eq_take_append_cons_drop (l := retireSlots slots dead) (i := i)
    (a := (slots[i]).retired)
  rw [if_pos (by simpa using hi)] at hset
  rw [← hset]
  apply List.ext_getElem?
  intro j
  rw [getElem?_retireSlots, List.getElem?_set, length_retireSlots, getElem?_retireSlots]
  by_cases hj : i = j
  · subst hj
    simp [hi]
  · simp [hj, Ne.symm hj]

theorem pageChains_retireSlots (slots : List SlotRep) (dead : List ℕ) :
    pageChains (retireSlots slots dead) = pageChains (kept slots dead) := by
  rw [pageChains, pageChains, kept, retireSlots, keptSlots, List.flatMap_map, List.flatMap_map]
  induction slots.zipIdx with
  | nil => rfl
  | cons q qs ih =>
      rw [List.flatMap_cons, ih, List.filter_cons]
      by_cases hq : q.2 ∈ dead
      · simp [hq, SlotRep.retired]
      · simp [hq]

theorem mem_retireSlots_of_kept (h : r ∈ kept slots dead) : r ∈ retireSlots slots dead := by
  obtain ⟨q, hq, rfl⟩ := List.mem_map.mp h
  rw [keptSlots, List.mem_filter, decide_eq_true_eq] at hq
  exact List.mem_map.mpr ⟨q, hq.1, by rw [if_neg hq.2]⟩

/-- A page goes with its last slot. -/
def keptPage (pid : ℕ) (slots : List SlotRep) : Layout := if slots = [] then [] else [(pid, slots)]

@[simp] theorem entries_keptPage (pid : ℕ) (slots : List SlotRep) :
    entries (keptPage pid slots) = pageEntries pid slots := by
  rw [keptPage]
  split_ifs with h
  · rw [h]
    rfl
  · simp [entries]

/-- The heap record after a page was re-packed. -/
def dropHeap (pid : ℕ) (slots : List SlotRep) (h : Heap) : Heap :=
  if slots = [] then
    { h with pages := h.pages.filter (· ≠ pid), dropped := h.dropped ++ [pid] }
  else h

theorem dropIfEmpty_eq (h : Fits (contents slots)) :
    dropIfEmpty pid (image (contents slots)) st =
      (.ok (), { st with heap := dropHeap pid slots st.heap }) := by
  rw [dropIfEmpty, h.countOf_image, dropHeap, contents, List.length_map]
  cases slots with
  | nil => rfl
  | cons r slots =>
      rw [if_neg (by simp), if_neg (by simp)]
      rfl

theorem repackPage_spec (h : Rep codec st (front ++ (pid, retireSlots slots dead) :: back)) :
    Rep codec { store := st.store.put pid (image (contents (kept slots dead))),
                heap := dropHeap pid (kept slots dead) st.heap }
      (front ++ (keptPage pid (kept slots dead) ++ back)) := by
  have hmem : (pid, retireSlots slots dead) ∈ front ++ (pid, retireSlots slots dead) :: back := by
    simp
  have hfits : Fits (contents slots) := by
    simpa using h.holds.fits _ hmem
  have hset := h.holds.setPage (kept slots dead) (st.heap.overflowFree ++ st.heap.dropped)
    (hfits.sublist ((kept_sublist slots dead).map SlotRep.content))
    (by rw [pageChains_retireSlots])
    fun r hr => h.holds.slots _ hmem r (mem_retireSlots_of_kept hr)
  have hpages := h.pages
  by_cases hempty : kept slots dead = []
  · have hnodup : (front.map Prod.fst ++ pid :: back.map Prod.fst).Nodup := by
      have := h.holds.owns.left.nodup
      simpa using this
    have hne : ∀ id ∈ front.map Prod.fst ++ back.map Prod.fst, id ≠ pid := by
      rintro id hid rfl
      exact (List.nodup_cons.mp ((List.perm_middle.nodup_iff).mp hnodup)).1 hid
    rw [hempty] at hset ⊢
    refine ⟨?_, ?_⟩
    · simp only [dropHeap, keptPage, if_true, hpages, List.nil_append, List.map_append,
        List.map_cons]
      rw [List.filter_append, List.filter_cons_of_neg (by simp), ← List.filter_append,
        List.filter_eq_self]
      intro id hid
      simpa using hne id hid
    · simp only [dropHeap, keptPage, if_true, List.nil_append]
      refine hset.dropPage.perm ?_
      rw [← List.append_assoc]
      exact List.perm_append_singleton _ _
  · refine ⟨?_, ?_⟩
    · simpa [dropHeap, keptPage, hempty] using hpages
    · simpa [dropHeap, keptPage, hempty] using hset

/-! ## Removing the slots of one page -/

/-- The slot that is about to be removed is still as it was. -/
theorem retireSlots_split (hi : i < slots.length) (hdead : i ∉ dead) :
    retireSlots slots dead = (retireSlots slots dead).take i ++
      slots[i] :: (retireSlots slots dead).drop (i + 1) := by
  have hget : (retireSlots slots dead)[i]? = some slots[i] := by
    rw [getElem?_retireSlots, List.getElem?_eq_getElem hi]
    simp [hdead]
  obtain ⟨hlt, hget⟩ := List.getElem?_eq_some_iff.mp hget
  rw [← hget]
  simp

theorem contents_split (hi : i < slots.length) :
    contents slots = contents (slots.take i) ++
      (slots[i]).content :: contents (slots.drop (i + 1)) := by
  have hsplit : slots = slots.take i ++ slots[i] :: slots.drop (i + 1) := by simp
  conv_lhs => rw [hsplit]
  rw [contents_append]
  rfl

/-- What the page has at the slot that is about to be removed. -/
theorem slot_retireSlots (h : Rep codec st (front ++ (pid, retireSlots slots dead) :: back))
    (hi : i < slots.length) (hdead : i ∉ dead) (hlive : (slots[i]).live) :
    ∃ off, slot (marked (contents slots) dead) i = (off, (slots[i]).content.length) ∧
      slice (marked (contents slots) dead) off (slots[i]).content.length = (slots[i]).content ∧
      0 < (slots[i]).content.length := by
  have hfits : Fits (contents slots) := by
    simpa using h.holds.fits (pid, retireSlots slots dead) (by simp)
  have hsplit := contents_split hi
  have hpre : (contents (slots.take i)).length = i := by
    simp [contents]
    omega
  have hslot := h.holds.slots (pid, retireSlots slots dead) (by simp) slots[i]
    (by rw [retireSlots_split hi hdead]; simp) hlive
  rw [hsplit] at hfits
  obtain ⟨off, hoff, hslice⟩ := hfits.doc_marked dead (by rwa [hpre])
  rw [← hsplit, hpre] at hoff
  rw [← hsplit] at hslice
  exact ⟨off, hoff, hslice, hslot.nonempty⟩

theorem recycleSlot_retire (h : Rep codec st (front ++ (pid, retireSlots slots dead) :: back))
    (hi : i < slots.length) (hdead : i ∉ dead) (hlive : (slots[i]).live) :
    ∃ st', recycleSlot pid (slots[i]).content st = (.ok (), st') ∧
      st'.store.available = st.store.available ∧
      Rep codec st' (front ++ (pid, retireSlots slots (i :: dead)) :: back) := by
  rw [retireSlots_split hi hdead] at h
  obtain ⟨st', hrun, -, havail, hrep⟩ := recycleSlot_spec h hlive
  rw [← retireSlots_cons hi] at hrep
  exact ⟨st', hrun, havail, hrep⟩

theorem killSlots_spec {rest : List ℕ} (hlive : ∀ r ∈ slots, r.live)
    (h : Rep codec st (front ++ (pid, retireSlots slots dead) :: back))
    (hnodup : (rest ++ dead).Nodup) :
    StateExcept.Ends (killSlots pid rest (marked (contents slots) dead)) st
      (∃ i ∈ rest, slots.length ≤ i) fun page st' =>
        page = marked (contents slots) (rest.reverse ++ dead) ∧
        st'.store.available = st.store.available ∧
        Rep codec st' (front ++ (pid, retireSlots slots (rest.reverse ++ dead)) :: back) := by
  induction rest generalizing dead st with
  | nil => exact .of_ok rfl ⟨rfl, rfl, h⟩
  | cons i rest ih =>
      have hfits : Fits (contents slots) := by
        simpa using h.holds.fits (pid, retireSlots slots dead) (by simp)
      have hdead : i ∉ dead := fun hmem =>
        (List.nodup_cons.mp hnodup).1 (List.mem_append_right _ hmem)
      have hcount : countOf (marked (contents slots) dead) = slots.length := by
        rw [hfits.countOf_marked]
        simp [contents]
      rw [killSlots]
      rcases Nat.lt_or_ge i slots.length with hi | hi
      · obtain ⟨off, hoff, hslice, hpos⟩ :=
          slot_retireSlots h hi hdead (hlive _ (List.getElem_mem hi))
        obtain ⟨st₁, hrun, havail, hrep⟩ :=
          recycleSlot_retire h hi hdead (hlive _ (List.getElem_mem hi))
        have hnext := ih hrep (List.perm_middle.nodup_iff.mpr hnodup)
        rw [hoff]
        simp only
        rw [if_neg hpos.ne', hslice, tombstone_marked (by simpa [contents] using hi)]
        refine .after_check (by omega) (.after_ok hrun (hnext.mono ?_ ?_))
        · rintro ⟨j, hj, hle⟩
          exact ⟨j, List.mem_cons_of_mem _ hj, hle⟩
        · rintro page st' ⟨hpage, havail', hrep'⟩
          refine ⟨?_, havail'.trans havail, ?_⟩
          · rw [hpage]
            simp
          · simpa using hrep'
      · exact .of_error (StateExcept.throwIf_bind (by omega) _) ⟨i, List.mem_cons_self, hi⟩

end Docsql.Heap
