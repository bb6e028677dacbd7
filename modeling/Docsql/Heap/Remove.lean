import Docsql.Heap.Rewrite

/-!
# Removing documents

`remove_many` works page by page.  `removeMany_spec`: it removes exactly the
documents at the given locators and reports where the others went, or one of the
locators names no document.
-/

namespace Docsql.Heap

variable {codec : DecimalCodec} {st : HeapState} {rep front back : Layout} {pid i : ℕ}
variable {slots : List SlotRep} {dead locs ids : List ℕ} {moves : List (ℕ × ℕ)}

/-- The locator a document is addressed by. -/
def canon (loc : ℕ) : ℕ := packLoc (unpackLoc loc).1 (unpackLoc loc).2

def slotsOf (rep : Layout) (pid : ℕ) : List SlotRep := (rep.lookup pid).getD []

/-- The layout after the removal on the pages `ids`. -/
def removeRep (locs ids : List ℕ) (rep : Layout) : Layout :=
  rep.flatMap fun p => if p.1 ∈ ids then keptPage p.1 (kept p.2 (slotsOn p.1 locs)) else [p]

def removeMoves (locs ids : List ℕ) (rep : Layout) : List (ℕ × ℕ) :=
  ids.flatMap fun pid => locMoves pid (pageMoves (slotsOf rep pid) (slotsOn pid locs))

theorem slotsOf_mid (h : Rep codec st (front ++ (pid, slots) :: back)) :
    slotsOf (front ++ (pid, slots) :: back) pid = slots := by
  have hmem : (pid, slots) ∈ front ++ (pid, slots) :: back := by simp
  have hlookup := lookup_of_nodup h.holds.owns.left.nodup hmem
  rw [slotsOf, hlookup]
  rfl

theorem slotsOf_keptPage {id : ℕ} (hne : id ≠ pid) (keep : List SlotRep) :
    slotsOf (front ++ (keptPage pid keep ++ back)) id =
      slotsOf (front ++ (pid, slots) :: back) id := by
  have hkept : (keptPage pid keep).lookup id = none := by
    rw [keptPage]
    split_ifs
    · rfl
    · simp [hne]
  have hcons : ((pid, slots) :: back).lookup id = back.lookup id := by
    rw [List.lookup_cons, beq_eq_false_iff_ne.mpr hne]
  rw [slotsOf, slotsOf, List.lookup_append, List.lookup_append, List.lookup_append, hkept, hcons,
    Option.none_or]

theorem removeRep_step (hpid : pid ∉ ids) (hfront : pid ∉ front.map Prod.fst)
    (hback : pid ∉ back.map Prod.fst) :
    removeRep locs ids (front ++ (keptPage pid (kept slots (slotsOn pid locs)) ++ back)) =
      removeRep locs (pid :: ids) (front ++ (pid, slots) :: back) := by
  have hother : ∀ part : Layout, pid ∉ part.map Prod.fst →
      removeRep locs ids part = removeRep locs (pid :: ids) part := by
    intro part hpart
    refine List.flatMap_congr ?_
    intro p hp
    have hne : p.1 ≠ pid := by
      rintro rfl
      exact hpart (List.mem_map_of_mem hp)
    simp [hne]
  have hkept : removeRep locs ids (keptPage pid (kept slots (slotsOn pid locs))) =
      keptPage pid (kept slots (slotsOn pid locs)) := by
    rw [keptPage]
    split_ifs
    · rfl
    · simp [removeRep, hpid]
  have happ : ∀ (ids : List ℕ) (part part' : Layout), removeRep locs ids (part ++ part') =
      removeRep locs ids part ++ removeRep locs ids part' := by
    intro ids part part'
    simp [removeRep]
  have hcons : removeRep locs (pid :: ids) ((pid, slots) :: back) =
      keptPage pid (kept slots (slotsOn pid locs)) ++ removeRep locs (pid :: ids) back := by
    simp [removeRep]
  rw [happ, happ, happ, hkept, hother front hfront, hother back hback, hcons]

theorem AllLive.kept (h : ∀ r ∈ slots, r.live) : ∀ r ∈ kept slots dead, r.live :=
  fun r hr => h r ((kept_sublist slots dead).subset hr)

theorem AllLive.keptPage (h : AllLive (front ++ (pid, slots) :: back)) :
    AllLive (front ++ (keptPage pid (Heap.kept slots dead) ++ back)) := by
  intro p hp r hr
  rcases List.mem_append.mp hp with hp | hp
  · exact h p (List.mem_append_left _ hp) r hr
  · rcases List.mem_append.mp hp with hp | hp
    · rw [Heap.keptPage] at hp
      split_ifs at hp
      · cases hp
      · rw [List.mem_singleton.mp hp] at hr
        refine AllLive.kept (fun r hr => h (pid, slots) ?_ r hr) r hr
        simp
    · exact h p (List.mem_append_right _ (List.mem_cons_of_mem _ hp)) r hr

/-- Removing the slots of one page: what `remove_many` does before the next. -/
theorem removePage_spec {rest : List ℕ} (h : Rep codec st (front ++ (pid, slots) :: back))
    (hlive : ∀ r ∈ slots, r.live) (hnodup : rest.Nodup) :
    StateExcept.Ends (killSlots pid rest (image (contents slots))) st
      (∃ i ∈ rest, slots.length ≤ i) fun page st' =>
        repack page = (image (contents (kept slots rest)), pageMoves slots rest) ∧
        st'.store.InFile pid ∧ Fits (contents (kept slots rest)) ∧
        Rep codec { store := st'.store.put pid (image (contents (kept slots rest))),
                    heap := dropHeap pid (kept slots rest) st'.heap }
          (front ++ (keptPage pid (kept slots rest) ++ back)) := by
  have hmem : (pid, slots) ∈ front ++ (pid, slots) :: back := by simp
  have hfits := h.holds.fits _ hmem
  have hnone : Rep codec st (front ++ (pid, retireSlots slots []) :: back) := by
    rwa [retireSlots_nil]
  have hkill := killSlots_spec hlive hnone (by rwa [List.append_nil])
  rw [marked_nil] at hkill
  refine hkill.mono (fun hfail => hfail) ?_
  rintro page st' ⟨rfl, -, hrep⟩
  have hsame : keptSlots slots (rest.reverse ++ []) = keptSlots slots rest :=
    keptSlots_congr (by simp)
  have hpacked := repackPage_spec hrep
  have hkept : kept slots (rest.reverse ++ []) = kept slots rest := by rw [kept, hsame, ← kept]
  rw [hkept] at hpacked
  refine ⟨?_, hrep.holds.page_inFile (p := (pid, retireSlots slots (rest.reverse ++ []))) (by simp),
    hfits.sublist ((kept_sublist slots rest).map SlotRep.content), hpacked⟩
  rw [repack_contents hfits, hkept, pageMoves, hsame, ← pageMoves]

theorem split_at_page (h : pid ∈ rep.map Prod.fst) :
    ∃ (front : Layout) (slots : List SlotRep) (back : Layout),
      rep = front ++ (pid, slots) :: back := by
  obtain ⟨p, hmem, rfl⟩ := List.mem_map.mp h
  obtain ⟨front, back, hrep⟩ := List.append_of_mem hmem
  exact ⟨front, p.2, back, hrep⟩

theorem removePages_spec (h : Rep codec st rep) (hlive : AllLive rep) (hnodup : ids.Nodup)
    (hids : ∀ id ∈ ids, id ∈ rep.map Prod.fst) :
    StateExcept.Ends (removePages locs ids) st
      (∃ pid ∈ ids, ∃ i ∈ slotsOn pid locs, (slotsOf rep pid).length ≤ i) fun moves st' =>
        moves = removeMoves locs ids rep ∧ AllLive (removeRep locs ids rep) ∧
        Rep codec st' (removeRep locs ids rep) := by
  induction ids generalizing st rep with
  | nil =>
      have hsame : removeRep locs [] rep = rep := by simp [removeRep]
      rw [hsame]
      exact .of_ok rfl ⟨rfl, hlive, h⟩
  | cons pid ids ih =>
      obtain ⟨hpid, hids'⟩ := List.nodup_cons.mp hnodup
      obtain ⟨front, slots, back, rfl⟩ := split_at_page (hids pid List.mem_cons_self)
      have hmem : (pid, slots) ∈ front ++ (pid, slots) :: back := by simp
      have hpages : (pid :: (front.map Prod.fst ++ back.map Prod.fst)).Nodup := by
        refine List.perm_middle.nodup_iff.mp ?_
        simpa using h.holds.owns.left.nodup
      have hother := (List.nodup_cons.mp hpages).1
      rw [List.mem_append, not_or] at hother
      have hdead : (slotsOn pid locs).Nodup := Finset.sort_nodup _ _
      have hsize := slotsOf_mid h
      rw [removePages]
      refine .after_ok (h.load hmem) (.after_except (h.validate hmem) ?_)
      refine ((removePage_spec h (hlive _ hmem) hdead).mono ?_ fun _ _ hpost => hpost).bind ?_
      · rintro ⟨i, hi, hle⟩
        exact ⟨pid, List.mem_cons_self, i, hi, by rwa [hsize]⟩
      · rintro page st₁ ⟨hrepack, hfile, hfits, hrep⟩
        rw [hrepack]
        refine .after_ok (writePage_ok hfile) (.after_ok (dropIfEmpty_eq hfits) ?_)
        have hnext := ih hrep hlive.keptPage hids' ?_
        · refine (hnext.mono ?_ fun _ _ hpost => hpost).bind ?_
          · rintro ⟨id, hid, i, hi, hle⟩
            refine ⟨id, List.mem_cons_of_mem _ hid, i, hi, ?_⟩
            rwa [slotsOf_keptPage (by rintro rfl; exact hpid hid)] at hle
          · rintro more st' ⟨hmore, hlive', hrep'⟩
            rw [removeRep_step hpid hother.1 hother.2] at hlive' hrep'
            refine .of_ok rfl ⟨?_, hlive', hrep'⟩
            rw [hmore, removeMoves, removeMoves, List.flatMap_cons, hsize]
            congr 1
            refine List.flatMap_congr ?_
            intro id hid
            rw [slotsOf_keptPage (by rintro rfl; exact hpid hid)]
        · intro id hid
          have hold := hids id (List.mem_cons_of_mem _ hid)
          have hne : id ≠ pid := by
            rintro rfl
            exact hpid hid
          simp only [List.map_append, List.map_cons, List.mem_append, List.mem_cons] at hold ⊢
          tauto

theorem packLoc_eq_iff {pid' j : ℕ} (hi : i < 2 ^ 16) (hj : j < 2 ^ 16) :
    packLoc pid i = packLoc pid' j ↔ pid = pid' ∧ i = j := by
  unfold packLoc
  omega

theorem packLoc_page_ne {pid' j : ℕ} (h : pid ≠ pid') : packLoc pid i ≠ packLoc pid' j := by
  unfold packLoc
  omega

theorem mem_slotsOn : i ∈ slotsOn pid locs ↔ ∃ loc ∈ locs, unpackLoc loc = (pid, i) := by
  simp only [slotsOn, Finset.mem_sort, List.mem_toFinset, List.mem_map, List.mem_filter,
    decide_eq_true_eq, Prod.ext_iff]
  exact ⟨fun ⟨loc, ⟨hloc, hp⟩, hi⟩ => ⟨loc, hloc, hp, hi⟩,
    fun ⟨loc, hloc, hp, hi⟩ => ⟨loc, ⟨hloc, hp⟩, hi⟩⟩

/-- A locator among the removed ones names a slot to remove on its page. -/
theorem mem_canon (hi : i < 2 ^ 16) :
    packLoc pid i ∈ locs.map canon ↔ i ∈ slotsOn pid locs := by
  rw [mem_slotsOn, List.mem_map]
  refine exists_congr fun loc => and_congr_right fun _ => ?_
  have hslot : (unpackLoc loc).2 < 2 ^ 16 := Nat.mod_lt _ (by norm_num)
  rw [canon, packLoc_eq_iff hslot hi, Prod.ext_iff]

theorem mem_locMoves {m : ℕ × ℕ} (h : m ∈ locMoves pid moves) : ∃ i, m.1 = packLoc pid i := by
  obtain ⟨q, -, rfl⟩ := List.mem_map.mp h
  exact ⟨q.1, rfl⟩

/-- Moves of other pages do not matter. -/
theorem lookup_removeMoves (hnodup : ids.Nodup) (hpid : pid ∈ ids) (i : ℕ) :
    (removeMoves locs ids rep).lookup (packLoc pid i) =
      (locMoves pid (pageMoves (slotsOf rep pid) (slotsOn pid locs))).lookup (packLoc pid i) := by
  have hother : ∀ part : List ℕ, pid ∉ part →
      (removeMoves locs part rep).lookup (packLoc pid i) = none := by
    intro part hpart
    rw [List.lookup_eq_none_iff]
    intro m hm
    obtain ⟨id, hid, hm⟩ := List.mem_flatMap.mp hm
    obtain ⟨j, hj⟩ := mem_locMoves hm
    rw [hj]
    refine bne_iff_ne.mpr (packLoc_page_ne ?_)
    rintro rfl
    exact hpart hid
  obtain ⟨front, back, rfl⟩ := List.append_of_mem hpid
  have hnotin := (List.nodup_cons.mp (List.perm_middle.nodup_iff.mp hnodup)).1
  rw [List.mem_append, not_or] at hnotin
  have hsplit : removeMoves locs (front ++ pid :: back) rep = removeMoves locs front rep ++
      (locMoves pid (pageMoves (slotsOf rep pid) (slotsOn pid locs)) ++
        removeMoves locs back rep) := by
    simp [removeMoves]
  rw [hsplit, List.lookup_append, List.lookup_append, hother front hnotin.1, hother back hnotin.2,
    Option.none_or, Option.or_none]

theorem Rep.slots_length (h : Rep codec st rep) {p : ℕ × List SlotRep} (hp : p ∈ rep) :
    p.2.length < 2 ^ 16 := by
  have := (h.holds.fits p hp).length_lt
  rwa [contents, List.length_map] at this

theorem mem_pageEntries {e : ℕ × Doc} (h : e ∈ pageEntries pid slots) :
    ∃ i, ∃ hi : i < slots.length, e = (packLoc pid i, (slots[i]).doc) := by
  obtain ⟨q, hq, rfl⟩ := List.mem_map.mp h
  obtain ⟨hi, hget⟩ := List.getElem?_eq_some_iff.mp (List.mem_zipIdx_iff_getElem?.mp hq)
  exact ⟨q.2, hi, by rw [hget]⟩

/-- What the caller makes of the moves is what the pages hold. -/
theorem entries_removeRep (h : Rep codec st rep) (hnodup : ids.Nodup)
    (hids : ∀ loc ∈ locs, (unpackLoc loc).1 ∈ ids) {part : Layout} (hpart : ∀ p ∈ part, p ∈ rep) :
    entries (removeRep locs ids part) =
      relocate (locs.map canon) (removeMoves locs ids rep) (entries part) := by
  induction part with
  | nil => rfl
  | cons p part ih =>
      have hp := hpart p List.mem_cons_self
      have hlen := h.slots_length hp
      rw [removeRep, List.flatMap_cons, ← removeRep, entries_append, entries_cons, relocate_append,
        ih fun p' hp' => hpart p' (List.mem_cons_of_mem _ hp')]
      congr 1
      split_ifs with hpid
      · have hslots : slotsOf rep p.1 = p.2 := by
          rw [slotsOf, lookup_of_nodup h.holds.owns.left.nodup hp]
          rfl
        rw [entries_keptPage]
        refine (relocate_page hlen (fun i hi => mem_canon (by omega)) ?_).symm
        intro i hi
        rw [lookup_removeMoves hnodup hpid, hslots]
      · have hsame : entries [p] = pageEntries p.1 p.2 := by simp [entries]
        rw [hsame]
        refine (relocate_eq_self ?_ ?_).symm
        · intro e he hgone
          obtain ⟨i, hi, rfl⟩ := mem_pageEntries he
          obtain ⟨loc, hloc, hunpack⟩ := mem_slotsOn.mp ((mem_canon (by omega)).mp hgone)
          have := hids loc hloc
          rw [hunpack] at this
          exact hpid this
        · intro e he m hm heq
          obtain ⟨i, hi, rfl⟩ := mem_pageEntries he
          obtain ⟨id, hid, hm⟩ := List.mem_flatMap.mp hm
          obtain ⟨j, hj⟩ := mem_locMoves hm
          rw [hj] at heq
          refine packLoc_page_ne ?_ heq
          rintro rfl
          exact hpid hid

theorem checkPagesOwned_eq (hids : ∀ id ∈ ids, id ∈ st.heap.pages) :
    checkPagesOwned ids st = (.ok (), st) := by
  induction ids with
  | nil => rfl
  | cons id ids ih =>
      have hid : checkPageOwned id st = (.ok (), st) := by
        rw [checkPageOwned, StateExcept.read_bind, if_pos (hids id List.mem_cons_self)]
        rfl
      rw [checkPagesOwned, StateExcept.bind_ok hid]
      exact ih fun id' hid' => hids id' (List.mem_cons_of_mem _ hid')

theorem checkPagesOwned_error {id : ℕ} (hid : id ∈ ids) (hnot : id ∉ st.heap.pages) :
    ∃ e, checkPagesOwned ids st = (.error e, st) := by
  induction ids with
  | nil => cases hid
  | cons id' ids ih =>
      rw [checkPagesOwned]
      by_cases hid' : id' ∈ st.heap.pages
      · have hok : checkPageOwned id' st = (.ok (), st) := by
          rw [checkPageOwned, StateExcept.read_bind, if_pos hid']
          rfl
        rw [StateExcept.bind_ok hok]
        refine ih ((List.mem_cons.mp hid).resolve_left ?_)
        rintro rfl
        exact hnot hid'
      · have herr : checkPageOwned id' st =
            (.error (.page id' "page not owned by this heap"), st) := by
          rw [checkPageOwned, StateExcept.read_bind, if_neg hid']
          rfl
        exact ⟨_, StateExcept.bind_error herr⟩

theorem mem_entries_fst (h : Rep codec st rep) (loc : ℕ) :
    canon loc ∈ (entries rep).map Prod.fst ↔
      (unpackLoc loc).1 ∈ rep.map Prod.fst ∧
        (unpackLoc loc).2 < (slotsOf rep (unpackLoc loc).1).length := by
  have hslot : (unpackLoc loc).2 < 2 ^ 16 := Nat.mod_lt _ (by norm_num)
  constructor
  · intro hmem
    obtain ⟨e, he, heq⟩ := List.mem_map.mp hmem
    obtain ⟨p, hp, he⟩ := List.mem_flatMap.mp he
    obtain ⟨i, hi, rfl⟩ := mem_pageEntries he
    have hlen := h.slots_length hp
    obtain ⟨hpage, hidx⟩ := (packLoc_eq_iff (by omega) hslot).mp heq
    rw [← hpage, ← hidx, slotsOf, lookup_of_nodup h.holds.owns.left.nodup hp]
    exact ⟨List.mem_map_of_mem hp, hi⟩
  · rintro ⟨hpage, hidx⟩
    obtain ⟨p, hp, hpeq⟩ := List.mem_map.mp hpage
    rw [← hpeq, slotsOf, lookup_of_nodup h.holds.owns.left.nodup hp] at hidx
    simp only [Option.getD_some] at hidx
    refine List.mem_map.mpr ⟨(canon loc, (p.2[(unpackLoc loc).2]).doc), ?_, rfl⟩
    refine List.mem_flatMap.mpr ⟨p, hp, List.mem_map.mpr ⟨(p.2[(unpackLoc loc).2],
      (unpackLoc loc).2), List.mem_zipIdx_iff_getElem?.mpr (by simp), ?_⟩⟩
    rw [canon, hpeq]

/-- `remove_many` removes the documents at the given locators, or one of the
locators names none. -/
theorem removeMany_spec (h : Rep codec st rep) (hlive : AllLive rep) :
    StateExcept.Ends (removeMany locs) st
      (∃ loc ∈ locs, canon loc ∉ (entries rep).map Prod.fst) fun moves st' =>
        ∃ rep', Rep codec st' rep' ∧ AllLive rep' ∧
          entries rep' = relocate (locs.map canon) moves (entries rep) := by
  set ids := (locs.map fun loc => (unpackLoc loc).1).toFinset.sort (· ≤ ·) with hdef
  have hmem : ∀ id, id ∈ ids ↔ ∃ loc ∈ locs, (unpackLoc loc).1 = id := by
    intro id
    simp [hdef]
  have hnodup : ids.Nodup := Finset.sort_nodup _ _
  rw [removeMany]
  simp only [← hdef]
  by_cases hown : ∀ id ∈ ids, id ∈ rep.map Prod.fst
  · refine .after_ok (checkPagesOwned_eq (by rwa [h.pages])) ?_
    refine (removePages_spec h hlive hnodup hown).mono ?_ ?_
    · rintro ⟨pid, hpid, i, hi, hle⟩
      obtain ⟨loc, hloc, hunpack⟩ := mem_slotsOn.mp hi
      refine ⟨loc, hloc, fun hin => ?_⟩
      have := ((mem_entries_fst h loc).mp hin).2
      rw [hunpack] at this
      exact Nat.not_lt.mpr hle this
    · rintro moves st' ⟨rfl, hlive', hrep'⟩
      refine ⟨_, hrep', hlive', ?_⟩
      exact entries_removeRep h hnodup (fun loc hloc => (hmem _).mpr ⟨loc, hloc, rfl⟩)
        fun _ hp => hp
  · simp only [not_forall] at hown
    obtain ⟨id, hid, hnot⟩ := hown
    obtain ⟨e, herr⟩ := checkPagesOwned_error hid (by rwa [h.pages])
    obtain ⟨loc, hloc, rfl⟩ := (hmem id).mp hid
    refine .of_error (StateExcept.bind_error herr) ?_
    exact ⟨loc, hloc, fun hin => hnot ((mem_entries_fst h loc).mp hin).1⟩

end Docsql.Heap
