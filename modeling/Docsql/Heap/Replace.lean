import Docsql.Heap.Remove

/-!
# Replacing a document

`replace` rewrites a page in place when the new document fits, and otherwise
drops the old slot and inserts the document again.
-/

namespace Docsql.Heap

variable {codec : DecimalCodec} {st : HeapState} {rep front back : Layout} {pid i loc : ℕ}
variable {slots : List SlotRep} {doc : Doc} {bytes : List UInt8}

/-! ## Locators are distinct -/

theorem entries_nodup (h : Rep codec st rep) : ((entries rep).map Prod.fst).Nodup := by
  have hkeys : (entries rep).map Prod.fst =
      rep.flatMap fun p => (pageEntries p.1 p.2).map Prod.fst := by
    rw [entries, List.map_flatMap]
  rw [hkeys, List.nodup_flatMap]
  refine ⟨?_, ?_⟩
  · intro p hp
    have hlen := h.slots_length hp
    have hmap : (pageEntries p.1 p.2).map Prod.fst =
        (List.range' 0 p.2.length).map (packLoc p.1) := by
      rw [pageEntries, List.map_map, ← List.zipIdx_map_snd 0 p.2, List.map_map]
      rfl
    rw [hmap]
    refine List.Nodup.map_on ?_ List.nodup_range'
    intro i hi j hj heq
    rw [List.mem_range'_1] at hi hj
    exact packLoc_inj (by omega) (by omega) heq
  · have hpages := List.pairwise_map.mp h.holds.owns.left.nodup
    refine hpages.imp ?_
    intro p p' hne loc hloc hloc'
    obtain ⟨e, he, hfst⟩ := List.mem_map.mp hloc
    obtain ⟨e', he', hfst'⟩ := List.mem_map.mp hloc'
    obtain ⟨i, hi, rfl⟩ := mem_pageEntries he
    obtain ⟨j, hj, rfl⟩ := mem_pageEntries he'
    exact packLoc_page_ne hne (hfst.trans hfst'.symm)

/-- The document in one slot among all. -/
theorem entries_split (pre post : List SlotRep) (r : SlotRep) :
    entries (front ++ (pid, pre ++ r :: post) :: back) =
      (entries front ++ pageEntries pid pre) ++ (packLoc pid pre.length, r.doc) ::
        ((post.zipIdx (pre.length + 1)).map (fun q => (packLoc pid q.2, q.1.doc)) ++
          entries back) := by
  simp [pageEntries, List.zipIdx_append]

theorem relocate_one {live live' : List (ℕ × Doc)} {old : Doc}
    (hnodup : ((live ++ (loc, old) :: live').map Prod.fst).Nodup) :
    relocate [loc] [] (live ++ (loc, old) :: live') = live ++ live' := by
  have hnot : loc ∉ (live ++ live').map Prod.fst := by
    rw [List.map_append, List.map_cons] at hnodup
    rw [List.map_append]
    exact (List.nodup_cons.mp (List.perm_middle.nodup_iff.mp hnodup)).1
  have hother : ∀ part : List (ℕ × Doc), (∀ e ∈ part, e ∈ live ++ live') →
      relocate [loc] [] part = part := by
    intro part hpart
    refine relocate_eq_self ?_ (by simp)
    intro e he hmem
    rw [List.mem_singleton] at hmem
    exact hnot (hmem ▸ List.mem_map_of_mem (hpart e he))
  have hone : relocate [loc] [] [(loc, old)] = [] := by simp [relocate]
  have hcons : (loc, old) :: live' = [(loc, old)] ++ live' := rfl
  rw [hcons, relocate_append, relocate_append, hone,
    hother live fun e he => List.mem_append_left _ he,
    hother live' fun e he => List.mem_append_right _ he]
  rfl

/-! ## The new content of the page -/

theorem replaceEntries_image (h : Fits (contents slots)) (i : ℕ) (bytes : List UInt8) :
    replaceEntries (image (contents slots)) i bytes =
      slots.zipIdx.map fun q =>
        if q.2 = i then (none, bytes) else (some q.2, q.1.content) := by
  rw [replaceEntries, ← marked_nil, h.liveDocs_marked, survivors_contents, List.map_map, keptSlots]
  simp

variable (newSlot : SlotRep)

theorem replaceEntries_contents (h : Fits (contents slots)) (hnew : newSlot.content = bytes) :
    (replaceEntries (image (contents slots)) i bytes).map Prod.snd =
      contents (slots.set i newSlot) := by
  rw [replaceEntries_image h, List.map_map]
  apply List.ext_getElem
  · simp [contents]
  · intro j hj hj'
    simp only [contents, List.getElem_map, List.getElem_zipIdx, List.getElem_set, Function.comp,
      Nat.zero_add]
    by_cases hij : i = j
    · simp [hij, hnew]
    · simp [hij, Ne.symm hij]

theorem replaceEntries_used (h : Fits (contents slots)) (hnew : newSlot.content = bytes) :
    headerFixed + (replaceEntries (image (contents slots)) i bytes).length * slotSize +
      ((replaceEntries (image (contents slots)) i bytes).map fun e => e.2.length).sum =
      used (contents (slots.set i newSlot)) := by
  rw [← replaceEntries_contents newSlot h hnew, used, total, List.map_map, List.length_map]
  rfl

theorem replaceEntries_findIdx (h : Fits (contents slots)) (hi : i < slots.length) :
    (replaceEntries (image (contents slots)) i bytes).findIdx (fun e => e.1.isNone) = i := by
  rw [replaceEntries_image h, List.findIdx_eq (by simpa using hi)]
  refine ⟨by simp, ?_⟩
  intro j hj
  simp [hj.ne]

theorem replaceEntries_moves (h : Fits (contents slots)) (i : ℕ) (bytes : List UInt8) :
    entryMoves (replaceEntries (image (contents slots)) i bytes) = [] := by
  rw [entryMoves, List.filterMap_eq_nil_iff]
  intro e he
  rw [List.mem_zipIdx_iff_getElem?, replaceEntries_image h, List.getElem?_map,
    List.getElem?_zipIdx, Option.map_map] at he
  obtain ⟨r, -, hr⟩ := Option.map_eq_some_iff.mp he
  simp only [Function.comp, Nat.zero_add] at hr
  rw [← hr]
  by_cases hidx : e.2 = i
  · simp [hidx]
  · simp [hidx]

/-! ## The two ways of replacing -/

theorem canon_of_unpack (h : unpackLoc loc = (pid, i)) : canon loc = packLoc pid i := by
  rw [canon, h]

theorem set_eq_split (hi : i < slots.length) (r : SlotRep) :
    slots.set i r = slots.take i ++ r :: slots.drop (i + 1) := by
  rw [List.set_eq_take_append_cons_drop, if_pos hi]

/-- The state after a document was replaced. -/
def Replaced (codec : DecimalCodec) (rep : Layout) (loc : ℕ) (doc : Doc) (out : ReplaceOutcome)
    (st : HeapState) : Prop :=
  ∃ rep', Rep codec st rep' ∧ AllLive rep' ∧
    (entries rep').Perm (relocate [canon loc] out.moved (entries rep) ++ [(out.placed, doc)])

theorem replace_inPlace {rep₀ : Layout} (hrep₀ : rep₀ = front ++ (pid, slots) :: back)
    (hnodup : ((entries rep₀).map Prod.fst).Nodup) (hlive : AllLive rep₀)
    (h : Rep codec st (front ++ (pid, retireSlots slots [i]) :: back))
    (hloc : unpackLoc loc = (pid, i)) (hi : i < slots.length)
    (hslot : SlotOk codec st.store ⟨doc, bytes, bytes, [], true⟩)
    (hfits : Fits (contents (slots.set i ⟨doc, bytes, bytes, [], true⟩))) :
    Replaced codec rep₀ loc doc ⟨packLoc pid i, []⟩
      { st with store :=
          st.store.put pid (image (contents (slots.set i ⟨doc, bytes, bytes, [], true⟩))) } := by
  subst hrep₀
  have hmem : (pid, retireSlots slots [i]) ∈
      front ++ (pid, retireSlots slots [i]) :: back := by simp
  have hretired : retireSlots slots [i] =
      slots.take i ++ (slots[i]).retired :: slots.drop (i + 1) := by
    rw [retireSlots_cons hi, retireSlots_nil]
  have hset := set_eq_split hi ⟨doc, bytes, bytes, [], true⟩
  have hold : slots = slots.take i ++ slots[i] :: slots.drop (i + 1) := by simp
  have hlen : (slots.take i).length = i := List.length_take_of_le hi.le
  have hput := h.holds.setPage (slots.set i ⟨doc, bytes, bytes, [], true⟩)
    (st.heap.overflowFree ++ st.heap.dropped) hfits
    (by
      rw [hset, hretired]
      simp [SlotRep.retired])
    (by
      intro r hr hr'
      rw [hset, List.mem_append, List.mem_cons] at hr
      rcases hr with hr | rfl | hr
      · exact h.holds.slots _ hmem r (by rw [hretired]; simp [hr]) hr'
      · exact hslot
      · exact h.holds.slots _ hmem r (by rw [hretired]; simp [hr]) hr')
  refine ⟨_, ⟨?_, hput⟩, ?_, ?_⟩
  · rw [h.pages]
    simp
  · intro p hp r hr
    rcases List.mem_append.mp hp with hp | hp
    · exact hlive p (List.mem_append_left _ hp) r hr
    · rcases List.mem_cons.mp hp with rfl | hp
      · rcases List.mem_or_eq_of_mem_set hr with hr | rfl
        · exact hlive (pid, slots) (by simp) r hr
        · rfl
      · exact hlive p (List.mem_append_right _ (List.mem_cons_of_mem _ hp)) r hr
  · rw [hset, entries_split, hlen, canon_of_unpack hloc]
    rw [hold, entries_split, hlen] at hnodup
    conv_rhs => rw [hold, entries_split, hlen, relocate_one hnodup]
    refine List.perm_middle.trans ?_
    exact (List.perm_append_singleton _ _).symm

/-- What is left on the pages when the old document has gone. -/
theorem entries_without (h : Rep codec st (front ++ (pid, slots) :: back))
    (hloc : unpackLoc loc = (pid, i)) :
    entries (front ++ (keptPage pid (kept slots [i]) ++ back)) =
      relocate [canon loc] (locMoves pid (pageMoves slots [i]))
        (entries (front ++ (pid, slots) :: back)) := by
  have hdead : ∀ j, j ∈ slotsOn pid [loc] ↔ j ∈ [i] := by
    intro j
    rw [mem_slotsOn]
    simp [hloc, eq_comm]
  have hkept : keptSlots slots (slotsOn pid [loc]) = keptSlots slots [i] := keptSlots_congr hdead
  have hpages : (pid :: (front.map Prod.fst ++ back.map Prod.fst)).Nodup := by
    refine List.perm_middle.nodup_iff.mp ?_
    simpa using h.holds.owns.left.nodup
  have hother := (List.nodup_cons.mp hpages).1
  rw [List.mem_append, not_or] at hother
  have hstep : removeRep [loc] []
      (front ++ (keptPage pid (kept slots (slotsOn pid [loc])) ++ back)) =
      removeRep [loc] [pid] (front ++ (pid, slots) :: back) :=
    removeRep_step (by simp) hother.1 hother.2
  have hnil : ∀ part : Layout, removeRep [loc] [] part = part := by
    intro part
    simp [removeRep]
  rw [hnil, kept, hkept, ← kept] at hstep
  rw [hstep, entries_removeRep h (by simp) (by simp [hloc]) fun _ hp => hp]
  simp [removeMoves, slotsOf_mid h, pageMoves, hkept]

/-- When `replace` must succeed. -/
def Storable (codec : DecimalCodec) (s : Store) (doc : Doc) : Prop :=
  ∃ bytes, encodeDoc codec doc = .ok bytes ∧ pagesNeeded bytes.length ≤ s.available

/-- `replace` behind the release of the old chain. -/
theorem replaceTail_spec {st₁ : HeapState} (h : Rep codec st (front ++ (pid, slots) :: back))
    (hlive : AllLive (front ++ (pid, slots) :: back)) (hloc : unpackLoc loc = (pid, i))
    (hi : i < slots.length) (hwf : (Value.object doc).WF)
    (hencoded : encodeDoc codec doc = .ok bytes)
    (hrep : Rep codec st₁ (front ++ (pid, retireSlots slots [i]) :: back)) :
    StateExcept.Ends (replaceTail pid i bytes (image (contents slots))) st₁
      (st₁.store.available < pagesNeeded bytes.length)
      (Replaced codec (front ++ (pid, slots) :: back) loc doc) := by
  have hmem : (pid, slots) ∈ front ++ (pid, slots) :: back := by simp
  have hfits : Fits (contents slots) := h.holds.fits _ hmem
  have hfile : st₁.store.InFile pid :=
    hrep.holds.page_inFile (p := (pid, retireSlots slots [i])) (by simp)
  have hpos := (encodeDoc_head hencoded).2
  rw [replaceTail, replaceEntries_used ⟨doc, bytes, bytes, [], true⟩ hfits rfl]
  split_ifs with hbig
  · have hpacked := repackPage_spec hrep
    have htomb : tombstone (image (contents slots)) i = marked (contents slots) [i] := by
      rw [← marked_nil, tombstone_marked (by simpa [contents] using hi)]
    have hkept := hfits.sublist ((kept_sublist slots [i]).map SlotRep.content)
    have hwrite : writePage pid (image (contents (kept slots [i])))
        { st₁ with heap := dropHeap pid (kept slots [i]) st₁.heap } =
        (.ok (), { store := st₁.store.put pid (image (contents (kept slots [i]))),
                   heap := dropHeap pid (kept slots [i]) st₁.heap }) := writePage_ok hfile
    rw [htomb, repack_contents hfits]
    refine .after_ok (dropIfEmpty_eq hkept) (.after_ok hwrite ?_)
    refine ((insertBytes_spec hpacked hwf hencoded).mono (fun hfail => hfail)
      fun _ _ hpost => hpost).bind ?_
    rintro placed st' ⟨rep', hadded⟩
    refine .of_ok rfl ⟨rep', hadded.rep, hadded.live hlive.keptPage, ?_⟩
    rw [hadded.entries, entries_without h hloc]
  · have hfits' : Fits (contents (slots.set i ⟨doc, bytes, bytes, [], true⟩)) := by
      refine ⟨by omega, ?_⟩
      intro b hb
      obtain ⟨r, hr, rfl⟩ := List.mem_map.mp hb
      rcases List.mem_or_eq_of_mem_set hr with hr | rfl
      · exact hfits.nonempty _ (List.mem_map_of_mem hr)
      · exact hpos
    rw [replaceEntries_contents ⟨doc, bytes, bytes, [], true⟩ hfits rfl,
      packDocs_zeroPage hfits', replaceEntries_findIdx hfits hi, replaceEntries_moves hfits]
    refine .after_ok (writePage_ok hfile) (.of_ok rfl ?_)
    exact replace_inPlace rfl (entries_nodup h) hlive hrep hloc hi ⟨hwf, hencoded, .plain bytes⟩
      hfits'

theorem replace_spec (h : Rep codec st rep) (hlive : AllLive rep) (hwf : (Value.object doc).WF) :
    StateExcept.Ends (replace codec loc doc) st
      (¬(Storable codec st.store doc ∧ canon loc ∈ (entries rep).map Prod.fst))
      (Replaced codec rep loc doc) := by
  rcases hloc : unpackLoc loc with ⟨pid, i⟩
  have hmemloc := mem_entries_fst h loc
  rw [hloc] at hmemloc
  cases hencoded : encodeDoc codec doc with
  | error e =>
      have herr : fromExcept (encodeDoc codec doc) st = (.error e, st) := by
        rw [hencoded]
        rfl
      have hrun : replace codec loc doc st = (.error e, st) := by
        rw [replace, StateExcept.bind_error herr]
      refine .of_error hrun ?_
      rintro ⟨⟨bytes, hok, -⟩, -⟩
      rw [hencoded] at hok
      cases hok
  | ok bytes =>
      have hstart : replace codec loc doc st = replaceSlot pid i bytes st := by
        rw [replace, hloc, fromExcept, StateExcept.fromExcept_bind hencoded]
      by_cases hpid : pid ∈ rep.map Prod.fst
      · obtain ⟨front, slots, back, rfl⟩ := split_at_page hpid
        have hmem : (pid, slots) ∈ front ++ (pid, slots) :: back := by simp
        have hfits : Fits (contents slots) := h.holds.fits _ hmem
        have hcount : countOf (image (contents slots)) = slots.length := by
          rw [hfits.countOf_image]
          simp [contents]
        have howned : checkPageOwned pid st = (.ok (), st) := h.checkPageOwned_eq hmem
        have hload : loadPage pid st = (.ok (image (contents slots)), st) := h.load hmem
        rcases Nat.lt_or_ge i slots.length with hi | hi
        · have hnone : Rep codec st (front ++ (pid, retireSlots slots []) :: back) := by
            rwa [retireSlots_nil]
          have hlive' := hlive _ hmem _ (List.getElem_mem hi)
          obtain ⟨st₁, hrun, havail, hrep⟩ := recycleSlot_retire hnone hi (by simp) hlive'
          obtain ⟨off, hoff, hslice, hpos⟩ := slot_retireSlots hnone hi (by simp) hlive'
          rw [marked_nil] at hoff hslice
          have hrest : replaceSlot pid i bytes st =
              replaceTail pid i bytes (image (contents slots)) st₁ := by
            rw [replaceSlot, StateExcept.bind_ok howned, StateExcept.bind_ok hload, fromExcept,
              StateExcept.fromExcept_bind (h.validate hmem),
              StateExcept.throwIf_bind_of_not (by omega), hoff]
            simp only
            rw [StateExcept.throwIf_bind_of_not (by omega), hslice, StateExcept.bind_ok hrun]
          have htail := replaceTail_spec h hlive hloc hi hwf hencoded hrep
          refine .of_eq _ _ (hstart.trans hrest) (htail.mono ?_ fun _ _ hpost => hpost)
          rintro hfail ⟨⟨bytes', hok, hroom⟩, -⟩
          rw [hencoded, Except.ok.injEq] at hok
          rw [← hok] at hroom
          omega
        · have herr : replaceSlot pid i bytes st =
              (.error (.page pid "slot out of range"), st) := by
            rw [replaceSlot, StateExcept.bind_ok howned, StateExcept.bind_ok hload, fromExcept,
              StateExcept.fromExcept_bind (h.validate hmem), StateExcept.throwIf_bind (by omega)]
          refine .of_error (hstart.trans herr) ?_
          rintro ⟨-, hin⟩
          have := (hmemloc.mp hin).2
          rw [slotsOf_mid h] at this
          exact Nat.not_lt.mpr hi this
      · have herr : checkPageOwned pid st =
            (.error (.page pid "page not owned by this heap"), st) := by
          rw [checkPageOwned, StateExcept.read_bind, h.pages, if_neg hpid]
          rfl
        have hrest : replaceSlot pid i bytes st =
            (.error (.page pid "page not owned by this heap"), st) := by
          rw [replaceSlot, StateExcept.bind_error herr]
        exact .of_error (hstart.trans hrest) fun hfail => hpid (hmemloc.mp hfail.2).1

end Docsql.Heap
