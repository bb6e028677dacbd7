import Docsql.Heap.Represent

/-!
# Storing and releasing

Chain pages come from the free list and the pager and go back to the free list.
`insertBytes_spec`: an insert appends one document to the layout, or fails for
want of page ids.
-/

namespace Docsql.Heap

variable {codec : DecimalCodec} {st : HeapState} {rep front back : Layout} {pid id : ℕ}
variable {slots pre post : List SlotRep} {r : SlotRep} {bytes content : List UInt8}
variable {spare ids : List ℕ} {parts : List (List UInt8)} {doc : Doc}

theorem writePage_ok {page : Page} (h : st.store.InFile id) :
    writePage id page st = (.ok (), { st with store := st.store.put id page }) := by
  rw [writePage, onStore, Store.writePage_ok h]
  rfl

@[simp] theorem updateHeap_bind {α : Type} (f : Heap → Heap) (k : Unit → HeapM α)
    (st : HeapState) : (updateHeap f >>= k) st = k () { st with heap := f st.heap } := rfl

/-! ## Releasing a chain -/

theorem releaseChain_spec {chain : List ℕ}
    (h : Holds codec st.store rep (chain ++ (st.heap.overflowFree ++ st.heap.dropped))) :
    ∃ st', releaseChain chain st = (.ok (), st') ∧ st'.heap.pages = st.heap.pages ∧
      st'.heap.dropped = st.heap.dropped ∧ st'.store.available = st.store.available ∧
      Holds codec st'.store rep (st'.heap.overflowFree ++ st'.heap.dropped) := by
  induction chain generalizing st with
  | nil => exact ⟨st, rfl, rfl, rfl, rfl, h⟩
  | cons id chain ih =>
      have hfile : st.store.InFile id := h.inFile (by simp)
      have hput := h.putSpare zeroPage (show id ∈ _ by simp)
      let st₁ : HeapState := { store := st.store.put id zeroPage, heap :=
        { st.heap with overflowFree := id :: st.heap.overflowFree } }
      have hnext : Holds codec st₁.store rep
          (chain ++ (st₁.heap.overflowFree ++ st₁.heap.dropped)) := by
        refine hput.perm ?_
        rw [List.cons_append]
        exact List.perm_middle
      obtain ⟨st', hrun, hpages, hdropped, havail, hholds⟩ := ih hnext
      refine ⟨st', ?_, hpages, hdropped, havail, hholds⟩
      rw [releaseChain, StateExcept.bind_ok (writePage_ok hfile)]
      exact hrun

theorem recycleChain_spec {chain : List ℕ} {parts : List (List UInt8)} {total : ℕ} (inlineLen : ℕ)
    (h : Holds codec st.store rep (chain ++ (st.heap.overflowFree ++ st.heap.dropped)))
    (hpages : st.heap.pages = rep.map Prod.fst) (hlinked : Linked st.store parts chain)
    (hmax : total ≤ maxDocSize) (hhops : chain.length ≤ total / minChunk + 3)
    (htotal : inlineLen + parts.flatten.length = total) :
    ∃ st', recycleChain (chain.headD 0) total inlineLen st = (.ok (), st') ∧
      st'.heap.pages = st.heap.pages ∧ st'.heap.dropped = st.heap.dropped ∧
      st'.store.available = st.store.available ∧
      Holds codec st'.store rep (st'.heap.overflowFree ++ st'.heap.dropped) := by
  have hids : ChainIds st.store chain := by
    refine ⟨h.ok.lt, fun id hid => h.inFile ?_, ?_⟩
    · exact List.mem_append_right _ (List.mem_append_right _ (List.mem_append_left _ hid))
    · have hnodup := (List.nodup_append.mp (List.nodup_append.mp h.owns.nodup).2.1).2.1
      exact (List.nodup_append.mp hnodup).1
  have hown : ∀ id ∈ chain, id ∉ st.heap.pages := by
    intro id hid hmem
    rw [hpages] at hmem
    refine (List.nodup_append.mp h.owns.nodup).2.2 _ hmem _ ?_ rfl
    exact List.mem_append_right _ (List.mem_append_left _ hid)
  have hwalk : walkChain total st.heap.pages (total / minChunk + 3) (chain.headD 0) [] 0 st =
      (.ok ([] ++ chain, 0 + parts.flatten.length), st) :=
    walkChain_linked hids hlinked hown (by simp) hhops (by omega)
  rw [List.nil_append, Nat.zero_add] at hwalk
  obtain ⟨st', hrun, hrest⟩ := releaseChain_spec h
  refine ⟨st', ?_, hrest⟩
  rw [recycleChain, StateExcept.throwIf_bind_of_not (by omega), StateExcept.read_bind,
    StateExcept.bind_ok hwalk]
  simp only
  rw [StateExcept.throwIf_bind_of_not (by omega), hrun]

/-- A live slot gives its chain to the free list. -/
theorem recycleSlot_spec (h : Rep codec st (front ++ (pid, pre ++ r :: post) :: back))
    (hlive : r.live) :
    ∃ st', recycleSlot pid r.content st = (.ok (), st') ∧
      st'.heap.dropped = st.heap.dropped ∧ st'.store.available = st.store.available ∧
      Rep codec st' (front ++ (pid, pre ++ r.retired :: post) :: back) := by
  have hmem : (pid, pre ++ r :: post) ∈ front ++ (pid, pre ++ r :: post) :: back := by simp
  have hslot := h.holds.slots _ hmem r (by simp) hlive
  have hids := h.holds.chainIds hmem (r := r) (by simp)
  have hretired := h.holds.retire
  have hpages : st.heap.pages =
      (front ++ (pid, pre ++ r.retired :: post) :: back).map Prod.fst := by
    rw [h.pages]
    simp
  have hhead := (encodeDoc_head hslot.encoded).1
  have hmax := (encodeDoc_eq_ok.mp hslot.encoded).2
  have hlt := maxDocSize_lt
  have hstored := hslot.stored
  rw [recycleSlot]
  generalize r.bytes = bytes at *
  generalize hcontent : r.content = content at *
  generalize hchain : r.chain = chain at *
  cases hstored with
  | plain =>
      refine ⟨st, ?_, rfl, rfl, hpages, hretired⟩
      rw [if_neg (by rw [hhead]; decide)]
      rfl
  | overflow inlineLen hrest hlinked hhops =>
      have hsum := take_append_parts hrest
      obtain ⟨st', hrun, hpages', hdropped, havail, hholds⟩ := recycleChain_spec
        (bytes.take inlineLen).length hretired hpages hlinked hmax hhops
        (by rw [← List.length_append, hsum])
      refine ⟨st', ?_, hdropped, havail, hpages'.trans hpages, hholds⟩
      rw [if_pos (by simp [overflowContent]), fromExcept, StateExcept.fromExcept_bind
        (overflowSlotHeader_content (by omega) hids.headD_lt pid)]
      simp only
      rw [← List.length_drop, overflowContent_drop, hrun]

/-! ## Taking chain pages -/

theorem allocatePage_spec (h : Holds codec st.store rep spare) :
    StateExcept.Ends allocatePage st (st.store.available < 1) fun id st' =>
      st'.heap = st.heap ∧ st.store.available ≤ st'.store.available + 1 ∧
      Holds codec st'.store rep (id :: spare) ∧
      ∀ id' ≠ id, st'.store.image id' = st.store.image id' := by
  rcases Nat.eq_zero_or_pos st.store.available with hzero | hpos
  · have hrun : allocatePage st =
        (.error (.pager (.pageIdExhausted st.store.numPages)), st) := by
      rw [allocatePage, onStore, Store.allocatePage_exhausted h.ok hzero]
    exact .of_error hrun (by omega)
  · obtain ⟨id, s', halloc, hholds, hframe, havail⟩ := h.allocate hpos
    have hrun : allocatePage st = (.ok id, { st with store := s' }) := by
      rw [allocatePage, onStore, halloc]
    exact .of_ok hrun ⟨rfl, havail.ge, hholds, hframe⟩

theorem takeChainPages_spec {taken : List ℕ} (n : ℕ)
    (h : Holds codec st.store rep (taken ++ (st.heap.overflowFree ++ st.heap.dropped))) :
    StateExcept.Ends (takeChainPages (rep.map Prod.fst) n) st (st.store.available < n)
      fun ids st' => ids.length = n ∧ st'.heap.pages = st.heap.pages ∧
        st.store.available ≤ st'.store.available + n ∧
        Holds codec st'.store rep
          ((ids ++ taken) ++ (st'.heap.overflowFree ++ st'.heap.dropped)) := by
  induction n generalizing st taken with
  | zero => exact .of_ok rfl ⟨rfl, rfl, le_rfl, h⟩
  | succ n ih =>
      -- one more page in hand, from either source
      have hrest : ∀ id (st₁ : HeapState), st₁.heap.pages = st.heap.pages →
          st.store.available ≤ st₁.store.available + 1 →
          Holds codec st₁.store rep
            ((id :: taken) ++ (st₁.heap.overflowFree ++ st₁.heap.dropped)) →
          StateExcept.Ends (do
            let ids ← takeChainPages (rep.map Prod.fst) n
            return id :: ids) st₁ (st.store.available < n + 1)
            fun ids st' => ids.length = n + 1 ∧ st'.heap.pages = st.heap.pages ∧
              st.store.available ≤ st'.store.available + (n + 1) ∧
              Holds codec st'.store rep
                ((ids ++ taken) ++ (st'.heap.overflowFree ++ st'.heap.dropped)) := by
        intro id st₁ hpages havail hholds
        refine ((ih hholds).mono (fun _ => by omega) fun _ _ hpost => hpost).bind ?_
        rintro ids st' ⟨hlen, hpages', havail', hholds'⟩
        refine .of_ok rfl ⟨by simp [hlen], hpages'.trans hpages, by omega, ?_⟩
        refine hholds'.perm (List.Perm.append_right _ ?_)
        exact List.perm_middle.symm
      rw [takeChainPages]
      refine .after_read ?_
      cases hfree : st.heap.overflowFree with
      | cons id free =>
          have hown : id ∉ rep.map Prod.fst := by
            intro hmem
            refine (List.nodup_append.mp h.owns.nodup).2.2 _ hmem id ?_ rfl
            simp [hfree]
          refine .after_ok rfl (.after_check hown (hrest id _ rfl (Nat.le_succ _) ?_))
          refine h.perm ?_
          rw [hfree, List.cons_append, List.cons_append]
          exact List.perm_middle.symm
      | nil =>
          simp only
          refine ((allocatePage_spec h).mono (fun _ => by omega) fun _ _ hpost => hpost).bind ?_
          rintro id st₁ ⟨hheap, havail, hholds, -⟩
          refine hrest id st₁ (by rw [hheap]) havail ?_
          rwa [hheap]

theorem writeChain_spec (h : Holds codec st.store rep (ids ++ spare))
    (hlen : parts.length = ids.length) (hparts : ∀ part ∈ parts, part.length ≤ minChunk) :
    ∃ s', writeChain parts ids st = (.ok (), { st with store := s' }) ∧
      Linked s' parts ids ∧ s'.available = st.store.available ∧
      (∀ id ∉ ids, s'.image id = st.store.image id) ∧ Holds codec s' rep (ids ++ spare) := by
  induction parts generalizing ids spare st with
  | nil =>
      rw [List.length_nil, eq_comm, List.length_eq_zero_iff] at hlen
      subst hlen
      exact ⟨st.store, rfl, trivial, rfl, fun _ _ => rfl, h⟩
  | cons part parts ih =>
      cases ids with
      | nil => simp at hlen
      | cons id ids =>
          have hfile : st.store.InFile id := h.inFile (by simp)
          have hput := h.putSpare (chainPage (ids.headD 0) part) (show id ∈ _ by simp)
          have hnodup : id ∉ ids := by
            have := (List.nodup_append.mp (List.nodup_append.mp h.owns.nodup).2.1).2.1
            exact (List.nodup_cons.mp (List.nodup_append.mp this).1).1
          let st₁ : HeapState :=
            { st with store := st.store.put id (chainPage (ids.headD 0) part) }
          have hput₁ : Holds codec st₁.store rep (ids ++ id :: spare) :=
            hput.perm List.perm_middle
          obtain ⟨s', hrun, hlinked, havail, hframe, hholds⟩ := ih hput₁ (by simpa using hlen)
            fun p hp => hparts p (List.mem_cons_of_mem _ hp)
          refine ⟨s', ?_, ⟨?_, hparts part List.mem_cons_self, hlinked⟩, havail, ?_, ?_⟩
          · rw [writeChain, StateExcept.bind_ok (writePage_ok hfile)]
            exact hrun
          · rw [hframe id hnodup]
            exact Store.put_image_self
          · intro id' hid'
            rw [List.mem_cons, not_or] at hid'
            rw [hframe id' hid'.2]
            exact Store.put_image_of_ne hid'.1
          · exact hholds.perm List.perm_middle.symm

theorem chunks_spec {size : ℕ} (hsize : 0 < size) (bytes : List UInt8) (fuel : ℕ)
    (hfuel : bytes.length ≤ fuel) :
    (chunks size fuel bytes).flatten = bytes ∧
      (∀ part ∈ chunks size fuel bytes, part.length ≤ size) ∧
      (chunks size fuel bytes).length * size < bytes.length + size := by
  induction fuel generalizing bytes with
  | zero =>
      have : bytes = [] := List.length_eq_zero_iff.mp (by omega)
      subst this
      exact ⟨rfl, by simp [chunks], by simpa [chunks] using hsize⟩
  | succ fuel ih =>
      cases hempty : bytes.isEmpty with
      | true =>
          rw [List.isEmpty_iff] at hempty
          subst hempty
          exact ⟨rfl, by simp [chunks], by simpa [chunks] using hsize⟩
      | false =>
          have hpos : 0 < bytes.length := by
            rw [List.length_pos_iff]
            simpa using hempty
          obtain ⟨hflat, hparts, hcount⟩ := ih (bytes.drop size)
            (by rw [List.length_drop]; omega)
          rw [List.length_drop] at hcount
          rw [chunks, hempty]
          simp only [Bool.false_eq_true, if_false, List.flatten_cons, hflat, List.take_append_drop,
            List.mem_cons, List.length_cons, true_and]
          refine ⟨?_, ?_⟩
          · rintro part (rfl | hpart)
            · exact List.length_take_le _ _
            · exact hparts part hpart
          · rw [Nat.succ_mul]
            rcases Nat.lt_or_ge bytes.length size with hlt | hge
            · have : (chunks size fuel (bytes.drop size)).length * size < 1 * size := by omega
              have := Nat.lt_of_mul_lt_mul_right this
              have hzero : (chunks size fuel (bytes.drop size)).length = 0 := by omega
              rw [hzero]
              omega
            · omega

/-! ## Inserting a document -/

/-- The state after a document was stored at `loc`, behind all others. -/
structure Added (codec : DecimalCodec) (rep : Layout) (doc : Doc) (loc : ℕ) (st : HeapState)
    (rep' : Layout) : Prop where
  live : AllLive rep → AllLive rep'
  entries : entries rep' = entries rep ++ [(loc, doc)]
  rep : Rep codec st rep'

section Place

variable (hpages : st.heap.pages = rep.map Prod.fst)
variable (h : Holds codec st.store rep (r.chain ++ (st.heap.overflowFree ++ st.heap.dropped)))
variable (hslot : SlotOk codec st.store r) (hlive : r.live)
include hpages h hslot hlive

theorem insertFresh_spec (hfits : Fits [r.content]) :
    StateExcept.Ends (insertFresh r.content) st (st.store.available < 1) fun loc st' =>
      ∃ rep', Added codec rep r.doc loc st' rep' := by
  refine (allocatePage_spec h).bind ?_
  rintro id st₁ ⟨hheap, -, hholds, hframe⟩
  have hfile : st₁.store.InFile id := hholds.inFile (by simp)
  have hne : ∀ id' ∈ r.chain, id' ≠ id := by
    rintro id' hid' rfl
    have hnodup := (List.nodup_append.mp (List.nodup_append.mp hholds.owns.nodup).2.1).2.1
    exact (List.nodup_cons.mp hnodup).1 (List.mem_append_left _ hid')
  have hslot₁ : SlotOk codec st₁.store r := hslot.congr fun id' hid' => hframe id' (hne id' hid')
  have hadd := hholds.addPage id [r] hfits
    (show (id :: (pageChains [r] ++ (st.heap.overflowFree ++ st.heap.dropped))).Perm _ by
      simp [pageChains])
    (by
      intro r' hr' _
      rw [List.mem_singleton.mp hr']
      exact hslot₁)
  rw [putDoc_zeroPage hfits]
  refine .of_ok (StateExcept.bind_ok (writePage_ok hfile)) ?_
  refine ⟨rep ++ [(id, [r])], ?_, ?_, ?_, ?_⟩
  · intro hall p hp r' hr'
    rcases List.mem_append.mp hp with hp | hp
    · exact hall p hp r' hr'
    · rw [List.mem_singleton.mp hp, List.mem_singleton] at hr'
      rw [hr']
      exact hlive
  · simp [pageEntries, entries]
  · simp [hheap, hpages]
  · simpa [hheap, contents] using hadd

theorem insertLast_spec {last : ℕ} (hrep : rep = front ++ [(last, slots)])
    (hfits : Fits (contents (slots ++ [r]))) :
    ∃ loc st' rep', insertLast last r.content st = (.ok loc, st') ∧
      Added codec rep r.doc loc st' rep' := by
  subst hrep
  have hmem : (last, slots) ∈ front ++ [(last, slots)] := by simp
  have hfile := h.page_inFile hmem
  have himage := h.images _ hmem
  have hold := h.fits _ hmem
  have hput : putDoc (image (contents slots))
      (contentStart (image (contents slots)) - r.content.length) r.content =
      image (contents (slots ++ [r])) := by
    rw [hold.contentStart_image]
    have happ : contents (slots ++ [r]) = contents slots ++ [r.content] := by simp [contents]
    rw [happ] at hfits ⊢
    exact putDoc_image hfits
  have hset := h.setPage (slots ++ [r]) (st.heap.overflowFree ++ st.heap.dropped) hfits
    (by simp [pageChains])
    (by
      intro r' hr' hlive'
      rcases List.mem_append.mp hr' with hr' | hr'
      · exact h.slots _ hmem r' hr' hlive'
      · rw [List.mem_singleton.mp hr']
        exact hslot)
  refine ⟨packLoc last slots.length,
    { st with store := st.store.put last (image (contents (slots ++ [r]))) },
    front ++ [(last, slots ++ [r])], ?_, ?_, ?_, ?_, hset⟩
  · rw [insertLast, StateExcept.bind_ok (loadPage_ok hfile), himage, fromExcept,
      StateExcept.fromExcept_bind (hold.validatePage_image last), hput,
      StateExcept.bind_ok (writePage_ok hfile), hfits.countOf_image]
    simp [contents]
  · intro hall p hp r' hr'
    rcases List.mem_append.mp hp with hp | hp
    · exact hall p (List.mem_append_left _ hp) r' hr'
    · rw [List.mem_singleton.mp hp] at hr'
      rcases List.mem_append.mp hr' with hr' | hr'
      · exact hall _ hmem r' hr'
      · rw [List.mem_singleton.mp hr']
        exact hlive
  · simp [pageEntries, entries, List.zipIdx_append]
  · simp [hpages]

end Place

/-- The part of `insert_overflow` behind the choice of the page. -/
def storeOverflow (bytes : List UInt8) (ownPages : List ℕ) (inlineLen : ℕ)
    (place : List UInt8 → HeapM ℕ) : HeapM ℕ := do
  let parts := chunks minChunk bytes.length (bytes.drop inlineLen)
  let chain ← takeChainPages ownPages parts.length
  writeChain parts chain
  place (overflowContent bytes (chain.headD 0) inlineLen)

theorem insertOverflow_eq (bytes : List UInt8) {lastFree : Option ℕ}
    (h : lastFreeSpace st.heap.pages st = (.ok lastFree, st)) :
    insertOverflow bytes st =
      if lastFree.any fun free => slotSize + overflowSlotHeaderLen ≤ free then
        storeOverflow bytes st.heap.pages
          (min (lastFree.getD 0 - (slotSize + overflowSlotHeaderLen)) bytes.length)
          (insertLast (st.heap.pages.getLastD 0)) st
      else
        storeOverflow bytes st.heap.pages
          (min (pageSize - headerFixed - slotSize - overflowSlotHeaderLen) bytes.length)
          insertFresh st := by
  rw [insertOverflow, StateExcept.read_bind]
  simp only
  rw [StateExcept.bind_ok h]
  simp only [storeOverflow, overflowContent]
  split_ifs <;> rfl

/-- Page ids that are enough to store a document of this length. -/
def pagesNeeded (length : ℕ) : ℕ := length / minChunk + 2

theorem pagesNeeded_pos (length : ℕ) : 1 ≤ pagesNeeded length := Nat.le_add_left 1 _

theorem storeOverflow_spec {inlineLen : ℕ} {place : List UInt8 → HeapM ℕ}
    (h : Rep codec st rep) (hwf : (Value.object doc).WF)
    (hencoded : encodeDoc codec doc = .ok bytes)
    (hplace : ∀ (r : SlotRep) (st₁ : HeapState),
      r.doc = doc → r.live → r.content.length = 9 + min inlineLen bytes.length →
      st₁.heap.pages = rep.map Prod.fst →
      Holds codec st₁.store rep (r.chain ++ (st₁.heap.overflowFree ++ st₁.heap.dropped)) →
      SlotOk codec st₁.store r →
      StateExcept.Ends (place r.content) st₁ (st₁.store.available < 1)
        fun loc st' => ∃ rep', Added codec rep doc loc st' rep') :
    StateExcept.Ends (storeOverflow bytes st.heap.pages inlineLen place) st
      (st.store.available < pagesNeeded bytes.length)
      fun loc st' => ∃ rep', Added codec rep doc loc st' rep' := by
  obtain ⟨hflat, hparts, hcount⟩ := chunks_spec (show 0 < minChunk by decide)
    (bytes.drop inlineLen) bytes.length (by rw [List.length_drop]; omega)
  rw [storeOverflow]
  generalize chunks minChunk bytes.length (bytes.drop inlineLen) = parts at *
  have hneed : parts.length ≤ bytes.length / minChunk + 1 := by
    rw [List.length_drop] at hcount
    rw [← Nat.add_div_right _ (by decide), Nat.le_div_iff_mul_le (by decide)]
    omega
  have htake := takeChainPages_spec parts.length
    (show Holds codec st.store rep ([] ++ _) from h.holds)
  rw [← h.pages] at htake
  refine (htake.mono (fun _ => by unfold pagesNeeded; omega) fun _ _ hpost => hpost).bind ?_
  rintro chain st₁ ⟨hlen, hpages₁, havail₁, hholds₁⟩
  rw [List.append_nil] at hholds₁
  obtain ⟨s₂, hwrite, hlinked, havail₂, -, hholds₂⟩ := writeChain_spec hholds₁ hlen.symm hparts
  have hslot : SlotOk codec s₂
      ⟨doc, bytes, overflowContent bytes (chain.headD 0) inlineLen, chain, true⟩ :=
    ⟨hwf, hencoded, .overflow inlineLen hflat.symm hlinked (by simp only; omega)⟩
  have hrun := hplace _ { st₁ with store := s₂ } rfl rfl
    (by simp [overflowContent]; omega) (hpages₁.trans h.pages) hholds₂ hslot
  refine .after_ok hwrite (hrun.mono (fun hfail => ?_) fun _ _ hpost => hpost)
  simp only [havail₂] at hfail
  unfold pagesNeeded
  omega

theorem lastFreeSpace_spec {last : ℕ} (h : Rep codec st (front ++ [(last, slots)])) :
    lastFreeSpace st.heap.pages st = (.ok (some (pageSize - used (contents slots))), st) := by
  have hmem : (last, slots) ∈ front ++ [(last, slots)] := by simp
  have hlast : st.heap.pages.getLast? = some last := by
    rw [h.pages]
    simp
  rw [lastFreeSpace, hlast]
  simp only
  rw [StateExcept.bind_ok (h.load hmem), fromExcept, StateExcept.fromExcept_bind (h.validate hmem),
    (h.holds.fits _ hmem).freeSpace_image]
  rfl

theorem getLastD_pages {last : ℕ} (h : Rep codec st (front ++ [(last, slots)])) :
    st.heap.pages.getLastD 0 = last := by
  rw [h.pages]
  simp

theorem Fits.snoc {r : SlotRep} (h : Fits (contents slots)) (hpos : 0 < r.content.length)
    (hroom : r.content.length + 4 ≤ pageSize - used (contents slots)) :
    Fits (contents (slots ++ [r])) := by
  refine ⟨?_, ?_⟩
  · have hused := h.used_le
    have hsum := used_append (contents slots) [r.content]
    have hone : used [r.content] = 6 + r.content.length := by simp [used]
    rw [contents_append]
    show used (contents slots ++ [r.content]) ≤ pageSize
    omega
  · intro b hb
    rw [contents_append, List.mem_append] at hb
    rcases hb with hb | hb
    · exact h.nonempty b hb
    · simp [contents] at hb
      rw [hb]
      exact hpos

theorem Fits.single {b : List UInt8} (hpos : 0 < b.length) (hroom : b.length + 6 ≤ pageSize) :
    Fits [b] := by
  refine ⟨?_, by simpa using hpos⟩
  simp [used]
  omega

theorem insertOverflow_spec (h : Rep codec st rep) (hwf : (Value.object doc).WF)
    (hencoded : encodeDoc codec doc = .ok bytes) :
    StateExcept.Ends (insertOverflow bytes) st (st.store.available < pagesNeeded bytes.length)
      fun loc st' => ∃ rep', Added codec rep doc loc st' rep' := by
  have hfresh : StateExcept.Ends (storeOverflow bytes st.heap.pages
      (min (pageSize - headerFixed - slotSize - overflowSlotHeaderLen) bytes.length)
      insertFresh) st (st.store.available < pagesNeeded bytes.length)
      fun loc st' => ∃ rep', Added codec rep doc loc st' rep' := by
    refine storeOverflow_spec h hwf hencoded ?_
    rintro r st₁ rfl hlive hlen hpages hholds hslot
    refine insertFresh_spec hpages hholds hslot hlive (Fits.single hslot.nonempty ?_)
    unfold pageSize headerFixed slotSize overflowSlotHeaderLen at *
    omega
  rcases List.eq_nil_or_concat rep with rfl | ⟨front, ⟨last, slots⟩, rfl⟩
  · have hnone : lastFreeSpace st.heap.pages st = (.ok none, st) := by
      rw [h.pages]
      rfl
    exact .of_eq _ _ (insertOverflow_eq bytes hnone) hfresh
  · rw [List.concat_eq_append] at *
    have hmem : (last, slots) ∈ front ++ [(last, slots)] := by simp
    have hrun := insertOverflow_eq bytes (lastFreeSpace_spec h)
    simp only [Option.any_some, Option.getD_some, decide_eq_true_eq] at hrun
    split_ifs at hrun with hroom
    · refine .of_eq _ _ hrun (storeOverflow_spec h hwf hencoded ?_)
      rintro r st₁ rfl hlive hlen hpages hholds hslot
      rw [getLastD_pages h]
      obtain ⟨loc, st', rep', hrun, hadded⟩ := insertLast_spec hpages hholds hslot hlive rfl
        ((h.holds.fits _ hmem).snoc hslot.nonempty (by
          simp only at hroom ⊢
          unfold slotSize overflowSlotHeaderLen at *
          omega))
      exact .of_ok hrun ⟨rep', hadded⟩
    · exact .of_eq _ _ hrun hfresh

theorem insertBytes_spec (h : Rep codec st rep) (hwf : (Value.object doc).WF)
    (hencoded : encodeDoc codec doc = .ok bytes) :
    StateExcept.Ends (insertBytes bytes) st (st.store.available < pagesNeeded bytes.length)
      fun loc st' => ∃ rep', Added codec rep doc loc st' rep' := by
  have hpos := (encodeDoc_head hencoded).2
  have hslot : SlotOk codec st.store ⟨doc, bytes, bytes, [], true⟩ := ⟨hwf, hencoded, .plain bytes⟩
  rw [insertBytes]
  split_ifs with hbig
  · exact insertOverflow_spec h hwf hencoded
  · have hfresh : StateExcept.Ends (insertFresh bytes) st
        (st.store.available < pagesNeeded bytes.length)
        fun loc st' => ∃ rep', Added codec rep doc loc st' rep' := by
      have hfits : Fits [bytes] := Fits.single hpos (by
        unfold pageSize headerFixed slotSize at *
        omega)
      exact (insertFresh_spec h.pages h.holds hslot rfl hfits).mono
        (fun hfail => hfail.trans_le (pagesNeeded_pos _)) fun _ _ hpost => hpost
    refine .after_read ?_
    rcases List.eq_nil_or_concat rep with rfl | ⟨front, ⟨last, slots⟩, rfl⟩
    · have hnone : lastFreeSpace st.heap.pages st = (.ok none, st) := by
        rw [h.pages]
        rfl
      exact .after_ok hnone hfresh
    · rw [List.concat_eq_append] at *
      have hmem : (last, slots) ∈ front ++ [(last, slots)] := by simp
      refine .after_ok (lastFreeSpace_spec h) ?_
      simp only [Option.any_some, decide_eq_true_eq]
      split_ifs with hroom
      · rw [getLastD_pages h]
        obtain ⟨loc, st', rep', hrun, hadded⟩ := insertLast_spec h.pages h.holds hslot rfl rfl
          ((h.holds.fits _ hmem).snoc (r := ⟨doc, bytes, bytes, [], true⟩) hpos hroom)
        exact StateExcept.Ends.of_ok hrun ⟨rep', hadded⟩
      · exact hfresh

end Docsql.Heap
