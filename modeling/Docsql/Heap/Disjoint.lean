import Docsql.Heap.Corrupt
import Docsql.Heap.Documents
import Docsql.Lib.Run

/-!
# The page sets of a heap

Data pages, the chains of live slots, the free list and the dropped pages: in every
run no page is in two of them or twice in one, as long as nobody else touches these
pages and the pager hands out none of them.
-/

namespace Docsql.Heap

variable {codec : DecimalCodec} {s : Store} {st : HeapState} {rep : Layout} {r : SlotRep}
variable {chain : List ℕ} {parts : List (List UInt8)} {hops : ℕ}

/-! ## The chains a heap has, read off its pages -/

def pageLiveChains (s : Store) (page : Page) (regions : List (ℕ × ℕ)) : List ℕ :=
  regions.flatMap fun region =>
    if region.2 = 0 then [] else slotChain s (slice page region.1 region.2)

/-- The chain pages of all live slots. -/
def HeapState.liveChains (st : HeapState) : List ℕ :=
  st.heap.pages.flatMap fun id =>
    pageLiveChains st.store (st.store.image id) (slots (st.store.image id))

/-- Every page of the heap, set after set. -/
def HeapState.owned (st : HeapState) : List ℕ :=
  st.heap.pages ++ (st.liveChains ++ (st.heap.overflowFree ++ st.heap.dropped))

theorem chainFrom_linked (hids : ChainIds s chain) (hlinked : Linked s parts chain)
    (hhops : chain.length ≤ hops) : chainFrom s.image hops (chain.headD 0) = chain := by
  induction chain generalizing parts hops with
  | nil => cases hops <;> simp [chainFrom]
  | cons id chain ih =>
    cases parts with
    | nil => exact hlinked.elim
    | cons part parts =>
      obtain ⟨hops, rfl⟩ : ∃ n, hops = n + 1 :=
        ⟨hops - 1, by rw [List.length_cons] at hhops; omega⟩
      have hid : id ≠ 0 := (hids.inFile id List.mem_cons_self).1.ne'
      have hnext : Bytes.ofLE (slice (s.image id) 1 4) = chain.headD 0 := by
        rw [hlinked.1, (chainPage_slices _ _).1, Bytes.ofLE_toLE hids.tail.headD_lt]
      have hrest : chainFrom s.image hops (chain.headD 0) = chain :=
        ih hids.tail hlinked.2.2 (by rw [List.length_cons] at hhops; omega)
      rw [List.headD_cons, chainFrom, if_neg hid, hnext, hrest]

theorem SlotOk.slotChain_eq (h : SlotOk codec s r) (hids : ChainIds s r.chain) :
    slotChain s r.content = r.chain := by
  obtain ⟨-, hencoded, hstored⟩ := h
  have hhead := (encodeDoc_head hencoded).1
  have hmax := (encodeDoc_eq_ok.mp hencoded).2
  have hlt := maxDocSize_lt
  generalize r.bytes = bytes at *
  generalize r.content = content at *
  generalize r.chain = chain at *
  cases hstored with
  | plain =>
    rw [slotChain, if_neg]
    rw [hhead]
    decide
  | overflow inlineLen hrest hlinked hhops =>
    have hheader : overflowSlotHeader (overflowContent bytes (chain.headD 0) inlineLen) 0 =
        .ok (bytes.length, chain.headD 0) :=
      overflowSlotHeader_content (by omega) hids.headD_lt 0
    obtain ⟨-, htotal, hfirst⟩ := overflowSlotHeader_eq_ok.mp hheader
    have hmark : (overflowContent bytes (chain.headD 0) inlineLen).head? = some overflowMark := rfl
    rw [slotChain, if_pos hmark, ← htotal, ← hfirst]
    exact chainFrom_linked hids hlinked hhops

theorem pageLiveChains_image {pre post : List SlotRep} (hfits : Fits (contents (pre ++ post)))
    (hslots : ∀ r ∈ post, SlotOk codec s r ∧ ChainIds s r.chain) :
    pageLiveChains s (image (contents (pre ++ post)))
      ((List.range' pre.length post.length).map (slot (image (contents (pre ++ post))))) =
        pageChains post := by
  induction post generalizing pre with
  | nil => rfl
  | cons r post ih =>
    obtain ⟨hslot, hids⟩ := hslots r List.mem_cons_self
    have hsplit : contents (pre ++ r :: post) = contents pre ++ r.content :: contents post := by
      simp [contents]
    have hmarked := hfits
    rw [hsplit] at hmarked
    obtain ⟨off, hoff, hslice⟩ := hmarked.doc_marked [] (by simp)
    rw [marked_nil, ← hsplit] at hoff hslice
    rw [show (contents pre).length = pre.length by simp [contents]] at hoff
    have happ : (pre ++ [r]) ++ post = pre ++ r :: post := by simp
    have hrest := ih (by rwa [happ]) fun r' hr' => hslots r' (List.mem_cons_of_mem _ hr')
    rw [happ, List.length_append, List.length_singleton] at hrest
    rw [List.length_cons, List.range'_succ, List.map_cons, hoff, pageLiveChains,
      List.flatMap_cons, ← pageLiveChains, hrest, pageChains_cons]
    dsimp only
    rw [if_neg hslot.nonempty.ne', hslice, hslot.slotChain_eq hids]

theorem Rep.liveChains_eq (h : Rep codec st rep) (hlive : AllLive rep) :
    st.liveChains = chains rep := by
  rw [HeapState.liveChains, h.pages, List.flatMap_map, chains]
  refine List.flatMap_congr fun p hp => ?_
  have hfits : Fits (contents ([] ++ p.2)) := h.holds.fits p hp
  have hpage := pageLiveChains_image hfits fun r hr => h.slot_ok hlive hp hr
  rw [List.nil_append, List.length_nil] at hpage
  have hcount : countOf (image (contents p.2)) = p.2.length := by
    rw [(h.holds.fits p hp).countOf_image, contents, List.length_map]
  rw [h.holds.images p hp, slots, hcount, List.range_eq_range', hpage]

theorem Rep.owned_eq (h : Rep codec st rep) (hlive : AllLive rep) :
    st.owned = rep.map Prod.fst ++ (chains rep ++ (st.heap.overflowFree ++ st.heap.dropped)) := by
  rw [HeapState.owned, h.liveChains_eq hlive, h.pages]

/-- Every live slot is read to the end of its chain. -/
theorem Rep.slot_reads (h : Rep codec st rep) (hlive : AllLive rep) {p : ℕ × List SlotRep}
    (hp : p ∈ rep) {region : ℕ × ℕ} (hregion : region ∈ slots (st.store.image p.1)) :
    ∃ bytes, slotDocumentBytes p.1 (st.store.image p.1) region.1 region.2 st =
      (.ok bytes, st) := by
  have hfits := h.holds.fits p hp
  rw [h.holds.images p hp] at hregion ⊢
  rw [slots, hfits.countOf_image, contents, List.length_map, ← contents] at hregion
  obtain ⟨i, hi, rfl⟩ := List.mem_map.mp hregion
  rw [List.mem_range] at hi
  have hsplit : p.2 = p.2.take i ++ p.2[i] :: p.2.drop (i + 1) := by simp
  obtain ⟨hslot, hids⟩ := h.slot_ok hlive hp (List.getElem_mem hi)
  rw [hsplit] at hfits
  obtain ⟨off, hoff, hread⟩ := readSlot p.1 hfits hslot hids
  rw [← hsplit, List.length_take_of_le hi.le] at hoff
  rw [← hsplit] at hread
  rw [hoff]
  exact ⟨_, hread⟩

/-! ## Runs -/

/-- What others do to the file: the pager is sound, and these pages stay as they are. -/
structure Spares (s s' : Store) (ids : List ℕ) : Prop where
  ok : s'.Ok
  image : ∀ id ∈ ids, s'.image id = s.image id
  inFile : ∀ id ∈ ids, s'.InFile id
  live : ∀ id ∈ ids, id ∉ s'.reusable

inductive Event where
  | call (op : Op)
  /-- Other users of the pager. -/
  | others (s : Store)
  /-- The end of a statement: the caller hands the dropped pages to the pager. -/
  | release (s : Store)

def HeapState.released (st : HeapState) : HeapState :=
  { st with heap := { st.heap with dropped := [] } }

/-- The calls of a client, and what happens around them. -/
def Client.event (codec : DecimalCodec) (c : Client) : Event → Client
  | .call op => c.step codec op
  | .others s => { c with st := { c.st with store := s } }
  | .release s => { c with st := { c.st.released with store := s } }

def Event.Allowed (c : Client) : Event → Prop
  | .call op => op.WF
  | .others s => Spares c.st.store s c.st.owned
  | .release s => Spares c.st.store s c.st.released.owned

variable {c : Client}

/-- The same pages in a file that others have changed. -/
theorem Rep.spares (h : Rep codec st rep) (hlive : AllLive rep) {s' : Store}
    (hs : Spares st.store s' st.owned) : Rep codec { st with store := s' } rep := by
  have howned := h.owned_eq hlive
  have hnodup := h.holds.owns.nodup
  rw [← howned] at hnodup
  refine ⟨h.pages, h.holds.congr hs.ok ?_ ?_⟩
  · rw [← howned]
    exact ⟨hnodup, hs.inFile, hs.live⟩
  · intro id hid
    refine hs.image id ?_
    rw [howned, ← List.append_assoc]
    exact List.mem_append_left _ hid

theorem Rep.released (h : Rep codec st rep) : Rep codec st.released rep := by
  have hsub : (rep.map Prod.fst ++ (chains rep ++ st.heap.overflowFree)).Sublist
      (rep.map Prod.fst ++ (chains rep ++ (st.heap.overflowFree ++ st.heap.dropped))) :=
    (((List.sublist_append_left _ _).append_left _).append_left _)
  refine ⟨h.pages, h.holds.congr h.holds.ok ?_ fun _ _ => rfl⟩
  have howns := h.holds.owns
  rw [HeapState.released]
  dsimp only
  rw [List.append_nil]
  exact ⟨howns.nodup.sublist hsub, fun id hid => howns.inFile id (hsub.subset hid),
    fun id hid => howns.live id (hsub.subset hid)⟩

theorem Client.Tracks.event (h : c.Tracks codec) {e : Event} (he : e.Allowed c) :
    (c.event codec e).Tracks codec := by
  cases e with
  | call op => exact h.step he
  | others s =>
    obtain ⟨rep, hrep, hlive, hperm⟩ := h
    exact ⟨rep, hrep.spares hlive he, hlive, hperm⟩
  | release s =>
    obtain ⟨rep, hrep, hlive, hperm⟩ := h
    exact ⟨rep, hrep.released.spares hlive he, hlive, hperm⟩

theorem Client.Tracks.events {events : List Event} (h : c.Tracks codec)
    (hallowed : Docsql.Lib.Run.Fits (Client.event codec) Event.Allowed c events) :
    (events.foldl (Client.event codec) c).Tracks codec := by
  induction events generalizing c with
  | nil => exact h
  | cons e events ih => exact ih (h.event hallowed.1) hallowed.2

/-- No page of a heap is in two of its sets or twice in one, and none of them is one
the pager could hand out; every chain is complete; and what the next oversized insert
takes from the free list is no page of a live document. -/
structure HeapState.Disjoint (st : HeapState) : Prop where
  nodup : st.owned.Nodup
  inFile : ∀ id ∈ st.owned, st.store.InFile id
  live : ∀ id ∈ st.owned, id ∉ st.store.reusable
  complete : ∀ id ∈ st.heap.pages, ∀ region ∈ slots (st.store.image id), ∃ bytes,
    slotDocumentBytes id (st.store.image id) region.1 region.2 st = (.ok bytes, st)
  popped : ∀ id free, st.heap.overflowFree = id :: free → id ∉ st.liveChains

theorem Client.Tracks.disjoint (h : c.Tracks codec) : c.st.Disjoint := by
  obtain ⟨rep, hrep, hlive, -⟩ := h
  have howns := hrep.holds.owns
  rw [← hrep.owned_eq hlive] at howns
  refine ⟨howns.nodup, howns.inFile, howns.live, ?_, ?_⟩
  · intro id hid region hregion
    rw [hrep.pages] at hid
    obtain ⟨p, hp, rfl⟩ := List.mem_map.mp hid
    exact hrep.slot_reads hlive hp hregion
  intro id free hfree hid
  have hrest := (List.nodup_append.mp howns.nodup).2.1
  refine (List.nodup_append.mp hrest).2.2 id hid id ?_ rfl
  rw [hfree]
  exact List.mem_append_left _ List.mem_cons_self

theorem heap_pages_disjoint (codec : DecimalCodec) (s : Store) (hs : s.Ok) (events : List Event)
    (hallowed : Docsql.Lib.Run.Fits (Client.event codec) Event.Allowed (Client.start s) events) :
    (events.foldl (Client.event codec) (Client.start s)).st.Disjoint :=
  ((Client.Tracks.start hs).events hallowed).disjoint

theorem heap_pages_disjoint_two_calls :
    let s : Store := { image := fun _ => zeroPage, reusable := [], numPages := 1 }
    let events : List Event := [.call (.insert [("a", .int 1)]), .call (.removeMany [65536])]
    (events.foldl (Client.event rustDecimal) (Client.start s)).st.Disjoint := by
  intro s events
  have hs : s.Ok := ⟨Nat.one_pos, by decide, List.nodup_nil, by simp [s]⟩
  have hdoc : (Value.object [("a", .int 1)]).WF := ⟨List.pairwise_singleton _ _, trivial, trivial⟩
  exact heap_pages_disjoint rustDecimal s hs events ⟨hdoc, trivial, trivial⟩

end Docsql.Heap
