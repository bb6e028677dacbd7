import Docsql.Heap.Chain

/-!
# The pages of a heap

`Holds codec s rep spare`: the store holds the pages of `rep`, each with its
slots, and the heap owns the pages in `spare` besides.  Everything the heap does
to its pages is one of a few changes of this view: a page is allocated, a spare
page is overwritten, the slots of a page are replaced, a page is added or
dropped, a slot gives its chain away.
-/

namespace Docsql

namespace Store

/-- The store with one page overwritten. -/
def put (s : Store) (id : ℕ) (page : Page) : Store :=
  { s with image := Function.update s.image id page }

variable {s : Store} {id : ℕ} {page : Page} {pages pages' : List ℕ}

theorem Ok.put (h : s.Ok) : (s.put id page).Ok := ⟨h.pos, h.lt, h.nodup, h.range⟩

theorem Owns.put (h : s.Owns pages) : (s.put id page).Owns pages := ⟨h.nodup, h.inFile, h.live⟩

theorem Owns.perm (h : s.Owns pages) (hperm : pages'.Perm pages) : s.Owns pages' :=
  ⟨hperm.nodup_iff.mpr h.nodup, fun id hid => h.inFile id (hperm.mem_iff.mp hid),
    fun id hid => h.live id (hperm.mem_iff.mp hid)⟩

theorem Owns.left (h : s.Owns (pages ++ pages')) : s.Owns pages :=
  ⟨(List.nodup_append.mp h.nodup).1, fun id hid => h.inFile id (List.mem_append_left _ hid),
    fun id hid => h.live id (List.mem_append_left _ hid)⟩

theorem put_image_of_ne {id' : ℕ} (h : id' ≠ id) : (s.put id page).image id' = s.image id' :=
  Function.update_of_ne h _ _

@[simp] theorem put_image_self : (s.put id page).image id = page := Function.update_self _ _ _

/-- A fresh page joins the owned ones. -/
theorem Owns.allocate (hs : s.Ok) (h : s.Owns pages) (hroom : 0 < s.available) :
    ∃ id s', allocatePage s = (.ok id, s') ∧ s'.Ok ∧ s'.Owns (id :: pages) ∧
      (∀ id' ≠ id, s'.image id' = s.image id') ∧ s'.available + 1 = s.available := by
  obtain ⟨s', halloc, hafter⟩ := allocatePage_ok hs hroom
  refine ⟨_, s', halloc, hafter.ok hs hroom, ?_, ?_, hafter.available hs hroom⟩
  · refine h.after hs hafter ?_
    simpa using (List.perm_append_singleton (s.fresh 0) pages).symm
  · intro id' hne
    refine hafter.image id' (by simp) ?_
    intro i hi
    rw [Nat.lt_one_iff.mp hi]
    exact hne

end Store

namespace Heap

variable {codec : DecimalCodec} {s s' : Store} {st : HeapState}

def pageChains (slots : List SlotRep) : List ℕ := slots.flatMap SlotRep.chain

def contents (slots : List SlotRep) : List (List UInt8) := slots.map SlotRep.content

abbrev Layout := List (ℕ × List SlotRep)

def chains (rep : Layout) : List ℕ := rep.flatMap fun p => pageChains p.2

structure Holds (codec : DecimalCodec) (s : Store) (rep : Layout) (spare : List ℕ) : Prop where
  ok : s.Ok
  owns : s.Owns (rep.map Prod.fst ++ (chains rep ++ spare))
  images : ∀ p ∈ rep, s.image p.1 = image (contents p.2)
  fits : ∀ p ∈ rep, Fits (contents p.2)
  slots : ∀ p ∈ rep, ∀ r ∈ p.2, r.live → SlotOk codec s r

variable {rep front back : Layout} {spare spare' : List ℕ} {slots slots' : List SlotRep}
variable {id pid : ℕ} {page : Page} {r : SlotRep}

@[simp] theorem pageChains_append (slots slots' : List SlotRep) :
    pageChains (slots ++ slots') = pageChains slots ++ pageChains slots' := by
  simp [pageChains]

@[simp] theorem pageChains_cons (r : SlotRep) (slots : List SlotRep) :
    pageChains (r :: slots) = r.chain ++ pageChains slots := rfl

@[simp] theorem contents_append (slots slots' : List SlotRep) :
    contents (slots ++ slots') = contents slots ++ contents slots' := by
  simp [contents]

@[simp] theorem chains_append (rep rep' : Layout) :
    chains (rep ++ rep') = chains rep ++ chains rep' := by
  simp [chains]

@[simp] theorem chains_cons (p : ℕ × List SlotRep) (rep : Layout) :
    chains (p :: rep) = pageChains p.2 ++ chains rep := rfl

/-! ## What a slot depends on -/

theorem Linked.congr {parts : List (List UInt8)} {chain : List ℕ} (h : Linked s parts chain)
    (heq : ∀ id ∈ chain, s'.image id = s.image id) : Linked s' parts chain := by
  induction chain generalizing parts with
  | nil =>
      cases parts with
      | nil => trivial
      | cons part parts => exact h.elim
  | cons id chain ih =>
      cases parts with
      | nil => exact h.elim
      | cons part parts =>
          refine ⟨(heq id List.mem_cons_self).trans h.1, h.2.1, ?_⟩
          exact ih h.2.2 fun id' h' => heq id' (List.mem_cons_of_mem _ h')

theorem SlotOk.congr (h : SlotOk codec s r) (heq : ∀ id ∈ r.chain, s'.image id = s.image id) :
    SlotOk codec s' r := by
  refine ⟨h.wf, h.encoded, ?_⟩
  have hstored := h.stored
  generalize r.bytes = bytes at *
  generalize r.content = content at *
  generalize r.chain = chain at *
  cases hstored with
  | plain => exact .plain _
  | overflow inlineLen hrest hlinked hhops =>
      exact .overflow inlineLen hrest (hlinked.congr heq) hhops

theorem mem_pageChains (hr : r ∈ slots) (hid : id ∈ r.chain) : id ∈ pageChains slots :=
  List.mem_flatMap.mpr ⟨r, hr, hid⟩

theorem mem_chains {p : ℕ × List SlotRep} (hp : p ∈ rep) (hid : id ∈ pageChains p.2) :
    id ∈ chains rep :=
  List.mem_flatMap.mpr ⟨p, hp, hid⟩

/-! ## Changes of the view -/

namespace Holds

/-- The page of one entry belongs to no chain and is not spare. -/
theorem ne_of_mem (h : Holds codec s rep spare) {p : ℕ × List SlotRep} (hp : p ∈ rep)
    (hid : id ∈ chains rep ++ spare) : id ≠ p.1 := by
  rintro rfl
  exact (List.nodup_append.mp h.owns.nodup).2.2 _ (List.mem_map_of_mem hp) _ hid rfl

theorem chain_ne_spare (h : Holds codec s rep spare) {id' : ℕ} (hid : id ∈ chains rep)
    (hid' : id' ∈ spare) : id ≠ id' := by
  rintro rfl
  have hnodup := (List.nodup_append.mp h.owns.nodup).2.1
  exact (List.nodup_append.mp hnodup).2.2 _ hid _ hid' rfl

theorem perm (h : Holds codec s rep spare) (hperm : spare'.Perm spare) :
    Holds codec s rep spare' :=
  ⟨h.ok, h.owns.perm ((hperm.append_left _).append_left _), h.images, h.fits, h.slots⟩

/-- The same pages in another store with the same images. -/
theorem congr (h : Holds codec s rep spare) (hok : s'.Ok)
    (howns : s'.Owns (rep.map Prod.fst ++ (chains rep ++ spare')))
    (heq : ∀ id ∈ rep.map Prod.fst ++ chains rep, s'.image id = s.image id) :
    Holds codec s' rep spare' := by
  refine ⟨hok, howns, ?_, h.fits, ?_⟩
  · intro p hp
    rw [heq _ (List.mem_append_left _ (List.mem_map_of_mem hp)), h.images p hp]
  · intro p hp r hr hlive
    refine (h.slots p hp r hr hlive).congr ?_
    intro id hid
    exact heq id (List.mem_append_right _ (mem_chains hp (mem_pageChains hr hid)))

theorem allocate (h : Holds codec s rep spare) (hroom : 0 < s.available) :
    ∃ id s', Store.allocatePage s = (.ok id, s') ∧ Holds codec s' rep (id :: spare) ∧
      (∀ id' ≠ id, s'.image id' = s.image id') ∧ s'.available + 1 = s.available := by
  obtain ⟨id, s', halloc, hok, howns, heq, havail⟩ := h.owns.allocate h.ok hroom
  refine ⟨id, s', halloc, ?_, heq, havail⟩
  refine h.congr hok (howns.perm ?_) ?_
  · rw [← List.append_assoc, ← List.append_assoc]
    exact List.perm_middle
  · intro id' hid'
    refine heq id' ?_
    rintro rfl
    have hnot := (List.nodup_cons.mp howns.nodup).1
    rw [← List.append_assoc] at hnot
    exact hnot (List.mem_append_left _ hid')

/-- A spare page may be overwritten. -/
theorem putSpare (h : Holds codec s rep spare) (page : Page) (hid : id ∈ spare) :
    Holds codec (s.put id page) rep spare := by
  refine h.congr h.ok.put h.owns.put ?_
  intro id' hid'
  refine Store.put_image_of_ne ?_
  rintro rfl
  have hnodup := h.owns.nodup
  rw [← List.append_assoc] at hnodup
  exact (List.nodup_append.mp hnodup).2.2 _ hid' _ hid rfl

/-- The slots of one page replaced; chains move between the page and `spare`. -/
theorem setPage (h : Holds codec s (front ++ (pid, slots) :: back) spare)
    (slots' : List SlotRep) (spare' : List ℕ) (hfits : Fits (contents slots'))
    (hperm : (pageChains slots' ++ spare').Perm (pageChains slots ++ spare))
    (hslots : ∀ r ∈ slots', r.live → SlotOk codec s r) :
    Holds codec (s.put pid (image (contents slots'))) (front ++ (pid, slots') :: back) spare' := by
  have hnodup := h.owns.nodup
  have hne : ∀ id ∈ (front.map Prod.fst ++ back.map Prod.fst) ++
      (chains front ++ chains back ++ (pageChains slots ++ spare)), id ≠ pid := by
    rintro id hid rfl
    have hperm' : (List.map Prod.fst (front ++ (id, slots) :: back) ++
        (chains (front ++ (id, slots) :: back) ++ spare)).Perm
        (id :: ((front.map Prod.fst ++ back.map Prod.fst) ++
          (chains front ++ chains back ++ (pageChains slots ++ spare)))) := by
      simp only [List.map_append, List.map_cons, chains_append, chains_cons]
      rw [← Multiset.coe_eq_coe]
      simp only [← Multiset.coe_add, ← Multiset.cons_coe, ← Multiset.singleton_add]
      abel
    exact (List.nodup_cons.mp (hperm'.nodup_iff.mp hnodup)).1 hid
  have hmem : ∀ id, id ∈ pageChains slots' → id ∈ pageChains slots ++ spare := fun id hid =>
    hperm.mem_iff.mp (List.mem_append_left _ hid)
  refine ⟨h.ok.put, h.owns.put.perm ?_, ?_, ?_, ?_⟩
  · simp only [List.map_append, List.map_cons, chains_append, chains_cons]
    refine List.Perm.append_left _ ?_
    rw [← Multiset.coe_eq_coe] at hperm ⊢
    simp only [← Multiset.coe_add] at hperm ⊢
    calc (↑(chains front) + (↑(pageChains slots') + ↑(chains back)) + ↑spare' : Multiset ℕ)
        = ↑(chains front) + ↑(chains back) + (↑(pageChains slots') + ↑spare') := by abel
      _ = ↑(chains front) + ↑(chains back) + (↑(pageChains slots) + ↑spare) := by rw [hperm]
      _ = _ := by abel
  · intro p hp
    rcases List.mem_append.mp hp with hp | hp
    · rw [Store.put_image_of_ne, h.images p (List.mem_append_left _ hp)]
      exact hne _ (List.mem_append_left _ (List.mem_append_left _ (List.mem_map_of_mem hp)))
    · rcases List.mem_cons.mp hp with rfl | hp
      · exact Store.put_image_self
      · rw [Store.put_image_of_ne,
          h.images p (List.mem_append_right _ (List.mem_cons_of_mem _ hp))]
        exact hne _ (List.mem_append_left _ (List.mem_append_right _ (List.mem_map_of_mem hp)))
  · intro p hp
    rcases List.mem_append.mp hp with hp | hp
    · exact h.fits p (List.mem_append_left _ hp)
    · rcases List.mem_cons.mp hp with rfl | hp
      · exact hfits
      · exact h.fits p (List.mem_append_right _ (List.mem_cons_of_mem _ hp))
  · intro p hp r hr hlive
    have hold : SlotOk codec s r ∧ ∀ id ∈ r.chain, id ≠ pid := by
      rcases List.mem_append.mp hp with hp | hp
      · refine ⟨h.slots p (List.mem_append_left _ hp) r hr hlive, fun id hid => hne id ?_⟩
        refine List.mem_append_right _ (List.mem_append_left _ (List.mem_append_left _ ?_))
        exact mem_chains hp (mem_pageChains hr hid)
      · rcases List.mem_cons.mp hp with rfl | hp
        · refine ⟨hslots r hr hlive, fun id hid => hne id ?_⟩
          exact List.mem_append_right _ (List.mem_append_right _
            (hmem id (mem_pageChains hr hid)))
        · refine ⟨h.slots p (List.mem_append_right _ (List.mem_cons_of_mem _ hp)) r hr hlive,
            fun id hid => hne id ?_⟩
          refine List.mem_append_right _ (List.mem_append_left _ (List.mem_append_right _ ?_))
          exact mem_chains hp (mem_pageChains hr hid)
    exact hold.1.congr fun id hid => Store.put_image_of_ne (hold.2 id hid)

/-- A spare page becomes the last page of the heap. -/
theorem addPage (h : Holds codec s rep spare) (id : ℕ) (slots : List SlotRep)
    (hfits : Fits (contents slots)) (hperm : (id :: (pageChains slots ++ spare')).Perm spare)
    (hslots : ∀ r ∈ slots, r.live → SlotOk codec s r) :
    Holds codec (s.put id (image (contents slots))) (rep ++ [(id, slots)]) spare' := by
  have hput := h.putSpare (image (contents slots))
    (hperm.mem_iff.mp List.mem_cons_self)
  have hchain : ∀ id' ∈ pageChains slots, id' ≠ id := by
    rintro id' hid' rfl
    have hnodup := (List.nodup_append.mp (List.nodup_append.mp h.owns.nodup).2.1).2.1
    exact (List.nodup_cons.mp (hperm.nodup_iff.mpr hnodup)).1 (List.mem_append_left _ hid')
  refine ⟨h.ok.put, h.owns.put.perm ?_, ?_, ?_, ?_⟩
  · simp only [List.map_append, List.map_cons, List.map_nil, chains_append, chains_cons]
    rw [← Multiset.coe_eq_coe] at hperm ⊢
    simp only [← Multiset.coe_add, ← Multiset.cons_coe, ← Multiset.singleton_add] at hperm ⊢
    rw [← hperm, show chains [] = [] from rfl]
    simp only [Multiset.coe_nil, add_zero]
    abel
  · intro p hp
    rcases List.mem_append.mp hp with hp | hp
    · exact hput.images p hp
    · rw [List.mem_singleton.mp hp]
      exact Store.put_image_self
  · intro p hp
    rcases List.mem_append.mp hp with hp | hp
    · exact h.fits p hp
    · rw [List.mem_singleton.mp hp]
      exact hfits
  · intro p hp r hr hlive
    rcases List.mem_append.mp hp with hp | hp
    · exact hput.slots p hp r hr hlive
    · rw [List.mem_singleton.mp hp] at hr
      exact (hslots r hr hlive).congr fun id' hid' =>
        Store.put_image_of_ne (hchain id' (mem_pageChains hr hid'))

/-- A page without slots is given up. -/
theorem dropPage (h : Holds codec s (front ++ (pid, []) :: back) spare) :
    Holds codec s (front ++ back) (pid :: spare) := by
  have hsub : ∀ p, p ∈ front ++ back → p ∈ front ++ (pid, []) :: back := by
    intro p hp
    rcases List.mem_append.mp hp with hp | hp
    · exact List.mem_append_left _ hp
    · exact List.mem_append_right _ (List.mem_cons_of_mem _ hp)
  refine ⟨h.ok, h.owns.perm ?_, fun p hp => h.images p (hsub p hp),
    fun p hp => h.fits p (hsub p hp), fun p hp => h.slots p (hsub p hp)⟩
  simp only [List.map_append, List.map_cons, chains_append, chains_cons]
  rw [← Multiset.coe_eq_coe, show pageChains [] = [] from rfl]
  simp only [← Multiset.coe_add, ← Multiset.cons_coe, ← Multiset.singleton_add, Multiset.coe_nil]
  abel

end Holds

/-- The slot after its chain was given away. -/
def SlotRep.retired (r : SlotRep) : SlotRep := { r with chain := [], live := false }

namespace Holds

variable {pre post : List SlotRep}

theorem retire (h : Holds codec s (front ++ (pid, pre ++ r :: post) :: back) spare) :
    Holds codec s (front ++ (pid, pre ++ r.retired :: post) :: back) (r.chain ++ spare) := by
  have hcontents : contents (pre ++ r.retired :: post) = contents (pre ++ r :: post) := by
    simp [contents, SlotRep.retired]
  have hsame : ∀ {P : ℕ × List SlotRep → Prop},
      (∀ p ∈ front ++ (pid, pre ++ r :: post) :: back, P p) →
      P (pid, pre ++ r.retired :: post) →
      ∀ p ∈ front ++ (pid, pre ++ r.retired :: post) :: back, P p := by
    intro P hall hnew p hp
    rcases List.mem_append.mp hp with hp | hp
    · exact hall p (List.mem_append_left _ hp)
    · rcases List.mem_cons.mp hp with rfl | hp
      · exact hnew
      · exact hall p (List.mem_append_right _ (List.mem_cons_of_mem _ hp))
  have hmid : (pid, pre ++ r :: post) ∈ front ++ (pid, pre ++ r :: post) :: back := by simp
  refine ⟨h.ok, h.owns.perm ?_, hsame h.images ?_, hsame h.fits ?_, hsame h.slots ?_⟩
  · simp only [List.map_append, List.map_cons, chains_append, chains_cons, pageChains_append,
      pageChains_cons, show r.retired.chain = [] from rfl, List.nil_append]
    rw [← Multiset.coe_eq_coe]
    simp only [← Multiset.coe_add, ← Multiset.cons_coe, ← Multiset.singleton_add]
    abel
  · rw [hcontents]
    exact h.images _ hmid
  · rw [hcontents]
    exact h.fits _ hmid
  · intro r' hr' hlive
    rcases List.mem_append.mp hr' with hr' | hr'
    · exact h.slots _ hmid r' (List.mem_append_left _ hr') hlive
    · rcases List.mem_cons.mp hr' with rfl | hr'
      · cases hlive
      · exact h.slots _ hmid r' (List.mem_append_right _ (List.mem_cons_of_mem _ hr')) hlive

theorem inFile (h : Holds codec s rep spare)
    (hid : id ∈ rep.map Prod.fst ++ (chains rep ++ spare)) : s.InFile id :=
  h.owns.inFile id hid

theorem page_inFile (h : Holds codec s rep spare) {p : ℕ × List SlotRep} (hp : p ∈ rep) :
    s.InFile p.1 :=
  h.owns.inFile _ (List.mem_append_left _ (List.mem_map_of_mem hp))

theorem chainIds (h : Holds codec s rep spare) {p : ℕ × List SlotRep} (hp : p ∈ rep)
    (hr : r ∈ p.2) : ChainIds s r.chain := by
  have hsub : r.chain.Sublist (rep.map Prod.fst ++ (chains rep ++ spare)) := by
    refine List.Sublist.trans ?_ (List.sublist_append_right _ _)
    refine List.Sublist.trans ?_ (List.sublist_append_left _ _)
    have hpage := (List.singleton_sublist.mpr hp).flatMap fun p => pageChains p.2
    have hslot := (List.singleton_sublist.mpr hr).flatMap SlotRep.chain
    rw [List.flatMap_singleton] at hpage hslot
    exact hslot.trans hpage
  exact ⟨h.ok.lt, fun id hid => h.inFile (hsub.subset hid), h.owns.nodup.sublist hsub⟩

end Holds

end Heap

end Docsql

/-!
# Reading a heap

On pages that hold a layout, `scan`, `live_count` and `doc_at` return exactly
the documents of its slots.
-/

namespace Docsql.Heap

variable {codec : DecimalCodec} {st : HeapState} {rep : Layout} {pid : ℕ}

/-- The state of a heap: its page list and its pages. -/
structure Rep (codec : DecimalCodec) (st : HeapState) (rep : Layout) : Prop where
  pages : st.heap.pages = rep.map Prod.fst
  holds : Holds codec st.store rep (st.heap.overflowFree ++ st.heap.dropped)

def AllLive (rep : Layout) : Prop := ∀ p ∈ rep, ∀ r ∈ p.2, r.live

/-- The documents of one page with their locators. -/
def pageEntries (pid : ℕ) (slots : List SlotRep) : List (ℕ × Doc) :=
  slots.zipIdx.map fun q => (packLoc pid q.2, q.1.doc)

/-- All documents with their locators, in page and slot order. -/
def entries (rep : Layout) : List (ℕ × Doc) := rep.flatMap fun p => pageEntries p.1 p.2

@[simp] theorem entries_append (rep rep' : Layout) :
    entries (rep ++ rep') = entries rep ++ entries rep' := by
  simp [entries]

@[simp] theorem entries_cons (p : ℕ × List SlotRep) (rep : Layout) :
    entries (p :: rep) = pageEntries p.1 p.2 ++ entries rep := rfl

@[simp] theorem length_pageEntries (pid : ℕ) (slots : List SlotRep) :
    (pageEntries pid slots).length = slots.length := by
  simp [pageEntries]

/-- The slot behind `pre` reads back. -/
theorem readSlot {pre post : List SlotRep} {r : SlotRep} (pid : ℕ)
    (hfits : Fits (contents (pre ++ r :: post))) (hslot : SlotOk codec st.store r)
    (hids : ChainIds st.store r.chain) :
    ∃ off, slot (image (contents (pre ++ r :: post))) pre.length = (off, r.content.length) ∧
      slotDocumentBytes pid (image (contents (pre ++ r :: post))) off r.content.length st =
        (.ok r.bytes, st) := by
  have hsplit : contents (pre ++ r :: post) = contents pre ++ r.content :: contents post := by
    simp [contents]
  rw [hsplit] at hfits ⊢
  obtain ⟨off, hoff, hslice⟩ := hfits.doc_marked [] (by simp)
  rw [marked_nil] at hoff hslice
  rw [show (contents pre).length = pre.length by simp [contents]] at hoff
  exact ⟨off, hoff, hslot.read hids hslice⟩

theorem readSlots_image {pre post : List SlotRep} (pid : ℕ) (hfits : Fits (contents (pre ++ post)))
    (hslots : ∀ r ∈ post, SlotOk codec st.store r ∧ ChainIds st.store r.chain) :
    readSlots codec pid (image (contents (pre ++ post)))
        ((List.range' pre.length post.length).map fun i =>
          (slot (image (contents (pre ++ post))) i, i)) st =
      (.ok ((post.zipIdx pre.length).map fun q => (packLoc pid q.2, q.1.doc)), st) := by
  induction post generalizing pre with
  | nil => rfl
  | cons r post ih =>
      obtain ⟨hslot, hids⟩ := hslots r List.mem_cons_self
      obtain ⟨off, hoff, hread⟩ := readSlot pid hfits hslot hids
      have happ : (pre ++ [r]) ++ post = pre ++ r :: post := by simp
      have hfits' : Fits (contents ((pre ++ [r]) ++ post)) := by rwa [happ]
      have hrest := ih hfits'
        fun r' hr' => hslots r' (List.mem_cons_of_mem _ hr')
      rw [happ, List.length_append, List.length_singleton] at hrest
      rw [List.length_cons, List.range'_succ, List.map_cons, hoff, readSlots,
        if_neg hslot.nonempty.ne', StateExcept.bind_ok hread, fromExcept,
        StateExcept.fromExcept_bind (decodeDoc_encodeDoc hslot.wf hslot.encoded pid),
        StateExcept.bind_ok hrest]
      rfl

theorem slots_zipIdx (page : Page) :
    (slots page).zipIdx = (List.range' 0 (countOf page)).map fun i => (slot page i, i) := by
  rw [slots, List.range_eq_range']
  apply List.ext_getElem <;> simp

namespace Rep

variable {p : ℕ × List SlotRep}

theorem load (h : Rep codec st rep) (hp : p ∈ rep) :
    loadPage p.1 st = (.ok (image (contents p.2)), st) := by
  rw [loadPage_ok (h.holds.page_inFile hp), h.holds.images p hp]

theorem validate (h : Rep codec st rep) (hp : p ∈ rep) :
    validatePage (image (contents p.2)) p.1 = .ok () :=
  (h.holds.fits p hp).validatePage_image p.1

theorem slot_ok (h : Rep codec st rep) (hlive : AllLive rep) (hp : p ∈ rep) {r : SlotRep}
    (hr : r ∈ p.2) : SlotOk codec st.store r ∧ ChainIds st.store r.chain :=
  ⟨h.holds.slots p hp r hr (hlive p hp r hr), h.holds.chainIds hp hr⟩

theorem scanPages_eq (h : Rep codec st rep) (hlive : AllLive rep) {part : Layout}
    (hpart : ∀ p ∈ part, p ∈ rep) :
    scanPages codec (part.map Prod.fst) st = (.ok (entries part), st) := by
  induction part with
  | nil => rfl
  | cons p part ih =>
      have hp := hpart p List.mem_cons_self
      have hfits : Fits (contents ([] ++ p.2)) := h.holds.fits p hp
      have hslots := readSlots_image p.1 hfits fun r hr => h.slot_ok hlive hp hr
      rw [List.nil_append, List.length_nil] at hslots
      have hrest := ih fun p' hp' => hpart p' (List.mem_cons_of_mem _ hp')
      have hcount : countOf (image (contents p.2)) = p.2.length := by
        rw [(h.holds.fits p hp).countOf_image, contents, List.length_map]
      rw [List.map_cons, scanPages, StateExcept.bind_ok (h.load hp), fromExcept,
        StateExcept.fromExcept_bind (h.validate hp), slots_zipIdx, hcount,
        StateExcept.bind_ok hslots, StateExcept.bind_ok hrest]
      rfl

theorem scan_eq (h : Rep codec st rep) (hlive : AllLive rep) :
    scan codec st = (.ok ((entries rep).map Prod.snd), st) := by
  have hpages : scanPages codec (rep.map Prod.fst) st = (.ok (entries rep), st) :=
    h.scanPages_eq hlive fun _ hp => hp
  rw [scan, StateExcept.read_bind, h.pages, StateExcept.bind_ok hpages]
  rfl

theorem countPages_eq (h : Rep codec st rep) {part : Layout} (hpart : ∀ p ∈ part, p ∈ rep) :
    countPages (part.map Prod.fst) st = (.ok (entries part).length, st) := by
  induction part with
  | nil => rfl
  | cons p part ih =>
      have hp := hpart p List.mem_cons_self
      have hfits := h.holds.fits p hp
      have hrest := ih fun p' hp' => hpart p' (List.mem_cons_of_mem _ hp')
      have hlive : (slots (image (contents p.2))).filter (fun q => q.2 ≠ 0) =
          slots (image (contents p.2)) := by
        rw [List.filter_eq_self, hfits.slots_image]
        intro q hq
        obtain ⟨i, hi, rfl⟩ := List.mem_iff_getElem.mp hq
        rw [length_slotList] at hi
        have hget := Fits.getElem?_slotList pageSize hi
        rw [List.getElem?_eq_getElem (by simpa using hi), Option.some.injEq] at hget
        rw [hget]
        have := hfits.nonempty _ (List.getElem_mem hi)
        simp only [ne_eq, decide_not, Bool.not_eq_eq_eq_not, Bool.not_true, decide_eq_false_iff_not]
        omega
      rw [List.map_cons, countPages, StateExcept.bind_ok (h.load hp), fromExcept,
        StateExcept.fromExcept_bind (h.validate hp), StateExcept.bind_ok hrest, hlive,
        hfits.slots_image, length_slotList, contents, List.length_map]
      rw [entries_cons, List.length_append, length_pageEntries]
      rfl

theorem liveCount_eq (h : Rep codec st rep) :
    liveCount st = (.ok (entries rep).length, st) := by
  rw [liveCount, StateExcept.read_bind, h.pages]
  exact h.countPages_eq fun _ hp => hp

theorem checkPageOwned_eq (h : Rep codec st rep) (hp : p ∈ rep) :
    checkPageOwned p.1 st = (.ok (), st) := by
  rw [checkPageOwned, StateExcept.read_bind, h.pages, if_pos (List.mem_map_of_mem hp)]
  rfl

end Rep

/-! ## Locators -/

theorem unpackLoc_packLoc {pid i : ℕ} (hpid : pid < 2 ^ 32) (hi : i < 2 ^ 16) :
    unpackLoc (packLoc pid i) = (pid, i) := by
  unfold unpackLoc packLoc
  rw [Nat.mod_eq_of_lt hi]
  have hdiv : (pid * 2 ^ 16 + i) / 2 ^ 16 = pid := by omega
  have hmod : (pid * 2 ^ 16 + i) % 2 ^ 16 = i := by omega
  rw [hdiv, hmod, Nat.mod_eq_of_lt hpid]

theorem Rep.unpack (h : Rep codec st rep) {p : ℕ × List SlotRep} (hp : p ∈ rep) {i : ℕ}
    (hi : i < p.2.length) : unpackLoc (packLoc p.1 i) = (p.1, i) := by
  have hpid := (h.holds.page_inFile hp).2
  have hlt := h.holds.ok.lt
  have hlen := (h.holds.fits p hp).length_lt
  rw [contents, List.length_map] at hlen
  exact unpackLoc_packLoc (by omega) (by omega)

theorem Rep.docAt_eq (h : Rep codec st rep) (hlive : AllLive rep) {p : ℕ × List SlotRep}
    (hp : p ∈ rep) {pre post : List SlotRep} {r : SlotRep} (hslots : p.2 = pre ++ r :: post) :
    docAt codec (packLoc p.1 pre.length) st = (.ok (some r.doc), st) := by
  have hi : pre.length < p.2.length := by simp [hslots]
  have hcount : countOf (image (contents p.2)) = p.2.length := by
    rw [(h.holds.fits p hp).countOf_image, contents, List.length_map]
  obtain ⟨hslot, hids⟩ := h.slot_ok hlive hp (r := r) (by simp [hslots])
  have hfits : Fits (contents (pre ++ r :: post)) := by
    rw [← hslots]
    exact h.holds.fits p hp
  obtain ⟨off, hoff, hread⟩ := readSlot p.1 hfits hslot hids
  rw [← hslots] at hoff hread
  rw [docAt, h.unpack hp hi]
  simp only
  rw [StateExcept.bind_ok (h.checkPageOwned_eq hp), StateExcept.bind_ok (h.load hp), fromExcept,
    StateExcept.fromExcept_bind (h.validate hp),
    StateExcept.throwIf_bind_of_not (by rw [hcount]; omega), hoff]
  simp only
  rw [if_neg hslot.nonempty.ne', StateExcept.bind_ok hread, fromExcept,
    StateExcept.fromExcept_bind (decodeDoc_encodeDoc hslot.wf hslot.encoded p.1)]
  rfl

end Docsql.Heap
