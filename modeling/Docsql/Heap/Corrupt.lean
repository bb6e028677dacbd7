import Docsql.Heap.Chain

/-!
# Chains that cannot be trusted

The read path and the two paths that give chain pages back walk a chain in the same
way, with accumulators of their own.  All three accept the same chains, except that
a page of the table itself is never given back, and nothing is given back before
the whole chain has been walked.
-/

namespace Docsql

namespace Heap

open StateExcept (read update throwIf Leaves)

/-! ## Freeing the chains of a table -/

/-- `Pager::free_page` drops the staged image: the page reads as it was committed. -/
def freePage (committed : ℕ → Page) (id : ℕ) : HeapM Unit := do
  onStore (Store.freePage id)
  update fun st => { st with
    store := { st.store with image := Function.update st.store.image id (committed id) } }

def freeSlot (committed : ℕ → Page) (pages : List ℕ) (pageId : ℕ) (content : List UInt8) :
    HeapM Unit := do
  if content.head? = some overflowMark then
    let (total, head) ← fromExcept (overflowSlotHeader content pageId)
    throwIf (maxDocSize < total)
      (.page pageId "overflow chain corrupt (total exceeds max document size)")
    let (chain, assembled) ← walkChain total pages (total / minChunk + 3) head [] 0
    throwIf (content.length - overflowSlotHeaderLen + assembled ≠ total)
      (.page pageId "overflow chain corrupt (short chain)")
    StateExcept.forEach (freePage committed) chain

def freePageSlots (committed : ℕ → Page) (pages : List ℕ) (pageId : ℕ) : HeapM Unit := do
  let page ← loadPage pageId
  fromExcept (validatePage page pageId)
  StateExcept.forEach (fun region : ℕ × ℕ =>
    if region.2 = 0 then return ()
    else freeSlot committed pages pageId (slice page region.1 region.2)) (slots page)

/-- `free_overflow_chains`. -/
def freeOverflowChains (committed : ℕ → Page) (pages : List ℕ) : HeapM Unit :=
  StateExcept.forEach (freePageSlots committed pages) pages

/-! ## The pages a walk goes over -/

/-- Hops from `next` to the end of the chain: the pages and their payload lengths. -/
inductive Walks (s : Store) : ℕ → ℕ → List (ℕ × ℕ) → Prop
  | stop (hops : ℕ) : Walks s hops 0 []
  | hop {hops next nxt len : ℕ} {rest : List (ℕ × ℕ)} (hne : next ≠ 0) (hfile : s.InFile next)
      (hheader : chainHeader (s.image next) next = .ok (nxt, len))
      (hlen : chainHeaderLen + len ≤ (s.image next).length) (hrest : Walks s hops nxt rest) :
      Walks s (hops + 1) next ((next, len) :: rest)

/-- The pages a chain runs through, read off the page images alone. -/
def chainFrom (image : ℕ → Page) : ℕ → ℕ → List ℕ
  | 0, _ => []
  | hops + 1, next =>
    if next = 0 then []
    else next :: chainFrom image hops (Bytes.ofLE (slice (image next) 1 4))

/-- The chain of a slot; only an overflow slot has one. -/
def slotChain (s : Store) (content : List UInt8) : List ℕ :=
  if content.head? = some overflowMark then
    chainFrom s.image (Bytes.ofLE (slice content 1 4) / minChunk + 3)
      (Bytes.ofLE (slice content 5 4))
  else []

variable {s : Store} {st st' : HeapState} {hops next : ℕ} {ws : List (ℕ × ℕ)}

theorem chainHeader_eq_ok {page : Page} {id nxt len : ℕ} :
    chainHeader page id = .ok (nxt, len) ↔
      page.head? = some chainMark ∧ nxt = Bytes.ofLE (slice page 1 4) ∧
        len = Bytes.ofLE (slice page 5 2) := by
  unfold chainHeader
  split_ifs with h
  · exact iff_of_false (by simp) fun h' => h h'.1
  · rw [Except.ok.injEq, Prod.mk.injEq, eq_comm (a := nxt), eq_comm (a := len)]
    exact (and_iff_right (not_not.mp h)).symm

theorem Walks.chainFrom_eq (h : Walks s hops next ws) :
    chainFrom s.image hops next = ws.map Prod.fst := by
  induction h with
  | stop hops => cases hops <;> simp [chainFrom]
  | hop hne _ hheader _ _ ih =>
      rw [chainFrom, if_neg hne, ← (chainHeader_eq_ok.mp hheader).2.1, ih]
      rfl

theorem Walks.inFile (h : Walks s hops next ws) : ∀ id ∈ ws.map Prod.fst, s.InFile id := by
  induction h with
  | stop hops => simp
  | hop _ hfile _ _ _ ih =>
      intro id hid
      rcases List.mem_cons.mp hid with rfl | hid
      · exact hfile
      · exact ih id hid

/-- Nothing is left to walk at the end of a chain. -/
theorem walks_zero_iff : Walks s hops 0 ws ↔ ws = [] := by
  constructor
  · intro h
    cases h with
    | stop => rfl
    | hop hne => exact absurd rfl hne
  · rintro rfl
    exact .stop hops

theorem loadPage_eq_ok_iff {id : ℕ} {page : Page} :
    loadPage id st = (.ok page, st') ↔
      st.store.InFile id ∧ page = st.store.image id ∧ st' = st := by
  by_cases h : st.store.InFile id
  · rw [loadPage_ok h, Prod.mk.injEq, Except.ok.injEq, eq_comm (a := page), eq_comm (a := st')]
    exact (and_iff_right h).symm
  · refine iff_of_false (fun hload => h ?_) fun h' => h h'.1
    have hrange : st.store.InFile id ∨ (id = 0 ∨ st.store.numPages ≤ id) := by
      unfold Store.InFile
      omega
    rcases hrange with hin | hout
    · exact hin
    · rw [loadPage, onStore, Store.readPage, StateExcept.read_bind, if_pos hout] at hload
      cases hload

theorem loadPage_state (id : ℕ) (st : HeapState) : (loadPage id st).2 = st := by
  rw [loadPage, onStore, Store.readPage, StateExcept.read_bind]
  split_ifs
  · rfl
  · rfl

/-- A walk that meets no page twice and none that is out of bounds. -/
structure Passes (s : Store) (hops next : ℕ) (out : ℕ → Prop) (ws : List (ℕ × ℕ)) : Prop where
  walks : Walks s hops next ws
  nodup : (ws.map Prod.fst).Nodup
  inside : ∀ id ∈ ws.map Prod.fst, ¬out id

namespace Passes

variable {out out' : ℕ → Prop}

theorem congr (h : Passes s hops next out ws) (heq : ∀ id, out' id ↔ out id) :
    Passes s hops next out' ws :=
  ⟨h.walks, h.nodup, fun id hid hout => h.inside id hid ((heq id).mp hout)⟩

theorem next_eq_zero (h : Passes s 0 next out ws) : next = 0 := by
  cases h.walks
  rfl

theorem eq_cons (h : Passes s hops next out ws) (hne : next ≠ 0) :
    ∃ len rest, ws = (next, len) :: rest := by
  cases h.walks with
  | stop => exact absurd rfl hne
  | hop => exact ⟨_, _, rfl⟩

end Passes

theorem passes_zero_iff {out : ℕ → Prop} : Passes s hops 0 out ws ↔ ws = [] := by
  constructor
  · exact fun h => walks_zero_iff.mp h.walks
  · rintro rfl
    exact ⟨.stop _, List.nodup_nil, by simp⟩

/-- One hop, after which its page is out of bounds too. -/
theorem passes_hop_iff {out : ℕ → Prop} {len : ℕ} (hne : next ≠ 0) :
    Passes s (hops + 1) next out ((next, len) :: ws) ↔
      ¬out next ∧ s.InFile next ∧ ∃ nxt, chainHeader (s.image next) next = .ok (nxt, len) ∧
        chainHeaderLen + len ≤ (s.image next).length ∧
        Passes s hops nxt (fun id => id = next ∨ out id) ws := by
  constructor
  · rintro ⟨hwalks, hnodup, hinside⟩
    rw [List.map_cons, List.nodup_cons] at hnodup
    cases hwalks with
    | hop _ hfile hheader hlen hrest =>
      refine ⟨hinside next List.mem_cons_self, hfile, _, hheader, hlen, hrest, hnodup.2, ?_⟩
      rintro id hid (rfl | hout)
      · exact hnodup.1 hid
      · exact hinside id (List.mem_cons_of_mem _ hid) hout
  · rintro ⟨hout, hfile, nxt, hheader, hlen, hrest⟩
    refine ⟨.hop hne hfile hheader hlen hrest.walks, ?_, ?_⟩
    · exact List.nodup_cons.mpr ⟨fun hid => hrest.inside next hid (.inl rfl), hrest.nodup⟩
    · intro id hid
      rcases List.mem_cons.mp hid with rfl | hid
      · exact hout
      · exact fun h => hrest.inside id hid (.inr h)

/-! ## The two walkers -/

section Walkers

variable {total assembled : ℕ} {own chain chain' : List ℕ}

theorem walkChain_zero : walkChain total own hops 0 chain assembled st =
    (.ok (chain, assembled), st) := by
  cases hops <;> rw [walkChain, if_pos rfl] <;> rfl

theorem walkChain_stop_iff {asm' : ℕ} (hle : assembled ≤ total) :
    walkChain total own hops 0 chain assembled st = (.ok (chain', asm'), st') ↔
      st' = st ∧ ∃ ws, Passes st.store hops 0 (fun id => id ∈ chain ∨ id ∈ own) ws ∧
        assembled + (ws.map Prod.snd).sum ≤ total ∧ chain' = chain ++ ws.map Prod.fst ∧
        asm' = assembled + (ws.map Prod.snd).sum := by
  rw [walkChain_zero]
  constructor
  · intro h
    cases h
    exact ⟨rfl, [], passes_zero_iff.mpr rfl, by simpa using hle, by simp, by simp⟩
  · rintro ⟨rfl, ws, hws, -, rfl, rfl⟩
    rw [passes_zero_iff.mp hws]
    simp

theorem walkChain_hop {asm' : ℕ} (hne : next ≠ 0) :
    walkChain total own (hops + 1) next chain assembled st = (.ok (chain', asm'), st') ↔
      next ∉ chain ∧ next ∉ own ∧ st.store.InFile next ∧
        ∃ nxt len, chainHeader (st.store.image next) next = .ok (nxt, len) ∧
          chainHeaderLen + len ≤ (st.store.image next).length ∧ assembled + len ≤ total ∧
          walkChain total own hops nxt (chain ++ [next]) (assembled + len) st =
            (.ok (chain', asm'), st') := by
  rw [walkChain, if_neg hne, StateExcept.throwIf_bind_eq_ok_iff,
    StateExcept.throwIf_bind_eq_ok_iff, StateExcept.bind_eq_ok_iff]
  refine and_congr_right fun _ => and_congr_right fun _ => ?_
  constructor
  · rintro ⟨page, st₁, hload, h⟩
    obtain ⟨hfile, rfl, rfl⟩ := loadPage_eq_ok_iff.mp hload
    obtain ⟨⟨nxt, len⟩, hheader, h⟩ := StateExcept.fromExcept_bind_eq_ok_iff.mp h
    obtain ⟨hcheck, h⟩ := StateExcept.throwIf_bind_eq_ok_iff.mp h
    exact ⟨hfile, nxt, len, hheader, by omega, by omega, h⟩
  · rintro ⟨hfile, nxt, len, hheader, hlen, htotal, h⟩
    refine ⟨_, st, loadPage_ok hfile, ?_⟩
    refine StateExcept.fromExcept_bind_eq_ok_iff.mpr ⟨(nxt, len), hheader, ?_⟩
    exact StateExcept.throwIf_bind_eq_ok_iff.mpr ⟨by omega, h⟩

/-- The walk of the paths that give pages back. -/
theorem walkChain_eq_ok_iff {asm' : ℕ} (hle : assembled ≤ total) :
    walkChain total own hops next chain assembled st = (.ok (chain', asm'), st') ↔
      st' = st ∧ ∃ ws, Passes st.store hops next (fun id => id ∈ chain ∨ id ∈ own) ws ∧
        assembled + (ws.map Prod.snd).sum ≤ total ∧ chain' = chain ++ ws.map Prod.fst ∧
        asm' = assembled + (ws.map Prod.snd).sum := by
  induction hops generalizing next chain assembled with
  | zero =>
    by_cases hne : next = 0
    · subst hne
      exact walkChain_stop_iff hle
    · rw [walkChain, if_neg hne]
      refine iff_of_false (by simp) ?_
      rintro ⟨-, ws, hws, -⟩
      exact hne hws.next_eq_zero
  | succ hops ih =>
    by_cases hne : next = 0
    · subst hne
      exact walkChain_stop_iff hle
    rw [walkChain_hop hne]
    constructor
    · rintro ⟨hchain, hown, hfile, nxt, len, hheader, hlen, htotal, h⟩
      obtain ⟨hst, ws, hws, hsum, hids, hasm⟩ := (ih htotal).mp h
      refine ⟨hst, (next, len) :: ws, ?_, ?_, ?_, ?_⟩
      · refine (passes_hop_iff hne).mpr ⟨by simp [hchain, hown], hfile, nxt, hheader, hlen, ?_⟩
        exact hws.congr fun id => by simp [or_assoc, or_left_comm]
      · simpa [Nat.add_assoc] using hsum
      · simpa using hids
      · simpa [Nat.add_assoc] using hasm
    · rintro ⟨hst, ws, hws, hsum, hids, hasm⟩
      obtain ⟨len, rest, rfl⟩ := hws.eq_cons hne
      obtain ⟨hout, hfile, nxt, hheader, hlen, hrest⟩ := (passes_hop_iff hne).mp hws
      obtain ⟨hchain, hown⟩ := not_or.mp hout
      simp only [List.map_cons, List.sum_cons] at hsum hids hasm
      refine ⟨hchain, hown, hfile, nxt, len, hheader, hlen, by omega, (ih (by omega)).mpr ?_⟩
      refine ⟨hst, rest, ?_, by omega, by simpa using hids, by omega⟩
      exact hrest.congr fun id => by simp [or_assoc, or_left_comm]

theorem assembleChain_hop {pageId : ℕ} {seen : List ℕ} {out bytes : List UInt8} (hne : next ≠ 0) :
    assembleChain pageId total (hops + 1) next seen out st = (.ok bytes, st') ↔
      next ∉ seen ∧ st.store.InFile next ∧
        ∃ nxt len, chainHeader (st.store.image next) next = .ok (nxt, len) ∧
          chainHeaderLen + len ≤ (st.store.image next).length ∧ out.length + len ≤ total ∧
          assembleChain pageId total hops nxt (next :: seen)
            (out ++ slice (st.store.image next) chainHeaderLen len) st = (.ok bytes, st') := by
  rw [assembleChain, if_neg hne, StateExcept.throwIf_bind_eq_ok_iff, StateExcept.bind_eq_ok_iff]
  refine and_congr_right fun _ => ?_
  constructor
  · rintro ⟨page, st₁, hload, h⟩
    obtain ⟨hfile, rfl, rfl⟩ := loadPage_eq_ok_iff.mp hload
    obtain ⟨⟨nxt, len⟩, hheader, h⟩ := StateExcept.fromExcept_bind_eq_ok_iff.mp h
    obtain ⟨hcheck, h⟩ := StateExcept.throwIf_bind_eq_ok_iff.mp h
    exact ⟨hfile, nxt, len, hheader, by omega, by omega, h⟩
  · rintro ⟨hfile, nxt, len, hheader, hlen, htotal, h⟩
    refine ⟨_, st, loadPage_ok hfile, ?_⟩
    refine StateExcept.fromExcept_bind_eq_ok_iff.mpr ⟨(nxt, len), hheader, ?_⟩
    exact StateExcept.throwIf_bind_eq_ok_iff.mpr ⟨by omega, h⟩

/-- The walk of the read path, up to the length check behind it. -/
theorem assembleChain_total_iff {pageId : ℕ} {seen : List ℕ} {out : List UInt8} :
    (∃ bytes, assembleChain pageId total hops next seen out st = (.ok bytes, st) ∧
      bytes.length = total) ↔
    ∃ ws, Passes st.store hops next (· ∈ seen) ws ∧
      out.length + (ws.map Prod.snd).sum = total := by
  have hstop : ∀ hops (seen : List ℕ) (out : List UInt8),
      (∃ bytes, assembleChain pageId total hops 0 seen out st = (.ok bytes, st) ∧
        bytes.length = total) ↔
      ∃ ws, Passes st.store hops 0 (· ∈ seen) ws ∧
        out.length + (ws.map Prod.snd).sum = total := by
    intro hops seen out
    have hrun : assembleChain pageId total hops 0 seen out st = (.ok out, st) := by
      cases hops <;> rw [assembleChain, if_pos rfl] <;> rfl
    rw [hrun]
    constructor
    · rintro ⟨bytes, heq, hlen⟩
      cases heq
      exact ⟨[], passes_zero_iff.mpr rfl, by simpa using hlen⟩
    · rintro ⟨ws, hws, hlen⟩
      rw [passes_zero_iff.mp hws] at hlen
      exact ⟨out, rfl, by simpa using hlen⟩
  induction hops generalizing next seen out with
  | zero =>
    by_cases hne : next = 0
    · subst hne
      exact hstop 0 seen out
    · rw [assembleChain, if_neg hne]
      refine iff_of_false (by simp) ?_
      rintro ⟨ws, hws, -⟩
      exact hne hws.next_eq_zero
  | succ hops ih =>
    by_cases hne : next = 0
    · subst hne
      exact hstop (hops + 1) seen out
    have hslice : ∀ {len : ℕ}, chainHeaderLen + len ≤ (st.store.image next).length →
        (out ++ slice (st.store.image next) chainHeaderLen len).length = out.length + len := by
      intro len hlen
      rw [List.length_append, slice, List.length_take, List.length_drop]
      omega
    constructor
    · rintro ⟨bytes, h, htotal⟩
      obtain ⟨hseen, hfile, nxt, len, hheader, hlen, -, h⟩ := (assembleChain_hop hne).mp h
      obtain ⟨ws, hws, hsum⟩ := ih.mp ⟨bytes, h, htotal⟩
      rw [hslice hlen] at hsum
      refine ⟨(next, len) :: ws, ?_, ?_⟩
      · refine (passes_hop_iff hne).mpr ⟨hseen, hfile, nxt, hheader, hlen, ?_⟩
        exact hws.congr fun id => by simp
      · simpa [Nat.add_assoc] using hsum
    · rintro ⟨ws, hws, hsum⟩
      obtain ⟨len, rest, rfl⟩ := hws.eq_cons hne
      obtain ⟨hseen, hfile, nxt, hheader, hlen, hrest⟩ := (passes_hop_iff hne).mp hws
      simp only [List.map_cons, List.sum_cons] at hsum
      have hpasses : Passes st.store hops nxt (· ∈ next :: seen) rest :=
        hrest.congr fun id => by simp
      obtain ⟨bytes, h, htotal⟩ := ih.mpr ⟨rest, hpasses, by rw [hslice hlen]; omega⟩
      exact ⟨bytes, (assembleChain_hop hne).mpr
        ⟨hseen, hfile, nxt, len, hheader, hlen, by omega, h⟩, htotal⟩

/-! ## A walk changes nothing -/

theorem loadPage_leaves {id : ℕ} : Leaves (loadPage id) st (· = st) := loadPage_state id st

theorem walkChain_leaves : Leaves (walkChain total own hops next chain assembled) st (· = st) := by
  induction hops generalizing next chain assembled with
  | zero =>
    rw [walkChain]
    split_ifs
    · exact Leaves.pure rfl
    · exact Leaves.throw rfl
  | succ hops ih =>
    rw [walkChain]
    split_ifs
    · exact Leaves.pure rfl
    refine Leaves.after_check rfl fun _ => Leaves.after_check rfl fun _ => ?_
    refine Leaves.bind loadPage_leaves (fun _ h => h) fun page st₁ h => ?_
    subst h
    refine Leaves.after_except rfl fun header => ?_
    exact Leaves.after_check rfl fun _ => ih

end Walkers

/-! ## Giving a chain back -/

variable {pageId total head inlineLen : ℕ} {content : List UInt8}

theorem releaseChain_ok {chain : List ℕ} (h : ∀ id ∈ chain, st.store.InFile id) :
    ∃ st', releaseChain chain st = (.ok (), st') := by
  induction chain generalizing st with
  | nil => exact ⟨st, rfl⟩
  | cons id chain ih =>
    have hwrite : writePage id zeroPage st = (.ok (), { st with store :=
        { st.store with image := Function.update st.store.image id zeroPage } }) := by
      rw [writePage, onStore, Store.writePage_ok (h id List.mem_cons_self)]
    rw [releaseChain, StateExcept.bind_ok hwrite]
    exact ih fun id' h' => h id' (List.mem_cons_of_mem _ h')

theorem freeChain_ok {chain : List ℕ} (committed : ℕ → Page)
    (h : ∀ id ∈ chain, st.store.InFile id) :
    ∃ st', StateExcept.forEach (freePage committed) chain st = (.ok (), st') := by
  induction chain generalizing st with
  | nil => exact ⟨st, rfl⟩
  | cons id chain ih =>
    obtain ⟨hpos, hlt⟩ := h id List.mem_cons_self
    have hfree : ∃ st₁, freePage committed id st = (.ok (), st₁) ∧
        st₁.store.numPages = st.store.numPages := by
      have hrange : ¬(id = 0 ∨ st.store.numPages ≤ id) := by omega
      rw [freePage, StateExcept.bind_apply, onStore, Store.freePage, StateExcept.read_bind,
        if_neg hrange]
      exact ⟨_, rfl, rfl⟩
    obtain ⟨st₁, hst₁, hnum⟩ := hfree
    rw [StateExcept.forEach, StateExcept.bind_ok hst₁]
    refine ih fun id' h' => ?_
    have := h id' (List.mem_cons_of_mem _ h')
    rwa [Store.InFile, hnum]

/-- What both paths do with a chain: check the total, walk it, check the length, and
only then give it back. -/
def releaseAfterWalk (total head inlineLen : ℕ) (pages : List ℕ) (tooLarge short : HeapError)
    (release : List ℕ → HeapM Unit) : HeapM Unit := do
  throwIf (maxDocSize < total) tooLarge
  let (chain, assembled) ← walkChain total pages (total / minChunk + 3) head [] 0
  throwIf (inlineLen + assembled ≠ total) short
  release chain

section Release

variable {pages : List ℕ} {tooLarge short : HeapError} {release : List ℕ → HeapM Unit}
variable (hrelease : ∀ chain, (∀ id ∈ chain, st.store.InFile id) →
  ∃ st', release chain st = (.ok (), st'))
include hrelease

theorem releaseAfterWalk_error {e : HeapError}
    (h : releaseAfterWalk total head inlineLen pages tooLarge short release st = (.error e, st')) :
    st' = st := by
  rw [releaseAfterWalk] at h
  by_cases hmax : maxDocSize < total
  · rw [StateExcept.throwIf_bind hmax] at h
    exact (Prod.mk.inj h).2.symm
  rw [StateExcept.throwIf_bind_of_not hmax, StateExcept.bind_apply] at h
  have hstate : (walkChain total pages (total / minChunk + 3) head [] 0 st).2 = st :=
    walkChain_leaves
  rcases hwalk : walkChain total pages (total / minChunk + 3) head [] 0 st with
    ⟨e' | ⟨chain, assembled⟩, st₁⟩
  · rw [hwalk] at h hstate
    exact (Prod.mk.inj h).2.symm.trans hstate
  · rw [hwalk] at h hstate
    obtain rfl : st₁ = st := hstate
    obtain ⟨-, ws, hws, -, hchain, -⟩ := (walkChain_eq_ok_iff (Nat.zero_le total)).mp hwalk
    dsimp only at h
    by_cases hshort : inlineLen + assembled ≠ total
    · rw [StateExcept.throwIf_bind hshort] at h
      exact (Prod.mk.inj h).2.symm
    · rw [StateExcept.throwIf_bind_of_not hshort] at h
      have hfile : ∀ id ∈ chain, st₁.store.InFile id := by
        intro id hid
        rw [hchain, List.nil_append] at hid
        exact hws.walks.inFile id hid
      obtain ⟨st₂, hok⟩ := hrelease chain hfile
      rw [hok] at h
      cases h

theorem releaseAfterWalk_ok_iff :
    (∃ st', releaseAfterWalk total head inlineLen pages tooLarge short release st =
        (.ok (), st')) ↔
      total ≤ maxDocSize ∧ ∃ ws, Passes st.store (total / minChunk + 3) head (· ∈ pages) ws ∧
        inlineLen + (ws.map Prod.snd).sum = total := by
  constructor
  · rintro ⟨st', h⟩
    obtain ⟨hmax, h⟩ := StateExcept.throwIf_bind_eq_ok_iff.mp h
    obtain ⟨⟨chain, assembled⟩, st₁, hwalk, h⟩ := StateExcept.bind_eq_ok_iff.mp h
    obtain ⟨hshort, -⟩ := StateExcept.throwIf_bind_eq_ok_iff.mp h
    obtain ⟨-, ws, hws, -, -, hsum⟩ := (walkChain_eq_ok_iff (Nat.zero_le total)).mp hwalk
    refine ⟨not_lt.mp hmax, ws, hws.congr fun id => by simp, ?_⟩
    rw [not_not] at hshort
    omega
  · rintro ⟨hmax, ws, hws, hsum⟩
    have hwalk : walkChain total pages (total / minChunk + 3) head [] 0 st =
        (.ok (ws.map Prod.fst, (ws.map Prod.snd).sum), st) :=
      (walkChain_eq_ok_iff (Nat.zero_le total)).mpr
        ⟨rfl, ws, hws.congr fun id => by simp, by omega, rfl, (Nat.zero_add _).symm⟩
    obtain ⟨st', hok⟩ := hrelease (ws.map Prod.fst) hws.walks.inFile
    refine ⟨st', StateExcept.throwIf_bind_eq_ok_iff.mpr ⟨not_lt.mpr hmax, ?_⟩⟩
    refine StateExcept.bind_eq_ok_iff.mpr ⟨_, st, hwalk, ?_⟩
    exact StateExcept.throwIf_bind_eq_ok_iff.mpr ⟨not_not.mpr hsum, hok⟩

end Release

/-! ## Slots -/

section Slots

variable {page : Page} {off len : ℕ}

theorem overflowSlotHeader_eq_ok {content : List UInt8} :
    overflowSlotHeader content pageId = .ok (total, head) ↔
      overflowSlotHeaderLen ≤ content.length ∧ total = Bytes.ofLE (slice content 1 4) ∧
        head = Bytes.ofLE (slice content 5 4) := by
  unfold overflowSlotHeader
  split_ifs with h
  · exact iff_of_false (by simp) fun h' => by omega
  · rw [Except.ok.injEq, Prod.mk.injEq, eq_comm (a := total), eq_comm (a := head)]
    exact (and_iff_right (not_lt.mp h)).symm

/-- The read path on an overflow slot. -/
theorem slotDocumentBytes_ok_iff (hmark : (slice page off len).head? = some overflowMark) :
    (∃ bytes, slotDocumentBytes pageId page off len st = (.ok bytes, st)) ↔
      ∃ total head, overflowSlotHeader (slice page off len) pageId = .ok (total, head) ∧
        total ≤ maxDocSize ∧ ∃ ws, Passes st.store (total / minChunk + 3) head (fun _ => False) ws ∧
          (slice page off len).length - overflowSlotHeaderLen + (ws.map Prod.snd).sum = total := by
  rw [slotDocumentBytes]
  dsimp only
  rw [if_neg (not_not.mpr hmark)]
  constructor
  · rintro ⟨bytes, h⟩
    obtain ⟨⟨total, head⟩, hheader, h⟩ := StateExcept.fromExcept_bind_eq_ok_iff.mp h
    obtain ⟨hmax, h⟩ := StateExcept.throwIf_bind_eq_ok_iff.mp h
    obtain ⟨out, st₁, hout, h⟩ := StateExcept.bind_eq_ok_iff.mp h
    obtain ⟨hlen, h⟩ := StateExcept.throwIf_bind_eq_ok_iff.mp h
    obtain ⟨rfl, rfl⟩ := StateExcept.pure_eq_ok_iff.mp h
    obtain ⟨ws, hws, hsum⟩ := assembleChain_total_iff.mp ⟨_, hout, not_not.mp hlen⟩
    rw [List.length_drop] at hsum
    exact ⟨total, head, hheader, not_lt.mp hmax, ws, hws.congr fun id => by simp, hsum⟩
  · rintro ⟨total, head, hheader, hmax, ws, hws, hsum⟩
    have hpasses : Passes st.store (total / minChunk + 3) head (· ∈ ([] : List ℕ)) ws :=
      hws.congr fun id => by simp
    have hread : ∃ bytes, assembleChain pageId total (total / minChunk + 3) head []
        ((slice page off len).drop overflowSlotHeaderLen) st = (.ok bytes, st) ∧
          bytes.length = total :=
      assembleChain_total_iff.mpr ⟨ws, hpasses, by rw [List.length_drop]; exact hsum⟩
    obtain ⟨out, hout, hlen⟩ := hread
    refine ⟨out, StateExcept.fromExcept_bind_eq_ok_iff.mpr ⟨(total, head), hheader, ?_⟩⟩
    refine StateExcept.throwIf_bind_eq_ok_iff.mpr ⟨not_lt.mpr hmax, ?_⟩
    refine StateExcept.bind_eq_ok_iff.mpr ⟨out, st, hout, ?_⟩
    exact StateExcept.throwIf_bind_eq_ok_iff.mpr ⟨not_not.mpr hlen, rfl⟩

/-- What a path that gives the pages back asks for is what the read path asks for, and
that the chain stays clear of these pages. -/
theorem walk_accepted_iff (pages : List ℕ)
    (hmark : (slice page off len).head? = some overflowMark) :
    (∃ total head, overflowSlotHeader (slice page off len) pageId = .ok (total, head) ∧
      total ≤ maxDocSize ∧ ∃ ws, Passes st.store (total / minChunk + 3) head (· ∈ pages) ws ∧
        (slice page off len).length - overflowSlotHeaderLen + (ws.map Prod.snd).sum = total) ↔
    (∃ bytes, slotDocumentBytes pageId page off len st = (.ok bytes, st)) ∧
      ∀ id ∈ slotChain st.store (slice page off len), id ∉ pages := by
  have hchain : ∀ {total head ws}, overflowSlotHeader (slice page off len) pageId =
      .ok (total, head) → Walks st.store (total / minChunk + 3) head ws →
      slotChain st.store (slice page off len) = ws.map Prod.fst := by
    intro total head ws hheader hws
    obtain ⟨-, rfl, rfl⟩ := overflowSlotHeader_eq_ok.mp hheader
    rw [slotChain, if_pos hmark, hws.chainFrom_eq]
  rw [slotDocumentBytes_ok_iff hmark]
  constructor
  · rintro ⟨total, head, hheader, hmax, ws, hws, hsum⟩
    refine ⟨⟨total, head, hheader, hmax, ws, ?_, hsum⟩, ?_⟩
    · exact ⟨hws.walks, hws.nodup, fun _ _ h => h⟩
    · rw [hchain hheader hws.walks]
      exact hws.inside
  · rintro ⟨⟨total, head, hheader, hmax, ws, hws, hsum⟩, hpages⟩
    rw [hchain hheader hws.walks] at hpages
    exact ⟨total, head, hheader, hmax, ws, ⟨hws.walks, hws.nodup, hpages⟩, hsum⟩

theorem recycleChain_eq : recycleChain head total inlineLen st =
    releaseAfterWalk total head inlineLen st.heap.pages
      (.page head "overflow chain corrupt (total exceeds max document size)")
      (.page head "overflow chain corrupt (short chain)") releaseChain st := by
  rw [recycleChain, releaseAfterWalk]
  by_cases hmax : maxDocSize < total
  · rw [StateExcept.throwIf_bind hmax, StateExcept.throwIf_bind hmax]
  · rw [StateExcept.throwIf_bind_of_not hmax, StateExcept.throwIf_bind_of_not hmax,
      StateExcept.read_bind]

/-- A slot's chain is given back whole or not at all, by a path that walks it first. -/
theorem giveBack_spec {pages : List ℕ} {giveBack : HeapM Unit} (tooLarge short : ℕ → HeapError)
    {release : List ℕ → HeapM Unit}
    (hrelease : ∀ chain, (∀ id ∈ chain, st.store.InFile id) →
      ∃ st', release chain st = (.ok (), st'))
    (hplain : (slice page off len).head? ≠ some overflowMark → giveBack st = (.ok (), st))
    (hmarked : (slice page off len).head? = some overflowMark → giveBack st =
      (do
        let (total, head) ← fromExcept (overflowSlotHeader (slice page off len) pageId)
        releaseAfterWalk total head ((slice page off len).length - overflowSlotHeaderLen) pages
          (tooLarge head) (short head) release) st) :
    (∀ e st', giveBack st = (.error e, st') → st' = st) ∧
    ((∃ st', giveBack st = (.ok (), st')) ↔
      (∃ bytes, slotDocumentBytes pageId page off len st = (.ok bytes, st)) ∧
        ∀ id ∈ slotChain st.store (slice page off len), id ∉ pages) := by
  by_cases hmark : (slice page off len).head? = some overflowMark
  · rw [← walk_accepted_iff pages hmark, hmarked hmark]
    constructor
    · intro e st' h
      rcases hheader : overflowSlotHeader (slice page off len) pageId with e' | ⟨total, head⟩
      · rw [hheader] at h
        exact (Prod.mk.inj h).2.symm
      · rw [fromExcept, StateExcept.fromExcept_bind hheader] at h
        exact releaseAfterWalk_error hrelease h
    · constructor
      · rintro ⟨st', h⟩
        obtain ⟨⟨total, head⟩, hheader, h⟩ := StateExcept.fromExcept_bind_eq_ok_iff.mp h
        exact ⟨total, head, hheader, (releaseAfterWalk_ok_iff hrelease).mp ⟨st', h⟩⟩
      · rintro ⟨total, head, hheader, h⟩
        obtain ⟨st', hst'⟩ := (releaseAfterWalk_ok_iff hrelease).mpr h
        exact ⟨st', StateExcept.fromExcept_bind_eq_ok_iff.mpr ⟨_, hheader, hst'⟩⟩
  · rw [hplain hmark]
    refine ⟨fun e st' h => (by cases h), iff_of_true ⟨st, rfl⟩ ⟨⟨slice page off len, ?_⟩, ?_⟩⟩
    · rw [slotDocumentBytes]
      dsimp only
      rw [if_pos hmark]
      rfl
    · simp [slotChain, hmark]

theorem recycleSlot_checked (st : HeapState) (pageId : ℕ) (page : Page) (off len : ℕ) :
    (∀ e st', recycleSlot pageId (slice page off len) st = (.error e, st') → st' = st) ∧
    ((∃ st', recycleSlot pageId (slice page off len) st = (.ok (), st')) ↔
      (∃ bytes, slotDocumentBytes pageId page off len st = (.ok bytes, st)) ∧
        ∀ id ∈ slotChain st.store (slice page off len), id ∉ st.heap.pages) := by
  refine giveBack_spec
    (fun head => .page head "overflow chain corrupt (total exceeds max document size)")
    (fun head => .page head "overflow chain corrupt (short chain)")
    (fun chain h => releaseChain_ok h) ?_ ?_
  · intro hmark
    rw [recycleSlot, if_neg hmark]
    rfl
  · intro hmark
    rw [recycleSlot, if_pos hmark, fromExcept]
    rcases hheader : overflowSlotHeader (slice page off len) pageId with e | ⟨total, head⟩
    · rfl
    · exact recycleChain_eq

theorem freeSlot_checked (committed : ℕ → Page) (pages : List ℕ) (st : HeapState)
    (pageId : ℕ) (page : Page) (off len : ℕ) :
    (∀ e st', freeSlot committed pages pageId (slice page off len) st = (.error e, st') →
      st' = st) ∧
    ((∃ st', freeSlot committed pages pageId (slice page off len) st = (.ok (), st')) ↔
      (∃ bytes, slotDocumentBytes pageId page off len st = (.ok bytes, st)) ∧
        ∀ id ∈ slotChain st.store (slice page off len), id ∉ pages) := by
  refine giveBack_spec
    (fun _ => .page pageId "overflow chain corrupt (total exceeds max document size)")
    (fun _ => .page pageId "overflow chain corrupt (short chain)")
    (fun chain h => freeChain_ok committed h) ?_ ?_
  · intro hmark
    rw [freeSlot, if_neg hmark]
    rfl
  · intro hmark
    rw [freeSlot, if_pos hmark]
    rfl

end Slots

/-! ## All chains of a table -/

/-- The freeing of single slots, one after the other. -/
def freeSlots (committed : ℕ → Page) (pages : List ℕ) : List (ℕ × Page × ℕ × ℕ) → HeapM Unit :=
  StateExcept.forEach fun job =>
    freeSlot committed pages job.1 (slice job.2.1 job.2.2.1 job.2.2.2)

/-- The step that stopped the freeing: a page that cannot be read or is damaged, or a
slot whose chain is refused. -/
def Refuses (committed : ℕ → Page) (pages : List ℕ) (st : HeapState) (e : HeapError) : Prop :=
  ∃ pageId ∈ pages, (do fromExcept (validatePage (← loadPage pageId) pageId)) st = (.error e, st) ∨
    ∃ page off len, freeSlot committed pages pageId (slice page off len) st = (.error e, st)

variable {committed : ℕ → Page} {pages : List ℕ} {e : HeapError}

theorem freeRegions_ok {page : Page} {regions : List (ℕ × ℕ)}
    (h : StateExcept.forEach (fun region : ℕ × ℕ =>
      if region.2 = 0 then return ()
      else freeSlot committed pages pageId (slice page region.1 region.2)) regions st =
        (.ok (), st')) :
    ∃ jobs, freeSlots committed pages jobs st = (.ok (), st') := by
  induction regions generalizing st with
  | nil =>
    cases h
    exact ⟨[], rfl⟩
  | cons region regions ih =>
    obtain ⟨_, st₁, hfirst, hrest⟩ := StateExcept.bind_eq_ok_iff.mp h
    obtain ⟨jobs, hjobs⟩ := ih hrest
    dsimp only at hfirst
    by_cases hdead : region.2 = 0
    · rw [if_pos hdead] at hfirst
      cases hfirst
      exact ⟨jobs, hjobs⟩
    · rw [if_neg hdead] at hfirst
      exact ⟨(pageId, page, region) :: jobs,
        StateExcept.bind_eq_ok_iff.mpr ⟨(), st₁, hfirst, hjobs⟩⟩

theorem freePageSlots_ok (h : freePageSlots committed pages pageId st = (.ok (), st')) :
    ∃ jobs, freeSlots committed pages jobs st = (.ok (), st') := by
  obtain ⟨page, st₁, hload, h⟩ := StateExcept.bind_eq_ok_iff.mp h
  obtain ⟨-, rfl, rfl⟩ := loadPage_eq_ok_iff.mp hload
  obtain ⟨_, -, h⟩ := StateExcept.fromExcept_bind_eq_ok_iff.mp h
  exact freeRegions_ok h

theorem freePages_ok {ids : List ℕ}
    (h : StateExcept.forEach (freePageSlots committed pages) ids st = (.ok (), st')) :
    ∃ jobs, freeSlots committed pages jobs st = (.ok (), st') := by
  induction ids generalizing st with
  | nil =>
    cases h
    exact ⟨[], rfl⟩
  | cons id ids ih =>
    obtain ⟨_, st₁, hfirst, hrest⟩ := StateExcept.bind_eq_ok_iff.mp h
    obtain ⟨jobs, hjobs⟩ := freePageSlots_ok hfirst
    obtain ⟨more, hmore⟩ := ih hrest
    exact ⟨jobs ++ more, StateExcept.forEach_append hjobs hmore⟩

theorem freePageSlots_error (hid : pageId ∈ pages)
    (h : freePageSlots committed pages pageId st = (.error e, st')) :
    ∃ jobs, freeSlots committed pages jobs st = (.ok (), st') ∧ Refuses committed pages st' e := by
  have hstate := loadPage_state pageId st
  rcases hload : loadPage pageId st with ⟨e' | page, st₁⟩
  · rw [hload] at hstate
    obtain rfl : st₁ = st := hstate
    rw [freePageSlots, StateExcept.bind_error hload] at h
    cases h
    exact ⟨[], rfl, pageId, hid, .inl (StateExcept.bind_error hload)⟩
  · rw [hload] at hstate
    obtain rfl : st₁ = st := hstate
    rw [freePageSlots, StateExcept.bind_ok hload] at h
    rcases hvalid : validatePage page pageId with e' | _
    · rw [hvalid] at h
      cases h
      refine ⟨[], rfl, pageId, hid, .inl ?_⟩
      rw [StateExcept.bind_ok hload, hvalid]
      rfl
    · rw [fromExcept, StateExcept.fromExcept_bind hvalid] at h
      obtain ⟨done, region, rest, st₂, -, hdone, hfail⟩ := StateExcept.forEach_error h
      obtain ⟨jobs, hjobs⟩ := freeRegions_ok hdone
      split_ifs at hfail
      · cases hfail
      · have hsame := (freeSlot_checked committed pages st₂ pageId page region.1 region.2).1 e st'
          hfail
        subst hsame
        exact ⟨jobs, hjobs, pageId, hid, .inr ⟨page, region.1, region.2, hfail⟩⟩

/-- An error leaves the chains freed before it, each of them whole, and nothing else. -/
theorem freeOverflowChains_error
    (h : freeOverflowChains committed pages st = (.error e, st')) :
    ∃ jobs, freeSlots committed pages jobs st = (.ok (), st') ∧ Refuses committed pages st' e := by
  obtain ⟨done, id, rest, st₁, hpages, hdone, hfail⟩ := StateExcept.forEach_error h
  obtain ⟨jobs, hjobs⟩ := freePages_ok hdone
  have hid : id ∈ pages := by
    rw [hpages]
    simp
  obtain ⟨more, hmore, hrefuses⟩ := freePageSlots_error hid hfail
  exact ⟨jobs ++ more, StateExcept.forEach_append hjobs hmore, hrefuses⟩

/-- Page 2 is a chain page that links to itself. -/
def cyclic : HeapState :=
  { store := { image := fun _ => chainMark :: (Bytes.toLE 4 2 ++ Bytes.toLE 2 0)
               reusable := []
               numPages := 3 }
    heap := { pages := [1] } }

end Heap

end Docsql
