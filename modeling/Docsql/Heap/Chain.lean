import Docsql.Heap.Store
import Docsql.Heap.PageImage
import Docsql.EncodeRoundTrip

/-!
# Slots and overflow chains

`SlotOk s r`: the slot content `r.content` and the chain pages `r.chain` hold the
encoded document `r.bytes` in the store `s`.  Reading the slot returns the bytes,
and walking its chain returns its pages.
-/

namespace Docsql.Heap

/-- One slot of a page.  A slot that is not live is about to be removed: its
content is still on the page, its chain no longer belongs to it. -/
structure SlotRep where
  doc : Doc
  bytes : List UInt8
  content : List UInt8
  chain : List ℕ
  live : Bool

/-- The chain pages hold the parts, each linked to the next. -/
def Linked (s : Store) : List (List UInt8) → List ℕ → Prop
  | [], [] => True
  | part :: parts, id :: ids =>
    s.image id = chainPage (ids.headD 0) part ∧ part.length ≤ minChunk ∧ Linked s parts ids
  | _, _ => False

/-- Content of an overflow slot with its first bytes inline. -/
def overflowContent (bytes : List UInt8) (head inlineLen : ℕ) : List UInt8 :=
  overflowMark :: (Bytes.toLE 4 bytes.length ++ (Bytes.toLE 4 head ++ bytes.take inlineLen))

inductive Stored (s : Store) : List UInt8 → List UInt8 → List ℕ → Prop
  | plain (bytes : List UInt8) : Stored s bytes bytes []
  | overflow {bytes : List UInt8} {parts : List (List UInt8)} {chain : List ℕ} (inlineLen : ℕ)
      (hrest : bytes.drop inlineLen = parts.flatten) (hlinked : Linked s parts chain)
      (hhops : chain.length ≤ bytes.length / minChunk + 3) :
      Stored s bytes (overflowContent bytes (chain.headD 0) inlineLen) chain

structure SlotOk (codec : DecimalCodec) (s : Store) (r : SlotRep) : Prop where
  wf : (Value.object r.doc).WF
  encoded : encodeDoc codec r.doc = .ok r.bytes
  stored : Stored s r.bytes r.content r.chain

variable {codec : DecimalCodec} {s s' : Store} {st : HeapState} {r : SlotRep}
variable {parts : List (List UInt8)} {chain : List ℕ} {bytes content : List UInt8}

/-! ## Encoded documents -/

theorem encodeDoc_eq_ok {doc : Doc} : encodeDoc codec doc = .ok bytes ↔
    encode codec (.object doc) = .ok bytes ∧ bytes.length ≤ maxDocSize := by
  rw [encodeDoc, encodeObject_eq]
  cases encode codec (.object doc) with
  | error e => simp
  | ok bs =>
      simp only [Except.ok.injEq]
      split_ifs with h
      · refine iff_of_false (by simp) ?_
        rintro ⟨rfl, h'⟩
        omega
      · rw [Except.ok.injEq]
        refine ⟨?_, fun h' => h'.1⟩
        rintro rfl
        exact ⟨rfl, by omega⟩

/-- An encoded object starts with its tag. -/
theorem encodeDoc_head {doc : Doc} (h : encodeDoc codec doc = .ok bytes) :
    bytes.head? = some 7 ∧ 0 < bytes.length := by
  have hwire := encodeAt_eq_wire codec (.object doc) (encodeDoc_eq_ok.mp h).1
  rw [hwire, wire]
  exact ⟨rfl, Nat.succ_pos _⟩

theorem decodeDoc_encodeDoc {doc : Doc} (hwf : (Value.object doc).WF)
    (h : encodeDoc codec doc = .ok bytes) (id : ℕ) : decodeDoc codec id bytes = .ok doc := by
  have hdec := decodePrefix_of_encode hwf (encodeDoc_eq_ok.mp h).1 []
  rw [List.append_nil] at hdec
  rw [decodeDoc, hdec]
  simp

/-! ## Chain pages -/

theorem chainPage_slices (next : ℕ) (part : List UInt8) :
    slice (chainPage next part) 1 4 = Bytes.toLE 4 next ∧
    slice (chainPage next part) 5 2 = Bytes.toLE 2 part.length ∧
    slice (chainPage next part) 7 part.length = part := by
  refine ⟨?_, ?_, ?_⟩
  · rw [slice, chainPage, List.drop_succ_cons, List.drop_zero,
      List.take_left' (Bytes.length_toLE 4 _)]
  · rw [slice, chainPage, List.drop_succ_cons, List.drop_left' (Bytes.length_toLE 4 _),
      List.take_left' (Bytes.length_toLE 2 _)]
  · rw [slice, chainPage, List.drop_succ_cons, show 6 = 4 + 2 from rfl, ← List.drop_drop,
      List.drop_left' (Bytes.length_toLE 4 _), List.drop_left' (Bytes.length_toLE 2 _),
      List.take_left' rfl]

theorem length_chainPage (next : ℕ) {part : List UInt8} (h : part.length ≤ minChunk) :
    (chainPage next part).length = pageSize := by
  simp [chainPage, minChunk, chainHeaderLen, pageSize] at *
  omega

theorem chainHeader_chainPage {next : ℕ} {part : List UInt8} (hnext : next < 2 ^ 32)
    (h : part.length ≤ minChunk) (id : ℕ) :
    chainHeader (chainPage next part) id = .ok (next, part.length) := by
  have hlen : part.length < 256 ^ 2 := by
    have : minChunk < 256 ^ 2 := by decide
    omega
  obtain ⟨h₁, h₂, -⟩ := chainPage_slices next part
  rw [chainHeader, if_neg (by simp [chainPage]), h₁, h₂, Bytes.ofLE_toLE hnext,
    Bytes.ofLE_toLE hlen]

theorem loadPage_ok {id : ℕ} (h : st.store.InFile id) :
    loadPage id st = (.ok (st.store.image id), st) := by
  rw [loadPage, onStore, Store.readPage_ok h]

/-- Chain pages lie in the file, each once. -/
structure ChainIds (s : Store) (chain : List ℕ) : Prop where
  lt : s.numPages < 2 ^ 32
  inFile : ∀ id ∈ chain, s.InFile id
  nodup : chain.Nodup

theorem ChainIds.tail {id : ℕ} (h : ChainIds s (id :: chain)) : ChainIds s chain :=
  ⟨h.lt, fun id' h' => h.inFile id' (List.mem_cons_of_mem _ h'), h.nodup.of_cons⟩

theorem ChainIds.headD_lt (h : ChainIds s chain) : chain.headD 0 < 2 ^ 32 := by
  cases chain with
  | nil => norm_num
  | cons id chain =>
      have := (h.inFile id List.mem_cons_self).2
      have := h.lt
      simp only [List.headD_cons]
      omega

/-- What one hop of either walk reads. -/
theorem hop_linked {part : List UInt8} {id : ℕ} (hids : ChainIds st.store (id :: chain))
    (hlinked : Linked st.store (part :: parts) (id :: chain)) :
    ∃ page, loadPage id st = (.ok page, st) ∧
      chainHeader page id = .ok (chain.headD 0, part.length) ∧
      chainHeaderLen + part.length ≤ page.length ∧
      slice page chainHeaderLen part.length = part := by
  obtain ⟨himage, hpart, -⟩ := hlinked
  refine ⟨_, loadPage_ok (hids.inFile id List.mem_cons_self), ?_, ?_, ?_⟩
  · rw [himage, chainHeader_chainPage hids.tail.headD_lt hpart]
  · rw [himage, length_chainPage _ hpart]
    unfold minChunk chainHeaderLen pageSize at *
    omega
  · rw [himage]
    exact (chainPage_slices _ part).2.2

theorem assembleChain_linked (pageId : ℕ) {total fuel : ℕ} {seen : List ℕ} {out : List UInt8}
    (hids : ChainIds st.store chain) (hlinked : Linked st.store parts chain)
    (hseen : ∀ id ∈ chain, id ∉ seen) (hfuel : chain.length ≤ fuel)
    (htotal : out.length + parts.flatten.length ≤ total) :
    assembleChain pageId total fuel (chain.headD 0) seen out st =
      (.ok (out ++ parts.flatten), st) := by
  induction chain generalizing parts fuel seen out with
  | nil =>
      cases parts with
      | nil =>
          cases fuel <;> simp [assembleChain]
      | cons part parts => exact hlinked.elim
  | cons id chain ih =>
      cases parts with
      | nil => exact hlinked.elim
      | cons part parts =>
          obtain ⟨page, hload, hheader, hlen, hslice⟩ := hop_linked hids hlinked
          obtain ⟨fuel, rfl⟩ : ∃ f, fuel = f + 1 :=
            ⟨fuel - 1, by rw [List.length_cons] at hfuel; omega⟩
          have hid : id ≠ 0 := (hids.inFile id List.mem_cons_self).1.ne'
          rw [List.flatten_cons, List.length_append] at htotal
          have hnext : assembleChain pageId total fuel (chain.headD 0) (id :: seen) (out ++ part)
              st = (.ok ((out ++ part) ++ parts.flatten), st) := ih hids.tail hlinked.2.2
            (by
              intro id' h' hmem
              rcases List.mem_cons.mp hmem with rfl | hmem
              · exact (List.nodup_cons.mp hids.nodup).1 h'
              · exact hseen id' (List.mem_cons_of_mem _ h') hmem)
            (by rw [List.length_cons] at hfuel; omega)
            (by rw [List.length_append]; omega)
          rw [List.headD_cons, assembleChain, if_neg hid,
            StateExcept.throwIf_bind_of_not (hseen id List.mem_cons_self),
            StateExcept.bind_ok hload, fromExcept, StateExcept.fromExcept_bind hheader]
          simp only
          rw [StateExcept.throwIf_bind_of_not (by omega), hslice, hnext, List.flatten_cons,
            List.append_assoc]

theorem walkChain_linked {total fuel assembled : ℕ} {own walked : List ℕ}
    (hids : ChainIds st.store chain) (hlinked : Linked st.store parts chain)
    (hown : ∀ id ∈ chain, id ∉ own) (hwalked : ∀ id ∈ chain, id ∉ walked)
    (hfuel : chain.length ≤ fuel) (htotal : assembled + parts.flatten.length ≤ total) :
    walkChain total own fuel (chain.headD 0) walked assembled st =
      (.ok (walked ++ chain, assembled + parts.flatten.length), st) := by
  induction chain generalizing parts fuel walked assembled with
  | nil =>
      cases parts with
      | nil =>
          cases fuel <;> simp [walkChain]
      | cons part parts => exact hlinked.elim
  | cons id chain ih =>
      cases parts with
      | nil => exact hlinked.elim
      | cons part parts =>
          obtain ⟨page, hload, hheader, hlen, -⟩ := hop_linked hids hlinked
          obtain ⟨fuel, rfl⟩ : ∃ f, fuel = f + 1 :=
            ⟨fuel - 1, by rw [List.length_cons] at hfuel; omega⟩
          have hid : id ≠ 0 := (hids.inFile id List.mem_cons_self).1.ne'
          rw [List.flatten_cons, List.length_append] at htotal
          have hnext : walkChain total own fuel (chain.headD 0) (walked ++ [id])
              (assembled + part.length) st = (.ok ((walked ++ [id]) ++ chain,
                assembled + part.length + parts.flatten.length), st) := ih hids.tail hlinked.2.2
            (fun id' h' => hown id' (List.mem_cons_of_mem _ h'))
            (by
              intro id' h' hmem
              rcases List.mem_append.mp hmem with hmem | hmem
              · exact hwalked id' (List.mem_cons_of_mem _ h') hmem
              · rw [List.mem_singleton.mp hmem] at h'
                exact (List.nodup_cons.mp hids.nodup).1 h')
            (by rw [List.length_cons] at hfuel; omega) (by omega)
          rw [List.headD_cons, walkChain, if_neg hid,
            StateExcept.throwIf_bind_of_not (hwalked id List.mem_cons_self),
            StateExcept.throwIf_bind_of_not (hown id List.mem_cons_self),
            StateExcept.bind_ok hload, fromExcept, StateExcept.fromExcept_bind hheader]
          simp only
          rw [StateExcept.throwIf_bind_of_not (by omega), hnext, List.flatten_cons,
            List.length_append, List.append_assoc, Nat.add_assoc]
          rfl

/-! ## Overflow slots -/

theorem overflowSlotHeader_content {head inlineLen : ℕ} (hbytes : bytes.length < 2 ^ 32)
    (hhead : head < 2 ^ 32) (id : ℕ) :
    overflowSlotHeader (overflowContent bytes head inlineLen) id = .ok (bytes.length, head) := by
  have h₁ : slice (overflowContent bytes head inlineLen) 1 4 = Bytes.toLE 4 bytes.length := by
    rw [slice, overflowContent, List.drop_succ_cons, List.drop_zero,
      List.take_left' (Bytes.length_toLE 4 _)]
  have h₂ : slice (overflowContent bytes head inlineLen) 5 4 = Bytes.toLE 4 head := by
    rw [slice, overflowContent, List.drop_succ_cons, List.drop_left' (Bytes.length_toLE 4 _),
      List.take_left' (Bytes.length_toLE 4 _)]
  have hlen : ¬(overflowContent bytes head inlineLen).length < overflowSlotHeaderLen := by
    simp [overflowContent, overflowSlotHeaderLen]
    omega
  rw [overflowSlotHeader, if_neg hlen, h₁, h₂, Bytes.ofLE_toLE hbytes, Bytes.ofLE_toLE hhead]

theorem overflowContent_drop (head inlineLen : ℕ) :
    (overflowContent bytes head inlineLen).drop overflowSlotHeaderLen = bytes.take inlineLen := by
  rw [overflowContent, overflowSlotHeaderLen, List.drop_succ_cons, show 8 = 4 + 4 from rfl,
    ← List.drop_drop, List.drop_left' (Bytes.length_toLE 4 _),
    List.drop_left' (Bytes.length_toLE 4 _)]

theorem maxDocSize_lt : maxDocSize < 2 ^ 32 := by decide

/-- Inline bytes and chain make up the document. -/
theorem take_append_parts {inlineLen : ℕ} (hrest : bytes.drop inlineLen = parts.flatten) :
    bytes.take inlineLen ++ parts.flatten = bytes := by
  rw [← hrest, List.take_append_drop]

theorem SlotOk.nonempty (h : SlotOk codec s r) : 0 < r.content.length := by
  obtain ⟨-, hencoded, hstored⟩ := h
  have hlen := (encodeDoc_head hencoded).2
  generalize r.bytes = bytes at *
  generalize r.content = content at *
  generalize r.chain = chain at *
  cases hstored with
  | plain => exact hlen
  | overflow => exact Nat.succ_pos _

/-- Reading a slot returns the encoded document. -/
theorem SlotOk.read (h : SlotOk codec st.store r) (hids : ChainIds st.store r.chain)
    {page : Page} {pageId off : ℕ} (hslice : slice page off r.content.length = r.content) :
    slotDocumentBytes pageId page off r.content.length st = (.ok r.bytes, st) := by
  obtain ⟨-, hencoded, hstored⟩ := h
  have hhead := (encodeDoc_head hencoded).1
  have hmax := (encodeDoc_eq_ok.mp hencoded).2
  have hlt := maxDocSize_lt
  rw [slotDocumentBytes]
  simp only [hslice]
  generalize r.bytes = bytes at *
  generalize r.content = content at *
  generalize r.chain = chain at *
  cases hstored with
  | plain =>
      rw [if_pos]
      · rfl
      · rw [hhead]
        decide
  | @overflow parts _ inlineLen hrest hlinked hhops =>
      have hsum := take_append_parts hrest
      rw [if_neg (by simp [overflowContent]), fromExcept, StateExcept.fromExcept_bind
        (overflowSlotHeader_content (by omega) hids.headD_lt pageId)]
      simp only
      rw [StateExcept.throwIf_bind_of_not (by omega), overflowContent_drop]
      have hassemble : assembleChain pageId bytes.length (bytes.length / minChunk + 3)
          (chain.headD 0) [] (bytes.take inlineLen) st =
          (.ok (bytes.take inlineLen ++ parts.flatten), st) :=
        assembleChain_linked pageId hids hlinked (by simp) hhops
          (by rw [← List.length_append, hsum])
      rw [hsum] at hassemble
      rw [StateExcept.bind_ok hassemble, StateExcept.throwIf_bind_of_not (by simp)]
      rfl

end Docsql.Heap
