import Docsql.BTree.Node
import Docsql.Lib.BPlusTreeLookup

/-!
# A written node page reads back

Decoding a page `write_node` built returns the node, and the readers that look
at single cells of the page see the same keys and payloads.
-/

namespace Docsql.BTree

open BPlusTree (partitionPoint lower upper)

variable {codec : DecimalCodec} {α : Type} {p : Payload α} {page : Page}

theorem encodeKey_eq_ok {k : Value} {kb : List UInt8} :
    encodeKey codec k = .ok kb ↔ encode codec k = .ok kb := by
  unfold encodeKey
  cases encode codec k <;> simp

theorem decodeKey_encode {k : Value} {kb : List UInt8} (hwf : k.WF)
    (h : encode codec k = .ok kb) : decodeKey codec kb kb.length = .ok k := by
  have hdec := decodePrefix_of_encode hwf h []
  rw [List.append_nil] at hdec
  simp [decodeKey, hdec]

theorem takeOr_middle (msg : String) (pre mid post : List UInt8) :
    takeOr msg (pre ++ (mid ++ post)) pre.length mid.length = .ok mid := by
  simp [takeOr]

/-- A byte range given by the lengths around it. -/
theorem takeOr_eq {msg : String} (pre post : List UInt8) {mid : List UInt8} {pos n : ℕ}
    (hpage : page = pre ++ (mid ++ post)) (hpos : pos = pre.length) (hn : n = mid.length) :
    takeOr msg page pos n = .ok mid := by
  rw [hpage, hpos, hn]
  exact takeOr_middle msg pre mid post

/-! ## Cells at a position -/

/-- The cell `(k, v)` starts at `pos` and its key takes `klen` bytes. -/
def CellAt (codec : DecimalCodec) (p : Payload α) (page : Page) (pos klen : ℕ)
    (c : Value × α) : Prop :=
  ∃ pre kb post, encode codec c.1 = .ok kb ∧ kb.length = klen ∧ klen < 2 ^ 16 ∧
    pre.length = pos ∧ page = pre ++ (Bytes.toLE 2 klen ++ (kb ++ (p.toBytes c.2 ++ post)))

/-- The cells lie one after the other from `pos` to `stop`. -/
def CellsAt (codec : DecimalCodec) (p : Payload α) (page : Page) :
    ℕ → ℕ → List (Value × α) → Prop
  | pos, stop, [] => pos = stop ∧ stop ≤ page.length
  | pos, stop, c :: cells =>
    ∃ klen, CellAt codec p page pos klen c ∧
      CellsAt codec p page (pos + 2 + klen + p.width) stop cells

theorem CellAt.takeOr_len {pos klen : ℕ} {c : Value × α} {msg : String}
    (h : CellAt codec p page pos klen c) :
    takeOr msg page pos 2 = .ok (Bytes.toLE 2 klen) := by
  obtain ⟨pre, kb, post, -, -, -, hpos, hpage⟩ := h
  exact takeOr_eq pre _ hpage hpos.symm (Bytes.length_toLE 2 klen).symm

theorem CellAt.ofLE_len {pos klen : ℕ} {c : Value × α} (h : CellAt codec p page pos klen c) :
    Bytes.ofLE (Bytes.toLE 2 klen) = klen := by
  obtain ⟨pre, kb, post, -, -, hlt, -, -⟩ := h
  exact Bytes.ofLE_toLE hlt

theorem CellAt.takeOr_key {pos klen : ℕ} {c : Value × α} (msg : String) (hwf : c.1.WF)
    (h : CellAt codec p page pos klen c) :
    ∃ kb, takeOr msg page (pos + 2) klen = .ok kb ∧ decodeKey codec kb klen = .ok c.1 := by
  obtain ⟨pre, kb, post, henc, rfl, hlt, hpos, hpage⟩ := h
  refine ⟨kb, ?_, decodeKey_encode hwf henc⟩
  refine takeOr_eq (pre ++ Bytes.toLE 2 kb.length) (p.toBytes c.2 ++ post) ?_ ?_ rfl
  · rw [hpage, List.append_assoc]
  · simp [hpos]

theorem CellAt.takeOr_payload {pos klen : ℕ} {c : Value × α} {msg : String}
    (h : CellAt codec p page pos klen c) :
    takeOr msg page (pos + 2 + klen) p.width = .ok (p.toBytes c.2) := by
  obtain ⟨pre, kb, post, -, rfl, -, hpos, hpage⟩ := h
  refine takeOr_eq (pre ++ (Bytes.toLE 2 kb.length ++ kb)) post ?_ ?_
    (p.length_toBytes c.2).symm
  · rw [hpage, List.append_assoc, List.append_assoc]
  · simp [hpos]
    omega

/-- The cells `write_node` puts into a page. -/
theorem writeCells_cellsAt {cells : List (Value × α)} {pos : ℕ} {body : List UInt8}
    (h : writeCells codec p cells pos = .ok body) (pre post : List UInt8) (hpos : pre.length = pos) :
    CellsAt codec p (pre ++ (body ++ post)) pos (pos + body.length) cells := by
  induction cells generalizing pos body pre with
  | nil =>
      cases h
      simp [CellsAt, hpos]
  | cons c cells ih =>
      obtain ⟨k, v⟩ := c
      obtain ⟨kb, hkb, h⟩ := Except.bind_eq_ok_iff.mp h
      by_cases hlen : 2 ^ 16 ≤ kb.length
      · simp only [hlen, if_true] at h
        cases h
      by_cases hroom : pageSize < pos + 2 + kb.length + p.width
      · simp only [hlen, hroom, if_true, if_false] at h
        cases h
      simp only [hlen, hroom, if_false] at h
      obtain ⟨rest, hrest, h⟩ := Except.bind_eq_ok_iff.mp h
      cases h
      refine ⟨kb.length, ⟨pre, kb, rest ++ post, encodeKey_eq_ok.mp hkb, rfl, by omega, hpos, ?_⟩, ?_⟩
      · simp
      · have hlen' : (pre ++ (Bytes.toLE 2 kb.length ++ (kb ++ p.toBytes v))).length =
            pos + 2 + kb.length + p.width := by
          simp [p.length_toBytes, hpos]
          omega
        have hnext := ih hrest _ hlen'
        have hstop : pos + 2 + kb.length + p.width + rest.length =
            pos + (Bytes.toLE 2 kb.length ++ (kb ++ (p.toBytes v ++ rest))).length := by
          simp [p.length_toBytes]
          omega
        rw [hstop] at hnext
        simpa using hnext

/-- How much room the cells take. -/
theorem writeCells_length {cells : List (Value × α)} {pos : ℕ} {body : List UInt8}
    (h : writeCells codec p cells pos = .ok body) (hpos : pos ≤ pageSize) :
    pos + body.length ≤ pageSize ∧ cells.length * 2 ≤ body.length := by
  induction cells generalizing pos body with
  | nil =>
      cases h
      simpa using hpos
  | cons c cells ih =>
      obtain ⟨k, v⟩ := c
      obtain ⟨kb, hkb, h⟩ := Except.bind_eq_ok_iff.mp h
      by_cases hlen : 2 ^ 16 ≤ kb.length
      · simp only [hlen, if_true] at h
        cases h
      by_cases hroom : pageSize < pos + 2 + kb.length + p.width
      · simp only [hlen, hroom, if_true, if_false] at h
        cases h
      simp only [hlen, hroom, if_false] at h
      obtain ⟨rest, hrest, h⟩ := Except.bind_eq_ok_iff.mp h
      cases h
      obtain ⟨hbody, hcount⟩ := ih hrest (not_lt.mp hroom)
      simp only [List.length_append, Bytes.length_toLE, p.length_toBytes, List.length_cons]
      omega

theorem readCells_of_cellsAt {cells : List (Value × α)} {pos stop : ℕ}
    (hwf : ∀ c ∈ cells, c.1.WF) (hvalid : ∀ c ∈ cells, p.valid c.2)
    (h : CellsAt codec p page pos stop cells) :
    readCells codec p page cells.length pos = .ok cells := by
  induction cells generalizing pos with
  | nil => rfl
  | cons c cells ih =>
      obtain ⟨klen, hcell, htail⟩ := h
      obtain ⟨kb, hkb, hdec⟩ := hcell.takeOr_key "truncated node cell" (hwf c (by simp))
      have hrest := ih (fun c hc => hwf c (by simp [hc])) (fun c hc => hvalid c (by simp [hc])) htail
      rw [List.length_cons, readCells, Except.bind_of_ok hcell.takeOr_len]
      simp only [hcell.ofLE_len]
      rw [Except.bind_of_ok hkb, Except.bind_of_ok hdec, Except.bind_of_ok hcell.takeOr_payload,
        Except.bind_of_ok hrest, p.ofBytes_toBytes c.2 (hvalid c (by simp))]
      rfl

/-- The boundary scan finds every cell. -/
theorem startsLoop_of_cellsAt {cells : List (Value × α)} {pos stop : ℕ}
    (h : CellsAt codec p page pos stop cells) :
    ∃ starts, startsLoop page p.width cells.length pos = .ok (starts, stop) ∧
      starts.length = cells.length ∧ stop ≤ page.length ∧
      ∀ i c, cells[i]? = some c → ∃ klen, CellAt codec p page (starts.getD i 0) klen c := by
  induction cells generalizing pos with
  | nil =>
      obtain ⟨rfl, hstop⟩ := h
      exact ⟨[], rfl, rfl, hstop, by simp⟩
  | cons c cells ih =>
      obtain ⟨klen, hcell, htail⟩ := h
      obtain ⟨starts, hloop, hlen, hstop, hat⟩ := ih htail
      refine ⟨pos :: starts, ?_, by simp [hlen], hstop, ?_⟩
      · rw [List.length_cons, startsLoop, Except.bind_of_ok hcell.takeOr_len]
        simp only [hcell.ofLE_len]
        rw [Except.bind_of_ok hloop]
        rfl
      · intro i d hd
        cases i with
        | zero =>
            obtain rfl : c = d := by simpa using hd
            exact ⟨klen, hcell⟩
        | succ i => simpa using hat i d (by simpa using hd)

theorem decodeKeyAt_of_cellAt {pos klen : ℕ} {c : Value × α} (hwf : c.1.WF)
    (h : CellAt codec p page pos klen c) : decodeKeyAt codec page pos = .ok c.1 := by
  obtain ⟨kb, hkb, hdec⟩ := h.takeOr_key "truncated node page" hwf
  rw [decodeKeyAt, Except.bind_of_ok h.takeOr_len, h.ofLE_len, Except.bind_of_ok hkb]
  exact hdec

theorem payloadAt_of_cellAt {pos klen : ℕ} {c : Value × α} (hvalid : p.valid c.2)
    (h : CellAt codec p page pos klen c) : payloadAt p page pos = .ok c.2 := by
  rw [payloadAt, Except.bind_of_ok h.takeOr_len, h.ofLE_len, Except.bind_of_ok h.takeOr_payload,
    p.ofBytes_toBytes c.2 hvalid]
  rfl

/-! ## Whole pages -/

/-- The bytes of an encoded key. -/
def keyLen (codec : DecimalCodec) (k : Value) : ℕ :=
  match encode codec k with
  | .ok kb => kb.length
  | .error _ => 0

theorem keyLen_of_ok {k : Value} {kb : List UInt8} (h : encode codec k = .ok kb) :
    keyLen codec k = kb.length := by
  simp [keyLen, h]

/-- The serialized size of a node with the given header and payload width. -/
def nodeSize (codec : DecimalCodec) (header payload : ℕ) (keys : List Value) : ℕ :=
  header + (keys.map fun k => 2 + keyLen codec k + payload).sum

theorem nodeSize_cons (header payload : ℕ) (k : Value) (keys : List Value) :
    nodeSize codec header payload (k :: keys) =
      nodeSize codec (header + 2 + keyLen codec k + payload) payload keys := by
  simp [nodeSize]
  omega

/-- Cells that fit the page are written. -/
theorem writeCells_of_fits {cells : List (Value × α)} {pos : ℕ}
    (henc : ∀ c ∈ cells, ∃ kb, encode codec c.1 = .ok kb)
    (hfits : nodeSize codec pos p.width (cells.map Prod.fst) ≤ pageSize) :
    ∃ body, writeCells codec p cells pos = .ok body := by
  induction cells generalizing pos with
  | nil => exact ⟨[], rfl⟩
  | cons c cells ih =>
      obtain ⟨k, v⟩ := c
      obtain ⟨kb, hkb⟩ := henc (k, v) (by simp)
      rw [List.map_cons, nodeSize_cons, keyLen_of_ok hkb] at hfits
      obtain ⟨rest, hrest⟩ := ih (fun c hc => henc c (by simp [hc])) hfits
      have hroom : pos + 2 + kb.length + p.width ≤ pageSize :=
        (Nat.le_add_right _ _).trans hfits
      have hlen : ¬2 ^ 16 ≤ kb.length := by
        have : pageSize = 4096 := rfl
        omega
      refine ⟨Bytes.toLE 2 kb.length ++ (kb ++ (p.toBytes v ++ rest)), ?_⟩
      rw [writeCells, Except.bind_of_ok (encodeKey_eq_ok.mpr hkb)]
      simp only [hlen, not_lt.mpr hroom, if_false]
      rw [Except.bind_of_ok hrest]
      rfl

/-- The keys are well formed and the child ids fit their field. -/
def Node.Ok : Node → Prop
  | .leaf cells => ∀ c ∈ cells, c.1.WF
  | .internal leftmost cells => leftmost < 2 ^ 32 ∧ ∀ c ∈ cells, c.1.WF ∧ c.2 < 2 ^ 32

theorem padded_eq (head body : List UInt8) :
    padded (head ++ body) =
      head ++ (body ++ List.replicate (pageSize - (head ++ body).length) 0) := by
  simp [padded]

/-- What the readers see of a written leaf. -/
theorem leaf_page {cells : List (Value × UInt64)} (hok : (Node.leaf cells).Ok)
    (h : nodeImage codec (.leaf cells) = .ok page) :
    decodeNode codec page = .ok (.leaf cells) ∧
      ∃ starts, nodeStarts page = .ok (leafKind, none, starts) ∧ starts.length = cells.length ∧
        ∀ i c, cells[i]? = some c → ∃ klen, CellAt codec locator page (starts.getD i 0) klen c := by
  obtain ⟨body, hbody, h⟩ := Except.bind_eq_ok_iff.mp h
  obtain ⟨hroom, hcount⟩ := writeCells_length hbody (by decide)
  have hlt : cells.length < 256 ^ 2 := by
    have : pageSize = 4096 := rfl
    omega
  obtain ⟨post, hpage⟩ : ∃ post, page = (leafKind :: Bytes.toLE 2 cells.length) ++ (body ++ post) := by
    cases h
    exact ⟨_, padded_eq (leafKind :: Bytes.toLE 2 cells.length) body⟩
  have hcells := writeCells_cellsAt hbody (leafKind :: Bytes.toLE 2 cells.length) post (by simp)
  rw [← hpage] at hcells
  have hlen : takeOr "truncated node page" page 1 2 = .ok (Bytes.toLE 2 cells.length) :=
    takeOr_eq [leafKind] (body ++ post) (by rw [hpage]; simp) rfl (by simp)
  constructor
  · have hdrop : (page.drop 1).take 2 = Bytes.toLE 2 cells.length := by
      rw [hpage]
      simp
    have hhead : page.headD 0 = leafKind := by
      rw [hpage]
      rfl
    rw [decodeNode, hhead, hdrop, Bytes.ofLE_toLE hlt]
    simp only [if_true]
    rw [Except.bind_of_ok (readCells_of_cellsAt hok (fun _ _ => trivial) hcells)]
    rfl
  · obtain ⟨starts, hloop, hslen, hstop, hat⟩ := startsLoop_of_cellsAt hcells
    refine ⟨starts, ?_, hslen, hat⟩
    have hkind : firstByte page = .ok leafKind := by
      rw [hpage]
      rfl
    rw [nodeStarts, Except.bind_of_ok hkind]
    simp only [ne_eq, not_true_eq_false, false_and, if_false]
    rw [Except.bind_of_ok hlen, Bytes.ofLE_toLE hlt, if_neg (by decide), Except.bind_of_ok hloop]
    simp only [not_lt.mpr hstop, if_false]
    rfl

/-- What the readers see of a written internal node. -/
theorem internal_page {leftmost : ℕ} {cells : List (Value × ℕ)}
    (hok : (Node.internal leftmost cells).Ok)
    (h : nodeImage codec (.internal leftmost cells) = .ok page) :
    decodeNode codec page = .ok (.internal leftmost cells) ∧
      ∃ starts, nodeStarts page = .ok (internalKind, some leftmost, starts) ∧
        starts.length = cells.length ∧
        ∀ i c, cells[i]? = some c → ∃ klen, CellAt codec childId page (starts.getD i 0) klen c := by
  obtain ⟨body, hbody, h⟩ := Except.bind_eq_ok_iff.mp h
  obtain ⟨hroom, hcount⟩ := writeCells_length hbody (by decide)
  have hlt : cells.length < 256 ^ 2 := by
    have : pageSize = 4096 := rfl
    omega
  have hleft : leftmost < 256 ^ 4 := hok.1
  set head := internalKind :: (Bytes.toLE 2 cells.length ++ Bytes.toLE 4 leftmost) with hhead
  obtain ⟨post, hpage⟩ : ∃ post, page = head ++ (body ++ post) := by
    cases h
    refine ⟨List.replicate (pageSize - (head ++ body).length) 0, ?_⟩
    rw [← padded_eq head body, hhead]
    simp
  have hcells := writeCells_cellsAt hbody head post (by simp [hhead])
  rw [← hpage] at hcells
  have hlen : takeOr "truncated node page" page 1 2 = .ok (Bytes.toLE 2 cells.length) :=
    takeOr_eq [internalKind] (Bytes.toLE 4 leftmost ++ (body ++ post))
      (by rw [hpage, hhead]; simp) rfl (by simp)
  have hchild : takeOr "truncated node page" page 3 4 = .ok (Bytes.toLE 4 leftmost) :=
    takeOr_eq (internalKind :: Bytes.toLE 2 cells.length) (body ++ post)
      (by rw [hpage, hhead]; simp) (by simp) (by simp)
  constructor
  · have hdrop : (page.drop 1).take 2 = Bytes.toLE 2 cells.length := by
      rw [hpage, hhead]
      simp
    have hdrop' : (page.drop 3).take 4 = Bytes.toLE 4 leftmost := by
      rw [hpage, hhead]
      simp
    have hkind : page.headD 0 = internalKind := by
      rw [hpage, hhead]
      rfl
    rw [decodeNode, hkind, hdrop, hdrop', Bytes.ofLE_toLE hlt, Bytes.ofLE_toLE hleft,
      if_neg (by decide), if_pos rfl, Except.bind_of_ok (readCells_of_cellsAt
        (fun c hc => (hok.2 c hc).1) (fun c hc => (hok.2 c hc).2) hcells)]
    rfl
  · obtain ⟨starts, hloop, hslen, hstop, hat⟩ := startsLoop_of_cellsAt hcells
    refine ⟨starts, ?_, hslen, hat⟩
    have hkind : firstByte page = .ok internalKind := by
      rw [hpage, hhead]
      rfl
    rw [nodeStarts, Except.bind_of_ok hkind]
    simp only [ne_eq, not_true_eq_false, and_false, if_false]
    rw [Except.bind_of_ok hlen, Bytes.ofLE_toLE hlt, if_pos trivial, Except.bind_of_ok hchild,
      Except.bind_of_ok hloop, Bytes.ofLE_toLE hleft]
    simp only [not_lt.mpr hstop, if_false]
    rfl

/-! ## Binary search in place -/

/-- The binary search over serialized cells finds the partition point of the
predicate it tests. -/
theorem seekLoop_eq {cells : List (Value × α)} {starts : List ℕ} {key : Value} {wantGt : Bool}
    (hwf : ∀ c ∈ cells, c.1.WF)
    (hat : ∀ i c, cells[i]? = some c → ∃ klen, CellAt codec p page (starts.getD i 0) klen c)
    (hmono : cells.Pairwise fun a b =>
      goRight wantGt b.1 key = true → goRight wantGt a.1 key = true) {fuel lo hi : ℕ}
    (hlo : lo ≤ partitionPoint (fun c => goRight wantGt c.1 key) cells)
    (hhi : partitionPoint (fun c => goRight wantGt c.1 key) cells ≤ hi)
    (hlen : hi ≤ cells.length) (hfuel : hi - lo < fuel) :
    seekLoop codec page starts key wantGt fuel lo hi =
      .ok (partitionPoint (fun c => goRight wantGt c.1 key) cells) := by
  induction fuel generalizing lo hi with
  | zero => omega
  | succ fuel ih =>
      rw [seekLoop]
      by_cases hlt : lo < hi
      · obtain ⟨c, hc⟩ : ∃ c, cells[lo + (hi - lo) / 2]? = some c :=
          ⟨_, List.getElem?_eq_getElem (by omega)⟩
        obtain ⟨klen, hcell⟩ := hat _ c hc
        have hkey := decodeKeyAt_of_cellAt (hwf c (List.mem_of_getElem? hc)) hcell
        have hside := BPlusTree.lt_partitionPoint_iff hmono hc
        rw [if_pos hlt, Except.bind_of_ok hkey]
        by_cases hgo : goRight wantGt c.1 key = true
        · rw [if_pos hgo]
          have := hside.mpr hgo
          exact ih (by omega) hhi hlen (by omega)
        · rw [if_neg hgo]
          have := hside.not.mpr hgo
          exact ih hlo (by omega) (by omega) (by omega)
      · have : lo = partitionPoint (fun c => goRight wantGt c.1 key) cells := by omega
        rw [if_neg hlt, ← this]

section Seek

variable {cells : List (Value × α)} {starts : List ℕ} {key : Value}
  (hwf : ∀ c ∈ cells, c.1.WF) (hlen : starts.length = cells.length)
  (hat : ∀ i c, cells[i]? = some c → ∃ klen, CellAt codec p page (starts.getD i 0) klen c)
  (hsorted : cells.Pairwise fun a b => cmpValues a.1 b.1 ≠ .gt)
include hwf hlen hat hsorted

theorem cellsSeek_lower :
    cellsSeek codec page starts key false = .ok (lower cmpValues key cells) := by
  refine seekLoop_eq hwf hat ?_ (Nat.zero_le _) ?_ hlen.le (by omega)
  · refine hsorted.imp ?_
    intro a b hab hb
    have hb' : cmpValues b.1 key = .lt := by simpa [goRight] using hb
    have ha := Std.TransCmp.lt_of_isLE_of_lt (Ordering.ne_gt_iff_isLE.mp hab) hb'
    simpa [goRight] using ha
  · rw [hlen]
    exact BPlusTree.partitionPoint_le _ _

theorem cellsSeek_upper :
    cellsSeek codec page starts key true = .ok (upper cmpValues key cells) := by
  refine seekLoop_eq hwf hat ?_ (Nat.zero_le _) ?_ hlen.le (by omega)
  · refine hsorted.imp ?_
    intro a b hab hb
    have hb' : cmpValues b.1 key ≠ .gt := by simpa [goRight] using hb
    have ha := BPlusTree.ne_gt_trans hab hb'
    simpa [goRight] using ha
  · rw [hlen]
    exact BPlusTree.partitionPoint_le _ _

end Seek

end Docsql.BTree
