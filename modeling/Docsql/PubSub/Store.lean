import Mathlib.Data.Int.Order.Basic
import Docsql.PubSub.Glob

/-!
# The message store

`_pubsub_messages` as its list of rows in id order, and the statements that
`pubsub.rs` runs on it.  Ids come from the AUTOINCREMENT counter, which is the
largest stored id.
-/

namespace Docsql.PubSub

structure StoredMessage where
  id : ℤ
  channel : String
  ts : ℤ
  payload : String
deriving DecidableEq, Repr

/-- The bytes a row counts for in a replay window. -/
def StoredMessage.size (m : StoredMessage) : ℕ := m.channel.utf8ByteSize + m.payload.utf8ByteSize

abbrev Store := List StoredMessage

def maxStoreRows : ℤ := 200000
def maxStoreBytes : ℤ := 512 * 1024 * 1024
def replayChunkRows : ℤ := 512
def replayChunkBytes : ℕ := 1024 * 1024

/-- How many of the newest rows stay after a payload of this length. -/
def keepRowsFor (payloadLen : ℕ) : ℤ :=
  min maxStoreRows (max (maxStoreBytes / (max payloadLen 1 : ℕ)) 1)

namespace Store

variable (store : Store)

/-- 0 on an empty table. -/
def queryMaxId : ℤ := store.foldl (fun top m => max top m.id) 0

def deleteUpTo (threshold : ℤ) : Store := store.filter fun m => ¬ m.id ≤ threshold

def storeInsertKeeping (channel : String) (ts : ℤ) (payload : String) (keep : ℤ) :
    Store × StoredMessage :=
  let m : StoredMessage := ⟨store.queryMaxId + 1, channel, ts, payload⟩
  let stored := store ++ [m]
  let threshold := m.id - max keep 1
  (if threshold > 0 then deleteUpTo stored threshold else stored, m)

def storeInsert (channel : String) (ts : ℤ) (payload : String) : Store × StoredMessage :=
  store.storeInsertKeeping channel ts payload (keepRowsFor payload.utf8ByteSize)

/-- The smallest of the newest `keep` ids of the channel. -/
def trimThreshold (channel : String) (keep : ℤ) : Option ℤ :=
  (((store.filter fun m => m.channel = channel).reverse.take keep.toNat).map (·.id)).getLast?

def storeTrim (channel : String) (keep : ℤ) : Store :=
  match store.trimThreshold channel keep with
  | none => store
  | some threshold => store.filter fun m => ¬ (m.channel = channel ∧ m.id < threshold)

/-- Rows after one id and up to another, in id order. -/
def queryHistoryChunk (afterId uptoId limit : ℤ) : List StoredMessage :=
  if afterId ≥ uptoId ∨ limit ≤ 0 then []
  else (store.filter fun m => afterId < m.id ∧ m.id ≤ uptoId).take limit.toNat

end Store

/-- The row cap of the next chunk, and the largest row seen. -/
structure ReplayWindow where
  rows : ℤ := 1
  maxRow : ℕ := 0
deriving DecidableEq, Repr

def ReplayWindow.advance (window : ReplayWindow) (chunk : List StoredMessage) : ReplayWindow :=
  let chunkBytes := (chunk.map StoredMessage.size).sum
  let chunkMaxRow := (chunk.map StoredMessage.size).foldl max 0
  if chunk.length = 0 then window
  else
    let maxRow := max window.maxRow chunkMaxRow
    let denom := max (max maxRow (chunkBytes / chunk.length)) 1
    ⟨min (max ((replayChunkBytes / denom : ℕ) : ℤ) 1) replayChunkRows, maxRow⟩

/-! ## Rows in id order -/

namespace Store

variable {store : Store} {m : StoredMessage}

/-- Ids go up along the table. -/
def InOrder (rows : List StoredMessage) : Prop := rows.Pairwise fun a b => a.id < b.id

theorem InOrder.le_last {rows : List StoredMessage} {last : StoredMessage} (h : InOrder rows)
    (hlast : rows.getLast? = some last) (hm : m ∈ rows) : m.id ≤ last.id := by
  obtain ⟨front, rfl⟩ := List.getLast?_eq_some_iff.mp hlast
  rcases List.mem_append.mp hm with hfront | hend
  · exact ((List.pairwise_append.mp h).2.2 m hfront last (List.mem_singleton_self _)).le
  · obtain rfl := List.mem_singleton.mp hend
    exact le_refl _

/-- A row with a larger id at the end. -/
theorem InOrder.append {rows : List StoredMessage} (h : InOrder rows)
    (hlast : ∀ x ∈ rows, x.id < m.id) : InOrder (rows ++ [m]) := by
  refine List.pairwise_append.mpr ⟨h, List.pairwise_singleton _ _, fun x hx y hy => ?_⟩
  obtain rfl := List.mem_singleton.mp hy
  exact hlast x hx

theorem le_foldl_max (rows : List StoredMessage) (top : ℤ) :
    top ≤ rows.foldl (fun top m => max top m.id) top := by
  induction rows generalizing top with
  | nil => exact le_refl _
  | cons m rows ih => exact (le_max_left _ _).trans (ih _)

theorem le_queryMaxId (hm : m ∈ store) : m.id ≤ store.queryMaxId := by
  unfold queryMaxId
  generalize (0 : ℤ) = top
  induction store generalizing top with
  | nil => cases hm
  | cons first rest ih =>
    rcases List.mem_cons.mp hm with rfl | hmem
    · exact (le_max_right _ _).trans (le_foldl_max rest _)
    · exact ih hmem _

theorem queryMaxId_nonneg (store : Store) : 0 ≤ store.queryMaxId := le_foldl_max store 0

theorem queryMaxId_le {top : ℤ} (htop : 0 ≤ top) (h : ∀ m ∈ store, m.id ≤ top) :
    store.queryMaxId ≤ top := by
  unfold queryMaxId
  generalize (0 : ℤ) = start at htop
  induction store generalizing start with
  | nil => exact htop
  | cons first rest ih =>
    exact ih (fun m hm => h m (List.mem_cons_of_mem _ hm)) _
      (max_le htop (h first List.mem_cons_self))

/-- The counter is 0 or the id of a row. -/
theorem exists_queryMaxId (store : Store) :
    store.queryMaxId = 0 ∨ ∃ m ∈ store, m.id = store.queryMaxId := by
  unfold queryMaxId
  generalize (0 : ℤ) = start
  induction store generalizing start with
  | nil => exact .inl rfl
  | cons first rest ih =>
    rcases ih (max start first.id) with heq | ⟨m, hm, heq⟩
    · rcases max_choice start first.id with hmax | hmax
      · exact .inl (heq.trans hmax)
      · exact .inr ⟨first, List.mem_cons_self, (heq.trans hmax).symm⟩
    · exact .inr ⟨m, List.mem_cons_of_mem _ hm, heq⟩

/-- Deleting rows other than the newest leaves the counter alone. -/
theorem queryMaxId_filter {p : StoredMessage → Bool}
    (h : ∀ m ∈ store, m.id = store.queryMaxId → p m = true) :
    queryMaxId (store.filter p) = store.queryMaxId := by
  apply le_antisymm
  · exact queryMaxId_le store.queryMaxId_nonneg
      fun m hm => le_queryMaxId (List.mem_of_mem_filter hm)
  · rcases store.exists_queryMaxId with hzero | ⟨m, hm, heq⟩
    · rw [hzero]
      exact queryMaxId_nonneg _
    · rw [← heq]
      exact le_queryMaxId (List.mem_filter.mpr ⟨hm, h m hm heq⟩)

theorem queryMaxId_append (store : Store) (m : StoredMessage) :
    queryMaxId (store ++ [m]) = max store.queryMaxId m.id := by
  simp [queryMaxId]

/-- The table after a statement: old rows, and rows with new ids. -/
structure Follows (store store' : Store) : Prop where
  inOrder : InOrder store'
  old : ∀ m ∈ store', m ∈ store ∨ store.queryMaxId < m.id
  top : store.queryMaxId ≤ store'.queryMaxId

theorem Follows.refl (h : InOrder store) : Follows store store :=
  ⟨h, fun _ hm => .inl hm, le_refl _⟩

theorem storeInsert_id (store : Store) (channel : String) (ts : ℤ) (payload : String) :
    (store.storeInsert channel ts payload).2.id = store.queryMaxId + 1 := rfl

/-- The new row is the newest one, whatever retention removes. -/
theorem storeInsert_spec (h : InOrder store) (channel : String) (ts : ℤ) (payload : String) :
    Follows store (store.storeInsert channel ts payload).1 ∧
      (store.storeInsert channel ts payload).1.queryMaxId = store.queryMaxId + 1 := by
  unfold storeInsert storeInsertKeeping
  dsimp only
  set m : StoredMessage := ⟨store.queryMaxId + 1, channel, ts, payload⟩ with hmdef
  have hid : m.id = store.queryMaxId + 1 := rfl
  have horder : InOrder (store ++ [m]) := h.append fun x hx => Int.lt_add_one_of_le (le_queryMaxId hx)
  have htop : queryMaxId (store ++ [m]) = store.queryMaxId + 1 := by
    rw [queryMaxId_append, hid]
    omega
  have hold : ∀ x ∈ store ++ [m], x ∈ store ∨ store.queryMaxId < x.id := by
    intro x hx
    rcases List.mem_append.mp hx with hmem | hmem
    · exact .inl hmem
    · obtain rfl := List.mem_singleton.mp hmem
      exact .inr (by omega)
  split
  · have hkeep : queryMaxId (deleteUpTo (store ++ [m])
        (m.id - max (keepRowsFor payload.utf8ByteSize) 1)) = store.queryMaxId + 1 := by
      rw [← htop]
      refine queryMaxId_filter fun x _ hx => ?_
      rw [htop] at hx
      rw [decide_eq_true_iff]
      omega
    refine ⟨⟨horder.filter _, fun x hx => hold x (List.mem_of_mem_filter hx), ?_⟩, hkeep⟩
    rw [hkeep]
    omega
  · exact ⟨⟨horder, hold, le_of_le_of_eq (Int.le_add_one (le_refl _)) htop.symm⟩, htop⟩

/-- A trim keeps the newest row of the channel it empties. -/
theorem storeTrim_spec (h : InOrder store) (channel : String) (keep : ℤ) :
    Follows store (store.storeTrim channel keep) ∧
      (store.storeTrim channel keep).queryMaxId = store.queryMaxId := by
  unfold storeTrim
  split
  · exact ⟨Follows.refl h, rfl⟩
  · rename_i threshold hthreshold
    have hle : threshold ≤ store.queryMaxId := by
      have hmem := List.mem_of_getLast? hthreshold
      obtain ⟨x, hx, rfl⟩ := List.mem_map.mp hmem
      have hx := List.mem_reverse.mp (List.mem_of_mem_take hx)
      exact le_queryMaxId (List.mem_of_mem_filter hx)
    have htop : queryMaxId (store.filter fun m => ¬ (m.channel = channel ∧ m.id < threshold)) =
        store.queryMaxId := by
      refine queryMaxId_filter fun x _ hx => ?_
      rw [decide_eq_true_iff]
      omega
    exact ⟨⟨h.filter _, fun x hx => .inl (List.mem_of_mem_filter hx), htop.ge⟩, htop⟩

/-- A chunk is a block of rows after `afterId`: nothing stored is left out up to its
last id. -/
theorem queryHistoryChunk_spec (h : InOrder store) {afterId uptoId limit : ℤ}
    {chunk : List StoredMessage} (hchunk : store.queryHistoryChunk afterId uptoId limit = chunk) :
    InOrder chunk ∧ (∀ m ∈ chunk, m ∈ store ∧ afterId < m.id) ∧
      ∀ last, chunk.getLast? = some last →
        ∀ m ∈ store, afterId < m.id → m.id ≤ last.id → m ∈ chunk := by
  unfold queryHistoryChunk at hchunk
  split at hchunk
  · subst hchunk
    exact ⟨List.Pairwise.nil, by simp, by simp⟩
  · set range := store.filter fun m => afterId < m.id ∧ m.id ≤ uptoId with hrange
    have horder : InOrder range := h.filter _
    have hmem : ∀ m ∈ range, m ∈ store ∧ afterId < m.id ∧ m.id ≤ uptoId := by
      intro m hm
      have hm := List.mem_filter.mp hm
      exact ⟨hm.1, by simpa using hm.2⟩
    subst hchunk
    refine ⟨horder.take, fun m hm => ?_, fun last hlast m hm hafter hle => ?_⟩
    · exact ⟨(hmem m (List.mem_of_mem_take hm)).1, (hmem m (List.mem_of_mem_take hm)).2.1⟩
    · have hlastMem := List.mem_of_getLast? hlast
      have hupto := (hmem last (List.mem_of_mem_take hlastMem)).2.2
      have hin : m ∈ range := List.mem_filter.mpr ⟨hm, by simp; omega⟩
      -- A row behind the cut would have a larger id than the last row of the chunk.
      rw [← List.take_append_drop limit.toNat range] at hin horder
      rcases List.mem_append.mp hin with htake | hdrop
      · exact htake
      · have hlt := (List.pairwise_append.mp horder).2.2 last hlastMem m hdrop
        omega

end Store

end Docsql.PubSub
