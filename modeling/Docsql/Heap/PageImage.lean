import Docsql.Heap.Page

/-!
# The image of a packed page

A page is a slot count, a directory and a body (`rawPage`).  Every page the heap
writes is the image of the list of its slot contents: the contents lie packed at
the page end in the order of their slots, with zeros between them and the
directory.
-/

namespace Docsql.Heap

variable {dir : List (ℕ × ℕ)} {body bytes b : List UInt8} {bs : List (List UInt8)}
variable {off len i start : ℕ}

/-! ## Raw pages -/

def dirBytes (dir : List (ℕ × ℕ)) : List UInt8 :=
  dir.flatMap fun p => Bytes.toLE 2 p.1 ++ Bytes.toLE 2 p.2

def rawPage (dir : List (ℕ × ℕ)) (body : List UInt8) : Page :=
  Bytes.toLE 2 dir.length ++ (dirBytes dir ++ body)

/-- Entries a directory can hold. -/
def DirOk (dir : List (ℕ × ℕ)) : Prop :=
  dir.length < 2 ^ 16 ∧ ∀ p ∈ dir, p.1 < 2 ^ 16 ∧ p.2 < 2 ^ 16

theorem length_dirBytes (dir : List (ℕ × ℕ)) : (dirBytes dir).length = dir.length * 4 := by
  induction dir with
  | nil => rfl
  | cons p dir ih =>
      rw [dirBytes, List.flatMap_cons, ← dirBytes, List.length_append, ih]
      simp
      omega

theorem dirBytes_append (dir dir' : List (ℕ × ℕ)) :
    dirBytes (dir ++ dir') = dirBytes dir ++ dirBytes dir' := by
  simp [dirBytes]

theorem length_rawPage : (rawPage dir body).length = 2 + dir.length * 4 + body.length := by
  rw [rawPage, List.length_append, List.length_append, length_dirBytes, Bytes.length_toLE]
  omega

theorem countOf_rawPage (h : dir.length < 2 ^ 16) : countOf (rawPage dir body) = dir.length := by
  rw [countOf, rawPage, List.take_left' (Bytes.length_toLE 2 _), Bytes.ofLE_toLE h]

/-- What lies behind the first `i` entries of the directory. -/
theorem drop_rawPage (pre post : List (ℕ × ℕ)) (body : List UInt8) :
    (rawPage (pre ++ post) body).drop (headerFixed + pre.length * slotSize) =
      dirBytes post ++ body := by
  have hlen : (Bytes.toLE 2 (pre ++ post).length ++ dirBytes pre).length =
      headerFixed + pre.length * slotSize := by
    rw [List.length_append, length_dirBytes, Bytes.length_toLE]
    rfl
  rw [rawPage, dirBytes_append, List.append_assoc, ← List.append_assoc, List.drop_left' hlen]

theorem slot_rawPage (pre post : List (ℕ × ℕ)) (p : ℕ × ℕ) (body : List UInt8)
    (hp : p.1 < 2 ^ 16 ∧ p.2 < 2 ^ 16) :
    slot (rawPage (pre ++ p :: post) body) pre.length = p := by
  have hdrop := drop_rawPage pre (p :: post) body
  have hentry : dirBytes (p :: post) ++ body =
      Bytes.toLE 2 p.1 ++ (Bytes.toLE 2 p.2 ++ (dirBytes post ++ body)) := by
    simp [dirBytes]
  rw [hentry] at hdrop
  have hsecond : (rawPage (pre ++ p :: post) body).drop (headerFixed + pre.length * slotSize + 2) =
      Bytes.toLE 2 p.2 ++ (dirBytes post ++ body) := by
    rw [← List.drop_drop, hdrop, List.drop_left' (Bytes.length_toLE 2 _)]
  rw [slot, hdrop, hsecond, List.take_left' (Bytes.length_toLE 2 _),
    List.take_left' (Bytes.length_toLE 2 _), Bytes.ofLE_toLE hp.1, Bytes.ofLE_toLE hp.2]

theorem slots_rawPage (h : DirOk dir) : slots (rawPage dir body) = dir := by
  rw [slots, countOf_rawPage h.1]
  apply List.ext_getElem
  · simp
  · intro i hi hi'
    simp only [List.getElem_map, List.getElem_range]
    have hsplit : dir = dir.take i ++ dir[i] :: dir.drop (i + 1) := by simp
    have hlen : (dir.take i).length = i := List.length_take_of_le hi'.le
    have hslot := slot_rawPage (dir.take i) (dir.drop (i + 1)) dir[i] body
      (h.2 _ (List.getElem_mem hi'))
    rwa [← hsplit, hlen] at hslot

theorem slice_rawPage (hoff : 2 + dir.length * 4 ≤ off) :
    slice (rawPage dir body) off len = slice body (off - (2 + dir.length * 4)) len := by
  obtain ⟨k, rfl⟩ := Nat.exists_eq_add_of_le hoff
  have hdrop := drop_rawPage dir [] body
  rw [List.append_nil] at hdrop
  rw [slice, slice, ← List.drop_drop, Nat.add_sub_cancel_left]
  congr 2

theorem blit_middle (pre mid post : List UInt8) (h : mid.length = bytes.length) :
    blit (pre ++ (mid ++ post)) pre.length bytes = pre ++ (bytes ++ post) := by
  rw [blit, List.take_left' rfl, ← List.append_assoc pre mid post, List.drop_left']
  rw [List.length_append, h]

theorem blit_append_right (pre post : List UInt8) (h : pre.length ≤ off) :
    blit (pre ++ post) off bytes = pre ++ blit post (off - pre.length) bytes := by
  obtain ⟨k, rfl⟩ := Nat.exists_eq_add_of_le h
  rw [blit, blit, List.take_length_add_append, List.append_assoc, Nat.add_sub_cancel_left,
    Nat.add_assoc, List.drop_length_add_append]

theorem blit_rawPage (hoff : 2 + dir.length * 4 ≤ off) :
    blit (rawPage dir body) off bytes =
      rawPage dir (blit body (off - (2 + dir.length * 4)) bytes) := by
  have hlen : (Bytes.toLE 2 dir.length ++ dirBytes dir).length = 2 + dir.length * 4 := by
    rw [List.length_append, length_dirBytes, Bytes.length_toLE]
  rw [rawPage, ← List.append_assoc, blit_append_right _ _ (by rw [hlen]; exact hoff), hlen,
    List.append_assoc]
  rfl

/-- An entry written over the first four bytes of the body. -/
theorem pushSlot_rawPage (h : dir.length < 2 ^ 16) (hbody : 4 ≤ body.length) :
    pushSlot (rawPage dir body) off len = rawPage (dir ++ [(off, len)]) (body.drop 4) := by
  obtain ⟨m₁, m₂, rest, rfl, h₁, h₂⟩ : ∃ m₁ m₂ rest, body = m₁ ++ (m₂ ++ rest) ∧
      m₁.length = 2 ∧ m₂.length = 2 := by
    refine ⟨body.take 2, (body.drop 2).take 2, body.drop 4, ?_, ?_, ?_⟩
    · rw [show 4 = 2 + 2 from rfl, ← List.drop_drop, List.take_append_drop, List.take_append_drop]
    · rw [List.length_take]
      omega
    · rw [List.length_take, List.length_drop]
      omega
  have hentry : headerFixed + dir.length * slotSize =
      (Bytes.toLE 2 dir.length ++ dirBytes dir).length := by
    rw [List.length_append, length_dirBytes, Bytes.length_toLE]
    rfl
  have hentry₂ : headerFixed + dir.length * slotSize + 2 =
      ((Bytes.toLE 2 dir.length ++ dirBytes dir) ++ Bytes.toLE 2 off).length := by
    rw [List.length_append, ← hentry, Bytes.length_toLE]
  have hdrop : (m₁ ++ (m₂ ++ rest)).drop 4 = rest := by
    rw [← List.append_assoc, List.drop_left']
    rw [List.length_append, h₁, h₂]
  rw [pushSlot, countOf_rawPage h, hdrop]
  rw [hentry₂, hentry, rawPage, ← List.append_assoc, blit_middle _ m₁ _ (by rw [h₁]; rfl),
    ← List.append_assoc, blit_middle _ m₂ _ (by rw [h₂]; rfl), setCount, List.append_assoc,
    List.append_assoc]
  have hcount := blit_middle [] (Bytes.toLE 2 dir.length)
    (dirBytes dir ++ (Bytes.toLE 2 off ++ (Bytes.toLE 2 len ++ rest)))
    (show _ = (Bytes.toLE 2 (dir.length + 1)).length by simp)
  rw [List.nil_append, List.length_nil, List.nil_append] at hcount
  rw [hcount, rawPage, dirBytes_append]
  simp [dirBytes]

theorem tombstone_rawPage (pre post : List (ℕ × ℕ)) (p : ℕ × ℕ) (body : List UInt8) :
    tombstone (rawPage (pre ++ p :: post) body) pre.length =
      rawPage (pre ++ (pageSize, 0) :: post) body := by
  have hentry : headerFixed + pre.length * slotSize =
      (Bytes.toLE 2 (pre ++ p :: post).length ++ dirBytes pre).length := by
    rw [List.length_append, length_dirBytes, Bytes.length_toLE]
    rfl
  have hentry₂ : headerFixed + pre.length * slotSize + 2 =
      ((Bytes.toLE 2 (pre ++ p :: post).length ++ dirBytes pre) ++
        Bytes.toLE 2 pageSize).length := by
    rw [List.length_append, ← hentry, Bytes.length_toLE]
  have hsplit : rawPage (pre ++ p :: post) body =
      (Bytes.toLE 2 (pre ++ p :: post).length ++ dirBytes pre) ++
        (Bytes.toLE 2 p.1 ++ (Bytes.toLE 2 p.2 ++ (dirBytes post ++ body))) := by
    rw [rawPage, dirBytes_append]
    simp [dirBytes]
  rw [tombstone, hentry₂, hentry, hsplit, blit_middle _ _ _ (by simp), ← List.append_assoc,
    blit_middle _ _ _ (by simp), rawPage, dirBytes_append]
  simp [dirBytes]

/-! ## Packed pages -/

/-- The directory of documents packed one below the other from `start` down. -/
def slotList : ℕ → List (List UInt8) → List (ℕ × ℕ)
  | _, [] => []
  | start, b :: bs => (start - b.length, b.length) :: slotList (start - b.length) bs

def total (bs : List (List UInt8)) : ℕ := (bs.map List.length).sum

/-- Bytes a page needs for these documents. -/
def used (bs : List (List UInt8)) : ℕ := 2 + bs.length * 4 + total bs

/-- Nonempty documents that fit a page. -/
structure Fits (bs : List (List UInt8)) : Prop where
  used_le : used bs ≤ pageSize
  nonempty : ∀ b ∈ bs, 0 < b.length

/-- Everything behind the directory of a packed page. -/
def packedBody (bs : List (List UInt8)) : List UInt8 :=
  List.replicate (pageSize - used bs) 0 ++ bs.reverse.flatten

def image (bs : List (List UInt8)) : Page := rawPage (slotList pageSize bs) (packedBody bs)

@[simp] theorem total_nil : total [] = 0 := rfl

@[simp] theorem total_cons : total (b :: bs) = b.length + total bs := rfl

@[simp] theorem total_append (bs bs' : List (List UInt8)) :
    total (bs ++ bs') = total bs + total bs' := by
  simp [total]

theorem used_append (bs bs' : List (List UInt8)) :
    used (bs ++ bs') + 2 = used bs + used bs' := by
  simp only [used, total_append, List.length_append]
  omega

theorem length_flatten_reverse (bs : List (List UInt8)) :
    bs.reverse.flatten.length = total bs := by
  rw [List.length_flatten, List.map_reverse, List.sum_reverse]
  rfl

@[simp] theorem length_slotList (start : ℕ) (bs : List (List UInt8)) :
    (slotList start bs).length = bs.length := by
  induction bs generalizing start with
  | nil => rfl
  | cons b bs ih => simp [slotList, ih]

theorem slotList_append (start : ℕ) (bs bs' : List (List UInt8)) :
    slotList start (bs ++ bs') = slotList start bs ++ slotList (start - total bs) bs' := by
  induction bs generalizing start with
  | nil => simp [slotList]
  | cons b bs ih =>
      rw [List.cons_append, slotList, ih, slotList, List.cons_append, total_cons, Nat.sub_sub]

theorem mem_slotList {p : ℕ × ℕ} (h : p ∈ slotList start bs) :
    p.1 ≤ start ∧ p.2 ≤ total bs ∧ start - total bs ≤ p.1 := by
  induction bs generalizing start with
  | nil => cases h
  | cons b bs ih =>
      rw [slotList, List.mem_cons] at h
      rw [total_cons]
      rcases h with rfl | h
      · exact ⟨Nat.sub_le _ _, Nat.le_add_right _ _, by omega⟩
      · obtain ⟨h₁, h₂, h₃⟩ := ih h
        exact ⟨h₁.trans (Nat.sub_le _ _), by omega, by omega⟩

namespace Fits

theorem left {bs bs' : List (List UInt8)} (h : Fits (bs ++ bs')) : Fits bs := by
  have := used_append bs bs'
  have h' := h.used_le
  have h2 : 2 ≤ used bs' := by
    unfold used
    omega
  exact ⟨by omega, fun b hb => h.nonempty b (List.mem_append_left _ hb)⟩

theorem length_lt (h : Fits bs) : bs.length < 2 ^ 16 := by
  have := h.used_le
  unfold used pageSize at this
  omega

theorem dirOk (h : Fits bs) : DirOk (slotList pageSize bs) := by
  have hused := h.used_le
  unfold used pageSize at hused
  refine ⟨?_, ?_⟩
  · rw [length_slotList]
    exact h.length_lt
  · intro p hp
    obtain ⟨h₁, h₂, -⟩ := mem_slotList hp
    unfold pageSize at h₁
    omega

theorem length_packedBody (h : Fits bs) :
    (packedBody bs).length = pageSize - (2 + bs.length * 4) := by
  have hused := h.used_le
  rw [packedBody, List.length_append, List.length_replicate, length_flatten_reverse]
  unfold used at *
  omega

theorem length_image (h : Fits bs) : (image bs).length = pageSize := by
  have hused := h.used_le
  rw [image, length_rawPage, length_slotList, h.length_packedBody]
  unfold used at hused
  omega

theorem slots_image (h : Fits bs) : slots (image bs) = slotList pageSize bs :=
  slots_rawPage h.dirOk

theorem countOf_image (h : Fits bs) : countOf (image bs) = bs.length := by
  rw [image, countOf_rawPage h.dirOk.1, length_slotList]

/-- The documents end up one below the other, so the last one is the lowest. -/
theorem foldl_slotList (hpos : ∀ b ∈ bs, 0 < b.length) (hstart : total bs ≤ start) :
    (slotList start bs).foldl (fun m p => if 0 < p.2 then min m p.1 else m) start =
      start - total bs := by
  induction bs generalizing start with
  | nil => rfl
  | cons b bs ih =>
      rw [total_cons] at hstart ⊢
      have hb := hpos b List.mem_cons_self
      have hmin : min start (start - b.length) = start - b.length := Nat.min_eq_right (Nat.sub_le _ _)
      rw [slotList, List.foldl_cons]
      simp only [hb, if_true, hmin]
      rw [ih (fun b' h' => hpos b' (List.mem_cons_of_mem _ h')) (by omega), Nat.sub_sub]

theorem contentStart_image (h : Fits bs) : contentStart (image bs) = pageSize - total bs := by
  have hused := h.used_le
  rw [contentStart, h.slots_image, foldl_slotList h.nonempty (by unfold used at hused; omega)]

theorem freeSpace_image (h : Fits bs) : freeSpace (image bs) = pageSize - used bs := by
  rw [freeSpace, h.contentStart_image, h.countOf_image, used, headerFixed, slotSize]
  omega

theorem validateSlots_slotList {id dirEnd : ℕ} (hdir : dirEnd + total bs ≤ start)
    (hstart : start ≤ pageSize) (hpos : ∀ b ∈ bs, 0 < b.length) :
    validateSlots id dirEnd pageSize (slotList start bs) = .ok (total bs) := by
  induction bs generalizing start with
  | nil => rfl
  | cons b bs ih =>
      rw [total_cons] at hdir
      have hb := hpos b List.mem_cons_self
      rw [slotList, validateSlots, if_neg (by omega), if_neg (by omega),
        ih (by omega) (by omega) fun b' h' => hpos b' (List.mem_cons_of_mem _ h')]
      rfl

theorem validatePage_image (h : Fits bs) (id : ℕ) : validatePage (image bs) id = .ok () := by
  have hused := h.used_le
  unfold used at hused
  rw [validatePage, h.length_image, h.countOf_image, h.slots_image, headerFixed, slotSize,
    if_neg (by omega), validateSlots_slotList (by omega) le_rfl h.nonempty]
  show (if pageSize < 2 + bs.length * 4 + total bs then _ else _) = _
  rw [if_neg (by omega)]
  rfl

end Fits

theorem image_nil : image [] = zeroPage := by
  have hsize : pageSize = 2 + (pageSize - used []) := rfl
  rw [zeroPage, hsize, List.replicate_add, image, packedBody, rawPage]
  simp only [List.reverse_nil, List.flatten_nil, List.append_nil]
  rfl

/-! ## Adding a document -/

/-- A document put right below the packed ones. -/
theorem putDoc_image (h : Fits (bs ++ [b])) :
    putDoc (image bs) (pageSize - total bs - b.length) b = image (bs ++ [b]) := by
  have hleft := h.left
  have hused := h.used_le
  have hgap : pageSize - used bs = 4 + (pageSize - used (bs ++ [b])) + b.length := by
    have := used_append bs [b]
    have hone : used [b] = 6 + b.length := by simp [used]
    omega
  have hoff : pageSize - total bs - b.length - (2 + bs.length * 4) =
      4 + (pageSize - used (bs ++ [b])) := by
    unfold used at hgap ⊢
    omega
  have hdir : 2 + (slotList pageSize bs).length * 4 ≤ pageSize - total bs - b.length := by
    rw [length_slotList]
    unfold used at hused
    simp only [total_append, total_cons, total_nil, List.length_append, List.length_singleton]
      at hused
    omega
  have hbody : blit (packedBody bs) (4 + (pageSize - used (bs ++ [b]))) b =
      List.replicate (4 + (pageSize - used (bs ++ [b]))) 0 ++ (b ++ bs.reverse.flatten) := by
    rw [packedBody, hgap, List.replicate_add, List.append_assoc]
    have hmid := blit_middle (List.replicate (4 + (pageSize - used (bs ++ [b]))) 0)
      (List.replicate b.length 0) bs.reverse.flatten (show _ = b.length by simp)
    rwa [List.length_replicate] at hmid
  rw [putDoc, image, blit_rawPage hdir, length_slotList, hoff, hbody,
    pushSlot_rawPage hleft.dirOk.1 (by simp; omega), List.replicate_add, List.append_assoc,
    List.drop_left' (by simp), image, packedBody, slotList_append, List.reverse_append]
  rfl

theorem packDocs_image {bs bs' : List (List UInt8)} (h : Fits (bs ++ bs')) :
    packDocs bs' (pageSize - total bs) (image bs) = image (bs ++ bs') := by
  induction bs' generalizing bs with
  | nil => simp [packDocs]
  | cons b bs' ih =>
      have h' : Fits ((bs ++ [b]) ++ bs') := by simpa using h
      have hstep := ih h'
      rw [total_append, total_cons, total_nil, Nat.add_zero, ← Nat.sub_sub] at hstep
      rw [packDocs, putDoc_image h'.left, hstep, List.append_assoc]
      rfl

theorem packDocs_zeroPage (h : Fits bs) : packDocs bs pageSize zeroPage = image bs := by
  have := packDocs_image (show Fits ([] ++ bs) from h)
  rwa [image_nil] at this

/-- A fresh page with one document. -/
theorem putDoc_zeroPage (h : Fits [b]) : putDoc zeroPage (pageSize - b.length) b = image [b] := by
  have := putDoc_image (show Fits ([] ++ [b]) from h)
  rwa [image_nil] at this

/-! ## Reading a document, and dead slots -/

theorem slice_packedBody (pre post : List (List UInt8)) (h : Fits (pre ++ b :: post)) :
    slice (packedBody (pre ++ b :: post))
      (pageSize - total pre - b.length - (2 + (pre ++ b :: post).length * 4)) b.length = b := by
  have hused := h.used_le
  have hpos : pageSize - total pre - b.length - (2 + (pre ++ b :: post).length * 4) =
      (List.replicate (pageSize - used (pre ++ b :: post)) (0 : UInt8) ++
        post.reverse.flatten).length := by
    simp only [used, List.length_append, List.length_replicate, length_flatten_reverse,
      total_append, total_cons] at hused ⊢
    omega
  have hbody : packedBody (pre ++ b :: post) =
      (List.replicate (pageSize - used (pre ++ b :: post)) 0 ++ post.reverse.flatten) ++
        (b ++ pre.reverse.flatten) := by
    rw [packedBody]
    simp
  rw [slice, hpos, hbody, List.drop_left' rfl, List.take_left' rfl]

/-- The page with some of its slots dead. -/
def marked (bs : List (List UInt8)) (dead : List ℕ) : Page :=
  rawPage ((slotList pageSize bs).mapIdx fun i p => if i ∈ dead then (pageSize, 0) else p)
    (packedBody bs)

theorem marked_nil (bs : List (List UInt8)) : marked bs [] = image bs := by
  rw [marked, image]
  congr 1
  apply List.ext_getElem <;> simp

theorem tombstone_marked {dead : List ℕ} (hi : i < bs.length) :
    tombstone (marked bs dead) i = marked bs (i :: dead) := by
  set dir := (slotList pageSize bs).mapIdx fun j p => if j ∈ dead then (pageSize, 0) else p
    with hdir
  have hlen : i < dir.length := by simpa [hdir] using hi
  have hsplit : dir = dir.take i ++ dir[i] :: dir.drop (i + 1) := by simp
  have htake : (dir.take i).length = i := List.length_take_of_le hlen.le
  have htomb := tombstone_rawPage (dir.take i) (dir.drop (i + 1)) dir[i] (packedBody bs)
  rw [← hsplit, htake] at htomb
  rw [marked, ← hdir, htomb, marked]
  congr 1
  have hset : dir.take i ++ (pageSize, 0) :: dir.drop (i + 1) = dir.set i (pageSize, 0) := by
    rw [List.set_eq_take_append_cons_drop, if_pos hlen]
  rw [hset]
  apply List.ext_getElem
  · simp [hdir]
  · intro j hj hj'
    rw [List.getElem_set]
    by_cases hij : i = j
    · subst hij
      simp
    · have hji : ¬j = i := fun heq => hij heq.symm
      simp [hdir, hij, hji]

/-- The live documents of a page with dead slots, with their slots. -/
def survivors (bs : List (List UInt8)) (dead : List ℕ) : List (ℕ × List UInt8) :=
  (bs.zipIdx.filter fun p => p.2 ∉ dead).map fun p => (p.2, p.1)

theorem survivors_eq_filterMap (bs : List (List UInt8)) (dead : List ℕ) : survivors bs dead =
    bs.zipIdx.filterMap fun p => if p.2 ∈ dead then none else some (p.2, p.1) := by
  rw [survivors]
  induction bs.zipIdx with
  | nil => rfl
  | cons p ps ih =>
      rw [List.filter_cons, List.filterMap_cons, ← ih]
      by_cases hp : p.2 ∈ dead
      · simp [hp]
      · simp [hp]

theorem survivors_sublist (bs : List (List UInt8)) (dead : List ℕ) :
    ((survivors bs dead).map Prod.snd).Sublist bs := by
  have hsub := (List.filter_sublist (p := fun p : List UInt8 × ℕ => p.2 ∉ dead)
    (l := bs.zipIdx)).map Prod.fst
  rw [List.zipIdx_map_fst] at hsub
  rw [survivors, List.map_map]
  exact hsub

namespace Fits

theorem slots_marked (h : Fits bs) (dead : List ℕ) : slots (marked bs dead) =
    (slotList pageSize bs).mapIdx fun i p => if i ∈ dead then (pageSize, 0) else p := by
  apply slots_rawPage
  refine ⟨?_, ?_⟩
  · rw [List.length_mapIdx]
    exact h.dirOk.1
  · intro p hp
    obtain ⟨i, hi, rfl⟩ := List.mem_mapIdx.mp hp
    split_ifs
    · unfold pageSize
      norm_num
    · exact h.dirOk.2 _ (List.getElem_mem hi)

theorem countOf_marked (h : Fits bs) (dead : List ℕ) : countOf (marked bs dead) = bs.length := by
  have := congrArg List.length (h.slots_marked dead)
  simpa [slots] using this

theorem getElem?_slotList (start : ℕ) (hi : i < bs.length) : (slotList start bs)[i]? =
    some (start - total (bs.take i) - (bs[i]).length, (bs[i]).length) := by
  induction bs generalizing start i with
  | nil => simp at hi
  | cons b bs ih =>
      cases i with
      | zero => simp [slotList]
      | succ i =>
          simp only [slotList, List.getElem_cons_succ, List.getElem?_cons_succ, List.take_succ_cons,
            total_cons]
          rw [ih _ (by simpa using hi), Nat.sub_sub start b.length]

theorem slice_marked (h : Fits bs) (dead : List ℕ) (hi : i < bs.length) :
    slice (marked bs dead) (pageSize - total (bs.take i) - (bs[i]).length) (bs[i]).length =
      bs[i] := by
  have hsplit : bs = bs.take i ++ bs[i] :: bs.drop (i + 1) := by simp
  have hused := h.used_le
  have htotal : total bs = total (bs.take i) + ((bs[i]).length + total (bs.drop (i + 1))) := by
    conv_lhs => rw [hsplit]
    rw [total_append, total_cons]
  have hslice := slice_packedBody (b := bs[i]) (bs.take i) (bs.drop (i + 1)) (by rwa [← hsplit])
  rw [← hsplit] at hslice
  rw [marked, slice_rawPage]
  · rw [List.length_mapIdx, length_slotList, hslice]
  · rw [List.length_mapIdx, length_slotList]
    unfold used at hused
    omega

theorem slot_marked (h : Fits bs) {dead : List ℕ} (hi : i < bs.length) (hlive : i ∉ dead) :
    slot (marked bs dead) i =
      (pageSize - total (bs.take i) - (bs[i]).length, (bs[i]).length) := by
  have hslots := h.slots_marked dead
  have hget : (slots (marked bs dead))[i]? = some (slot (marked bs dead) i) := by
    rw [slots, List.getElem?_map, h.countOf_marked, List.getElem?_range hi]
    rfl
  rw [hslots, List.getElem?_mapIdx, getElem?_slotList _ hi] at hget
  simp only [hlive, if_false, Option.map_some, Option.some.injEq] at hget
  exact hget.symm

/-- Two indexed lists filtered alike. -/
theorem filterMap_zipIdx_congr {α β γ : Type} {xs : List α} {ys : List β} {f : α × ℕ → Option γ}
    {g : β × ℕ → Option γ} (hlen : xs.length = ys.length)
    (h : ∀ i (hx : i < xs.length) (hy : i < ys.length), f (xs[i], i) = g (ys[i], i)) :
    xs.zipIdx.filterMap f = ys.zipIdx.filterMap g := by
  have hmap : xs.zipIdx.map f = ys.zipIdx.map g := by
    apply List.ext_getElem
    · simp [hlen]
    · intro i hi hi'
      simpa using h i (by simpa using hi) (by simpa using hi')
  have hid := congrArg (List.filterMap id) hmap
  simpa only [List.filterMap_map, Function.id_comp] using hid

theorem liveDocs_marked (h : Fits bs) (dead : List ℕ) :
    liveDocs (marked bs dead) = survivors bs dead := by
  rw [liveDocs, h.slots_marked, survivors_eq_filterMap]
  refine filterMap_zipIdx_congr (by simp) ?_
  intro i hi hi'
  have hget := getElem?_slotList pageSize hi'
  rw [List.getElem?_eq_getElem (by simpa using hi'), Option.some.injEq] at hget
  rw [List.getElem_mapIdx, hget]
  have hpos := h.nonempty _ (List.getElem_mem hi')
  by_cases hdead : i ∈ dead
  · simp [hdead]
  · simp only [hdead, if_false, hpos, if_true, h.slice_marked dead hi']

theorem sublist {bs bs' : List (List UInt8)} (h : Fits bs) (hsub : bs'.Sublist bs) : Fits bs' := by
  have hlen := hsub.length_le
  have htotal : total bs' ≤ total bs := (hsub.map List.length).sum_le_sum fun _ _ => Nat.zero_le _
  have hused := h.used_le
  refine ⟨?_, fun b hb => h.nonempty b (hsub.subset hb)⟩
  unfold used at hused ⊢
  omega

theorem repack_marked (h : Fits bs) (dead : List ℕ) :
    repack (marked bs dead) =
      (image ((survivors bs dead).map Prod.snd),
        (survivors bs dead).zipIdx.map fun p => (p.1.1, p.2)) := by
  rw [repack, h.liveDocs_marked]
  simp only [packDocs_zeroPage (h.sublist (survivors_sublist bs dead))]

/-- Slot and content of one document among the others. -/
theorem doc_marked {pre post : List (List UInt8)} (h : Fits (pre ++ b :: post)) (dead : List ℕ)
    (hlive : pre.length ∉ dead) :
    ∃ off, slot (marked (pre ++ b :: post) dead) pre.length = (off, b.length) ∧
      slice (marked (pre ++ b :: post) dead) off b.length = b := by
  have hi : pre.length < (pre ++ b :: post).length := by simp
  have hslot := h.slot_marked hi hlive
  have hslice := h.slice_marked dead hi
  rw [List.getElem_append_right le_rfl] at hslot hslice
  simp only [Nat.sub_self, List.getElem_cons_zero] at hslot hslice
  exact ⟨_, hslot, hslice⟩

end Fits

end Docsql.Heap
