import Docsql.Lib.StateExcept

/-!
# An ideal page store

The pager as one writer sees it: a page reads back as it was last written, and
an allocated page is taken from the reusable pool or appended to the file.
`After s s' k touched` says that `s'` was reached from `s` by `k` allocations
and by writes to those pages and to `touched` only.
-/

namespace Docsql

inductive PagerError where
  | outOfRange (id numPages : ℕ)
  | pageIdExhausted (numPages : ℕ)
deriving DecidableEq, Repr

abbrev Page := List UInt8

def pageSize : ℕ := 4096

/-- The reusable pages are listed in the order they are handed out. -/
structure Store where
  image : ℕ → Page
  reusable : List ℕ
  numPages : ℕ

def zeroPage : Page := List.replicate pageSize 0

abbrev StoreM := StateExcept Store PagerError

namespace Store

open StateExcept (read update)

def allocatePage : StoreM ℕ := do
  let s ← read
  match s.reusable with
  | id :: rest =>
    update fun s => { s with reusable := rest, image := Function.update s.image id zeroPage }
    return id
  | [] =>
    if s.numPages = 0 ∨ s.numPages = 2 ^ 32 - 1 then throw (.pageIdExhausted s.numPages)
    else
      update fun s => { s with
        numPages := s.numPages + 1
        image := Function.update s.image s.numPages zeroPage }
      return s.numPages

def readPage (id : ℕ) : StoreM Page := do
  let s ← read
  if id = 0 ∨ s.numPages ≤ id then throw (.outOfRange id s.numPages)
  else return s.image id

def writePage (id : ℕ) (page : Page) : StoreM Unit := do
  let s ← read
  if id = 0 ∨ s.numPages ≤ id then throw (.outOfRange id s.numPages)
  else update fun s => { s with image := Function.update s.image id page }

/-- The pool keeps every page once. -/
def freePage (id : ℕ) : StoreM Unit := do
  let s ← read
  if id = 0 ∨ s.numPages ≤ id then throw (.outOfRange id s.numPages)
  else update fun s => { s with
    reusable := if id ∈ s.reusable then s.reusable else id :: s.reusable }

/-! ## Which pages an operation touches -/

/-- The reusable pages are distinct pages of the file, and ids are 32 bit. -/
structure Ok (s : Store) : Prop where
  pos : 0 < s.numPages
  lt : s.numPages < 2 ^ 32
  nodup : s.reusable.Nodup
  range : ∀ id ∈ s.reusable, 0 < id ∧ id < s.numPages

def InFile (s : Store) (id : ℕ) : Prop := 0 < id ∧ id < s.numPages

/-- The page the `i`-th allocation from here on returns. -/
def fresh (s : Store) (i : ℕ) : ℕ := s.reusable.getD i (s.numPages + (i - s.reusable.length))

/-- How many pages can still be allocated. -/
def available (s : Store) : ℕ := s.reusable.length + (2 ^ 32 - 1 - s.numPages)

structure After (s s' : Store) (k : ℕ) (touched : List ℕ) : Prop where
  reusable : s'.reusable = s.reusable.drop k
  numPages : s'.numPages = s.numPages + (k - s.reusable.length)
  image : ∀ id, id ∉ touched → (∀ i < k, id ≠ s.fresh i) → s'.image id = s.image id

/-- The pages belong to someone: they are distinct and not reusable. -/
structure Owns (s : Store) (pages : List ℕ) : Prop where
  nodup : pages.Nodup
  inFile : ∀ id ∈ pages, s.InFile id
  live : ∀ id ∈ pages, id ∉ s.reusable

variable {s s' s'' : Store} {k i j : ℕ} {touched pages : List ℕ}

theorem fresh_of_lt (h : i < s.reusable.length) : s.fresh i = s.reusable[i] := by
  simp [fresh, h]

theorem fresh_of_le (h : s.reusable.length ≤ i) :
    s.fresh i = s.numPages + (i - s.reusable.length) := by
  simp [fresh, h]

theorem Ok.fresh_injective (hs : s.Ok) (h : s.fresh i = s.fresh j) : i = j := by
  rcases lt_or_ge i s.reusable.length with hi | hi <;>
    rcases lt_or_ge j s.reusable.length with hj | hj
  · rw [fresh_of_lt hi, fresh_of_lt hj] at h
    exact (List.Nodup.getElem_inj_iff hs.nodup).mp h
  · rw [fresh_of_lt hi, fresh_of_le hj] at h
    have := (hs.range _ (List.getElem_mem hi)).2
    omega
  · rw [fresh_of_le hi, fresh_of_lt hj] at h
    have := (hs.range _ (List.getElem_mem hj)).2
    omega
  · rw [fresh_of_le hi, fresh_of_le hj] at h
    omega

theorem Owns.ne_fresh (h : s.Owns pages) {id : ℕ} (hid : id ∈ pages) (i : ℕ) :
    id ≠ s.fresh i := by
  rintro rfl
  rcases lt_or_ge i s.reusable.length with hi | hi
  · rw [fresh_of_lt hi] at hid
    exact h.live _ hid (List.getElem_mem hi)
  · rw [fresh_of_le hi] at hid
    have := (h.inFile _ hid).2
    omega

theorem After.refl (s : Store) : After s s 0 [] :=
  ⟨by simp, by simp, fun _ _ _ => rfl⟩

theorem After.fresh (h : After s s' k touched) (i : ℕ) : s'.fresh i = s.fresh (k + i) := by
  have hlen : s'.reusable.length = s.reusable.length - k := by
    rw [h.reusable, List.length_drop]
  rcases lt_or_ge i s'.reusable.length with hi | hi
  · rw [fresh_of_lt hi, fresh_of_lt (by omega)]
    simp [h.reusable]
  · rw [fresh_of_le hi, fresh_of_le (by omega), h.numPages]
    omega

theorem After.trans {k' : ℕ} {touched' : List ℕ} (h : After s s' k touched)
    (h' : After s' s'' k' touched') : After s s'' (k + k') (touched ++ touched') := by
  refine ⟨?_, ?_, ?_⟩
  · rw [h'.reusable, h.reusable, List.drop_drop]
  · rw [h'.numPages, h.numPages, h.reusable, List.length_drop]
    omega
  · intro id hid hfresh
    rw [List.mem_append, not_or] at hid
    rw [h'.image id hid.2, h.image id hid.1]
    · exact fun i hi => hfresh i (by omega)
    · intro i hi
      rw [h.fresh]
      exact hfresh _ (by omega)

theorem After.mono {touched' : List ℕ} (h : After s s' k touched)
    (hsub : ∀ id ∈ touched, id ∈ touched' ∨ ∃ i < k, id = s.fresh i) :
    After s s' k touched' := by
  refine ⟨h.reusable, h.numPages, ?_⟩
  intro id hid hfresh
  refine h.image id ?_ hfresh
  intro hmem
  rcases hsub id hmem with htouch | ⟨i, hi, rfl⟩
  · exact hid htouch
  · exact hfresh i hi rfl

theorem After.available (hs : s.Ok) (h : After s s' k touched) (hk : k ≤ s.available) :
    s'.available + k = s.available := by
  have := hs.lt
  unfold Store.available at hk ⊢
  rw [h.reusable, h.numPages, List.length_drop]
  omega

theorem After.ok (hs : s.Ok) (h : After s s' k touched) (hk : k ≤ s.available) : s'.Ok := by
  have hpos := hs.pos
  have hlt := hs.lt
  unfold Store.available at hk
  refine ⟨?_, ?_, ?_, ?_⟩
  · rw [h.numPages]
    omega
  · rw [h.numPages]
    omega
  · rw [h.reusable]
    exact hs.nodup.sublist (List.drop_sublist k _)
  · intro id hid
    rw [h.reusable] at hid
    have := hs.range id (List.mem_of_mem_drop hid)
    rw [h.numPages]
    omega

theorem After.inFile (h : After s s' k touched) {id : ℕ} (hid : s.InFile id) : s'.InFile id := by
  obtain ⟨hpos, hlt⟩ := hid
  refine ⟨hpos, ?_⟩
  rw [h.numPages]
  omega

theorem After.fresh_inFile (hs : s.Ok) (h : After s s' k touched) (hi : i < k) :
    s'.InFile (s.fresh i) := by
  have hpos := hs.pos
  rcases lt_or_ge i s.reusable.length with hlt | hle
  · rw [fresh_of_lt hlt]
    exact h.inFile (hs.range _ (List.getElem_mem hlt))
  · rw [fresh_of_le hle]
    refine ⟨by omega, ?_⟩
    rw [h.numPages]
    omega

/-- The tree takes over the pages that were allocated. -/
theorem Owns.after {pages' : List ℕ} (hs : s.Ok) (hown : s.Owns pages)
    (h : After s s' k touched)
    (hperm : pages'.Perm (pages ++ (List.range k).map s.fresh)) : s'.Owns pages' := by
  have hmem : ∀ id ∈ pages', id ∈ pages ∨ ∃ i < k, s.fresh i = id := by
    intro id hid
    simpa using hperm.mem_iff.mp hid
  refine ⟨?_, ?_, ?_⟩
  · rw [hperm.nodup_iff]
    refine List.Nodup.append hown.nodup ?_ ?_
    · exact List.nodup_range.map fun _ _ h => hs.fresh_injective h
    · intro id hid hfresh
      obtain ⟨i, -, rfl⟩ := List.mem_map.mp hfresh
      exact hown.ne_fresh hid i rfl
  · intro id hid
    rcases hmem id hid with hid | ⟨i, hi, rfl⟩
    · exact h.inFile (hown.inFile id hid)
    · exact h.fresh_inFile hs hi
  · intro id hid hin
    rw [h.reusable] at hin
    rcases hmem id hid with hid | ⟨i, hi, rfl⟩
    · exact hown.live id hid (List.mem_of_mem_drop hin)
    · obtain ⟨j, hj, heq⟩ := List.mem_drop_iff_getElem.mp hin
      rw [← fresh_of_lt (i := k + j) (by omega)] at heq
      have := hs.fresh_injective heq
      omega


/-! ## Page operations -/

theorem readPage_ok {id : ℕ} (h : s.InFile id) : readPage id s = (.ok (s.image id), s) := by
  have : ¬(id = 0 ∨ s.numPages ≤ id) := by
    obtain ⟨hpos, hlt⟩ := h
    omega
  rw [readPage, StateExcept.read_bind, if_neg this]
  rfl

theorem writePage_ok {id : ℕ} {page : Page} (h : s.InFile id) :
    writePage id page s = (.ok (), { s with image := Function.update s.image id page }) := by
  have : ¬(id = 0 ∨ s.numPages ≤ id) := by
    obtain ⟨hpos, hlt⟩ := h
    omega
  rw [writePage, StateExcept.read_bind, if_neg this]
  rfl

theorem after_write (s : Store) (id : ℕ) (page : Page) :
    s.After { s with image := Function.update s.image id page } 0 [id] := by
  refine ⟨by simp, by simp, ?_⟩
  intro id' hid _
  exact Function.update_of_ne (by simpa using hid) _ _

theorem allocatePage_ok (hs : s.Ok) (h : 0 < s.available) :
    ∃ s', allocatePage s = (.ok (s.fresh 0), s') ∧ s.After s' 1 [] := by
  unfold Store.available at h
  cases hre : s.reusable with
  | cons id rest =>
      refine ⟨{ s with reusable := rest, image := Function.update s.image id zeroPage }, ?_, ?_⟩
      · rw [allocatePage, StateExcept.read_bind, hre]
        simp [Store.fresh, hre]
      · refine ⟨by simp [hre], by simp [hre], ?_⟩
        intro id' _ hne
        exact Function.update_of_ne (by simpa [Store.fresh, hre] using hne 0) _ _
  | nil =>
      have hpos := hs.pos
      rw [hre, List.length_nil] at h
      refine ⟨{ s with
        numPages := s.numPages + 1
        image := Function.update s.image s.numPages zeroPage }, ?_, ?_⟩
      · rw [allocatePage, StateExcept.read_bind, hre]
        simp only
        rw [if_neg (by omega)]
        simp [Store.fresh, hre]
      · refine ⟨by simp [hre], by simp [hre], ?_⟩
        intro id' _ hne
        exact Function.update_of_ne (by simpa [Store.fresh, hre] using hne 0) _ _

theorem allocatePage_exhausted (hs : s.Ok) (h : s.available = 0) :
    allocatePage s = (.error (.pageIdExhausted s.numPages), s) := by
  have hlt := hs.lt
  unfold Store.available at h
  have hre : s.reusable = [] := List.length_eq_zero_iff.mp (by omega)
  rw [allocatePage, StateExcept.read_bind, hre]
  simp only
  rw [if_pos (by omega)]
  rfl

end Store

end Docsql
