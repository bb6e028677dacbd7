import Docsql.BTree.EagerLookup
import Docsql.BTree.Session
import Docsql.Lib.DepthFirst

/-!
# Releasing a tree

`collect_pages` lists the pages of a tree that is dropped or rebuilt, and each of
them goes back to the pager.  A page listed twice would later serve two trees, so
a page reached again is passed over.
-/

namespace Docsql.BTree

open BPlusTree (LevelTree flat)
open DepthFirst (Visits)
open StateExcept (bind_ok bind_eq_ok_iff)
open Relation (ReflTransGen)

/-- The pages listed so far, and the set that guards against listing one twice. -/
structure Collected where
  out : List ℕ
  seen : Finset ℕ

def Collected.push (id : ℕ) (c : Collected) : Collected where
  out := c.out ++ [id]
  seen := c.seen ∪ {id}

def collectChildren (visit : ℕ → Collected → BTreeM Collected) :
    List ℕ → Collected → BTreeM Collected
  | [], c => return c
  | id :: ids, c => do
    let c ← visit id c
    collectChildren visit ids c

section Codec

variable (codec : DecimalCodec)

def collectRec : ℕ → ℕ → Collected → BTreeM Collected
  | 0, _, _ => throw (.corrupt "tree depth exceeds limit (cycle?)")
  | room + 1, id, c =>
    if id ∈ c.seen then return c
    else do
      let c := c.push id
      match ← readNode codec id with
      | .leaf _ => return c
      | .internal leftmost cells =>
        let c ← collectRec room leftmost c
        collectChildren (collectRec room) (cells.map Prod.snd) c

def collectPages (root : ℕ) : BTreeM (List ℕ) := do
  let c ← collectRec codec (maxTreeDepth + 1) root ⟨[], ∅⟩
  return c.out

def freePage (id : ℕ) : BTreeM Unit := StateExcept.mapError .pager (Store.freePage id)

/-- The loop of `free_table_storage` over one tree. -/
def releaseTree (root : ℕ) : BTreeM Unit := do
  let pages ← collectPages codec root
  StateExcept.forEach freePage pages

/-- Page `b` is a child of the node on page `a`. -/
def Points (s : Store) (a b : ℕ) : Prop :=
  ∃ node, readNode codec a s = (.ok node, s) ∧ b ∈ node.children

end Codec

variable {codec : DecimalCodec} {s s' : Store}

/-! ## What is listed -/

/-- The set of the listed pages. -/
def Collected.of (out : List ℕ) : Collected := ⟨out, out.toFinset⟩

theorem Collected.push_of (id : ℕ) (out : List ℕ) :
    (Collected.of out).push id = .of (out ++ [id]) := by
  rw [push, of, of, List.toFinset_append]
  rfl

theorem Collected.mem_seen_of {id : ℕ} {out : List ℕ} : id ∈ (of out).seen ↔ id ∈ out :=
  List.mem_toFinset

/-- A finished call has visited the page and left the store alone. -/
def Lists (codec : DecimalCodec) (s : Store) (ids : List ℕ) (out : List ℕ)
    (run : Except BTreeError Collected × Store) : Prop :=
  ∀ c s', run = (.ok c, s') → s' = s ∧ ∃ out', c = .of out' ∧ Visits (Points codec s) out out' ids

theorem collectChildren_lists {visit : ℕ → Collected → BTreeM Collected}
    (hvisit : ∀ id out, Lists codec s [id] out (visit id (.of out) s)) (ids out : List ℕ) :
    Lists codec s ids out (collectChildren visit ids (.of out) s) := by
  induction ids generalizing out with
  | nil =>
      intro c s' h
      cases h
      exact ⟨rfl, out, rfl, .nil⟩
  | cons id ids ih =>
      intro c s' h
      obtain ⟨c₁, s₁, hfirst, hrest⟩ := bind_eq_ok_iff.mp h
      obtain ⟨rfl, mid, rfl, hmid⟩ := hvisit id out c₁ s₁ hfirst
      obtain ⟨rfl, out', rfl, hout'⟩ := ih mid c s' hrest
      exact ⟨rfl, out', rfl, hmid.append hout'⟩

theorem points_iff {id : ℕ} {node : Node} (h : readNode codec id s = (.ok node, s)) (w : ℕ) :
    Points codec s id w ↔ w ∈ node.children := by
  refine ⟨?_, fun hw => ⟨node, h, hw⟩⟩
  rintro ⟨node', h', hw⟩
  rw [h] at h'
  cases h'
  exact hw

theorem collectRec_lists (room id : ℕ) (out : List ℕ) :
    Lists codec s [id] out (collectRec codec room id (.of out) s) := by
  induction room generalizing id out with
  | zero =>
      intro c s' h
      cases h
  | succ room ih =>
      intro c s' h
      rw [collectRec] at h
      by_cases hseen : id ∈ out
      · rw [if_pos (Collected.mem_seen_of.mpr hseen)] at h
        cases h
        exact ⟨rfl, out, rfl, .seen hseen⟩
      · rw [if_neg (mt Collected.mem_seen_of.mp hseen)] at h
        simp only [Collected.push_of] at h
        obtain ⟨node, s₁, hread, h⟩ := bind_eq_ok_iff.mp h
        have hkeep := readNode_state codec s id
        rw [hread] at hkeep
        obtain rfl : s₁ = s := hkeep
        cases node with
        | leaf cells =>
          cases h
          exact ⟨rfl, _, rfl, .enter hseen (points_iff hread) .nil⟩
        | internal leftmost cells =>
          obtain ⟨c₁, s₂, hfirst, hrest⟩ := bind_eq_ok_iff.mp h
          obtain ⟨rfl, mid, rfl, hmid⟩ := ih leftmost _ c₁ s₂ hfirst
          obtain ⟨rfl, out', rfl, hout'⟩ := collectChildren_lists ih _ mid c s' hrest
          exact ⟨rfl, out', rfl, .enter hseen (points_iff hread) (hmid.append hout')⟩

/-- Whatever the pages look like, a list that is returned holds each page
reachable from the root once. -/
theorem collectPages_reachable {root : ℕ} {pages : List ℕ}
    (h : collectPages codec root s = (.ok pages, s')) :
    s' = s ∧ pages.Nodup ∧ ∀ id, id ∈ pages ↔ ReflTransGen (Points codec s) root id := by
  obtain ⟨c, s₁, hrun, h⟩ := bind_eq_ok_iff.mp h
  obtain ⟨rfl, out, rfl, hvisits⟩ := collectRec_lists (maxTreeDepth + 1) root [] c s₁ hrun
  cases h
  exact ⟨rfl, hvisits.reachable⟩

/-! ## Trees in order -/

section Held

variable {h : ℕ}

theorem collectChildren_held {visit : ℕ → Collected → BTreeM Collected}
    {rest : List (Value × PageTree h)}
    (hvisit : ∀ c ∈ rest, ∀ out : List ℕ, (∀ id ∈ c.2.pages, id ∉ out) →
      visit c.2.root (.of out) s = (.ok (.of (out ++ c.2.pages)), s))
    (hnodup : (rest.flatMap fun c => c.2.pages).Nodup) (out : List ℕ)
    (hnew : ∀ id ∈ rest.flatMap fun c => c.2.pages, id ∉ out) :
    collectChildren visit (rest.map fun c => c.2.root) (.of out) s =
      (.ok (.of (out ++ rest.flatMap fun c => c.2.pages)), s) := by
  induction rest generalizing out with
  | nil =>
      rw [List.flatMap_nil, List.append_nil]
      rfl
  | cons c rest ih =>
      rw [List.flatMap_cons] at hnodup hnew
      obtain ⟨-, hrest, hdisj⟩ := List.nodup_append.mp hnodup
      have hfirst := hvisit c List.mem_cons_self out fun id hid =>
        hnew id (List.mem_append_left _ hid)
      rw [List.map_cons, collectChildren, bind_ok hfirst, List.flatMap_cons, ← List.append_assoc]
      apply ih (fun d hd => hvisit d (List.mem_cons_of_mem c hd)) hrest
      intro id hid hout
      rcases List.mem_append.mp hout with hout | hout
      · exact hnew id (List.mem_append_right _ hid) hout
      · exact hdisj id hout id hid rfl

/-- A tree in order is listed from the root to the leaves, left to right. -/
theorem collectRec_held {room : ℕ} {t : PageTree h} (hroom : h < room) (hs : s.Ok)
    (hown : s.Owns t.pages) (hrep : Represents codec s.image t) (hfits : t.Fits (layout codec))
    (out : List ℕ) (hnew : ∀ id ∈ t.pages, id ∉ out) :
    collectRec codec room t.root (.of out) s = (.ok (.of (out ++ t.pages)), s) := by
  induction h generalizing room out with
  | zero =>
      obtain ⟨id, cells⟩ := t
      obtain ⟨room, rfl⟩ : ∃ r, room = r + 1 := ⟨room - 1, by omega⟩
      have hid : id ∉ out := hnew id List.mem_cons_self
      rw [LevelTree.root, collectRec, if_neg (mt Collected.mem_seen_of.mp hid),
        bind_ok (readNode_leaf hown hrep hfits), Collected.push_of]
      rfl
  | succ h ih =>
      obtain ⟨id, first, rest⟩ := t
      obtain ⟨room, rfl⟩ : ∃ r, room = r + 1 := ⟨room - 1, by omega⟩
      have hid : id ∉ out := hnew id List.mem_cons_self
      obtain ⟨hroot, hflat⟩ := List.nodup_cons.mp hown.nodup
      obtain ⟨-, hrest, hdisj⟩ := List.nodup_append.mp hflat
      have hbelow : ∀ id' ∈ flat LevelTree.pages first rest, id' ∉ out ++ [id] := by
        intro id' hid' hout
        rcases List.mem_append.mp hout with hout | hout
        · exact hnew id' (List.mem_cons_of_mem id hid') hout
        · rw [List.mem_singleton.mp hout] at hid'
          exact hroot hid'
      have hfirst : collectRec codec room first.root (.of (out ++ [id])) s =
          (.ok (.of (out ++ [id] ++ first.pages)), s) := by
        apply ih (by omega) (child_owns (i := 0) hown (Nat.zero_le _)) hrep.2.1 hfits.2.2.1
        intro id' hid'
        exact hbelow id' (List.mem_append_left _ hid')
      have hcells : collectChildren (collectRec codec room) (rest.map fun c => c.2.root)
          (.of (out ++ [id] ++ first.pages)) s =
          (.ok (.of (out ++ [id] ++ first.pages ++ rest.flatMap fun c => c.2.pages)), s) := by
        apply collectChildren_held _ hrest
        · intro id' hid' hout
          rcases List.mem_append.mp hout with hout | hout
          · exact hbelow id' (List.mem_append_right _ hid') hout
          · exact hdisj id' hout id' hid' rfl
        · intro c hc out' hnew'
          obtain ⟨i, hi⟩ := List.mem_iff_getElem?.mp hc
          have hlt : i + 1 ≤ rest.length := (List.getElem?_eq_some_iff.mp hi).1
          have howns := child_owns hown hlt
          rw [BPlusTree.child_succ first hi] at howns
          exact ih (by omega) howns (hrep.2.2 c hc) (hfits.2.2.2 c hc) out' hnew'
      have hroots : (childCells rest).map Prod.snd = rest.map fun c => c.2.root := by
        simp [childCells]
      rw [LevelTree.root, collectRec, if_neg (mt Collected.mem_seen_of.mp hid),
        bind_ok (readNode_internal hs hown hrep hfits), Collected.push_of]
      simp only
      rw [bind_ok hfirst, hroots, hcells]
      simp [LevelTree.pages_succ, flat]

theorem collectPages_held {root : ℕ} {t : PageTree h} (ht : Holds codec s root t)
    (hdepth : h ≤ maxTreeDepth) : collectPages codec root s = (.ok t.pages, s) := by
  have hrun : collectRec codec (maxTreeDepth + 1) t.root (.of []) s = (.ok (.of t.pages), s) :=
    collectRec_held (Nat.lt_succ_of_le hdepth) ht.store ht.owns ht.represents ht.fits []
      fun _ _ h => by cases h
  rw [ht.root_eq] at hrun
  rw [collectPages, bind_ok (a := .of t.pages) hrun]
  rfl

end Held

/-! ## What is released -/

/-- The pages joined the reusable ones and nothing else changed. -/
structure Released (s s' : Store) (pages : List ℕ) : Prop where
  image : s'.image = s.image
  numPages : s'.numPages = s.numPages
  ok : s.Ok → s'.Ok
  mem_reusable : ∀ id, id ∈ s'.reusable ↔ id ∈ s.reusable ∨ id ∈ pages

theorem Released.refl : Released s s [] where
  image := rfl
  numPages := rfl
  ok hs := hs
  mem_reusable id := by simp

theorem Released.trans {s'' : Store} {xs ys : List ℕ} (hxs : Released s s' xs)
    (hys : Released s' s'' ys) : Released s s'' (xs ++ ys) where
  image := hys.image.trans hxs.image
  numPages := hys.numPages.trans hxs.numPages
  ok hs := hys.ok (hxs.ok hs)
  mem_reusable id := by
    rw [hys.mem_reusable, hxs.mem_reusable, List.mem_append, or_assoc]

theorem freePage_released {id : ℕ} (h : freePage id s = (.ok (), s')) : Released s s' [id] := by
  rw [freePage, StateExcept.mapError, Store.freePage, StateExcept.read_bind] at h
  by_cases hin : id = 0 ∨ s.numPages ≤ id
  · rw [if_pos hin] at h
    cases h
  · rw [if_neg hin] at h
    cases h
    have hmem : ∀ id', id' ∈ (if id ∈ s.reusable then s.reusable else id :: s.reusable) ↔
        id' ∈ s.reusable ∨ id' ∈ [id] := by
      intro id'
      rw [List.mem_singleton]
      split_ifs with hfree
      · refine ⟨.inl, ?_⟩
        rintro (h | rfl)
        · exact h
        · exact hfree
      · rw [List.mem_cons, or_comm]
    refine ⟨rfl, rfl, fun hs => ⟨hs.pos, hs.lt, ?_, ?_⟩, hmem⟩
    · show (if id ∈ s.reusable then s.reusable else id :: s.reusable).Nodup
      split_ifs with hfree
      · exact hs.nodup
      · exact List.nodup_cons.mpr ⟨hfree, hs.nodup⟩
    · intro id' hid'
      rcases (hmem id').mp hid' with hold | hnew
      · exact hs.range id' hold
      · rw [List.mem_singleton.mp hnew]
        exact ⟨Nat.pos_of_ne_zero fun h => hin (.inl h), not_le.mp fun h => hin (.inr h)⟩

theorem freePages_released {pages : List ℕ}
    (h : StateExcept.forEach freePage pages s = (.ok (), s')) : Released s s' pages := by
  induction pages generalizing s with
  | nil =>
      cases h
      exact .refl
  | cons id pages ih =>
      obtain ⟨_, s₁, hfirst, hrest⟩ := bind_eq_ok_iff.mp h
      exact (freePage_released hfirst).trans (ih hrest)

theorem freePages_ok {pages : List ℕ} (h : ∀ id ∈ pages, s.InFile id) :
    ∃ s', StateExcept.forEach freePage pages s = (.ok (), s') := by
  induction pages generalizing s with
  | nil => exact ⟨s, rfl⟩
  | cons id pages ih =>
      have hin : ¬(id = 0 ∨ s.numPages ≤ id) :=
        not_or.mpr ⟨(h id List.mem_cons_self).1.ne', not_le.mpr (h id List.mem_cons_self).2⟩
      obtain ⟨s₁, hfirst⟩ : ∃ s₁, freePage id s = (.ok (), s₁) := by
        rw [freePage, StateExcept.mapError, Store.freePage, StateExcept.read_bind, if_neg hin]
        exact ⟨_, rfl⟩
      have hnum := (freePage_released hfirst).numPages
      obtain ⟨s', hrest⟩ := ih (s := s₁) fun id' hid' => by
        have := h id' (List.mem_cons_of_mem id hid')
        rwa [Store.InFile, hnum]
      exact ⟨s', bind_eq_ok_iff.mpr ⟨(), s₁, hfirst, hrest⟩⟩

/-- Pages that belonged to someone come back once each. -/
theorem Released.available {pages : List ℕ} (h : Released s s' pages) (hs : s.Ok)
    (hown : s.Owns pages) : s'.available = s.available + pages.length := by
  have hnodup : (pages ++ s.reusable).Nodup :=
    List.nodup_append.mpr ⟨hown.nodup, hs.nodup, fun a ha b hb hab => hown.live a ha (hab ▸ hb)⟩
  have hperm : s'.reusable.Perm (pages ++ s.reusable) := by
    apply (List.perm_ext_iff_of_nodup (h.ok hs).nodup hnodup).mpr
    intro id
    rw [h.mem_reusable, List.mem_append, or_comm]
  have hlen := hperm.length_eq
  rw [List.length_append] at hlen
  rw [Store.available, Store.available, h.numPages]
  omega

theorem Released.holds {pages : List ℕ} (h : Released s s' pages) {h' : ℕ} {root : ℕ}
    {t : PageTree h'} (ht : Holds codec s root t) (hdisj : t.pages.Disjoint pages) :
    Holds codec s' root t where
  store := h.ok ht.store
  owns := by
    refine ⟨ht.owns.nodup, ?_, ?_⟩
    · intro id hid
      rw [Store.InFile, h.numPages]
      exact ht.owns.inFile id hid
    · intro id hid hfree
      rcases (h.mem_reusable id).mp hfree with hold | hnew
      · exact ht.owns.live id hid hold
      · exact hdisj hid hnew
  represents := by
    rw [h.image]
    exact ht.represents
  fits := ht.fits
  root_eq := ht.root_eq

end Docsql.BTree
