import Docsql.BTree.Multimap
import Docsql.BTree.Range

/-!
# Windows of a scan

Every range walk returns the entries of the full scan that lie inside its bounds, in its order,
up to its cap.
-/

namespace Docsql.BTree

open BPlusTree StateExcept
open Lib

variable {codec : DecimalCodec} {h : ℕ} {s : Store} {strict : Bool} {lo hi : Option Value}

/-! ## The whole tree, descending -/

section Descending

variable {max : Option ℕ} {room : ℕ}

theorem revView_none_keeps (c : Value × UInt64) : (revView none none).keeps c = true := rfl

theorem pushCells_eq_read (cells out : Pairs) :
    pushCells max cells out = (Window.read (revView none none) max cells out).2 := by
  induction cells generalizing out with
  | nil => rfl
  | cons c cells ih =>
    rw [pushCells, Window.read_keep (revView_none_keeps c), ih, filled_eq_full]
    split <;> rfl

/-- A window that keeps everything is read piece by piece. -/
theorem read_append_all (xs ys out : Pairs) :
    Window.read (revView none none) max (xs ++ ys) out =
      if (Window.read (revView none none) max xs out).1 then
        Window.read (revView none none) max ys (Window.read (revView none none) max xs out).2
      else Window.read (revView none none) max xs out :=
  Window.read_append fun _ _ _ _ hpast => absurd hpast Bool.false_ne_true

theorem scanChildren_filled {visit : ℕ → Pairs → BTreeM Pairs} {children : List ℕ} {out : Pairs}
    (hout : filled max out = true) : scanChildren max visit children out s = (.ok out, s) := by
  cases children with
  | nil => rfl
  | cons child children =>
    rw [scanChildren, if_pos hout]
    rfl

theorem scanChildren_sim {visit : ℕ → Pairs → BTreeM Pairs} {ts : List (PageTree h)}
    (hvisit : ∀ t ∈ ts, ∀ out, ¬filled max out = true → visit t.root out s =
      (.ok (Window.read (revView none none) max t.toList.reverse out).2, s))
    {out : Pairs} (hout : ¬filled max out = true) :
    scanChildren max visit (ts.map LevelTree.root) out s =
      (.ok (Window.read (revView none none) max
        (ts.flatMap fun t => t.toList.reverse) out).2, s) := by
  induction ts generalizing out with
  | nil => rfl
  | cons t ts ih =>
    have hrest {out : Pairs} (hout : ¬filled max out = true) :=
      ih (fun t ht => hvisit t (List.mem_cons_of_mem _ ht)) hout
    rw [List.map_cons, scanChildren, if_neg hout, bind_ok (hvisit t List.mem_cons_self out hout),
      List.flatMap_cons, read_append_all]
    have hfull := not_filled_iff none none t.toList.reverse hout
    cases hread : Window.read (revView none none) max t.toList.reverse out with
    | mk more out' =>
      rw [hread] at hfull
      cases more with
      | true => exact hrest (ne_true_of_eq_false hfull)
      | false => exact scanChildren_filled hfull

theorem scanRevRec_filled {id : ℕ} {out : Pairs} (hout : filled max out = true) :
    scanRevRec codec max (room + 1) id out s = (.ok out, s) := by
  rw [scanRevRec, if_pos hout]
  rfl

theorem scanRevRec_sim {t : PageTree h} (hroom : h < room) (hs : s.Ok)
    (hown : s.Owns t.pages) (hrep : Represents codec s.image t) (hfits : t.Fits (layout codec))
    {out : Pairs} (hout : ¬filled max out = true) :
    scanRevRec codec max room t.root out s =
      (.ok (Window.read (revView none none) max t.toList.reverse out).2, s) := by
  induction h generalizing room out with
  | zero =>
    obtain ⟨id, cells⟩ := t
    obtain ⟨room, rfl⟩ : ∃ r, room = r + 1 := ⟨room - 1, by omega⟩
    rw [LevelTree.root, scanRevRec, if_neg hout, bind_ok (readNode_leaf hown hrep hfits)]
    simp only [pure_apply, pushCells_eq_read, LevelTree.toList]
  | succ h ih =>
    obtain ⟨id, first, rest⟩ := t
    obtain ⟨room, rfl⟩ : ∃ r, room = r + 1 := ⟨room - 1, by omega⟩
    obtain ⟨room, rfl⟩ : ∃ r, room = r + 1 := ⟨room - 1, by omega⟩
    have hroom' : h < room + 1 := by omega
    have hcells : (childCells rest).reverse.map Prod.snd =
        (rest.reverse.map Prod.snd).map LevelTree.root := by
      simp [childCells]
    have hvisit : ∀ t ∈ rest.reverse.map Prod.snd, ∀ out, ¬filled max out = true →
        scanRevRec codec max (room + 1) t.root out s =
          (.ok (Window.read (revView none none) max t.toList.reverse out).2, s) := by
      intro t ht out hout
      obtain ⟨c, hc, rfl⟩ := List.mem_map.1 ht
      have hc' : c ∈ rest := List.mem_reverse.1 hc
      exact ih hroom' (cell_owns hown hc') (hrep.2.2 c hc') (hfits.2.2.2 c hc') hout
    have hchildren := scanChildren_sim hvisit hout
    have hflat : (LevelTree.toList (h := h + 1) ⟨id, first, rest⟩).reverse =
        ((rest.reverse.map Prod.snd).flatMap fun t => t.toList.reverse) ++
          first.toList.reverse := by
      rw [LevelTree.toList_succ, flat, List.reverse_append, List.reverse_flatMap,
        List.flatMap_map]
      rfl
    rw [LevelTree.root, scanRevRec, if_neg hout, bind_ok (readNode_internal hs hown hrep hfits)]
    simp only
    rw [hcells, bind_ok hchildren, hflat, read_append_all]
    have hfull := not_filled_iff none none
      ((rest.reverse.map Prod.snd).flatMap fun t => t.toList.reverse) hout
    have hfirst : s.Owns first.pages := child_owns (i := 0) hown (Nat.zero_le _)
    cases hread : Window.read (revView none none) max
        ((rest.reverse.map Prod.snd).flatMap fun t => t.toList.reverse) out with
    | mk more out' =>
      rw [hread] at hfull
      cases more with
      | true => exact ih hroom' hfirst hrep.2.1 hfits.2.2.1 (ne_true_of_eq_false hfull)
      | false => exact scanRevRec_filled hfull

/-- Below a key that ends a descending walk no key is kept. -/
theorem rev_ordered {below above : Option Bound} {xs : Pairs}
    (hsorted : xs.Pairwise fun p q => cmpValues p.1 q.1 ≠ .gt) :
    Window.Ordered (revView below above) xs.reverse := by
  refine (List.pairwise_reverse.2 hsorted).imp ?_
  rintro p q hqp (hpast | ⟨-, hstop⟩)
  · simp only [revView, Bool.and_eq_true, Bool.not_eq_true'] at hpast
    have hbelow : belowLo q.1 below = true := belowLo_mono hqp hpast.2
    cases hbeyond : beyondHi q.1 above <;> simp [Window.View.keeps, revView, hbelow, hbeyond]
  · cases hstop

end Descending

/-! ## Entries inside bounds -/

/-- Neither below the lower bound nor beyond the upper one. -/
def inside (lo hi : Option Bound) (c : Value × UInt64) : Bool := !belowLo c.1 lo && !beyondHi c.1 hi

theorem inside_iff {lo hi : Option Bound} {c : Value × UInt64} : inside lo hi c = true ↔
    (∀ l incl, lo = some (l, incl) →
      cmpValues c.1 l = .gt ∨ (incl = true ∧ cmpValues c.1 l = .eq)) ∧
    (∀ u incl, hi = some (u, incl) →
      cmpValues c.1 u = .lt ∨ (incl = true ∧ cmpValues c.1 u = .eq)) := by
  have hlo : belowLo c.1 lo = false ↔ ∀ l incl, lo = some (l, incl) →
      cmpValues c.1 l = .gt ∨ (incl = true ∧ cmpValues c.1 l = .eq) := by
    match lo with
    | none => simp [belowLo]
    | some (l, true) => cases hcmp : cmpValues c.1 l <;> simp [belowLo, hcmp]
    | some (l, false) => cases hcmp : cmpValues c.1 l <;> simp [belowLo, hcmp]
  have hhi : beyondHi c.1 hi = false ↔ ∀ u incl, hi = some (u, incl) →
      cmpValues c.1 u = .lt ∨ (incl = true ∧ cmpValues c.1 u = .eq) := by
    match hi with
    | none => simp [beyondHi]
    | some (u, true) => cases hcmp : cmpValues c.1 u <;> simp [beyondHi, hcmp]
    | some (u, false) => cases hcmp : cmpValues c.1 u <;> simp [beyondHi, hcmp]
  rw [inside, Bool.and_eq_true, Bool.not_eq_true', Bool.not_eq_true', hlo, hhi]

theorem hasPrefix_iff {k : Value} {pfx : List Value} : hasPrefix k pfx = true ↔
    ∃ xs ys, k = .array (xs ++ ys) ∧ List.Forall₂ (fun x p => cmpValues x p = .eq) xs pfx := by
  constructor
  · intro hk
    obtain ⟨items, rfl⟩ := hasPrefix_array hk
    induction pfx generalizing items with
    | nil => exact ⟨[], items, rfl, .nil⟩
    | cons p ps ih =>
      cases items with
      | nil => simp [hasPrefix] at hk
      | cons x items =>
        rw [hasPrefix_cons, Bool.and_eq_true, beq_iff_eq] at hk
        obtain ⟨xs, ys, heq, hall⟩ := ih items hk.2
        refine ⟨x :: xs, ys, ?_, .cons hk.1 hall⟩
        rw [List.cons_append, ← Value.array.inj heq]
  · rintro ⟨xs, ys, rfl, hall⟩
    induction hall with
    | nil => exact hasPrefix_nil ys
    | cons hx _ ih =>
      rw [List.cons_append, hasPrefix_cons, hx, ih]
      rfl

theorem fwdView_keeps (lo : Value) (incl : Bool) (hi : Option Bound) (max : Option ℕ) :
    (fwdView ⟨lo, incl, hi, none, max⟩).keeps = inside (some (lo, incl)) hi := by
  funext c
  simp [Window.View.keeps, fwdView, inside, Bool.and_comm]

theorem revView_keeps (lo hi : Option Bound) : (revView lo hi).keeps = inside lo hi := by
  funext c
  cases hbeyond : beyondHi c.1 hi <;> simp [Window.View.keeps, revView, inside, hbeyond]

theorem prefixView_keeps (pfx : List Value) (max : Option ℕ) :
    (fwdView ⟨.array pfx, true, none, some pfx, max⟩).keeps = fun c => hasPrefix c.1 pfx := by
  funext c
  cases hpfx : hasPrefix c.1 pfx with
  | false => simp [Window.View.keeps, fwdView, hpfx]
  | true =>
    obtain ⟨xs, hxs⟩ := hasPrefix_array hpfx
    have hlo : cmpValues c.1 (.array pfx) ≠ .lt := by
      rw [hxs] at hpfx ⊢
      exact cmpItems_of_hasPrefix hpfx
    simp [Window.View.keeps, fwdView, hpfx, beyondHi, belowLo, hlo]

/-! ## Walks and scans -/

theorem scanRec_too_deep {room : ℕ} {t : PageTree h} (hroom : room ≤ h) (hs : s.Ok)
    (hown : s.Owns t.pages) (hrep : Represents codec s.image t) (hfits : t.Fits (layout codec))
    (out : Pairs) :
    scanRec codec none room t.root out s =
      (.error (.corrupt "tree depth exceeds limit (cycle?)"), s) := by
  induction h generalizing room with
  | zero =>
    obtain rfl : room = 0 := by omega
    rfl
  | succ h ih =>
    obtain ⟨id, first, rest⟩ := t
    cases room with
    | zero => rfl
    | succ room =>
      have hrec := ih (Nat.le_of_succ_le_succ hroom) (child_owns (i := 0) hown (Nat.zero_le _))
        hrep.2.1 hfits.2.2.1
      rw [LevelTree.root, scanRec, if_neg (not_filled_none out),
        bind_ok (readNode_internal hs hown hrep hfits)]
      exact bind_error hrec

/-- A tree that can be scanned is no deeper than the recursion goes. -/
theorem scan_eq {root : ℕ} {t : PageTree h} {cells : Pairs} (ht : Holds codec s root t)
    (hscan : (scan codec root s).1 = .ok cells) : h ≤ maxTreeDepth ∧ cells = t.toList := by
  have hdepth : h ≤ maxTreeDepth := by
    by_contra hdeep
    rw [scan, scanLimited, ← ht.root_eq, scanRec_too_deep (Nat.lt_of_not_le hdeep) ht.store
      ht.owns ht.represents ht.fits] at hscan
    cases hscan
  rw [scan_sim ht hdepth] at hscan
  exact ⟨hdepth, (Except.ok.inj hscan).symm⟩

section Results

variable {root : ℕ} {t : PageTree h}

theorem rangeBoundedRevLimited_sim (ht : Holds codec s root t) (hdepth : h ≤ maxTreeDepth)
    (hinv : t.Inv cmpValues strict none none) (below above : Option Bound) (max : Option ℕ) :
    rangeBoundedRevLimited codec root below above max s =
      (.ok (Window.cut max (t.toList.filter (inside below above)).reverse), s) := by
  rw [rangeBoundedRevLimited, ← ht.root_eq]
  by_cases hfull : filled max ([] : Pairs) = true
  · rw [rangeRevRec, if_pos hfull, Window.cut_full_nil hfull]
    rfl
  · rw [rangeRevRec_sim (Nat.lt_succ_of_le hdepth) ht.store ht.owns ht.represents ht.fits hinv
        hfull, Window.read_eq_cut (rev_ordered (sorted_le hinv)) hfull, List.nil_append,
      List.filter_reverse, revView_keeps]

theorem scanLimitedRev_sim (ht : Holds codec s root t) (hdepth : h ≤ maxTreeDepth)
    (hinv : t.Inv cmpValues strict none none) (max : Option ℕ) :
    scanLimitedRev codec root max s = (.ok (Window.cut max t.toList.reverse), s) := by
  rw [scanLimitedRev, ← ht.root_eq]
  by_cases hfull : filled max ([] : Pairs) = true
  · rw [scanRevRec_filled hfull, Window.cut_full_nil hfull]
  · have hall : t.toList.reverse.filter (revView none none).keeps = t.toList.reverse :=
      List.filter_eq_self.2 fun c _ => revView_none_keeps c
    rw [scanRevRec_sim (Nat.lt_succ_of_le hdepth) ht.store ht.owns ht.represents ht.fits hfull,
      Window.read_eq_cut (rev_ordered (sorted_le hinv)) hfull, List.nil_append, hall]

theorem rangePrefixLimited_sim (ht : Holds codec s root t) (hdepth : h ≤ maxTreeDepth)
    (hinv : t.Inv cmpValues strict none none) (pfx : List Value) (max : Option ℕ) :
    rangePrefixLimited codec root pfx max s =
      (.ok (Window.cut max (t.toList.filter fun c => hasPrefix c.1 pfx)), s) := by
  rw [rangePrefixLimited, rangeWalk_sim ht hdepth hinv, prefixView_keeps]
  rintro pfx' ⟨⟩
  rfl

end Results

/-- What the walkers return, next to what the scan returns. -/
structure WalksFilter (codec : DecimalCodec) (root : ℕ) (s : Store) (cells : Pairs)
    (lo : Value) (below above : Option Bound) (pfx : List Value) (max : Option ℕ) : Prop where
  bounded : rangeBoundedLimited codec root lo above max s =
    (.ok (Window.cut max (cells.filter (inside (some (lo, true)) above))), s)
  excl : rangeBoundedExclLimited codec root lo above max s =
    (.ok (Window.cut max (cells.filter (inside (some (lo, false)) above))), s)
  rev : rangeBoundedRevLimited codec root below above max s =
    (.ok (Window.cut max (cells.filter (inside below above)).reverse), s)
  scanRev : scanLimitedRev codec root max s = (.ok (Window.cut max cells.reverse), s)
  prefixed : rangePrefixLimited codec root pfx max s =
    (.ok (Window.cut max (cells.filter fun c => hasPrefix c.1 pfx)), s)
  prefixedRev : rangePrefixRevLimited codec root pfx max s =
    (.ok (Window.cut max (cells.filter fun c => hasPrefix c.1 pfx).reverse), s)

end Docsql.BTree
