import Docsql.Lib.Window
import Docsql.BTree.Store
import Docsql.BTree.LookupRefine

/-!
# Walks over a range of keys

The forward and the descending walkers, with optional bounds, a prefix that ends the walk and a
cap on the entries.
-/

namespace Docsql.BTree

abbrev Pairs := List (Value × UInt64)

/-- A value, and whether keys equal to it are inside. -/
abbrev Bound := Value × Bool

/-- An Array key that carries the prefix element-wise. -/
def hasPrefix : Value → List Value → Bool
  | .array items, pfx =>
    decide (pfx.length ≤ items.length) &&
      (items.zip pfx).all fun p => cmpValues p.1 p.2 == .eq
  | _, _ => false

def beyondHi (k : Value) : Option Bound → Bool
  | none => false
  | some (h, true) => cmpValues k h == .gt
  | some (h, false) => cmpValues k h != .lt

def belowLo (k : Value) : Option Bound → Bool
  | none => false
  | some (l, true) => cmpValues k l == .lt
  | some (l, false) => cmpValues k l != .gt

/-- What a forward walk is asked for. -/
structure RangeArgs where
  lo : Value
  loIncl : Bool
  hi : Option Bound
  stop : Option (List Value)
  max : Option ℕ

section Walks

variable (codec : DecimalCodec)

/-! ## Forward -/

/-- The cells of a leaf, and whether the walk goes on. -/
def rangeCells (a : RangeArgs) : Pairs → Pairs → Bool × Pairs
  | [], out => (true, out)
  | (k, v) :: cells, out =>
    if beyondHi k a.hi then (true, out)
    else if cmpValues k a.lo == .lt || (cmpValues k a.lo == .eq && !a.loIncl) then
      rangeCells a cells out
    else if a.stop.any fun pfx => !hasPrefix k pfx then (false, out)
    else if filled a.max (out ++ [(k, v)]) then (false, out ++ [(k, v)])
    else rangeCells a cells (out ++ [(k, v)])

/-- The upper separator of a child lies below `lo`. -/
def upperBelow (a : RangeArgs) (cells : List (Value × ℕ)) : Bool :=
  cells.head?.any fun c => cmpValues c.1 a.lo == .lt

def rangeChildren (a : RangeArgs) (visit : ℕ → Pairs → BTreeM (Bool × Pairs)) :
    List (Value × ℕ) → Pairs → BTreeM (Bool × Pairs)
  | [], out => return (true, out)
  | (sep, child) :: cells, out => do
    if filled a.max out then return (false, out)
    else if beyondHi sep a.hi then rangeChildren a visit cells out
    else if upperBelow a cells then rangeChildren a visit cells out
    else
      match ← visit child out with
      | (false, out) => return (false, out)
      | (true, out) => rangeChildren a visit cells out

def rangeBoundedRec (a : RangeArgs) : ℕ → ℕ → Pairs → BTreeM (Bool × Pairs)
  | 0, _, _ => throw (.corrupt "tree depth exceeds limit (cycle?)")
  | room + 1, id, out => do
    if filled a.max out then return (false, out)
    else
      match ← readNode codec id with
      | .leaf cells => return rangeCells a cells out
      | .internal leftmost cells =>
        if upperBelow a cells then rangeChildren a (rangeBoundedRec a room) cells out
        else
          match ← rangeBoundedRec a room leftmost out with
          | (false, out) => return (false, out)
          | (true, out) => rangeChildren a (rangeBoundedRec a room) cells out

def rangeWalk (a : RangeArgs) (root : ℕ) : BTreeM Pairs := do
  let r ← rangeBoundedRec codec a (maxTreeDepth + 1) root []
  return r.2

def rangeBoundedLimited (root : ℕ) (lo : Value) (hi : Option Bound) (max : Option ℕ) :
    BTreeM Pairs :=
  rangeWalk codec ⟨lo, true, hi, none, max⟩ root

def rangeBoundedExclLimited (root : ℕ) (lo : Value) (hi : Option Bound) (max : Option ℕ) :
    BTreeM Pairs :=
  rangeWalk codec ⟨lo, false, hi, none, max⟩ root

def rangePrefixLimited (root : ℕ) (pfx : List Value) (max : Option ℕ) : BTreeM Pairs :=
  rangeWalk codec ⟨.array pfx, true, none, some pfx, max⟩ root

def rangePrefixRevLimited (root : ℕ) (pfx : List Value) (max : Option ℕ) : BTreeM Pairs := do
  let out ← rangePrefixLimited codec root pfx none
  return match max with
    | none => out.reverse
    | some m => out.reverse.take m

/-! ## Descending -/

/-- The cells of a leaf, from the last one. -/
def rangeRevCells (lo hi : Option Bound) (max : Option ℕ) : Pairs → Pairs → Pairs
  | [], out => out
  | (k, v) :: cells, out =>
    if beyondHi k hi then rangeRevCells lo hi max cells out
    else if belowLo k lo then out
    else if filled max (out ++ [(k, v)]) then out ++ [(k, v)]
    else rangeRevCells lo hi max cells (out ++ [(k, v)])

/-- The children from position `n` down to the leftmost, `cells[i].1` being the upper separator
of the child before cell `i`. -/
def rangeRevChildren (lo : Option Bound) (max : Option ℕ) (visit : ℕ → Pairs → BTreeM Pairs)
    (leftmost : ℕ) (cells : List (Value × ℕ)) : ℕ → Pairs → BTreeM Pairs
  | n, out => do
    if filled max out then return out
    else if cells[n]?.any fun c => belowLo c.1 lo then return out
    else
      match n with
      | 0 => visit leftmost out
      | i + 1 =>
        let out ← visit ((cells[i]?.map Prod.snd).getD leftmost) out
        rangeRevChildren lo max visit leftmost cells i out

/-- `rposition` of the last separator at or below `hi`, counted from one. -/
def lastWithin (hi : Option Bound) (cells : List (Value × ℕ)) : ℕ :=
  cells.length - (cells.reverse.takeWhile fun c => beyondHi c.1 hi).length

def rangeRevRec (lo hi : Option Bound) (max : Option ℕ) : ℕ → ℕ → Pairs → BTreeM Pairs
  | 0, _, _ => throw (.corrupt "tree depth exceeds limit (cycle?)")
  | room + 1, id, out => do
    if filled max out then return out
    else
      match ← readNode codec id with
      | .leaf cells => return rangeRevCells lo hi max cells.reverse out
      | .internal leftmost cells =>
        rangeRevChildren lo max (rangeRevRec lo hi max room) leftmost cells
          (lastWithin hi cells) out

def rangeBoundedRevLimited (root : ℕ) (lo hi : Option Bound) (max : Option ℕ) : BTreeM Pairs :=
  rangeRevRec codec lo hi max (maxTreeDepth + 1) root []

/-! ## The whole tree, descending -/

def scanRevRec (max : Option ℕ) : ℕ → ℕ → Pairs → BTreeM Pairs
  | 0, _, _ => throw (.corrupt "tree depth exceeds limit (cycle?)")
  | room + 1, id, out => do
    if filled max out then return out
    else
      match ← readNode codec id with
      | .leaf cells => return pushCells max cells.reverse out
      | .internal leftmost cells =>
        let out ← scanChildren max (scanRevRec max room) (cells.reverse.map Prod.snd) out
        scanRevRec max room leftmost out

def scanLimitedRev (root : ℕ) (max : Option ℕ) : BTreeM Pairs :=
  scanRevRec codec max (maxTreeDepth + 1) root []

end Walks

end Docsql.BTree

/-!
# Range walks are filtered scans

A walk reads the pairs of the tree as a window over the sorted list of them: the subtrees it
leaves out hold nothing that the window would keep.
-/

namespace Docsql.BTree

open BPlusTree StateExcept
open Lib

variable {codec : DecimalCodec} {h : ℕ} {s : Store} {strict : Bool} {lo hi : Option Value}

/-! ## Bounds -/

theorem beyondHi_mono {a b : Value} {bound : Option Bound} (hab : cmpValues a b ≠ .gt)
    (ha : beyondHi a bound = true) : beyondHi b bound = true := by
  match bound with
  | none => cases ha
  | some (u, true) =>
    rw [beyondHi, beq_iff_eq] at ha ⊢
    by_contra hb
    exact ne_gt_trans hab hb ha
  | some (u, false) =>
    rw [beyondHi, bne_iff_ne] at ha ⊢
    intro hb
    exact ha (Std.TransCmp.lt_of_isLE_of_lt (Ordering.ne_gt_iff_isLE.mp hab) hb)

theorem belowLo_mono {a b : Value} {bound : Option Bound} (hab : cmpValues a b ≠ .gt)
    (hb : belowLo b bound = true) : belowLo a bound = true := by
  match bound with
  | none => cases hb
  | some (l, true) =>
    rw [belowLo, beq_iff_eq] at hb ⊢
    exact Std.TransCmp.lt_of_isLE_of_lt (Ordering.ne_gt_iff_isLE.mp hab) hb
  | some (l, false) =>
    rw [belowLo, bne_iff_ne] at hb ⊢
    exact ne_gt_trans hab hb

/-- The window of a forward walk. -/
def fwdView (a : RangeArgs) : Window.View (Value × UInt64) where
  past c := beyondHi c.1 a.hi
  skip c := belowLo c.1 (some (a.lo, a.loIncl))
  stop c := a.stop.any fun pfx => !hasPrefix c.1 pfx

/-- The window of a descending walk, which looks at the upper bound first. -/
def revView (lo hi : Option Bound) : Window.View (Value × UInt64) where
  past c := !beyondHi c.1 hi && belowLo c.1 lo
  skip c := beyondHi c.1 hi
  stop _ := false

theorem filled_eq_full (max : Option ℕ) (out : Pairs) : filled max out = Window.full max out := rfl

theorem belowLo_eq (k lo : Value) (incl : Bool) :
    belowLo k (some (lo, incl)) =
      (cmpValues k lo == .lt || (cmpValues k lo == .eq && !incl)) := by
  cases incl <;> cases hcmp : cmpValues k lo <;> simp [belowLo, hcmp]

theorem rangeCells_eq_read (a : RangeArgs) (cells out : Pairs) :
    rangeCells a cells out = Window.read (fwdView a) a.max cells out := by
  induction cells generalizing out with
  | nil => rfl
  | cons c cells ih =>
    obtain ⟨k, v⟩ := c
    rw [rangeCells, ← belowLo_eq]
    split
    · rename_i hpast
      rw [Window.read_past hpast]
    · rename_i hpast
      have hpast' : (fwdView a).past (k, v) = false := eq_false_of_ne_true hpast
      split
      · rename_i hskip
        rw [Window.read_skip hpast' hskip, ih]
      · rename_i hskip
        have hskip' : (fwdView a).skip (k, v) = false := eq_false_of_ne_true hskip
        split
        · rename_i hstop
          rw [Window.read_stop hpast' hskip' hstop]
        · rename_i hstop
          have hstop' : (fwdView a).stop (k, v) = false := eq_false_of_ne_true hstop
          rw [Window.read_keep (by simp [Window.View.keeps, hpast', hskip', hstop']), ih,
            filled_eq_full]

theorem rangeRevCells_eq_read (lo hi : Option Bound) (max : Option ℕ) (cells out : Pairs) :
    rangeRevCells lo hi max cells out = (Window.read (revView lo hi) max cells out).2 := by
  induction cells generalizing out with
  | nil => rfl
  | cons c cells ih =>
    obtain ⟨k, v⟩ := c
    rw [rangeRevCells]
    split
    · rename_i hbeyond
      have hpast : (revView lo hi).past (k, v) = false := by simp [revView, hbeyond]
      rw [Window.read_skip hpast hbeyond, ih]
    · rename_i hbeyond
      split
      · rename_i hbelow
        rw [Window.read_past (by simp [revView, hbeyond, hbelow])]
      · rename_i hbelow
        rw [Window.read_keep (by simp [Window.View.keeps, revView, hbeyond, hbelow]), ih,
          filled_eq_full]
        split <;> rfl

/-! ## Prefixes -/

theorem hasPrefix_nil (xs : List Value) : hasPrefix (.array xs) [] = true := by
  simp [hasPrefix]

theorem hasPrefix_cons (x p : Value) (xs ps : List Value) :
    hasPrefix (.array (x :: xs)) (p :: ps) =
      (cmpValues x p == .eq && hasPrefix (.array xs) ps) := by
  simp only [hasPrefix, List.length_cons, Nat.add_le_add_iff_right, List.zip_cons_cons,
    List.all_cons]
  rw [Bool.and_left_comm]

/-- Keys with the prefix are not below it. -/
theorem cmpItems_of_hasPrefix {xs ps : List Value} (h : hasPrefix (.array xs) ps = true) :
    cmpItems xs ps ≠ .lt := by
  induction ps generalizing xs with
  | nil => cases xs <;> simp [cmpItems, compare_lt_iff_lt]
  | cons p ps ih =>
    cases xs with
    | nil => simp [hasPrefix] at h
    | cons x xs =>
      rw [hasPrefix_cons, Bool.and_eq_true, beq_iff_eq] at h
      rw [cmpItems_cons_cons, h.1]
      exact ih h.2

/-- A key above the prefix that does not carry it is past all that do. -/
theorem not_hasPrefix_of_le {xs ys ps : List Value} (hlo : cmpItems xs ps ≠ .lt)
    (hx : hasPrefix (.array xs) ps = false) (hxy : cmpItems xs ys ≠ .gt) :
    hasPrefix (.array ys) ps = false := by
  induction ps generalizing xs ys with
  | nil =>
    rw [hasPrefix_nil] at hx
    cases hx
  | cons p ps ih =>
    cases xs with
    | nil => simp [cmpItems, compare_lt_iff_lt] at hlo
    | cons x xs =>
      cases ys with
      | nil => simp [hasPrefix]
      | cons y ys =>
        refine eq_false_of_ne_true fun hy => ?_
        rw [hasPrefix_cons, Bool.and_eq_true, beq_iff_eq] at hy
        rw [hasPrefix_cons] at hx
        rw [cmpItems_cons_cons] at hlo hxy
        have hyp : cmpValues p y = .eq := Std.OrientedCmp.eq_comm.1 hy.1
        have hsame : cmpValues x y = cmpValues x p := by
          rw [Std.TransCmp.congr_right hy.1]
        rw [hsame] at hxy
        cases hxp : cmpValues x p with
        | lt => simp [hxp] at hlo
        | gt => simp [hxp] at hxy
        | eq =>
          simp only [hxp, Ordering.then, beq_self_eq_true, Bool.true_and] at hlo hxy hx
          exact Bool.false_ne_true ((ih hlo hx hxy).symm.trans hy.2)

theorem hasPrefix_array {k : Value} {pfx : List Value} (h : hasPrefix k pfx = true) :
    ∃ xs, k = .array xs := by
  cases k with
  | array xs => exact ⟨xs, rfl⟩
  | _ => cases h

/-- The keys at or above the prefix that carry it come first. -/
theorem hasPrefix_run {a b : Value} {pfx : List Value} (hlo : cmpValues a (.array pfx) ≠ .lt)
    (ha : hasPrefix a pfx = false) (hab : cmpValues a b ≠ .gt) : hasPrefix b pfx = false := by
  refine eq_false_of_ne_true fun hb => ?_
  obtain ⟨ys, rfl⟩ := hasPrefix_array hb
  have harray : ∃ xs, a = .array xs := by
    cases a with
    | array xs => exact ⟨xs, rfl⟩
    | object fs => simp [cmpValues, rank, compare_gt_iff_gt] at hab
    | _ => simp [cmpValues, rank, compare_lt_iff_lt] at hlo
  obtain ⟨xs, rfl⟩ := harray
  rw [cmpValues] at hlo hab
  exact ne_true_of_eq_false (not_hasPrefix_of_le hlo ha hab) hb

/-! ## Bounds of children -/

section Children

variable {id : ℕ} {first : PageTree h} {rest : List (Value × PageTree h)}

theorem sorted_le {t : PageTree h} (hinv : t.Inv cmpValues strict lo hi) :
    t.toList.Pairwise fun a b => cmpValues a.1 b.1 ≠ .gt :=
  hinv.sorted.imp Rel.ne_gt

variable (hinv : LevelTree.Inv cmpValues strict (h := h + 1) lo hi ⟨id, first, rest⟩)
include hinv

omit hinv in
theorem cell_owns (hown : s.Owns (LevelTree.pages (h := h + 1) ⟨id, first, rest⟩))
    {c : Value × PageTree h} (hc : c ∈ rest) : s.Owns c.2.pages := by
  obtain ⟨i, hi⟩ := List.mem_iff_getElem?.mp hc
  have hlt : i + 1 ≤ rest.length := (List.getElem?_eq_some_iff.mp hi).1
  rw [← child_succ first hi]
  exact child_owns hown hlt

theorem child_inv {c : Value × PageTree h} (hc : c ∈ rest) :
    ∃ lo hi, c.2.Inv cmpValues strict lo hi := by
  obtain ⟨xs, ys, rfl⟩ := List.append_of_mem hc
  have htail := (Chain.split hinv).2.1
  cases ys with
  | nil => exact ⟨_, _, htail⟩
  | cons d ys => exact ⟨_, _, htail.1⟩

/-- The pairs left of a separator are not above it. -/
theorem flat_take_le {n : ℕ} {c : Value × PageTree h} (hc : rest[n]? = some c) :
    ∀ p ∈ flat LevelTree.toList first (rest.take n), cmpValues p.1 c.1 ≠ .gt := by
  obtain ⟨hlt, rfl⟩ := List.getElem?_eq_some_iff.1 hc
  have hsplit : rest = rest.take n ++ (rest[n].1, rest[n].2) :: rest.drop (n + 1) := by
    rw [Prod.mk.eta, List.cons_getElem_drop_succ, List.take_append_drop]
  have hchain : Chain cmpValues strict (fun lo hi t => t.Inv cmpValues strict lo hi) lo hi first
      (rest.take n ++ (rest[n].1, rest[n].2) :: rest.drop (n + 1)) := hsplit ▸ hinv
  intro p hp
  exact ((hchain.split.1.flat_bounds (fun _ _ _ ht => ht.bounds) p hp).2 _ rfl).ne_gt

/-- The pairs from a separator on are not below it. -/
theorem drop_ge {n : ℕ} {c : Value × PageTree h} (hc : rest[n]? = some c) :
    ∀ p ∈ (rest.drop n).flatMap fun c => c.2.toList, cmpValues c.1 p.1 ≠ .gt := by
  obtain ⟨hlt, rfl⟩ := List.getElem?_eq_some_iff.1 hc
  have hsplit : rest = rest.take n ++ (rest[n].1, rest[n].2) :: rest.drop (n + 1) := by
    rw [Prod.mk.eta, List.cons_getElem_drop_succ, List.take_append_drop]
  have hchain : Chain cmpValues strict (fun lo hi t => t.Inv cmpValues strict lo hi) lo hi first
      (rest.take n ++ (rest[n].1, rest[n].2) :: rest.drop (n + 1)) := hsplit ▸ hinv
  intro p hp
  have hflat : p ∈ flat LevelTree.toList rest[n].2 (rest.drop (n + 1)) := by
    rwa [← List.cons_getElem_drop_succ (h := hlt)] at hp
  exact (hchain.split.2.1.flat_bounds (fun _ _ _ ht => ht.bounds) p hflat).1 _ rfl

end Children

/-! ## Forward walks -/

section Forward

variable {a : RangeArgs} {room : ℕ}

theorem fwd_past_mono {p q : Value × UInt64} (hpq : cmpValues p.1 q.1 ≠ .gt)
    (hp : (fwdView a).past p = true) : (fwdView a).past q = true :=
  beyondHi_mono hpq hp

theorem fwd_append {xs ys out : Pairs}
    (hsorted : (xs ++ ys).Pairwise fun p q => cmpValues p.1 q.1 ≠ .gt) :
    Window.read (fwdView a) a.max (xs ++ ys) out =
      if (Window.read (fwdView a) a.max xs out).1 then
        Window.read (fwdView a) a.max ys (Window.read (fwdView a) a.max xs out).2
      else Window.read (fwdView a) a.max xs out :=
  Window.read_append fun p hp q hq =>
    fwd_past_mono ((List.pairwise_append.1 hsorted).2.2 p hp q hq)

/-- A subtree whose upper separator lies below `lo` has nothing for the walk. -/
theorem read_of_upperBelow {rest : List (Value × PageTree h)} {t : PageTree h}
    (hchain : Chain cmpValues strict (fun lo hi t => t.Inv cmpValues strict lo hi) lo hi t rest)
    (hbelow : upperBelow a (childCells rest) = true) (out : Pairs) :
    Window.read (fwdView a) a.max t.toList out = (true, out) := by
  cases rest with
  | nil => cases hbelow
  | cons c rest =>
    obtain ⟨k, c⟩ := c
    have hk : cmpValues k a.lo = .lt := by simpa [upperBelow, childCells] using hbelow
    refine Window.read_of_none fun p hp => .inr ?_
    have hle : cmpValues p.1 k ≠ .gt := ((hchain.1.bounds p hp).2 k rfl).ne_gt
    have hlo : belowLo k (some (a.lo, a.loIncl)) = true := by
      rw [belowLo_eq, hk]
      rfl
    exact belowLo_mono hle hlo

theorem rangeChildren_sim {first : PageTree h} {rest : List (Value × PageTree h)}
    (hchain : Chain cmpValues strict (fun lo hi t => t.Inv cmpValues strict lo hi) lo hi
      first rest)
    (hvisit : ∀ c ∈ rest, ∀ out, ¬filled a.max out = true →
      (∃ lo hi, c.2.Inv cmpValues strict lo hi) →
      rangeBoundedRec codec a room c.2.root out s =
        (.ok (Window.read (fwdView a) a.max c.2.toList out), s))
    {out : Pairs} (hout : ¬filled a.max out = true) :
    rangeChildren a (rangeBoundedRec codec a room) (childCells rest) out s =
      (.ok (Window.read (fwdView a) a.max (rest.flatMap fun c => c.2.toList) out), s) := by
  induction rest generalizing first lo out with
  | nil => rfl
  | cons c rest ih =>
    obtain ⟨k, c⟩ := c
    obtain ⟨-, -, -, htail⟩ := hchain
    have hsorted : (c.toList ++ rest.flatMap fun c => c.2.toList).Pairwise fun p q =>
        cmpValues p.1 q.1 ≠ .gt :=
      (htail.flat_sorted (fun _ _ _ ht => ht.bounds) fun _ _ _ ht => ht.sorted).imp Rel.ne_gt
    have hrest {out : Pairs} (hout : ¬filled a.max out = true) := ih htail
      (fun c hc => hvisit c (List.mem_cons_of_mem _ hc)) hout
    have hpassed (hread : Window.read (fwdView a) a.max c.toList out = (true, out)) :
        rangeChildren a (rangeBoundedRec codec a room) (childCells rest) out s =
          (.ok (Window.read (fwdView a) a.max (((k, c) :: rest).flatMap fun c => c.2.toList) out),
            s) := by
      rw [List.flatMap_cons, fwd_append hsorted, hread, if_pos rfl]
      exact hrest hout
    have hcells : childCells ((k, c) :: rest) = (k, c.root) :: childCells rest := rfl
    rw [hcells, rangeChildren, if_neg hout]
    split
    · rename_i hbeyond
      refine hpassed (Window.read_of_none fun p hp => .inl ?_)
      have hge := (htail.flat_bounds (f := LevelTree.toList) (fun _ _ _ ht => ht.bounds) p
        (List.mem_append_left _ hp)).1 k rfl
      exact beyondHi_mono hge hbeyond
    · split
      · rename_i hbelow
        exact hpassed (read_of_upperBelow htail hbelow out)
      · have hinv : ∃ lo hi, c.Inv cmpValues strict lo hi := by
          cases rest with
          | nil => exact ⟨_, _, htail⟩
          | cons d rest => exact ⟨_, _, htail.1⟩
        rw [bind_ok (hvisit (k, c) List.mem_cons_self out hout hinv), List.flatMap_cons,
          fwd_append hsorted]
        have hroom : (Window.read (fwdView a) a.max c.toList out).1 = true →
            ¬filled a.max (Window.read (fwdView a) a.max c.toList out).2 = true :=
          Window.not_full_of_read hout
        cases hread : Window.read (fwdView a) a.max c.toList out with
        | mk more out' =>
          rw [hread] at hroom
          cases more with
          | false => rfl
          | true => exact hrest (hroom rfl)

theorem rangeBoundedRec_sim {t : PageTree h} (hroom : h < room) (hs : s.Ok)
    (hown : s.Owns t.pages) (hrep : Represents codec s.image t) (hfits : t.Fits (layout codec))
    (hinv : t.Inv cmpValues strict lo hi) {out : Pairs} (hout : ¬filled a.max out = true) :
    rangeBoundedRec codec a room t.root out s =
      (.ok (Window.read (fwdView a) a.max t.toList out), s) := by
  induction h generalizing room lo hi out with
  | zero =>
    obtain ⟨id, cells⟩ := t
    obtain ⟨room, rfl⟩ : ∃ r, room = r + 1 := ⟨room - 1, by omega⟩
    rw [LevelTree.root, rangeBoundedRec, if_neg hout, bind_ok (readNode_leaf hown hrep hfits)]
    simp only [pure_apply, rangeCells_eq_read, LevelTree.toList]
  | succ h ih =>
    obtain ⟨id, first, rest⟩ := t
    obtain ⟨room, rfl⟩ : ∃ r, room = r + 1 := ⟨room - 1, by omega⟩
    have hroom' : h < room := by omega
    have hvisit : ∀ c ∈ rest, ∀ out, ¬filled a.max out = true →
        (∃ lo hi, c.2.Inv cmpValues strict lo hi) →
        rangeBoundedRec codec a room c.2.root out s =
          (.ok (Window.read (fwdView a) a.max c.2.toList out), s) := by
      rintro c hc out hout ⟨lo, hi, hbounds⟩
      exact ih hroom' (cell_owns hown hc) (hrep.2.2 c hc) (hfits.2.2.2 c hc) hbounds hout
    have hchildren {out : Pairs} (hout : ¬filled a.max out = true) :=
      rangeChildren_sim hinv hvisit hout
    have hsorted := sorted_le hinv
    rw [LevelTree.toList_succ, flat] at hsorted ⊢
    rw [LevelTree.root, rangeBoundedRec, if_neg hout, bind_ok (readNode_internal hs hown hrep hfits),
      fwd_append hsorted]
    simp only
    split
    · rename_i hbelow
      rw [read_of_upperBelow hinv hbelow, if_pos rfl]
      exact hchildren hout
    · have hfirst : ∃ lo hi, first.Inv cmpValues strict lo hi := by
        cases rest with
        | nil => exact ⟨_, _, hinv⟩
        | cons d rest => exact ⟨_, _, hinv.1⟩
      obtain ⟨lo', hi', hfirst⟩ := hfirst
      have hown' : s.Owns first.pages := child_owns (i := 0) hown (Nat.zero_le _)
      rw [bind_ok (ih hroom' hown' hrep.2.1 hfits.2.2.1 hfirst hout)]
      have hroom : (Window.read (fwdView a) a.max first.toList out).1 = true →
          ¬filled a.max (Window.read (fwdView a) a.max first.toList out).2 = true :=
        Window.not_full_of_read hout
      cases hread : Window.read (fwdView a) a.max first.toList out with
      | mk more out' =>
        rw [hread] at hroom
        cases more with
        | false => rfl
        | true => exact hchildren (hroom rfl)

/-- After a key that ends the walk no key is kept. -/
theorem fwd_ordered {xs : Pairs} (hsorted : xs.Pairwise fun p q => cmpValues p.1 q.1 ≠ .gt)
    (hstart : ∀ pfx, a.stop = some pfx → a.lo = .array pfx) :
    Window.Ordered (fwdView a) xs := by
  refine hsorted.imp ?_
  rintro p q hpq (hpast | ⟨hskip, hstop⟩)
  · simp [Window.View.keeps, fwd_past_mono hpq hpast]
  · obtain ⟨pfx, hpfx, hno⟩ := (Option.any_eq_true _ _).1 hstop
    have hlo : cmpValues p.1 (.array pfx) ≠ .lt := by
      rw [← hstart pfx hpfx]
      intro hlt
      have habove : belowLo p.1 (some (a.lo, a.loIncl)) = false := hskip
      rw [belowLo_eq, hlt] at habove
      cases habove
    have hq : (fwdView a).stop q = true := by
      have hno' : hasPrefix q.1 pfx = false := hasPrefix_run hlo (by simpa using hno) hpq
      refine (Option.any_eq_true _ _).2 ⟨pfx, hpfx, ?_⟩
      rw [hno']
      rfl
    simp [Window.View.keeps, hq]

theorem rangeWalk_sim {root : ℕ} {t : PageTree h} (ht : Holds codec s root t)
    (hdepth : h ≤ maxTreeDepth) (hinv : t.Inv cmpValues strict none none)
    (hstart : ∀ pfx, a.stop = some pfx → a.lo = .array pfx) :
    rangeWalk codec a root s =
      (.ok (Window.cut a.max (t.toList.filter (fwdView a).keeps)), s) := by
  rw [rangeWalk, ← ht.root_eq]
  by_cases hfull : filled a.max ([] : Pairs) = true
  · have hrec : rangeBoundedRec codec a (maxTreeDepth + 1) t.root [] s = (.ok (false, []), s) := by
      rw [rangeBoundedRec, if_pos hfull]
      rfl
    rw [bind_ok hrec, Window.cut_full_nil hfull]
    rfl
  · rw [bind_ok (rangeBoundedRec_sim (Nat.lt_succ_of_le hdepth) ht.store ht.owns ht.represents
      ht.fits hinv hfull), pure_apply,
      Window.read_eq_cut (fwd_ordered (sorted_le hinv) hstart) hfull, List.nil_append]

end Forward

/-! ## Descending walks -/

section Descending

variable {below above : Option Bound} {max : Option ℕ} {room : ℕ}

theorem not_filled_iff (below above : Option Bound) (xs : Pairs) {out : Pairs}
    (hout : ¬filled max out = true) :
    filled max (Window.read (revView below above) max xs out).2 =
      !(Window.read (revView below above) max xs out).1 := by
  cases hon : (Window.read (revView below above) max xs out).1 with
  | false => exact Window.full_of_read (fun _ => rfl) hon
  | true => exact eq_false_of_ne_true (Window.not_full_of_read hout hon)

theorem rev_append {xs ys out : Pairs}
    (hle : ∀ p ∈ xs, ∀ q ∈ ys, cmpValues q.1 p.1 ≠ .gt) :
    Window.read (revView below above) max (xs ++ ys) out =
      if (Window.read (revView below above) max xs out).1 then
        Window.read (revView below above) max ys (Window.read (revView below above) max xs out).2
      else Window.read (revView below above) max xs out := by
  refine Window.read_append fun p hp q hq hpast => ?_
  simp only [revView, Bool.and_eq_true, Bool.not_eq_true'] at hpast ⊢
  refine ⟨eq_false_of_ne_true fun hbeyond => ?_, belowLo_mono (hle p hp q hq) hpast.2⟩
  rw [beyondHi_mono (hle p hp q hq) hbeyond] at hpast
  cases hpast.1

/-- Pairs below the lower bound leave the window as it is. -/
theorem read_of_below {xs out : Pairs} (h : ∀ p ∈ xs, belowLo p.1 below = true) :
    Window.read (revView below above) max xs out = (true, out) := by
  refine Window.read_of_none fun p hp => ?_
  cases hbeyond : beyondHi p.1 above with
  | false => exact .inl (by simp [revView, hbeyond, h p hp])
  | true => exact .inr hbeyond

theorem rangeRevChildren_filled {visit : ℕ → Pairs → BTreeM Pairs} {leftmost n : ℕ}
    {cells : List (Value × ℕ)} {out : Pairs} (hout : filled max out = true) :
    rangeRevChildren below max visit leftmost cells n out s = (.ok out, s) := by
  cases n with
  | zero => rw [rangeRevChildren, if_pos hout, pure_apply]
  | succ n => rw [rangeRevChildren, if_pos hout, pure_apply]

theorem rangeRevChildren_sim {id : ℕ} {first : PageTree h} {rest : List (Value × PageTree h)}
    (hinv : LevelTree.Inv cmpValues strict (h := h + 1) lo hi ⟨id, first, rest⟩)
    {visit : ℕ → Pairs → BTreeM Pairs}
    (hvisit : ∀ t ∈ first :: rest.map Prod.snd, ∀ out, ¬filled max out = true →
      visit t.root out s = (.ok (Window.read (revView below above) max t.toList.reverse out).2, s))
    {n : ℕ} (hn : n ≤ rest.length) {out : Pairs} (hout : ¬filled max out = true) :
    rangeRevChildren below max visit first.root (childCells rest) n out s =
      (.ok (Window.read (revView below above) max
        (flat LevelTree.toList first (rest.take n)).reverse out).2, s) := by
  have hbelow {n : ℕ} (h : ((childCells rest)[n]?.any fun c => belowLo c.1 below) = true)
      (out : Pairs) : Window.read (revView below above) max
        (flat LevelTree.toList first (rest.take n)).reverse out = (true, out) := by
    obtain ⟨c, hc, hsep⟩ := (Option.any_eq_true _ _).1 h
    rw [childCells, List.getElem?_map, Option.map_eq_some_iff] at hc
    obtain ⟨d, hd, rfl⟩ := hc
    refine read_of_below fun p hp => belowLo_mono ?_ hsep
    exact flat_take_le hinv hd p (List.mem_reverse.1 hp)
  induction n generalizing out with
  | zero =>
    rw [rangeRevChildren, if_neg hout]
    split
    · rename_i h
      rw [hbelow h]
      rfl
    · rw [hvisit first List.mem_cons_self out hout, List.take_zero, flat_nil]
  | succ i ih =>
    rw [rangeRevChildren, if_neg hout]
    split
    · rename_i h
      rw [hbelow h]
      rfl
    · obtain ⟨c, hc⟩ : ∃ c, rest[i]? = some c := ⟨_, List.getElem?_eq_getElem hn⟩
      have hroot : (((childCells rest)[i]?.map Prod.snd).getD first.root) = c.2.root := by
        rw [childCells, List.getElem?_map, hc]
        rfl
      have hmem : c.2 ∈ first :: rest.map Prod.snd :=
        List.mem_cons_of_mem _ (List.mem_map_of_mem (List.mem_of_getElem? hc))
      have htake : flat LevelTree.toList first (rest.take (i + 1)) =
          flat LevelTree.toList first (rest.take i) ++ c.2.toList := by
        rw [List.take_add_one, hc, Option.toList_some, flat_append, flat_nil]
      have hle : ∀ p ∈ c.2.toList.reverse,
          ∀ q ∈ (flat LevelTree.toList first (rest.take i)).reverse, cmpValues q.1 p.1 ≠ .gt := by
        intro p hp q hq
        refine ne_gt_trans (flat_take_le hinv hc q (List.mem_reverse.1 hq))
          (drop_ge hinv hc p (List.mem_flatMap.2 ⟨c, ?_, List.mem_reverse.1 hp⟩))
        exact List.mem_of_getElem? (i := 0) (by rw [List.getElem?_drop, Nat.add_zero, hc])
      rw [hroot, bind_ok (hvisit c.2 hmem out hout), htake, List.reverse_append, rev_append hle]
      have hfull := not_filled_iff below above c.2.toList.reverse hout
      cases hread : Window.read (revView below above) max c.2.toList.reverse out with
      | mk more out' =>
        rw [hread] at hfull
        cases more with
        | true => exact ih (Nat.le_of_succ_le hn) (ne_true_of_eq_false hfull)
        | false => exact rangeRevChildren_filled hfull

/-- The children after the last separator within `hi`. -/
theorem beyond_of_lastWithin {cells : List (Value × ℕ)} {c : Value × ℕ}
    (hc : c ∈ cells.drop (lastWithin above cells)) : beyondHi c.1 above = true := by
  have hsplit := List.takeWhile_append_dropWhile (p := fun c : Value × ℕ => beyondHi c.1 above)
    (l := cells.reverse)
  have hcells : cells = (cells.reverse.dropWhile fun c => beyondHi c.1 above).reverse ++
      (cells.reverse.takeWhile fun c => beyondHi c.1 above).reverse := by
    rw [← List.reverse_append, hsplit, List.reverse_reverse]
  have hlen : lastWithin above cells =
      (cells.reverse.dropWhile fun c => beyondHi c.1 above).reverse.length := by
    have htotal := congrArg List.length hsplit
    rw [List.length_append, List.length_reverse] at htotal
    rw [lastWithin, List.length_reverse]
    omega
  rw [hlen] at hc
  nth_rewrite 2 [hcells] at hc
  rw [List.drop_left] at hc
  exact List.mem_takeWhile_imp (p := fun c : Value × ℕ => beyondHi c.1 above)
    (List.mem_reverse.1 hc)

theorem rangeRevRec_sim {t : PageTree h} (hroom : h < room) (hs : s.Ok)
    (hown : s.Owns t.pages) (hrep : Represents codec s.image t) (hfits : t.Fits (layout codec))
    (hinv : t.Inv cmpValues strict lo hi) {out : Pairs} (hout : ¬filled max out = true) :
    rangeRevRec codec below above max room t.root out s =
      (.ok (Window.read (revView below above) max t.toList.reverse out).2, s) := by
  induction h generalizing room lo hi out with
  | zero =>
    obtain ⟨id, cells⟩ := t
    obtain ⟨room, rfl⟩ : ∃ r, room = r + 1 := ⟨room - 1, by omega⟩
    rw [LevelTree.root, rangeRevRec, if_neg hout, bind_ok (readNode_leaf hown hrep hfits)]
    simp only [pure_apply, rangeRevCells_eq_read, LevelTree.toList]
  | succ h ih =>
    obtain ⟨id, first, rest⟩ := t
    obtain ⟨room, rfl⟩ : ∃ r, room = r + 1 := ⟨room - 1, by omega⟩
    have hroom' : h < room := by omega
    rw [LevelTree.root, rangeRevRec, if_neg hout, bind_ok (readNode_internal hs hown hrep hfits)]
    have hvisit : ∀ t ∈ first :: rest.map Prod.snd, ∀ out, ¬filled max out = true →
        rangeRevRec codec below above max room t.root out s =
          (.ok (Window.read (revView below above) max t.toList.reverse out).2, s) := by
      intro t ht out hout
      rcases List.mem_cons.1 ht with rfl | ht
      · obtain ⟨lo', hi', hfirst⟩ : ∃ lo hi, t.Inv cmpValues strict lo hi := by
          cases rest with
          | nil => exact ⟨_, _, hinv⟩
          | cons d rest => exact ⟨_, _, hinv.1⟩
        have hown' : s.Owns t.pages := child_owns (i := 0) hown (Nat.zero_le _)
        exact ih hroom' hown' hrep.2.1 hfits.2.2.1 hfirst hout
      · obtain ⟨c, hc, rfl⟩ := List.mem_map.1 ht
        obtain ⟨lo', hi', hbounds⟩ := child_inv hinv hc
        exact ih hroom' (cell_owns hown hc) (hrep.2.2 c hc) (hfits.2.2.2 c hc) hbounds hout
    have hn : lastWithin above (childCells rest) ≤ rest.length := by
      rw [lastWithin, childCells, List.length_map]
      exact Nat.sub_le _ _
    have hbeyond : ∀ p ∈ ((rest.drop (lastWithin above (childCells rest))).flatMap
        fun c => c.2.toList).reverse, beyondHi p.1 above = true := by
      intro p hp
      obtain ⟨c, hc, hpc⟩ := List.mem_flatMap.1 (List.mem_reverse.1 hp)
      have hsep : beyondHi c.1 above = true := by
        have hcell : (c.1, c.2.root) ∈ (childCells rest).drop (lastWithin above (childCells rest)) := by
          rw [childCells, ← List.map_drop]
          exact List.mem_map_of_mem (f := fun c : Value × PageTree h => (c.1, c.2.root)) hc
        exact beyond_of_lastWithin hcell
      obtain ⟨i, hi⟩ := List.mem_iff_getElem?.1 (List.mem_of_mem_drop hc)
      refine beyondHi_mono (drop_ge hinv hi p ?_) hsep
      refine List.mem_flatMap.2 ⟨c, ?_, hpc⟩
      exact List.mem_of_getElem? (i := 0) (by rw [List.getElem?_drop, Nat.add_zero, hi])
    have hread : Window.read (revView below above) max ((rest.drop
        (lastWithin above (childCells rest))).flatMap fun c => c.2.toList).reverse out =
          (true, out) := Window.read_of_none fun p hp => .inr (hbeyond p hp)
    have hflat : LevelTree.toList (h := h + 1) ⟨id, first, rest⟩ =
        flat LevelTree.toList first (rest.take (lastWithin above (childCells rest))) ++
          (rest.drop (lastWithin above (childCells rest))).flatMap fun c => c.2.toList := by
      rw [LevelTree.toList_succ, flat, flat, List.append_assoc, ← List.flatMap_append,
        List.take_append_drop]
    have hsorted := sorted_le hinv
    rw [hflat] at hsorted ⊢
    rw [List.reverse_append, rev_append, hread, if_pos rfl]
    · exact rangeRevChildren_sim hinv hvisit hn hout
    · intro p hp q hq
      exact (List.pairwise_append.1 hsorted).2.2 q (List.mem_reverse.1 hq) p (List.mem_reverse.1 hp)

end Descending

end Docsql.BTree
