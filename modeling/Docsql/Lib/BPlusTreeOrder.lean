import Docsql.Lib.BPlusTree
import Mathlib.Data.List.TakeWhile

/-!
# Order and contents of a B+ tree

The invariant brackets every child between its separators.  It comes in two
strengths: keys may be equal to the upper separator of their child, or must be
below it.  Insertion keeps the strict form always, and the weak form as long as
no separator it passes up ties with the one that follows.
-/

namespace BPlusTree

variable {ι K V T : Type}

/-! ## Positions -/

section Positions

variable {cmp : K → K → Ordering} {key : K}

theorem partitionPoint_le {α : Type} (p : α → Bool) (xs : List α) :
    partitionPoint p xs ≤ xs.length :=
  (List.takeWhile_sublist p).length_le

theorem upper_le (cells : List (K × T)) : upper cmp key cells ≤ cells.length :=
  partitionPoint_le _ _

theorem lower_le (cells : List (K × T)) : lower cmp key cells ≤ cells.length :=
  partitionPoint_le _ _

theorem take_partitionPoint {α : Type} (p : α → Bool) (xs : List α) :
    xs.take (partitionPoint p xs) = xs.takeWhile p :=
  (List.prefix_iff_eq_take.mp (List.takeWhile_prefix p)).symm

theorem drop_partitionPoint {α : Type} (p : α → Bool) (xs : List α) :
    xs.drop (partitionPoint p xs) = xs.dropWhile p := by
  conv_lhs => rw [← List.takeWhile_append_dropWhile (p := p) (l := xs)]
  have hlen : partitionPoint p (xs.takeWhile p ++ xs.dropWhile p) = (xs.takeWhile p).length := by
    rw [List.takeWhile_append_dropWhile, partitionPoint]
  rw [hlen, List.drop_left]

/-- On a partitioned list the partition point separates the two kinds. -/
theorem lt_partitionPoint_iff {α : Type} {p : α → Bool} {xs : List α}
    (h : xs.Pairwise fun a b => p b = true → p a = true) {i : ℕ} {a : α} (ha : xs[i]? = some a) :
    i < partitionPoint p xs ↔ p a = true := by
  induction xs generalizing i with
  | nil => simp at ha
  | cons x xs ih =>
      obtain ⟨hx, htail⟩ := List.pairwise_cons.mp h
      cases i with
      | zero =>
          obtain rfl : x = a := by simpa using ha
          cases hp : p x <;> simp [partitionPoint, hp]
      | succ i =>
          have ha' : xs[i]? = some a := by simpa using ha
          cases hp : p x with
          | true => simpa [partitionPoint, hp] using ih htail ha'
          | false =>
              have hpa : p a ≠ true := fun hpa =>
                Bool.false_ne_true (hp.symm.trans (hx a (List.mem_of_getElem? ha') hpa))
              simp [partitionPoint, hp, hpa]

theorem insertIdx_eq_take_append {α : Type} {i : ℕ} {xs : List α} (a : α) (h : i ≤ xs.length) :
    xs.insertIdx i a = xs.take i ++ a :: xs.drop i := by
  induction xs generalizing i with
  | nil =>
      obtain rfl : i = 0 := by simpa using h
      rfl
  | cons x xs ih =>
      cases i with
      | zero => rfl
      | succ i => simp [ih (Nat.le_of_succ_le_succ h)]

theorem upper_cons_of_le {c : K × T} {cells : List (K × T)} (h : cmp c.1 key ≠ .gt) :
    upper cmp key (c :: cells) = upper cmp key cells + 1 := by
  simp [upper, partitionPoint, h]

theorem upper_cons_of_gt {c : K × T} {cells : List (K × T)} (h : cmp c.1 key = .gt) :
    upper cmp key (c :: cells) = 0 := by
  simp [upper, partitionPoint, h]

theorem lower_cons_of_lt {c : K × T} {cells : List (K × T)} (h : cmp c.1 key = .lt) :
    lower cmp key (c :: cells) = lower cmp key cells + 1 := by
  simp [lower, partitionPoint, h]

theorem lower_cons_of_ge {c : K × T} {cells : List (K × T)} (h : cmp c.1 key ≠ .lt) :
    lower cmp key (c :: cells) = 0 := by
  simp [lower, partitionPoint, h]

theorem upper_map {U : Type} (g : T → U) (rest : List (K × T)) :
    upper cmp key (rest.map fun c => (c.1, g c.2)) = upper cmp key rest := by
  unfold upper partitionPoint
  rw [List.takeWhile_map, List.length_map]
  rfl

theorem lower_map {U : Type} (g : T → U) (rest : List (K × T)) :
    lower cmp key (rest.map fun c => (c.1, g c.2)) = lower cmp key rest := by
  unfold lower partitionPoint
  rw [List.takeWhile_map, List.length_map]
  rfl

end Positions

/-! ## Concatenating over the children -/

/-- `f` over all children of a node, in order. -/
def flat {β : Type} (f : T → List β) (first : T) (rest : List (K × T)) : List β :=
  f first ++ rest.flatMap fun c => f c.2

section Flat

variable {β : Type} (f : T → List β)

@[simp] theorem flat_nil (first : T) : flat f first ([] : List (K × T)) = f first := by
  simp [flat]

@[simp] theorem flat_cons (first : T) (k : K) (c : T) (rest : List (K × T)) :
    flat f first ((k, c) :: rest) = f first ++ flat f c rest := by
  simp [flat]

theorem flat_append (first : T) (xs : List (K × T)) (k : K) (c : T) (ys : List (K × T)) :
    flat f first (xs ++ (k, c) :: ys) = flat f first xs ++ flat f c ys := by
  simp [flat]

/-- Replacing a child changes its part of the concatenation only. -/
theorem flat_splice {i : ℕ} (first : T) (rest : List (K × T)) (h : i ≤ rest.length) :
    ∃ A B, flat f first rest = A ++ f (child i first rest) ++ B ∧
      ∀ t ts, flat f (splice i t ts first rest).1 (splice i t ts first rest).2 =
        A ++ flat f t ts ++ B := by
  induction rest generalizing i first with
  | nil =>
      obtain rfl : i = 0 := by simpa using h
      refine ⟨[], [], by simp [child], fun t ts => ?_⟩
      simp [splice]
  | cons p rest ih =>
      obtain ⟨k, c⟩ := p
      cases i with
      | zero =>
          refine ⟨[], flat f c rest, by simp [child], fun t ts => ?_⟩
          simp [splice, flat_append]
      | succ i =>
          obtain ⟨A, B, hflat, hsplice⟩ := ih c (Nat.le_of_succ_le_succ h)
          refine ⟨f first ++ A, B, ?_, fun t ts => ?_⟩
          · simp [child, hflat]
          · simp [splice, hsplice]

/-- A further cell adds the part of its child. -/
theorem flat_insertIdx_perm (first : T) (rest : List (K × T)) {j : ℕ} (hj : j ≤ rest.length)
    (c : K × T) : (flat f first (rest.insertIdx j c)).Perm (f c.2 ++ flat f first rest) := by
  have hperm : (rest.insertIdx j c).Perm (c :: rest) := List.perm_insertIdx c rest hj
  have hflat : ((rest.insertIdx j c).flatMap fun c => f c.2).Perm
      (f c.2 ++ rest.flatMap fun c => f c.2) := by
    simpa using hperm.flatMap_right (fun c => f c.2)
  unfold flat
  refine (hflat.append_left _).trans ?_
  rw [← List.append_assoc, ← List.append_assoc]
  exact List.perm_append_comm.append_right _

end Flat

theorem length_setChild {i : ℕ} (t first : T) (rest : List (K × T)) (h : i ≤ rest.length) :
    (setChild i t first rest).2.length = rest.length := by
  induction rest generalizing i first with
  | nil =>
      obtain rfl : i = 0 := by simpa using h
      rfl
  | cons p rest ih =>
      cases i with
      | zero => rfl
      | succ i =>
          have := ih p.2 (Nat.le_of_succ_le_succ h)
          simpa [setChild, splice] using this

theorem map_fst_setChild (i : ℕ) (t first : T) (rest : List (K × T)) :
    (setChild i t first rest).2.map Prod.fst = rest.map Prod.fst := by
  induction rest generalizing i first with
  | nil => cases i <;> rfl
  | cons p rest ih =>
      cases i with
      | zero => rfl
      | succ i =>
          have := ih i p.2
          simpa [setChild, splice] using this

/-- Setting child `i` and inserting a cell after it is one splice. -/
theorem insertIdx_setChild {i : ℕ} (t first : T) (rest : List (K × T)) (c : K × T)
    (h : i ≤ rest.length) :
    splice i t [c] first rest =
      ((setChild i t first rest).1, (setChild i t first rest).2.insertIdx i c) := by
  induction rest generalizing i first with
  | nil =>
      obtain rfl : i = 0 := by simpa using h
      rfl
  | cons p rest ih =>
      cases i with
      | zero => rfl
      | succ i =>
          have := ih p.2 (Nat.le_of_succ_le_succ h)
          simp only [setChild, splice] at this ⊢
          rw [this]
          rfl

namespace LevelTree

theorem toList_succ {h : ℕ} (id : ι) (first : LevelTree ι K V h) (rest : List (K × LevelTree ι K V h)) :
    toList (h := h + 1) ⟨id, first, rest⟩ = flat toList first rest := rfl

/-- The contents of an optional right sibling. -/
def splitList {h : ℕ} : Option (K × LevelTree ι K V h) → List (K × V)
  | none => []
  | some (_, t) => t.toList

theorem splitList_rightLeaf (id : ι) (cells : List (K × V)) :
    splitList (rightLeaf id cells) = cells := by
  cases cells <;> rfl

theorem flat_take_rightBranch {h : ℕ} (id : ι) (first : LevelTree ι K V h)
    (rest : List (K × LevelTree ι K V h)) (m : ℕ) :
    flat toList first (rest.take m) ++ splitList (rightBranch id (rest.drop m)) =
      flat toList first rest := by
  cases hdrop : rest.drop m with
  | nil =>
      have htake : rest.take m = rest := by
        conv_rhs => rw [← List.take_append_drop m rest, hdrop, List.append_nil]
      rw [htake]
      simp [rightBranch, splitList]
  | cons c ys =>
      obtain ⟨k, c⟩ := c
      have hrest : rest = rest.take m ++ (k, c) :: ys := by
        rw [← hdrop, List.take_append_drop]
      conv_rhs => rw [hrest, flat_append]
      rfl

/-! ## What one insertion can do -/

section Insert

variable {cmp : K → K → Ordering} {L : Layout K} {fresh : ℕ → ι} {unique : Bool} {key : K} {val : V}

theorem insertRec_leaf {id : ι} {cells : List (K × V)} {t' : LevelTree ι K V 0}
    {s : Option (K × LevelTree ι K V 0)}
    (h : insertRec cmp L fresh unique key val (h := 0) ⟨id, cells⟩ = some (t', s)) :
    let cells' := cells.insertIdx (upper cmp key cells) (key, val)
    let m := L.leaf.cut (cells'.map Prod.fst) (upper cmp key cells)
    (unique = true → ∀ c ∈ (cells.take (upper cmp key cells)).getLast?, cmp c.1 key ≠ .eq) ∧
    ((L.leaf.fits (cells'.map Prod.fst) = true ∧ t' = (⟨id, cells'⟩ : Leaf ι K V) ∧ s = none) ∨
      (L.leaf.fits (cells'.map Prod.fst) = false ∧ t' = (⟨id, cells'.take m⟩ : Leaf ι K V) ∧
        s = rightLeaf (fresh 0) (cells'.drop m))) := by
  intro cells' m
  simp only [insertRec] at h
  split_ifs at h with hdup hfits
  · refine ⟨?_, Or.inl ⟨hfits, ?_⟩⟩
    · intro hu c hc heq
      apply hdup
      rw [Option.mem_def] at hc
      simp [hu, hc, heq]
    · cases h
      exact ⟨rfl, rfl⟩
  · refine ⟨?_, Or.inr ⟨by simpa using hfits, ?_⟩⟩
    · intro hu c hc heq
      apply hdup
      rw [Option.mem_def] at hc
      simp [hu, hc, heq]
    · cases h
      exact ⟨rfl, rfl⟩

theorem insertRec_branch {h : ℕ} {id : ι} {first : LevelTree ι K V h}
    {rest : List (K × LevelTree ι K V h)} {t' : LevelTree ι K V (h + 1)}
    {s : Option (K × LevelTree ι K V (h + 1))}
    (hins : insertRec cmp L fresh unique key val (h := h + 1) ⟨id, first, rest⟩ = some (t', s)) :
    let i := upper cmp key rest
    ∃ t cs, insertRec cmp L fresh unique key val (child i first rest) = some (t, cs) ∧
      let n := setChild i t first rest
      ((cs = none ∧ t' = (⟨id, n.1, n.2⟩ : Branch ι K (LevelTree ι K V h)) ∧ s = none) ∨
        ∃ mid right, cs = some (mid, right) ∧
          let rest' := n.2.insertIdx (upper cmp mid rest) (mid, right)
          let m := L.branch.cut (rest'.map Prod.fst) (upper cmp mid rest)
          ((L.branch.fits (rest'.map Prod.fst) = true ∧
              t' = (⟨id, n.1, rest'⟩ : Branch ι K (LevelTree ι K V h)) ∧ s = none) ∨
            (L.branch.fits (rest'.map Prod.fst) = false ∧
              t' = (⟨id, n.1, rest'.take m⟩ : Branch ι K (LevelTree ι K V h)) ∧
              s = rightBranch (fresh (h + 1)) (rest'.drop m)))) := by
  intro i
  simp only [insertRec] at hins
  cases hrec : insertRec cmp L fresh unique key val (child i first rest) with
  | none => simp [i, hrec] at hins
  | some p =>
      obtain ⟨t, cs⟩ := p
      refine ⟨t, cs, rfl, ?_⟩
      cases cs with
      | none =>
          simp only [i, hrec] at hins
          cases hins
          exact Or.inl ⟨rfl, rfl, rfl⟩
      | some q =>
          obtain ⟨mid, right⟩ := q
          refine Or.inr ⟨mid, right, rfl, ?_⟩
          simp only [i, hrec] at hins
          split_ifs at hins with hfits
          · cases hins
            exact Or.inl ⟨hfits, rfl, rfl⟩
          · cases hins
            exact Or.inr ⟨by simpa using hfits, rfl, rfl⟩

/-- An insertion adds its cell to the contents and keeps the others, wherever
the new separators go. -/
theorem insertRec_perm {h : ℕ} {t t' : LevelTree ι K V h} {s : Option (K × LevelTree ι K V h)}
    (hins : insertRec cmp L fresh unique key val t = some (t', s)) :
    (t'.toList ++ splitList s).Perm ((key, val) :: t.toList) := by
  induction h with
  | zero =>
      obtain ⟨id, cells⟩ := t
      have hperm : (cells.insertIdx (upper cmp key cells) (key, val)).Perm ((key, val) :: cells) :=
        List.perm_insertIdx _ _ (upper_le cells)
      obtain ⟨-, ⟨-, rfl, rfl⟩ | ⟨-, rfl, rfl⟩⟩ := insertRec_leaf hins
      · simpa [toList, splitList] using hperm
      · rw [splitList_rightLeaf]
        simpa [toList] using hperm
  | succ h ih =>
      obtain ⟨id, first, rest⟩ := t
      obtain ⟨t, cs, hrec, hcase⟩ := insertRec_branch hins
      have hchild := ih hrec
      have hi : upper cmp key rest ≤ rest.length := upper_le rest
      obtain ⟨A, B, hold, hnew⟩ := flat_splice toList first rest hi
      -- the node with its child replaced, and the right sibling of the child
      have hset : (splitList cs ++ flat toList (setChild (upper cmp key rest) t first rest).1
          (setChild (upper cmp key rest) t first rest).2).Perm
          ((key, val) :: flat toList first rest) := by
        rw [setChild, hnew, hold, flat_nil]
        calc (splitList cs ++ (A ++ t.toList ++ B)).Perm (A ++ (t.toList ++ splitList cs) ++ B) := by
              refine (List.perm_append_comm).trans ?_
              simp only [List.append_assoc]
              exact (List.perm_append_comm.append_left _).append_left _
          _ |>.Perm (A ++ ((key, val) :: (child (upper cmp key rest) first rest).toList) ++ B) :=
              (hchild.append_left A).append_right B
          _ |>.Perm ((key, val) :: (A ++ (child (upper cmp key rest) first rest).toList ++ B)) := by
              simp
      obtain ⟨rfl, rfl, rfl⟩ | ⟨mid, right, rfl, hcut⟩ := hcase
      · simpa [splitList, toList_succ] using hset
      · have hj : upper cmp mid rest ≤ (setChild (upper cmp key rest) t first rest).2.length := by
          rw [length_setChild t first rest hi]
          exact upper_le rest
        have hins' := flat_insertIdx_perm toList (setChild (upper cmp key rest) t first rest).1 _ hj
          (mid, right)
        obtain ⟨-, rfl, rfl⟩ | ⟨-, rfl, rfl⟩ := hcut
        · simpa [splitList, toList_succ] using hins'.trans hset
        · rw [toList_succ, toList_succ, flat_take_rightBranch]
          exact hins'.trans hset

end Insert

end LevelTree

/-! ## The bracketing invariant -/

section Invariant

variable (cmp : K → K → Ordering) (strict : Bool)

/-- Below, or not above. -/
def Rel (a b : K) : Prop := if strict then cmp a b = .lt else cmp a b ≠ .gt

def AboveLo (lo : Option K) (k : K) : Prop := ∀ l ∈ lo, cmp l k ≠ .gt

def BelowHi (hi : Option K) (k : K) : Prop := ∀ u ∈ hi, Rel cmp strict k u

def SepAbove (lo : Option K) (k : K) : Prop := ∀ l ∈ lo, Rel cmp strict l k

/-- Every child satisfies `P` between the separators around it. -/
def Chain (P : Option K → Option K → T → Prop) :
    Option K → Option K → T → List (K × T) → Prop
  | lo, hi, t, [] => P lo hi t
  | lo, hi, t, (k, c) :: rest =>
    P lo (some k) t ∧ SepAbove cmp strict lo k ∧ BelowHi cmp strict hi k ∧
      Chain P (some k) hi c rest

/-- Cells are sorted and every subtree lies between its bounds. -/
def LevelTree.Inv : {h : ℕ} → Option K → Option K → LevelTree ι K V h → Prop
  | 0, lo, hi, ⟨_, cells⟩ =>
    cells.Pairwise (fun a b => Rel cmp strict a.1 b.1) ∧
      ∀ c ∈ cells, AboveLo cmp lo c.1 ∧ BelowHi cmp strict hi c.1
  | _ + 1, lo, hi, ⟨_, first, rest⟩ =>
    Chain cmp strict (fun lo hi t => t.Inv lo hi) lo hi first rest

end Invariant

section InvariantLemmas

variable {cmp : K → K → Ordering} {strict : Bool}

theorem Rel.ne_gt {a b : K} (h : Rel cmp strict a b) : cmp a b ≠ .gt := by
  unfold Rel at h
  split_ifs at h
  · simp [h]
  · exact h

theorem Rel.of_lt {a b : K} (h : cmp a b = .lt) : Rel cmp strict a b := by
  unfold Rel
  split_ifs
  · exact h
  · simp [h]

variable [Std.TransCmp cmp]

theorem ne_gt_trans {a b c : K} (hab : cmp a b ≠ .gt) (hbc : cmp b c ≠ .gt) : cmp a c ≠ .gt :=
  Ordering.isLE_iff_ne_gt.mp (Std.TransCmp.isLE_trans (Ordering.ne_gt_iff_isLE.mp hab)
    (Ordering.ne_gt_iff_isLE.mp hbc))

theorem Rel.trans {a b c : K} (hab : Rel cmp strict a b) (hbc : Rel cmp strict b c) :
    Rel cmp strict a c := by
  unfold Rel at *
  split_ifs at *
  · exact Std.TransCmp.lt_trans hab hbc
  · exact ne_gt_trans hab hbc

theorem Rel.of_ne_gt_of_rel {a b c : K} (hab : cmp a b ≠ .gt) (hbc : Rel cmp strict b c) :
    Rel cmp strict a c := by
  unfold Rel at *
  split_ifs at *
  · exact Std.TransCmp.lt_of_isLE_of_lt (Ordering.ne_gt_iff_isLE.mp hab) hbc
  · exact ne_gt_trans hab hbc

theorem Rel.of_rel_of_ne_gt {a b c : K} (hab : Rel cmp strict a b) (hbc : cmp b c ≠ .gt) :
    Rel cmp strict a c := by
  unfold Rel at *
  split_ifs at *
  · exact Std.TransCmp.lt_of_lt_of_isLE hab (Ordering.ne_gt_iff_isLE.mp hbc)
  · exact ne_gt_trans hab hbc

theorem BelowHi.of_rel {hi : Option K} {a b : K} (hab : Rel cmp strict a b)
    (hb : BelowHi cmp strict hi b) : BelowHi cmp strict hi a :=
  fun u hu => hab.trans (hb u hu)

variable {P : Option K → Option K → T → Prop}

/-- Two chains that meet at a separator. -/
theorem Chain.append {lo hi : Option K} {t c : T} {k : K} {ts rest : List (K × T)}
    (hts : Chain cmp strict P lo (some k) t ts) (hlo : SepAbove cmp strict lo k)
    (hhi : BelowHi cmp strict hi k) (hrest : Chain cmp strict P (some k) hi c rest) :
    Chain cmp strict P lo hi t (ts ++ (k, c) :: rest) := by
  induction ts generalizing lo t with
  | nil => exact ⟨hts, hlo, hhi, hrest⟩
  | cons p ts ih =>
      obtain ⟨k', c'⟩ := p
      obtain ⟨hP, hlo', hk', htail⟩ := hts
      refine ⟨hP, hlo', hhi.of_rel (hk' k rfl), ih htail ?_⟩
      rintro l ⟨⟩
      exact hk' k rfl

/-- The separators of a chain are above its lower bound. -/
theorem Chain.rel_of_mem {lo hi : Option K} {t : T} {rest : List (K × T)}
    (h : Chain cmp strict P lo hi t rest) {c : K × T} (hc : c ∈ rest) :
    SepAbove cmp strict lo c.1 ∧ BelowHi cmp strict hi c.1 := by
  induction rest generalizing lo t with
  | nil => simp at hc
  | cons p rest ih =>
      obtain ⟨k, c'⟩ := p
      obtain ⟨-, hlo, hhi, htail⟩ := h
      rcases List.mem_cons.mp hc with rfl | hmem
      · exact ⟨hlo, hhi⟩
      · have := ih htail hmem
        exact ⟨fun l hl => (hlo l hl).trans (this.1 k rfl), this.2⟩

theorem Chain.pairwise {lo hi : Option K} {t : T} {rest : List (K × T)}
    (h : Chain cmp strict P lo hi t rest) :
    rest.Pairwise fun a b => Rel cmp strict a.1 b.1 := by
  induction rest generalizing lo t with
  | nil => exact List.Pairwise.nil
  | cons p rest ih =>
      obtain ⟨-, -, -, htail⟩ := h
      exact List.pairwise_cons.mpr ⟨fun c hc => (htail.rel_of_mem hc).1 p.1 rfl, ih htail⟩

/-- Cutting a chain at a separator. -/
theorem Chain.split {lo hi : Option K} {t c : T} {k : K} {xs ys : List (K × T)}
    (h : Chain cmp strict P lo hi t (xs ++ (k, c) :: ys)) :
    Chain cmp strict P lo (some k) t xs ∧ Chain cmp strict P (some k) hi c ys ∧
      SepAbove cmp strict lo k ∧ BelowHi cmp strict hi k := by
  induction xs generalizing lo t with
  | nil =>
      obtain ⟨hP, hlo, hhi, htail⟩ := h
      exact ⟨hP, htail, hlo, hhi⟩
  | cons p xs ih =>
      obtain ⟨k', c'⟩ := p
      obtain ⟨hP, hlo, hhi, htail⟩ := h
      obtain ⟨hxs, hys, hsep, hk⟩ := ih htail
      refine ⟨⟨hP, hlo, ?_, hxs⟩, hys, ?_, hk⟩
      · rintro u ⟨⟩
        exact hsep k' rfl
      · exact fun l hl => (hlo l hl).trans (hsep k' rfl)

/-- Routing: the child a key is sent to lies between bounds that bracket the
key, and any chain between the same bounds may stand in its place. -/
theorem Chain.route {lo hi : Option K} {t : T} {rest : List (K × T)} {key : K}
    (h : Chain cmp strict P lo hi t rest) (hlo : AboveLo cmp lo key)
    (hhi : ∀ u ∈ hi, cmp key u = .lt) :
    ∃ lo' hi', P lo' hi' (child (upper cmp key rest) t rest) ∧ AboveLo cmp lo' key ∧
      (∀ u ∈ hi', cmp key u = .lt) ∧ (∀ mid, AboveLo cmp lo' mid → AboveLo cmp lo mid) ∧
      (∀ mid, AboveLo cmp lo' mid → BelowHi cmp strict hi' mid →
        (strict = false → ∀ c ∈ rest[upper cmp key rest]?, cmp mid c.1 ≠ .eq) →
        upper cmp mid rest = upper cmp key rest) ∧
      ∀ t' ts, Chain cmp strict P lo' hi' t' ts →
        Chain cmp strict P lo hi (splice (upper cmp key rest) t' ts t rest).1
          (splice (upper cmp key rest) t' ts t rest).2 := by
  induction rest generalizing lo t with
  | nil =>
      refine ⟨lo, hi, h, hlo, hhi, fun _ => id, fun _ _ _ _ => rfl, fun t' ts hts => ?_⟩
      change Chain cmp strict P lo hi t' (ts ++ [])
      rwa [List.append_nil]
  | cons p rest ih =>
      obtain ⟨k, c⟩ := p
      obtain ⟨hP, hsep, hbelow, htail⟩ := h
      by_cases hk : cmp k key = .gt
      · -- the key is left of the first separator
        rw [upper_cons_of_gt hk]
        refine ⟨lo, some k, hP, hlo, ?_, fun _ => id, ?_, ?_⟩
        · rintro u ⟨⟩
          exact Std.OrientedCmp.lt_of_gt hk
        · intro mid _ hmid hne
          have hrel : Rel cmp strict mid k := hmid k rfl
          apply upper_cons_of_gt
          rw [Std.OrientedCmp.gt_iff_lt]
          cases strict with
          | true => simpa [Rel] using hrel
          | false =>
              have hne' : cmp mid k ≠ .eq := hne rfl (k, c) rfl
              have hle := hrel.ne_gt
              cases hcmp : cmp mid k with
              | lt => rfl
              | eq => exact absurd hcmp hne'
              | gt => exact absurd hcmp hle
        · intro t' ts hts
          exact hts.append hsep hbelow htail
      · rw [upper_cons_of_le hk]
        have hkey : AboveLo cmp (some k) key := by
          rintro l ⟨⟩
          exact hk
        obtain ⟨lo', hi', hchild, hlo', hhi', habove, hmid, hctx⟩ := ih htail hkey
        refine ⟨lo', hi', hchild, hlo', hhi', ?_, ?_, ?_⟩
        · intro mid hm l hl
          exact ne_gt_trans (hsep l hl).ne_gt (habove mid hm k rfl)
        · intro mid hm hb hne
          rw [upper_cons_of_le (habove mid hm k rfl)]
          exact congrArg (· + 1) (hmid mid hm hb hne)
        · intro t' ts hts
          exact ⟨hP, hsep, hbelow, hctx t' ts hts⟩

/-! ## Sorted cells -/

section Cells

variable {key : K} {cells : List (K × T)}

omit [Std.TransCmp cmp] in
theorem ne_gt_of_mem_take_upper {c : K × T} (hc : c ∈ cells.take (upper cmp key cells)) :
    cmp c.1 key ≠ .gt := by
  rw [upper, take_partitionPoint] at hc
  simpa using List.mem_takeWhile_imp hc

/-- Cells from the partition point on are above the key. -/
theorem lt_of_mem_drop_upper (hsorted : cells.Pairwise fun a b => Rel cmp strict a.1 b.1)
    {c : K × T} (hc : c ∈ cells.drop (upper cmp key cells)) : cmp key c.1 = .lt := by
  induction cells with
  | nil => simp at hc
  | cons d cells ih =>
      obtain ⟨hd, htail⟩ := List.pairwise_cons.mp hsorted
      by_cases hgt : cmp d.1 key = .gt
      · rw [upper_cons_of_gt hgt, List.drop_zero] at hc
        have hlt := Std.OrientedCmp.lt_of_gt hgt
        rcases List.mem_cons.mp hc with rfl | hmem
        · exact hlt
        · exact Std.TransCmp.lt_of_lt_of_isLE hlt
            (Ordering.ne_gt_iff_isLE.mp (hd c hmem).ne_gt)
      · rw [upper_cons_of_le hgt, List.drop_succ_cons] at hc
        exact ih htail hc

/-- When the last cell not above the key is not equal to it, no cell before it
is. -/
theorem rel_of_mem_take_upper (hsorted : cells.Pairwise fun a b => Rel cmp strict a.1 b.1)
    (hlast : strict = true → ∀ c ∈ (cells.take (upper cmp key cells)).getLast?,
      cmp c.1 key ≠ .eq)
    {c : K × T} (hc : c ∈ cells.take (upper cmp key cells)) : Rel cmp strict c.1 key := by
  cases hs : strict with
  | false => simpa [Rel] using ne_gt_of_mem_take_upper hc
  | true =>
      subst hs
      have hne : cells.take (upper cmp key cells) ≠ [] := List.ne_nil_of_mem hc
      have hz := List.getLast?_eq_getLast_of_ne_nil hne
      set z := (cells.take (upper cmp key cells)).getLast hne with hzdef
      have hzmem : z ∈ cells.take (upper cmp key cells) := List.getLast_mem hne
      have hzlt : cmp z.1 key = .lt := by
        have hle := ne_gt_of_mem_take_upper hzmem
        have hneq := hlast rfl z hz
        cases hcmp : cmp z.1 key <;> simp_all
      have hsub : (cells.take (upper cmp key cells)).Pairwise fun a b => Rel cmp true a.1 b.1 :=
        hsorted.sublist (List.take_sublist _ _)
      rw [← List.dropLast_append_getLast hne] at hc hsub
      rcases List.mem_append.mp hc with hmem | hmem
      · have hcz : Rel cmp true c.1 z.1 := (List.pairwise_append.mp hsub).2.2 c hmem z (by simp [hzdef])
        exact hcz.trans (Rel.of_lt hzlt)
      · rw [List.mem_singleton] at hmem
        rw [hmem]
        exact Rel.of_lt hzlt

theorem pairwise_insertIdx_upper (hsorted : cells.Pairwise fun a b => Rel cmp strict a.1 b.1)
    (hlast : strict = true → ∀ c ∈ (cells.take (upper cmp key cells)).getLast?,
      cmp c.1 key ≠ .eq) (v : T) :
    (cells.insertIdx (upper cmp key cells) (key, v)).Pairwise
      fun a b => Rel cmp strict a.1 b.1 := by
  rw [insertIdx_eq_take_append _ (upper_le cells), List.pairwise_append, List.pairwise_cons]
  have hsplit := hsorted
  rw [← List.take_append_drop (upper cmp key cells) cells, List.pairwise_append] at hsplit
  obtain ⟨htake, hdrop, hcross⟩ := hsplit
  refine ⟨htake, ⟨?_, hdrop⟩, ?_⟩
  · intro c hc
    exact Rel.of_lt (lt_of_mem_drop_upper hsorted hc)
  · intro a ha b hb
    have hakey := rel_of_mem_take_upper hsorted hlast ha
    rcases List.mem_cons.mp hb with rfl | hb
    · exact hakey
    · exact hcross a ha b hb

end Cells

end InvariantLemmas

end BPlusTree
