import Docsql.Lib.BPlusTreeLookup

/-!
# Insertion at the root of a B+ tree

How many pages an insertion takes, when it is refused, and what the tree with
its new root holds.
-/

namespace BPlusTree

variable {ι K V T : Type}

namespace LevelTree

/-! ## Pages -/

theorem pages_succ {h : ℕ} (id : ι) (first : LevelTree ι K V h) (rest : List (K × LevelTree ι K V h)) :
    pages (h := h + 1) ⟨id, first, rest⟩ = id :: flat pages first rest := rfl

/-- The pages of an optional right sibling. -/
def splitPages {h : ℕ} : Option (K × LevelTree ι K V h) → List ι
  | none => []
  | some (_, t) => t.pages

theorem flat_pages_rightBranch {h : ℕ} (id : ι) (first : LevelTree ι K V h)
    {rest : List (K × LevelTree ι K V h)} {m : ℕ} (hm : m < rest.length) :
    (flat pages first (rest.take m) ++ splitPages (rightBranch id (rest.drop m))).Perm
      (flat pages first rest ++ [id]) := by
  obtain ⟨k, c, tail, hdrop, hright⟩ := exists_rightBranch id
    (mt List.drop_eq_nil_iff.mp (not_le.mpr hm))
  rw [hright]
  conv_rhs => rw [← List.take_append_drop m rest, hdrop, flat_append, List.append_assoc]
  exact (List.perm_append_singleton id (flat pages c tail)).symm.append_left _

/-- A deletion keeps every page where it is. -/
theorem deleteRec_pages {cmp : K → K → Ordering} {key : K}
    {leafMatch : List (K × V) → Option (List (K × V))} {h : ℕ} {t t' : LevelTree ι K V h}
    (hdel : deleteRec cmp key leafMatch t = some t') : t'.pages = t.pages ∧ t'.root = t.root := by
  induction h with
  | zero =>
      obtain ⟨id, cells⟩ := t
      obtain ⟨cells', -, rfl⟩ := Option.map_eq_some_iff.mp hdel
      exact ⟨rfl, rfl⟩
  | succ h ih =>
      obtain ⟨id, first, rest⟩ := t
      obtain ⟨i, hi, t, ht, rfl⟩ := deleteRec_branch hdel
      obtain ⟨A, B, hold, hnew⟩ := flat_splice pages first rest (candidates_le hi)
      refine ⟨?_, rfl⟩
      rw [pages_succ, pages_succ, hold, setChild, hnew, flat_nil, (ih ht).1]

section Insert

variable (cmp : K → K → Ordering) (L : Layout K) (key : K)

/-- How many nodes an insertion cuts. -/
def cuts : {h : ℕ} → LevelTree ι K V h → ℕ
  | 0, ⟨_, cells⟩ =>
    if L.leaf.fits ((cells.map Prod.fst).insertIdx (upper cmp key cells) key) then 0 else 1
  | _ + 1, ⟨_, first, rest⟩ =>
    let c := child (upper cmp key rest) first rest
    match promoted cmp L key c with
    | none => cuts c
    | some mid =>
      if L.branch.fits ((rest.map Prod.fst).insertIdx (upper cmp mid rest) mid) then cuts c
      else cuts c + 1

/-- How many pages an insertion takes: a cut root gets a new root above it. -/
def growth {h : ℕ} (t : LevelTree ι K V h) : ℕ :=
  if (promoted cmp L key t).isSome then cuts cmp L key t + 1 else cuts cmp L key t

end Insert

section Growth

theorem cuts_le (cmp : K → K → Ordering) (L : Layout K) (key : K) {h : ℕ} (t : LevelTree ι K V h) :
    cuts cmp L key t ≤ h + 1 := by
  induction h with
  | zero =>
      obtain ⟨id, cells⟩ := t
      simp only [cuts]
      split_ifs <;> omega
  | succ h ih =>
      obtain ⟨id, first, rest⟩ := t
      have hchild := ih (child (upper cmp key rest) first rest)
      simp only [cuts]
      split
      · omega
      · split_ifs <;> omega

theorem growth_le (cmp : K → K → Ordering) (L : Layout K) (key : K) {h : ℕ} (t : LevelTree ι K V h) :
    growth cmp L key t ≤ h + 2 := by
  have hcuts := cuts_le cmp L key t
  unfold growth
  split_ifs <;> omega

variable {cmp : K → K → Ordering} {L : Layout K} {fresh : ℕ → ι} {unique : Bool} {key : K} {val : V}
  {h : ℕ}

/-- The pages after an insertion are those before and the fresh ones, one for
each cut; a node passes a separator up only when every level below was cut. -/
theorem insertRec_pages {t t' : LevelTree ι K V h} {s : Option (K × LevelTree ι K V h)} (hkey : L.ok key)
    (hfits : t.Fits L) (hins : insertRec cmp L fresh unique key val t = some (t', s)) :
    (t'.pages ++ splitPages s).Perm (t.pages ++ (List.range (cuts cmp L key t)).map fresh) ∧
      t'.root = t.root ∧ ∀ c ∈ s, cuts cmp L key t = h + 1 ∧ c.2.root = fresh h := by
  induction h with
  | zero =>
      obtain ⟨id, cells⟩ := t
      have hkeys : ((cells.map Prod.fst).insertIdx (upper cmp key cells) key) =
          (cells.insertIdx (upper cmp key cells) (key, val)).map Prod.fst := by
        rw [List.map_insertIdx]
      simp only [cuts, hkeys]
      obtain ⟨-, ⟨hfit, rfl, rfl⟩ | ⟨hover, rfl, rfl⟩⟩ := insertRec_leaf hins
      · simp [hfit, splitPages, pages, root]
      · obtain ⟨-, hlt, -, -⟩ := cut_cells hfits.2 hkey (upper_le cells) hfits.1 hover
        obtain ⟨k, v, tail, -, hright⟩ := exists_rightLeaf (fresh 0)
          (mt List.drop_eq_nil_iff.mp (not_le.mpr hlt))
        rw [hright, if_neg (by simp [hover])]
        refine ⟨by simp [splitPages, pages], rfl, ?_⟩
        rintro c ⟨⟩
        exact ⟨rfl, rfl⟩
  | succ h ih =>
      obtain ⟨id, first, rest⟩ := t
      obtain ⟨hfit, hok, hfirst, hrest⟩ := hfits
      obtain ⟨t, cs, hrec, hcase⟩ := insertRec_branch hins
      have hchildFits := child_forall (upper cmp key rest) hfirst hrest
      obtain ⟨hperm, -, hcs⟩ := ih hchildFits hrec
      have hprom := insertRec_promoted hrec
      have hi : upper cmp key rest ≤ rest.length := upper_le rest
      obtain ⟨A, B, hold, hnew⟩ := flat_splice pages first rest hi
      have hset : (splitPages cs ++ flat pages (setChild (upper cmp key rest) t first rest).1
          (setChild (upper cmp key rest) t first rest).2).Perm (flat pages first rest ++
            (List.range (cuts cmp L key (child (upper cmp key rest) first rest))).map fresh) := by
        rw [setChild, hnew, hold, flat_nil]
        calc (splitPages cs ++ (A ++ t.pages ++ B)).Perm (A ++ (t.pages ++ splitPages cs) ++ B) := by
              refine List.perm_append_comm.trans ?_
              simp only [List.append_assoc]
              exact (List.perm_append_comm.append_left _).append_left _
          _ |>.Perm (A ++ ((child (upper cmp key rest) first rest).pages ++ _) ++ B) :=
              (hperm.append_left A).append_right B
          _ |>.Perm _ := by
              simp only [List.append_assoc]
              exact (List.perm_append_comm.append_left _).append_left _
      obtain ⟨rfl, rfl, rfl⟩ | ⟨mid, right, rfl, hcut⟩ := hcase
      · simp only [cuts, hprom, Option.map_none]
        refine ⟨?_, rfl, by simp⟩
        simpa [splitPages, pages_succ] using hset
      · have hkeys := map_fst_setChild (upper cmp key rest) t first rest
        have hlen := length_setChild t first rest hi
        obtain ⟨hcuts, -⟩ := hcs (mid, right) rfl
        have hj : upper cmp mid rest ≤ (setChild (upper cmp key rest) t first rest).2.length :=
          hlen ▸ upper_le rest
        have hmid : L.ok mid := ((insertRec_fits hkey hchildFits hrec).2 (mid, right) rfl).1
        have hok' : ∀ c ∈ (setChild (upper cmp key rest) t first rest).2, L.ok c.1 := by
          intro c hc
          have : c.1 ∈ rest.map Prod.fst := hkeys ▸ List.mem_map_of_mem hc
          obtain ⟨d, hd, hdc⟩ := List.mem_map.mp this
          exact hdc ▸ hok d hd
        have hkeys' : ((rest.map Prod.fst).insertIdx (upper cmp mid rest) mid) =
            ((setChild (upper cmp key rest) t first rest).2.insertIdx (upper cmp mid rest)
              (mid, right)).map Prod.fst := by
          rw [List.map_insertIdx, hkeys]
        simp only [cuts, hprom, Option.map_some, hkeys', hcuts] at hset ⊢
        rw [← hkeys] at hfit
        generalize setChild (upper cmp key rest) t first rest = n at *
        have hins' := (flat_insertIdx_perm pages n.1 n.2 hj (mid, right)).trans hset
        obtain ⟨hfit', rfl, rfl⟩ | ⟨hover, rfl, rfl⟩ := hcut
        · rw [if_pos hfit']
          refine ⟨?_, rfl, by simp⟩
          simpa [splitPages, pages_succ] using hins'
        · obtain ⟨-, hlt, -, -⟩ := cut_cells hok' hmid hj hfit hover
          rw [if_neg (by simp [hover])]
          refine ⟨?_, rfl, ?_⟩
          · rw [pages_succ, pages_succ, List.range_succ, List.map_append, List.map_singleton]
            simp only [List.cons_append]
            refine ((flat_pages_rightBranch _ n.1 hlt).trans ?_).cons id
            simpa using hins'.append_right [fresh (h + 1)]
          · obtain ⟨k, c, tail, -, hright⟩ := exists_rightBranch (fresh (h + 1))
              (mt List.drop_eq_nil_iff.mp (not_le.mpr hlt))
            rw [hright]
            rintro c ⟨⟩
            exact ⟨rfl, rfl⟩

/-! ## Duplicates -/

theorem insertRec_branch_none {id : ι} {first : LevelTree ι K V h} {rest : List (K × LevelTree ι K V h)}
    (hins : insertRec cmp L fresh unique key val (h := h + 1) ⟨id, first, rest⟩ = none) :
    insertRec cmp L fresh unique key val (child (upper cmp key rest) first rest) = none := by
  simp only [insertRec] at hins
  split at hins
  · assumption
  · cases hins
  · split_ifs at hins

/-- An insertion is refused only for a key that is there. -/
theorem insertRec_none {t : LevelTree ι K V h}
    (hins : insertRec cmp L fresh unique key val t = none) :
    unique = true ∧ ∃ c ∈ t.toList, cmp c.1 key = .eq := by
  induction h with
  | zero =>
      obtain ⟨id, cells⟩ := t
      simp only [insertRec] at hins
      split_ifs at hins with hdup
      rw [Bool.and_eq_true, Option.any_eq_true] at hdup
      obtain ⟨hu, c, hc, heq⟩ := hdup
      exact ⟨hu, c, List.mem_of_mem_take (List.mem_of_getLast? hc), by simpa using heq⟩
  | succ h ih =>
      obtain ⟨id, first, rest⟩ := t
      obtain ⟨hu, c, hc, heq⟩ := ih (insertRec_branch_none hins)
      refine ⟨hu, c, ?_, heq⟩
      rw [toList_succ, flat]
      rcases child_mem (upper cmp key rest) first rest with hfirst | ⟨k, hmem⟩
      · exact List.mem_append_left _ (hfirst ▸ hc)
      · exact List.mem_append_right _ (List.mem_flatMap.mpr ⟨_, hmem, hc⟩)

theorem insert_eq_none {t : LevelTree ι K V h} :
    insert cmp L fresh unique key val t = none ↔
      insertRec cmp L fresh unique key val t = none := by
  unfold insert
  split <;> simp_all

/-- Only a cut root makes the tree higher. -/
theorem insert_height {h' : ℕ} {t : LevelTree ι K V h} {t' : LevelTree ι K V h'}
    (hins : insert cmp L fresh unique key val t = some ⟨h', t'⟩) :
    h' = h ∨ h' = h + 1 ∧ promoted cmp L key t ≠ none := by
  unfold insert at hins
  split at hins
  · cases hins
  · cases hins
    exact Or.inl rfl
  · rename_i hrec
    cases hins
    refine Or.inr ⟨rfl, ?_⟩
    simp [insertRec_promoted hrec]

variable [Std.TransCmp cmp]

/-- In a strictly ordered list no two keys are equal, in whatever order it is
listed. -/
theorem not_eq_of_strict_perm {cells cells' : List (K × V)} {c : K × V}
    (hsorted : cells.Pairwise fun a b => Rel cmp true a.1 b.1)
    (hperm : cells.Perm (c :: cells')) : ∀ d ∈ cells', cmp d.1 c.1 ≠ .eq := by
  have hne : cells.Pairwise fun a b => cmp a.1 b.1 ≠ .eq := by
    refine hsorted.imp ?_
    intro a b hab heq
    have hlt : cmp a.1 b.1 = .lt := hab
    simp [hlt] at heq
  have hsymm : ∀ {a b : K × V}, cmp a.1 b.1 ≠ .eq → cmp b.1 a.1 ≠ .eq :=
    fun h heq => h (Std.OrientedCmp.eq_symm heq)
  have hpair := (hperm.pairwise_iff hsymm).mp hne
  intro d hd
  exact hsymm ((List.pairwise_cons.mp hpair).1 d hd)

/-! ## The whole tree -/

theorem insert_spec {h' : ℕ} {t : LevelTree ι K V h} {t' : LevelTree ι K V h'} (hkey : L.ok key)
    (hfits : t.Fits L) (hinv : t.Inv cmp unique none none)
    (hplace : unique = false → SplitsInPlace cmp L key t)
    (hins : insert cmp L fresh unique key val t = some ⟨h', t'⟩) :
    t'.Fits L ∧ t'.Inv cmp unique none none ∧ t'.toList.Perm ((key, val) :: t.toList) := by
  unfold insert at hins
  cases hrec : insertRec cmp L fresh unique key val t with
  | none => simp [hrec] at hins
  | some p =>
      obtain ⟨t₁, s⟩ := p
      have hperm := insertRec_perm hrec
      obtain ⟨hf, hs⟩ := insertRec_fits hkey hfits hrec
      have hchain := insertRec_inv hkey hfits hinv (by simp [AboveLo]) (by simp) hplace hrec
      cases s with
      | none =>
          simp only [hrec, Option.some.injEq] at hins
          cases hins
          exact ⟨hf, hchain, by simpa [splitList] using hperm⟩
      | some c =>
          obtain ⟨mid, right⟩ := c
          simp only [hrec, Option.some.injEq] at hins
          cases hins
          obtain ⟨hmid, hright⟩ := hs (mid, right) rfl
          refine ⟨⟨L.branch.fits_singleton hmid, by simpa using hmid, hf, by simpa using hright⟩,
            hchain, ?_⟩
          simpa [toList_succ, splitList] using hperm

/-- A unique insertion is refused exactly when an equal key is there. -/
theorem insert_eq_none_iff {t : LevelTree ι K V h} (hkey : L.ok key) (hfits : t.Fits L)
    (hinv : t.Inv cmp true none none) :
    insert cmp L fresh true key val t = none ↔ ∃ c ∈ t.toList, cmp c.1 key = .eq := by
  constructor
  · intro hins
    exact (insertRec_none (insert_eq_none.mp hins)).2
  · rintro ⟨c, hc, heq⟩
    cases hins : insert cmp L fresh true key val t with
    | none => rfl
    | some p =>
        obtain ⟨h', t'⟩ := p
        obtain ⟨-, hinv', hperm⟩ := insert_spec hkey hfits hinv (by simp) hins
        exact absurd heq (not_eq_of_strict_perm hinv'.sorted hperm c hc)

end Growth

end LevelTree

end BPlusTree
