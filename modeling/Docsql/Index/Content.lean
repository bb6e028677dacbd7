import Docsql.Index.Dml

/-!
# What the trees hold

A tree holds one entry for every row that has a key under its definition.  In
the middle of a statement the rows that are indexed are not the rows that are
stored; each call of the index maintenance adds, drops or moves one row of them.
-/

namespace Docsql.Index

open StateExcept (Ends forEach)
open Heap (applyMoves)

variable {Doc H : Type} (env : Env Doc)

/-- The key of a document in a tree, if it has one there. -/
def keyIn (spec : IdxSpec Doc) (doc : Doc) : Option Value :=
  match qualifies doc spec with
  | .ok true => indexKeyOfSpec env doc spec
  | _ => none

def entryOf (spec : IdxSpec Doc) (row : ℕ × Doc) : Option (Value × ℕ) :=
  (keyIn env spec row.2).map fun key => (key, row.1)

def entries (spec : IdxSpec Doc) (rows : List (ℕ × Doc)) : Tree :=
  rows.filterMap (entryOf env spec)

def KeysDiffer (t : Tree) : Prop := t.Pairwise fun a b => cmpValues a.1 b.1 ≠ .eq

/-- The tree holds the entries of the rows; under `strict` the keys of a unique
tree differ. -/
structure TreeOk (strict : Prop) (rows : List (ℕ × Doc)) (spec : IdxSpec Doc) (t : Tree) :
    Prop where
  perm : t.Perm (entries env spec rows)
  differ : strict → spec.unique = true → KeysDiffer t

/-- Trees that take every key. -/
def Roomy : Prop := ∀ t key, env.refuses t key = none

/-- Nothing keeps the document out of the tree. -/
structure Admits (rows : List (ℕ × Doc)) (spec : IdxSpec Doc) (doc : Doc) : Prop where
  roomy : Roomy env
  decided : ∃ pass, qualifies doc spec = .ok pass
  fresh : spec.unique = true → ∀ key, keyIn env spec doc = some key →
    ∀ e ∈ entries env spec rows, cmpValues e.1 key ≠ .eq

variable {env} {strict fail : Prop} {spec : IdxSpec Doc} {rows rest : List (ℕ × Doc)} {t : Tree}
variable {loc : ℕ} {doc : Doc}

/-! ## Entries and rows -/

theorem entryOf_loc {row : ℕ × Doc} {e : Value × ℕ} (h : entryOf env spec row = some e) :
    e.2 = row.1 := by
  obtain ⟨key, -, rfl⟩ := Option.map_eq_some_iff.mp h
  rfl

theorem entryOf_of_keyIn {key : Value} (h : keyIn env spec doc = some key) :
    entryOf env spec (loc, doc) = some (key, loc) := by
  rw [entryOf, h]
  rfl

theorem entryOf_of_none (h : keyIn env spec doc = none) :
    entryOf env spec (loc, doc) = none := by
  rw [entryOf, h]
  rfl

theorem keyIn_le {key : Value} (h : keyIn env spec doc = some key) :
    indexKeyOfSpec env doc spec = some key := by
  unfold keyIn at h
  split at h
  · exact h
  · cases h

theorem entries_cons (row : ℕ × Doc) (rows : List (ℕ × Doc)) :
    entries env spec (row :: rows) = (entryOf env spec row).toList ++ entries env spec rows := by
  unfold entries
  rw [List.filterMap_cons]
  split <;> rename_i h <;> simp [h]

theorem mem_entries_loc {e : Value × ℕ} (h : e ∈ entries env spec rows) :
    e.2 ∈ rows.map Prod.fst := by
  obtain ⟨row, hrow, he⟩ := List.mem_filterMap.mp h
  rw [entryOf_loc he]
  exact List.mem_map_of_mem hrow

theorem TreeOk.congr (h : TreeOk env strict rows spec t) (hrows : rows.Perm rest) :
    TreeOk env strict rest spec t :=
  ⟨h.perm.trans (hrows.filterMap _), h.differ⟩

theorem keys_differ_symm {a b : Value} (h : cmpValues a b ≠ .eq) : cmpValues b a ≠ .eq := by
  intro heq
  rw [cmpValues_swap, heq] at h
  exact h rfl

theorem TreeOk.perm_tree {t' : Tree} (h : TreeOk env strict rows spec t) (ht : t'.Perm t) :
    TreeOk env strict rows spec t' := by
  refine ⟨ht.trans h.perm, fun hs hu => ?_⟩
  exact (ht.pairwise_iff fun hab => keys_differ_symm hab).mpr (h.differ hs hu)

/-! ## One tree -/

theorem eraseP_of_none {α : Type} {p : α → Bool} {l : List α} (h : ∀ a ∈ l, p a = false) :
    l.eraseP p = l :=
  List.eraseP_of_forall_not fun a ha hp => by rw [h a ha] at hp; cases hp

/-- No entry of the other rows is taken for one of the row removed. -/
theorem sameEntry_eq_false (hloc : loc ∉ rest.map Prod.fst) (key : Value) {e : Value × ℕ}
    (he : e ∈ entries env spec rest) : sameEntry key loc e = false := by
  have hne : e.2 ≠ loc := fun heq => hloc (heq ▸ mem_entries_loc he)
  simp [sameEntry, hne]

/-- Deleting the entry of a row leaves those of the others. -/
theorem TreeOk.delete (h : TreeOk env strict ((loc, doc) :: rest) spec t)
    (hloc : loc ∉ rest.map Prod.fst) {key : Value} (hkey : indexKeyOfSpec env doc spec = some key) :
    TreeOk env strict rest spec (treeDeleteEntry key loc t).2 ∧
      ((treeDeleteEntry key loc t).1 = true ↔ keyIn env spec doc = some key) := by
  have hperm := h.perm
  rw [entries_cons] at hperm
  have hdiffer : strict → spec.unique = true → KeysDiffer (t.eraseP (sameEntry key loc)) :=
    fun hs hu => (h.differ hs hu).sublist List.eraseP_sublist
  cases hin : keyIn env spec doc with
  | none =>
    rw [entryOf_of_none hin] at hperm
    have hnone : ∀ e ∈ t, sameEntry key loc e = false := fun e he =>
      sameEntry_eq_false hloc key (hperm.mem_iff.mp he)
    refine ⟨⟨?_, hdiffer⟩, ?_⟩
    · rw [treeDeleteEntry, eraseP_of_none hnone]
      exact hperm
    · simpa [treeDeleteEntry] using fun a b hab => hnone (a, b) hab
  | some key' =>
    obtain rfl : key' = key := by
      have hk := keyIn_le hin
      rw [hkey, Option.some.injEq] at hk
      exact hk.symm
    rw [entryOf_of_keyIn hin] at hperm
    have hself : sameEntry key' loc (key', loc) = true := by
      simp [sameEntry, sameKey, cmpValues_self]
    refine ⟨⟨?_, hdiffer⟩, ?_⟩
    · -- the entry of the row is the only one at its locator
      have honly : ((key', loc) :: entries env spec rest).Pairwise
          fun a b => sameEntry key' loc a = true → sameEntry key' loc b = true → False := by
        rw [List.pairwise_cons]
        refine ⟨fun b hb _ hsame => ?_, List.pairwise_of_forall_mem_list fun a ha b _ hsame _ => ?_⟩
        · rw [sameEntry_eq_false hloc key' hb] at hsame
          cases hsame
        · rw [sameEntry_eq_false hloc key' ha] at hsame
          cases hsame
      have herase := List.Perm.eraseP _ honly hperm.symm
      rw [List.eraseP_cons_of_pos hself] at herase
      exact herase.symm
    · have hmem : (key', loc) ∈ t := hperm.mem_iff.mpr (by simp)
      simpa [treeDeleteEntry] using ⟨key', loc, hmem, hself⟩

theorem treeOk_cons_of_none (hin : keyIn env spec doc = none) :
    TreeOk env strict ((loc, doc) :: rest) spec t ↔ TreeOk env strict rest spec t := by
  have hentries : entries env spec ((loc, doc) :: rest) = entries env spec rest := by
    rw [entries_cons, entryOf_of_none hin]
    rfl
  refine ⟨fun h => ⟨?_, h.differ⟩, fun h => ⟨?_, h.differ⟩⟩
  · exact hentries ▸ h.perm
  · exact hentries ▸ h.perm

theorem treeInsert_ok {rootKey : String} {key : Value} {unique : Bool} {t' : Tree}
    (h : treeInsert env rootKey key loc unique t = .ok t') :
    t' = t ++ [(key, loc)] ∧ (unique = true → ∀ e ∈ t, cmpValues e.1 key ≠ .eq) := by
  unfold treeInsert at h
  split at h
  · cases h
  · rename_i hdup
    split at h
    · cases h
    · refine ⟨(Except.ok.inj h).symm, fun hu e he heq => hdup ⟨hu, ?_⟩⟩
      exact List.any_eq_true.mpr ⟨e, he, by simp [sameKey, heq]⟩

theorem treeInsert_runs {rootKey : String} {key : Value} {unique : Bool} (hroomy : Roomy env)
    (hfresh : unique = true → ∀ e ∈ t, cmpValues e.1 key ≠ .eq) :
    treeInsert env rootKey key loc unique t = .ok (t ++ [(key, loc)]) := by
  unfold treeInsert
  rw [if_neg, hroomy]
  rintro ⟨hu, hany⟩
  obtain ⟨e, he, hsame⟩ := List.any_eq_true.mp hany
  exact hfresh hu e he (by simpa [sameKey] using hsame)

theorem TreeOk.insert (h : TreeOk env strict rest spec t) {key : Value} {t' : Tree}
    (hin : keyIn env spec doc = some key)
    (hins : treeInsert env spec.rootKey key loc spec.unique t = .ok t') :
    TreeOk env strict ((loc, doc) :: rest) spec t' := by
  obtain ⟨rfl, hfresh⟩ := treeInsert_ok hins
  refine ⟨?_, fun hs hu => ?_⟩
  · rw [entries_cons, entryOf_of_keyIn hin]
    exact List.perm_append_comm.trans (h.perm.append_left _)
  · refine List.pairwise_append.mpr ⟨h.differ hs hu, List.pairwise_singleton _ _, ?_⟩
    intro a ha b hb
    rw [List.mem_singleton.mp hb]
    exact hfresh hu a ha

/-- In a tree whose keys differ no other row has the key of this one. -/
theorem TreeOk.fresh_of_differ (h : TreeOk env strict ((loc, doc) :: rest) spec t)
    (hdiffer : KeysDiffer t) {key : Value} (hin : keyIn env spec doc = some key) :
    ∀ e ∈ entries env spec rest, cmpValues e.1 key ≠ .eq := by
  have hperm := h.perm
  rw [entries_cons, entryOf_of_keyIn hin] at hperm
  have hpair : KeysDiffer ((key, loc) :: entries env spec rest) :=
    (hperm.pairwise_iff fun hab => keys_differ_symm hab).mp hdiffer
  exact fun e he => keys_differ_symm ((List.pairwise_cons.mp hpair).1 e he)

/-! ## One step on one tree -/

/-- Only the tree under `k` changed. -/
structure Wrote (k : String) (t : Tree) (w w' : Work H) : Prop where
  heap : w'.heap = w.heap
  keys : w'.roots.map Prod.fst = w.roots.map Prod.fst
  tree : w'.roots.lookup k = some t
  other : ∀ k' ≠ k, w'.roots.lookup k' = w.roots.lookup k'

section Steps

variable {w : Work H}

theorem lookup_putTree_self {roots : List (String × Tree)} {k : String} {t₀ : Tree}
    (h : roots.lookup k = some t₀) (t : Tree) : (putTree k t roots).lookup k = some t := by
  induction roots with
  | nil => cases h
  | cons e roots ih =>
    obtain ⟨k', t'⟩ := e
    by_cases hk : k = k'
    · subst hk
      simp [putTree]
    · have hbeq : (k == k') = false := by simpa using hk
      rw [List.lookup_cons, hbeq] at h
      rw [putTree, List.map_cons, List.lookup_cons, hbeq]
      exact ih h

theorem lookup_putTree_of_ne {roots : List (String × Tree)} {k k' : String} (hne : k' ≠ k)
    (t : Tree) : (putTree k t roots).lookup k' = roots.lookup k' := by
  induction roots with
  | nil => rfl
  | cons e roots ih =>
    obtain ⟨key, t'⟩ := e
    rw [putTree, List.map_cons, List.lookup_cons, List.lookup_cons]
    cases hk : (k' == key)
    · exact ih
    · have : key ≠ k := fun h => hne ((by simpa using hk : k' = key).trans h)
      simp [this]

theorem wrote_setTree {k : String} {t₀ : Tree} (h : w.roots.lookup k = some t₀) (t : Tree) :
    Ends (setTree k t) w fail fun _ w' => Wrote k t w w' :=
  .of_ok rfl ⟨rfl, by simp [putTree], lookup_putTree_self h t, fun _ hne =>
    lookup_putTree_of_ne hne t⟩

theorem Wrote.refl {k : String} (h : w.roots.lookup k = some t) : Wrote k t w w :=
  ⟨rfl, rfl, h, fun _ _ => rfl⟩

theorem treeOf_eq {k : String} (h : w.roots.lookup k = some t) : treeOf k w = (.ok t, w) := by
  simp [treeOf, h]

/-- A pure computation that succeeds, or the end of the statement. -/
theorem ends_after_except {α β : Type} {x : Except String α} {f : α → WorkM H β}
    {post : β → Work H → Prop} (hfail : fail ∨ ∃ a, x = .ok a)
    (h : ∀ a, x = .ok a → Ends (f a) w fail post) :
    Ends (StateExcept.fromExcept x >>= f) w fail post := by
  cases hx : x with
  | error e =>
    refine .of_error (StateExcept.bind_error rfl) (hfail.resolve_right ?_)
    rw [hx]
    rintro ⟨a, ha⟩
    cases ha
  | ok a => exact .after_except rfl (h a hx)

theorem keyIn_of_none (h : indexKeyOfSpec env doc spec = none) : keyIn env spec doc = none := by
  unfold keyIn
  split
  · exact h
  · rfl

theorem unindexTree_ends (hlookup : w.roots.lookup spec.rootKey = some t)
    (h : TreeOk env strict ((loc, doc) :: rest) spec t) (hloc : loc ∉ rest.map Prod.fst) :
    Ends (unindexTree env doc loc spec) w fail fun _ w' =>
      ∃ t', TreeOk env strict rest spec t' ∧ Wrote spec.rootKey t' w w' := by
  unfold unindexTree
  cases hkey : indexKeyOfSpec env doc spec with
  | none =>
    exact .of_ok rfl ⟨t, (treeOk_cons_of_none (keyIn_of_none hkey)).mp h, .refl hlookup⟩
  | some key =>
    refine .after_ok (treeOf_eq hlookup) ?_
    exact (wrote_setTree hlookup _).mono id fun _ w' hw => ⟨_, (h.delete hloc hkey).1, hw⟩

theorem addEntry_ends {key : Value} (hlookup : w.roots.lookup spec.rootKey = some t)
    (h : TreeOk env strict rest spec t) (hin : keyIn env spec doc = some key)
    (hfail : fail ∨ Admits env rest spec doc) :
    Ends (addEntry env spec.rootKey key loc spec.unique) w fail fun _ w' =>
      ∃ t', TreeOk env strict ((loc, doc) :: rest) spec t' ∧ Wrote spec.rootKey t' w w' := by
  have hins : fail ∨ ∃ t', treeInsert env spec.rootKey key loc spec.unique t = .ok t' :=
    hfail.imp_right fun hadmits => ⟨_, treeInsert_runs hadmits.roomy fun hu e he =>
      hadmits.fresh hu key hin e (h.perm.mem_iff.mp he)⟩
  refine .after_ok (treeOf_eq hlookup) (ends_after_except hins fun t' hins => ?_)
  exact (wrote_setTree hlookup t').mono id fun _ w' hw => ⟨t', h.insert hin hins, hw⟩

theorem indexTree_ends (hlookup : w.roots.lookup spec.rootKey = some t)
    (h : TreeOk env strict rest spec t) (hfail : fail ∨ Admits env rest spec doc) :
    Ends (indexTree env doc loc spec) w fail fun _ w' =>
      ∃ t', TreeOk env strict ((loc, doc) :: rest) spec t' ∧ Wrote spec.rootKey t' w w' := by
  refine ends_after_except (hfail.imp_right Admits.decided) fun pass hpass => ?_
  cases pass with
  | false =>
    have hnone : keyIn env spec doc = none := by simp [keyIn, hpass]
    exact .of_ok rfl ⟨t, (treeOk_cons_of_none hnone).mpr h, .refl hlookup⟩
  | true =>
    rw [if_pos rfl]
    cases hkey : indexKeyOfSpec env doc spec with
    | none =>
      exact .of_ok rfl ⟨t, (treeOk_cons_of_none (keyIn_of_none hkey)).mpr h, .refl hlookup⟩
    | some key =>
      have hin : keyIn env spec doc = some key := by simp [keyIn, hpass, hkey]
      exact addEntry_ends hlookup h hin hfail

theorem repointTree_ends {new : ℕ} (hlookup : w.roots.lookup spec.rootKey = some t)
    (h : TreeOk env strict ((loc, doc) :: rest) spec t) (hloc : loc ∉ rest.map Prod.fst)
    (hfail : fail ∨ strict ∧ Roomy env) :
    Ends (repointTree env doc loc new spec) w fail fun _ w' =>
      ∃ t', TreeOk env strict ((new, doc) :: rest) spec t' ∧ Wrote spec.rootKey t' w w' := by
  unfold repointTree
  cases hkey : indexKeyOfSpec env doc spec with
  | none =>
    have hnone := keyIn_of_none hkey
    exact .of_ok rfl ⟨t, (treeOk_cons_of_none hnone).mpr ((treeOk_cons_of_none hnone).mp h),
      .refl hlookup⟩
  | some key =>
    obtain ⟨hrest, hremoved⟩ := h.delete hloc hkey
    refine .after_ok (treeOf_eq hlookup) ?_
    dsimp only
    split
    · rename_i htrue
      have hin := hremoved.mp htrue
      have hins : fail ∨ ∃ t', treeInsert env spec.rootKey key new spec.unique
          (treeDeleteEntry key loc t).2 = .ok t' :=
        hfail.imp_right fun hok => ⟨_, treeInsert_runs hok.2 fun hu e he =>
          h.fresh_of_differ (h.differ hok.1 hu) hin e (hrest.perm.mem_iff.mp he)⟩
      refine ends_after_except hins fun t' hins => ?_
      exact (wrote_setTree hlookup t').mono id fun _ w' hw => ⟨t', hrest.insert hin hins, hw⟩
    · rename_i hfalse
      have hnone : keyIn env spec doc = none := by
        cases hin : keyIn env spec doc with
        | none => rfl
        | some key' =>
          have hk := keyIn_le hin
          rw [hkey] at hk
          exact absurd (hremoved.mpr (hin.trans hk.symm)) hfalse
      exact (wrote_setTree hlookup _).mono id fun _ w' hw =>
        ⟨_, (treeOk_cons_of_none hnone).mpr hrest, hw⟩

end Steps

/-! ## All trees of a table -/

/-- Every tree holds the entries of these rows. -/
def Keeps (env : Env Doc) (strict : Prop) (specs : List (IdxSpec Doc)) (rows : List (ℕ × Doc))
    (w : Work H) : Prop :=
  ∀ spec ∈ specs, ∃ t, w.roots.lookup spec.rootKey = some t ∧ TreeOk env strict rows spec t

/-- Only trees under these keys changed. -/
structure Touched (ks : List String) (w w' : Work H) : Prop where
  heap : w'.heap = w.heap
  keys : w'.roots.map Prod.fst = w.roots.map Prod.fst
  other : ∀ k ∉ ks, w'.roots.lookup k = w.roots.lookup k

section Loops

variable {w : Work H} {specs : List (IdxSpec Doc)} {ks ks' : List String}

theorem Touched.refl : Touched ks w w := ⟨rfl, rfl, fun _ _ => rfl⟩

theorem Touched.trans {w' w'' : Work H} (h : Touched ks w w') (h' : Touched ks w' w'') :
    Touched ks w w'' :=
  ⟨h'.heap.trans h.heap, h'.keys.trans h.keys, fun k hk => (h'.other k hk).trans (h.other k hk)⟩

theorem Touched.mono {w' : Work H} (h : Touched ks w w') (hsub : ks ⊆ ks') : Touched ks' w w' :=
  ⟨h.heap, h.keys, fun k hk => h.other k fun hmem => hk (hsub hmem)⟩

theorem Wrote.touched {k : String} {w' : Work H} (h : Wrote k t w w') : Touched [k] w w' :=
  ⟨h.heap, h.keys, fun k' hk' => h.other k' fun heq => hk' (by simp [heq])⟩

theorem Keeps.congr (h : Keeps env strict specs rows w) (hrows : rows.Perm rest) :
    Keeps env strict specs rest w := by
  intro spec hspec
  obtain ⟨t, hlookup, ht⟩ := h spec hspec
  exact ⟨t, hlookup, ht.congr hrows⟩

theorem Keeps.of_untouched {w' : Work H} (h : Keeps env strict specs rows w)
    (htouched : Touched ks w w') (hks : ∀ spec ∈ specs, spec.rootKey ∉ ks) :
    Keeps env strict specs rows w' := by
  intro spec hspec
  obtain ⟨t, hlookup, ht⟩ := h spec hspec
  exact ⟨t, (htouched.other _ (hks spec hspec)).trans hlookup, ht⟩

/-- A loop over the trees, from what it does to each of them. -/
theorem forEach_ends {f : IdxSpec Doc → WorkM H Unit} {after : List (ℕ × Doc)}
    (hstep : ∀ spec ∈ specs, ∀ (w : Work H) t, w.roots.lookup spec.rootKey = some t →
      TreeOk env strict rows spec t → Ends (f spec) w fail fun _ w' =>
        ∃ t', TreeOk env strict after spec t' ∧ Wrote spec.rootKey t' w w')
    (hnodup : (specs.map IdxSpec.rootKey).Nodup) (h : Keeps env strict specs rows w) :
    Ends (forEach f specs) w fail fun _ w' =>
      Keeps env strict specs after w' ∧ Touched (specs.map IdxSpec.rootKey) w w' := by
  induction specs generalizing w with
  | nil => exact .of_ok rfl ⟨fun _ hmem => (List.not_mem_nil hmem).elim, .refl⟩
  | cons spec specs ih =>
    obtain ⟨hnew, hnodup⟩ := List.nodup_cons.mp hnodup
    obtain ⟨t, hlookup, ht⟩ := h spec List.mem_cons_self
    refine (hstep spec List.mem_cons_self w t hlookup ht).bind ?_
    rintro _ w₁ ⟨t₁, ht₁, hwrote⟩
    have hrest : Keeps env strict specs rows w₁ := by
      refine Keeps.of_untouched (fun s hs => h s (List.mem_cons_of_mem _ hs)) hwrote.touched ?_
      intro s hs hmem
      exact hnew (List.mem_singleton.mp hmem ▸ List.mem_map_of_mem hs)
    refine (ih (fun s hs => hstep s (List.mem_cons_of_mem _ hs)) hnodup hrest).mono id ?_
    rintro _ w₂ ⟨hkeeps, htouched⟩
    refine ⟨?_, (hwrote.touched.mono (by simp)).trans (htouched.mono (by simp))⟩
    intro s hs
    rcases List.mem_cons.mp hs with rfl | hs
    · exact ⟨t₁, (htouched.other _ hnew).trans hwrote.tree, ht₁⟩
    · exact hkeeps s hs

theorem reindexRemove_ends (hnodup : (specs.map IdxSpec.rootKey).Nodup)
    (h : Keeps env strict specs ((loc, doc) :: rest) w) (hloc : loc ∉ rest.map Prod.fst) :
    Ends (reindexRemove env specs doc loc) w fail fun _ w' =>
      Keeps env strict specs rest w' ∧ Touched (specs.map IdxSpec.rootKey) w w' :=
  forEach_ends (fun _ _ _ _ hlookup ht => unindexTree_ends hlookup ht hloc) hnodup h

theorem reindexInsert_ends (hnodup : (specs.map IdxSpec.rootKey).Nodup)
    (h : Keeps env strict specs rest w)
    (hfail : fail ∨ ∀ spec ∈ specs, Admits env rest spec doc) :
    Ends (reindexInsert env specs doc loc) w fail fun _ w' =>
      Keeps env strict specs ((loc, doc) :: rest) w' ∧
        Touched (specs.map IdxSpec.rootKey) w w' :=
  forEach_ends (fun _ hspec _ _ hlookup ht => indexTree_ends hlookup ht
    (hfail.imp_right fun hadmits => hadmits _ hspec)) hnodup h

/-- Rows after the moves. -/
def shift (moves : List (ℕ × ℕ)) (rows : List (ℕ × Doc)) : List (ℕ × Doc) :=
  rows.map fun e => (applyMoves moves e.1, e.2)

theorem applyMoves_of_notMem {moves : List (ℕ × ℕ)} (h : loc ∉ moves.map Prod.fst) :
    applyMoves moves loc = loc := by
  have hnone : moves.lookup loc = none := by
    rw [List.lookup_eq_none_iff]
    intro p hp
    have hne : loc ≠ p.1 := fun heq => h (heq ▸ List.mem_map_of_mem hp)
    simpa using hne
  rw [applyMoves, hnone]
  rfl

theorem applyMoves_cons {o n : ℕ} {moves : List (ℕ × ℕ)} :
    applyMoves ((o, n) :: moves) loc = if loc = o then n else applyMoves moves loc := by
  unfold applyMoves
  rw [List.lookup_cons]
  by_cases h : loc = o
  · simp [h]
  · have hbeq : (loc == o) = false := by simpa using h
    rw [hbeq, if_neg h]

theorem shift_of_notMem {moves : List (ℕ × ℕ)} (h : ∀ e ∈ rows, e.1 ∉ moves.map Prod.fst) :
    shift moves rows = rows := by
  unfold shift
  conv_rhs => rw [← List.map_id rows]
  refine List.map_congr_left fun e he => ?_
  rw [applyMoves_of_notMem (h e he)]
  rfl

theorem reindexRepoint_ends {before : List (ℕ × Doc)} {new : ℕ}
    (hnodup : (specs.map IdxSpec.rootKey).Nodup) (hrows : (rows.map Prod.fst).Nodup)
    (hbefore : ∀ d, before.lookup loc = some d → (loc, d) ∈ rows)
    (h : Keeps env strict specs rows w)
    (hfail : fail ∨ (strict ∧ Roomy env) ∧ (before.lookup loc).isSome = true) :
    Ends (reindexRepoint env specs before loc new) w fail fun _ w' =>
      (loc ∈ rows.map Prod.fst ∧ Keeps env strict specs (shift [(loc, new)] rows) w') ∧
        Touched (specs.map IdxSpec.rootKey) w w' := by
  unfold reindexRepoint
  cases hlookup : before.lookup loc with
  | none =>
    refine .of_error rfl (hfail.resolve_right ?_)
    rw [hlookup]
    rintro ⟨-, hsome⟩
    cases hsome
  | some d =>
    have hmem := hbefore d hlookup
    obtain ⟨front, back, rfl⟩ := List.append_of_mem hmem
    have hperm : (front ++ (loc, d) :: back).Perm ((loc, d) :: (front ++ back)) :=
      List.perm_middle
    have hloc : loc ∉ (front ++ back).map Prod.fst := by
      have := (hperm.map Prod.fst).nodup_iff.mp hrows
      exact (List.nodup_cons.mp this).1
    have hshift : (shift [(loc, new)] (front ++ (loc, d) :: back)).Perm
        ((new, d) :: (front ++ back)) := by
      refine (hperm.map _).trans ?_
      have hsame : shift [(loc, new)] (front ++ back) = front ++ back := by
        refine shift_of_notMem fun e he hin => hloc ?_
        have heq : e.1 = loc := List.mem_singleton.mp hin
        exact heq ▸ List.mem_map_of_mem he
      rw [List.map_cons, ← shift, hsame, applyMoves_cons, if_pos rfl]
    refine (forEach_ends (fun _ _ _ _ hl ht => repointTree_ends hl ht hloc
      (hfail.imp_right And.left)) hnodup (h.congr hperm)).mono id ?_
    rintro _ w' ⟨hkeeps, htouched⟩
    exact ⟨⟨List.mem_map_of_mem hmem, hkeeps.congr hshift.symm⟩, htouched⟩

theorem shift_shift {o n : ℕ} {moves : List (ℕ × ℕ)} (hn : n ∉ moves.map Prod.fst) :
    shift moves (shift [(o, n)] rows) = shift ((o, n) :: moves) rows := by
  unfold shift
  rw [List.map_map]
  refine List.map_congr_left fun e _ => ?_
  simp only [Function.comp_apply, Prod.mk.injEq, and_true]
  rw [applyMoves_cons, applyMoves_cons]
  split
  · exact applyMoves_of_notMem hn
  · rfl

/-- The moves of a heap call, followed one by one. -/
theorem repoints_ends {before : List (ℕ × Doc)} {moves : List (ℕ × ℕ)} {gone : List ℕ}
    (hnodup : (specs.map IdxSpec.rootKey).Nodup) (hmoves : Orderly gone moves)
    (hrows : (rows.map Prod.fst).Nodup) (hend : ((shift moves rows).map Prod.fst).Nodup)
    (hbefore : ∀ m ∈ moves, ∀ d, before.lookup m.1 = some d → (m.1, d) ∈ rows)
    (h : Keeps env strict specs rows w)
    (hfail : fail ∨ (strict ∧ Roomy env) ∧ ∀ m ∈ moves, (before.lookup m.1).isSome = true) :
    Ends (forEach (fun m => reindexRepoint env specs before m.1 m.2) moves) w fail fun _ w' =>
      Keeps env strict specs (shift moves rows) w' ∧
        Touched (specs.map IdxSpec.rootKey) w w' := by
  induction moves generalizing rows w with
  | nil =>
    refine .of_ok rfl ⟨?_, .refl⟩
    rwa [shift_of_notMem fun _ _ => List.not_mem_nil]
  | cons m moves ih =>
    obtain ⟨o, n⟩ := m
    obtain ⟨hstart, hstarts⟩ := List.nodup_cons.mp hmoves.starts
    obtain ⟨hapart, hrest⟩ := List.pairwise_cons.mp hmoves.apart
    have hn : n ∉ moves.map Prod.fst := by
      intro hmem
      obtain ⟨m', hm', heq⟩ := List.mem_map.mp hmem
      exact hapart m' hm' heq.symm
    have hmore : Orderly gone moves :=
      ⟨hstarts, hrest, fun m' hm' => hmoves.kept m' (List.mem_cons_of_mem _ hm')⟩
    refine (reindexRepoint_ends hnodup hrows (hbefore _ List.mem_cons_self) h
      (hfail.imp_right fun hok => ⟨hok.1, hok.2 _ List.mem_cons_self⟩)).bind ?_
    rintro _ w₁ ⟨⟨hmem, h₁⟩, htouched₁⟩
    have hshift : shift moves (shift [(o, n)] rows) = shift ((o, n) :: moves) rows :=
      shift_shift hn
    have hrows₁ : ((shift [(o, n)] rows).map Prod.fst).Nodup := by
      rw [← hshift] at hend
      have hmap : (shift moves (shift [(o, n)] rows)).map Prod.fst =
          ((shift [(o, n)] rows).map Prod.fst).map (applyMoves moves) := by
        simp [shift]
      rw [hmap] at hend
      exact hend.of_map
    have hbefore₁ : ∀ m' ∈ moves, ∀ d, before.lookup m'.1 = some d →
        (m'.1, d) ∈ shift [(o, n)] rows := by
      intro m' hm' d hd
      have hne : m'.1 ≠ o := by
        intro heq
        exact hstart (List.mem_map.mpr ⟨m', hm', heq⟩)
      refine List.mem_map.mpr ⟨(m'.1, d), hbefore m' (List.mem_cons_of_mem _ hm') d hd, ?_⟩
      rw [applyMoves_cons, if_neg hne]
      rfl
    rw [← hshift] at hend ⊢
    refine (ih hmore hrows₁ hend hbefore₁ h₁ (hfail.imp_right fun hok =>
      ⟨hok.1, fun m' hm' => hok.2 m' (List.mem_cons_of_mem _ hm')⟩)).mono id ?_
    rintro _ w₂ ⟨h₂, htouched₂⟩
    exact ⟨h₂, htouched₁.trans htouched₂⟩

end Loops

end Docsql.Index
