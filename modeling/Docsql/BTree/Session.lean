import Docsql.BTree.LeafMatch
import Mathlib.Data.Multiset.AddSub

/-!
# Runs of operations on one tree

A session is the page store together with the root the tree handle carries.
-/

namespace Docsql.BTree

open BPlusTree StateExcept

structure Session where
  store : Store
  root : ℕ

inductive Op where
  | insert (key : Value) (loc : UInt64) (unique : Bool)
  | deleteEntry (key : Value) (loc : UInt64)
  | delete (key : Value)

inductive Outcome where
  | inserted (r : Except BTreeError Unit)
  | deleted (r : Except BTreeError Bool)

def exec (codec : DecimalCodec) (σ : Session) : Op → Outcome × Session
  | .insert key loc unique =>
    match insert codec σ.root key loc unique σ.store with
    | (.ok root, s) => (.inserted (.ok ()), ⟨s, root⟩)
    | (.error e, s) => (.inserted (.error e), ⟨s, σ.root⟩)
  | .deleteEntry key loc =>
    let (r, s) := deleteEntry codec σ.root key loc σ.store
    (.deleted r, ⟨s, σ.root⟩)
  | .delete key =>
    let (r, s) := delete codec σ.root key σ.store
    (.deleted r, ⟨s, σ.root⟩)

/-- What `scan` returns. -/
def Session.scan (codec : DecimalCodec) (σ : Session) : Except BTreeError (List (Value × UInt64)) :=
  (BTree.scan codec σ.root σ.store).1

/-- What `get` returns. -/
def Session.get (codec : DecimalCodec) (σ : Session) (key : Value) :
    Except BTreeError (Option UInt64) :=
  (BTree.get codec σ.root key σ.store).1

/-- Inserted keys pass the size cap. -/
def Op.KeyOk (codec : DecimalCodec) : Op → Prop
  | .insert key _ _ => BTree.KeyOk codec key
  | _ => True

variable {codec : DecimalCodec} {h : ℕ} {key : Value} {s : Store} {root : ℕ} {t : PageTree h}

/-! ## An empty tree -/

theorem nodeImage_empty (codec : DecimalCodec) :
    nodeImage codec (.leaf []) = .ok (leafKind :: List.replicate (pageSize - 1) 0) := by
  have hsize : pageSize - 1 = 2 + (pageSize - 3) := rfl
  have himage : nodeImage codec (.leaf []) = .ok (padded [leafKind, 0, 0]) := rfl
  rw [hsize, List.replicate_add, himage, padded]
  rfl

theorem create_sim (codec : DecimalCodec) (hs : s.Ok) (havail : 0 < s.available) :
    ∃ root s', create s = (.ok root, s') ∧
      Holds codec s' root (h := 0) (⟨root, []⟩ : Leaf ℕ Value UInt64) ∧
      s'.available + 1 = s.available := by
  obtain ⟨s₁, halloc, hafter⟩ := allocatePage_ok hs havail
  have hinFile := hafter.fresh_inFile hs Nat.zero_lt_one
  have hall := hafter.trans (Store.after_write s₁ (s.fresh 0) (leafKind :: List.replicate (pageSize - 1) 0))
  rw [create, bind_ok halloc, bind_ok (writePage_ok hinFile)]
  refine ⟨s.fresh 0, _, rfl, ⟨hall.ok hs havail, ?_, ?_, ?_, rfl⟩, hall.available hs havail⟩
  · refine Store.Owns.after hs (⟨List.nodup_nil, by simp, by simp⟩ : s.Owns []) hall ?_
    exact List.Perm.refl _
  · simpa [Represents] using nodeImage_empty codec
  · exact ⟨by simp [layout, nodeSplit, nodeSize, pageSize], by simp⟩

/-! ## The tree is determined by the pages -/

theorem Represents.unique {h' : ℕ} {t' : PageTree h'} (hs : s.Ok)
    (hown : s.Owns t.pages) (hrep : Represents codec s.image t) (hfits : t.Fits (layout codec))
    (hown' : s.Owns t'.pages) (hrep' : Represents codec s.image t')
    (hfits' : t'.Fits (layout codec)) (hroot : t.root = t'.root) :
    (⟨h, t⟩ : Σ h, PageTree h) = ⟨h', t'⟩ := by
  induction h generalizing h' with
  | zero =>
      obtain ⟨id, cells⟩ := t
      have hread := readNode_leaf hown hrep hfits
      cases h' with
      | zero =>
          obtain ⟨id', cells'⟩ := t'
          obtain rfl : id = id' := hroot
          have hread' := readNode_leaf hown' hrep' hfits'
          rw [hread] at hread'
          simp only [Prod.mk.injEq, Except.ok.injEq, Node.leaf.injEq, and_true] at hread'
          rw [hread']
      | succ h' =>
          obtain ⟨id', first, rest⟩ := t'
          obtain rfl : id = id' := hroot
          rw [readNode_internal hs hown' hrep' hfits'] at hread
          simp at hread
  | succ h ih =>
      obtain ⟨id, first, rest⟩ := t
      have hread := readNode_internal hs hown hrep hfits
      cases h' with
      | zero =>
          obtain ⟨id', cells'⟩ := t'
          obtain rfl : id = id' := hroot
          rw [readNode_leaf hown' hrep' hfits'] at hread
          simp at hread
      | succ h' =>
          obtain ⟨id', first', rest'⟩ := t'
          obtain rfl : id = id' := hroot
          rw [readNode_internal hs hown' hrep' hfits'] at hread
          simp only [Prod.mk.injEq, Except.ok.injEq, Node.internal.injEq, and_true] at hread
          obtain ⟨hfirst, hcells⟩ := hread
          have hlen : rest'.length = rest.length := by
            simpa [childCells] using congrArg List.length hcells
          have hchild : ∀ i ≤ rest.length, (child i first rest).root = (child i first' rest').root →
              (⟨h, child i first rest⟩ : Σ h, PageTree h) = ⟨h', child i first' rest'⟩ := by
            intro i hi heq
            exact ih (child_owns hown hi) (child_represents i hrep) (child_fits i hfits)
              (child_owns hown' (hlen ▸ hi)) (child_represents i hrep') (child_fits i hfits') heq
          obtain ⟨rfl, hfirst'⟩ := Sigma.mk.inj_iff.mp (hchild 0 (Nat.zero_le _) hfirst.symm)
          have hrest : rest = rest' := by
            refine List.ext_getElem hlen.symm ?_
            intro i hi hi'
            have hget : rest[i]? = some rest[i] := List.getElem?_eq_getElem hi
            have hget' : rest'[i]? = some rest'[i] := List.getElem?_eq_getElem hi'
            have hcell : (rest'[i].1, rest'[i].2.root) = (rest[i].1, rest[i].2.root) := by
              have := congrArg (fun cs => cs[i]?) hcells
              simpa [childCells, hi, hi'] using this
            obtain ⟨hkey, hroot⟩ := Prod.mk.injEq _ _ _ _ ▸ hcell
            refine Prod.ext hkey.symm ?_
            have hsub := hchild (i + 1) hi (by
              rw [child_succ first hget, child_succ first' hget']
              exact hroot.symm)
            rw [child_succ first hget, child_succ first' hget'] at hsub
            exact eq_of_heq (Sigma.mk.inj_iff.mp hsub).2
          have hfirstEq : first = first' := eq_of_heq hfirst'
          rw [hrest, hfirstEq]

theorem Holds.unique {h' : ℕ} {t' : PageTree h'} (ht : Holds codec s root t)
    (ht' : Holds codec s root t') : (⟨h, t⟩ : Σ h, PageTree h) = ⟨h', t'⟩ :=
  ht.represents.unique ht.store ht.owns ht.fits ht'.owns ht'.represents ht'.fits
    (ht.root_eq.trans ht'.root_eq.symm)

/-! ## What a session stores -/

abbrev Live := Multiset (Value × UInt64)

/-- The pages hold a bracketed tree of the given pairs. -/
def Stored (codec : DecimalCodec) (strict : Bool) (σ : Session) (live : Live) : Prop :=
  ∃ (h : ℕ) (t : PageTree h), Holds codec σ.store σ.root t ∧ h ≤ maxTreeDepth ∧
    t.Inv cmpValues strict none none ∧ (t.toList : Live) = live

/-- Inserting `key` takes no more pages than there are and leaves the tree
within the depth limit. -/
def HasRoom (codec : DecimalCodec) (s : Store) (t : PageTree h) (key : Value) : Prop :=
  t.growth cmpValues (layout codec) key ≤ s.available ∧
    (h < maxTreeDepth ∨ t.promoted cmpValues (layout codec) key = none)

variable {σ : Session} {strict : Bool} {live : Live}

theorem Stored.scan (hst : Stored codec strict σ live) :
    ∃ cells, σ.scan codec = .ok cells ∧
      (cells.Pairwise fun a b => Rel cmpValues strict a.1 b.1) ∧ (cells : Live) = live := by
  obtain ⟨h, t, ht, hdepth, htree, rfl⟩ := hst
  exact ⟨t.toList, congrArg Prod.fst (scan_sim ht hdepth), htree.sorted, rfl⟩

/-- `get` returns the locator of a live pair with an equal key, if there is one. -/
theorem Stored.get (hst : Stored codec strict σ live) (key : Value) :
    ∃ found, σ.get codec key = .ok found ∧
      (∀ v, found = some v → ∃ k, (k, v) ∈ live ∧ cmpValues k key = .eq) ∧
      (found = none → ∀ p ∈ live, cmpValues p.1 key ≠ .eq) := by
  obtain ⟨h, t, ht, hdepth, htree, rfl⟩ := hst
  refine ⟨t.get cmpValues key, congrArg Prod.fst (get_sim ht hdepth htree), ?_, ?_⟩
  · intro v hv
    exact LevelTree.get_mem hv
  · intro hnone p hp heq
    have := LevelTree.get_isSome htree hp heq
    rw [hnone] at this
    cases this

/-- An insertion is refused with nothing written, or adds its pair. -/
theorem Stored.insert {unique : Bool} (loc : UInt64) (hst : Stored codec unique σ live)
    (hkey : KeyOk codec key)
    (hsafe : (∀ p ∈ live, unique = true → cmpValues p.1 key ≠ .eq) →
      ∃ (h : ℕ) (t : PageTree h), Holds codec σ.store σ.root t ∧ HasRoom codec σ.store t key ∧
        (unique = false → t.SplitsInPlace cmpValues (layout codec) key)) :
    (exec codec σ (.insert key loc unique) = (.inserted (.error .duplicate), σ) ∧
        unique = true ∧ ∃ p ∈ live, cmpValues p.1 key = .eq) ∨
      ((exec codec σ (.insert key loc unique)).1 = .inserted (.ok ()) ∧
        (unique = true → ∀ p ∈ live, cmpValues p.1 key ≠ .eq) ∧
        Stored codec unique (exec codec σ (.insert key loc unique)).2 ((key, loc) ::ₘ live)) := by
  obtain ⟨h, t, ht, hdepth, htree, rfl⟩ := hst
  cases hins : t.insert cmpValues (layout codec) σ.store.fresh unique key loc with
  | none =>
      left
      obtain ⟨hu, hdup⟩ := LevelTree.insertRec_none (LevelTree.insert_eq_none.mp hins)
      refine ⟨?_, hu, hdup⟩
      simp [exec, insert_duplicate ht hdepth hins]
  | some p =>
      right
      obtain ⟨h', t'⟩ := p
      have habsent : unique = true → ∀ p ∈ (t.toList : Live), cmpValues p.1 key ≠ .eq := by
        rintro rfl p hp heq
        rw [(LevelTree.insert_eq_none_iff hkey ht.fits htree).mpr ⟨p, hp, heq⟩] at hins
        cases hins
      obtain ⟨h₁, t₁, ht₁, ⟨hpages, hlimit⟩, hplace⟩ := hsafe fun p hp hu => habsent hu p hp
      obtain ⟨rfl, hteq⟩ := Sigma.mk.inj_iff.mp (ht.unique ht₁)
      obtain rfl : t = t₁ := eq_of_heq hteq
      obtain ⟨root', s', hrun, ht', -⟩ := insert_sim ht hdepth hkey hpages hins
      obtain ⟨-, htree', hperm⟩ := LevelTree.insert_spec hkey ht.fits htree hplace hins
      refine ⟨by simp [exec, hrun], habsent, h', t', ?_, ?_, htree', Multiset.coe_eq_coe.mpr hperm⟩
      · simpa [exec, hrun] using ht'
      · obtain rfl | ⟨rfl, hcut⟩ := LevelTree.insert_height hins
        · exact hdepth
        · exact hlimit.resolve_right hcut

/-- A deletion removes one matching pair, or there is none. -/
theorem Stored.delete {M : Value × UInt64 → Prop}
    {leafMatch : List (Value × UInt64) → Option (List (Value × UInt64))}
    (hmatch : LevelTree.LeafMatch cmpValues strict key M leafMatch) (hst : Stored codec strict σ live) :
    ∃ removed live', (deleteRec codec key leafMatch (maxTreeDepth + 1) σ.root σ.store).1 =
        .ok removed ∧
      Stored codec strict
        ⟨(deleteRec codec key leafMatch (maxTreeDepth + 1) σ.root σ.store).2, σ.root⟩ live' ∧
      ((removed = false ∧ (∀ p ∈ live, ¬M p) ∧ live' = live) ∨
        (removed = true ∧ ∃ p, M p ∧ live = p ::ₘ live')) := by
  obtain ⟨h, t, ht, hdepth, htree, rfl⟩ := hst
  have hroom := Nat.lt_succ_of_le hdepth
  rw [← ht.root_eq]
  cases hdel : t.deleteRec cmpValues key leafMatch with
  | none =>
      have hrun := deleteRec_none_sim hroom ht.store ht.owns ht.represents ht.fits hdel
      refine ⟨false, t.toList, congrArg Prod.fst hrun, ⟨h, t, ?_, hdepth, htree, rfl⟩, Or.inl
        ⟨rfl, LevelTree.deleteRec_none hmatch htree hdel, rfl⟩⟩
      rw [hrun, ht.root_eq]
      exact ht
  | some t' =>
      obtain ⟨s', hrun, hafter, hrep⟩ :=
        deleteRec_some_sim hmatch hroom ht.store ht.owns ht.represents ht.fits hdel
      obtain ⟨hpages, hroot⟩ := LevelTree.deleteRec_pages hdel
      obtain ⟨p, hp, hperm⟩ := LevelTree.deleteRec_perm hmatch hdel
      refine ⟨true, t'.toList, congrArg Prod.fst hrun, ⟨h, t', ?_, hdepth,
        LevelTree.deleteRec_inv hmatch htree hdel, rfl⟩, Or.inr ⟨rfl, p, hp,
          Multiset.coe_eq_coe.mpr hperm⟩⟩
      rw [hrun]
      refine ⟨hafter.ok ht.store (Nat.zero_le _), ht.owns.after ht.store hafter ?_, hrep,
        LevelTree.deleteRec_fits hmatch ht.fits hdel, hroot⟩
      simp [hpages]

/-! ## Keys that fill a page -/

/-- A key of `n` equal bytes. -/
def runKey (n : ℕ) (b : UInt8) : Value := .bytes (List.replicate n b)

theorem runKey_ok (codec : DecimalCodec) {n : ℕ} (b : UInt8) (hn : n ≤ 2031) :
    KeyOk codec (runKey n b) ∧ keyLen codec (runKey n b) = 5 + n := by
  have hlt : n < 2 ^ 32 := by omega
  have henc : encode codec (runKey n b) =
      .ok (5 :: (Bytes.toLE 4 n ++ List.replicate n b)) := by
    rw [encode, runKey, encodeAt, guardDepth, if_neg (by decide), List.length_replicate, putU32,
      if_pos hlt]
    rfl
  refine ⟨⟨trivial, _, henc, ?_⟩, ?_⟩
  · have : leafCellCap = 2046 := rfl
    simp only [List.length_cons, List.length_append, Bytes.length_toLE, List.length_replicate]
    omega
  · rw [keyLen_of_ok henc]
    simp only [List.length_cons, List.length_append, Bytes.length_toLE, List.length_replicate]
    omega

/-- Two of these keys fill a leaf. -/
def bigKey (b : UInt8) : Value := runKey 2031 b

theorem bigKey_ok (codec : DecimalCodec) (b : UInt8) : KeyOk codec (bigKey b) :=
  (runKey_ok codec b le_rfl).1

theorem cmp_bigKey_self (b : UInt8) : cmpValues (bigKey b) (bigKey b) = .eq :=
  Std.ReflCmp.compare_self

theorem cmp_bigKey {a b : UInt8} (h : compare a b ≠ .eq) :
    cmpValues (bigKey a) (bigKey b) = compare a b := by
  have hcmp : ∀ n, cmpValues (runKey (n + 1) a) (runKey (n + 1) b) = compare a b := by
    intro n
    show cmpBytes (List.replicate (n + 1) a) (List.replicate (n + 1) b) = compare a b
    rw [List.replicate_succ, List.replicate_succ, cmpBytes, List.compareLex_cons_cons]
    cases hab : compare a b <;> simp_all
  exact hcmp 2030

theorem cellSize_bigKey (codec : DecimalCodec) (payload : ℕ) (b : UInt8) :
    cellSize codec payload (bigKey b) = 2038 + payload := by
  rw [cellSize, bigKey, (runKey_ok codec b le_rfl).2]

theorem nodeSize_bigKeys (codec : DecimalCodec) (header payload : ℕ) (bs : List UInt8) :
    nodeSize codec header payload (bs.map bigKey) = header + (2038 + payload) * bs.length := by
  rw [nodeSize_eq]
  induction bs with
  | nil => rfl
  | cons b bs ih =>
      rw [List.map_cons, List.map_cons, List.sum_cons, cellSize_bigKey, List.length_cons,
        Nat.mul_succ]
      omega

theorem leaf_fits_bigKeys (codec : DecimalCodec) (bs : List UInt8) :
    (layout codec).leaf.fits (bs.map bigKey) = decide (bs.length ≤ 2) := by
  have hpage : pageSize = 4096 := rfl
  show decide (nodeSize codec 3 8 (bs.map bigKey) ≤ pageSize) = _
  rw [nodeSize_bigKeys, decide_eq_decide]
  omega

theorem branch_fits_bigKeys (codec : DecimalCodec) (bs : List UInt8) :
    (layout codec).branch.fits (bs.map bigKey) = decide (bs.length ≤ 2) := by
  have hpage : pageSize = 4096 := rfl
  show decide (nodeSize codec 7 4 (bs.map bigKey) ≤ pageSize) = _
  rw [nodeSize_bigKeys, decide_eq_decide]
  omega

/-- A store with the header page only. -/
def emptyStore : Store where
  image := fun _ => []
  reusable := []
  numPages := 1

theorem emptyStore_ok : emptyStore.Ok :=
  ⟨by decide, by decide, List.nodup_nil, by simp [emptyStore]⟩

theorem emptyStore_available : emptyStore.available = 2 ^ 32 - 2 := rfl

end Docsql.BTree
