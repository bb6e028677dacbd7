import Docsql.BTree.Session

/-!
# The index as a sorted multimap

The pairs in the tree are compared with the multiset of pairs inserted and not
yet removed.  A run keeps the two together as long as no insertion passes up a
separator equal to the one that follows the node it comes from: such a
separator is put behind its equal and the keys right of it come too late in a
scan.
-/

namespace Docsql.BTree

open BPlusTree StateExcept

/-- `scan` lists the live pairs in key order and `get` finds every live key. -/
structure Reads (codec : DecimalCodec) (σ : Session) (live : Live) : Prop where
  scan : ∃ cells, σ.scan codec = .ok cells ∧
    (cells.Pairwise fun a b => cmpValues a.1 b.1 ≠ .gt) ∧ (cells : Live) = live
  get : ∀ key, ∃ found, σ.get codec key = .ok found ∧
    (found.isSome ↔ ∃ p ∈ live, cmpValues p.1 key = .eq)

/-- A deletion reports whether a pair of the kind was live, and removes one. -/
def Removes (live : Live) (M : Value × UInt64 → Prop) (removed : Bool) (live' : Live) : Prop :=
  (removed = true ↔ ∃ p ∈ live, M p) ∧
    if removed then ∃ p, M p ∧ live = p ::ₘ live' else live' = live

/-- What a step of a multimap may do. -/
def Multimap (live : Live) : Op → Outcome → Live → Prop
  | .insert key loc _, .inserted (.ok ()), live' => live' = (key, loc) ::ₘ live
  | .deleteEntry key loc, .deleted (.ok removed), live' =>
    Removes live (fun p => cmpValues p.1 key = .eq ∧ p.2 = loc) removed live'
  | .delete key, .deleted (.ok removed), live' =>
    Removes live (fun p => cmpValues p.1 key = .eq) removed live'
  | _, _, _ => False

/-- Every step of the run is one of a multimap, and every state in it reads as
the pairs that are live there. -/
def Behaves (codec : DecimalCodec) : Session → Live → List Op → Prop
  | σ, live, [] => Reads codec σ live
  | σ, live, op :: ops =>
    Reads codec σ live ∧ ∃ live', Multimap live op (exec codec σ op).1 live' ∧
      Behaves codec (exec codec σ op).2 live' ops

/-- Inserting `key` has the room it needs and puts every new separator right
behind the node it comes from. -/
def InPlace (codec : DecimalCodec) (σ : Session) (key : Value) : Prop :=
  ∃ (h : ℕ) (t : PageTree h), Holds codec σ.store σ.root t ∧ HasRoom codec σ.store t key ∧
    t.SplitsInPlace cmpValues (layout codec) key

/-- A non-unique insertion that splits in place, or a deletion. -/
def SafeStep (codec : DecimalCodec) (σ : Session) : Op → Prop
  | .insert key _ unique => unique = false ∧ InPlace codec σ key
  | _ => True

def SafeRun (codec : DecimalCodec) : Session → List Op → Prop
  | _, [] => True
  | σ, op :: ops => SafeStep codec σ op ∧ SafeRun codec (exec codec σ op).2 ops

variable {codec : DecimalCodec} {σ : Session} {live : Live}

theorem Stored.reads (hst : Stored codec false σ live) : Reads codec σ live := by
  constructor
  · obtain ⟨cells, hscan, hsorted, hlive⟩ := hst.scan
    exact ⟨cells, hscan, hsorted.imp fun hab => hab.ne_gt, hlive⟩
  · intro key
    obtain ⟨found, hget, hsome, hnone⟩ := hst.get key
    refine ⟨found, hget, ?_⟩
    cases found with
    | none => simpa using fun a b hp => hnone rfl (a, b) hp
    | some v =>
        obtain ⟨k, hmem, heq⟩ := hsome v rfl
        simpa using ⟨k, ⟨v, hmem⟩, heq⟩

theorem Stored.removes {M : Value × UInt64 → Prop} {key : Value}
    {leafMatch : List (Value × UInt64) → Option (List (Value × UInt64))}
    (hmatch : LevelTree.LeafMatch cmpValues false key M leafMatch) (hst : Stored codec false σ live) :
    ∃ removed live', (deleteRec codec key leafMatch (maxTreeDepth + 1) σ.root σ.store).1 =
        .ok removed ∧ Removes live M removed live' ∧
      Stored codec false
        ⟨(deleteRec codec key leafMatch (maxTreeDepth + 1) σ.root σ.store).2, σ.root⟩ live' := by
  obtain ⟨removed, live', hres, hst', ⟨rfl, hnone, rfl⟩ | ⟨rfl, p, hp, rfl⟩⟩ := hst.delete hmatch
  · refine ⟨false, live', hres, ⟨?_, rfl⟩, hst'⟩
    simpa using fun a b hp => hnone (a, b) hp
  · refine ⟨true, live', hres, ⟨?_, p, hp, rfl⟩, hst'⟩
    simp only [true_iff]
    exact ⟨p, Multiset.mem_cons_self p live', hp⟩

/-- One step keeps the tree in order and is a step of the multimap. -/
theorem Stored.multimap_step {op : Op} (hst : Stored codec false σ live) (hkey : op.KeyOk codec)
    (hsafe : SafeStep codec σ op) :
    ∃ live', Multimap live op (exec codec σ op).1 live' ∧
      Stored codec false (exec codec σ op).2 live' := by
  cases op with
  | insert key loc unique =>
      obtain ⟨rfl, h, t, ht, hroom, hplace⟩ := hsafe
      obtain ⟨-, hu, -⟩ | ⟨hres, -, hst'⟩ :=
        hst.insert loc hkey fun _ => ⟨h, t, ht, hroom, fun _ => hplace⟩
      · cases hu
      · refine ⟨_, ?_, hst'⟩
        rw [hres]
        exact rfl
  | deleteEntry key loc =>
      obtain ⟨removed, live', hres, hremoves, hst'⟩ := hst.removes (matchEntry_leafMatch key loc)
      refine ⟨live', ?_, hst'⟩
      have hout : (exec codec σ (.deleteEntry key loc)).1 = .deleted (.ok removed) :=
        congrArg Outcome.deleted hres
      rw [hout]
      exact hremoves
  | delete key =>
      obtain ⟨removed, live', hres, hremoves, hst'⟩ := hst.removes (matchKey_leafMatch key)
      refine ⟨live', ?_, hst'⟩
      have hout : (exec codec σ (.delete key)).1 = .deleted (.ok removed) :=
        congrArg Outcome.deleted hres
      rw [hout]
      exact hremoves

theorem Stored.behaves {ops : List Op} (hst : Stored codec false σ live)
    (hkeys : ∀ op ∈ ops, op.KeyOk codec) (hsafe : SafeRun codec σ ops) :
    Behaves codec σ live ops := by
  induction ops generalizing σ live with
  | nil => exact hst.reads
  | cons op ops ih =>
      obtain ⟨hstep, hrest⟩ := hsafe
      obtain ⟨live', hmulti, hst'⟩ := hst.multimap_step (hkeys op (by simp)) hstep
      exact ⟨hst.reads, live', hmulti, ih hst' (fun o ho => hkeys o (by simp [ho])) hrest⟩

/-- A tree made by `create` stores nothing. -/
theorem stored_of_create {s s' : Store} {root : ℕ} (strict : Bool) (hs : s.Ok)
    (hcreate : create s = (.ok root, s')) : Stored codec strict ⟨s', root⟩ 0 := by
  have havail : 0 < s.available := by
    by_contra hzero
    have hnone := allocatePage_exhausted hs (Nat.eq_zero_of_not_pos hzero)
    rw [create, bind_error hnone] at hcreate
    cases hcreate
  obtain ⟨root₁, s₁, hrun, ht, -⟩ := create_sim codec hs havail
  rw [hcreate] at hrun
  cases hrun
  exact ⟨0, _, ht, Nat.zero_le _, ⟨List.Pairwise.nil, by simp⟩, rfl⟩

def Session.run (codec : DecimalCodec) (σ : Session) (ops : List Op) : Session :=
  ops.foldl (fun σ op => (exec codec σ op).2) σ

theorem Behaves.last {ops : List Op} (h : Behaves codec σ live ops) :
    ∃ live', Reads codec (σ.run codec ops) live' := by
  induction ops generalizing σ live with
  | nil => exact ⟨live, h⟩
  | cons op ops ih =>
      obtain ⟨-, live', -, hrest⟩ := h
      exact ih hrest

theorem holds_insert {h h' : ℕ} {t : PageTree h} {t' : PageTree h'} {key : Value} {loc : UInt64}
    (ht : Holds codec σ.store σ.root t) (hdepth : h ≤ maxTreeDepth) (hkey : KeyOk codec key)
    (hroom : h + 2 ≤ σ.store.available)
    (hins : t.insert cmpValues (layout codec) σ.store.fresh false key loc = some ⟨h', t'⟩) :
    ∃ σ', exec codec σ (.insert key loc false) = (.inserted (.ok ()), σ') ∧
      Holds codec σ'.store σ'.root t' ∧ σ.store.available ≤ σ'.store.available + (h + 2) := by
  have hgrowth := t.growth_le cmpValues (layout codec) key
  obtain ⟨root', s', hrun, ht', havail⟩ := insert_sim ht hdepth hkey (hgrowth.trans hroom) hins
  refine ⟨⟨s', root'⟩, ?_, ht', ?_⟩
  · simp only [exec, hrun]
  · show σ.store.available ≤ s'.available + (h + 2)
    omega

section Tie

variable (codec) (fresh : ℕ → ℕ) (r : ℕ)

theorem tie_first : LevelTree.insert (h := 0) cmpValues (layout codec) fresh false (bigKey 1) 0
    (⟨r, []⟩ : Leaf ℕ Value UInt64) = some ⟨0, (⟨r, [(bigKey 1, 0)]⟩ : Leaf ℕ Value UInt64)⟩ := by
  have hfit := leaf_fits_bigKeys codec [1]
  simp only [List.map_cons, List.map_nil] at hfit
  simp [LevelTree.insert, LevelTree.insertRec, upper, partitionPoint, hfit]

theorem tie_second : LevelTree.insert (h := 0) cmpValues (layout codec) fresh false (bigKey 1) 1
    (⟨r, [(bigKey 1, 0)]⟩ : Leaf ℕ Value UInt64) =
      some ⟨0, (⟨r, [(bigKey 1, 0), (bigKey 1, 1)]⟩ : Leaf ℕ Value UInt64)⟩ := by
  have hfit := leaf_fits_bigKeys codec [1, 1]
  simp only [List.map_cons, List.map_nil] at hfit
  simp [LevelTree.insert, LevelTree.insertRec, upper, partitionPoint, cmp_bigKey_self, hfit]

/-- A full leaf of equal keys and a leaf behind them. -/
def tieTree (root left right : ℕ) (cells : List (Value × UInt64)) : PageTree 1 :=
  (⟨root, (⟨left, [(bigKey 1, 0), (bigKey 1, 1)]⟩ : Leaf ℕ Value UInt64),
    [(bigKey 1, (⟨right, cells⟩ : Leaf ℕ Value UInt64))]⟩ : Branch ℕ Value (PageTree 0))

theorem tie_third : LevelTree.insert (h := 0) cmpValues (layout codec) fresh false (bigKey 1) 2
    (⟨r, [(bigKey 1, 0), (bigKey 1, 1)]⟩ : Leaf ℕ Value UInt64) =
      some ⟨1, tieTree (fresh 1) r (fresh 0) [(bigKey 1, 2)]⟩ := by
  have hfit := leaf_fits_bigKeys codec [1, 1, 1]
  simp only [List.map_cons, List.map_nil] at hfit
  have hcut : (layout codec).leaf.cut [bigKey 1, bigKey 1, bigKey 1] 2 = 2 := by
    show splitPoint ([bigKey 1, bigKey 1, bigKey 1].map (cellSize codec 8)) 2 3 = 2
    simp only [List.map_cons, List.map_nil, cellSize_bigKey]
    decide
  simp [LevelTree.insert, LevelTree.insertRec, upper, partitionPoint, cmp_bigKey_self, hfit, hcut,
    LevelTree.rightLeaf]
  rfl

variable (left right : ℕ)

theorem tie_fourth : (tieTree r left right [(bigKey 1, 2)]).insert cmpValues (layout codec) fresh
    false (bigKey 2) 3 = some ⟨1, tieTree r left right [(bigKey 1, 2), (bigKey 2, 3)]⟩ := by
  have hfit := leaf_fits_bigKeys codec [1, 2]
  simp only [List.map_cons, List.map_nil] at hfit
  have hcmp : cmpValues (bigKey 1) (bigKey 2) = .lt := cmp_bigKey (by decide)
  simp [LevelTree.insert, LevelTree.insertRec, tieTree, upper, partitionPoint, hcmp, hfit, child, setChild,
    splice]

/-- The new separator goes behind its equal, and with it the equal keys. -/
theorem tie_fifth : ∃ t, (tieTree r left right [(bigKey 1, 2), (bigKey 2, 3)]).insert cmpValues
    (layout codec) fresh false (bigKey 0) 4 = some ⟨1, t⟩ ∧
      t.toList = [(bigKey 0, 4), (bigKey 1, 2), (bigKey 2, 3), (bigKey 1, 0), (bigKey 1, 1)] := by
  have hfit := leaf_fits_bigKeys codec [0, 1, 1]
  have hcut : (layout codec).leaf.cut [bigKey 0, bigKey 1, bigKey 1] 0 = 1 := by
    show splitPoint ([bigKey 0, bigKey 1, bigKey 1].map (cellSize codec 8)) 0 3 = 1
    simp only [List.map_cons, List.map_nil, cellSize_bigKey]
    decide
  have hbranch := branch_fits_bigKeys codec [1, 1]
  simp only [List.map_cons, List.map_nil] at hfit hbranch
  have hcmp : cmpValues (bigKey 1) (bigKey 0) = .gt := cmp_bigKey (by decide)
  simp [LevelTree.insert, LevelTree.insertRec, tieTree, upper, partitionPoint, hcmp, cmp_bigKey_self, hfit,
    hcut, hbranch, child, setChild, splice, LevelTree.rightLeaf]
  exact ⟨_, rfl, rfl⟩

end Tie

/-- Three equal keys, one above them, one below. -/
def tieRun : List Op :=
  [.insert (bigKey 1) 0 false, .insert (bigKey 1) 1 false, .insert (bigKey 1) 2 false,
    .insert (bigKey 2) 3 false, .insert (bigKey 0) 4 false]

theorem tieRun_keyOk : ∀ op ∈ tieRun, op.KeyOk codec := by
  simp [tieRun, Op.KeyOk, bigKey_ok]

end Docsql.BTree
