import Docsql.BTree.Multimap

/-!
# The unique index as a finite map

With `unique` set, keys that compare equal are one key.  The tree then answers
like a finite map from such keys to locators, as long as the file has page ids
left for the nodes an insertion cuts and the tree stays within the depth limit.
-/

namespace Docsql.BTree

open BPlusTree StateExcept

/-- A finite map, one entry for every key up to `cmpValues`. -/
abbrev Entries := List (Value × UInt64)

namespace Entries

def equal (key : Value) (p : Value × UInt64) : Bool := cmpValues p.1 key == .eq

def find (m : Entries) (key : Value) : Option (Value × UInt64) := m.find? (equal key)

/-- What an operation answers on the map, and the map after it. -/
def apply (m : Entries) : Op → Outcome × Entries
  | .insert key loc _ =>
    if (m.find key).isSome then (.inserted (.error .duplicate), m)
    else (.inserted (.ok ()), (key, loc) :: m)
  | .delete key => (.deleted (.ok (m.find key).isSome), m.eraseP (equal key))
  | .deleteEntry key loc =>
    (.deleted (.ok (m.any fun p => equal key p && p.2 == loc)),
      m.eraseP fun p => equal key p && p.2 == loc)

end Entries

/-- `scan` lists the map in strictly increasing key order and `get` returns the
stored locators. -/
structure ReadsMap (codec : DecimalCodec) (σ : Session) (m : Entries) : Prop where
  scan : ∃ cells, σ.scan codec = .ok cells ∧
    (cells.Pairwise fun a b => cmpValues a.1 b.1 = .lt) ∧ cells.Perm m
  get : ∀ key, σ.get codec key = .ok ((m.find key).map Prod.snd)

/-- Every operation of the run answers as on the map. -/
def BehavesAsMap (codec : DecimalCodec) : Session → Entries → List Op → Prop
  | σ, m, [] => ReadsMap codec σ m
  | σ, m, op :: ops =>
    ReadsMap codec σ m ∧ (exec codec σ op).1 = (m.apply op).1 ∧
      BehavesAsMap codec (exec codec σ op).2 (m.apply op).2 ops

/-- Unique insertions and deletions by key. -/
def Op.OnMap : Op → Prop
  | .insert _ _ unique => unique = true
  | .delete _ => True
  | .deleteEntry _ _ => False

/-- The insertion of a key that is not there yet has the room it needs. -/
def RoomStep (codec : DecimalCodec) (σ : Session) : Op → Prop
  | .insert key _ _ => σ.get codec key = .ok none →
    ∃ (h : ℕ) (t : PageTree h), Holds codec σ.store σ.root t ∧ HasRoom codec σ.store t key
  | _ => True

def RoomRun (codec : DecimalCodec) : Session → List Op → Prop
  | _, [] => True
  | σ, op :: ops => RoomStep codec σ op ∧ RoomRun codec (exec codec σ op).2 ops

variable {codec : DecimalCodec} {σ : Session} {m : Entries}

/-! ## Maps with distinct keys -/

section Entries

/-- No two keys are equal. -/
def Distinct (m : Entries) : Prop := m.Pairwise fun a b => cmpValues a.1 b.1 ≠ .eq

theorem ne_eq_symm {a b : Value × UInt64} (h : cmpValues a.1 b.1 ≠ .eq) :
    cmpValues b.1 a.1 ≠ .eq :=
  fun heq => h (Std.OrientedCmp.eq_symm heq)

instance : Std.Symm fun a b : Value × UInt64 => cmpValues a.1 b.1 ≠ .eq :=
  ⟨fun _ _ h => ne_eq_symm h⟩

theorem Distinct.eq_of_equal {key : Value} {p q : Value × UInt64} (hm : Distinct m) (hp : p ∈ m)
    (hq : q ∈ m) (hpk : cmpValues p.1 key = .eq) (hqk : cmpValues q.1 key = .eq) : p = q := by
  by_contra hne
  have hpq : cmpValues p.1 q.1 = .eq := Std.TransCmp.eq_trans hpk (Std.OrientedCmp.eq_symm hqk)
  exact hm.forall hp hq hne hpq

theorem find_eq_some {key : Value} {p : Value × UInt64} (hm : Distinct m) :
    m.find key = some p ↔ p ∈ m ∧ cmpValues p.1 key = .eq := by
  constructor
  · intro h
    exact ⟨List.mem_of_find?_eq_some h, by simpa [Entries.equal] using List.find?_some h⟩
  · rintro ⟨hp, heq⟩
    cases hfind : m.find key with
    | none =>
        have := List.find?_eq_none.mp hfind p hp
        simp [Entries.equal, heq] at this
    | some q =>
        have hq : q ∈ m := List.mem_of_find?_eq_some hfind
        have hqk : cmpValues q.1 key = .eq := by
          simpa [Entries.equal] using List.find?_some hfind
        rw [hm.eq_of_equal hp hq heq hqk]

theorem find_eq_none {key : Value} : m.find key = none ↔ ∀ p ∈ m, cmpValues p.1 key ≠ .eq := by
  simp [Entries.find, List.find?_eq_none, Entries.equal]

/-- Removing the entry of a key. -/
theorem eraseP_perm {key : Value} {p : Value × UInt64} {rest : Entries} (hm : Distinct m)
    (hp : cmpValues p.1 key = .eq) (hperm : m.Perm (p :: rest)) :
    (m.eraseP (Entries.equal key)).Perm rest := by
  have hmem : p ∈ m := hperm.mem_iff.mpr List.mem_cons_self
  obtain ⟨q, l₁, l₂, -, hq, hsplit, herase⟩ :=
    List.exists_of_eraseP hmem (by simpa [Entries.equal] using hp : Entries.equal key p = true)
  have hqm : q ∈ m := by simp [hsplit]
  obtain rfl : p = q := hm.eq_of_equal hmem hqm hp (by simpa [Entries.equal] using hq)
  rw [herase]
  have hmiddle : m.Perm (p :: (l₁ ++ l₂)) := hsplit ▸ List.perm_middle
  exact (hmiddle.symm.trans hperm).cons_inv

end Entries

/-! ## The invariant -/

/-- The pages hold a strictly ordered tree of the entries. -/
def StoredMap (codec : DecimalCodec) (σ : Session) (m : Entries) : Prop :=
  Stored codec true σ (m : Live)

theorem StoredMap.distinct (hst : StoredMap codec σ m) : Distinct m := by
  obtain ⟨cells, -, hsorted, hlive⟩ := hst.scan
  have hne : cells.Pairwise fun a b => cmpValues a.1 b.1 ≠ .eq := by
    refine hsorted.imp ?_
    intro a b hab heq
    have hlt : cmpValues a.1 b.1 = .lt := hab
    simp [hlt] at heq
  exact ((Multiset.coe_eq_coe.mp hlive).pairwise_iff fun h => ne_eq_symm h).mp hne

theorem StoredMap.reads (hst : StoredMap codec σ m) : ReadsMap codec σ m := by
  constructor
  · obtain ⟨cells, hscan, hsorted, hlive⟩ := hst.scan
    exact ⟨cells, hscan, hsorted, Multiset.coe_eq_coe.mp hlive⟩
  · intro key
    obtain ⟨found, hget, hsome, hnone⟩ := hst.get key
    rw [hget]
    cases found with
    | none =>
        have habsent : m.find key = none := find_eq_none.mpr fun p hp => hnone rfl p hp
        rw [habsent]
        rfl
    | some v =>
        obtain ⟨k, hmem, heq⟩ := hsome v rfl
        rw [(find_eq_some hst.distinct).mpr ⟨hmem, heq⟩]
        rfl

theorem StoredMap.step {op : Op} (hst : StoredMap codec σ m) (hkey : op.KeyOk codec)
    (hop : op.OnMap) (hroom : RoomStep codec σ op) :
    (exec codec σ op).1 = (m.apply op).1 ∧ StoredMap codec (exec codec σ op).2 (m.apply op).2 := by
  cases op with
  | insert key loc unique =>
      obtain rfl : unique = true := hop
      obtain ⟨hrun, -, p, hp, heq⟩ | ⟨hres, habsent, hst'⟩ := Stored.insert loc hst hkey (by
        intro habsent
        have hget := hst.reads.get key
        rw [find_eq_none.mpr fun p hp => habsent p hp rfl] at hget
        obtain ⟨h, t, ht, hhas⟩ := hroom hget
        exact ⟨h, t, ht, hhas, by simp⟩)
      · have hfind := (find_eq_some hst.distinct).mpr ⟨hp, heq⟩
        rw [hrun, Entries.apply, if_pos (by simp [hfind])]
        exact ⟨rfl, hst⟩
      · have hfind := find_eq_none.mpr fun p hp => habsent rfl p hp
        rw [hres, Entries.apply, if_neg (by simp [hfind])]
        exact ⟨rfl, hst'⟩
  | deleteEntry key loc => exact hop.elim
  | delete key =>
      obtain ⟨removed, live', hres, hst', hcase⟩ := hst.delete (matchKey_leafMatch key)
      have hout : (exec codec σ (.delete key)).1 = .deleted (.ok removed) :=
        congrArg Outcome.deleted hres
      rw [hout, Entries.apply]
      obtain ⟨rfl, hnone, rfl⟩ | ⟨rfl, p, hp, hlive⟩ := hcase
      · have hfind : m.find key = none := find_eq_none.mpr hnone
        refine ⟨by simp [hfind], ?_⟩
        have herase : m.eraseP (Entries.equal key) = m :=
          List.eraseP_of_forall_not fun p hp => by simpa [Entries.equal] using hnone p hp
        rw [herase]
        exact hst'
      · obtain ⟨rest, rfl⟩ : ∃ rest : Entries, live' = (rest : Live) :=
          ⟨live'.toList, (Multiset.coe_toList live').symm⟩
        have hperm : m.Perm (p :: rest) := Multiset.coe_eq_coe.mp hlive
        have hfind := (find_eq_some hst.distinct).mpr ⟨hperm.mem_iff.mpr List.mem_cons_self, hp⟩
        refine ⟨by simp [hfind], ?_⟩
        rw [StoredMap, Multiset.coe_eq_coe.mpr (eraseP_perm hst.distinct hp hperm)]
        exact hst'

theorem StoredMap.behaves {ops : List Op} (hst : StoredMap codec σ m)
    (hkeys : ∀ op ∈ ops, op.KeyOk codec) (hops : ∀ op ∈ ops, op.OnMap)
    (hroom : RoomRun codec σ ops) : BehavesAsMap codec σ m ops := by
  induction ops generalizing σ m with
  | nil => exact hst.reads
  | cons op ops ih =>
      obtain ⟨hstep, hrest⟩ := hroom
      obtain ⟨hres, hst'⟩ := hst.step (hkeys op (by simp)) (hops op (by simp)) hstep
      exact ⟨hst.reads, hres, ih hst' (fun o ho => hkeys o (by simp [ho]))
        (fun o ho => hops o (by simp [ho])) hrest⟩

/-- Without a page for the right half an overflowing leaf cannot be cut. -/
theorem insert_leaf_exhausted {s : Store} {root : ℕ} {key : Value} {loc : UInt64}
    {cells : List (Value × UInt64)}
    (ht : Holds codec s root (h := 0) (⟨root, cells⟩ : Leaf ℕ Value UInt64))
    (hkey : KeyOk codec key)
    (hover : (layout codec).leaf.fits
      ((cells.insertIdx (upper cmpValues key cells) (key, loc)).map Prod.fst) = false)
    (hins : LevelTree.insertRec (h := 0) cmpValues (layout codec) s.fresh true key loc
      ⟨root, cells⟩ ≠ none)
    (havail : s.available = 0) :
    insert codec root key loc true s = (.error (.pager (.pageIdExhausted s.numPages)), s) := by
  obtain ⟨kb, hkb, hcap⟩ := hkey.exists_encodeKey
  have hdup : (true && ((cells.take (notAbove key cells)).getLast?.any fun c =>
      cmpValues c.1 key == .eq)) = false := by
    by_contra hdup
    have hdup' := Bool.of_not_eq_false hdup
    simp only [notAbove_eq] at hdup'
    simp [LevelTree.insertRec, hdup'] at hins
  have hok : ∀ c ∈ cells.insertIdx (notAbove key cells) (key, loc), KeyOk codec c.1 := by
    intro c hc
    rcases List.eq_or_mem_of_mem_insertIdx hc with rfl | hc
    · exact hkey
    · exact ht.fits.2 c hc
  have hover' : (layout codec).leaf.fits
      ((cells.insertIdx (notAbove key cells) (key, loc)).map Prod.fst) = false := hover
  have hrec : insertRec codec key loc true (maxTreeDepth + 1) root s =
      (.error (.pager (.pageIdExhausted s.numPages)), s) := by
    rw [insertRec, bind_ok (readNode_leaf ht.owns ht.represents ht.fits)]
    simp only [hdup]
    rw [if_neg (by simp), fromExcept_bind hkb, if_neg (by omega),
      fromExcept_bind (nodeBytes_eq 3 8 hok), if_neg (of_decide_eq_false hover'),
      fromExcept_bind (splitAtForInsert_eq _ 3 8 hok)]
    exact bind_error (allocatePage_exhausted ht.store havail)
  rw [insert]
  exact bind_error hrec

/-- All page ids but one are taken. -/
def fullStore : Store where
  image := fun _ => []
  reusable := []
  numPages := 2 ^ 32 - 2

theorem fullStore_ok : fullStore.Ok :=
  ⟨by decide, by decide, List.nodup_nil, by simp [fullStore]⟩

def fullRun : List Op :=
  [.insert (bigKey 1) 1 true, .insert (bigKey 2) 2 true, .insert (bigKey 3) 3 true]

section Full

variable (codec) (fresh : ℕ → ℕ) (r : ℕ)

theorem full_first :
    LevelTree.insert (h := 0) cmpValues (layout codec) fresh true (bigKey 1) 1
        (⟨r, []⟩ : Leaf ℕ Value UInt64) =
      some ⟨0, (⟨r, [(bigKey 1, 1)]⟩ : Leaf ℕ Value UInt64)⟩ ∧
    LevelTree.growth (h := 0) cmpValues (layout codec) (bigKey 1)
      (⟨r, []⟩ : Leaf ℕ Value UInt64) = 0 := by
  have hfit := leaf_fits_bigKeys codec [1]
  simp only [List.map_cons, List.map_nil] at hfit
  constructor
  · simp [LevelTree.insert, LevelTree.insertRec, upper, partitionPoint, hfit]
  · simp [LevelTree.growth, LevelTree.cuts, LevelTree.promoted, upper, partitionPoint, hfit]

theorem full_second :
    LevelTree.insert (h := 0) cmpValues (layout codec) fresh true (bigKey 2) 2
        (⟨r, [(bigKey 1, 1)]⟩ : Leaf ℕ Value UInt64) =
      some ⟨0, (⟨r, [(bigKey 1, 1), (bigKey 2, 2)]⟩ : Leaf ℕ Value UInt64)⟩ ∧
    LevelTree.growth (h := 0) cmpValues (layout codec) (bigKey 2)
      (⟨r, [(bigKey 1, 1)]⟩ : Leaf ℕ Value UInt64) = 0 := by
  have hfit := leaf_fits_bigKeys codec [1, 2]
  simp only [List.map_cons, List.map_nil] at hfit
  have hcmp : cmpValues (bigKey 1) (bigKey 2) = .lt := cmp_bigKey (by decide)
  constructor
  · simp [LevelTree.insert, LevelTree.insertRec, upper, partitionPoint, hcmp, hfit]
  · simp [LevelTree.growth, LevelTree.cuts, LevelTree.promoted, upper, partitionPoint, hcmp, hfit]

theorem full_third {s : Store} (havail : s.available = 0)
    (ht : Holds codec s r (h := 0)
      (⟨r, [(bigKey 1, 1), (bigKey 2, 2)]⟩ : Leaf ℕ Value UInt64)) :
    insert codec r (bigKey 3) 3 true s = (.error (.pager (.pageIdExhausted s.numPages)), s) := by
  have hfit := leaf_fits_bigKeys codec [1, 2, 3]
  simp only [List.map_cons, List.map_nil] at hfit
  have hcmp₁ : cmpValues (bigKey 1) (bigKey 3) = .lt := cmp_bigKey (by decide)
  have hcmp₂ : cmpValues (bigKey 2) (bigKey 3) = .lt := cmp_bigKey (by decide)
  refine insert_leaf_exhausted ht (bigKey_ok codec 3) ?_ ?_ havail
  · simp [upper, partitionPoint, hcmp₁, hcmp₂, hfit]
  · simp [LevelTree.insertRec, upper, partitionPoint, hcmp₁, hcmp₂, hfit]

end Full

end Docsql.BTree
