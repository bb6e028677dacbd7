import Docsql.Dml.Referential
import Docsql.Dump.Order
import Docsql.EncodeRoundTrip
import Docsql.Index.Replace
import Docsql.ValueOrder

/-!
# The rows of a dump

A dump lists all rows as INSERTs of one row each, tables in the order of their foreign keys and
the rows of a table that refers to itself parents first.  Each INSERT checks the foreign keys of
its row, so the order decides whether the dump can be replayed.
-/

namespace Docsql.Dump

open Dml (ForeignKey sameValue)
open Index (Env nonNull)
open Lib.Readiness

variable {Doc : Type} (env : Env Doc)

/-! ## The order of rows -/

/-- `key_of`. -/
def keyOf (v : Value) : Option (List UInt8) := (encode env.codec v).toOption

def selfFks (table : String) (fks : List ForeignKey) : List ForeignKey :=
  fks.filter fun fk => fk.refTable = table

/-- The groups a row is a member of.  A group goes by the key of its value. -/
def offers (fks : List ForeignKey) (doc : Doc) : List (List UInt8) :=
  fks.filterMap fun fk => (nonNull (env.get doc fk.refCol)).bind (keyOf env)

/-- The groups a row refers to; a value that no row can be the parent of is passed over. -/
def wants (fks : List ForeignKey) (docs : List Doc) (doc : Doc) : List (List UInt8) :=
  (fks.filterMap fun fk => (nonNull (env.get doc fk.col)).bind (keyOf env)).filter fun k =>
    docs.any fun parent => (offers env fks parent).contains k

def selfRefRowOrder (table : String) (fks : List ForeignKey) (docs : List Doc) : List Doc :=
  let fks := selfFks table fks
  if fks.isEmpty || decide (docs.length < 2) then docs
  else
    (kahnOrder (List.finRange docs.length) (fun i => offers env fks (docs.get i))
      (fun i => wants env fks docs (docs.get i))).map docs.get

/-! ## The check of foreign keys -/

/-- The value of a row can be the parent of `v`. -/
def matchesParent (refCol : String) (v : Value) (parent : Doc) : Bool :=
  ((env.get parent refCol).map fun rv => sameValue rv v).getD false

def fkError (table : String) (fk : ForeignKey) : String :=
  let col := fk.col
  let rtable := fk.refTable
  let rcol := fk.refCol
  s!"FOREIGN KEY constraint failed: {table}.{col} references {rtable}.{rcol}"

/-- `check_fks_in`; `stored` gives the rows of the tables. -/
def checkFksIn (stored : String → List Doc) (table : String) (fks : List ForeignKey) (doc : Doc)
    (sameBatch : List Doc) (selfFinal : Option (List Doc)) : Except String Unit :=
  fks.forM fun fk =>
    match nonNull (env.get doc fk.col) with
    | none => .ok ()
    | some v =>
      let among (docs : List Doc) : Except String Unit :=
        if docs.any (matchesParent env fk.refCol v) then .ok () else .error (fkError table fk)
      if fk.refTable = table then
        match selfFinal with
        | some finalState => among finalState
        | none =>
          if sameBatch.any (matchesParent env fk.refCol v) then .ok ()
          else among (stored fk.refTable)
      else among (stored fk.refTable)

/-- INSERT of one row: it is placed, and then its foreign keys are checked. -/
def insertRow (fks : String → List ForeignKey) (stored : String → List Doc)
    (row : String × Doc) : Except String (String → List Doc) := do
  let placed := Function.update stored row.1 (stored row.1 ++ [row.2])
  checkFksIn env placed row.1 (fks row.1) row.2 [row.2] none
  return placed

def replayRows (fks : String → List ForeignKey) (stored : String → List Doc)
    (rows : List (String × Doc)) : Except String (String → List Doc) :=
  rows.foldlM (insertRow env fks) stored

def parentsOf (fks : String → List ForeignKey) (n : String) : List String :=
  (fks n).map ForeignKey.refTable

/-- The INSERTs of `dump_script`. -/
def dumpRows (names : List String) (fks : String → List ForeignKey) (docs : String → List Doc) :
    List (String × Doc) :=
  (fkDependencyOrder names (parentsOf fks)).flatMap fun n =>
    (selfRefRowOrder env n (fks n) (docs n)).map fun doc => (n, doc)

/-! ## What the check asks for -/

variable {env} {fks : String → List ForeignKey} {stored : String → List Doc}

/-- Each parent of the row is there, or it is the row itself. -/
def Parented (env : Env Doc) (fks : String → List ForeignKey) (done : Set (String × Doc))
    (row : String × Doc) : Prop :=
  ∀ fk ∈ fks row.1, ∀ v, nonNull (env.get row.2 fk.col) = some v →
    ∃ parent, (fk.refTable, parent) ∈ insert row done ∧ matchesParent env fk.refCol v parent = true

theorem parented_mono : Lasting (Parented env fks) := by
  intro done done' hle row h fk hfk v hv
  obtain ⟨parent, hin, hmatch⟩ := h fk hfk v hv
  exact ⟨parent, Set.insert_subset_insert hle hin, hmatch⟩

/-- The rows that are stored. -/
def rowsOf (stored : String → List Doc) : Set (String × Doc) := {row | row.2 ∈ stored row.1}

theorem rowsOf_placed (row : String × Doc) :
    rowsOf (Function.update stored row.1 (stored row.1 ++ [row.2])) =
      insert row (rowsOf stored) := by
  ext ⟨n, doc⟩
  simp only [rowsOf, Set.mem_ofPred_eq, Set.mem_insert_iff, Function.update_apply, Prod.ext_iff]
  by_cases hn : n = row.1
  · subst hn
    simp [or_comm]
  · simp [hn]

theorem checkFksIn_ok_iff {row : String × Doc} :
    checkFksIn env (Function.update stored row.1 (stored row.1 ++ [row.2])) row.1 (fks row.1)
        row.2 [row.2] none = .ok () ↔ Parented env fks (rowsOf stored) row := by
  unfold checkFksIn Parented
  rw [Except.forM_eq_ok_iff]
  refine forall_congr' fun fk => imp_congr_right fun _ => ?_
  rw [← rowsOf_placed]
  cases hv : nonNull (env.get row.2 fk.col) with
  | none => simp
  | some v =>
    have hamong : (Function.update stored row.1 (stored row.1 ++ [row.2]) fk.refTable).any
          (matchesParent env fk.refCol v) = true ↔
        ∃ parent, (fk.refTable, parent) ∈
            rowsOf (Function.update stored row.1 (stored row.1 ++ [row.2])) ∧
          matchesParent env fk.refCol v parent = true := List.any_eq_true
    simp only [Option.some.injEq, forall_eq', ← hamong]
    by_cases href : fk.refTable = row.1
    · rw [if_pos href, href, Function.update_self]
      by_cases hown : matchesParent env fk.refCol v row.2 = true
      · simp [hown]
      · simp [hown]
    · rw [if_neg href]
      simp

theorem insertRow_of_ok {row : String × Doc} (h : Parented env fks (rowsOf stored) row) :
    insertRow env fks stored row =
      .ok (Function.update stored row.1 (stored row.1 ++ [row.2])) := by
  rw [insertRow, checkFksIn_ok_iff.mpr h]
  rfl

theorem insertRow_error {row : String × Doc} (h : ¬Parented env fks (rowsOf stored) row) :
    ∃ e, insertRow env fks stored row = .error e := by
  rw [← checkFksIn_ok_iff] at h
  rw [insertRow]
  cases hcheck : checkFksIn env (Function.update stored row.1 (stored row.1 ++ [row.2])) row.1
      (fks row.1) row.2 [row.2] none with
  | error e => exact ⟨e, rfl⟩
  | ok u => exact absurd hcheck h

/-- A replay goes through when every row finds its parents in its turn. -/
theorem replayRows_ok_iff {rows : List (String × Doc)} :
    (∃ stored', replayRows env fks stored rows = .ok stored') ↔
      InTurn (Parented env fks) (rowsOf stored) rows := by
  induction rows generalizing stored with
  | nil => exact iff_of_true ⟨stored, rfl⟩ trivial
  | cons row rows ih =>
    rw [InTurn, ← rowsOf_placed, ← ih, replayRows, List.foldlM_cons]
    by_cases hrow : Parented env fks (rowsOf stored) row
    · rw [insertRow_of_ok hrow]
      exact (and_iff_right hrow).symm
    · obtain ⟨e, herror⟩ := insertRow_error hrow
      rw [herror]
      refine iff_of_false ?_ fun h => hrow h.1
      rintro ⟨stored', h⟩
      cases h

/-! ## The rows of one table -/

section Table

variable {own : List ForeignKey} {docs : List Doc} {doc parent : Doc} {k : List UInt8}

/-- The parents of a row in its own table are there. -/
def SelfParented (env : Env Doc) (own : List ForeignKey) (done : Set Doc) (doc : Doc) : Prop :=
  ∀ fk ∈ own, ∀ v, nonNull (env.get doc fk.col) = some v →
    ∃ parent ∈ insert doc done, matchesParent env fk.refCol v parent = true

theorem selfParented_mono : Lasting (SelfParented env own) := by
  intro done done' hle doc h fk hfk v hv
  obtain ⟨parent, hin, hmatch⟩ := h fk hfk v hv
  exact ⟨parent, Set.insert_subset_insert hle hin, hmatch⟩

/-- The keys tell which rows are parents: the foreign keys of the table on itself are on one
column, and their values have the same key when they compare equal. -/
structure Keyed (env : Env Doc) (own : List ForeignKey) (docs : List Doc) : Prop where
  column : ∀ fk ∈ own, ∀ fk' ∈ own, fk.refCol = fk'.refCol
  key : ∀ fk ∈ own, ∀ doc ∈ docs, ∀ parent ∈ docs, ∀ v rv,
    nonNull (env.get doc fk.col) = some v → nonNull (env.get parent fk.refCol) = some rv →
      (sameValue rv v = true ↔ ∃ k, keyOf env rv = some k ∧ keyOf env v = some k)

theorem nonNull_eq_some {o : Option Value} {v : Value} :
    nonNull o = some v ↔ o = some v ∧ v ≠ .null := by
  cases o with
  | none => simp [nonNull]
  | some w =>
    cases w <;> simp [nonNull] <;> rintro rfl <;> simp

theorem sameValue_null {v : Value} (hv : v ≠ .null) : sameValue .null v = false := by
  unfold sameValue
  cases v with
  | null => exact absurd rfl hv
  | _ => rfl

theorem matchesParent_iff {refCol : String} {v : Value} (hv : v ≠ .null) :
    matchesParent env refCol v parent = true ↔
      ∃ rv, nonNull (env.get parent refCol) = some rv ∧ sameValue rv v = true := by
  unfold matchesParent
  cases hget : env.get parent refCol with
  | none => simp [nonNull]
  | some rv =>
    simp only [Option.map_some, Option.getD_some, nonNull_eq_some, Option.some.injEq]
    constructor
    · intro hsame
      refine ⟨rv, ⟨rfl, ?_⟩, hsame⟩
      rintro rfl
      rw [sameValue_null hv] at hsame
      cases hsame
    · rintro ⟨_, ⟨rfl, -⟩, hsame⟩
      exact hsame

theorem mem_offers : k ∈ offers env own doc ↔
    ∃ fk ∈ own, ∃ rv, nonNull (env.get doc fk.refCol) = some rv ∧ keyOf env rv = some k := by
  simp only [offers, List.mem_filterMap, Option.bind_eq_some_iff]

theorem mem_wants : k ∈ wants env own docs doc ↔
    (∃ fk ∈ own, ∃ v, nonNull (env.get doc fk.col) = some v ∧ keyOf env v = some k) ∧
      ∃ parent ∈ docs, k ∈ offers env own parent := by
  simp only [wants, List.mem_filter, List.mem_filterMap, Option.bind_eq_some_iff, List.any_eq_true,
    List.contains_iff_mem]

theorem keyOf_int_eq {i j : Int64} {k : List UInt8} (hi : keyOf env (.int i) = some k)
    (hj : keyOf env (.int j) = some k) : i = j := by
  have hencode {n : Int64} (hn : keyOf env (.int n) = some k) :
      encode env.codec (.int n) = .ok k := by
    unfold keyOf at hn
    cases hrun : encode env.codec (.int n) with
    | error e =>
      rw [hrun] at hn
      cases hn
    | ok bytes =>
      rw [hrun] at hn
      exact congrArg Except.ok (Option.some.inj hn)
  have hback := decode_of_encode (v := .int i) trivial (hencode hi)
  rw [decode_of_encode (v := .int j) trivial (hencode hj)] at hback
  cases hback
  rfl

/-- Whole numbers have one key each. -/
theorem keyed_of_ints (hcolumn : ∀ fk ∈ own, ∀ fk' ∈ own, fk.refCol = fk'.refCol)
    (hint : ∀ fk ∈ own, ∀ doc ∈ docs, ∀ v, nonNull (env.get doc fk.col) = some v ∨
      nonNull (env.get doc fk.refCol) = some v → ∃ i, v = .int i) : Keyed env own docs where
  column := hcolumn
  key := by
    intro fk hfk doc hdoc parent hparent v rv hv hrv
    obtain ⟨i, rfl⟩ := hint fk hfk doc hdoc v (.inl hv)
    obtain ⟨j, rfl⟩ := hint fk hfk parent hparent rv (.inr hrv)
    constructor
    · intro hsame
      have hcmp : compare j.toInt i.toInt = .eq := beq_iff_eq.mp hsame
      obtain rfl : j = i := Int64.toInt_inj.mp (Std.LawfulEqCmp.compare_eq_iff_eq.mp hcmp)
      exact ⟨_, rfl, rfl⟩
    · rintro ⟨k, hj, hi⟩
      rw [keyOf_int_eq hj hi]
      exact beq_iff_eq.mpr (cmpValues_self _)

/-- The rows that can come by their parents can come by their keys. -/
theorem provided_of_selfParented (h : Keyed env own docs) {S : Set Doc} (hS : S ⊆ {d | d ∈ docs})
    {i : Fin docs.length} (hready : SelfParented env own S (docs.get i)) :
    Provided (fun i => offers env own (docs.get i)) (fun i => wants env own docs (docs.get i))
      {j | j ∈ List.finRange docs.length ∧ docs.get j ∈ S} i := by
  intro k hk
  obtain ⟨⟨fk, hfk, v, hv, hkey⟩, -⟩ := mem_wants.mp hk
  obtain ⟨parent, hin, hmatch⟩ := hready fk hfk v hv
  obtain ⟨rv, hrv, hsame⟩ := (matchesParent_iff (nonNull_eq_some.mp hv).2).mp hmatch
  have hparent : parent ∈ docs := by
    rcases hin with rfl | hin
    · exact List.get_mem docs i
    · exact hS hin
  obtain ⟨k', hrk, hvk⟩ :=
    (h.key fk hfk _ (List.get_mem docs i) parent hparent v rv hv hrv).mp hsame
  obtain rfl : k' = k := Option.some.inj (hvk.symm.trans hkey)
  have hoffer : k' ∈ offers env own parent := mem_offers.mpr ⟨fk, hfk, rv, hrv, hrk⟩
  rcases hin with rfl | hin
  · exact .inl hoffer
  · obtain ⟨j, rfl⟩ := List.get_of_mem hparent
    exact .inr ⟨j, ⟨List.mem_finRange j, hin⟩, hoffer⟩

/-- The rows that can come by their keys can come by their parents, if they have any. -/
theorem selfParented_of_provided (h : Keyed env own docs)
    {i : Fin docs.length} (hclosed : SelfParented env own {d | d ∈ docs} (docs.get i))
    {S : Set (Fin docs.length)}
    (hready : Provided (fun i => offers env own (docs.get i))
      (fun i => wants env own docs (docs.get i)) S i) :
    SelfParented env own (docs.get '' S) (docs.get i) := by
  intro fk hfk v hv
  have hnull := (nonNull_eq_some.mp hv).2
  have hi := List.get_mem docs i
  obtain ⟨parent, hin, hmatch⟩ := hclosed fk hfk v hv
  have hparent : parent ∈ docs := by
    rcases hin with rfl | hin
    · exact hi
    · exact hin
  obtain ⟨rv, hrv, hsame⟩ := (matchesParent_iff hnull).mp hmatch
  obtain ⟨k, hrk, hvk⟩ := (h.key fk hfk _ hi parent hparent v rv hv hrv).mp hsame
  have hmatches {p : Doc} (hp : p ∈ docs) (hoffer : k ∈ offers env own p) :
      matchesParent env fk.refCol v p = true := by
    obtain ⟨fk', hfk', rv', hrv', hrk'⟩ := mem_offers.mp hoffer
    rw [h.column fk' hfk' fk hfk] at hrv'
    apply (matchesParent_iff hnull).mpr
    exact ⟨rv', hrv', (h.key fk hfk _ hi p hp v rv' hv hrv').mpr ⟨k, hrk', hvk⟩⟩
  have hwant : k ∈ wants env own docs (docs.get i) :=
    mem_wants.mpr ⟨⟨fk, hfk, v, hv, hvk⟩, parent, hparent, mem_offers.mpr ⟨fk, hfk, rv, hrv, hrk⟩⟩
  rcases hready k hwant with hown | ⟨j, hj, hoffer⟩
  · exact ⟨_, Set.mem_insert _ _, hmatches hi hown⟩
  · exact ⟨_, Set.mem_insert_of_mem _ ⟨j, hj, rfl⟩, hmatches (List.get_mem docs j) hoffer⟩

theorem selfRefRowOrder_perm (env : Env Doc) (table : String) (fks : List ForeignKey)
    (docs : List Doc) : (selfRefRowOrder env table fks docs).Perm docs := by
  unfold selfRefRowOrder
  simp only
  split
  · exact .refl docs
  · have h := (kahnOrder_greedy (fun i => offers env (selfFks table fks) (docs.get i))
      (fun i => wants env (selfFks table fks) docs (docs.get i))
      (List.nodup_finRange docs.length)).1.map docs.get
    rwa [List.map_get_finRange] at h

/-- Rows that some order takes parents first, this order takes parents first. -/
theorem selfRefRowOrder_inTurn {table : String} {fks : List ForeignKey}
    (h : Keyed env (selfFks table fks) docs) {p : List Doc} (hp : p ⊆ docs) (hall : docs ⊆ p)
    (hturn : InTurn (SelfParented env (selfFks table fks)) ∅ p) :
    InTurn (SelfParented env (selfFks table fks)) ∅ (selfRefRowOrder env table fks docs) := by
  unfold selfRefRowOrder
  simp only
  split
  · rename_i hplain
    rcases Bool.or_eq_true_iff.mp hplain with hempty | hshort
    · apply inTurn_of_forall
      intro done doc fk hfk
      rw [List.isEmpty_iff.mp hempty] at hfk
      cases hfk
    · -- A row alone can only be its own parent.
      rcases docs with _ | ⟨doc, _ | ⟨doc', docs⟩⟩
      · trivial
      · cases p with
        | nil => cases hall List.mem_cons_self
        | cons first p =>
          obtain rfl := List.mem_singleton.mp (hp List.mem_cons_self)
          exact ⟨hturn.1, trivial⟩
      · have hlength := of_decide_eq_true hshort
        rw [List.length_cons, List.length_cons] at hlength
        omega
  · have hgreedy := kahnOrder_greedy
      (fun i => offers env (selfFks table fks) (docs.get i))
      (fun i => wants env (selfFks table fks) docs (docs.get i))
      (List.nodup_finRange docs.length)
    have hclosed (i : Fin docs.length) :
        SelfParented env (selfFks table fks) {d | d ∈ docs} (docs.get i) := by
      have hin : docs.get i ∈ p := hall (List.get_mem docs i)
      refine selfParented_mono ?_ _ (hturn.ready_of_mem selfParented_mono hin)
      rw [Set.empty_union]
      exact hp
    have horder := hgreedy.inTurn_of_subset (List.nodup_finRange _) ?_
    · rw [← Set.union_empty (∅ : Set Doc), ← Set.image_empty docs.get]
      apply horder.map docs.get
      intro i _ S hready
      rw [Set.image_empty, Set.empty_union]
      exact selfParented_of_provided h (hclosed i) hready
    · intro order _ hstuck i hi
      refine hstuck.covers docs.get provided_mono ?_ ?_ ?_ hturn ?_ i hi
        (hall (List.get_mem docs i))
      · intro S hS j _ hready
        apply provided_of_selfParented h ?_ hready
        intro d hd
        obtain ⟨m, -, rfl⟩ := hS d hd
        exact List.get_mem docs m
      · exact fun a ha => absurd ha (Set.notMem_empty a)
      · exact fun j _ hj => absurd hj (Set.notMem_empty _)
      · intro a ha
        obtain ⟨j, rfl⟩ := List.get_of_mem (hp ha)
        exact ⟨j, List.mem_finRange j, rfl⟩

end Table

/-! ## All rows -/

variable {names : List String} {docs : String → List Doc} {rows : List (String × Doc)}

/-- The rows of one table in a list. -/
def rowsIn (n : String) (rows : List (String × Doc)) : List Doc :=
  rows.filterMap fun row => if row.1 = n then some row.2 else none

@[simp] theorem mem_rowsIn {n : String} {doc : Doc} : doc ∈ rowsIn n rows ↔ (n, doc) ∈ rows := by
  unfold rowsIn
  rw [List.mem_filterMap]
  constructor
  · rintro ⟨⟨m, d⟩, hrow, hd⟩
    split at hd
    · rename_i hm
      obtain rfl : m = n := hm
      cases hd
      exact hrow
    · cases hd
  · intro hrow
    exact ⟨(n, doc), hrow, if_pos rfl⟩

/-- The rows of one table come after their parents among themselves. -/
theorem inTurn_rowsIn (n : String) {done : Set (String × Doc)}
    (h : InTurn (Parented env fks) done rows) :
    InTurn (SelfParented env (selfFks n (fks n))) {doc | (n, doc) ∈ done} (rowsIn n rows) := by
  induction rows generalizing done with
  | nil => trivial
  | cons row rows ih =>
    obtain ⟨m, doc⟩ := row
    have hrest := ih h.2
    by_cases hm : m = n
    · subst hm
      have hcons : rowsIn m ((m, doc) :: rows) = doc :: rowsIn m rows :=
        List.filterMap_cons_some (if_pos rfl)
      have hset : {d | (m, d) ∈ insert (m, doc) done} = insert doc {d | (m, d) ∈ done} := by
        ext d
        simp
      rw [hset] at hrest
      rw [hcons]
      refine ⟨fun fk hfk v hv => ?_, hrest⟩
      obtain ⟨hfk, href⟩ := List.mem_filter.mp hfk
      obtain ⟨parent, hin, hmatch⟩ := h.1 fk hfk v hv
      rw [of_decide_eq_true href] at hin
      exact ⟨parent, hset ▸ hin, hmatch⟩
    · have hcons : rowsIn n ((m, doc) :: rows) = rowsIn n rows :=
        List.filterMap_cons_none (if_neg hm)
      have hset : {d | (n, d) ∈ insert (m, doc) done} = {d | (n, d) ∈ done} := by
        ext d
        simp [Ne.symm hm]
      rw [hset] at hrest
      rwa [hcons]

/-- What a replay stores. -/
theorem replayRows_stored {stored' : String → List Doc}
    (h : replayRows env fks stored rows = .ok stored') (n : String) :
    stored' n = stored n ++ rowsIn n rows := by
  induction rows generalizing stored with
  | nil =>
    cases h
    exact (List.append_nil _).symm
  | cons row rows ih =>
    rw [replayRows, List.foldlM_cons] at h
    obtain ⟨placed, hrow, h⟩ := Except.bind_eq_ok_iff.mp h
    obtain ⟨_, -, hplaced⟩ := Except.bind_eq_ok_iff.mp hrow
    cases hplaced
    rw [ih h]
    by_cases hn : row.1 = n
    · subst hn
      have hcons : rowsIn row.1 (row :: rows) = row.2 :: rowsIn row.1 rows :=
        List.filterMap_cons_some (if_pos rfl)
      rw [hcons, Function.update_self, List.append_assoc, List.singleton_append]
    · have hcons : rowsIn n (row :: rows) = rowsIn n rows :=
        List.filterMap_cons_none (if_neg hn)
      rw [hcons, Function.update_of_ne (Ne.symm hn)]

/-- The rows as they are stored. -/
def storedRows (names : List String) (docs : String → List Doc) : List (String × Doc) :=
  names.flatMap fun n => (docs n).map fun doc => (n, doc)

@[simp] theorem mem_storedRows {n : String} {doc : Doc} :
    (n, doc) ∈ storedRows names docs ↔ n ∈ names ∧ doc ∈ docs n := by
  simp [storedRows]

theorem rowsIn_append (n : String) (rows rows' : List (String × Doc)) :
    rowsIn n (rows ++ rows') = rowsIn n rows ++ rowsIn n rows' := List.filterMap_append

theorem rowsIn_map (m n : String) (ds : List Doc) :
    rowsIn n (ds.map fun doc => (m, doc)) = if m = n then ds else [] := by
  unfold rowsIn
  rw [List.filterMap_map]
  by_cases hm : m = n
  · rw [if_pos hm]
    exact (List.filterMap_congr fun doc _ => if_pos hm).trans List.filterMap_some
  · rw [if_neg hm]
    exact List.filterMap_eq_nil_iff.mpr fun doc _ => if_neg hm

theorem rowsIn_storedRows (hnames : names.Nodup) {n : String} (hn : n ∈ names) :
    rowsIn n (storedRows names docs) = docs n := by
  induction names with
  | nil => cases hn
  | cons m names ih =>
    obtain ⟨hm, hnodup⟩ := List.nodup_cons.mp hnames
    show rowsIn n ((docs m).map (fun doc => (m, doc)) ++ storedRows names docs) = docs n
    rw [rowsIn_append, rowsIn_map]
    rcases List.mem_cons.mp hn with rfl | hn
    · have hnone : rowsIn n (storedRows names docs) = [] := by
        apply List.eq_nil_iff_forall_not_mem.mpr
        intro doc hdoc
        exact hm (mem_storedRows.mp (mem_rowsIn.mp hdoc)).1
      rw [if_pos rfl, hnone, List.append_nil]
    · have hne : m ≠ n := fun h => hm (h ▸ hn)
      rw [if_neg hne, List.nil_append, ih hnodup hn]

theorem dumpRows_perm :
    (dumpRows env names fks docs).Perm (storedRows names docs) := by
  unfold dumpRows storedRows
  apply List.Perm.flatMap (fkDependencyOrder_greedy names (parentsOf fks)).1
  intro n _
  exact (selfRefRowOrder_perm env n (fks n) (docs n)).map _

/-- Different tables refer to each other without cycles. -/
def Acyclic (names : List String) (parents : String → List String) : Prop :=
  WellFounded fun p n => n ∈ names ∧ p ∈ names ∧ p ≠ n ∧ p ∈ parents n

theorem fkDependencyOrder_inTurn {parents : String → List String} (hnames : names.Nodup)
    (h : Acyclic names parents) :
    InTurn (Referable names parents) ∅ (fkDependencyOrder names parents) := by
  apply (fkDependencyOrder_greedy names parents).inTurn_of_wellFounded hnames h
  intro done n hn hbelow p hp
  by_cases hself : p = n
  · exact .inl hself
  · by_cases hin : p ∈ names
    · exact .inr (.inr (hbelow p hin ⟨hn, hin, hself, hp⟩))
    · exact .inr (.inl hin)

/-- Tables in turn, and the rows of each in turn, put all rows in turn. -/
theorem inTurn_blocks (hall : ∀ row, row ∈ rows ↔ row.1 ∈ names ∧ row.2 ∈ docs row.1)
    (hparents : ∀ row ∈ rows, Parented env fks {row | row ∈ rows} row)
    {block : String → List Doc} (hmem : ∀ n ∈ names, ∀ doc, doc ∈ block n ↔ doc ∈ docs n)
    (hblock : ∀ n ∈ names, InTurn (SelfParented env (selfFks n (fks n))) ∅ (block n))
    {order : List String} {came : Set String} (horder : order ⊆ names)
    (hturn : InTurn (Referable names (parentsOf fks)) came order) :
    InTurn (Parented env fks) {row | row.1 ∈ came ∧ row ∈ rows}
      (order.flatMap fun n => (block n).map fun doc => (n, doc)) := by
  induction order generalizing came with
  | nil => trivial
  | cons n order ih =>
    obtain ⟨hn, horder⟩ := List.cons_subset.mp horder
    rw [List.flatMap_cons]
    apply inTurn_append.mpr
    constructor
    · rw [← Set.union_empty {row : String × Doc | row.1 ∈ came ∧ row ∈ rows},
        ← Set.image_empty fun doc => (n, doc)]
      apply (hblock n hn).map
      intro doc hdoc S hself fk hfk v hv
      by_cases href : fk.refTable = n
      · obtain ⟨parent, hin, hmatch⟩ :=
          hself fk (List.mem_filter.mpr ⟨hfk, decide_eq_true href⟩) v hv
        refine ⟨parent, ?_, hmatch⟩
        rw [href]
        rcases hin with rfl | hin
        · exact Set.mem_insert _ _
        · exact Set.mem_insert_of_mem _ (.inr ⟨parent, hin, rfl⟩)
      · -- The tables the row refers to came before with all their rows.
        have hrow : (n, doc) ∈ rows := (hall (n, doc)).mpr ⟨hn, (hmem n hn doc).mp hdoc⟩
        obtain ⟨parent, hin, hmatch⟩ := hparents (n, doc) hrow fk hfk v hv
        have hin : (fk.refTable, parent) ∈ rows := by
          rcases hin with hin | hin
          · exact absurd (Prod.ext_iff.mp hin).1 href
          · exact hin
        refine ⟨parent, Set.mem_insert_of_mem _ (.inl ⟨?_, hin⟩), hmatch⟩
        rcases hturn.1 fk.refTable (List.mem_map.mpr ⟨fk, hfk, rfl⟩) with h | h | h
        · exact absurd h href
        · exact absurd ((hall _).mp hin).1 h
        · exact h
    · refine (ih horder hturn.2).mono parented_mono ?_
      rintro ⟨m, doc⟩ ⟨hm, hrow⟩
      rcases hm with rfl | hm
      · refine .inr (List.mem_map.mpr ⟨doc, ?_, rfl⟩)
        exact (hmem m hn doc).mpr ((hall _).mp hrow).2
      · exact .inl ⟨hm, hrow⟩

/-- A dump restores the rows of all tables whenever there is an order in which they can be
inserted at all. -/
theorem replayRows_dumpRows_iff (env : Env Doc) {names : List String}
    {fks : String → List ForeignKey} {docs : String → List Doc} (hnames : names.Nodup)
    (hacyclic : Acyclic names (parentsOf fks))
    (hkeyed : ∀ n ∈ names, Keyed env (selfFks n (fks n)) (docs n)) :
    (∃ stored, replayRows env fks (fun _ => []) (dumpRows env names fks docs) = .ok stored ∧
        ∀ n ∈ names, (stored n).Perm (docs n)) ↔
      ∃ rows, rows.Perm (storedRows names docs) ∧
        ∃ stored, replayRows env fks (fun _ => []) rows = .ok stored := by
  have hnone : rowsOf (fun _ => ([] : List Doc)) = ∅ := by
    ext row
    simp [rowsOf]
  constructor
  · rintro ⟨stored, hreplay, -⟩
    exact ⟨_, dumpRows_perm, stored, hreplay⟩
  · rintro ⟨rows, hperm, hreplay⟩
    have hturn := replayRows_ok_iff.mp hreplay
    rw [hnone] at hturn
    have hall (row : String × Doc) : row ∈ rows ↔ row.1 ∈ names ∧ row.2 ∈ docs row.1 :=
      hperm.mem_iff.trans mem_storedRows
    have hparents (row : String × Doc) (hrow : row ∈ rows) :
        Parented env fks {row | row ∈ rows} row := by
      have h := hturn.ready_of_mem parented_mono hrow
      rwa [Set.empty_union] at h
    have hblock (n : String) (hn : n ∈ names) : InTurn (SelfParented env (selfFks n (fks n))) ∅
        (selfRefRowOrder env n (fks n) (docs n)) := by
      refine selfRefRowOrder_inTurn (hkeyed n hn) (fun doc hdoc => ?_) (fun doc hdoc => ?_)
        (inTurn_rowsIn n hturn)
      · exact ((hall _).mp (mem_rowsIn.mp hdoc)).2
      · exact mem_rowsIn.mpr ((hall (n, doc)).mpr ⟨hn, hdoc⟩)
    have horder := fkDependencyOrder_inTurn hnames hacyclic
    have hdump := inTurn_blocks hall hparents
      (fun n _ doc => (selfRefRowOrder_perm env n (fks n) (docs n)).mem_iff) hblock
      (fkDependencyOrder_greedy names (parentsOf fks)).1.subset horder
    have hdone : {row : String × Doc | row.1 ∈ (∅ : Set String) ∧ row ∈ rows} = ∅ := by
      ext row
      simp
    rw [hdone, ← hnone] at hdump
    obtain ⟨stored, hstored⟩ := replayRows_ok_iff.mpr hdump
    refine ⟨stored, hstored, fun n hn => ?_⟩
    rw [replayRows_stored hstored n, List.nil_append]
    apply (dumpRows_perm.filterMap _).trans
    exact .of_eq (rowsIn_storedRows hnames hn)

/-- A clerk, stored before their boss. -/
def clerk : Index.NumberRow := [("id", 1), ("boss", 2)]

def boss : Index.NumberRow := [("id", 2)]

def bossKey : ForeignKey := ⟨"boss", "staff", "id", .none, .none⟩

theorem acyclic_singleton (n : String) (parents : String → List String) : Acyclic [n] parents := by
  refine ⟨fun m => ⟨m, ?_⟩⟩
  rintro p ⟨hm, hp, hne, -⟩
  rw [List.mem_singleton] at hm hp
  exact absurd (hp.trans hm.symm) hne

theorem replayRows_dumpRows_staff :
    ∃ stored, replayRows Index.numberEnv (fun _ => [bossKey]) (fun _ => [])
        (dumpRows Index.numberEnv ["staff"] (fun _ => [bossKey]) fun _ => [clerk, boss]) =
          .ok stored ∧
      ∀ n ∈ ["staff"], (stored n).Perm [clerk, boss] := by
  refine (replayRows_dumpRows_iff Index.numberEnv (List.nodup_singleton _)
    (acyclic_singleton "staff" _) fun n hn => ?_).mpr
      ⟨[("staff", boss), ("staff", clerk)], .swap _ _ _, _, rfl⟩
  rw [List.mem_singleton.mp hn]
  apply keyed_of_ints
  · simp [selfFks, bossKey]
  · intro fk _ doc _ v hv
    have hget : ∃ col, Index.numberEnv.get doc col = some v :=
      hv.elim (fun h => ⟨_, (nonNull_eq_some.mp h).1⟩) fun h => ⟨_, (nonNull_eq_some.mp h).1⟩
    obtain ⟨col, hget⟩ := hget
    obtain ⟨i, -, rfl⟩ := Option.map_eq_some_iff.mp hget
    exact ⟨i, rfl⟩

end Docsql.Dump
