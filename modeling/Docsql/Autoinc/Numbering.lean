import Docsql.Value

/-!
# Numbering rows

How an AUTOINCREMENT column counts: the watermark of a table, the ids a statement gives to its
rows, and the same count over unbounded integers, which the machine count follows up to the
largest integer.
-/

namespace Docsql.Autoinc

/-- A document by its fields. -/
abbrev Doc := String → Option Value

/-- The id in the column, if it is an integer. -/
def idOf (col : String) (d : Doc) : Option Int64 :=
  match d col with
  | some (.int i) => some i
  | _ => none

def idsOf (autoinc : Option String) (docs : List Doc) : List Int64 :=
  match autoinc with
  | some col => docs.filterMap (idOf col)
  | none => []

/-- `saturating_add(1)` -/
def saturatingSucc (i : Int64) : Int64 := if i = Int64.maxValue then i else i + 1

/-- The largest id, and zero if there is none above. -/
def maxId (ids : List Int64) : Int64 := ids.foldl max 0

/-! ## Machine integers -/

theorem toInt_max (a b : Int64) : (max a b).toInt = max a.toInt b.toInt := by
  change (if a ≤ b then b else a).toInt = _
  split_ifs with h
  · rw [max_eq_right (Int64.le_iff_toInt_le.mp h)]
  · rw [Int64.le_iff_toInt_le] at h
    rw [max_eq_left (by omega)]

theorem toInt_succ {i : Int64} (h : i ≠ Int64.maxValue) : (i + 1).toInt = i.toInt + 1 := by
  have hmax : i.toInt ≠ 2 ^ 63 - 1 := by
    rw [← Int64.toInt_maxValue]
    exact fun heq => h (Int64.toInt_inj.mp heq)
  have hle := Int64.toInt_lt i
  have hge := Int64.le_toInt i
  rw [Int64.toInt_add, Int64.toInt_one]
  exact Int.bmod_eq_of_le (by omega) (by omega)

theorem toInt_saturatingSucc (i : Int64) :
    (saturatingSucc i).toInt = min (i.toInt + 1) Int64.maxValue.toInt := by
  have hle := Int64.toInt_le i
  unfold saturatingSucc
  split_ifs with h
  · rw [h]
    omega
  · rw [toInt_succ h]
    have hne : i.toInt ≠ Int64.maxValue.toInt := fun heq => h (Int64.toInt_inj.mp heq)
    omega

theorem le_foldl_max (ids : List Int64) (a : Int64) :
    a.toInt ≤ (ids.foldl max a).toInt ∧ ∀ i ∈ ids, i.toInt ≤ (ids.foldl max a).toInt := by
  induction ids generalizing a with
  | nil => exact ⟨le_rfl, nofun⟩
  | cons x ids ih =>
    obtain ⟨hstart, hall⟩ := ih (max a x)
    rw [toInt_max] at hstart
    refine ⟨by rw [List.foldl_cons]; omega, fun i hi => ?_⟩
    rw [List.foldl_cons]
    rcases List.mem_cons.mp hi with rfl | hi
    · omega
    · exact hall i hi

theorem le_maxId {ids : List Int64} {i : Int64} (h : i ∈ ids) : i.toInt ≤ (maxId ids).toInt :=
  (le_foldl_max ids 0).2 i h

/-! ## The ids of a statement -/

/-- What a row says about its id. -/
inductive RowId where
  /-- Nothing, or NULL: the id is generated. -/
  | generated
  | explicit (v : Int64)
  /-- A value that is no integer. -/
  | other
deriving DecidableEq

namespace RowId

/-- The id of a row at the watermark. -/
def id (next : Int64) : RowId → Option Int64
  | generated => some next
  | explicit v => some v
  | other => none

/-- The watermark behind a row. -/
def advance (next : Int64) : RowId → Int64
  | generated => saturatingSucc next
  | explicit v => max next (saturatingSucc v)
  | other => next

/-- The watermark behind a row, counted without bound. -/
def advanceExact (next : ℤ) : RowId → ℤ
  | generated => next + 1
  | explicit v => max next (v.toInt + 1)
  | other => next

/-- What a field says about the id. -/
def ofField : Option Value → RowId
  | none | some .null => generated
  | some (.int v) => explicit v
  | some _ => other

end RowId

/-- The ids that counting without bound would generate. -/
def generatedIds : ℤ → List RowId → List ℤ
  | _, [] => []
  | next, .generated :: rows => next :: generatedIds (next + 1) rows
  | next, row :: rows => generatedIds (row.advanceExact next) rows

/-- The documents are numbered from the watermark on. -/
inductive Numbered (col : String) : Int64 → List RowId → List Doc → Int64 → Prop
  | nil {next} : Numbered col next [] [] next
  | cons {next row rows d docs next'} : idOf col d = row.id next →
      Numbered col (row.advance next) rows docs next' →
      Numbered col next (row :: rows) (d :: docs) next'

/-! ## The machine count follows the exact one -/

/-- The machine watermark is the exact one, up to the largest integer. -/
def Follows (next : Int64) (exact : ℤ) : Prop :=
  next.toInt = min exact Int64.maxValue.toInt

/-- The ids are below the exact watermark. -/
def Below (exact : ℤ) (ids : List Int64) : Prop := ∀ i ∈ ids, i.toInt < exact

theorem Follows.advance {next : Int64} {exact : ℤ} (h : Follows next exact) (row : RowId) :
    Follows (row.advance next) (row.advanceExact exact) := by
  unfold Follows at h ⊢
  cases row with
  | generated =>
    change (saturatingSucc next).toInt = min (exact + 1) _
    rw [toInt_saturatingSucc]
    omega
  | explicit v =>
    have hv := Int64.toInt_le v
    change (max next (saturatingSucc v)).toInt = min (max exact (v.toInt + 1)) _
    rw [toInt_max, toInt_saturatingSucc]
    omega
  | other => exact h

theorem le_advanceExact (exact : ℤ) (row : RowId) : exact ≤ row.advanceExact exact := by
  cases row with
  | generated => exact Int.le_add_one le_rfl
  | explicit v => exact le_max_left _ _
  | other => exact le_rfl

theorem id_lt_advanceExact {next : Int64} {exact : ℤ} (h : Follows next exact) {row : RowId}
    {i : Int64} (hi : row.id next = some i) : i.toInt < row.advanceExact exact := by
  cases row with
  | generated =>
    cases hi
    unfold Follows at h
    change next.toInt < exact + 1
    omega
  | explicit v =>
    cases hi
    exact lt_of_lt_of_le (Int.lt_add_one_iff.mpr le_rfl) (le_max_right _ _)
  | other => cases hi

/-- The exact watermark behind the rows. -/
def exactEnd (exact : ℤ) (rows : List RowId) : ℤ := rows.foldl RowId.advanceExact exact

theorem le_exactEnd (exact : ℤ) (rows : List RowId) : exact ≤ exactEnd exact rows := by
  induction rows generalizing exact with
  | nil => exact le_rfl
  | cons row rows ih => exact (le_advanceExact exact row).trans (ih _)

/-- All ids of numbered documents are below the exact watermark behind them, which the machine
watermark follows. -/
theorem Numbered.ids_below {col : String} {next next' : Int64} {rows : List RowId} {docs : List Doc}
    {exact : ℤ} (h : Numbered col next rows docs next') (hfollows : Follows next exact) :
    Below (exactEnd exact rows) (docs.filterMap (idOf col)) ∧
      Follows next' (exactEnd exact rows) := by
  induction h generalizing exact with
  | nil => exact ⟨nofun, hfollows⟩
  | @cons next row rows d docs next' hid _ ih =>
    obtain ⟨hbelow, hend⟩ := ih (hfollows.advance row)
    refine ⟨fun i hi => ?_, hend⟩
    rw [List.filterMap_cons, hid] at hi
    cases hrow : row.id next with
    | none =>
      rw [hrow] at hi
      exact hbelow i hi
    | some j =>
      rw [hrow] at hi
      rcases List.mem_cons.mp hi with rfl | hi
      · exact (id_lt_advanceExact hfollows hrow).trans_le (le_exactEnd _ _)
      · exact hbelow i hi

/-- A generated id is new: it differs from those in front of it and from those taken before. -/
def FreshAmong (col : String) (taken : List Doc) (rows : List RowId) (docs : List Doc) : Prop :=
  (rows.zip docs).Pairwise (fun a b => b.1 = .generated → a.2 col ≠ b.2 col) ∧
    ∀ b ∈ rows.zip docs, b.1 = .generated → ∀ d ∈ taken, d col ≠ b.2 col

theorem idOf_congr {col : String} {a b : Doc} (h : a col = b col) : idOf col a = idOf col b := by
  unfold idOf
  rw [h]

/-- If no id beyond the largest integer would be generated, the generated ids are new. -/
theorem Numbered.fresh {col : String} {next next' : Int64} {rows : List RowId} {docs : List Doc}
    {exact : ℤ} (h : Numbered col next rows docs next') (hfollows : Follows next exact)
    (hroom : ∀ i ∈ generatedIds exact rows, i ≤ Int64.maxValue.toInt) {taken : List Doc}
    (htaken : Below exact (taken.filterMap (idOf col))) : FreshAmong col taken rows docs := by
  induction h generalizing exact taken with
  | nil => exact ⟨.nil, nofun⟩
  | @cons next row rows d docs next' hid _ ih =>
    have hroom' : ∀ i ∈ generatedIds (row.advanceExact exact) rows, i ≤ Int64.maxValue.toInt := by
      intro i hi
      refine hroom i ?_
      cases row with
      | generated => exact List.mem_cons_of_mem _ hi
      | explicit v => exact hi
      | other => exact hi
    have htaken' : Below (row.advanceExact exact) ((d :: taken).filterMap (idOf col)) := by
      intro i hi
      rw [List.filterMap_cons, hid] at hi
      cases hrow : row.id next with
      | none =>
        rw [hrow] at hi
        exact (htaken i hi).trans_le (le_advanceExact _ _)
      | some j =>
        rw [hrow] at hi
        rcases List.mem_cons.mp hi with rfl | hi
        · exact id_lt_advanceExact hfollows hrow
        · exact (htaken i hi).trans_le (le_advanceExact _ _)
    obtain ⟨hpair, htail⟩ := ih (hfollows.advance row) hroom' htaken'
    refine ⟨.cons (fun b hb hgen => htail b hb hgen d List.mem_cons_self) hpair, ?_⟩
    intro b hb hgen x hx heq
    rcases List.mem_cons.mp hb with rfl | hb
    · obtain rfl : row = .generated := hgen
      have hle : exact ≤ Int64.maxValue.toInt := hroom exact List.mem_cons_self
      have hnext : next.toInt = exact := hfollows.trans (min_eq_left hle)
      have hx' : idOf col x = some next := (idOf_congr heq).trans hid
      have hlt := htaken next (List.mem_filterMap.mpr ⟨x, hx, hx'⟩)
      omega
    · exact htail b hb hgen x (List.mem_cons_of_mem _ hx) heq

end Docsql.Autoinc

/-!
# Statements on an AUTOINCREMENT table

What each statement reads of the watermark cache, which rows it leaves and what it does with the
cache: `exec_insert`, `exec_update_fast`, `exec_delete_fast`, `exec_merge`, and `rewrite_table`
for everything that builds a table anew.  Which rows conflict, match or survive is decided
elsewhere and a parameter here.
-/

namespace Docsql.Autoinc

structure Table where
  autoinc : Option String
  docs : List Doc

/-- The cached watermark, else one above the largest live id; `max + 1` wraps around. -/
def autoincNextFor (table : Table) (cached : Option Int64) : Int64 :=
  cached.getD (maxId (idsOf table.autoinc table.docs) + 1)

/-! ## INSERT -/

/-- The columns of the documents: the AUTOINCREMENT column is appended if it is omitted. -/
def insertColumns (autoinc : Option String) (columns : List String) : List String :=
  match autoinc with
  | some col => if col ∈ columns then columns else columns ++ [col]
  | none => columns

/-- The row with its id, and the watermark behind it. -/
def assignRow (autoinc : Option String) (columns : List String) (next : Int64)
    (row : List Value) : List Value × Int64 :=
  match autoinc with
  | none => (row, next)
  | some col =>
    if col ∈ columns then
      match row[columns.idxOf col]? with
      | some .null | none => (row.set (columns.idxOf col) (.int next), saturatingSucc next)
      | some (.int v) => (row, max next (saturatingSucc v))
      | some _ => (row, next)
    else (row ++ [.int next], saturatingSucc next)

def assignRows (autoinc : Option String) (columns : List String) :
    Int64 → List (List Value) → List (List Value) × Int64
  | next, [] => ([], next)
  | next, row :: rows =>
    let first := assignRow autoinc columns next row
    let rest := assignRows autoinc columns first.2 rows
    (first.1 :: rest.1, rest.2)

/-- `columns.zip(row).collect()`; no column is named twice. -/
def docOf (columns : List String) (row : List Value) : Doc :=
  fun c => (columns.zip row).lookup c

/-- What the probes of the unique trees decide about a candidate. -/
inductive Resolution where
  | error
  | skip
  | update (row : ℕ) (values : List Value)
  | place

structure InsertStmt where
  table : String
  columns : List String
  rows : List (List Value)
  /-- Defaults are filled in and the constraints of the row hold. -/
  complete : Doc → Option Doc
  complete_keeps : ∀ d d' c v, complete d = some d' → d c = some v → d' c = some v
  /-- The old rows that `REPLACE` does not displace. -/
  survives : ℕ → Bool
  /-- The candidates that no later one of a `REPLACE` shadows. -/
  kept : ℕ → Bool
  /-- The columns that the upsert arm assigns. -/
  assigned : Option (List String)
  resolve : List Doc → Doc → Resolution

/-- The elements at the places that are kept. -/
def keepAt {α : Type} (p : ℕ → Bool) (xs : List α) : List α :=
  (xs.zipIdx.filter fun x => p x.2).map Prod.fst

/-- The fields are assigned in turn. -/
def setFields (cols : List String) (values : List Value) (d : Doc) : Doc :=
  (cols.zip values).foldl (fun d p => Function.update d p.1 (some p.2)) d

namespace InsertStmt

variable (s : InsertStmt)

/-- The documents of the rows and the watermark behind them. -/
def documents (autoinc : Option String) (next : Int64) : Option (List Doc × Int64) :=
  if s.rows.all fun row => row.length = s.columns.length then do
    let assigned := assignRows autoinc s.columns next s.rows
    let docs ← assigned.1.mapM fun row => s.complete (docOf (insertColumns autoinc s.columns) row)
    return (docs, assigned.2)
  else none

/-- The candidates in turn: the rows they leave, and those that are placed. -/
def placeRows : List Doc → List Doc → Option (List Doc × List Doc)
  | staged, [] => some (staged, [])
  | staged, d :: docs =>
    match s.resolve staged d with
    | .error => none
    | .skip => placeRows staged docs
    | .update i values =>
      match s.assigned, staged[i]? with
      | some cols, some existing => placeRows (staged.set i (setFields cols values existing)) docs
      | _, _ => none
    | .place => do
      let out ← placeRows (staged ++ [d]) docs
      return (out.1, d :: out.2)

def write (old docs : List Doc) : Option (List Doc × List Doc) :=
  s.placeRows (keepAt s.survives old) (keepAt s.kept docs)

end InsertStmt

/-! ## The cache -/

/-- What a statement does with the cache entry of its table. -/
inductive Mark where
  | keep
  | forget
  | set (n : Int64)

def Mark.apply : Mark → Option Int64 → Option Int64
  | keep, n => n
  | forget, _ => none
  | set n, _ => some n

/-- The largest successor of a placed id, and at least the watermark of the statement. -/
def usedIds (col : String) (placed : List Doc) (next : Int64) : Int64 :=
  max ((((placed.filterMap (idOf col)).map saturatingSucc).max?).getD next) next

/-- The cache behind an `INSERT`. -/
def insertMark (autoinc : Option String) (assigned : Option (List String)) (placed : List Doc)
    (next : Int64) : Mark :=
  match autoinc with
  | none => .keep
  | some col =>
    if assigned.any fun cols => col ∈ cols then .forget else .set (usedIds col placed next)

/-! ## UPDATE, DELETE and MERGE -/

/-- `assigned` are the columns of the `SET` list, `change` the values for the rows that match. -/
structure UpdateStmt where
  table : String
  assigned : List String
  change : ℕ → Option (List Value)

def updateDocs (assigned : List String) (change : ℕ → Option (List Value)) (docs : List Doc) :
    List Doc :=
  docs.mapIdx fun i d =>
    match change i with
    | some values => setFields assigned values d
    | none => d

structure DeleteStmt where
  table : String
  survives : ℕ → Bool

/-- The table is built anew: generic `UPDATE` and `DELETE`, a step of a referential plan,
`TRUNCATE`, `ALTER TABLE`; `guarded` are the other tables of the plan. -/
structure RewriteStmt where
  table : String
  guarded : List String
  autoinc : Option String
  docs : List Doc

/-- `rows` are the documents of the `INSERT` arm. -/
structure MergeStmt where
  table : String
  assigned : List String
  change : ℕ → Option (List Value)
  rows : List Doc
  complete : Doc → Option Doc
  complete_keeps : ∀ d d' c v, complete d = some d' → d c = some v → d' c = some v

/-- The documents with their ids, the watermark behind them, and whether a row brought its own. -/
def mergeRows (col : String) : Int64 → List Doc → List Doc × Int64 × Bool
  | next, [] => ([], next, false)
  | next, d :: docs =>
    match d col with
    | some .null | none =>
      let rest := mergeRows col (saturatingSucc next) docs
      (Function.update d col (some (.int next)) :: rest.1, rest.2)
    | some (.int v) =>
      let rest := mergeRows col (max next (saturatingSucc v)) docs
      (d :: rest.1, rest.2.1, true)
    | some _ =>
      let rest := mergeRows col next docs
      (d :: rest.1, rest.2.1, true)

/-- The rows of the `INSERT` arm, the watermark behind them, and whether one brought its id. -/
def MergeStmt.inserted (s : MergeStmt) (autoinc : Option String) (next : Int64) :
    Option (List Doc × Int64 × Bool) :=
  match autoinc with
  | none => do return (← s.rows.mapM s.complete, 0, false)
  | some col => do
    let out := mergeRows col next s.rows
    return (← out.1.mapM s.complete, out.2)

/-- The cache behind a `MERGE`. -/
def mergeMark (autoinc : Option String) (mutated : Bool) (inserted : List Doc) (next : Int64) :
    Mark :=
  match autoinc with
  | none => .keep
  | some col =>
    if mutated then .forget
    else if inserted.any fun d => (idOf col d).isSome then .set next
    else .keep

/-! ## Statements -/

inductive Statement where
  | insert (s : InsertStmt)
  | update (s : UpdateStmt)
  | delete (s : DeleteStmt)
  | rewrite (s : RewriteStmt)
  | merge (s : MergeStmt)

def Statement.target : Statement → String
  | insert s => s.table
  | update s => s.table
  | delete s => s.table
  | rewrite s => s.table
  | merge s => s.table

/-- The tables that no trigger body may write while the statement runs. -/
def Statement.guarded : Statement → List String
  | rewrite s => s.guarded
  | _ => []

/-- What a statement commits, and the cache at the commit and behind its last trigger. -/
structure Write where
  autoinc : Option String
  docs : List Doc
  atCommit : Mark
  /-- Triggers fire behind the commit. -/
  after : Bool
  atEnd : Mark

/-- The cache entry with which a statement starts. -/
def Statement.starts (table : Table) (cached : Option Int64) : Statement → Option Int64
  | insert _ => some (autoincNextFor table cached)
  | merge _ => if table.autoinc.isSome then some (autoincNextFor table cached) else cached
  | _ => cached

/-- What the statement commits on the rows of its table; none if it fails. -/
def Statement.plan (table : Table) (cached : Option Int64) : Statement → Option Write
  | insert s => do
    let numbered ← s.documents table.autoinc (autoincNextFor table cached)
    let out ← s.write table.docs numbered.1
    return ⟨table.autoinc, out.1, .keep, false,
      insertMark table.autoinc s.assigned out.2 numbered.2⟩
  | update s =>
    let touched := table.autoinc.any fun col => col ∈ s.assigned
    some ⟨table.autoinc, updateDocs s.assigned s.change table.docs, .keep, true,
      if touched then .forget else .keep⟩
  | delete s => some ⟨table.autoinc, keepAt s.survives table.docs, .forget, true, .keep⟩
  | rewrite s => some ⟨s.autoinc, s.docs, .forget, true, .keep⟩
  | merge s => do
    let inserted ← s.inserted table.autoinc (autoincNextFor table cached)
    let updates := table.docs.mapIdx fun i _ => (s.change i).isSome
    let touched := updates.any id && table.autoinc.any fun col => col ∈ s.assigned
    return ⟨table.autoinc, updateDocs s.assigned s.change table.docs ++ inserted.1, .keep, false,
      mergeMark table.autoinc (touched || inserted.2.2) inserted.1 inserted.2.1⟩

end Docsql.Autoinc
