import Docsql.Sql.Authorize
import Docsql.Sql.WriteSettled

/-!
# Authorization of writes

`authorize_statement` for INSERT, UPDATE, DELETE and MERGE: the privilege on the table that is
written, then a check of every table that `stmt_read_targets` reports, views replaced by what
they read.  The walk passes over the joins of FROM and USING and over the arm of an upsert.
-/

namespace Docsql.Sql

open Lib.Worklist (Visit drain)
open Rewrite (Steady)

/-! ## What is reported -/

section Walkers

variable (objects : String → Bool)

/-- The relations of FROM or USING; their joins are not looked at. -/
def walkHeads : List TableWithJoins → Walk
  | [] => .done
  | .mk relation _ :: rest => (walkFactor objects relation).andThen (walkHeads rest)

def walkSource : Option Query → Walk
  | none => .done
  | some q => walkQuery objects q

/-- `stmt_read_target_occurrences` for the statements that write. -/
def walkWrite : Write → Walk
  | .insert i => walkSource objects i.source
  | .update u =>
    ((walkExprs objects (u.assignments.map Assignment.value)).andThen
      (walkHeads objects (u.sources.getD []))).andThen (walkOpt objects u.selection)
  | .delete d => (walkHeads objects (d.usingList.getD [])).andThen (walkOpt objects d.selection)
  | .merge m =>
    (walkFactor objects m.source).andThen
      (walkExprs objects (m.clauses.filterMap MergeClause.predicate))

def Write.readTargets (w : Write) : Option (List String) :=
  let walk := walkWrite objects w
  if walk.ok then some (walk.names.dedup.mergeSort fun a b => (cmpStr a b).isLE) else none

theorem Write.mem_readTargets {w : Write} {sources : List String}
    (h : w.readTargets objects = some sources) :
    (walkWrite objects w).ok = true ∧ ∀ t, t ∈ sources ↔ t ∈ (walkWrite objects w).names := by
  unfold Write.readTargets at h
  dsimp only at h
  split at h
  · rename_i hok
    cases h
    exact ⟨hok, fun t => by rw [List.mem_mergeSort, List.mem_dedup]⟩
  · cases h

end Walkers

/-! ## What is not -/

section Missed

variable (cat : Catalog)

/-- The joins of FROM and USING are loaded like the rest. -/
def missedLoads : List TableWithJoins → List String
  | [] => []
  | .mk relation joins :: rest =>
    missedFactor cat [] [] relation ++
      (catalogNames cat ((joins.filterMap joinRelation).flatMap (readsFactor [])) ++
        missedLoads rest)

def missedSource : Option Query → List String
  | some (.mk ctes (.select s) orderBy tail) =>
    missedQuery cat [] [] [] (.mk ctes (.select s) orderBy tail)
  | _ => []

def missedWrite : Write → List String
  | .insert i => missedSource cat i.source ++ catalogNames cat (armReads i.arm)
  | .update u =>
    missedExprs cat [] (u.assignments.map Assignment.value) ++
      (missedLoads cat (u.sources.getD []) ++ missedOpt cat [] u.selection)
  | .delete d => missedLoads cat (d.usingList.getD []) ++ missedOpt cat [] d.selection
  | .merge m => missedFactor cat [] [] m.source

/-- No read of a write is missed, and none of the views it leads to. -/
def WriteReported (w : Write) : Prop :=
  missedWrite cat w = [] ∧ ∀ t ∈ readsWrite w, ViewsReported cat t

variable {cat}

theorem accounted_loads : ∀ sources : List TableWithJoins,
    (walkHeads cat.tableExists sources).ok = true →
      AllAccounted cat [] (loadReads sources) (missedLoads cat sources)
        (walkHeads cat.tableExists sources)
  | [], _ => .nil
  | .mk relation joins :: rest, h => by
    simp only [walkHeads, Walk.andThen_ok, Bool.and_eq_true] at h
    have hreads : loadReads (.mk relation joins :: rest) = readsFactor [] relation ++
        ((joins.filterMap joinRelation).flatMap (readsFactor []) ++ loadReads rest) := by
      simp [loadReads, loadedFactors]
    rw [hreads, missedLoads, walkHeads]
    refine (accounted_relation [] [] relation h.1).andThen h.1 ?_
    exact (AllAccounted.unwalked _ _).append (accounted_loads rest h.2)

theorem accounted_source : ∀ source : Option Query,
    (walkSource cat.tableExists source).ok = true →
      AllAccounted cat [] (sourceReads source) (missedSource cat source)
        (walkSource cat.tableExists source)
  | none, _ => .nil
  | some (.mk ctes body orderBy tail), h => by
    cases body with
    | select sel => exact accounted_query [] [] [] _ h
    | _ => exact .nil

/-- What a write reads is missed or reported. -/
theorem accounted_write (w : Write) (h : (walkWrite cat.tableExists w).ok = true) :
    AllAccounted cat [] (readsWrite w) (missedWrite cat w) (walkWrite cat.tableExists w) := by
  cases w with
  | insert i => exact (accounted_source i.source h).append (.unwalked _ _)
  | update u =>
    simp only [walkWrite, Walk.andThen_assoc, Walk.andThen_ok, Bool.and_eq_true] at h
    obtain ⟨hassignments, hloads, hselection⟩ := h
    rw [readsWrite, missedWrite, walkWrite, Walk.andThen_assoc]
    refine (accounted_exprs [] _ hassignments).andThen hassignments ?_
    exact (accounted_loads _ hloads).andThen hloads (accounted_opt [] _ hselection)
  | delete d =>
    simp only [walkWrite, Walk.andThen_ok, Bool.and_eq_true] at h
    rw [readsWrite, missedWrite, walkWrite]
    exact (accounted_loads _ h.1).andThen h.1 (accounted_opt [] _ h.2)
  | merge m =>
    simp only [walkWrite, Walk.andThen_ok, Bool.and_eq_true] at h
    rw [readsWrite, missedWrite, walkWrite]
    exact (accounted_relation [] [] m.source h.1).before h.1

theorem WriteReported.mem_sources {w : Write} {sources : List String} (h : WriteReported cat w)
    (hsources : w.readTargets cat.tableExists = some sources) {t : String}
    (ht : t ∈ readsWrite w) (hcat : cat.tableExists t = true) : t ∈ sources := by
  obtain ⟨hok, hmem⟩ := w.mem_readTargets _ hsources
  rcases accounted_write w hok t ht hcat with hmissed | hnamed
  · rw [h.1] at hmissed
    exact absurd hmissed List.not_mem_nil
  · exact (hmem t).2 hnamed.1

end Missed

/-! ## The check -/

def privInsert : UInt8 := 2

def privUpdate : UInt8 := 4

def privDelete : UInt8 := 8

def UserGrants.mayDml (g : UserGrants) (table : String) (bit : UInt8) : Bool :=
  g.readwrite ||
    (g.tablePrivs.find? fun p => eqIgnoreAsciiCase p.1 table).any fun p => p.2 &&& bit != 0

/-- `stmt_write_targets`. -/
def Write.writeTargets : Write → List String
  | .insert i => (i.table.map objName).toList
  | .update ⟨.mk relation _, _, _, _, _⟩ => (writtenTable relation).toList
  | .delete d => d.tables.filterMap fun t => match t with
    | .mk relation _ => writtenTable relation
  | .merge m => (writtenTable m.table).toList

section Check

variable (cat : Catalog) (g : UserGrants)

def checkDml (label : String) (bit : UInt8) (t : String) : Except String Unit :=
  if g.mayDml t bit then .ok ()
  else .error s!"{label} on table {t} requires the readwrite role or a table grant"

def MergeAction.bit : MergeAction → UInt8
  | .insert _ _ _ => privInsert
  | .update _ _ => privUpdate
  | .delete => privDelete

/-- The privileges of the arms a MERGE has. -/
def checkArms (m : Merge) (t : String) : Except String Unit :=
  let bits := m.clauses.foldl (fun bits c => bits ||| c.action.bit) 0
  [(privInsert, "INSERT"), (privUpdate, "UPDATE"), (privDelete, "DELETE")].forM fun b =>
    let arm := b.2
    if bits &&& b.1 != 0 && !g.mayDml t b.1 then
      .error s!"MERGE arm {arm} on table {t} requires the readwrite role or a table grant"
    else .ok ()

def checkWriteTargets (w : Write) : Except String Unit :=
  match w with
  | .insert _ => w.writeTargets.forM (checkDml g "INSERT" privInsert)
  | .update _ => w.writeTargets.forM (checkDml g "UPDATE" privUpdate)
  | .delete _ => w.writeTargets.forM (checkDml g "DELETE" privDelete)
  | .merge m => w.writeTargets.forM (checkArms g m)

/-- Only the SELECT of an INSERT can be attributed to one table. -/
def Write.attributed (singleTableQueryRefs : Query → Option (String × List String)) :
    Write → Option (String × List String)
  | .insert i => i.source.bind singleTableQueryRefs
  | _ => none

def checkSourceColumns (refs : Option (String × List String)) (sources : List String) :
    Except String Unit :=
  if sources.any g.isRestrictedSelect then
    match refs with
    | some (table, cols) => (sources.filter g.isRestrictedSelect).forM fun rt => do
      if eqIgnoreAsciiCase rt table then cols.forM (checkColumn table (g.grantedCols rt))
      else .error (s!"reading {rt} with column-restricted grants requires " ++
        "a single-table SELECT of exactly that table")
    | none => .error ("write sources cannot be authorized against column-restricted " ++
        "grants (only a plain single-table INSERT ... SELECT is attributable; wildcards, joins, " ++
        "subqueries, UPDATE and MERGE sources are not)")
  else .ok ()

/-- A view is no licence to write what it shows. -/
def visitSource (t : String) : Except String (Visit String) :=
  match viewBaseTables cat t with
  | some bases => .ok (.expand bases)
  | none => .ok .leaf

def expandSources (sources : List String) : Except String (List String) :=
  drain (visitSource cat) "view chain too deep to authorize" 16 { stack := sources.reverse }

/-- The write path of `authorize_statement`. -/
def authorizeWrite (singleTableQueryRefs : Query → Option (String × List String)) (w : Write) :
    Except String Unit :=
  if g.admin then .ok ()
  else do
    checkWriteTargets g w
    match w.readTargets cat.tableExists with
    | none => .error "this statement shape cannot be authorized for user connections"
    | some sources => do
      checkSourceColumns g (w.attributed singleTableQueryRefs) sources
      let sources ← expandSources cat sources
      sources.forM (checkTarget g)

end Check

section Accepted

variable {cat : Catalog} {g : UserGrants}

theorem visitSource_cases {t : String} {v : Visit String} (h : visitSource cat t = .ok v) :
    (v = .leaf ∧ viewBaseTables cat t = none) ∨
      ∃ bases, v = .expand bases ∧ viewBaseTables cat t = some bases := by
  unfold visitSource at h
  split at h
  · rename_i bases hview
    cases h
    exact .inr ⟨bases, rfl, hview⟩
  · rename_i hview
    cases h
    exact .inl ⟨rfl, hview⟩

/-- What an accepted write reports was checked, through all views. -/
theorem authorizeWrite_ok {refs : Query → Option (String × List String)} {w : Write}
    (hadmin : g.admin = false) (h : authorizeWrite cat g refs w = .ok ()) :
    ∃ sources seen, w.readTargets cat.tableExists = some sources ∧ (∀ t ∈ sources, t ∈ seen) ∧
      CheckedUpTo cat g (fun _ => False) seen := by
  unfold authorizeWrite at h
  rw [hadmin, if_neg Bool.false_ne_true] at h
  obtain ⟨_, -, h⟩ := Except.bind_eq_ok_iff.1 h
  split at h
  · cases h
  · rename_i sources hsources
    obtain ⟨_, -, h⟩ := Except.bind_eq_ok_iff.1 h
    obtain ⟨out, hexpand, hout⟩ := Except.bind_eq_ok_iff.1 h
    obtain ⟨seen, hinv, hseen⟩ :=
      Lib.Worklist.drain_spec (fun t ht => absurd ht List.not_mem_nil) hexpand
    refine ⟨sources, seen, hsources, fun t ht => hseen t (.inr (List.mem_reverse.2 ht)), ?_⟩
    intro t ht
    rcases hinv t ht with ⟨hvisit, hleaf⟩ | hvisit | ⟨next, hvisit, hnext⟩
    · rcases visitSource_cases hvisit with ⟨-, hview⟩ | ⟨bases, hexp, -⟩
      · exact .inl ⟨hview, checkTarget_ok (forM_ok hout t hleaf)⟩
      · cases hexp
    · rcases visitSource_cases hvisit with ⟨hleaf, -⟩ | ⟨bases, hexp, -⟩
      · cases hleaf
      · cases hexp
    · rcases visitSource_cases hvisit with ⟨hleaf, -⟩ | ⟨bases, hexp, hview⟩
      · cases hleaf
      · cases hexp
        exact .inr (.inr ⟨next, hview, fun s hs => (hnext s hs).resolve_right List.not_mem_nil⟩)

/-- The table written, what changing it consults, and what the user may read. -/
def WriteScope {σ : Type} (fx : Effects σ) (g : UserGrants) (w : Write) : Set String :=
  {r | r ∈ w.target ∨ (∃ t ∈ w.target, r ∈ fx.consults t) ∨ UserReadable g r}

end Accepted

/-! ## Examples of statements -/

/-- Columns of a joined row are found by their qualified names. -/
def qualifyDoc (key : String) (doc : Object) : Object := doc.map fun p => (key ++ "." ++ p.1, p.2)

def factorKey : TableFactor → String
  | .table name opts => opts.aliasName.getD (objName name)
  | _ => ""

def joinOps : RowOps :=
  { plainOps with
    eval := fun _ e doc => match e with
      | .atom (.value v) => .ok v
      | .atom (.ident name) => .ok ((List.lookup name doc).getD .null)
      | .atom (.compound q [name]) => .ok ((List.lookup (q ++ "." ++ name) doc).getD .null)
      | _ => .error "unsupported expression"
    qualifyBase := fun sources docs => match sources with
      | [.mk _ []] => docs
      | .mk relation _ :: _ => docs.map (qualifyDoc (factorKey relation))
      | [] => docs
    joinRows := fun _ _ _ relation rows docs _ _ =>
      .ok (rows.flatMap fun row => docs.map fun doc => row ++ qualifyDoc (factorKey relation) doc) }

/-- Enough to tell rows with numbers and texts apart. -/
def simpleKey (doc : Object) : List UInt8 :=
  doc.flatMap fun p => asBytes p.1 ++ match p.2 with
    | .int i => i64Bytes i
    | .str s => asBytes s
    | _ => []

/-- No indexes and no constraints. -/
def plainWriteOps : WriteOps where
  constRows _ cells := do
    let row ← cells.mapM fun e => match e with
      | .atom (.value v) => .ok v
      | _ => .error "unsupported expression"
    return [row]
  refsRownum _ := false
  callsNewid _ := false
  proposedInSubquery _ := false
  substituted _ := false
  isMatview _ := false
  referentialActionsReach _ := false
  indexProbe _ _ _ _ := .ok none
  checkDoc _ _ := .ok ()
  objectKey := simpleKey
  sourceAlias _ := none

def modifyRows (t : String) (f : Rows → Rows) : WriteCx Unit :=
  fun db => .ok ((), Function.update db t (f (db t)))

theorem modifyRows_steady {S : Set String} {t : String} (ht : t ∈ S) (f : Rows → Rows) :
    Steady S (modifyRows t f) := by
  intro db db' hdb
  refine .ok ⟨rfl, fun s hs => ?_⟩
  by_cases hst : s = t
  · subst hst
    simp only [Function.update_self, hdb ht]
  · simp only [Function.update_of_ne hst, hdb hs]

def sameId (a b : Object) : Bool :=
  match List.lookup "id" a, List.lookup "id" b with
  | some x, some y => cmpValues x y == .eq
  | _, _ => false

def replaceRows (updates : List (ℕ × Object × Object)) (rows : Rows) : Rows :=
  rows.map fun r => (r.1, ((List.lookup r.1 updates).map Prod.snd).getD r.2)

/-- Rows changed without constraints and triggers; `id` is the only key. -/
def storeEffects : Effects ℕ where
  consults _ := ∅
  perform t e := match e with
    | .newDocs _ columns rows => pure (rows.map columns.zip)
    | .displace _ docs => pure (0, docs)
    | .beforeInsert _ => pure ()
    | .conflict _ _ doc => do
      let rows ← Rewrite.look (Lookup.ask t)
      return rows.find? fun r => sameId r.2 doc
    | .upsert s loc existing merged => do
      modifyRows t (replaceRows [(loc, existing, merged)])
      return s + 1
    | .place s doc => do
      modifyRows t fun rows => rows ++ [(rows.length, doc)]
      return s + 1
    | .finishInsert _ s => return .affected s
    | .updateFast _ updates => do
      modifyRows t (replaceRows updates)
      return .affected updates.length
    | .rewrite _ _ out count => do
      modifyRows t fun _ => out.zipIdx.map Prod.swap
      return .affected count
    | .deleteFast _ targets => do
      modifyRows t fun rows => rows.filter fun r => r.1 ∉ targets.map Prod.fst
      return .affected targets.length
    | .remove _ kept removed => do
      modifyRows t fun _ => kept.zipIdx.map Prod.swap
      return .affected removed.length
    | .merge _ updates inserts => do
      let docs ← Rewrite.look (Lookup.lift (inserts.mapM id))
      modifyRows t fun rows => replaceRows updates rows ++
        docs.zipIdx.map fun p => (rows.length + p.2, p.1)
      return .affected (updates.length + docs.length)
  steady e ht _ := by
    cases e with
    | newDocs _ _ _ => exact .pure _
    | displace _ _ => exact .pure _
    | beforeInsert _ => exact .pure _
    | conflict _ _ _ => exact Steady.bind (.look (.ask ht)) fun _ => .pure _
    | finishInsert _ _ => exact .pure _
    | merge _ _ _ =>
      refine (look_lift_steady _).bind fun _ => ?_
      exact (modifyRows_steady ht _).bind fun _ => .pure _
    | _ => exact (modifyRows_steady ht _).bind fun _ => .pure _

def writeCatalog : Catalog :=
  [("docsql_users", ⟨["name", "pw"], none⟩), ("mine", ⟨["id", "v"], none⟩), ("x", ⟨["a"], none⟩)]

/-- May write one table and read another. -/
def writer : UserGrants :=
  { tablePrivs := [("mine", privInsert ||| privUpdate), ("x", privSelect)] }

/-- `UPDATE mine SET v = source FROM x joins`. -/
def updateMine (source : Expr) (joins : List Join) : Write :=
  .update
    { table := .mk (.table ["mine"] {}) []
      assignments := [⟨some ["v"], source⟩]
      sources := some [.mk (.table ["x"] {}) joins] }

/-- `UPDATE mine SET v = u.pw FROM x CROSS JOIN docsql_users u`. -/
def copyByJoin : Write :=
  updateMine (.atom (.compound "u" ["pw"]))
    [.mk (.table ["docsql_users"] { aliasName := some "u" }) .cross none]

/-- `INSERT INTO mine (id) VALUES (1) ON CONFLICT (id) DO UPDATE SET v = (SELECT pw FROM
docsql_users)`. -/
def copyByConflict : Write :=
  .insert
    { table := some ["mine"]
      columns := [["id"]]
      source := some (.mk [] (.values [1] [.lit (.int 1)]) [] {})
      on := some (.onConflict (some "id")
        (some ([⟨some ["v"], .subquery (selectFrom "pw" ["docsql_users"])⟩], none))) }

/-- One row in each table; the password hash is given. -/
def oneRowEach (hash : String) (t : String) : Rows :=
  if t = "docsql_users" then [(0, [("name", .str "root"), ("pw", .str hash)])]
  else if t = "mine" then [(0, [("id", .int 1)])]
  else if t = "x" then [(0, [("a", .int 5)])]
  else []

/-- What a run leaves in a column of `mine`. -/
def mineTexts (r : Except String (ExecOutcome × (String → Rows))) : Option (List String) :=
  r.toOption.map fun p => (p.2 "mine").map fun row =>
    match (List.lookup "v" row.2 : Option Value) with
    | some (.str s) => s
    | _ => ""

theorem mineTexts_eq {r r' : Except String (ExecOutcome × (String → Rows))}
    (h : Lookup.Outcomes (fun x y => x.1 = y.1 ∧ ∀ t ∈ some "mine", x.2 t = y.2 t) r r') :
    mineTexts r = mineTexts r' := by
  cases h with
  | ok hxy =>
    unfold mineTexts
    simp only [Except.toOption, Option.map_some, hxy.2 "mine" rfl]
  | error e => rfl

/-- Accepted for the writer, with outcomes that differ on databases that agree on all it may
depend on. -/
def Leaks (w : Write) : Prop :=
  authorizeWrite writeCatalog writer (fun _ => none) w = .ok () ∧
  ∃ db db', Set.EqOn db db' (WriteScope storeEffects writer w) ∧
    ¬ Lookup.Outcomes (fun x y => x.1 = y.1 ∧ ∀ t ∈ w.target, x.2 t = y.2 t)
      (execWrite joinOps plainWriteOps writeCatalog storeEffects 20 {} w db)
      (execWrite joinOps plainWriteOps writeCatalog storeEffects 20 {} w db')

theorem oneRowEach_eqOn {w : Write} (hw : w.target = some "mine") :
    Set.EqOn (oneRowEach "x") (oneRowEach "y") (WriteScope storeEffects writer w) := by
  intro t ht
  have hne : t ≠ "docsql_users" := by
    rintro rfl
    rcases ht with htarget | ⟨s, -, hs⟩ | ⟨huser, -⟩
    · rw [hw] at htarget
      exact absurd (Option.some.inj htarget) (by decide)
    · exact hs.elim
    · exact absurd huser (by decide)
  unfold oneRowEach
  rw [if_neg hne, if_neg hne]

end Docsql.Sql
