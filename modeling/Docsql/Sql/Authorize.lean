import Docsql.Lib.StateExcept
import Docsql.Lib.Worklist
import Docsql.Sql.Coverage
import Docsql.Sql.Settled

/-!
# Authorization of reads

`authorize_statement` for a SELECT: the targets of the walker, views replaced by the
tables they read unless the view itself is granted, then one check for each name.
-/

namespace Docsql.Sql

open Lib.Worklist (Visit drain)

/-! ## Grants -/

structure UserGrants where
  admin : Bool := false
  readwrite : Bool := false
  readonly : Bool := false
  /-- Bits of the privileges on single tables. -/
  tablePrivs : List (String × UInt8) := []
  /-- Tables of which only some columns may be selected. -/
  tableCols : List (String × List String) := []

def privSelect : UInt8 := 1

def eqIgnoreAsciiCase (a b : String) : Bool := asciiLower a == asciiLower b

def isUserTable (name : String) : Bool :=
  name ∈ ["docsql_users", "docsql_roles", "docsql_role_members", "docsql_grants"]

def isSystemTable (name : String) : Bool :=
  name ∈ ["_pubsub_messages", "_cluster_log", "_cluster_pos", "_cluster_id"]

def readableByAll (t : String) : Bool :=
  isSystemTable t || t.startsWith "information_schema." ||
    t ∈ ["sqlite_master", "sqlite_temporal_master"] || t.startsWith "@"

namespace UserGrants

variable (g : UserGrants)

def maySelect (table : String) : Bool :=
  g.readonly || g.readwrite ||
    (g.tablePrivs.find? fun p => eqIgnoreAsciiCase p.1 table).any fun p => p.2 &&& privSelect != 0

def isRestrictedSelect (table : String) : Bool :=
  g.tableCols.any fun p => eqIgnoreAsciiCase p.1 table

def grantedCols (table : String) : List String :=
  ((g.tableCols.find? fun p => eqIgnoreAsciiCase p.1 table).map Prod.snd).getD []

/-- A grant on the view itself; a role for all tables does not count. -/
def ownsView (view : String) : Bool := !g.readonly && !g.readwrite && g.maySelect view

end UserGrants

/-! ## The check -/

def userDataError : String := "user/role data is visible to the admin role only"

section Check

variable (cat : Catalog) (g : UserGrants)

/-- Behind a granted view only the tables of users and roles are looked for. -/
def visitBase (b : String) : Except String (Visit String) :=
  if isUserTable b then .error userDataError
  else
    match viewBaseTables cat b with
    | some deeper => .ok (.expand deeper)
    | none => .ok .leaf

/-- No view expands twice, so the budget is never used up. -/
def checkClosure (view : String) (bases : List String) : Except String Unit := do
  let _ ← drain (visitBase cat) "" cat.length { seen := [view], stack := bases.reverse }
  return ()

def visitTarget (t : String) : Except String (Visit String) :=
  match viewBaseTables cat t with
  | some bases =>
    if g.ownsView t then do
      checkClosure cat t bases
      return .stop
    else .ok (.expand bases)
  | none => .ok .leaf

/-- The tables behind the targets. -/
def expandViews (targets : List String) : Except String (List String) :=
  drain (visitTarget cat g) "view chain too deep to authorize" 16 { stack := targets.reverse }

def checkTarget (t : String) : Except String Unit :=
  if isUserTable t then .error userDataError
  else if readableByAll t then .ok ()
  else if g.maySelect t then .ok ()
  else .error (s!"SELECT on table {t} requires the readonly/readwrite role " ++
    "or a table grant")

def checkColumn (table : String) (granted : List String) (c : String) : Except String Unit :=
  if granted.any fun x => eqIgnoreAsciiCase x c then .ok ()
  else .error (s!"SELECT on column {c} of {table} is not granted " ++
    "(the grant lists its columns)")

/-- `refs` are the only table of a plain SELECT and the columns it refers to. -/
def checkColumns (refs : Option (String × List String)) (targets : List String) :
    Except String Unit :=
  if targets.any g.isRestrictedSelect then
    match refs with
    | some (table, cols) => (targets.filter g.isRestrictedSelect).forM fun rt => do
      if eqIgnoreAsciiCase rt table then cols.forM (checkColumn table (g.grantedCols rt))
      else .error (s!"SELECT on {rt} with column-restricted grants requires " ++
        "a single-table SELECT of exactly that table")
    | none => .error ("this statement shape cannot be authorized against " ++
        "column-restricted grants (wildcards, joins, subqueries, " ++
        "multi-table statements and EXPLAIN are not attributable)")
  else .ok ()

/-- The read path of `authorize_statement`. -/
def authorizeStatement (singleTableSelectRefs : Query → Option (String × List String))
    (q : Query) : Except String Unit :=
  if g.admin then .ok ()
  else
    match stmtReadTargets cat.tableExists q with
    | none => .error "this statement shape cannot be authorized for user connections"
    | some targets => do
      let targets ← expandViews cat g targets
      targets.forM (checkTarget g)
      checkColumns g (singleTableSelectRefs q) targets

end Check

section Accepted

variable {cat : Catalog} {g : UserGrants}

theorem mem_of_viewBaseTables {t : String} {bases : List String}
    (h : viewBaseTables cat t = some bases) : t ∈ cat.map Prod.fst := by
  unfold viewBaseTables at h
  split at h
  · rename_i q hview
    obtain ⟨m, hget, -⟩ := Option.bind_eq_some_iff.1 hview
    obtain ⟨before, after, hsplit, -⟩ := List.lookup_eq_some_iff.1 hget
    rw [hsplit]
    simp
  · cases h

/-- The budget of a closure is never used up: it fails on tables of users and roles only. -/
theorem checkClosure_error {view e : String} {bases : List String}
    (h : checkClosure cat view bases = .error e) : e = userDataError := by
  have hdrain : drain (visitBase cat) "" cat.length { seen := [view], stack := bases.reverse } =
      .error e := by
    rcases Except.bind_eq_error_iff.1 h with hrun | ⟨out, -, hdone⟩
    · exact hrun
    · cases hdone
  have hitems (t : String) (next : List String) (hvisit : visitBase cat t = .ok (.expand next)) :
      t ∈ (cat.map Prod.fst).toFinset := by
    unfold visitBase at hvisit
    split at hvisit
    · cases hvisit
    · split at hvisit
      · rename_i deeper hview
        exact List.mem_toFinset.2 (mem_of_viewBaseTables hview)
      · cases hvisit
  have hbudget : ((cat.map Prod.fst).toFinset \ [view].toFinset).card ≤ cat.length := by
    refine (Finset.card_le_card Finset.sdiff_subset).trans ?_
    exact (List.toFinset_card_le _).trans_eq (List.length_map _)
  obtain ⟨t, ht⟩ := Lib.Worklist.drain_error hitems hbudget hdrain
  unfold visitBase at ht
  split at ht
  · cases ht
    rfl
  · split at ht <;> cases ht

/-- Reading a table of this name is granted. -/
def UserReadable (g : UserGrants) (t : String) : Prop :=
  isUserTable t = false ∧ (readableByAll t = true ∨ g.maySelect t = true)

/-- A granted view with no table of users and roles behind it. -/
def AcceptedView (cat : Catalog) (g : UserGrants) (v : String) : Prop :=
  ∃ bases, viewBaseTables cat v = some bases ∧ g.ownsView v = true ∧
    checkClosure cat v bases = .ok ()

/-- The tables whose rows a user may learn about. -/
def Permitted (cat : Catalog) (g : UserGrants) : Set String :=
  {t | UserReadable g t ∨ ∃ v, AcceptedView cat g v ∧ Reaches cat v t}

/-- The tables a view names, the tables these name if they are views, and so on. -/
inductive ViewClosure (cat : Catalog) : String → String → Prop where
  | refl (t : String) : ViewClosure cat t t
  | view {t s r : String} {bases : List String} (hview : viewBaseTables cat t = some bases)
      (hbase : s ∈ bases) (hrest : ViewClosure cat s r) : ViewClosure cat t r

/-- A set of names whose views were expanded or accepted, and the rest checked. -/
def Checked (cat : Catalog) (g : UserGrants) (seen : List String) : Prop :=
  ∀ t ∈ seen, (viewBaseTables cat t = none ∧ UserReadable g t) ∨ AcceptedView cat g t ∨
    ∃ bases, viewBaseTables cat t = some bases ∧ ∀ s ∈ bases, s ∈ seen

theorem visitTarget_cases {t : String} {v : Visit String} (h : visitTarget cat g t = .ok v) :
    (v = .leaf ∧ viewBaseTables cat t = none) ∨ (v = .stop ∧ AcceptedView cat g t) ∨
      ∃ bases, v = .expand bases ∧ viewBaseTables cat t = some bases := by
  unfold visitTarget at h
  split at h
  · rename_i bases hview
    split at h
    · rename_i howns
      obtain ⟨_, hclosure, hstop⟩ := Except.bind_eq_ok_iff.1 h
      cases hstop
      exact .inr (.inl ⟨rfl, bases, hview, howns, hclosure⟩)
    · cases h
      exact .inr (.inr ⟨bases, rfl, hview⟩)
  · rename_i hview
    cases h
    exact .inl ⟨rfl, hview⟩

theorem checkTarget_ok {t : String} (h : checkTarget g t = .ok ()) : UserReadable g t := by
  unfold checkTarget at h
  split at h
  · cases h
  · rename_i huser
    refine ⟨eq_false_of_ne_true huser, ?_⟩
    split at h
    · rename_i hall
      exact .inl hall
    · split at h
      · rename_i hmay
        exact .inr hmay
      · cases h

theorem forM_ok {α : Type} {f : α → Except String Unit} {l : List α} (h : l.forM f = .ok ()) :
    ∀ a ∈ l, f a = .ok () := by
  induction l with
  | nil => exact fun a ha => absurd ha List.not_mem_nil
  | cons a l ih =>
    obtain ⟨_, hfirst, hrest⟩ := Except.bind_eq_ok_iff.1 h
    exact List.forall_mem_cons.2 ⟨hfirst, ih hrest⟩

/-- What an accepted statement names was checked, through all views. -/
theorem authorizeStatement_ok {refs : Query → Option (String × List String)} {q : Query}
    (hadmin : g.admin = false) (h : authorizeStatement cat g refs q = .ok ()) :
    ∃ targets seen, stmtReadTargets cat.tableExists q = some targets ∧
      (∀ t ∈ targets, t ∈ seen) ∧ Checked cat g seen := by
  unfold authorizeStatement at h
  rw [hadmin, if_neg Bool.false_ne_true] at h
  split at h
  · cases h
  · rename_i targets htargets
    obtain ⟨out, hexpand, hchecks⟩ := Except.bind_eq_ok_iff.1 h
    obtain ⟨_, hout, -⟩ := Except.bind_eq_ok_iff.1 hchecks
    obtain ⟨seen, hinv, hseen⟩ :=
      Lib.Worklist.drain_spec (fun t ht => absurd ht List.not_mem_nil) hexpand
    refine ⟨targets, seen, htargets, fun t ht => hseen t (.inr (List.mem_reverse.2 ht)), ?_⟩
    intro t ht
    rcases hinv t ht with ⟨hvisit, hleaf⟩ | hvisit | ⟨next, hvisit, hnext⟩
    · rcases visitTarget_cases hvisit with ⟨-, hview⟩ | ⟨hstop, -⟩ | ⟨bases, hexp, -⟩
      · exact .inl ⟨hview, checkTarget_ok (forM_ok hout t hleaf)⟩
      · cases hstop
      · cases hexp
    · rcases visitTarget_cases hvisit with ⟨hleaf, -⟩ | ⟨-, hview⟩ | ⟨bases, hexp, -⟩
      · cases hleaf
      · exact .inr (.inl hview)
      · cases hexp
    · rcases visitTarget_cases hvisit with ⟨hleaf, -⟩ | ⟨hstop, -⟩ | ⟨bases, hexp, hview⟩
      · cases hleaf
      · cases hstop
      · cases hexp
        refine .inr (.inr ⟨next, hview, fun s hs => ?_⟩)
        exact (hnext s hs).resolve_right List.not_mem_nil

/-! ## What an accepted statement depends on -/

/-- The walker goes through the views a name leads to, and no read of theirs is missed. -/
def ViewsReported (cat : Catalog) (t : String) : Prop :=
  ∀ v columns q, Reaches cat t v → cat.get v = some ⟨columns, some (.ok q)⟩ →
    (walkQuery cat.tableExists q).ok = true ∧ Reported cat q

/-- No read of a statement is missed, and none of the views it leads to. -/
def FullyReported (cat : Catalog) (q : Query) : Prop :=
  Reported cat q ∧ ∀ t ∈ readsQuery [] q, ViewsReported cat t

theorem tableExists_of_get {t : String} {m : TableMeta} (h : cat.get t = some m) :
    cat.tableExists t = true := by
  rw [Catalog.tableExists, h]
  rfl

/-- Only names in the catalog lead to tables. -/
theorem Reaches.tableExists {t r : String} (h : Reaches cat t r) (hbase : IsBase cat r) :
    cat.tableExists t = true := by
  cases h with
  | refl =>
    obtain ⟨columns, hget⟩ := hbase
    exact tableExists_of_get hget
  | view hget _ _ => exact tableExists_of_get hget

theorem viewBaseTables_of_ok {t : String} {columns : List String} {q : Query}
    (hget : cat.get t = some ⟨columns, some (.ok q)⟩)
    (hok : (walkQuery cat.tableExists q).ok = true) :
    viewBaseTables cat t = some (walkQuery cat.tableExists q).names := by
  have hview : (cat.get t).bind TableMeta.view = some (.ok q) := by rw [hget]; rfl
  simp only [viewBaseTables, hview, if_pos hok]

theorem viewBaseTables_of_base {t : String} (h : IsBase cat t) : viewBaseTables cat t = none := by
  obtain ⟨columns, hget⟩ := h
  have hview : (cat.get t).bind TableMeta.view = none := by rw [hget]; rfl
  simp only [viewBaseTables, hview]

theorem ViewsReported.of_view {t s : String} {columns : List String} {q : Query}
    (h : ViewsReported cat t) (hget : cat.get t = some ⟨columns, some (.ok q)⟩)
    (hs : s ∈ readsQuery [] q) : ViewsReported cat s :=
  fun v columns q' hreach => h v columns q' (.view hget hs hreach)

/-- A set of names of which those in `A` are left as they are, the other views were expanded
and the rest checked. -/
def CheckedUpTo (cat : Catalog) (g : UserGrants) (A : String → Prop) (seen : List String) : Prop :=
  ∀ t ∈ seen, (viewBaseTables cat t = none ∧ UserReadable g t) ∨ A t ∨
    ∃ bases, viewBaseTables cat t = some bases ∧ ∀ s ∈ bases, s ∈ seen

/-- The tables behind a name that was checked are readable, or behind a name in `A`. -/
theorem CheckedUpTo.covered {A : String → Prop} {seen : List String} {t : String}
    (h : CheckedUpTo cat g A seen) (hviews : ViewsReported cat t)
    (ht : cat.tableExists t = true → t ∈ seen) :
    Covered cat {r | UserReadable g r ∨ ∃ v, A v ∧ Reaches cat v r} t := by
  intro r hreach hbase
  induction hreach with
  | refl t =>
    have hnone := viewBaseTables_of_base hbase
    have hseen := ht ((Reaches.refl t).tableExists hbase)
    rcases h t hseen with ⟨-, hreadable⟩ | hview | ⟨bases, hview, -⟩
    · exact .inl hreadable
    · exact .inr ⟨t, hview, .refl t⟩
    · rw [hnone] at hview
      cases hview
  | @view t s r columns q hget hname hrest ih =>
    obtain ⟨hok, hreported⟩ := hviews t columns q (.refl t) hget
    have hbases := viewBaseTables_of_ok hget hok
    rcases h t (ht (tableExists_of_get hget)) with ⟨hnone, -⟩ | hview | ⟨bases, hsome, hseen⟩
    · rw [hbases] at hnone
      cases hnone
    · exact .inr ⟨t, hview, .view hget hname hrest⟩
    · refine ih (hviews.of_view hget hname) (fun hcat => hseen s ?_) hbase
      rw [hbases] at hsome
      cases hsome
      exact mem_walk_of_reported hok hreported hname hcat

/-- The tables behind a name that was checked are permitted. -/
theorem Checked.covered {seen : List String} {t : String} (h : Checked cat g seen)
    (hviews : ViewsReported cat t) (ht : cat.tableExists t = true → t ∈ seen) :
    Covered cat (Permitted cat g) t :=
  CheckedUpTo.covered (show CheckedUpTo cat g (AcceptedView cat g) seen from h) hviews ht

/-- The tables behind a name are in its view closure. -/
theorem ViewsReported.covered {t : String} (hviews : ViewsReported cat t) :
    Covered cat {r | ViewClosure cat t r} t := by
  intro r hreach hbase
  induction hreach with
  | refl t => exact .refl t
  | @view t s r columns q hget hname hrest ih =>
    obtain ⟨hok, hreported⟩ := hviews t columns q (.refl t) hget
    have hclosure := ih (hviews.of_view hget hname) hbase
    have hcat := hrest.tableExists hbase
    exact .view (viewBaseTables_of_ok hget hok) (mem_walk_of_reported hok hreported hname hcat)
      hclosure

theorem mem_stmtReadTargets {objects : String → Bool} {q : Query} {targets : List String}
    (h : stmtReadTargets objects q = some targets) :
    (walkQuery objects q).ok = true ∧ ∀ t, t ∈ targets ↔ t ∈ (walkQuery objects q).names := by
  unfold stmtReadTargets at h
  dsimp only at h
  split at h
  · rename_i hok
    cases h
    exact ⟨hok, fun t => by rw [List.mem_mergeSort, List.mem_dedup]⟩
  · cases h

end Accepted

/-! ## Examples of statements -/

/-- Rows without joins, grouping or windows: a column is looked up by its name. -/
def plainOps : RowOps where
  eval _ e doc := match e with
    | .atom (.value v) => .ok v
    | .atom (.ident name) => .ok ((List.lookup name doc).getD .null)
    | _ => .error "unsupported expression"
  outerRowValue _ _ _ := .null
  checkLiteral _ := .ok ()
  mentionsOuter _ _ := false
  collectCorrelated _ _ := none
  rewriteTop tail shape := .ok (tail, shape)
  checkQuery _ := .ok ()
  checkSelect _ := .ok ()
  checkTable _ := .ok ()
  checkPlan _ _ := .ok ()
  virtualView _ name := .error name
  tableFunction _ _ := .error "table functions or FROM hints are not supported"
  pivot text _ := .error text
  derivedDocs _ r := .ok (r.rows.map fun row => r.columns.zip row)
  qualifyBase _ docs := docs
  joinRows _ _ _ _ rows docs _ _ := .ok (rows.flatMap fun row => docs.map (row ++ ·))
  applyFunction rows _ _ := .ok rows
  fastRows _ _ _ := .ok none
  numberRows _ docs := docs
  isAggregate _ := false
  fromless _ _ := .ok ⟨[], []⟩
  grouped _ _ _ := .ok ⟨[], []⟩
  windows _ _ docs := .ok docs
  qualified _ _ _ _ := true
  columns _ sel _ := match sel with
    | .mk _ _ _ _ _ _ shape => shape.items
  assemble _ _ _ values := values
  distinct _ rows := .ok rows
  isOutputKey _ _ := false
  orderLimit _ _ rows _ := .ok rows
  combine _ l r := .ok ⟨l.columns, l.rows ++ r.rows⟩
  valuesRows _ := .ok ⟨[], []⟩
  seed _ _ _ := .error "unsupported"
  absorb _ _ _ _ := .error "unsupported"

/-- `SELECT column FROM name`. -/
def selectFrom (column : String) (name : List String) : Query :=
  .mk [] (.select (.mk [.mk (.table name {}) []] [.atom (.ident column)] none none [] none
    { items := [column] })) [] {}

def sampleCatalog : Catalog :=
  [("docsql_users", ⟨["name", "pw"], none⟩), ("t", ⟨["a"], none⟩),
    ("v", ⟨["a"], some (.ok (selectFrom "a" ["t"]))⟩)]

theorem reaches_sample {t r : String} (h : Reaches sampleCatalog t r) (ht : t = "v" ∨ t = "t") :
    r = "v" ∨ r = "t" := by
  induction h with
  | refl t => exact ht
  | @view t s r columns q hget hname hrest ih =>
    rcases ht with rfl | rfl
    · have hq : q = selectFrom "a" ["t"] := by cases hget; rfl
      have hs : s ∈ ["t"] := by
        have hreads : readsQuery [] (selectFrom "a" ["t"]) = ["t"] := by decide +kernel
        rwa [hq, hreads] at hname
      exact ih (.inr (List.mem_singleton.1 hs))
    · cases hget

/-- The table of users with one password hash. -/
def usersOnly (hash : String) (t : String) : Rows :=
  if t = "docsql_users" then [(0, [("name", .str "root"), ("pw", .str hash)])] else []

end Docsql.Sql
