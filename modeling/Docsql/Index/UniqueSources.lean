import Docsql.Index.Ddl
import Docsql.EncodeRoundTrip
import Docsql.Index.ListHeap
import Docsql.Lib.Run

/-!
# Where a unique column comes from

`TableMeta.unique` is kept by CREATE INDEX and DROP INDEX step by step.  A column
should be in it for a constraint of the table or for an index over that column
alone, without a path and without a predicate.  DROP INDEX counts a partial index
as such a source too, and it leaves the column of the primary key in the list.
-/

namespace Docsql.Index

section Model

variable {Doc H : Type} (env : Env Doc) (heap : DocHeap Doc H)

/-- Tables under their names. -/
abbrev Database (H : Type) := List (String × Table H)

/-- The statements a list of unique columns depends on, and any other statement
that leaves other rows and trees. -/
inductive Statement (H : Type) where
  | createTable (name : String) (columns : List String) (primaryKey : Option String)
      (unique : List String) (pages : H)
  | createIndex (table : String) (idx : CreateIndex)
  | dropIndex (names : List String) (ifExists : Bool)
  | changeRows (table : String) (pages : H) (roots : List (String × Tree))

/-- Whether some table has an index of this name. -/
def Database.owns (db : Database H) (name : String) : Bool :=
  db.any fun e => (e.2.tableMeta.defNamed name).isSome

def Database.set (db : Database H) (name : String) (t : Table H) : Database H :=
  db.map fun e => if e.1 = name then (name, t) else e

/-- One name of DROP INDEX: the first table that has the index. -/
def Database.dropOwned (db : Database H) (name : String) : Database H :=
  match db.find? fun e => (e.2.tableMeta.defNamed name).isSome with
  | none => db
  | some (table, t) =>
    match dropIndex t name with
    | .ok t' => db.set table t'
    | .error _ => db

/-- The whole list is looked at before the first index goes. -/
def Database.mayDrop (db : Database H) (names : List String) (ifExists : Bool) : Bool :=
  names.all fun name => !name.startsWith "sqlite_autoindex_" && (ifExists || db.owns name)

/-- A statement that fails leaves the catalog as it was. -/
def execDdl (db : Database H) : Statement H → Database H
  | .createTable name columns primaryKey unique pages =>
    if name ∈ db.map Prod.fst then db
    else
      match createTable heap pages name columns primaryKey unique with
      | .ok t => db ++ [(name, t)]
      | .error _ => db
  | .createIndex table idx =>
    if db.owns idx.name then db
    else
      match db.lookup table with
      | none => db
      | some t =>
        match createIndex env heap t idx with
        | .ok t' => db.set table t'
        | .error _ => db
  | .dropIndex names ifExists =>
    if db.mayDrop names ifExists then names.foldl Database.dropOwned db else db
  | .changeRows table pages roots =>
    db.map fun e => (e.1, if e.1 = table then { e.2 with heap := pages, roots := roots } else e.2)

end Model

/-! ## Sources -/

/-- A unique index over this column alone. -/
def Sole (d : IndexDef) (c : String) : Prop := d.unique = true ∧ d.columns = [c]

/-- One that speaks of all rows. -/
def Source (m : TableMeta) (c : String) : Prop :=
  ∃ d ∈ m.indexDefs, Sole d c ∧ d.pred = none ∧ d.path = none

/-- The unique columns are those that have a declared source. -/
def Sourced (m : TableMeta) : Prop :=
  ∀ c, c ∈ m.unique ↔ c ∈ m.constraintUnique ∨ Source m c

/-- The column loses its last source, and the list keeps it: for the sake of the
primary key or of a partial index that stays. -/
def Residue (m : TableMeta) (names : List String) (c : String) : Prop :=
  c ∉ m.constraintUnique ∧ Source m c ∧
    (∀ d ∈ m.indexDefs, Sole d c ∧ d.pred = none ∧ d.path = none → d.name ∈ names) ∧
    (m.primaryKey = some c ∨ ∃ d ∈ m.indexDefs, Sole d c ∧ d.name ∉ names)

/-- No index is dropped for which its column stays in the list. -/
def LeavesNoResidue {H : Type} (db : Database H) : Statement H → Prop
  | .dropIndex names ifExists => db.mayDrop names ifExists = true →
      ∀ e ∈ db, ∀ c, ¬Residue e.2.tableMeta names c
  | _ => True

def AllSourced {H : Type} (db : Database H) : Prop := ∀ e ∈ db, Sourced e.2.tableMeta

/-! ## One table -/

section Table

variable {Doc H : Type} {env : Env Doc} {heap : DocHeap Doc H} {t t' : Table H}
variable {m : TableMeta} {d : IndexDef} {c name : String} {names : List String}

/-- Index names are distinct, and a unique index has no path. -/
structure Named (m : TableMeta) : Prop where
  names : (m.indexDefs.map IndexDef.name).Nodup
  plain : ∀ d ∈ m.indexDefs, d.unique = true → d.path = none

/-- The column leaves the list with these indexes. -/
def Lifted (m : TableMeta) (names : List String) (c : String) : Prop :=
  c ∉ m.constraintUnique ∧ m.primaryKey ≠ some c ∧
    (∃ d ∈ m.indexDefs, Sole d c) ∧ ∀ d ∈ m.indexDefs, Sole d c → d.name ∈ names

/-- What DROP INDEX makes of a table that may have the index. -/
def dropOne (t : Table H) (name : String) : Table H :=
  match dropIndex t name with
  | .ok t' => t'
  | .error _ => t

/-- What the catalog entry is after these names. -/
structure DroppedFrom (m m' : TableMeta) (names : List String) : Prop where
  defs : m'.indexDefs = m.indexDefs.filter fun d => d.name ∉ names
  constraints : m'.constraintUnique = m.constraintUnique
  primaryKey : m'.primaryKey = m.primaryKey
  unique : ∀ c, c ∈ m'.unique ↔ c ∈ m.unique ∧ ¬Lifted m names c

theorem eq_of_name (h : Named m) {d' : IndexDef} (hd : d ∈ m.indexDefs) (hd' : d' ∈ m.indexDefs)
    (heq : d.name = d'.name) : d = d' :=
  List.inj_on_of_nodup_map h.names hd hd' heq

theorem filter_ne_eq (h : Named m) (hd : d ∈ m.indexDefs) :
    m.indexDefs.filter (· ≠ d) = m.indexDefs.filter fun d' => d'.name ∉ [d.name] := by
  refine List.filter_congr fun d' hd' => decide_eq_decide.mpr (not_congr ?_)
  rw [List.mem_singleton]
  exact ⟨congrArg IndexDef.name, eq_of_name h hd' hd⟩

/-- The test of DROP INDEX, as one of the column. -/
theorem lifted_iff (h : Named m) (hd : d ∈ m.indexDefs) :
    Lifted m [d.name] c ↔ liftsUnique m d = true ∧ c = d.columns.headD "" := by
  have hlifts : liftsUnique m d = true ↔ (d.unique = true ∧ d.columns.length = 1) ∧
      d.columns.headD "" ∉ m.constraintUnique ∧ m.primaryKey ≠ some (d.columns.headD "") ∧
        ∀ d' ∈ m.indexDefs, d' ≠ d → ¬Sole d' (d.columns.headD "") := by
    simp [liftsUnique, Sole, and_assoc]
  rw [hlifts]
  constructor
  · rintro ⟨hcons, hpk, ⟨d', hd', hsole⟩, hall⟩
    obtain rfl := eq_of_name h hd' hd (List.mem_singleton.mp (hall d' hd' hsole))
    rw [hsole.2]
    refine ⟨⟨⟨hsole.1, rfl⟩, hcons, hpk, fun d hd hne hother => hne ?_⟩, rfl⟩
    exact eq_of_name h hd hd' (List.mem_singleton.mp (hall d hd hother))
  · rintro ⟨⟨⟨hu, hlen⟩, hcons, hpk, hothers⟩, rfl⟩
    obtain ⟨c, hcols⟩ := List.length_eq_one_iff.mp hlen
    refine ⟨hcons, hpk, ⟨d, hd, hu, by rw [hcols]; rfl⟩, fun d' hd' hsole => ?_⟩
    by_contra hne
    exact hothers d' hd' (fun heq => hne (by simp [heq])) hsole

theorem dropOne_spec (h : Named t.tableMeta) :
    DroppedFrom t.tableMeta (dropOne t name).tableMeta [name] := by
  unfold dropOne dropIndex
  cases hnamed : t.tableMeta.defNamed name with
  | none =>
    have hother : ∀ d ∈ t.tableMeta.indexDefs, d.name ≠ name := by
      intro d hd
      simpa using List.find?_eq_none.mp hnamed d hd
    refine ⟨(List.filter_eq_self.mpr fun d hd => ?_).symm, rfl, rfl, fun c => ?_⟩
    · simpa using hother d hd
    · refine (and_iff_left ?_).symm
      rintro ⟨-, -, ⟨d, hd, hsole⟩, hall⟩
      exact hother d hd (List.mem_singleton.mp (hall d hd hsole))
  | some d =>
    have hd : d ∈ t.tableMeta.indexDefs := List.mem_of_find?_eq_some hnamed
    obtain rfl : d.name = name := by simpa using List.find?_some hnamed
    refine ⟨filter_ne_eq h hd, rfl, rfl, fun c => ?_⟩
    rw [lifted_iff h hd]
    dsimp only
    split
    · rename_i hlifts
      simp [hlifts, List.mem_filter]
    · rename_i hlifts
      simp [hlifts]

theorem Named.dropped {m' : TableMeta} (h : Named m) (hd : DroppedFrom m m' names) :
    Named m' := by
  refine ⟨?_, fun d hmem => ?_⟩
  · rw [hd.defs]
    exact h.names.sublist (List.filter_sublist.map _)
  · rw [hd.defs] at hmem
    exact h.plain d (List.mem_of_mem_filter hmem)

/-- One name after the other. -/
theorem DroppedFrom.trans {m₁ m₂ : TableMeta} (h₁ : DroppedFrom m m₁ [name])
    (h₂ : DroppedFrom m₁ m₂ names) : DroppedFrom m m₂ (name :: names) := by
  have hmem : ∀ d, d ∈ m₁.indexDefs ↔ d ∈ m.indexDefs ∧ d.name ≠ name := by
    intro d
    rw [h₁.defs, List.mem_filter]
    simp
  refine ⟨?_, h₂.constraints.trans h₁.constraints, h₂.primaryKey.trans h₁.primaryKey, ?_⟩
  · rw [h₂.defs, h₁.defs, List.filter_filter]
    refine List.filter_congr fun d _ => ?_
    simp [Bool.and_comm]
  · intro c
    rw [h₂.unique, h₁.unique, and_assoc, ← not_or]
    refine and_congr_right fun _ => not_congr ?_
    unfold Lifted
    rw [h₁.constraints, h₁.primaryKey]
    constructor
    · rintro (⟨hcons, hpk, hex, hall⟩ | ⟨hcons, hpk, ⟨d, hd, hsole⟩, hall⟩)
      · refine ⟨hcons, hpk, hex, fun d hd hsole => ?_⟩
        exact List.mem_cons.mpr (.inl (List.mem_singleton.mp (hall d hd hsole)))
      · refine ⟨hcons, hpk, ⟨d, ((hmem d).mp hd).1, hsole⟩, fun d' hd' hsole' => ?_⟩
        by_cases heq : d'.name = name
        · exact List.mem_cons.mpr (.inl heq)
        · exact List.mem_cons_of_mem _ (hall d' ((hmem d').mpr ⟨hd', heq⟩) hsole')
    · rintro ⟨hcons, hpk, ⟨d, hd, hsole⟩, hall⟩
      by_cases hfirst : ∀ d ∈ m.indexDefs, Sole d c → d.name = name
      · exact .inl ⟨hcons, hpk, ⟨d, hd, hsole⟩, fun d' hd' hsole' => by
          simpa using hfirst d' hd' hsole'⟩
      · push Not at hfirst
        obtain ⟨d', hd', hsole', hne⟩ := hfirst
        refine .inr ⟨hcons, hpk, ⟨d', (hmem d').mpr ⟨hd', hne⟩, hsole'⟩, fun d₁ hd₁ hsole₁ => ?_⟩
        obtain ⟨hd₁, hne₁⟩ := (hmem d₁).mp hd₁
        exact (List.mem_cons.mp (hall d₁ hd₁ hsole₁)).resolve_left hne₁

theorem dropAll_spec (h : Named t.tableMeta) :
    DroppedFrom t.tableMeta (names.foldl dropOne t).tableMeta names := by
  induction names generalizing t with
  | nil => exact ⟨by simp, rfl, rfl, fun c => by simp [Lifted]⟩
  | cons name names ih =>
    have hone : DroppedFrom t.tableMeta (dropOne t name).tableMeta [name] := dropOne_spec h
    exact hone.trans (ih (h.dropped hone))

/-- After the names are gone the list has its declared sources unless a residue stays. -/
theorem sourced_dropped_iff {m' : TableMeta} (h : Sourced m)
    (hd : DroppedFrom m m' names) : Sourced m' ↔ ∀ c, ¬Residue m names c := by
  have hsource : ∀ c, Source m' c ↔ ∃ d ∈ m.indexDefs,
      (Sole d c ∧ d.pred = none ∧ d.path = none) ∧ d.name ∉ names := by
    intro c
    unfold Source
    rw [hd.defs]
    simp only [List.mem_filter, decide_eq_true_eq]
    exact ⟨fun ⟨d, ⟨hmem, hname⟩, hs⟩ => ⟨d, hmem, hs, hname⟩,
      fun ⟨d, hmem, hs, hname⟩ => ⟨d, ⟨hmem, hname⟩, hs⟩⟩
  refine forall_congr' fun c => ?_
  rw [hd.unique, h c, hd.constraints]
  by_cases hcons : c ∈ m.constraintUnique
  · simp [hcons, Lifted, Residue]
  rw [hsource]
  constructor
  · rintro hiff ⟨-, hsrc, hgone, hstays⟩
    have hlifted : ¬Lifted m names c := by
      rintro ⟨-, hpk, -, hall⟩
      rcases hstays with hkey | ⟨d, hd, hsole, hname⟩
      · exact hpk hkey
      · exact hname (hall d hd hsole)
    obtain ⟨d, hd, hs, hname⟩ := (hiff.mp ⟨.inr hsrc, hlifted⟩).resolve_left hcons
    exact hname (hgone d hd hs)
  · intro hno
    constructor
    · rintro ⟨hor, hlifted⟩
      have hsrc := hor.resolve_left hcons
      by_contra hnone
      have hgone : ∀ d ∈ m.indexDefs, Sole d c ∧ d.pred = none ∧ d.path = none →
          d.name ∈ names := fun d hd hs => by
        by_contra hname
        exact hnone (.inr ⟨d, hd, hs, hname⟩)
      refine hlifted ⟨hcons, fun hkey => hno ⟨hcons, hsrc, hgone, .inl hkey⟩, ?_, ?_⟩
      · obtain ⟨d, hd, hs⟩ := hsrc
        exact ⟨d, hd, hs.1⟩
      · intro d hd hsole
        by_contra hname
        exact hno ⟨hcons, hsrc, hgone, .inr ⟨d, hd, hsole, hname⟩⟩
    · rintro (hc | ⟨d, hd, hs, hname⟩)
      · exact absurd hc hcons
      · exact ⟨.inr ⟨d, hd, hs⟩, fun hlifted => hname (hlifted.2.2.2 d hd hs.1)⟩

/-- CREATE INDEX adds its definition and its column. -/
theorem createIndex_ok {idx : CreateIndex} (h : createIndex env heap t idx = .ok t') :
    ∃ d, newIndexDef t.tableMeta idx = .ok d ∧
      t'.tableMeta = { t.tableMeta with
        unique := uniqueAfter t.tableMeta d
        indexDefs := t.tableMeta.indexDefs ++ [d] } := by
  unfold createIndex at h
  obtain ⟨pred, -, h⟩ := Except.bind_eq_ok_iff.mp h
  obtain ⟨d, hd, h⟩ := Except.bind_eq_ok_iff.mp h
  obtain ⟨-, -, h⟩ := Except.bind_eq_ok_iff.mp h
  obtain ⟨roots, -, h⟩ := Except.bind_eq_ok_iff.mp h
  obtain rfl := Except.ok.inj h
  exact ⟨d, hd, rfl⟩

theorem newIndexDef_ok {idx : CreateIndex} (h : newIndexDef m idx = .ok d) :
    d.name = idx.name ∧ d.columns ≠ [] ∧ (d.unique = true → d.path = none) := by
  unfold newIndexDef at h
  obtain ⟨-, -, h⟩ := Except.bind_eq_ok_iff.mp h
  split at h
  · cases h
  obtain ⟨⟨cols, path⟩, -, h⟩ := Except.bind_eq_ok_iff.mp h
  dsimp only at h
  split at h
  · cases h
  rename_i hcols
  split at h
  · cases h
  rename_i hpath
  split at h
  · cases h
  obtain rfl := Except.ok.inj h
  have hplain : idx.unique = true → path = none := by simpa using hpath
  exact ⟨rfl, hcols, hplain⟩

/-- A new index is a source just when its column is added. -/
theorem Sourced.created (h : Sourced m) (hcols : d.columns ≠ [])
    (hplain : d.unique = true → d.path = none) :
    Sourced { m with unique := uniqueAfter m d, indexDefs := m.indexDefs ++ [d] } := by
  intro c
  have hsole : Sole d c ∧ d.pred = none ∧ d.path = none ↔
      (d.unique = true ∧ d.columns.length ≤ 1 ∧ d.pred = none) ∧ c = d.columns.headD "" := by
    obtain ⟨col, cols, heq⟩ := List.exists_cons_of_ne_nil hcols
    constructor
    · rintro ⟨⟨hu, hc⟩, hpred, -⟩
      exact ⟨⟨hu, by rw [hc]; simp, hpred⟩, by rw [hc]; rfl⟩
    · rintro ⟨⟨hu, hlen, hpred⟩, rfl⟩
      obtain rfl : cols = [] := by simpa [heq] using hlen
      exact ⟨⟨hu, by rw [heq]; rfl⟩, hpred, hplain hu⟩
  have hunique : c ∈ uniqueAfter m d ↔ c ∈ m.unique ∨
      ((d.unique = true ∧ d.columns.length ≤ 1 ∧ d.pred = none) ∧ c = d.columns.headD "") := by
    unfold uniqueAfter
    dsimp only
    split
    · rename_i hadd
      simp [hadd]
    · rename_i hadd
      refine (or_iff_left_of_imp ?_).symm
      rintro ⟨⟨hu, hlen, hpred⟩, rfl⟩
      by_contra hnot
      exact hadd ⟨hu, hlen, hpred, hnot⟩
  have hsource : Source { m with unique := uniqueAfter m d, indexDefs := m.indexDefs ++ [d] } c ↔
      Source m c ∨ (Sole d c ∧ d.pred = none ∧ d.path = none) := by
    simp [Source, or_and_right, exists_or]
  rw [hsource, hunique, h c, hsole, or_assoc]

end Table

/-! ## The database -/

section Runs

variable {Doc H : Type} {env : Env Doc} {heap : DocHeap Doc H} {db : Database H}
variable {t : Table H} {table name : String} {names : List String}

def indexNames (e : String × Table H) : List String := e.2.tableMeta.indexDefs.map IndexDef.name

/-- Table names and index names are distinct, and unique indexes have no path. -/
structure Distinct (db : Database H) : Prop where
  tables : (db.map Prod.fst).Nodup
  indexes : (db.flatMap indexNames).Nodup
  plain : ∀ e ∈ db, ∀ d ∈ e.2.tableMeta.indexDefs, d.unique = true → d.path = none

theorem Distinct.named (h : Distinct db) {e : String × Table H} (he : e ∈ db) : Named e.2.tableMeta :=
  ⟨(List.nodup_flatMap.mp h.indexes).1 e he, h.plain e he⟩

theorem defNamed_isSome_iff {e : String × Table H} :
    (e.2.tableMeta.defNamed name).isSome = true ↔ name ∈ indexNames e := by
  rw [TableMeta.defNamed, List.find?_isSome, indexNames, List.mem_map]
  simp

theorem dropOne_of_notMem {e : String × Table H} (h : name ∉ indexNames e) :
    dropOne e.2 name = e.2 := by
  have hnone : e.2.tableMeta.defNamed name = none := by
    rw [← Option.not_isSome_iff_eq_none, defNamed_isSome_iff]
    exact h
  unfold dropOne dropIndex
  rw [hnone]

theorem eq_of_indexName (h : (db.flatMap indexNames).Nodup) {e e' : String × Table H}
    (he : e ∈ db) (he' : e' ∈ db) (hname : name ∈ indexNames e) (hname' : name ∈ indexNames e') :
    e = e' := by
  by_contra hne
  have hsymm : Std.Symm (Function.onFun List.Disjoint (indexNames (H := H))) :=
    ⟨fun _ _ hdisj => hdisj.symm⟩
  exact (List.nodup_flatMap.mp h).2.forall he he' hne hname hname'

/-- At most one table has the index, so each table drops it if it has it. -/
theorem Distinct.dropOwned_eq (h : Distinct db) :
    db.dropOwned name = db.map fun e => (e.1, dropOne e.2 name) := by
  unfold Database.dropOwned
  cases hfind : db.find? fun e => (e.2.tableMeta.defNamed name).isSome with
  | none =>
    have hsame : ∀ e ∈ db, (e.1, dropOne e.2 name) = e := fun e he => by
      have hnot := List.find?_eq_none.mp hfind e he
      rw [defNamed_isSome_iff] at hnot
      rw [dropOne_of_notMem hnot]
    rw [List.map_congr_left hsame, List.map_id']
  | some e =>
    obtain ⟨table, t⟩ := e
    have hmem : (table, t) ∈ db := List.mem_of_find?_eq_some hfind
    have hin : name ∈ indexNames (table, t) :=
      defNamed_isSome_iff.mp (by simpa using List.find?_some hfind)
    have hdrop : ∃ t', dropIndex t name = .ok t' := by
      obtain ⟨d, hd⟩ := Option.isSome_iff_exists.mp (defNamed_isSome_iff.mpr hin)
      exact ⟨_, by rw [dropIndex, hd]⟩
    obtain ⟨t', ht'⟩ := hdrop
    dsimp only
    rw [ht']
    refine List.map_congr_left fun e he => ?_
    by_cases heq : e.1 = table
    · obtain rfl : e = (table, t) := List.inj_on_of_nodup_map h.tables he hmem heq
      rw [if_pos rfl, dropOne, ht']
    · have hother : name ∉ indexNames e := fun hname => heq
        (congrArg Prod.fst (eq_of_indexName h.indexes he hmem hname hin))
      rw [if_neg heq, dropOne_of_notMem hother]

theorem indexNames_dropOne (hnamed : Named t.tableMeta) :
    (indexNames (table, dropOne t name)).Sublist (indexNames (table, t)) := by
  unfold indexNames
  rw [(dropOne_spec hnamed).defs]
  exact List.filter_sublist.map _

theorem flatMap_sublist {α β : Type} {f g : α → List β} {xs : List α}
    (h : ∀ x ∈ xs, (f x).Sublist (g x)) : (xs.flatMap f).Sublist (xs.flatMap g) := by
  induction xs with
  | nil => exact List.Sublist.refl _
  | cons x xs ih =>
    rw [List.flatMap_cons, List.flatMap_cons]
    exact (h x List.mem_cons_self).append (ih fun y hy => h y (List.mem_cons_of_mem _ hy))

theorem Distinct.dropOwned (h : Distinct db) : Distinct (db.dropOwned name) := by
  rw [h.dropOwned_eq]
  refine ⟨?_, ?_, ?_⟩
  · rw [List.map_map]
    exact h.tables
  · rw [List.flatMap_map]
    exact h.indexes.sublist (flatMap_sublist fun e he => indexNames_dropOne (h.named he))
  · intro e he
    obtain ⟨e, hmem, rfl⟩ := List.mem_map.mp he
    exact ((h.named hmem).dropped (dropOne_spec (h.named hmem))).plain

/-- The whole list of names, table by table. -/
theorem Distinct.foldl_dropOwned (h : Distinct db) :
    names.foldl Database.dropOwned db = db.map fun e => (e.1, names.foldl dropOne e.2) := by
  induction names generalizing db with
  | nil => exact (List.map_id' db).symm
  | cons name names ih =>
    rw [List.foldl_cons, ih h.dropOwned, h.dropOwned_eq, List.map_map]
    rfl

theorem Distinct.foldl (h : Distinct db) : Distinct (names.foldl Database.dropOwned db) := by
  induction names generalizing db with
  | nil => exact h
  | cons name names ih => exact ih h.dropOwned

/-- DROP INDEX keeps the sources unless it leaves a residue. -/
theorem allSourced_dropped_iff (h : Distinct db) (hsourced : AllSourced db) :
    AllSourced (names.foldl Database.dropOwned db) ↔
      ∀ e ∈ db, ∀ c, ¬Residue e.2.tableMeta names c := by
  rw [h.foldl_dropOwned]
  unfold AllSourced
  rw [List.forall_mem_map]
  exact forall₂_congr fun e he => sourced_dropped_iff (hsourced e he) (dropAll_spec (h.named he))

theorem Database.set_eq (htables : (db.map Prod.fst).Nodup) (hmem : (table, t) ∈ db)
    (t' : Table H) : ∃ front back, db = front ++ (table, t) :: back ∧
      db.set table t' = front ++ (table, t') :: back := by
  obtain ⟨front, back, rfl⟩ := List.append_of_mem hmem
  refine ⟨front, back, rfl, ?_⟩
  have hother : ∀ e ∈ front ++ back, e.1 ≠ table := by
    intro e he heq
    have hnodup := (List.perm_middle.map Prod.fst).nodup_iff.mp htables
    exact (List.nodup_cons.mp hnodup).1 (List.mem_map.mpr ⟨e, he, heq⟩)
  have hsame : ∀ es : List (String × Table H), (∀ e ∈ es, e ∈ front ++ back) →
      es.map (fun e => if e.1 = table then (table, t') else e) = es := by
    intro es hes
    rw [List.map_congr_left fun e he => if_neg (hother e (hes e he)), List.map_id']
  rw [Database.set, List.map_append, List.map_cons, if_pos rfl,
    hsame front fun e he => List.mem_append_left _ he,
    hsame back fun e he => List.mem_append_right _ he]

theorem mem_of_lookup_eq {table : String} (h : db.lookup table = some t) : (table, t) ∈ db := by
  induction db with
  | nil => cases h
  | cons e db ih =>
    rw [List.lookup_cons] at h
    split at h
    · rename_i hbeq
      obtain rfl := Option.some.inj h
      rw [beq_iff_eq.mp hbeq]
      exact List.mem_cons_self
    · exact List.mem_cons_of_mem _ (ih h)

theorem owns_iff : db.owns name = true ↔ name ∈ db.flatMap indexNames := by
  rw [Database.owns, List.any_eq_true, List.mem_flatMap]
  exact exists_congr fun e => and_congr_right fun _ => defNamed_isSome_iff

/-- A definition with a new name joins one table. -/
theorem Distinct.set (h : Distinct db) {t' : Table H} {d : IndexDef} (hmem : (table, t) ∈ db)
    (hfree : db.owns d.name = false) (hplain : d.unique = true → d.path = none)
    (hdefs : t'.tableMeta.indexDefs = t.tableMeta.indexDefs ++ [d]) :
    Distinct (db.set table t') := by
  obtain ⟨front, back, hdb, hset⟩ := Database.set_eq h.tables hmem t'
  have hnames : indexNames (table, t') = indexNames (table, t) ++ [d.name] := by
    rw [indexNames, hdefs, List.map_append]
    rfl
  rw [hset]
  refine ⟨?_, ?_, ?_⟩
  · have htables := h.tables
    rw [hdb] at htables
    simpa using htables
  · have hperm : ((front ++ (table, t') :: back).flatMap indexNames).Perm
        (d.name :: db.flatMap indexNames) := by
      rw [hdb, List.flatMap_append, List.flatMap_append, List.flatMap_cons, List.flatMap_cons,
        hnames, List.append_assoc, List.singleton_append, ← List.append_assoc,
        ← List.append_assoc]
      exact List.perm_middle
    refine hperm.nodup_iff.mpr (List.nodup_cons.mpr ⟨fun hin => ?_, h.indexes⟩)
    rw [owns_iff.mpr hin] at hfree
    cases hfree
  · intro e he
    have hold := h.plain
    rw [hdb] at hold
    rcases List.mem_append.mp he with he | he
    · exact hold e (List.mem_append_left _ he)
    rcases List.mem_cons.mp he with rfl | he
    · intro d' hd'
      dsimp only at hd'
      rw [hdefs] at hd'
      rcases List.mem_append.mp hd' with hd' | hd'
      · exact hold _ (List.mem_append_right _ List.mem_cons_self) d' hd'
      · obtain rfl := List.mem_singleton.mp hd'
        exact hplain
    · exact hold e (List.mem_append_right _ (List.mem_cons_of_mem _ he))

theorem AllSourced.set (h : AllSourced db) {t' : Table H} (hnew : Sourced t'.tableMeta) :
    AllSourced (db.set table t') := by
  intro e he
  obtain ⟨e, hmem, rfl⟩ := List.mem_map.mp he
  split
  · exact hnew
  · exact h e hmem

theorem createTable_ok {pages : H} {columns unique : List String} {primaryKey : Option String}
    (h : createTable heap pages name columns primaryKey unique = .ok t) :
    t.tableMeta = ⟨name, columns, primaryKey, unique, unique, []⟩ := by
  unfold createTable at h
  split at h
  · cases h
  split at h
  · cases h
  obtain rfl := Except.ok.inj h
  rfl

theorem changeRows_meta (e : String × Table H) (pages : H) (roots : List (String × Tree)) :
    (if e.1 = table then { e.2 with heap := pages, roots := roots } else e.2).tableMeta =
      e.2.tableMeta := by
  split
  · rfl
  · rfl

theorem Distinct.exec (h : Distinct db) (s : Statement H) : Distinct (execDdl env heap db s) := by
  cases s with
  | createTable name columns primaryKey unique pages =>
    rw [execDdl]
    split
    · exact h
    rename_i hnew
    split
    · rename_i t hcreate
      have hmeta := createTable_ok hcreate
      refine ⟨?_, ?_, fun e he => ?_⟩
      · rw [List.map_append]
        exact h.tables.append (List.nodup_singleton _) (by simpa using hnew)
      · have hnone : indexNames (name, t) = [] := by
          rw [indexNames, hmeta]
          rfl
        rw [List.flatMap_append, List.flatMap_singleton, hnone, List.append_nil]
        exact h.indexes
      · rcases List.mem_append.mp he with he | he
        · exact h.plain e he
        · obtain rfl := List.mem_singleton.mp he
          simp [hmeta]
    · exact h
  | createIndex table idx =>
    rw [execDdl]
    split
    · exact h
    rename_i hfree
    split
    · exact h
    rename_i t hlookup
    split
    · rename_i t' hcreate
      obtain ⟨d, hd, hmeta⟩ := createIndex_ok hcreate
      obtain ⟨hname, -, hplain⟩ := newIndexDef_ok hd
      exact h.set (mem_of_lookup_eq hlookup) (by rw [hname]; simpa using hfree) hplain
        (by rw [hmeta])
    · exact h
  | dropIndex names ifExists =>
    rw [execDdl]
    split
    · exact h.foldl
    · exact h
  | changeRows table pages roots =>
    rw [execDdl]
    refine ⟨?_, ?_, fun e he => ?_⟩
    · rw [List.map_map]
      exact h.tables
    · have hnames : ∀ e ∈ db, indexNames (e.1, if e.1 = table then
          { e.2 with heap := pages, roots := roots } else e.2) = indexNames e := fun e _ => by
        rw [indexNames, changeRows_meta, indexNames]
      rw [List.flatMap_map, List.flatMap_congr hnames]
      exact h.indexes
    · obtain ⟨e, hmem, rfl⟩ := List.mem_map.mp he
      rw [changeRows_meta]
      exact h.plain e hmem

/-- One statement keeps the sources unless it leaves a residue. -/
theorem exec_sourced_iff (h : Distinct db) (hsourced : AllSourced db) (s : Statement H) :
    AllSourced (execDdl env heap db s) ↔ LeavesNoResidue db s := by
  cases s with
  | createTable name columns primaryKey unique pages =>
    refine iff_of_true ?_ trivial
    rw [execDdl]
    split
    · exact hsourced
    split
    · rename_i t hcreate
      intro e he
      rcases List.mem_append.mp he with he | he
      · exact hsourced e he
      · obtain rfl := List.mem_singleton.mp he
        rw [createTable_ok hcreate]
        simp [Sourced, Source]
    · exact hsourced
  | createIndex table idx =>
    refine iff_of_true ?_ trivial
    rw [execDdl]
    split
    · exact hsourced
    split
    · exact hsourced
    rename_i t hlookup
    split
    · rename_i t' hcreate
      obtain ⟨d, hd, hmeta⟩ := createIndex_ok hcreate
      obtain ⟨-, hcols, hplain⟩ := newIndexDef_ok hd
      refine hsourced.set ?_
      rw [hmeta]
      exact (hsourced _ (mem_of_lookup_eq hlookup)).created hcols hplain
    · exact hsourced
  | dropIndex names ifExists =>
    rw [execDdl]
    split
    · rename_i hmay
      exact (allSourced_dropped_iff h hsourced).trans (imp_iff_right hmay).symm
    · rename_i hmay
      exact iff_of_true hsourced fun hyes => absurd hyes hmay
  | changeRows table pages roots =>
    refine iff_of_true ?_ trivial
    rw [execDdl]
    intro e he
    obtain ⟨e, hmem, rfl⟩ := List.mem_map.mp he
    rw [changeRows_meta]
    exact hsourced e hmem

structure Kept (db : Database H) : Prop where
  distinct : Distinct db
  sourced : AllSourced db

/-- In every run the unique columns are those with a declared source, as long as no
index is dropped for which its column stays in the list, and only as long. -/
theorem unique_sources_iff (env : Env Doc) (heap : DocHeap Doc H) (events : List (Statement H)) :
    (∀ done e, done ++ [e] <+: events →
      LeavesNoResidue (done.foldl (execDdl env heap) []) e) ↔
      ∀ done, done <+: events → AllSourced (done.foldl (execDdl env heap) []) := by
  have hinit : Kept ([] : Database H) :=
    ⟨⟨List.nodup_nil, List.nodup_nil, by simp⟩, by simp [AllSourced]⟩
  refine Lib.Run.fit_iff_good hinit ?_ (fun _ h => h.sourced) ?_ events
  · exact fun db s h hfit =>
      ⟨h.distinct.exec s, (exec_sourced_iff h.distinct h.sourced s).mpr hfit⟩
  · exact fun db s h hgood => (exec_sourced_iff h.distinct h.sourced s).mp hgood

end Runs

/-! ## A unique index and a partial one on the same column -/

def bareEnv : Env Unit where
  codec := rustDecimal
  get _ _ := none
  insert row _ _ := row
  remove row _ := row
  objectKey _ := []
  jsonPathKey _ _ _ := none
  parsePred _ := some fun _ => .ok true
  renameIdent text _ _ := text
  refuses _ _ := none

/-- `CREATE TABLE t (c)`, `CREATE UNIQUE INDEX u ON t (c)`,
`CREATE UNIQUE INDEX p ON t (c) WHERE c > 0`, `DROP INDEX u`. -/
def dropBesidePartial : List (Statement (ListHeap Unit)) :=
  [.createTable "t" ["c"] none [] ⟨[], List.nodup_nil⟩,
    .createIndex "t" ⟨"u", [.column "c"], true, none, none⟩,
    .createIndex "t" ⟨"p", [.column "c"], true, some "c > 0", none⟩,
    .dropIndex ["u"] false]

/-- The column stays unique although only the partial index is left. -/
theorem column_stays_unique :
    ¬∀ done, done <+: dropBesidePartial →
      AllSourced (done.foldl (execDdl bareEnv (listHeap Unit)) []) := by
  intro hall
  have hlast : ∃ e, dropBesidePartial.foldl (execDdl bareEnv (listHeap Unit)) [] = [e] ∧
      e.2.tableMeta = ⟨"t", ["c"], none, ["c"], [], [⟨"p", ["c"], true, none, some "c > 0"⟩]⟩ :=
    ⟨_, rfl, rfl⟩
  obtain ⟨e, hrun, hmeta⟩ := hlast
  have hsourced := hall _ List.prefix_rfl
  rw [hrun] at hsourced
  have hc := hsourced e List.mem_cons_self "c"
  rw [hmeta] at hc
  simp [Source] at hc

end Docsql.Index
