import Docsql.Catalog.Refs

/-!
# What goes when objects are dropped

The views that depend on what is dropped are found by rounds.  What the rounds end with is
closed: no view that stays names an object that goes.  Materialized views are not looked at.
-/

namespace Docsql.Catalog

open Sql (Query ViewClosure)

variable {s : Schema}

/-! ## Dependent views -/

/-- No view outside the targets names one of them. -/
def ViewsStay (s : Schema) (targets : List String) : Prop :=
  ∀ n e q, s.get n = some e → e.kind = .view q → n ∉ targets →
    ∀ t ∈ Sql.namesQuery [] q, t ∉ targets

/-- The same of the materialized views. -/
def MatviewsStay (s : Schema) (targets : Set String) : Prop :=
  ∀ n e q, s.get n = some e → e.kind = .matview q → n ∉ targets →
    ∀ t ∈ Sql.namesQuery [] q, t ∉ targets

theorem mem_directViewDependents {targets : List String} {n : String} :
    n ∈ s.directViewDependents targets ↔ n ∈ s.names ∧ s.isView n = true ∧ n ∉ targets ∧
      ∃ bases, Sql.viewBaseTables s.catalog n = some bases ∧ ∃ b ∈ bases, b ∈ targets := by
  unfold Schema.directViewDependents
  rw [List.mem_filter]
  simp only [Bool.and_eq_true, Bool.not_eq_true', decide_eq_false_iff_not, and_assoc,
    Option.any_eq_true, List.any_eq_true, decide_eq_true_eq]

theorem isView_of_get {n : String} {e : Entry} (hget : s.get n = some e) :
    s.isView n = e.isView := by
  unfold Schema.isView
  rw [hget]
  rfl

theorem Inv.viewsStay (h : Inv s) {targets : List String}
    (hnone : s.directViewDependents targets = []) : ViewsStay s targets := by
  intro n e q hget hkind hn t ht hgone
  obtain ⟨bases, hbases, hmem⟩ := h.mem_bases hget hkind ht
  have hview : s.isView n = true := (isView_of_get hget).trans (Entry.isView_of_kind hkind)
  have hdep : n ∈ s.directViewDependents targets :=
    mem_directViewDependents.2 ⟨s.mem_names hget, hview, hn, bases, hbases, t, hmem, hgone⟩
  rw [hnone] at hdep
  exact absurd hdep List.not_mem_nil

/-- An object that goes with `names`. -/
def Goes (s : Schema) (names : List String) (cascade : Bool) : Set String :=
  {t | t ∈ names ∨ cascade = true ∧ s.isView t = true ∧ ∃ n ∈ names, ViewClosure s.catalog t n}

theorem Goes.dependent {names targets : List String} (h : ∀ t ∈ targets, t ∈ Goes s names true)
    {t : String} (ht : t ∈ s.directViewDependents targets) : t ∈ Goes s names true := by
  obtain ⟨-, hview, -, bases, hbases, b, hb, hmem⟩ := mem_directViewDependents.1 ht
  refine .inr ⟨rfl, hview, ?_⟩
  rcases h b hmem with hnamed | ⟨-, -, n, hn, hclosure⟩
  · exact ⟨b, hnamed, .view hbases hb (.refl b)⟩
  · exact ⟨n, hn, .view hbases hb hclosure⟩

/-- A round with dependents has more names among the targets. -/
theorem untargeted_lt {targets : List String} (h : s.directViewDependents targets ≠ []) :
    (s.names.toFinset \ (targets ++ s.directViewDependents targets).toFinset).card <
      (s.names.toFinset \ targets.toFinset).card := by
  obtain ⟨n, hn⟩ := List.exists_mem_of_ne_nil _ h
  obtain ⟨hname, -, hnew, -⟩ := mem_directViewDependents.1 hn
  refine Finset.card_lt_card ⟨fun t ht => ?_, fun hsub => ?_⟩
  · rw [Finset.mem_sdiff, List.mem_toFinset] at ht ⊢
    refine ⟨ht.1, fun hmem => ht.2 ?_⟩
    exact List.mem_toFinset.2 (List.mem_append_left _ (List.mem_toFinset.1 hmem))
  · have hmem : n ∈ s.names.toFinset \ targets.toFinset := by simp [hname, hnew]
    have hgone := (Finset.mem_sdiff.1 (hsub hmem)).2
    exact hgone (List.mem_toFinset.2 (List.mem_append_right _ hn))

theorem expandRounds_spec {cascade : Bool} {rounds : ℕ} {names targets dropping : List String}
    (h : s.expandRounds cascade rounds targets = .ok dropping)
    (hrounds : (s.names.toFinset \ targets.toFinset).card ≤ rounds)
    (hgoes : ∀ t ∈ targets, t ∈ Goes s names cascade) :
    targets ⊆ dropping ∧ s.directViewDependents dropping = [] ∧
      ∀ t ∈ dropping, t ∈ Goes s names cascade := by
  induction rounds generalizing targets with
  | zero =>
    rw [Schema.expandRounds] at h
    by_cases hdeps : s.directViewDependents targets = []
    · rw [hdeps] at h
      cases h
      exact ⟨List.Subset.refl _, hdeps, hgoes⟩
    · have := untargeted_lt hdeps
      omega
  | succ rounds ih =>
    rw [Schema.expandRounds] at h
    by_cases hdeps : s.directViewDependents targets = []
    · rw [hdeps] at h
      cases h
      exact ⟨List.Subset.refl _, hdeps, hgoes⟩
    · simp only [List.isEmpty_iff, hdeps, if_false] at h
      cases cascade with
      | false => cases h
      | true =>
        have hlt := untargeted_lt hdeps
        obtain ⟨hsub, hclosed, hall⟩ := ih h (by omega) fun t ht => by
          rcases List.mem_append.1 ht with ht | ht
          · exact hgoes t ht
          · exact Goes.dependent hgoes ht
        exact ⟨List.Subset.trans (List.subset_append_left _ _) hsub, hclosed, hall⟩

/-- The dropped objects are those that go, and no view that stays names one of them. -/
theorem expandViewDependents_spec {cascade : Bool} {names dropping : List String}
    (h : s.expandViewDependents names cascade = .ok dropping) :
    names ⊆ dropping ∧ s.directViewDependents dropping = [] ∧
      ∀ t ∈ dropping, t ∈ Goes s names cascade := by
  refine expandRounds_spec h ?_ fun t ht => .inl ht
  refine (Finset.card_le_card Finset.sdiff_subset).trans ?_
  exact (List.toFinset_card_le _).trans_eq (List.length_map _)

theorem mem_names_of_matview {names : List String} {cascade : Bool} {n : String} {e : Entry}
    {q : Query} (hget : s.get n = some e) (hkind : e.kind = .matview q)
    (hn : n ∈ Goes s names cascade) : n ∈ names := by
  rcases hn with hnamed | ⟨-, hview, -⟩
  · exact hnamed
  · rw [isView_of_get hget, Entry.isView, hkind] at hview
    cases hview

theorem MatviewsStay.dropped {names dropping : List String} {cascade : Bool}
    (h : MatviewsStay s (Goes s names cascade)) (hnames : names ⊆ dropping)
    (hgoes : ∀ t ∈ dropping, t ∈ Goes s names cascade) :
    MatviewsStay s {t | t ∈ dropping} := by
  intro n e q hget hkind hn t ht hgone
  refine h n e q hget hkind (fun hn' => ?_) t ht (hgoes t hgone)
  exact hn (hnames (mem_names_of_matview hget hkind hn'))

/-! ## The catalog without them -/

section Remove

variable {s' : Schema} {gone : List String} {fks : String → Entry → List FkRef}

/-- `s'` is `s` without the objects of `gone`, and with fewer foreign keys. -/
def Removed (s s' : Schema) (gone : List String) (fks : String → Entry → List FkRef) : Prop :=
  ∀ t, s'.get t =
    if t ∈ gone then none else (s.get t).map fun e => { e with foreignKeys := fks t e }

theorem Removed.get_kept (h : Removed s s' gone fks) {t : String} {e : Entry}
    (hget : s.get t = some e) (ht : t ∉ gone) :
    s'.get t = some { e with foreignKeys := fks t e } := by
  rw [h t, if_neg ht, hget]
  rfl

theorem Removed.of_get (h : Removed s s' gone fks) {t : String} {e' : Entry}
    (hget : s'.get t = some e') :
    t ∉ gone ∧ ∃ e, s.get t = some e ∧ e' = { e with foreignKeys := fks t e } := by
  rw [h t] at hget
  split at hget
  · cases hget
  · rename_i ht
    obtain ⟨e, he, rfl⟩ := Option.map_eq_some_iff.1 hget
    exact ⟨ht, e, he, rfl⟩

theorem Inv.removed (h : Inv s) (hremoved : Removed s s' gone fks)
    (htriggers : ∀ p ∈ s'.triggers, p ∈ s.triggers ∧ p.2.table ∉ gone)
    (hfks : ∀ n e, s.get n = some e → n ∉ gone →
      ∀ fk ∈ fks n e, fk ∈ e.foreignKeys ∧ fk.refTable ∉ gone)
    (hviews : ViewsStay s gone) (hmatviews : MatviewsStay s {t | t ∈ gone}) : Inv s' where
  queries := by
    intro n e' q hget hquery t ht
    obtain ⟨hn, e, he, rfl⟩ := hremoved.of_get hget
    have hstays : t ∉ gone := by
      rcases Entry.kind_of_query hquery with hkind | hkind
      · exact hviews n e q he hkind hn t ht
      · exact hmatviews n e q he hkind hn t ht
    obtain ⟨base, hbase⟩ := Option.isSome_iff_exists.1 (h.queries n e q he hquery t ht)
    rw [hremoved.get_kept hbase hstays]
    rfl
  triggers := by
    intro p hp
    obtain ⟨hold, hstays⟩ := htriggers p hp
    obtain ⟨e, hget, hview, hid⟩ := h.triggers p hold
    exact ⟨_, hremoved.get_kept hget hstays, hview, hid⟩
  foreignKeys := by
    intro n e' hget fk hfk
    obtain ⟨hn, e, he, rfl⟩ := hremoved.of_get hget
    obtain ⟨hold, hstays⟩ := hfks n e he hn fk hfk
    obtain ⟨parent, hparent, hview, hcol⟩ := h.foreignKeys n e he fk hold
    exact ⟨_, hremoved.get_kept hparent hstays, hview, hcol⟩
  acyclic := by
    refine h.acyclic.mono fun v refs hrefs => ?_
    obtain ⟨e', q, hget, hkind, rfl⟩ := Schema.viewRefs_eq_some hrefs
    obtain ⟨-, e, he, rfl⟩ := hremoved.of_get hget
    exact Schema.viewRefs_of_view he hkind
  walked := by
    intro n e' q hget hkind
    obtain ⟨-, e, he, rfl⟩ := hremoved.of_get hget
    exact h.walked n e q he hkind

end Remove

/-! ## DROP VIEW and DROP TABLE -/

/-- No object that a trigger or a foreign key is on is a view. -/
theorem target_stays {gone : List String} {t : String} {e : Entry}
    (hgone : ∀ n ∈ gone, s.get n = none ∨ s.isView n = true) (hget : s.get t = some e)
    (hview : e.isView = false) : t ∉ gone := by
  intro ht
  rcases hgone t ht with hnone | hyes
  · rw [hget] at hnone
    cases hnone
  · rw [isView_of_get hget, hview] at hyes
    cases hyes

theorem dropView_inv (h : Inv s) {names : List String} {ifExists cascade : Bool} {s' : Schema}
    (hmatviews : MatviewsStay s (Goes s names cascade))
    (hexec : dropView s names ifExists cascade = .ok s') : Inv s' := by
  obtain ⟨_, hchecked, hexec⟩ := Except.bind_eq_ok_iff.1 hexec
  obtain ⟨dropping, hdropping, hexec⟩ := Except.bind_eq_ok_iff.1 hexec
  cases hexec
  obtain ⟨hnames, hclosed, hgoes⟩ := expandViewDependents_spec hdropping
  have hviews : ∀ n ∈ dropping, s.get n = none ∨ s.isView n = true := by
    intro n hn
    rcases hgoes n hn with hnamed | ⟨-, hview, -⟩
    · have hok := Sql.forM_ok hchecked n hnamed
      unfold checkDropView at hok
      split at hok
      · exact .inl ‹_›
      · rename_i e hget
        split at hok
        · rename_i hview
          exact .inr ((isView_of_get hget).trans hview)
        · cases hok
    · exact .inr hview
  have hremoved : Removed s (s.removeAll dropping) dropping fun _ e => e.foreignKeys := by
    intro t
    rw [s.get_removeAll]
    split
    · rfl
    · exact Option.map_id'.symm
  refine h.removed hremoved ?_ ?_ (h.viewsStay hclosed) ?_
  · intro p hp
    obtain ⟨e, hget, hview, -⟩ := h.triggers p hp
    exact ⟨hp, target_stays hviews hget hview⟩
  · intro n e hget _ fk hfk
    obtain ⟨parent, hparent, hview, -⟩ := h.foreignKeys n e hget fk hfk
    exact ⟨hfk, target_stays hviews hparent hview⟩
  · exact hmatviews.dropped hnames hgoes

/-- With CASCADE what goes is the closure; without, there is nothing but the names. -/
theorem dropTargets_spec (h : Inv s) {names dropping : List String} {cascade : Bool}
    (hdropping : dropTargets s names cascade = .ok dropping) :
    names ⊆ dropping ∧ (∀ t ∈ dropping, t ∈ Goes s names cascade) ∧ ViewsStay s dropping := by
  unfold dropTargets at hdropping
  cases cascade with
  | true =>
    obtain ⟨hnames, hclosed, hgoes⟩ := expandViewDependents_spec hdropping
    exact ⟨hnames, hgoes, h.viewsStay hclosed⟩
  | false =>
    obtain ⟨there, hthere, hdone⟩ := Except.bind_eq_ok_iff.1 hdropping
    cases hdone
    obtain ⟨hsub, hclosed, hgoes⟩ := expandViewDependents_spec hthere
    refine ⟨List.Subset.refl _, fun t ht => .inl ht, ?_⟩
    intro n e q hget hkind hn t ht hgone
    have hex := h.queries n e q hget (Entry.query_of_view hkind) t ht
    refine h.viewsStay hclosed n e q hget hkind (fun hmem => ?_) t ht
      (hsub (List.mem_filter.2 ⟨hgone, hex⟩))
    rcases hgoes n hmem with hnamed | ⟨hcascade, -⟩
    · exact hn (List.mem_of_mem_filter hnamed)
    · cases hcascade

theorem mem_referencing {table n : String} {apart : List String} {e : Entry}
    (hget : s.get n = some e) {fk : FkRef} (hfk : fk ∈ e.foreignKeys) (href : fk.refTable = table)
    (hne : n ≠ table) (hn : n ∉ apart) : n ∈ s.referencing table apart := by
  unfold Schema.referencing
  rw [List.mem_filter, hget]
  refine ⟨s.mem_names hget, decide_eq_true ⟨hne, hn, ?_⟩⟩
  rw [Option.any_some, List.any_eq_true]
  exact ⟨fk, hfk, decide_eq_true href⟩

/-- The foreign keys an object is left with. -/
def fksLeft (s : Schema) (dropSet : List String) (n : String) (e : Entry) : List FkRef :=
  if n ∈ dropSet.flatMap fun m => if (s.get m).isSome then s.referencing m dropSet else [] then
    e.foreignKeys.filter fun fk => fk.refTable ∉ dropSet
  else e.foreignKeys

theorem dropAll_removed (dropping dropSet : List String) :
    Removed s (dropAll s dropping dropSet) dropping (fksLeft s dropSet) := by
  intro t
  show ((s.mapEntries _).removeAll dropping).get t = _
  rw [Schema.get_removeAll, Schema.get_mapEntries]
  split
  · rfl
  · congr 1
    funext e
    unfold fksLeft
    split <;> rfl

theorem dropTable_inv (h : Inv s) {names : List String} {ifExists cascade : Bool} {s' : Schema}
    (hmatviews : MatviewsStay s (Goes s names cascade))
    (hexec : dropTable s names ifExists cascade = .ok s') : Inv s' := by
  obtain ⟨_, -, hexec⟩ := Except.bind_eq_ok_iff.1 hexec
  obtain ⟨dropping, hdropping, hexec⟩ := Except.bind_eq_ok_iff.1 hexec
  obtain ⟨_, -, hexec⟩ := Except.bind_eq_ok_iff.1 hexec
  cases hexec
  obtain ⟨hnames, hgoes, hviews⟩ := dropTargets_spec h hdropping
  -- What a trigger or a foreign key is on goes as a table.
  have hset {t : String} {e : Entry} (hget : s.get t = some e) (hview : e.isView = false)
      (ht : t ∈ dropping) : t ∈ dropping.filter fun n => !s.isView n := by
    refine List.mem_filter.2 ⟨ht, ?_⟩
    rw [isView_of_get hget, hview]
    rfl
  refine h.removed (dropAll_removed dropping _) ?_ ?_ hviews (hmatviews.dropped hnames hgoes)
  · intro p hp
    obtain ⟨hold, hstays⟩ := List.mem_filter.1 hp
    obtain ⟨e, hget, hview, -⟩ := h.triggers p hold
    exact ⟨hold, fun hgone => of_decide_eq_true hstays (hset hget hview hgone)⟩
  · intro n e hget hn fk hfk
    have hold : fk ∈ e.foreignKeys := by
      unfold fksLeft at hfk
      split at hfk
      · exact List.mem_of_mem_filter hfk
      · exact hfk
    obtain ⟨parent, hparent, hview, -⟩ := h.foreignKeys n e hget fk hold
    refine ⟨hold, fun hgone => ?_⟩
    have hparentSet := hset hparent hview hgone
    have hmem : n ∈ s.referencing fk.refTable (dropping.filter fun n => !s.isView n) :=
      mem_referencing hget hold rfl (fun hne => hn (hne ▸ hgone))
        fun hn' => hn (List.mem_of_mem_filter hn')
    unfold fksLeft at hfk
    rw [if_pos (List.mem_flatMap.2 ⟨fk.refTable, hparentSet, by rwa [hparent]⟩)] at hfk
    exact of_decide_eq_true (List.mem_filter.1 hfk).2 hparentSet

end Docsql.Catalog
