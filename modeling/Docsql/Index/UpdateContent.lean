import Docsql.Index.DmlContent

/-!
# UPDATE and DELETE on the fast path, and MERGE

The rows a statement changes are some of those stored, each at most once.
-/

namespace Docsql.Index

open StateExcept (Ends forEach)

variable {Doc H : Type} {env : Env Doc} {heap : DocHeap Doc H} {strict fail : Prop}
variable {specs : List (IdxSpec Doc)} {rows targets : List (ℕ × Doc)} {w : Work H} {loc : ℕ}
variable {doc : Doc} {keys : List String} {t t' : Table H}

/-! ## Rows a statement picks -/

/-- Some of the rows, none twice. -/
structure Picked (rows targets : List (ℕ × Doc)) : Prop where
  once : (targets.map Prod.fst).Nodup
  stored : ∀ e ∈ targets, e ∈ rows

def others (rows targets : List (ℕ × Doc)) : List (ℕ × Doc) :=
  rows.filter fun e => e.1 ∉ targets.map Prod.fst

theorem Picked.sublist {some : List (ℕ × Doc)} (h : Picked rows targets)
    (hsub : some.Sublist targets) : Picked rows some :=
  ⟨h.once.sublist (hsub.map _), fun e he => h.stored e (hsub.subset he)⟩

theorem picked_self (h : (rows.map Prod.fst).Nodup) : Picked rows rows :=
  ⟨h, fun _ he => he⟩

theorem eq_of_same_loc (hrows : (rows.map Prod.fst).Nodup) {a b : ℕ × Doc} (ha : a ∈ rows)
    (hb : b ∈ rows) (heq : a.1 = b.1) : a = b :=
  List.inj_on_of_nodup_map hrows ha hb heq

/-- The rows are those picked and the others. -/
theorem Picked.perm (h : Picked rows targets) (hrows : (rows.map Prod.fst).Nodup) :
    rows.Perm (targets ++ others rows targets) := by
  have hsplit := List.filter_append_perm (fun e : ℕ × Doc => decide (e.1 ∈ targets.map Prod.fst))
    rows
  have hpicked : (rows.filter fun e => e.1 ∈ targets.map Prod.fst).Perm targets := by
    refine (List.perm_ext_iff_of_nodup (hrows.of_map.filter _) h.once.of_map).mpr fun e => ?_
    rw [List.mem_filter, decide_eq_true_iff]
    refine ⟨?_, fun he => ⟨h.stored e he, List.mem_map_of_mem he⟩⟩
    rintro ⟨he, hloc⟩
    obtain ⟨e', he', heq⟩ := List.mem_map.mp hloc
    rwa [← eq_of_same_loc hrows (h.stored e' he') he heq]
  refine hsplit.symm.trans (hpicked.append ?_)
  refine List.Perm.of_eq (List.filter_congr fun e _ => ?_)
  simp

theorem mem_docsAt {before : List (ℕ × Doc)} {locs : List ℕ} {e : ℕ × Doc}
    (h : e ∈ docsAt before locs) : e ∈ before := by
  obtain ⟨loc, -, he⟩ := List.mem_filterMap.mp h
  obtain ⟨d, hd, rfl⟩ := Option.map_eq_some_iff.mp he
  exact mem_of_lookup hd

theorem docsAt_locs_sublist (before : List (ℕ × Doc)) (locs : List ℕ) :
    ((docsAt before locs).map Prod.fst).Sublist locs := by
  induction locs with
  | nil => exact List.Sublist.refl _
  | cons loc locs ih =>
    unfold docsAt at ih ⊢
    rw [List.filterMap_cons]
    cases before.lookup loc with
    | none => exact ih.cons _
    | some d => exact ih.cons_cons loc

theorem picked_docsAt {locs : List ℕ} (h : locs.Nodup) : Picked rows (docsAt rows locs) :=
  ⟨h.sublist (docsAt_locs_sublist rows locs), fun _ he => mem_docsAt he⟩

theorem entries_locs_sublist (spec : IdxSpec Doc) (rows : List (ℕ × Doc)) :
    ((entries env spec rows).map Prod.snd).Sublist (rows.map Prod.fst) := by
  induction rows with
  | nil => exact List.Sublist.refl _
  | cons row rows ih =>
    rw [entries_cons, List.map_append, List.map_cons]
    cases he : entryOf env spec row with
    | none => exact ih.cons _
    | some e =>
      rw [Option.toList_some, List.map_singleton, entryOf_loc he]
      exact ih.cons_cons _

/-- Every tree of a sound table is in order. -/
theorem Sound.treeOk (h : Sound env heap strict t) {k : String} {tree : Tree}
    (hlookup : t.roots.lookup k = some tree) :
    TreeOk env strict (t.rows heap) (specOf env t.tableMeta k) tree := by
  have hk : k ∈ t.roots.map Prod.fst := by
    by_contra hnot
    rw [List.lookup_eq_none_iff.mpr] at hlookup
    · cases hlookup
    · intro p hp
      have hne : k ≠ p.1 := fun heq => hnot (heq ▸ List.mem_map_of_mem hp)
      simpa using hne
  obtain ⟨tree', hlookup', hok⟩ := h.keeps _ (List.mem_map_of_mem hk)
  obtain rfl := Option.some.inj (hlookup.symm.trans hlookup')
  exact hok

/-- An index probe picks rows. -/
theorem Sound.picked_probeRows (h : Sound env heap strict t) (plan : Plan) :
    Picked (t.rows heap) (probeRows heap t plan) := by
  refine picked_docsAt ?_
  rw [(List.mergeSort_perm _ _).nodup_iff]
  cases hlookup : t.roots.lookup plan.1 with
  | none => exact List.nodup_nil
  | some tree =>
    refine List.Nodup.sublist (List.filter_sublist.map _) ?_
    rw [Option.getD_some, ((h.treeOk hlookup).perm.map Prod.snd).nodup_iff]
    exact (heap.distinct t.heap).sublist (entries_locs_sublist _ _)

/-! ## UPDATE -/

theorem planUpdates_sublist {req : UpdateReq Doc} {updates : List (ℕ × Doc × Doc)}
    (h : planUpdates req rows = .ok updates) :
    (updates.map fun u => (u.1, u.2.1)).Sublist rows := by
  induction rows generalizing updates with
  | nil =>
    obtain rfl := Except.ok.inj h
    exact List.Sublist.refl _
  | cons row rows ih =>
    rw [planUpdates] at h
    obtain ⟨pass, -, h⟩ := Except.bind_eq_ok_iff.mp h
    split at h
    · obtain ⟨new, -, h⟩ := Except.bind_eq_ok_iff.mp h
      obtain ⟨more, hmore, h⟩ := Except.bind_eq_ok_iff.mp h
      obtain rfl := Except.ok.inj h
      exact (ih hmore).cons_cons _
    · exact (ih h).cons _

/-- The documents after an update: the new images and the rows it left alone. -/
def imagesAfter (rows : List (ℕ × Doc)) (updates : List (ℕ × Doc × Doc)) : List Doc :=
  (updates.map fun u => u.2.2) ++
    (others rows (updates.map fun u => (u.1, u.2.1))).map Prod.snd

theorem Sound.applyUpdates_ends (h : Sound env heap strict t) {updates : List (ℕ × Doc × Doc)}
    (hpicked : Picked (t.rows heap) (updates.map fun u => (u.1, u.2.1))) :
    Ends (applyUpdates env heap (t.specs env) updates) ⟨t.heap, t.roots⟩ True fun _ w' =>
      ∃ rows', (rows'.map Prod.snd).Perm (imagesAfter (t.rows heap) updates) ∧
        Between env heap strict (t.specs env) (t.roots.map Prod.fst) [] rows' w' := by
  have hperm := hpicked.perm (heap.distinct t.heap)
  have hstart := h.start
  exact Index.applyUpdates_ends h.rootKeys_nodup
    ⟨hstart.stored.trans hperm, hstart.keeps.congr hperm, hstart.keys⟩

/-- A check at the end of a statement changes nothing. -/
theorem ends_final_check {α : Type} {run : WorkM H α} {post : Work H → Prop}
    {check : Work H → Except String Unit} (h : Ends run w True fun _ w' => post w') :
    Ends (run >>= fun _ => StateExcept.read >>= fun w' => StateExcept.fromExcept (check w'))
      w True fun _ w' => post w' := by
  refine h.bind fun _ w' hw' => .after_read ?_
  cases hc : check w' with
  | error e => exact .of_error (by rw [StateExcept.fromExcept]) trivial
  | ok u => exact .of_ok (by rw [StateExcept.fromExcept]) hw'

theorem Sound.execUpdateFast (h : Sound env heap strict t) {req : UpdateReq Doc} {plan : Plan}
    (hrun : execUpdateFast env heap t req plan = .ok t') :
    Sound env heap strict t' ∧ t'.tableMeta = t.tableMeta := by
  unfold Index.execUpdateFast at hrun
  obtain ⟨updates, hplan, hrun⟩ := Except.bind_eq_ok_iff.mp hrun
  split at hrun
  · obtain rfl := Except.ok.inj hrun
    exact ⟨h, rfl⟩
  · obtain ⟨-, -, hrun⟩ := Except.bind_eq_ok_iff.mp hrun
    have hpicked := (h.picked_probeRows plan).sublist (planUpdates_sublist hplan)
    obtain ⟨⟨hsound, hmeta, -⟩, -⟩ := h.commit (List.Perm · (imagesAfter (t.rows heap) updates))
      (ends_final_check (h.applyUpdates_ends hpicked)) hrun
    exact ⟨hsound, hmeta⟩

/-! ## DELETE -/

theorem matching_sublist {α : Type} {selects : Doc → Except String Bool} {docOf : α → Doc}
    {xs kept : List α} (h : matching selects docOf xs = .ok kept) : kept.Sublist xs := by
  induction xs generalizing kept with
  | nil =>
    obtain rfl := Except.ok.inj h
    exact List.Sublist.refl _
  | cons x xs ih =>
    obtain ⟨pass, -, h⟩ := Except.bind_eq_ok_iff.mp h
    obtain ⟨more, hmore, h⟩ := Except.bind_eq_ok_iff.mp h
    obtain rfl := Except.ok.inj h
    split
    · exact (ih hmore).cons_cons _
    · exact (ih hmore).cons _

/-- The rows picked go, with their entries. -/
theorem Sound.removeDocs_ends (h : Sound env heap strict t) {before : List (ℕ × Doc)}
    (hpicked : Picked (t.rows heap) targets) (hbefore : ∀ e ∈ before, e ∈ t.rows heap)
    (hfail : fail ∨ (strict ∧ Roomy env) ∧ Obliging heap ∧ ∀ e ∈ t.rows heap,
      (Heap.unpackLoc e.1).1 ∈ (targets.map Prod.fst).map (fun loc => (Heap.unpackLoc loc).1) →
        (before.lookup e.1).isSome = true) :
    Ends (removeDocs env heap (t.specs env) targets before (targets.map Prod.fst))
      ⟨t.heap, t.roots⟩ fail fun _ w' =>
      ∃ rows', (rows'.map Prod.snd = (others (t.rows heap) targets).map Prod.snd) ∧
        Between env heap strict (t.specs env) (t.roots.map Prod.fst) [] rows' w' := by
  have hperm := hpicked.perm (heap.distinct t.heap)
  have hstart := h.start
  exact Index.removeDocs_ends h.rootKeys_nodup
    ⟨hstart.stored.trans hperm, hstart.keeps.congr hperm, hstart.keys⟩ hbefore hfail

theorem Sound.execDeleteFast (h : Sound env heap strict t) {req : DeleteReq Doc} {plan : Plan}
    (hrun : execDeleteFast env heap t req plan = .ok t') :
    Sound env heap strict t' ∧ t'.tableMeta = t.tableMeta := by
  unfold Index.execDeleteFast at hrun
  obtain ⟨targets, hplan, hrun⟩ := Except.bind_eq_ok_iff.mp hrun
  split at hrun
  · obtain rfl := Except.ok.inj hrun
    exact ⟨h, rfl⟩
  · obtain ⟨-, -, hrun⟩ := Except.bind_eq_ok_iff.mp hrun
    have hpicked := (h.picked_probeRows plan).sublist (matching_sublist hplan)
    have hbefore : ∀ e ∈ (t.rows heap).filter fun e => (Heap.unpackLoc e.1).1 ∈
        (targets.map Prod.fst).map fun loc => (Heap.unpackLoc loc).1, e ∈ t.rows heap :=
      fun e he => List.mem_of_mem_filter he
    obtain ⟨⟨hsound, hmeta, -⟩, -⟩ := h.commit (· = (others (t.rows heap) targets).map Prod.snd)
      (.after_read (h.removeDocs_ends hpicked hbefore (.inl trivial))) hrun
    exact ⟨hsound, hmeta⟩

end Docsql.Index
