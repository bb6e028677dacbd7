import Docsql.Dml.Referential

/-!
# What a plan lists

The deltas of a referential plan list rows of the tables.  A row to delete is
listed once, and so is a row that only actions update; the rows the statement
updates itself are listed as often as the statement lists them, where an action
can go on with the first entry.
-/

namespace Docsql.Dml

open Except (bind_eq_ok_iff)

variable {Doc H : Type} {env : Env Doc}

/-- The entries for one row. -/
def listedFor (env : Env Doc) (pairs : List (Doc × Doc)) (doc : Doc) : List (Doc × Doc) :=
  pairs.filter fun p => env.objectKey p.1 = env.objectKey doc

/-- The entries for a row, beside those the statement has for it. -/
inductive Grown (gone : Prop) : List (Doc × Doc) → List (Doc × Doc) → Prop where
  | kept (ps : List (Doc × Doc)) : Grown gone ps ps
  | dropped (ps : List (Doc × Doc)) (h : gone) : Grown gone ps []
  | staged (p : Doc × Doc) : Grown gone [] [p]
  | composed (p : Doc × Doc) (new : Doc) (rest : List (Doc × Doc)) :
      Grown gone (p :: rest) ((p.1, new) :: rest)

theorem Grown.mono {gone gone' : Prop} {ps qs : List (Doc × Doc)} (h : Grown gone ps qs)
    (himp : gone → gone') : Grown gone' ps qs := by
  cases h with
  | kept => exact .kept _
  | dropped _ h => exact .dropped _ (himp h)
  | staged => exact .staged _
  | composed => exact .composed _ _ _

structure Tracks (env : Env Doc) (pre : List Doc) (base : List (Doc × Doc))
    (d : ReferentialDelta Doc) : Prop where
  once : (d.deleteKeys env).Nodup
  deletes : ∀ doc ∈ d.deletes, doc ∈ pre
  updates : ∀ p ∈ d.updates, p.1 ∈ pre
  apart : ∀ p ∈ d.updates, env.objectKey p.1 ∉ d.deleteKeys env
  grown : ∀ doc, Grown (env.objectKey doc ∈ d.deleteKeys env) (listedFor env base doc)
    (listedFor env d.updates doc)

variable {pre : List Doc} {base : List (Doc × Doc)} {d d' : ReferentialDelta Doc} {doc : Doc}

namespace ReferentialDelta

theorem composeFirst_fst (key : List UInt8) (col : String) (val : Value)
    (ps : List (Doc × Doc)) :
    (composeFirst env key col val ps).map Prod.fst = ps.map Prod.fst := by
  induction ps with
  | nil => rfl
  | cons p ps ih =>
    rw [composeFirst]
    split
    · rfl
    · rw [List.map_cons, List.map_cons, ih]

theorem listedFor_composeFirst_ne {key : List UInt8} (h : key ≠ env.objectKey doc) (col : String)
    (val : Value) (ps : List (Doc × Doc)) :
    listedFor env (composeFirst env key col val ps) doc = listedFor env ps doc := by
  induction ps with
  | nil => rfl
  | cons p ps ih =>
    rw [composeFirst]
    unfold listedFor at ih ⊢
    split
    case isTrue hkey =>
      have hne : env.objectKey p.1 ≠ env.objectKey doc := hkey ▸ h
      rw [List.filter_cons_of_neg (by simpa using hne),
        List.filter_cons_of_neg (by simpa using hne)]
    case isFalse =>
      rw [List.filter_cons, List.filter_cons, ih]

theorem listedFor_composeFirst (doc : Doc) (col : String) (val : Value) (ps : List (Doc × Doc)) :
    listedFor env (composeFirst env (env.objectKey doc) col val ps) doc =
      match listedFor env ps doc with
      | [] => []
      | p :: rest => (p.1, env.insert p.2 col val) :: rest := by
  induction ps with
  | nil => rfl
  | cons p ps ih =>
    rw [composeFirst]
    unfold listedFor at ih ⊢
    split
    case isTrue hkey =>
      rw [List.filter_cons_of_pos (by simpa using hkey),
        List.filter_cons_of_pos (by simpa using hkey)]
    case isFalse hkey =>
      rw [List.filter_cons_of_neg (by simpa using hkey),
        List.filter_cons_of_neg (by simpa using hkey), ih]

end ReferentialDelta

namespace Tracks

theorem empty : Tracks env pre [] {} :=
  ⟨List.nodup_nil, by simp, by simp, by simp, fun _ => .kept _⟩

/-- The statement's own updates, before any action. -/
theorem of_base (h : ∀ p ∈ base, p.1 ∈ pre) : Tracks env pre base { updates := base } :=
  ⟨List.nodup_nil, by simp, h, by simp [ReferentialDelta.deleteKeys], fun _ => .kept _⟩

theorem stageDelete (h : Tracks env pre base d) (hdoc : doc ∈ pre) :
    Tracks env pre base (d.stageDelete env doc) := by
  unfold ReferentialDelta.stageDelete
  split
  case isTrue => exact h
  case isFalse hkey =>
    have hkeys : ∀ us, ReferentialDelta.deleteKeys env ⟨d.deletes ++ [doc], us⟩ =
        d.deleteKeys env ++ [env.objectKey doc] := fun us => by
      simp [ReferentialDelta.deleteKeys]
    refine ⟨?_, ?_, ?_, ?_, ?_⟩
    · rw [hkeys]
      exact h.once.append (List.nodup_singleton _) (by simpa using hkey)
    · intro x hx
      rcases List.mem_append.mp hx with hx | hx
      · exact h.deletes x hx
      · rwa [List.mem_singleton.mp hx]
    · exact fun p hp => h.updates p (List.mem_of_mem_filter hp)
    · intro p hp hmem
      rw [hkeys] at hmem
      obtain ⟨hin, hne⟩ := List.mem_filter.mp hp
      rcases List.mem_append.mp hmem with hmem | hmem
      · exact h.apart p hin hmem
      · exact (of_decide_eq_true hne) (List.mem_singleton.mp hmem)
    · intro x
      rw [hkeys]
      by_cases hx : env.objectKey x = env.objectKey doc
      · have hnone : listedFor env (d.updates.filter fun p =>
            env.objectKey p.1 ≠ env.objectKey doc) x = [] := by
          refine List.filter_eq_nil_iff.mpr fun p hp hsame => ?_
          exact of_decide_eq_true (List.mem_filter.mp hp).2 ((of_decide_eq_true hsame).trans hx)
        rw [hnone]
        exact .dropped _ (by simp [hx])
      · have hsame : listedFor env (d.updates.filter fun p =>
            env.objectKey p.1 ≠ env.objectKey doc) x = listedFor env d.updates x := by
          unfold listedFor
          rw [List.filter_filter]
          refine List.filter_congr fun p _ => ?_
          by_cases hp : env.objectKey p.1 = env.objectKey x
          · simp [hp, hx]
          · simp [hp]
        rw [hsame]
        exact (h.grown x).mono fun hmem => List.mem_append_left _ hmem

theorem stageUpdate (h : Tracks env pre base d) (hdoc : doc ∈ pre) {col : String} {val : Value}
    {changed : Bool} (hrun : d.stageUpdate env doc col val = .ok (d', changed)) :
    Tracks env pre base d' := by
  unfold ReferentialDelta.stageUpdate at hrun
  split at hrun
  case isTrue =>
    cases hrun
    exact h
  case isFalse hkey =>
    split at hrun
    case h_1 pair hfind =>
      dsimp only at hrun
      split at hrun
      · cases hrun
        exact h
      · split at hrun
        · cases hrun
        · cases hrun
          have hfst : (ReferentialDelta.composeFirst env (env.objectKey doc) col val
              d.updates).map Prod.fst = d.updates.map Prod.fst :=
            ReferentialDelta.composeFirst_fst _ col val d.updates
          have hmem : ∀ p ∈ ReferentialDelta.composeFirst env (env.objectKey doc) col val d.updates,
              ∃ q ∈ d.updates, q.1 = p.1 := by
            intro p hp
            have hin := List.mem_map_of_mem (f := Prod.fst) hp
            rw [hfst] at hin
            exact List.mem_map.mp hin
          refine ⟨h.once, h.deletes, ?_, ?_, ?_⟩
          · intro p hp
            obtain ⟨q, hq, heq⟩ := hmem p hp
            rw [← heq]
            exact h.updates q hq
          · intro p hp
            obtain ⟨q, hq, heq⟩ := hmem p hp
            rw [← heq]
            exact h.apart q hq
          · intro x
            change Grown (env.objectKey x ∈ d.deleteKeys env) _ _
            by_cases hx : env.objectKey doc = env.objectKey x
            · have hxdoc : x = doc := env.objectKey_injective hx.symm
              subst hxdoc
              rw [ReferentialDelta.listedFor_composeFirst]
              have hgrown := h.grown x
              generalize listedFor env base x = b at hgrown ⊢
              generalize listedFor env d.updates x = u at hgrown ⊢
              cases hgrown with
              | kept =>
                cases b with
                | nil => exact .kept _
                | cons p rest => exact .composed _ _ _
              | dropped _ hgone => exact absurd hgone hkey
              | staged p => exact .staged _
              | composed p new rest => exact .composed _ _ _
            · rw [ReferentialDelta.listedFor_composeFirst_ne hx]
              exact h.grown x
    case h_2 hfind =>
      cases hrun
      have hnone : listedFor env d.updates doc = [] := by
        refine List.filter_eq_nil_iff.mpr fun p hp hsame => ?_
        have := List.find?_eq_none.mp hfind p hp
        simp only [beq_iff_eq] at this
        exact this (of_decide_eq_true hsame)
      refine ⟨h.once, h.deletes, ?_, ?_, ?_⟩
      · intro p hp
        rcases List.mem_append.mp hp with hp | hp
        · exact h.updates p hp
        · rwa [List.mem_singleton.mp hp]
      · intro p hp
        rcases List.mem_append.mp hp with hp | hp
        · exact h.apart p hp
        · rw [List.mem_singleton.mp hp]
          exact hkey
      · intro x
        change Grown (env.objectKey x ∈ d.deleteKeys env) _ _
        have happ : listedFor env (d.updates ++ [(doc, env.insert doc col val)]) x =
            listedFor env d.updates x ++ listedFor env [(doc, env.insert doc col val)] x := by
          simp [listedFor]
        rw [happ]
        by_cases hx : env.objectKey doc = env.objectKey x
        · have hxdoc : x = doc := env.objectKey_injective hx.symm
          subst hxdoc
          have hgrown := h.grown x
          rw [hnone] at hgrown ⊢
          have hlast : listedFor env [(x, env.insert x col val)] x =
              [(x, env.insert x col val)] := by
            simp [listedFor]
          rw [hlast, List.nil_append]
          generalize listedFor env base x = b at hgrown ⊢
          cases hgrown with
          | kept => exact .staged _
          | dropped _ hgone => exact absurd hgone hkey
        · have hlast : listedFor env [(doc, env.insert doc col val)] x = [] := by
            simp [listedFor, hx]
          rw [hlast, List.append_nil]
          exact h.grown x

end Tracks

/-! ## The passes -/

theorem stageFirst_tracks {col : String} {val : Doc → Value} {docs : List Doc} {changed : Bool}
    (h : Tracks env pre base d) (hdocs : ∀ doc ∈ docs, doc ∈ pre)
    (hrun : stageFirst env col val docs d = .ok (d', changed)) : Tracks env pre base d' := by
  induction docs generalizing d with
  | nil =>
    cases hrun
    exact h
  | cons doc docs ih =>
    rw [stageFirst] at hrun
    obtain ⟨⟨d₁, ch⟩, hstage, hrun⟩ := bind_eq_ok_iff.mp hrun
    have h₁ := h.stageUpdate (hdocs doc List.mem_cons_self) hstage
    dsimp only at hrun
    split at hrun
    · cases hrun
      exact h₁
    · exact ih h₁ (fun x hx => hdocs x (List.mem_cons_of_mem _ hx)) hrun

theorem restrict_ok {child parent : String} {fk : ForeignKey} {refers : Value → Bool}
    {changed : Bool} (hrun : restrict env child parent fk pre refers d = .ok (d', changed)) :
    d' = d := by
  unfold restrict at hrun
  split at hrun
  · cases hrun
    rfl
  · cases hrun

theorem hits_subset (col : String) (refers : Value → Bool) :
    ∀ doc ∈ hits env col refers pre, doc ∈ pre := fun _ h => List.mem_of_mem_filter h

section Actions

variable {c : Catalog Doc H} {child parent : String} {fk : ForeignKey} {changed : Bool}

theorem onDeleteAction_tracks {lost : List Value} (h : Tracks env pre base d)
    (hrun : onDeleteAction env c child parent fk pre lost d = .ok (d', changed)) :
    Tracks env pre base d' := by
  unfold onDeleteAction at hrun
  dsimp only at hrun
  split at hrun
  · rw [restrict_ok hrun]
    exact h
  · split at hrun
    case h_1 doc hfind =>
      cases hrun
      exact h.stageDelete (hits_subset _ _ doc (List.mem_of_find?_eq_some hfind))
    case h_2 =>
      cases hrun
      exact h
  · obtain ⟨val, -, hrun⟩ := bind_eq_ok_iff.mp hrun
    exact stageFirst_tracks h (hits_subset _ _) hrun

theorem onUpdateAction_tracks {lostOld : List (Value × Value)} (h : Tracks env pre base d)
    (hrun : onUpdateAction env c child parent fk pre lostOld d = .ok (d', changed)) :
    Tracks env pre base d' := by
  unfold onUpdateAction at hrun
  dsimp only at hrun
  split at hrun
  · rw [restrict_ok hrun]
    exact h
  · exact stageFirst_tracks h (hits_subset _ _) hrun
  · obtain ⟨val, -, hrun⟩ := bind_eq_ok_iff.mp hrun
    exact stageFirst_tracks h (hits_subset _ _) hrun

end Actions

/-- The statement's own updates of a table. -/
def ownUpdates (origin : String) (base : List (Doc × Doc)) (table : String) : List (Doc × Doc) :=
  if table = origin then base else []

/-- Every delta lists rows of its table. -/
def AllTrack (env : Env Doc) (pre : String → List Doc) (origin : String) (base : List (Doc × Doc))
    (deltas : Deltas Doc) : Prop :=
  ∀ table, Tracks env (pre table) (ownUpdates origin base table) ((deltas table).getD {})

section Passes

variable {c : Catalog Doc H} {pre : String → List Doc} {origin : String} {changed : Bool}
variable {deltas deltas' : Deltas Doc}

theorem AllTrack.update {table : String} (h : AllTrack env pre origin base deltas)
    (hd : Tracks env (pre table) (ownUpdates origin base table) d) :
    AllTrack env pre origin base (Function.update deltas table (some d)) := by
  intro t
  by_cases ht : t = table
  · subst ht
    rw [Function.update_self]
    exact hd
  · rw [Function.update_of_ne ht]
    exact h t

theorem actOn_tracks {parent child : String} {fk : ForeignKey}
    (h : AllTrack env pre origin base deltas)
    (hrun : actOn env c pre parent child fk deltas = .ok (deltas', changed)) :
    AllTrack env pre origin base deltas' := by
  unfold actOn at hrun
  dsimp only at hrun
  obtain ⟨map, -, hrun⟩ := bind_eq_ok_iff.mp hrun
  split at hrun
  · cases hrun
    exact h
  · obtain ⟨⟨d₁, ch₁⟩, hdelete, hrun⟩ := bind_eq_ok_iff.mp hrun
    have h₁ : Tracks env (pre child) (ownUpdates origin base child) d₁ := by
      unfold onLost at hdelete
      split at hdelete
      · cases hdelete
        exact h child
      · exact onDeleteAction_tracks (h child) hdelete
    dsimp only at hrun
    split at hrun
    · cases hrun
      exact h.update h₁
    · obtain ⟨⟨d₂, ch₂⟩, hupdate, hrun⟩ := bind_eq_ok_iff.mp hrun
      cases hrun
      exact h.update (onUpdateAction_tracks h₁ hupdate)

theorem pass_tracks {refs : List (String × String × ForeignKey)}
    (h : AllTrack env pre origin base deltas)
    (hrun : pass env c pre refs deltas = .ok (deltas', changed)) :
    AllTrack env pre origin base deltas' := by
  induction refs generalizing deltas with
  | nil =>
    cases hrun
    exact h
  | cons ref refs ih =>
    obtain ⟨parent, child, fk⟩ := ref
    rw [pass] at hrun
    obtain ⟨⟨deltas₁, ch⟩, hact, hrun⟩ := bind_eq_ok_iff.mp hrun
    have h₁ := actOn_tracks h hact
    dsimp only at hrun
    split at hrun
    · cases hrun
      exact h₁
    · exact ih h₁ hrun

theorem passes_tracks {left : ℕ} (h : AllTrack env pre origin base deltas)
    (hrun : passes env c pre left deltas = .ok deltas') : AllTrack env pre origin base deltas' := by
  induction left generalizing deltas with
  | zero => cases hrun
  | succ left ih =>
    rw [passes] at hrun
    obtain ⟨⟨deltas₁, ch⟩, hpass, hrun⟩ := bind_eq_ok_iff.mp hrun
    have h₁ := pass_tracks h hpass
    dsimp only at hrun
    split at hrun
    · exact ih h₁ hrun
    · cases hrun
      exact h₁

theorem baseDelta_tracks {deletes rows : List Doc} (hdeletes : ∀ doc ∈ deletes, doc ∈ rows)
    (hbase : ∀ p ∈ base, p.1 ∈ rows) (honly : deletes = [] ∨ base = []) :
    Tracks env rows base (baseDelta env deletes base) := by
  rcases honly with rfl | rfl
  · exact Tracks.of_base hbase
  · have hfold : ∀ (docs : List Doc) (d : ReferentialDelta Doc), (∀ doc ∈ docs, doc ∈ rows) →
        Tracks env rows [] d →
        Tracks env rows [] (docs.foldl (fun d doc => d.stageDelete env doc) d) := by
      intro docs
      induction docs with
      | nil => exact fun _ _ hd => hd
      | cons doc docs ih =>
        intro d hin hd
        exact ih _ (fun x hx => hin x (List.mem_cons_of_mem _ hx))
          (hd.stageDelete (hin doc List.mem_cons_self))
    have hbase := hfold deletes {} hdeletes .empty
    unfold baseDelta
    simpa using hbase

/-- The deltas of a plan list rows of the tables. -/
theorem planReferentialActions_tracks {tables : Tables H} {deletes : List Doc}
    {order : List String} (hdeletes : ∀ doc ∈ deletes, doc ∈ pre origin)
    (hbase : ∀ p ∈ base, p.1 ∈ pre origin) (honly : deletes = [] ∨ base = [])
    (hrun : planReferentialActions env c pre tables origin deletes base = .ok (order, deltas)) :
    AllTrack env pre origin base deltas ∧ order = planOrder c origin deltas := by
  unfold planReferentialActions at hrun
  obtain ⟨deltas₁, hpasses, hrun⟩ := bind_eq_ok_iff.mp hrun
  obtain ⟨-, -, hrun⟩ := bind_eq_ok_iff.mp hrun
  cases hrun
  refine ⟨passes_tracks ?_ hpasses, rfl⟩
  intro table
  by_cases htable : table = origin
  · subst htable
    rw [Function.update_self, ownUpdates, if_pos rfl]
    exact baseDelta_tracks hdeletes hbase honly
  · rw [Function.update_of_ne htable, ownUpdates, if_neg htable]
    exact .empty

end Passes

end Docsql.Dml
