import Docsql.Dml.Fires
import Docsql.Dml.Numbers
import Docsql.ValueOrder

/-!
# Updates that cascade

What the actions of an UPDATE do to the rows that refer to a changed parent row.  An
action only runs for a parent value that no row of the parent table has any more, so a
child follows its row exactly where no other row takes the value over.
-/

namespace Docsql.Dml

open Except (bind_eq_ok_iff)

variable {Doc H : Type} {env : Env Doc}

theorem sameValue_refl (a : Value) : sameValue a a = true := by
  rw [sameValue, cmpValues_self]
  rfl

theorem sameValue_symm {a b : Value} (h : sameValue a b = true) : sameValue b a = true := by
  unfold sameValue at h ⊢
  rw [cmpValues_swap, beq_iff_eq.mp h]
  rfl

theorem sameValue_trans {a b v : Value} (h : sameValue a b = true) (h' : sameValue b v = true) :
    sameValue a v = true :=
  beq_iff_eq.mpr (Std.TransCmp.eq_trans (beq_iff_eq.mp h) (beq_iff_eq.mp h'))

/-- A column that is not written keeps its value, and no write takes a column away. -/
structure Env.Framed (env : Env Doc) : Prop where
  frame : ∀ doc col val, ∀ other ≠ col, env.get (env.insert doc col val) other = env.get doc other
  present : ∀ doc col val, (env.get doc col).isSome → (env.get (env.insert doc col val) col).isSome

theorem Env.Framed.insert_present (h : env.Framed) {doc : Doc} {col other : String} {val : Value}
    (hsome : (env.get doc other).isSome) : (env.get (env.insert doc col val) other).isSome := by
  by_cases hother : other = col
  · subst hother
    exact h.present doc other val hsome
  · rwa [h.frame doc col val other hother]

/-! ## Images -/

/-- The first entry for a row. -/
def entryFor (env : Env Doc) (ps : List (Doc × Doc)) (doc : Doc) : Option (Doc × Doc) :=
  ps.find? fun p => env.objectKey p.1 == env.objectKey doc

theorem entryFor_cons (p : Doc × Doc) (ps : List (Doc × Doc)) (doc : Doc) :
    entryFor env (p :: ps) doc =
      if env.objectKey p.1 = env.objectKey doc then some p else entryFor env ps doc := by
  unfold entryFor
  rw [List.find?_cons]
  by_cases h : env.objectKey p.1 = env.objectKey doc
  · rw [if_pos h, beq_iff_eq.mpr h]
  · rw [if_neg h, beq_eq_false_iff_ne.mpr h]

theorem entryFor_append (ps qs : List (Doc × Doc)) (doc : Doc) :
    entryFor env (ps ++ qs) doc = (entryFor env ps doc).or (entryFor env qs doc) :=
  List.find?_append

theorem entryFor_composeFirst (key : List UInt8) (col : String) (val : Value) (x : Doc)
    (ps : List (Doc × Doc)) :
    entryFor env (ReferentialDelta.composeFirst env key col val ps) x =
      (entryFor env ps x).map fun p =>
        if env.objectKey x = key then (p.1, env.insert p.2 col val) else p := by
  induction ps with
  | nil => rfl
  | cons p ps ih =>
    rw [ReferentialDelta.composeFirst, entryFor_cons p ps x]
    by_cases hp : env.objectKey p.1 = key
    · rw [if_pos hp, entryFor_cons]
      by_cases hx : env.objectKey p.1 = env.objectKey x
      · rw [if_pos hx, if_pos hx, Option.map_some, if_pos (hx.symm.trans hp)]
      · have hne : env.objectKey x ≠ key := fun h => hx (hp.trans h.symm)
        rw [if_neg hx, if_neg hx]
        cases entryFor env ps x with
        | none => rfl
        | some q => rw [Option.map_some, if_neg hne]
    · rw [if_neg hp, entryFor_cons, ih]
      by_cases hx : env.objectKey p.1 = env.objectKey x
      · rw [if_pos hx, if_pos hx, Option.map_some, if_neg (hx ▸ hp)]
      · rw [if_neg hx, if_neg hx]

/-- What a plan that deletes nothing makes of a row. -/
def imageOf (env : Env Doc) (d : ReferentialDelta Doc) (doc : Doc) : Doc :=
  ((entryFor env d.updates doc).map Prod.snd).getD doc

variable {d d' d'' : ReferentialDelta Doc} {pre : List Doc} {doc : Doc} {col : String}

theorem finalDocs_eq (h : d.deletes = []) (pre : List Doc) :
    d.finalDocs env pre = pre.map (imageOf env d) := by
  have hkeys : d.deleteKeys env = [] := by
    rw [ReferentialDelta.deleteKeys, h, List.map_nil]
  rw [ReferentialDelta.finalDocs, ← List.filterMap_eq_map]
  refine congrArg (fun f => pre.filterMap f) (funext fun doc => ?_)
  rw [ReferentialDelta.fate, hkeys, if_neg List.not_mem_nil, Function.comp, imageOf,
    ← entryFor]
  cases entryFor env d.updates doc with
  | none => rfl
  | some p => rfl

/-- The rows of one list may change, in one column. -/
structure Writes (env : Env Doc) (col : String) (docs : List Doc)
    (d d' : ReferentialDelta Doc) : Prop where
  deletes : d'.deletes = []
  rows : ∀ doc ∉ docs, imageOf env d' doc = imageOf env d doc
  columns : ∀ doc, ∀ other ≠ col,
    env.get (imageOf env d' doc) other = env.get (imageOf env d doc) other
  present : ∀ doc other, (env.get (imageOf env d doc) other).isSome →
    (env.get (imageOf env d' doc) other).isSome

namespace Writes

variable {docs : List Doc}

theorem refl (h : d.deletes = []) : Writes env col docs d d :=
  ⟨h, fun _ _ => rfl, fun _ _ _ => rfl, fun _ _ => id⟩

theorem trans (h : Writes env col docs d d') (h' : Writes env col docs d' d'') :
    Writes env col docs d d'' where
  deletes := h'.deletes
  rows := fun doc hdoc => (h'.rows doc hdoc).trans (h.rows doc hdoc)
  columns := fun doc other hne => (h'.columns doc other hne).trans (h.columns doc other hne)
  present := fun doc other hsome => h'.present doc other (h.present doc other hsome)

theorem mono {docs' : List Doc} (h : Writes env col docs d d') (hsub : docs ⊆ docs') :
    Writes env col docs' d d' :=
  ⟨h.deletes, fun doc hdoc => h.rows doc fun hin => hdoc (hsub hin), h.columns, h.present⟩

end Writes

/-- One row is written, if only its image is one more write. -/
theorem Writes.of_image (hframed : env.Framed) (hno : d'.deletes = []) {doc : Doc}
    (h : ∀ x, imageOf env d' x = imageOf env d x ∨
      x = doc ∧ ∃ val, imageOf env d' x = env.insert (imageOf env d x) col val) :
    Writes env col [doc] d d' := by
  refine ⟨hno, fun x hx => ?_, fun x other hne => ?_, fun x other hsome => ?_⟩
  · rcases h x with heq | ⟨rfl, -⟩
    · exact heq
    · exact absurd List.mem_cons_self hx
  · rcases h x with heq | ⟨rfl, val, heq⟩
    · rw [heq]
    · rw [heq, hframed.frame _ _ _ _ hne]
  · rcases h x with heq | ⟨rfl, val, heq⟩
    · rwa [heq]
    · rw [heq]
      exact hframed.insert_present hsome

theorem composeFirst_writes (hframed : env.Framed) (hno : d.deletes = []) (doc : Doc)
    (val : Value) :
    Writes env col [doc] d { d with
      updates := ReferentialDelta.composeFirst env (env.objectKey doc) col val d.updates } := by
  refine .of_image hframed (by exact hno) fun x => ?_
  rw [imageOf, imageOf, entryFor_composeFirst]
  cases entryFor env d.updates x with
  | none => exact .inl rfl
  | some p =>
    rw [Option.map_some]
    by_cases hkey : env.objectKey x = env.objectKey doc
    · rw [if_pos hkey]
      exact .inr ⟨env.objectKey_injective hkey, val, rfl⟩
    · rw [if_neg hkey]
      exact .inl rfl

theorem append_writes (hframed : env.Framed) (hno : d.deletes = []) {doc : Doc} {val : Value}
    (hfind : entryFor env d.updates doc = none) :
    Writes env col [doc] d
      { d with updates := d.updates ++ [(doc, env.insert doc col val)] } := by
  refine .of_image hframed (by exact hno) fun x => ?_
  rw [imageOf, imageOf, entryFor_append, entryFor_cons]
  by_cases hkey : env.objectKey doc = env.objectKey x
  · obtain rfl := env.objectKey_injective hkey
    rw [hfind, Option.none_or, if_pos rfl]
    exact .inr ⟨rfl, val, rfl⟩
  · rw [if_neg hkey]
    exact .inl (congrArg (fun o => (Option.map Prod.snd o).getD x) Option.or_none)

/-- The value a row has in a column after a plan; a missing field reads as NULL. -/
def valueAfter (env : Env Doc) (d : ReferentialDelta Doc) (doc : Doc) (col : String) : Value :=
  (env.get (imageOf env d doc) col).getD .null

theorem stageUpdate_writes (hframed : env.Framed) (hno : d.deletes = []) {val : Value}
    {changed : Bool} (h : d.stageUpdate env doc col val = .ok (d', changed)) :
    Writes env col [doc] d d' ∧
      (changed = false → d' = d ∧ sameValue (valueAfter env d doc col) val = true) := by
  have hkeys : d.deleteKeys env = [] := by
    rw [ReferentialDelta.deleteKeys, hno, List.map_nil]
  unfold ReferentialDelta.stageUpdate at h
  rw [hkeys, if_neg List.not_mem_nil] at h
  rw [← entryFor] at h
  cases hfind : entryFor env d.updates doc with
  | none =>
    rw [hfind] at h
    cases h
    exact ⟨append_writes hframed hno hfind, fun h => by cases h⟩
  | some pair =>
    rw [hfind] at h
    dsimp only at h
    split at h
    case isTrue hsame =>
      cases h
      refine ⟨.refl hno, fun _ => ⟨rfl, ?_⟩⟩
      rw [valueAfter, imageOf, hfind]
      exact hsame
    case isFalse =>
      split at h
      · cases h
      · cases h
        exact ⟨composeFirst_writes hframed hno doc val, fun h => by cases h⟩

theorem stageFirst_writes (hframed : env.Framed) {val : Doc → Value} {docs : List Doc}
    {changed : Bool} (hno : d.deletes = [])
    (h : stageFirst env col val docs d = .ok (d', changed)) :
    Writes env col docs d d' ∧ (changed = false → d' = d ∧
      ∀ doc ∈ docs, sameValue (valueAfter env d doc col) (val doc) = true) := by
  induction docs generalizing d with
  | nil =>
    cases h
    exact ⟨.refl hno, fun _ => ⟨rfl, fun _ hdoc => absurd hdoc List.not_mem_nil⟩⟩
  | cons doc docs ih =>
    rw [stageFirst] at h
    obtain ⟨⟨d₁, ch⟩, hstage, h⟩ := bind_eq_ok_iff.mp h
    obtain ⟨hone, hkept⟩ := stageUpdate_writes hframed hno hstage
    have hfirst : Writes env col (doc :: docs) d d₁ := hone.mono (by simp)
    dsimp only at h
    split at h
    case isTrue =>
      cases h
      exact ⟨hfirst, fun h => by cases h⟩
    case isFalse hch =>
      obtain ⟨heq, hsame⟩ := hkept (by simpa using hch)
      obtain ⟨hrest, hall⟩ := ih hfirst.deletes h
      refine ⟨hfirst.trans (hrest.mono (List.subset_cons_self _ _)), fun hfalse => ?_⟩
      obtain ⟨heq', hdocs⟩ := hall hfalse
      rw [heq] at heq' hdocs
      exact ⟨heq', List.forall_mem_cons.mpr ⟨hsame, hdocs⟩⟩

/-! ## Events -/

/-- One updated row of the parent, and what it adds to the map. -/
theorem valueMap_cons {parent rc : String} {old new : Doc} {ps : List (Doc × Doc)}
    {map map' : List (Value × Value)}
    (h : valueMap env parent rc ((old, new) :: ps) map = .ok map') :
    (∃ ov nv, Index.nonNull (env.get old rc) = some ov ∧ env.get new rc = some nv ∧
        sameValue ov nv = false ∧ (∀ m ∈ map, sameValue m.1 ov = false) ∧
        valueMap env parent rc ps (map ++ [(ov, nv)]) = .ok map') ∨
      valueMap env parent rc ps map = .ok map' ∧
        ∀ ov nv, Index.nonNull (env.get old rc) = some ov → env.get new rc = some nv →
          sameValue ov nv = false →
            ∃ m ∈ map, sameValue m.1 ov = true ∧ sameValue m.2 nv = true := by
  rw [valueMap] at h
  split at h
  case h_1 ov nv hold hnew =>
    split at h
    case isTrue hsame =>
      refine .inr ⟨h, fun ov' nv' hov hnv hne => ?_⟩
      cases hold.symm.trans hov
      cases hnew.symm.trans hnv
      rw [hsame] at hne
      cases hne
    case isFalse hsame =>
      split at h
      case h_1 m hfind =>
        split at h
        case isTrue hprev =>
          refine .inr ⟨h, fun ov' nv' hov hnv _ => ?_⟩
          cases hold.symm.trans hov
          cases hnew.symm.trans hnv
          have hkey := List.find?_some hfind
          exact ⟨m, List.mem_of_find?_eq_some hfind, hkey, hprev⟩
        case isFalse => cases h
      case h_2 hfind =>
        refine .inl ⟨ov, nv, hold, hnew, by simpa using hsame, fun m hm => ?_, h⟩
        have := List.find?_eq_none.mp hfind m hm
        simpa using this
  case h_2 hnone =>
    refine .inr ⟨h, fun ov nv hov hnv _ => ?_⟩
    exact absurd hnv (hnone ov nv hov)

theorem valueMap_mono {parent rc : String} {ps : List (Doc × Doc)} {map map' : List (Value × Value)}
    (h : valueMap env parent rc ps map = .ok map') : ∀ m ∈ map, m ∈ map' := by
  induction ps generalizing map with
  | nil =>
    cases h
    exact fun _ hm => hm
  | cons p ps ih =>
    rcases valueMap_cons h with ⟨ov, nv, -, -, -, -, h⟩ | ⟨h, -⟩
    · exact fun m hm => ih h m (List.mem_append_left _ hm)
    · exact ih h

/-- Every changed value is in the map. -/
theorem valueMap_covers {parent rc : String} {ps : List (Doc × Doc)}
    {map map' : List (Value × Value)} (h : valueMap env parent rc ps map = .ok map')
    {p : Doc × Doc} (hp : p ∈ ps) {ov nv : Value}
    (hov : Index.nonNull (env.get p.1 rc) = some ov) (hnv : env.get p.2 rc = some nv)
    (hne : sameValue ov nv = false) :
    ∃ m ∈ map', sameValue m.1 ov = true ∧ sameValue m.2 nv = true := by
  induction ps generalizing map with
  | nil => cases hp
  | cons q ps ih =>
    rcases valueMap_cons h with ⟨ov', nv', hov', hnv', -, -, h⟩ | ⟨h, hin⟩
    · rcases List.mem_cons.mp hp with rfl | hp
      · cases hov.symm.trans hov'
        cases hnv.symm.trans hnv'
        exact ⟨(ov, nv), valueMap_mono h _ (by simp), sameValue_refl _, sameValue_refl _⟩
      · exact ih h hp
    · rcases List.mem_cons.mp hp with rfl | hp
      · obtain ⟨m, hm, hsame⟩ := hin ov nv hov hnv hne
        exact ⟨m, valueMap_mono h m hm, hsame⟩
      · exact ih h hp

/-- The map has one new value for an old one. -/
theorem valueMap_apart {parent rc : String} {ps : List (Doc × Doc)}
    {map map' : List (Value × Value)} (h : valueMap env parent rc ps map = .ok map')
    (hmap : map.Pairwise fun m m' => sameValue m.1 m'.1 = false) :
    map'.Pairwise fun m m' => sameValue m.1 m'.1 = false := by
  induction ps generalizing map with
  | nil =>
    cases h
    exact hmap
  | cons q ps ih =>
    rcases valueMap_cons h with ⟨ov, nv, -, -, -, hnew, h⟩ | ⟨h, -⟩
    · refine ih h (List.pairwise_append.mpr ⟨hmap, List.pairwise_singleton _ _, ?_⟩)
      intro m hm m' hm'
      rw [List.mem_singleton.mp hm']
      exact hnew m hm
    · exact ih h hmap

theorem valueMap_unique {parent rc : String} {ps : List (Doc × Doc)}
    {map : List (Value × Value)} (h : valueMap env parent rc ps [] = .ok map)
    {m m' : Value × Value} (hm : m ∈ map) (hm' : m' ∈ map) (hsame : sameValue m.1 m'.1 = true) :
    m = m' := by
  have : Std.Symm fun m m' : Value × Value => sameValue m.1 m'.1 = false :=
    ⟨fun m m' h => by
      by_contra hne
      rw [sameValue_symm (by simpa using hne)] at h
      cases h⟩
  by_contra hne
  rw [(valueMap_apart h .nil).forall hm hm' hne] at hsame
  cases hsame

/-- The values a cascade is for: those no row of the parent has any more. -/
def lostOld (env : Env Doc) (rc : String) (final : List Doc) (map : List (Value × Value)) :
    List (Value × Value) :=
  map.filter fun m => !final.any fun f => (env.get f rc).any fun fv => sameValue fv m.1

/-- The entry of the map for a value of a child. -/
def newOf (gone : List (Value × Value)) (v : Value) : Option (Value × Value) :=
  gone.find? fun m => sameValue v m.1

/-! ## One key -/

section Keys

variable {c : Catalog Doc H} {pre : String → List Doc} {deltas deltas' : Deltas Doc}
variable {parent child : String} {fk : ForeignKey} {changed : Bool}

def deltaOf (deltas : Deltas Doc) (table : String) : ReferentialDelta Doc :=
  (deltas table).getD {}

/-- Nothing is deleted. -/
def UpdatesOnly (D : String → ReferentialDelta Doc) : Prop := ∀ table, (D table).deletes = []

/-- The rows of the child that an update of the parent can reach. -/
def reached (env : Env Doc) (pre : String → List Doc) (D : String → ReferentialDelta Doc)
    (parent child : String) (fk : ForeignKey) (map : List (Value × Value)) : List Doc :=
  hits env fk.col (fun v => (newOf (lostOld env fk.refCol
    ((pre parent).map (imageOf env (D parent))) map) v).isSome) (pre child)

/-- The key has no more to do for a cascade. -/
def Settled (env : Env Doc) (pre : String → List Doc) (D : String → ReferentialDelta Doc)
    (parent child : String) (fk : ForeignKey) (map : List (Value × Value)) : Prop :=
  fk.onUpdate = .cascade → ∀ doc ∈ reached env pre D parent child fk map,
    sameValue (valueAfter env (D child) doc fk.col)
      ((((env.get doc fk.col).bind (newOf (lostOld env fk.refCol
        ((pre parent).map (imageOf env (D parent))) map))).map Prod.snd).getD .null)

theorem reached_nil {D : String → ReferentialDelta Doc} :
    reached env pre D parent child fk [] = [] := by
  refine List.filter_eq_nil_iff.mpr fun doc _ => ?_
  cases Index.nonNull (env.get doc fk.col) with
  | none => exact Bool.false_ne_true
  | some v => exact Bool.false_ne_true

/-- What the action of a key does to the child. -/
theorem onUpdateAction_ok (hframed : env.Framed) (hno : d.deletes = [])
    {gone : List (Value × Value)} {rows : List Doc}
    (h : onUpdateAction env c child parent fk rows gone d = .ok (d', changed)) :
    Writes env fk.col (hits env fk.col (fun v => (newOf gone v).isSome) rows) d d' ∧
      (fk.onUpdate = .none → d' = d) ∧
      (changed = false → d' = d ∧ (fk.onUpdate = .cascade →
        ∀ doc ∈ hits env fk.col (fun v => (newOf gone v).isSome) rows,
          sameValue (valueAfter env d doc fk.col)
            ((((env.get doc fk.col).bind (newOf gone)).map Prod.snd).getD .null))) := by
  unfold onUpdateAction at h
  dsimp only at h
  split at h
  case h_1 haction =>
    obtain rfl := restrict_ok h
    refine ⟨.refl hno, fun _ => rfl, fun _ => ⟨rfl, fun hcascade => ?_⟩⟩
    rw [haction] at hcascade
    cases hcascade
  case h_2 haction =>
    obtain ⟨hwrites, hkept⟩ := stageFirst_writes hframed hno h
    refine ⟨hwrites, fun hnone => ?_, fun hfalse => ⟨(hkept hfalse).1, fun _ => (hkept hfalse).2⟩⟩
    rw [haction] at hnone
    cases hnone
  case h_3 hnone hcascade =>
    obtain ⟨val, -, h⟩ := bind_eq_ok_iff.mp h
    obtain ⟨hwrites, hkept⟩ := stageFirst_writes hframed hno h
    exact ⟨hwrites, fun haction => absurd haction hnone,
      fun hfalse => ⟨(hkept hfalse).1, fun haction => absurd haction hcascade⟩⟩

/-- What a key does where nothing is deleted. -/
theorem actOn_ok (hframed : env.Framed) (hno : UpdatesOnly (deltaOf deltas))
    (h : actOn env c pre parent child fk deltas = .ok (deltas', changed)) :
    ∃ map, valueMap env parent fk.refCol (deltaOf deltas parent).updates [] = .ok map ∧
      (∀ table, (deltas table).isSome → (deltas' table).isSome) ∧
      (∀ table ≠ child, deltaOf deltas' table = deltaOf deltas table) ∧
      Writes env fk.col (reached env pre (deltaOf deltas) parent child fk map)
        (deltaOf deltas child) (deltaOf deltas' child) ∧
      (fk.onUpdate = .none → deltaOf deltas' child = deltaOf deltas child) ∧
      (changed = false → deltaOf deltas' child = deltaOf deltas child ∧
        Settled env pre (deltaOf deltas) parent child fk map) := by
  unfold actOn at h
  dsimp only at h
  rw [← deltaOf, finalDocs_eq (hno parent), hno parent] at h
  obtain ⟨map, hmap, h⟩ := bind_eq_ok_iff.mp h
  refine ⟨map, hmap, ?_⟩
  rw [lostValues, List.isEmpty_nil, Bool.true_and] at h
  split at h
  case isTrue hempty =>
    obtain rfl := List.isEmpty_iff.mp hempty
    cases h
    refine ⟨fun _ => id, fun _ _ => rfl, .refl (hno child), fun _ => rfl,
      fun _ => ⟨rfl, fun _ doc hdoc => ?_⟩⟩
    rw [reached_nil] at hdoc
    cases hdoc
  case isFalse hfull =>
    obtain ⟨⟨d₁, ch⟩, hlost, h⟩ := bind_eq_ok_iff.mp h
    rw [onLost, List.isEmpty_nil, if_pos rfl] at hlost
    cases hlost
    dsimp only at h
    rw [if_neg (by simpa using hfull)] at h
    obtain ⟨⟨d₂, ch₂⟩, haction, h⟩ := bind_eq_ok_iff.mp h
    cases h
    obtain ⟨hwrites, hnone, hkept⟩ := onUpdateAction_ok hframed (hno child) haction
    have hself : deltaOf (Function.update deltas child (some d₂)) child = d₂ := by
      rw [deltaOf, Function.update_self, Option.getD_some]
    rw [hself]
    refine ⟨fun table hsome => ?_, fun table hne => ?_, hwrites, hnone, hkept⟩
    · by_cases hne : table = child
      · rw [hne, Function.update_self]
        rfl
      · rwa [Function.update_of_ne hne]
    · rw [deltaOf, Function.update_of_ne hne]
      rfl

theorem actOn_updatesOnly (hframed : env.Framed) (hno : UpdatesOnly (deltaOf deltas))
    (h : actOn env c pre parent child fk deltas = .ok (deltas', changed)) :
    UpdatesOnly (deltaOf deltas') := by
  obtain ⟨map, -, -, hothers, hwrites, -, -⟩ := actOn_ok hframed hno h
  intro table
  by_cases htable : table = child
  · rw [htable]
    exact hwrites.deletes
  · rw [hothers table htable]
    exact hno table

/-- A pass without a change leaves every key settled. -/
theorem pass_settled (hframed : env.Framed) {refs : List (String × String × ForeignKey)}
    (hno : UpdatesOnly (deltaOf deltas)) (h : pass env c pre refs deltas = .ok (deltas', false)) :
    deltaOf deltas' = deltaOf deltas ∧ ∀ ref ∈ refs, ∃ map,
      valueMap env ref.1 ref.2.2.refCol (deltaOf deltas ref.1).updates [] = .ok map ∧
        Settled env pre (deltaOf deltas) ref.1 ref.2.1 ref.2.2 map := by
  induction refs generalizing deltas with
  | nil =>
    cases h
    exact ⟨rfl, fun _ href => absurd href List.not_mem_nil⟩
  | cons ref refs ih =>
    obtain ⟨parent, child, fk⟩ := ref
    rw [pass] at h
    obtain ⟨⟨deltas₁, ch⟩, hact, h⟩ := bind_eq_ok_iff.mp h
    dsimp only at h
    split at h
    case isTrue => cases h
    case isFalse hch =>
      obtain ⟨map, hmap, -, hothers, -, -, hkept⟩ := actOn_ok hframed hno hact
      obtain ⟨hsame, hsettled⟩ := hkept (by simpa using hch)
      have heq : deltaOf deltas₁ = deltaOf deltas := funext fun table => by
        by_cases htable : table = child
        · rw [htable, hsame]
        · exact hothers table htable
      obtain ⟨heq', hrest⟩ := ih (heq ▸ hno) h
      rw [heq] at heq' hrest
      exact ⟨heq', List.forall_mem_cons.mpr ⟨⟨map, hmap, hsettled⟩, hrest⟩⟩

end Keys

/-! ## All passes -/

section Passes

variable {c : Catalog Doc H} {pre : String → List Doc} {deltas deltas' : Deltas Doc}

theorem mem_foreignKeys_iff {child : String} {fk : ForeignKey} :
    fk ∈ c.foreignKeys child ↔ ∃ fks, (child, fks) ∈ c.tables ∧ fk ∈ fks := by
  unfold Catalog.foreignKeys
  constructor
  · intro h
    cases hget : c.tables.lookup child with
    | none =>
      rw [hget] at h
      cases h
    | some fks =>
      rw [hget] at h
      obtain ⟨before, after, hsplit, -⟩ := List.lookup_eq_some_iff.mp hget
      exact ⟨fks, hsplit ▸ List.mem_append_right before List.mem_cons_self, h⟩
  · rintro ⟨fks, hin, hfk⟩
    obtain ⟨before, after, hsplit⟩ := List.append_of_mem hin
    have hfirst : ∀ p ∈ before, (child != p.1) = true := by
      intro p hp
      have hnodup := c.distinct
      rw [hsplit, List.map_append, List.map_cons] at hnodup
      have hdisjoint := (List.nodup_append.mp hnodup).2.2
      exact bne_iff_ne.mpr (hdisjoint p.1 (List.mem_map_of_mem hp) child List.mem_cons_self).symm
    rw [List.lookup_eq_some_iff.mpr ⟨before, after, hsplit, hfirst⟩]
    exact hfk

theorem mem_references_iff {parents : List String} {parent child : String} {fk : ForeignKey} :
    (parent, child, fk) ∈ references c parents ↔
      parent ∈ parents ∧ fk ∈ c.foreignKeys child ∧ fk.refTable = parent := by
  unfold references
  rw [mem_foreignKeys_iff]
  constructor
  · intro h
    obtain ⟨parent', hparent, h⟩ := List.mem_flatMap.mp h
    obtain ⟨t, ht, h⟩ := List.mem_flatMap.mp h
    obtain ⟨fk', hfk, heq⟩ := List.mem_map.mp h
    cases heq
    obtain ⟨hfk, href⟩ := List.mem_filter.mp hfk
    exact ⟨hparent, ⟨t.2, ht, hfk⟩, of_decide_eq_true href⟩
  · rintro ⟨hparent, ⟨fks, hin, hfk⟩, href⟩
    refine List.mem_flatMap.mpr ⟨parent, hparent, List.mem_flatMap.mpr ⟨(child, fks), hin, ?_⟩⟩
    exact List.mem_map.mpr ⟨fk, List.mem_filter.mpr ⟨hfk, decide_eq_true href⟩, rfl⟩

/-- What every action keeps holds after all passes, and the last one changed nothing. -/
theorem passes_ok {P : Deltas Doc → Prop}
    (hstep : ∀ parent child fk deltas deltas' changed, fk ∈ c.foreignKeys child →
      fk.refTable = parent → P deltas →
      actOn env c pre parent child fk deltas = .ok (deltas', changed) → P deltas')
    {left : ℕ} (hdeltas : P deltas) (h : passes env c pre left deltas = .ok deltas') :
    P deltas' ∧ ∃ last, P last ∧
      pass env c pre (references c (affected c last)) last = .ok (deltas', false) := by
  have hpass : ∀ (refs : List (String × String × ForeignKey)) (deltas deltas' : Deltas Doc)
      (changed : Bool), (∀ ref ∈ refs, ref.2.2 ∈ c.foreignKeys ref.2.1 ∧ ref.2.2.refTable = ref.1) →
      P deltas → pass env c pre refs deltas = .ok (deltas', changed) → P deltas' := by
    intro refs
    induction refs with
    | nil =>
      intro deltas deltas' changed _ hP h
      cases h
      exact hP
    | cons ref refs ih =>
      intro deltas deltas' changed hrefs hP h
      obtain ⟨parent, child, fk⟩ := ref
      rw [pass] at h
      obtain ⟨⟨deltas₁, ch⟩, hact, h⟩ := bind_eq_ok_iff.mp h
      obtain ⟨hfk, href⟩ := hrefs _ List.mem_cons_self
      have hP₁ := hstep _ _ _ _ _ _ hfk href hP hact
      dsimp only at h
      split at h
      · cases h
        exact hP₁
      · exact ih _ _ _ (fun ref hin => hrefs ref (List.mem_cons_of_mem _ hin)) hP₁ h
  induction left generalizing deltas with
  | zero => cases h
  | succ left ih =>
    rw [passes] at h
    obtain ⟨⟨deltas₁, ch⟩, hrun, h⟩ := bind_eq_ok_iff.mp h
    have hP₁ := hpass _ _ _ _ (fun _ hin => (mem_references_iff.mp hin).2) hdeltas hrun
    dsimp only at h
    split at h
    case isTrue => exact ih hP₁ h
    case isFalse hch =>
      cases h
      obtain rfl : ch = false := by simpa using hch
      exact ⟨hP₁, deltas, hdeltas, hrun⟩

end Passes

/-! ## Children and their rows -/

section Follow

variable {c : Catalog Doc H} {pre : String → List Doc} {base : List (Doc × Doc)}
variable {tables : Tables H} {origin child : String} {fk : ForeignKey} {order : List String}
variable {deltas : Deltas Doc} {row doc : Doc} {v w : Value}

/-- The rows the statement itself changes. -/
def ownDelta (base : List (Doc × Doc)) : ReferentialDelta Doc := { updates := base }

/-- Some row has this value in the column. -/
def Held (env : Env Doc) (rows : List Doc) (d : ReferentialDelta Doc) (rc : String) (v : Value) :
    Prop :=
  ∃ s ∈ rows, ∃ x, env.get (imageOf env d s) rc = some x ∧ sameValue x v = true

/-- The child has the value that its row has after the statement. -/
def Follows (env : Env Doc) (deltas : Deltas Doc) (origin child : String) (fk : ForeignKey)
    (row doc : Doc) : Prop :=
  sameValue (valueAfter env (deltaOf deltas child) doc fk.col)
    (valueAfter env (deltaOf deltas origin) row fk.refCol) = true

/-- The plan before its first pass. -/
def startOf (origin : String) (base : List (Doc × Doc)) : Deltas Doc :=
  Function.update (fun _ => none) origin (some (ownDelta base))

theorem deltaOf_startOf_self : deltaOf (startOf origin base) origin = ownDelta base := by
  rw [startOf, deltaOf, Function.update_self, Option.getD_some]

theorem startOf_updatesOnly : UpdatesOnly (deltaOf (startOf origin base)) := by
  intro table
  by_cases htable : table = origin
  · rw [htable, deltaOf_startOf_self]
    rfl
  · rw [startOf, deltaOf, Function.update_of_ne htable]
    rfl

theorem planReferentialActions_ok
    (h : planReferentialActions env c pre tables origin [] base = .ok (order, deltas)) :
    passes env c pre maxFkActionPasses (startOf origin base) = .ok deltas := by
  unfold planReferentialActions at h
  obtain ⟨deltas₁, hpasses, h⟩ := bind_eq_ok_iff.mp h
  obtain ⟨-, -, h⟩ := bind_eq_ok_iff.mp h
  cases h
  exact hpasses

/-- What every action keeps holds of the plan, and its keys are settled. -/
theorem plan_settled (hframed : env.Framed)
    (h : planReferentialActions env c pre tables origin [] base = .ok (order, deltas))
    (horigin : origin ∈ c.tables.map Prod.fst) {P : (String → ReferentialDelta Doc) → Prop}
    (hstart : P (deltaOf (startOf origin base)))
    (hstep : ∀ parent child fk map (D D' : String → ReferentialDelta Doc),
      fk ∈ c.foreignKeys child → fk.refTable = parent → P D →
      (∀ table ≠ child, D' table = D table) →
      Writes env fk.col (reached env pre D parent child fk map) (D child) (D' child) →
      (fk.onUpdate = .none → D' child = D child) → P D') :
    P (deltaOf deltas) ∧ ∀ child, ∀ fk ∈ c.foreignKeys child, fk.refTable = origin → ∃ map,
      valueMap env origin fk.refCol (deltaOf deltas origin).updates [] = .ok map ∧
        Settled env pre (deltaOf deltas) origin child fk map := by
  have hrun := passes_ok (P := fun deltas =>
      UpdatesOnly (deltaOf deltas) ∧ (deltas origin).isSome ∧ P (deltaOf deltas))
    (fun parent child fk deltas deltas' changed hfk href ⟨hno, hsome, hP⟩ hact => by
      obtain ⟨map, -, hsome', hothers, hwrites, hnone, -⟩ := actOn_ok hframed hno hact
      exact ⟨actOn_updatesOnly hframed hno hact, hsome' origin hsome,
        hstep parent child fk map _ _ hfk href hP hothers hwrites hnone⟩)
    ⟨startOf_updatesOnly, by rw [startOf, Function.update_self]; rfl, hstart⟩
    (planReferentialActions_ok h)
  obtain ⟨⟨-, -, hP⟩, last, ⟨hno, hsome, -⟩, hlast⟩ := hrun
  obtain ⟨heq, hsettled⟩ := pass_settled hframed hno hlast
  refine ⟨hP, fun child fk hfk href => ?_⟩
  have haffected : origin ∈ affected c last := List.mem_filter.mpr ⟨horigin, hsome⟩
  rw [heq]
  exact hsettled (origin, child, fk) (mem_references_iff.mpr ⟨haffected, hfk, href⟩)

theorem get_of_nonNull {o : Option Value} (h : Index.nonNull o = some v) : o = some v := by
  unfold Index.nonNull at h
  split at h
  · cases h
  · exact h

theorem entryFor_eq_some {ps : List (Doc × Doc)} {x : Doc} {p : Doc × Doc}
    (h : entryFor env ps x = some p) : p ∈ ps ∧ p.1 = x := by
  have hkey := List.find?_some (p := fun q : Doc × Doc => env.objectKey q.1 == env.objectKey x) h
  exact ⟨List.mem_of_find?_eq_some h, env.objectKey_injective (beq_iff_eq.mp hkey)⟩

theorem newOf_eq_some {gone : List (Value × Value)} {m : Value × Value}
    (h : newOf gone v = some m) : m ∈ gone ∧ sameValue v m.1 = true :=
  ⟨List.mem_of_find?_eq_some h, List.find?_some (p := fun q : Value × Value => sameValue v q.1) h⟩

theorem imageOf_present {rc : String} {x : Doc}
    (h : ∀ p ∈ base, (env.get p.1 rc).isSome → (env.get p.2 rc).isSome)
    (hsome : (env.get x rc).isSome) : (env.get (imageOf env (ownDelta base) x) rc).isSome := by
  rw [imageOf]
  cases hentry : entryFor env (ownDelta base).updates x with
  | none => exact hsome
  | some p =>
    obtain ⟨hp, rfl⟩ := entryFor_eq_some hentry
    exact h p hp hsome

/-- A value that is gone from the parent takes the child along. -/
theorem follows_of_gone (hframed : env.Framed)
    (hpresent : ∀ p ∈ base, (env.get p.1 fk.refCol).isSome → (env.get p.2 fk.refCol).isSome)
    (h : planReferentialActions env c pre tables origin [] base = .ok (order, deltas))
    (horigin : origin ∈ c.tables.map Prod.fst) (hfk : fk ∈ c.foreignKeys child)
    (href : fk.refTable = origin) (hcascade : fk.onUpdate = .cascade) (hrow : row ∈ pre origin)
    (hdoc : doc ∈ pre child) (hv : Index.nonNull (env.get doc fk.col) = some v)
    (hw : Index.nonNull (env.get row fk.refCol) = some w) (hsame : sameValue v w = true)
    (hgone : ¬Held env (pre origin) (deltaOf deltas origin) fk.refCol v) :
    Follows env deltas origin child fk row doc := by
  have hgetw : env.get row fk.refCol = some w := get_of_nonNull hw
  obtain ⟨hkeep, hsettled⟩ := plan_settled hframed h horigin
    (P := fun D => ∀ x, (env.get (imageOf env (ownDelta base) x) fk.refCol).isSome →
      (env.get (imageOf env (D origin) x) fk.refCol).isSome)
    (fun x hx => by rwa [deltaOf_startOf_self])
    (fun parent child fk' map D D' _ _ hP hothers hwrites _ x hx => by
      by_cases hchild : origin = child
      · subst hchild
        exact hwrites.present x _ (hP x hx)
      · rw [hothers origin hchild]
        exact hP x hx)
  obtain ⟨map, hmap, hdone⟩ := hsettled child fk hfk href
  obtain ⟨nv, hnv⟩ := Option.isSome_iff_exists.mp (hkeep row (imageOf_present hpresent
    (by rw [hgetw]; rfl)))
  -- the row is changed, or its value would not be gone
  obtain ⟨p, hentry⟩ : ∃ p, entryFor env (deltaOf deltas origin).updates row = some p := by
    by_contra hnone
    rw [not_exists, ← Option.eq_none_iff_forall_ne_some] at hnone
    refine hgone ⟨row, hrow, w, ?_, sameValue_symm hsame⟩
    rwa [imageOf, hnone]
  obtain ⟨hp, rfl⟩ := entryFor_eq_some hentry
  have himage : imageOf env (deltaOf deltas origin) p.1 = p.2 := by
    rw [imageOf, hentry]
    rfl
  rw [himage] at hnv
  have hne : sameValue w nv = false := by
    by_contra heq
    refine hgone ⟨p.1, hrow, nv, by rw [himage]; exact hnv, ?_⟩
    exact sameValue_symm (sameValue_trans hsame (by simpa using heq))
  obtain ⟨m, hm, hmw, hmnv⟩ := valueMap_covers hmap hp hw hnv hne
  have hvm : sameValue v m.1 = true := sameValue_trans hsame (sameValue_symm hmw)
  have hlost : m ∈ lostOld env fk.refCol
      ((pre origin).map (imageOf env (deltaOf deltas origin))) map := by
    refine List.mem_filter.mpr ⟨hm, ?_⟩
    rw [Bool.not_eq_true', List.any_eq_false]
    intro f hf hany
    obtain ⟨s, hs, rfl⟩ := List.mem_map.mp hf
    obtain ⟨x, hx, hxm⟩ := (Option.any_eq_true _ _).mp hany
    exact hgone ⟨s, hs, x, hx, sameValue_trans hxm (sameValue_symm hvm)⟩
  obtain ⟨m', hnew⟩ : ∃ m', newOf (lostOld env fk.refCol
      ((pre origin).map (imageOf env (deltaOf deltas origin))) map) v = some m' :=
    Option.isSome_iff_exists.mp (List.find?_isSome.mpr ⟨m, hlost, hvm⟩)
  obtain ⟨hin, hvm'⟩ := newOf_eq_some hnew
  obtain rfl : m' = m := valueMap_unique hmap (List.mem_of_mem_filter hin) hm
    (sameValue_trans (sameValue_symm hvm') hvm)
  have hreached : doc ∈ reached env pre (deltaOf deltas) origin child fk map := by
    refine List.mem_filter.mpr ⟨hdoc, ?_⟩
    rw [hv, Option.any_some, hnew]
    rfl
  have hafter := hdone hcascade doc hreached
  rw [get_of_nonNull hv, Option.bind_some, hnew] at hafter
  rw [Follows, valueAfter, valueAfter, himage, hnv]
  exact sameValue_trans hafter hmnv

/-- The referenced column is as the statement left it. -/
def KeepsRefCol (env : Env Doc) (origin : String) (base : List (Doc × Doc)) (rc : String)
    (D : String → ReferentialDelta Doc) : Prop :=
  ∀ x, env.get (imageOf env (D origin) x) rc = env.get (imageOf env (ownDelta base) x) rc

theorem keepsRefCol_start {rc : String} :
    KeepsRefCol env origin base rc (deltaOf (startOf origin base)) := fun x => by
  rw [deltaOf_startOf_self]

theorem KeepsRefCol.step {rc : String} {D D' : String → ReferentialDelta Doc} {docs : List Doc}
    {g : ForeignKey} (hP : KeepsRefCol env origin base rc D)
    (hfixed : ∀ g ∈ c.foreignKeys origin, g.col = rc → g.onUpdate = .none)
    (hg : g ∈ c.foreignKeys child) (hothers : ∀ table ≠ child, D' table = D table)
    (hwrites : Writes env g.col docs (D child) (D' child))
    (hnone : g.onUpdate = .none → D' child = D child) : KeepsRefCol env origin base rc D' := by
  intro x
  by_cases hchild : origin = child
  · subst hchild
    by_cases hcol : g.col = rc
    · rw [hnone (hfixed g hg hcol), hP x]
    · rw [hwrites.columns x rc (Ne.symm hcol), hP x]
  · rw [hothers origin hchild, hP x]

theorem refCol_fixed (hframed : env.Framed)
    (h : planReferentialActions env c pre tables origin [] base = .ok (order, deltas))
    (horigin : origin ∈ c.tables.map Prod.fst)
    (hfixed : ∀ g ∈ c.foreignKeys origin, g.col = fk.refCol → g.onUpdate = .none) (x : Doc) :
    env.get (imageOf env (deltaOf deltas origin) x) fk.refCol =
      env.get (imageOf env (ownDelta base) x) fk.refCol := by
  refine (plan_settled hframed h horigin (P := KeepsRefCol env origin base fk.refCol)
    keepsRefCol_start fun parent child g map D D' hg _ hP hothers hwrites hnone =>
      hP.step hfixed hg hothers hwrites hnone).1 x

/-- A value that some row of the parent has stays in the child. -/
theorem stays_of_held (hframed : env.Framed)
    (h : planReferentialActions env c pre tables origin [] base = .ok (order, deltas))
    (horigin : origin ∈ c.tables.map Prod.fst) (href : fk.refTable = origin)
    (hfixed : ∀ g ∈ c.foreignKeys origin, g.col = fk.refCol → g.onUpdate = .none)
    (honly : ∀ g ∈ c.foreignKeys child, g.col = fk.col → g = fk ∨ g.onUpdate = .none)
    (hdoc : env.get doc fk.col = some v)
    (hown : ∀ p ∈ base, child = origin → p.1 = doc → env.get p.2 fk.col = env.get doc fk.col)
    (hheld : Held env (pre origin) (ownDelta base) fk.refCol v) :
    env.get (imageOf env (deltaOf deltas child) doc) fk.col = some v := by
  refine (plan_settled hframed h horigin (P := fun D => KeepsRefCol env origin base fk.refCol D ∧
    env.get (imageOf env (D child) doc) fk.col = some v) ⟨keepsRefCol_start, ?_⟩
    fun parent table g map D D' hg hparent ⟨hkeep, hP⟩ hothers hwrites hnone =>
      ⟨hkeep.step hfixed hg hothers hwrites hnone, ?_⟩).1.2
  · by_cases hchild : child = origin
    · subst hchild
      rw [deltaOf_startOf_self, imageOf]
      cases hentry : entryFor env (ownDelta base).updates doc with
      | none => exact hdoc
      | some p =>
        obtain ⟨hp, hrow⟩ := entryFor_eq_some hentry
        exact (hown p hp rfl hrow).trans hdoc
    · rw [startOf, deltaOf, Function.update_of_ne hchild]
      exact hdoc
  · by_cases htable : child = table
    · subst htable
      by_cases hcol : g.col = fk.col
      · rcases honly g hg hcol with rfl | hg
        · -- the value is still there, so no cascade starts from it
          have hnot : doc ∉ reached env pre D parent child g map := by
            intro hin
            have hany := (List.mem_filter.mp hin).2
            obtain ⟨v', hv', hsome⟩ := (Option.any_eq_true _ _).mp hany
            obtain rfl : v' = v := Option.some.inj ((get_of_nonNull hv').symm.trans hdoc)
            obtain ⟨m, hm⟩ := Option.isSome_iff_exists.mp hsome
            obtain ⟨hlost, hvm⟩ := newOf_eq_some hm
            have hnone := (List.mem_filter.mp hlost).2
            obtain ⟨s, hs, y, hy, hyv⟩ := hheld
            rw [Bool.not_eq_true', List.any_eq_false] at hnone
            refine hnone (imageOf env (D parent) s)
              (List.mem_map_of_mem (by rwa [← hparent, href])) ?_
            refine (Option.any_eq_true _ _).mpr ⟨y, ?_, sameValue_trans hyv hvm⟩
            rw [← hparent, href, hkeep s, hy]
          rw [hwrites.rows doc hnot, hP]
        · rw [hnone hg, hP]
      · rw [hwrites.columns doc fk.col (Ne.symm hcol), hP]
    · rw [hothers child htable, hP]

end Follow

/-! ## The statement -/

section Statement

variable {c : Catalog Doc H} {s : UpdateStmt Doc H} {tables : Tables H} {docs : List Doc}

theorem assignAll_present (hframed : env.Framed) {col : String} (vals : List (String × Value))
    {doc : Doc} (h : (env.get doc col).isSome) : (env.get (assignAll env doc vals) col).isSome := by
  induction vals generalizing doc with
  | nil => exact h
  | cons val vals ih => exact ih (hframed.insert_present h)

theorem plainMarks_present (hframed : env.Framed) {col : String}
    {marks : List (Doc × Option Doc)} (h : plainMarks env s tables docs = .ok marks) :
    ∀ m ∈ marks, ∀ new ∈ m.2, (env.get m.1 col).isSome → (env.get new col).isSome := by
  induction docs generalizing marks with
  | nil =>
    cases h
    exact fun _ hm => absurd hm List.not_mem_nil
  | cons doc docs ih =>
    rw [plainMarks] at h
    obtain ⟨pass, -, h⟩ := bind_eq_ok_iff.mp h
    split at h
    case isTrue =>
      obtain ⟨vals, -, h⟩ := bind_eq_ok_iff.mp h
      obtain ⟨rest, hrest, h⟩ := bind_eq_ok_iff.mp h
      cases h
      refine List.forall_mem_cons.mpr ⟨fun new hnew hsome => ?_, ih hrest⟩
      cases hnew
      exact assignAll_present hframed vals hsome
    case isFalse =>
      obtain ⟨rest, hrest, h⟩ := bind_eq_ok_iff.mp h
      cases h
      exact List.forall_mem_cons.mpr ⟨fun _ hnew => (by cases hnew), ih hrest⟩

theorem joinedUpdates_present (hframed : env.Framed) {col : String} {rows : List (Doc × Doc)}
    {updates out : List (List UInt8 × Doc × Doc)}
    (hupdates : ∀ u ∈ updates, (env.get u.2.1 col).isSome → (env.get u.2.2 col).isSome)
    (h : joinedUpdates env s tables rows updates = .ok out) :
    ∀ u ∈ out, (env.get u.2.1 col).isSome → (env.get u.2.2 col).isSome := by
  induction rows generalizing updates with
  | nil =>
    cases h
    exact hupdates
  | cons row rows ih =>
    obtain ⟨target, joined⟩ := row
    rw [joinedUpdates] at h
    split at h
    · exact ih hupdates h
    · obtain ⟨pass, -, h⟩ := bind_eq_ok_iff.mp h
      split at h
      · obtain ⟨vals, -, h⟩ := bind_eq_ok_iff.mp h
        refine ih (fun u hu => ?_) h
        rcases List.mem_append.mp hu with hu | hu
        · exact hupdates u hu
        · rw [List.mem_singleton.mp hu]
          exact assignAll_present hframed vals
      · exact ih hupdates h

/-- An UPDATE takes no column away. -/
theorem imagesOf_present (hframed : env.Framed) {im : Images Doc}
    (h : imagesOf env s tables docs = .ok im) (col : String) :
    ∀ p ∈ im.pairs, (env.get p.1 col).isSome → (env.get p.2 col).isSome := by
  unfold imagesOf at h
  split at h
  · obtain ⟨marks, hmarks, h⟩ := bind_eq_ok_iff.mp h
    cases h
    intro p hp
    obtain ⟨m, hm, hmap⟩ := List.mem_filterMap.mp hp
    obtain ⟨new, hnew, rfl⟩ := Option.map_eq_some_iff.mp hmap
    exact plainMarks_present hframed hmarks m hm new hnew
  · obtain ⟨rows, -, h⟩ := bind_eq_ok_iff.mp h
    obtain ⟨updates, hupdates, h⟩ := bind_eq_ok_iff.mp h
    cases h
    intro p hp
    obtain ⟨u, hu, rfl⟩ := List.mem_map.mp hp
    exact joinedUpdates_present hframed (fun _ hu => absurd hu List.not_mem_nil) hupdates u hu

variable {pre : String → List Doc} {im : Images Doc} {order : List String} {deltas : Deltas Doc}
variable {origin child : String} {fk : ForeignKey} {row doc : Doc} {v w : Value}

end Statement

/-! ## A shift -/

theorem numberEnv_framed : numberEnv.Framed where
  frame doc col val other hother := by
    have hfield : ∀ d : ℕ, other ≠ "n" → numberEnv.get d other = none := fun d hne => if_neg hne
    cases val with
    | int i =>
      show numberEnv.get (if col = "n" then i.toNatClampNeg else doc) other = _
      by_cases hcol : col = "n"
      · rw [hfield _ (hcol ▸ hother), hfield _ (hcol ▸ hother)]
      · rw [if_neg hcol]
    | _ => rfl
  present doc col val h := by
    have hcol : col = "n" := by
      by_contra hne
      rw [show numberEnv.get doc col = none from if_neg hne] at h
      cases h
    rw [show numberEnv.get (numberEnv.insert doc col val) col = some _ from if_pos hcol]
    rfl

/-- Numbers in `c` that refer to numbers in `p`. -/
def familyKey : ForeignKey := ⟨"n", "p", "n", .none, .cascade⟩

def familyCatalog : Catalog ℕ (Index.ListHeap ℕ) where
  tables := [("c", [familyKey]), ("p", [])]
  triggers := []
  checkRow _ _ := .ok ()
  referentialDefault _ _ := .ok .null
  distinct := by decide
  named := List.nodup_nil

def familyRows (table : String) : List ℕ := if table = "p" ∨ table = "c" then [1, 2] else []

/-- `UPDATE p SET n = n + 1`. -/
def plusOne : UpdateStmt ℕ (Index.ListHeap ℕ) where
  prepare _ := .ok ()
  plan _ := .ok none
  source := none
  selects _ _ := .ok true
  assigned := ["n"]
  values _ n := .ok [("n", .int (Int64.ofNat (n + 1)))]
  checkForeign _ _ _ := .ok ()
  checkParents _ _ := .ok ()
  returning := none

def shifted : Except String (List String × Deltas ℕ) :=
  planReferentialActions numberEnv familyCatalog familyRows numberTable "p" [] [(1, 2), (2, 3)]

theorem plusOne_images : imagesOf numberEnv plusOne numberTable [1, 2] =
    .ok ⟨[(1, 2), (2, 3)], [(1, some 2), (2, some 3)]⟩ := rfl

theorem shifted_images : (shifted.map fun r =>
    ((deltaOf r.2 "p").finalDocs numberEnv [1, 2], (deltaOf r.2 "c").finalDocs numberEnv [1, 2],
      imageOf numberEnv (deltaOf r.2 "c") 2, imageOf numberEnv (deltaOf r.2 "p") 2)) =
    .ok ([2, 3], [2, 2], 2, 3) := by
  decide

end Docsql.Dml
