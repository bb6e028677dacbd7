import Docsql.Dml.Adds
import Docsql.Dml.Numbers

/-!
# When triggers fire once for every row changed

The two paths that list rows by their encodings, and MERGE, which lists none.
-/

namespace Docsql.Dml

open Except (bind_eq_ok_iff)
open Index (DocHeap Table ListHeap listHeap)
open Trigger (TriggerDef)

variable {Doc H : Type} {env : Env Doc} {heap : DocHeap Doc H} {c : Catalog Doc H}
variable {nested : Option (Nested Doc H)} {table : String} {e e' : Session Doc H}

/-! ## Updates by a list of pairs -/

/-- Only the triggers that watch can tell the pairs run for from those changed. -/
theorem updates_faithful_iff (c : Catalog Doc H) (table : String) (cols : List String)
    (run changed : List (Doc × Doc)) :
    (announced c table (run.map (updateImages cols))
      (changed.map fun p => .updated p.1 p.2 cols)).Faithful c ↔
      (WatchesUpdate c table cols → run.Perm changed) := by
  have hinj : Function.Injective fun p : Doc × Doc => (some p.1, some p.2) := by
    intro p q h
    simpa [Prod.ext_iff] using h
  have hseen : ∀ (d : TriggerDef Doc (Request Doc H)) (ps : List (Doc × Doc)),
      seenBy d (ps.map (updateImages cols)) =
        if d.matchesEvent (.update (some cols)) then ps.map fun p => (some p.1, some p.2)
        else [] := by
    intro d ps
    rw [seenBy_map]
    by_cases hd : d.matchesEvent (.update (some cols)) = true
    · simp [updateImages, hd]
    · simp [updateImages, hd]
  have himages : (changed.map fun p => Change.updated p.1 p.2 cols).map Change.image =
      changed.map (updateImages cols) := by
    rw [List.map_map]
    rfl
  rw [announced_faithful_iff, himages]
  constructor
  · rintro h ⟨d, hd, htable, hmatch⟩
    have hperm := h d hd htable
    rw [hseen, hseen, if_pos hmatch, if_pos hmatch] at hperm
    exact (List.map_perm_map_iff hinj).mp hperm
  · intro h d hd htable
    rw [hseen, hseen]
    split
    case isTrue hmatch => exact (h ⟨d, hd, htable, hmatch⟩).map _
    case isFalse => exact List.Perm.refl _

/-- A list with one pair for each image, against the rows of the table. -/
theorem perm_changedBy_iff {image : Doc → Option Doc} {docs : List Doc} {pairs : List (Doc × Doc)}
    (hmem : ∀ p ∈ pairs, p.1 ∈ docs)
    (hlisted : ∀ doc, listedFor env pairs doc = ((image doc).map fun new => (doc, new)).toList) :
    pairs.Perm (changedBy image docs) ↔ ∀ p ∈ changedBy image docs, Alone env docs p.1 := by
  rw [Fibres.perm_iff_of_keys (fun p : Doc × Doc => env.objectKey p.1) env.objectKey
    (fun p hp => ⟨p.1, hmem p hp, rfl⟩)
    (fun p hp => ⟨p.1, (mem_changedBy.mp hp).1, rfl⟩)]
  have hrows : ∀ doc ∈ docs,
      ((listedFor env pairs doc).Perm (listedFor env (changedBy image docs) doc) ↔
        (image doc ≠ none → Alone env docs doc)) := by
    intro doc _
    rw [hlisted, listedFor_changedBy]
    cases himage : image doc with
    | none => simp
    | some new =>
      simp only [Option.map_some, Option.toList_some, ne_eq, reduceCtorEq, not_false_eq_true,
        forall_const]
      constructor
      · exact fun h => by simpa [Alone] using h.length_eq.symm
      · intro h
        rw [h]
        exact List.Perm.refl _
  refine (forall₂_congr hrows).trans ⟨?_, ?_⟩
  · intro h p hp
    obtain ⟨hin, himage⟩ := mem_changedBy.mp hp
    exact h p.1 hin (by simp [himage])
  · intro h doc hdoc hsome
    obtain ⟨new, hnew⟩ := Option.ne_none_iff_exists'.mp hsome
    exact h (doc, new) (mem_changedBy.mpr ⟨hdoc, hnew⟩)

/-! ## The images of an UPDATE -/

section Images

variable {s : UpdateStmt Doc H} {tables : Tables H} {docs : List Doc}

/-- The image that an UPDATE of one table gives a row. -/
def plainImage (env : Env Doc) (s : UpdateStmt Doc H) (tables : Tables H) (doc : Doc) :
    Option Doc :=
  match s.selects tables doc, s.values tables doc with
  | .ok true, .ok vals => some (assignAll env doc vals)
  | _, _ => none

theorem plainMarks_ok {marks : List (Doc × Option Doc)}
    (h : plainMarks env s tables docs = .ok marks) :
    marks = docs.map fun doc => (doc, plainImage env s tables doc) := by
  induction docs generalizing marks with
  | nil =>
    cases h
    rfl
  | cons doc docs ih =>
    rw [plainMarks] at h
    obtain ⟨pass, hpass, h⟩ := bind_eq_ok_iff.mp h
    cases pass with
    | true =>
      obtain ⟨vals, hvals, h⟩ := bind_eq_ok_iff.mp h
      obtain ⟨rest, hrest, h⟩ := bind_eq_ok_iff.mp h
      cases h
      rw [ih hrest, List.map_cons, plainImage, hpass, hvals]
    | false =>
      obtain ⟨rest, hrest, h⟩ := bind_eq_ok_iff.mp h
      cases h
      rw [ih hrest, List.map_cons, plainImage, hpass]

/-- The updates of a join: one for each target row. -/
structure JoinedOk (env : Env Doc) (docs : List Doc) (updates : List (List UInt8 × Doc × Doc)) :
    Prop where
  nodup : (updates.map Prod.fst).Nodup
  key : ∀ u ∈ updates, u.1 = env.objectKey u.2.1
  mem : ∀ u ∈ updates, u.2.1 ∈ docs

theorem JoinedOk.nil : JoinedOk env docs [] := ⟨by simp, by simp, by simp⟩

theorem joinedUpdates_ok {rows : List (Doc × Doc)} {updates out : List (List UInt8 × Doc × Doc)}
    (hrows : ∀ row ∈ rows, row.1 ∈ docs) (hok : JoinedOk env docs updates)
    (h : joinedUpdates env s tables rows updates = .ok out) : JoinedOk env docs out := by
  induction rows generalizing updates with
  | nil =>
    cases h
    exact hok
  | cons row rows ih =>
    obtain ⟨target, row⟩ := row
    have hrest : ∀ r ∈ rows, r.1 ∈ docs := fun r hr => hrows r (List.mem_cons_of_mem _ hr)
    rw [joinedUpdates] at h
    split at h
    · exact ih hrest hok h
    case isFalse hnew =>
      obtain ⟨pass, -, h⟩ := bind_eq_ok_iff.mp h
      cases pass with
      | false => exact ih hrest hok h
      | true =>
        obtain ⟨vals, -, h⟩ := bind_eq_ok_iff.mp h
        refine ih hrest ⟨?_, ?_, ?_⟩ h
        · rw [List.map_append]
          exact hok.nodup.append (List.nodup_singleton _) (by simpa using hnew)
        · intro u hu
          rcases List.mem_append.mp hu with hu | hu
          · exact hok.key u hu
          · rw [List.mem_singleton.mp hu]
        · intro u hu
          rcases List.mem_append.mp hu with hu | hu
          · exact hok.mem u hu
          · rw [List.mem_singleton.mp hu]
            exact hrows (target, row) List.mem_cons_self

theorem withTargets_mem {rows : List (ℕ × Doc)} :
    ∀ row ∈ withTargets docs rows, row.1 ∈ docs := by
  intro row hrow
  obtain ⟨r, -, hr⟩ := List.mem_filterMap.mp hrow
  obtain ⟨doc, hdoc, rfl⟩ := Option.map_eq_some_iff.mp hr
  exact List.mem_of_getElem? hdoc

/-- The image that a join gives a row. -/
def joinedImage (env : Env Doc) (updates : List (List UInt8 × Doc × Doc)) (doc : Doc) :
    Option Doc :=
  (updates.lookup (env.objectKey doc)).map Prod.snd

theorem JoinedOk.listedFor {updates : List (List UInt8 × Doc × Doc)}
    (h : JoinedOk env docs updates) (doc : Doc) : listedFor env (updates.map Prod.snd) doc =
      ((joinedImage env updates doc).map fun new => (doc, new)).toList := by
  induction updates with
  | nil => rfl
  | cons u updates ih =>
    have hrest : JoinedOk env docs updates :=
      ⟨(List.nodup_cons.mp h.nodup).2, fun x hx => h.key x (List.mem_cons_of_mem _ hx),
        fun x hx => h.mem x (List.mem_cons_of_mem _ hx)⟩
    have hkey := h.key u List.mem_cons_self
    obtain ⟨key, old, new⟩ := u
    rw [List.map_cons]
    unfold joinedImage at ih ⊢
    unfold Dml.listedFor at ih ⊢
    by_cases hdoc : key = env.objectKey doc
    · have hold : old = doc := env.objectKey_injective (hkey.symm.trans hdoc)
      have hnone : updates.lookup (env.objectKey doc) = none := by
        refine List.lookup_eq_none_iff.mpr fun x hx => ?_
        have hin : x.1 ∈ updates.map Prod.fst := List.mem_map_of_mem hx
        have hne : x.1 ≠ key := fun heq => (List.nodup_cons.mp h.nodup).1 (heq ▸ hin)
        simpa using fun heq : env.objectKey doc = x.1 => hne (heq.symm.trans hdoc.symm)
      rw [List.filter_cons_of_pos (by simpa using hkey.symm.trans hdoc), ih hrest, hnone, hdoc,
        List.lookup_cons_self, hold]
      rfl
    · rw [List.filter_cons_of_neg (by simpa using fun heq => hdoc (hkey.trans heq)), ih hrest,
        List.lookup_cons, beq_false_of_ne (Ne.symm hdoc)]

/-- What the two kinds of UPDATE compute. -/
inductive ImagesOk (env : Env Doc) (s : UpdateStmt Doc H) (docs : List Doc) :
    Images Doc → Prop where
  | plain (image : Doc → Option Doc) (marks : List (Doc × Option Doc)) (hsource : s.source = none)
      (hmarks : marks = docs.map fun doc => (doc, image doc)) :
      ImagesOk env s docs ⟨changedBy image docs, marks⟩
  | joined (updates : List (List UInt8 × Doc × Doc)) (marks : List (Doc × Option Doc))
      (hsource : s.source.isSome) (hok : JoinedOk env docs updates)
      (hmarks : marks = docs.map fun doc => (doc, joinedImage env updates doc)) :
      ImagesOk env s docs ⟨updates.map Prod.snd, marks⟩

theorem changed_eq {image : Doc → Option Doc} (im : Images Doc)
    (h : im.marks = docs.map fun doc => (doc, image doc)) : im.changed = changedBy image docs := by
  rw [Images.changed, h, List.filterMap_map]
  rfl

theorem imagesOf_ok {im : Images Doc} (h : imagesOf env s tables docs = .ok im) :
    ImagesOk env s docs im := by
  unfold imagesOf at h
  split at h
  case h_1 hsource =>
    obtain ⟨marks, hmarks, h⟩ := bind_eq_ok_iff.mp h
    cases h
    have heq := plainMarks_ok hmarks
    have hpairs := changed_eq ⟨[], marks⟩ heq
    rw [Images.changed] at hpairs
    rw [hpairs]
    exact .plain _ marks hsource heq
  case h_2 source hsource =>
    obtain ⟨rows, -, h⟩ := bind_eq_ok_iff.mp h
    obtain ⟨updates, hupdates, h⟩ := bind_eq_ok_iff.mp h
    cases h
    exact .joined updates _ (by rw [hsource]; rfl)
      (joinedUpdates_ok withTargets_mem JoinedOk.nil hupdates) rfl

end Images

/-! ## UPDATE -/

open StateExcept (fromExcept_bind_eq_ok_iff pure_eq_ok_iff)

theorem execUpdateGeneric_ok {s : UpdateStmt Doc H} {done : Done Doc}
    (h : execUpdateGeneric env heap c nested table s e = (.ok done, e')) :
    Adds c e e' (UpdateShows env heap c table s e.tables) := by
  unfold execUpdateGeneric at h
  rw [StateExcept.read_bind] at h
  obtain ⟨im, him, h⟩ := fromExcept_bind_eq_ok_iff.mp h
  have hok := imagesOf_ok him
  have hknown : ∀ p : Images Doc → Prop,
      (∀ im', imagesOf env s e.tables (docsOf heap e.tables table) = .ok im' → p im') ↔ p im :=
    fun p => ⟨fun hall => hall im him, fun hp im' him' =>
      Except.ok.inj (him.symm.trans him') ▸ hp⟩
  unfold UpdateShows
  split at h
  case isTrue hreach =>
    obtain ⟨δ, e₁, hplan, h⟩ := StateExcept.bind_eq_ok_iff.mp h
    rw [(pure_eq_ok_iff.mp h).2, if_pos hreach]
    rw [hknown]
    cases hok with
    | plain image marks hsource hmarks =>
      rw [hsource]
      exact execReferential_ok _ (by simp) (fun p hp => (mem_changedBy.mp hp).1) (.inl rfl)
        (repeats_changedBy env image _) hplan
    | joined updates marks hsource hjoined hmarks =>
      have hnone : s.source.isNone = false := by simpa using hsource
      rw [hnone]
      refine execReferential_ok _ (by simp) ?_ (.inl rfl) (repeats_of_nodup _ ?_) hplan
      · intro p hp
        obtain ⟨u, hu, rfl⟩ := List.mem_map.mp hp
        exact hjoined.mem u hu
      · have hkeys : (updates.map Prod.snd).map (fun p => env.objectKey p.1) =
            updates.map Prod.fst := by
          rw [List.map_map]
          exact List.map_congr_left fun u hu => (hjoined.key u hu).symm
        rw [hkeys]
        exact hjoined.nodup
  case isFalse hreach =>
    obtain ⟨_, -, h⟩ := fromExcept_bind_eq_ok_iff.mp h
    obtain ⟨_, -, h⟩ := fromExcept_bind_eq_ok_iff.mp h
    obtain ⟨_, -, h⟩ := fromExcept_bind_eq_ok_iff.mp h
    obtain ⟨_, e₁, hbefore, h⟩ := StateExcept.bind_eq_ok_iff.mp h
    obtain ⟨t', -, h⟩ := fromExcept_bind_eq_ok_iff.mp h
    obtain ⟨_, e₂, hnote, h⟩ := StateExcept.bind_eq_ok_iff.mp h
    obtain ⟨_, e₃, hcommit, h⟩ := StateExcept.bind_eq_ok_iff.mp h
    obtain ⟨_, e₄, hafter, h⟩ := StateExcept.bind_eq_ok_iff.mp h
    rw [(pure_eq_ok_iff.mp h).2]
    refine ⟨_, write_ok hbefore hnote hcommit hafter, ?_⟩
    rw [updates_faithful_iff, if_neg hreach, JoinShows, hknown]
    cases hok with
    | plain image marks hsource hmarks =>
      rw [changed_eq _ hmarks]
      exact iff_of_true (fun _ => List.Perm.refl _) (by simp [hsource])
    | joined updates marks hsource hjoined hmarks =>
      rw [changed_eq _ hmarks, forall_prop_of_true hsource]
      refine imp_congr_right fun _ => perm_changedBy_iff ?_ hjoined.listedFor
      intro p hp
      obtain ⟨u, hu, rfl⟩ := List.mem_map.mp hp
      exact hjoined.mem u hu

theorem execUpdate_ok {s : UpdateStmt Doc H} {done : Done Doc}
    (h : execUpdate env heap c nested table s e = (.ok done, e')) :
    Adds c e e' (UpdateShows env heap c table s e.tables) := by
  unfold execUpdate at h
  rw [StateExcept.read_bind] at h
  obtain ⟨_, -, h⟩ := fromExcept_bind_eq_ok_iff.mp h
  obtain ⟨plan, hplan, h⟩ := fromExcept_bind_eq_ok_iff.mp h
  cases plan with
  | none => exact execUpdateGeneric_ok h
  | some plan =>
    have hplain : s.source.isNone = true ∧ c.referentialActionsReach table = false := by
      unfold updatePlan at hplan
      split at hplan
      case isTrue hfast => simpa using hfast
      case isFalse => cases hplan
    obtain ⟨r, hr, hfaithful⟩ := execUpdateFast_ok h
    refine ⟨r, hr, hfaithful.trans (iff_of_true trivial ?_)⟩
    rw [UpdateShows, if_neg (by simp [hplain.2]), JoinShows]
    intro hsome
    rw [Option.isNone_iff_eq_none.mp hplain.1] at hsome
    cases hsome

/-! ## DELETE -/

theorem removalMarks_ok {s : DeleteStmt Doc H} {tables : Tables H} {docs : List Doc}
    {marks : List (Doc × Bool)} (h : removalMarks env s tables docs = .ok marks) :
    ∀ m ∈ marks, m.1 ∈ docs := by
  unfold removalMarks at h
  split at h
  case h_1 =>
    intro m hm
    obtain ⟨doc, hdoc, hmark⟩ := Except.exists_of_mapM_eq_ok h hm
    obtain ⟨pass, -, hmark⟩ := bind_eq_ok_iff.mp hmark
    cases hmark
    exact hdoc
  case h_2 =>
    obtain ⟨rows, -, h⟩ := bind_eq_ok_iff.mp h
    obtain ⟨keys, -, h⟩ := bind_eq_ok_iff.mp h
    cases h
    simp

theorem execDeleteGeneric_ok {s : DeleteStmt Doc H} {done : Done Doc}
    (h : execDeleteGeneric env heap c nested table s e = (.ok done, e')) :
    Adds c e e' (DeleteShows env heap c table s e.tables) := by
  unfold execDeleteGeneric at h
  rw [StateExcept.read_bind] at h
  obtain ⟨marks, hmarks, h⟩ := fromExcept_bind_eq_ok_iff.mp h
  unfold DeleteShows
  split at h
  case isTrue hreach =>
    obtain ⟨δ, e₁, hplan, h⟩ := StateExcept.bind_eq_ok_iff.mp h
    rw [(pure_eq_ok_iff.mp h).2, forall_prop_of_true hreach]
    have hdeletes : ∀ doc ∈ (marks.filter fun m => m.2).map Prod.fst,
        doc ∈ docsOf heap e.tables table := by
      intro doc hdoc
      obtain ⟨m, hm, rfl⟩ := List.mem_map.mp hdoc
      exact removalMarks_ok hmarks m (List.mem_of_mem_filter hm)
    obtain ⟨r, hr, hfaithful⟩ := execReferential_ok [] hdeletes (by simp) (.inr rfl)
      (repeats_of_nodup _ List.nodup_nil) hplan
    refine ⟨r, hr, hfaithful.trans ⟨fun hshow marks' hmarks' => ?_, fun hall => hall marks hmarks⟩⟩
    rwa [← Except.ok.inj (hmarks.symm.trans hmarks')]
  case isFalse hreach =>
    obtain ⟨_, -, h⟩ := fromExcept_bind_eq_ok_iff.mp h
    obtain ⟨_, e₁, hbefore, h⟩ := StateExcept.bind_eq_ok_iff.mp h
    obtain ⟨t', -, h⟩ := fromExcept_bind_eq_ok_iff.mp h
    obtain ⟨_, e₂, hnote, h⟩ := StateExcept.bind_eq_ok_iff.mp h
    obtain ⟨_, e₃, hcommit, h⟩ := StateExcept.bind_eq_ok_iff.mp h
    obtain ⟨_, e₄, hafter, h⟩ := StateExcept.bind_eq_ok_iff.mp h
    rw [(pure_eq_ok_iff.mp h).2]
    refine ⟨_, write_ok hbefore hnote hcommit hafter,
      iff_of_true (announced_faithful ?_) fun htrue => absurd htrue hreach⟩
    rw [List.map_map]
    rfl

theorem execDelete_ok {s : DeleteStmt Doc H} {done : Done Doc}
    (h : execDelete env heap c nested table s e = (.ok done, e')) :
    Adds c e e' (DeleteShows env heap c table s e.tables) := by
  unfold execDelete at h
  rw [StateExcept.read_bind] at h
  obtain ⟨_, -, h⟩ := fromExcept_bind_eq_ok_iff.mp h
  obtain ⟨plan, hplan, h⟩ := fromExcept_bind_eq_ok_iff.mp h
  cases plan with
  | none => exact execDeleteGeneric_ok h
  | some plan =>
    have hfalse : c.referentialActionsReach table = false := by
      unfold deletePlan at hplan
      split at hplan
      case isTrue hfast =>
        rw [Bool.and_eq_true, Bool.not_eq_true'] at hfast
        exact hfast.2
      case isFalse => cases hplan
    obtain ⟨r, hr, hfaithful⟩ := execDeleteFast_ok h
    refine ⟨r, hr, hfaithful.trans (iff_of_true trivial fun htrue => ?_)⟩
    rw [hfalse] at htrue
    cases htrue

/-! ## MERGE -/

section Merge

variable {s : MergeStmt Doc H}

theorem mergeHits_ok {target : Doc} {rows found hits : List (Doc × ℕ)}
    (h : mergeHits table s target rows found = .ok hits) (row : Doc × ℕ) :
    row ∈ hits ↔ row ∈ found ∨ row ∈ rows ∧ s.on target row.1 = .ok true := by
  induction rows generalizing found with
  | nil =>
    cases h
    simp
  | cons r rows ih =>
    rw [mergeHits] at h
    obtain ⟨pass, hpass, h⟩ := bind_eq_ok_iff.mp h
    cases pass with
    | false =>
      rw [ih h, List.mem_cons]
      constructor
      · rintro (hrow | ⟨hrow, hon⟩)
        · exact .inl hrow
        · exact .inr ⟨.inr hrow, hon⟩
      · rintro (hrow | ⟨rfl | hrow, hon⟩)
        · exact .inl hrow
        · rw [hpass] at hon
          cases hon
        · exact .inr ⟨hrow, hon⟩
    | true =>
      rw [if_neg (by simp)] at h
      split at h
      · cases h
      · rw [ih h, List.mem_append, List.mem_singleton, List.mem_cons]
        constructor
        · rintro ((hrow | rfl) | ⟨hrow, hon⟩)
          · exact .inl hrow
          · exact .inr ⟨.inl rfl, hpass⟩
          · exact .inr ⟨.inr hrow, hon⟩
        · rintro (hrow | ⟨rfl | hrow, hon⟩)
          · exact .inl (.inl hrow)
          · exact .inl (.inr rfl)
          · exact .inr ⟨hrow, hon⟩

/-- The pairs are those that ON holds for. -/
theorem mergePairs_ok {source : List (Doc × ℕ)} {targets : List (ℕ × Doc)}
    {pairs : List (ℕ × Doc × (Doc × ℕ))} (h : mergePairs table s source targets = .ok pairs)
    (p : ℕ × Doc × (Doc × ℕ)) :
    p ∈ pairs ↔ (p.1, p.2.1) ∈ targets ∧ p.2.2 ∈ source ∧ s.on p.2.1 p.2.2.1 = .ok true := by
  induction targets generalizing pairs with
  | nil =>
    cases h
    simp
  | cons t targets ih =>
    obtain ⟨loc, target⟩ := t
    obtain ⟨ploc, ptarget, row⟩ := p
    rw [mergePairs] at h
    obtain ⟨found, hfound, h⟩ := bind_eq_ok_iff.mp h
    obtain ⟨more, hmore, h⟩ := bind_eq_ok_iff.mp h
    cases h
    have hhits := mergeHits_ok hfound row
    rw [List.mem_append, ih hmore, List.mem_map, List.mem_cons]
    constructor
    · rintro (⟨row', hrow, heq⟩ | ⟨hin, hrest⟩)
      · cases heq
        exact ⟨.inl rfl, by simpa using hhits.mp hrow⟩
      · exact ⟨.inr hin, hrest⟩
    · rintro ⟨heq | hin, hrest⟩
      · cases heq
        exact .inl ⟨row, hhits.mpr (.inr hrest), rfl⟩
      · exact .inr ⟨hin, hrest⟩

theorem mergeInserts_length {t : Table H} {build : ℤ → Doc → Except String (Doc × ℤ)}
    {rows docs : List Doc} {next : ℤ} {w w' : Index.Work H}
    (h : mergeInserts env heap t build rows next w = (.ok docs, w')) :
    docs.length = rows.length := by
  induction rows generalizing next w w' docs with
  | nil =>
    rw [(pure_eq_ok_iff.mp h).1]
  | cons row rows ih =>
    obtain ⟨⟨doc, next'⟩, -, h⟩ := fromExcept_bind_eq_ok_iff.mp h
    obtain ⟨loc, w₁, -, h⟩ := StateExcept.bind_eq_ok_iff.mp h
    obtain ⟨_, w₂, -, h⟩ := StateExcept.bind_eq_ok_iff.mp h
    obtain ⟨more, w₃, hmore, h⟩ := StateExcept.bind_eq_ok_iff.mp h
    rw [(pure_eq_ok_iff.mp h).1, List.length_cons, List.length_cons, ih hmore]

/-- A statement that changes rows and fires nothing. -/
theorem silent_faithful_iff (c : Catalog Doc H) (table : String) (cols : List String)
    (updates : List (Doc × Doc)) (inserts : List Doc) :
    (announced c table [] (updates.map (fun p => Change.updated p.1 p.2 cols) ++
      inserts.map Change.inserted)).Faithful c ↔
      (WatchesUpdate c table cols → updates = []) ∧ (WatchesInsert c table → inserts = []) := by
  have hseen : ∀ d : TriggerDef Doc (Request Doc H),
      seenBy d ((updates.map (fun p => Change.updated p.1 p.2 cols) ++
        inserts.map Change.inserted).map Change.image) = [] ↔
      (d.matchesEvent (.update (some cols)) = true → updates = []) ∧
        (d.matchesEvent .insert = true → inserts = []) := by
    intro d
    rw [List.map_append, seenBy_append, List.append_eq_nil_iff, List.map_map, List.map_map,
      seenBy_map, seenBy_map]
    refine and_congr ?_ ?_
    · by_cases hd : d.matchesEvent (.update (some cols)) = true
      · simp [Change.image, hd]
      · simp [Change.image, hd]
    · by_cases hd : d.matchesEvent .insert = true
      · simp [Change.image, hd]
      · simp [Change.image, hd]
  rw [announced_faithful_iff]
  constructor
  · intro h
    have hnil : ∀ d ∈ c.triggers, d.table = table → _ := fun d hd htable =>
      (hseen d).mp (List.nil_perm.mp (h d hd htable))
    exact ⟨fun ⟨d, hd, htable, hmatch⟩ => (hnil d hd htable).1 hmatch,
      fun ⟨d, hd, htable, hmatch⟩ => (hnil d hd htable).2 hmatch⟩
  · rintro ⟨hupdates, hinserts⟩ d hd htable
    refine List.nil_perm.mpr ((hseen d).mpr ⟨fun hmatch => ?_, fun hmatch => ?_⟩)
    · exact hupdates ⟨d, hd, htable, hmatch⟩
    · exact hinserts ⟨d, hd, htable, hmatch⟩

variable {rows : List Doc} {tables : Tables H} {pairs : List (ℕ × Doc × (Doc × ℕ))}

theorem mem_docsOf {t : Table H} {doc : Doc} :
    doc ∈ t.docs heap ↔ ∃ loc, (loc, doc) ∈ t.rows heap := by
  simp [Table.docs]

theorem pairs_eq_nil_iff {t : Table H}
    (h : mergePairs table s rows.zipIdx (t.rows heap) = .ok pairs) :
    pairs = [] ↔ ∀ target ∈ t.docs heap, ∀ row ∈ rows, s.on target row ≠ .ok true := by
  rw [List.eq_nil_iff_forall_not_mem]
  constructor
  · intro hnone target htarget row hrow hon
    obtain ⟨loc, hloc⟩ := mem_docsOf.mp htarget
    obtain ⟨i, hi⟩ := List.mem_iff_getElem?.mp hrow
    exact hnone (loc, target, (row, i))
      ((mergePairs_ok h _).mpr ⟨hloc, List.mk_mem_zipIdx_iff_getElem?.mpr hi, hon⟩)
  · rintro hnone ⟨loc, target, row, i⟩ hp
    obtain ⟨hloc, hrow, hon⟩ := (mergePairs_ok h _).mp hp
    exact hnone target (mem_docsOf.mpr ⟨loc, hloc⟩) row (List.fst_mem_of_mem_zipIdx hrow) hon

theorem rest_eq_nil_iff {t : Table H}
    (h : mergePairs table s rows.zipIdx (t.rows heap) = .ok pairs) :
    (rows.zipIdx.filter fun row => row.2 ∉ pairs.map fun p => p.2.2.2) = [] ↔
      ∀ row ∈ rows, ∃ target ∈ t.docs heap, s.on target row = .ok true := by
  rw [List.filter_eq_nil_iff]
  constructor
  · intro hall row hrow
    obtain ⟨i, hi⟩ := List.mem_iff_getElem?.mp hrow
    have hin := hall (row, i) (List.mk_mem_zipIdx_iff_getElem?.mpr hi)
    rw [decide_eq_true_iff, not_not] at hin
    obtain ⟨⟨loc, target, row', i'⟩, hp, rfl⟩ := List.mem_map.mp hin
    obtain ⟨hloc, hrow', hon⟩ := (mergePairs_ok h _).mp hp
    have hsame : some row = some row' :=
      hi.symm.trans (List.mk_mem_zipIdx_iff_getElem?.mp hrow')
    rw [Option.some.inj hsame]
    exact ⟨target, mem_docsOf.mpr ⟨loc, hloc⟩, hon⟩
  · rintro hall ⟨row, i⟩ hrow
    obtain ⟨target, htarget, hon⟩ := hall row (List.fst_mem_of_mem_zipIdx hrow)
    obtain ⟨loc, hloc⟩ := mem_docsOf.mp htarget
    rw [decide_eq_true_iff, not_not]
    exact List.mem_map.mpr ⟨_, (mergePairs_ok h (loc, target, (row, i))).mpr ⟨hloc, hrow, hon⟩, rfl⟩

theorem mergeUpdates_eq_nil_iff {updates : List (ℕ × Doc × Doc)}
    (h : mergeUpdates s pairs = .ok updates) :
    updates.map Prod.snd = [] ↔ (s.update.isSome → pairs = []) := by
  unfold mergeUpdates at h
  rw [List.map_eq_nil_iff]
  split at h
  case h_1 hnone =>
    cases h
    simp [hnone]
  case h_2 image hsome =>
    rw [hsome, Option.isSome_some, forall_prop_of_true rfl, ← List.length_eq_zero_iff,
      ← List.length_eq_zero_iff, (Except.mapM_eq_ok h).length_eq]

theorem stage_ok {α : Type} {w w' : Index.Work H} {m : Index.WorkM H α} {a : α}
    (h : stage w m = .ok (a, w')) : m w = (.ok a, w') := by
  unfold stage at h
  split at h
  case h_1 hrun =>
    cases h
    exact hrun
  case h_2 => cases h

theorem execMerge_ok {done : Done Doc} (h : execMerge env heap table s e = (.ok done, e')) :
    Adds c e e' (MergeUnwatched heap c table s e.tables) := by
  unfold execMerge at h
  rw [StateExcept.read_bind] at h
  obtain ⟨rows, hrows, h⟩ := fromExcept_bind_eq_ok_iff.mp h
  obtain ⟨pairs, hpairs, h⟩ := fromExcept_bind_eq_ok_iff.mp h
  obtain ⟨updates, hupdates, h⟩ := fromExcept_bind_eq_ok_iff.mp h
  obtain ⟨⟨_, w⟩, -, h⟩ := fromExcept_bind_eq_ok_iff.mp h
  obtain ⟨next, -, h⟩ := fromExcept_bind_eq_ok_iff.mp h
  obtain ⟨⟨inserts, w'⟩, hinserts, h⟩ := fromExcept_bind_eq_ok_iff.mp h
  obtain ⟨_, -, h⟩ := fromExcept_bind_eq_ok_iff.mp h
  obtain ⟨_, -, h⟩ := fromExcept_bind_eq_ok_iff.mp h
  obtain ⟨_, e₁, hfirst, h⟩ := StateExcept.bind_eq_ok_iff.mp h
  obtain ⟨_, e₂, hsecond, h⟩ := StateExcept.bind_eq_ok_iff.mp h
  obtain ⟨_, e₃, hcommit, h⟩ := StateExcept.bind_eq_ok_iff.mp h
  rw [(pure_eq_ok_iff.mp h).2]
  refine ⟨announced c table [] ((updates.map Prod.snd).map
    (fun p => Change.updated p.1 p.2 s.assigned) ++ inserts.map Change.inserted), ?_, ?_⟩
  · rw [commitTable_ok hcommit, noteChanged_ok hsecond, noteChanged_ok hfirst, Record.append_assoc]
    congr 1
    change Record.mk _ _ _ = Record.mk _ _ _
    simp [ranFor]
  · have hins : inserts = [] ↔ (s.insert.isSome → (rows.zipIdx.filter fun row =>
        row.2 ∉ pairs.map fun p => p.2.2.2) = []) := by
      split at hinserts
      case h_1 hnone =>
        cases hinserts
        simp [hnone]
      case h_2 build hsome =>
        rw [hsome, Option.isSome_some, forall_prop_of_true rfl, ← List.length_eq_zero_iff,
          ← List.length_eq_zero_iff, mergeInserts_length (stage_ok hinserts), List.length_map]
    have hone : MergeUnwatched heap c table s e.tables ↔
        (s.update.isSome → WatchesUpdate c table s.assigned → pairs = []) ∧
          (s.insert.isSome → WatchesInsert c table → (rows.zipIdx.filter fun row =>
            row.2 ∉ pairs.map fun p => p.2.2.2) = []) := by
      rw [pairs_eq_nil_iff hpairs, rest_eq_nil_iff hpairs]
      exact ⟨fun h => h rows hrows, fun h rows' hrows' =>
        Except.ok.inj (hrows.symm.trans hrows') ▸ h⟩
    rw [silent_faithful_iff, mergeUpdates_eq_nil_iff hupdates, hins, hone]
    exact and_congr forall_comm forall_comm

end Merge

/-! ## Statements -/

theorem execStmtInner_ok {request : Request Doc H} {out : ExecOutcome}
    (h : execStmtInner env heap c nested table request e = (.ok out, e')) :
    Adds c e e' (FiresOnce env heap c table e.tables request) := by
  obtain ⟨done, e₁, hbody, hout⟩ := StateExcept.bind_eq_ok_iff.mp h
  rw [(StateExcept.fromExcept_eq_ok_iff.mp hout).2]
  cases request with
  | insert s =>
    obtain ⟨r, hr, hfaithful⟩ := execInsert_ok hbody
    exact ⟨r, hr, hfaithful⟩
  | update s => exact execUpdate_ok hbody
  | delete s => exact execDelete_ok hbody
  | merge s => exact execMerge_ok hbody

/-- The statement guard leaves the record of a statement alone. -/
theorem execStmt_ok {request : Request Doc H} {out : ExecOutcome}
    (h : execStmt env heap c table request e = (.ok out, e')) :
    Adds c e e' (FiresOnce env heap c table e.tables request) := by
  unfold execStmt at h
  split at h
  case isTrue =>
    unfold runWithTriggerGuard at h
    split at h
    case isTrue =>
      unfold guardInTx at h
      dsimp only at h
      split at h
      case h_1 hrun =>
        cases h
        have hadds := execStmtInner_ok hrun
        exact hadds
      case h_2 => cases h
    case isFalse =>
      unfold guardAutocommit at h
      split at h
      case h_1 hrun =>
        cases h
        have hadds := execStmtInner_ok hrun
        exact hadds
      case h_2 => cases h
  case isFalse => exact execStmtInner_ok h

theorem Adds.faithful_iff {p : Prop} (h : Adds c e e' p) (hrecord : e.record = {}) :
    e'.record.Faithful c ↔ p := by
  obtain ⟨r, hr, hfaithful⟩ := h
  rw [hr, hrecord, Record.empty_append]
  exact hfaithful

def auditedNumbers : Catalog ℕ (ListHeap ℕ) :=
  numberCatalog [watching "audit" "t" false] (by decide)

/-- `MERGE INTO t USING ... WHEN NOT MATCHED THEN INSERT`. -/
def mergeNumbers (ns : List ℕ) : Request ℕ (ListHeap ℕ) :=
  .merge {
    source := fun _ => .ok ns
    on := fun target row => .ok (target = row)
    assigned := []
    update := none
    insert := some fun next row => .ok (row, next)
    nextAutoinc := fun _ => .ok 0
    check := fun _ _ _ => .ok () }

end Docsql.Dml
