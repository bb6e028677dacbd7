import Docsql.Dml.Firing
import Docsql.Dml.Staging
import Docsql.Lib.Fibres

/-!
# The rows a plan shows to the triggers

The triggers of a table in a plan are run for its entries, with the columns
whose values differ; the changes are those of the rows.  The two agree where
every row that a trigger watches is listed as often as it stands in the table,
with the image it gets, and is watched for a column that differs.
-/

namespace Docsql.Dml

open Fibres (fibre)
open Trigger (TriggerDef TriggerFireEvent)

variable {Doc H : Type}

/-! ## Rows with the same encoding -/

def copies (env : Env Doc) (docs : List Doc) (doc : Doc) : ℕ :=
  (fibre env.objectKey (env.objectKey doc) docs).length

/-- No other row of the table has the same encoding. -/
def Alone (env : Env Doc) (docs : List Doc) (doc : Doc) : Prop := copies env docs doc = 1

theorem fibre_docs (env : Env Doc) (docs : List Doc) (doc : Doc) :
    fibre env.objectKey (env.objectKey doc) docs = List.replicate (copies env docs doc) doc :=
  Fibres.fibre_eq_replicate env.objectKey_injective doc docs

theorem copies_pos {env : Env Doc} {docs : List Doc} {doc : Doc} (h : doc ∈ docs) :
    0 < copies env docs doc :=
  List.length_pos_of_mem (Fibres.mem_fibre.mpr ⟨h, rfl⟩)

/-! ## Images of a plan -/

section Rows

variable (env : Env Doc) (columns : List String)

/-- The images `fireDelta` runs the triggers with. -/
def deltaImages (δ : ReferentialDelta Doc) : List (Image Doc) :=
  δ.deletes.map deleteImages ++
    δ.updates.map fun p => updateImages (changedCols env columns p.1 p.2) p

variable (table origin : String) (assigned : List String) (base : List (Doc × Doc))

/-- The columns that the update of a row in a plan is made to. -/
def updatedCols (doc new : Doc) : List String :=
  (if table = origin ∧ env.objectKey doc ∈ base.map fun p => env.objectKey p.1 then assigned
    else []) ++ changedCols env columns doc new

variable (d : TriggerDef Doc (Request Doc H)) (δ : ReferentialDelta Doc)

/-- A trigger has an eye on the update of this row. -/
def Watches (doc new : Doc) : Prop :=
  d.matchesEvent (.update (some (updatedCols env columns table origin assigned base doc new))) ∨
    ∃ p ∈ listedFor env δ.updates doc,
      d.matchesEvent (.update (some (changedCols env columns p.1 p.2)))

/-- A trigger is run for a row of the table as it has to be; `plain` are the
updates that the statement lists for every row by itself. -/
def ShowsRow (plain : List (Doc × Doc)) (pre : List Doc) (doc : Doc) : Prop :=
  match δ.fate env doc with
  | none => True
  | some none => d.matchesEvent .delete → Alone env pre doc
  | some (some new) =>
    Watches env columns table origin assigned base d δ doc new →
      d.matchesEvent (.update (some (changedCols env columns doc new))) ∧
        (Alone env pre doc ∨ listedFor env δ.updates doc = listedFor env plain doc)

end Rows

/-! ## One table -/

theorem matchesEvent_mono {d : TriggerDef Doc (Request Doc H)} {cols cols' : List String}
    (hsub : cols ⊆ cols') (h : d.matchesEvent (.update (some cols)) = true) :
    d.matchesEvent (.update (some cols')) = true := by
  unfold TriggerDef.matchesEvent at h ⊢
  rw [Bool.and_eq_true] at h ⊢
  refine ⟨h.1, ?_⟩
  cases hof : d.updateOf with
  | none => rfl
  | some watched =>
    rw [hof] at h
    obtain ⟨col, hcol, hin⟩ := List.any_eq_true.mp h.2
    exact List.any_eq_true.mpr ⟨col, hsub hcol, hin⟩

theorem seenBy_map {α : Type} (d : TriggerDef Doc (Request Doc H)) (image : α → Image Doc)
    (xs : List α) : seenBy d (xs.map image) = xs.filterMap fun x =>
      if d.matchesEvent (image x).1 then some (image x).2 else none := by
  induction xs with
  | nil => rfl
  | cons x xs ih =>
    unfold seenBy at ih ⊢
    by_cases hx : d.matchesEvent (image x).1 = true
    · simp [hx, ih]
    · simp [hx, ih]

/-- The entries of one row in a delta. -/
inductive RowEntries (env : Env Doc) (δ : ReferentialDelta Doc) (doc : Doc) : Prop where
  | untouched (hfate : δ.fate env doc = none)
      (hdeletes : fibre env.objectKey (env.objectKey doc) δ.deletes = [])
      (hupdates : listedFor env δ.updates doc = [])
  | removed (hfate : δ.fate env doc = some none)
      (hdeletes : fibre env.objectKey (env.objectKey doc) δ.deletes = [doc])
      (hupdates : listedFor env δ.updates doc = [])
  | updated (new : Doc) (rest : List (Doc × Doc)) (hfate : δ.fate env doc = some (some new))
      (hdeletes : fibre env.objectKey (env.objectKey doc) δ.deletes = [])
      (hupdates : listedFor env δ.updates doc = (doc, new) :: rest)

variable {env : Env Doc} {pre : List Doc} {own : List (Doc × Doc)} {δ : ReferentialDelta Doc}

theorem find_eq_head (ps : List (Doc × Doc)) (doc : Doc) :
    (ps.find? fun p => env.objectKey p.1 == env.objectKey doc) = (listedFor env ps doc).head? := by
  unfold listedFor
  rw [List.head?_filter]
  congr 1
  exact funext fun p => Bool.eq_iff_iff.mpr (by simp)

theorem Tracks.rowEntries (h : Tracks env pre own δ) (doc : Doc) : RowEntries env δ doc := by
  by_cases hgone : env.objectKey doc ∈ δ.deleteKeys env
  · refine .removed (by rw [ReferentialDelta.fate, if_pos hgone]) ?_ ?_
    · have hcount : (fibre env.objectKey (env.objectKey doc) δ.deletes).length = 1 := by
        have honce := List.count_eq_one_of_mem h.once hgone
        unfold ReferentialDelta.deleteKeys at honce
        rw [List.count_eq_length_filter, List.filter_map, List.length_map] at honce
        refine Eq.trans ?_ honce
        congr 1
        exact List.filter_congr fun x _ => Bool.eq_iff_iff.mpr (by simp)
      rw [Fibres.fibre_eq_replicate env.objectKey_injective, hcount]
      rfl
    · refine List.filter_eq_nil_iff.mpr fun p hp hkey => h.apart p hp ?_
      rwa [of_decide_eq_true hkey]
  · have hdeletes : fibre env.objectKey (env.objectKey doc) δ.deletes = [] :=
      Fibres.fibre_eq_nil fun x hx heq => hgone (List.mem_map.mpr ⟨x, hx, heq⟩)
    have hfate : δ.fate env doc = (listedFor env δ.updates doc).head?.map fun p => some p.2 := by
      rw [ReferentialDelta.fate, if_neg hgone, find_eq_head]
    cases hlist : listedFor env δ.updates doc with
    | nil =>
      rw [hlist] at hfate
      exact .untouched hfate hdeletes hlist
    | cons p rest =>
      rw [hlist] at hfate
      have hp : p ∈ listedFor env δ.updates doc := hlist ▸ List.mem_cons_self
      have hdoc : p.1 = doc :=
        env.objectKey_injective (of_decide_eq_true (List.mem_filter.mp hp).2)
      refine .updated p.2 rest hfate hdeletes ?_
      rw [hlist, ← hdoc]

/-- The statement lists a row for every copy of it, in `plain`, or once. -/
def Repeats (env : Env Doc) (pre : List Doc) (own plain : List (Doc × Doc)) : Prop :=
  ∀ doc ∈ pre,
    (∃ new, listedFor env own doc = List.replicate (copies env pre doc) (doc, new) ∧
      listedFor env plain doc = listedFor env own doc) ∨
    (listedFor env plain doc = [] ∧ (listedFor env own doc).length ≤ 1)

/-- What a delta lists for a row that it updates. -/
inductive Listed (plain : List (Doc × Doc)) (env : Env Doc) (pre : List Doc)
    (doc new : Doc) : List (Doc × Doc) → Prop where
  | once (h : listedFor env plain doc = [(doc, new)] → Alone env pre doc) :
      Listed plain env pre doc new [(doc, new)]
  | repeated (before : Doc) (left : ℕ) (hcopies : copies env pre doc = left + 1)
      (hplain : listedFor env plain doc = List.replicate (left + 1) (doc, before)) :
      Listed plain env pre doc new ((doc, new) :: List.replicate left (doc, before))

theorem Tracks.listed {plain rest : List (Doc × Doc)} {doc new : Doc} (h : Tracks env pre own δ)
    (hrepeats : Repeats env pre own plain) (hdoc : doc ∈ pre)
    (hlist : listedFor env δ.updates doc = (doc, new) :: rest) :
    Listed plain env pre doc new ((doc, new) :: rest) := by
  have hgrown := h.grown doc
  rw [hlist] at hgrown
  rcases hrepeats doc hdoc with ⟨before, hown, hplain⟩ | ⟨hplain, hown⟩
  · obtain ⟨left, hleft⟩ := Nat.exists_eq_succ_of_ne_zero (copies_pos hdoc).ne'
    rw [hown] at hplain
    rw [hown, hleft, List.replicate_succ] at hgrown
    rw [hleft] at hplain
    generalize hl : ((doc, new) :: rest : List (Doc × Doc)) = l at hgrown
    cases hgrown with
    | kept =>
      obtain ⟨hhead, rfl⟩ := List.cons.inj hl
      obtain ⟨-, rfl⟩ := Prod.mk.inj hhead
      exact .repeated _ left hleft hplain
    | dropped => cases hl
    | composed _ new' =>
      obtain ⟨hhead, rfl⟩ := List.cons.inj hl
      obtain ⟨-, rfl⟩ := Prod.mk.inj hhead
      exact .repeated before left hleft hplain
  · have hrest : rest = [] := by
      generalize hb : listedFor env own doc = b at hgrown hown
      generalize hl : ((doc, new) :: rest : List (Doc × Doc)) = l at hgrown
      cases hgrown with
      | kept =>
        subst hl
        exact List.length_eq_zero_iff.mp (by simpa using hown)
      | dropped => cases hl
      | staged p => exact (List.cons.inj hl).2
      | composed p new' rest' =>
        obtain ⟨-, rfl⟩ := List.cons.inj hl
        exact List.length_eq_zero_iff.mp (by simpa using hown)
    subst hrest
    exact .once fun heq => by simp [hplain] at heq

section Show

variable {columns : List String} {table origin : String} {assigned : List String}
variable {base plain : List (Doc × Doc)} {d : TriggerDef Doc (Request Doc H)} {doc : Doc}

/-- What a trigger is shown of an update that is made to these columns. -/
def shownUpdate (d : TriggerDef Doc (Request Doc H)) (cols : List String) (p : Doc × Doc) :
    Option (Option Doc × Option Doc) :=
  if d.matchesEvent (.update (some cols)) then some (some p.1, some p.2) else none

/-- For one row: what the triggers are shown, and what becomes of the row. -/
theorem shown_updated_iff {new : Doc} {entries : List (Doc × Doc)} {more : List String}
    (hlisted : Listed plain env pre doc new entries) (hdoc : doc ∈ pre) :
    (entries.filterMap fun p => shownUpdate d (changedCols env columns p.1 p.2) p).Perm
        ((List.replicate (copies env pre doc) (doc, new)).filterMap fun p =>
          shownUpdate d (more ++ changedCols env columns p.1 p.2) p) ↔
      (d.matchesEvent (.update (some (more ++ changedCols env columns doc new))) ∨
          (∃ p ∈ entries, d.matchesEvent (.update (some (changedCols env columns p.1 p.2)))) →
        d.matchesEvent (.update (some (changedCols env columns doc new))) ∧
          (Alone env pre doc ∨ entries = listedFor env plain doc)) := by
  have hmono := matchesEvent_mono (d := d) (List.subset_append_right more
    (changedCols env columns doc new))
  have hpos : 0 < copies env pre doc := copies_pos hdoc
  have hrows : ((List.replicate (copies env pre doc) (doc, new)).filterMap fun p =>
      shownUpdate d (more ++ changedCols env columns p.1 p.2) p) =
      if d.matchesEvent (.update (some (more ++ changedCols env columns doc new))) then
        List.replicate (copies env pre doc) (some doc, some new) else [] := by
    rw [List.filterMap_replicate]
    unfold shownUpdate
    split <;> split at * <;> simp_all
  rw [hrows]
  cases hlisted with
  | once hone =>
    have halone : Alone env pre doc ∨ [(doc, new)] = listedFor env plain doc ↔
        copies env pre doc = 1 :=
      ⟨fun h => h.elim id fun h => hone h.symm, .inl⟩
    have hentry : ([(doc, new)].filterMap fun p =>
        shownUpdate d (changedCols env columns p.1 p.2) p) =
        if d.matchesEvent (.update (some (changedCols env columns doc new))) then
          [(some doc, some new)] else [] := by
      unfold shownUpdate
      split <;> simp_all
    rw [hentry, halone]
    simp only [List.mem_singleton, exists_eq_left]
    by_cases hmc : d.matchesEvent (.update (some (changedCols env columns doc new))) = true
    · rw [if_pos hmc, if_pos (hmono hmc)]
      constructor
      · exact fun h _ => ⟨hmc, by simpa using h.length_eq.symm⟩
      · intro h
        rw [(h (.inr hmc)).2]
        exact List.Perm.refl _
    · rw [if_neg hmc]
      by_cases hmo : d.matchesEvent
          (.update (some (more ++ changedCols env columns doc new))) = true
      · rw [if_pos hmo]
        constructor
        · exact fun h => absurd h.length_eq (by simpa using hpos.ne)
        · exact fun h => absurd (h (.inl hmo)).1 hmc
      · rw [if_neg hmo]
        simp [hmc, hmo]
  | repeated before left hcopies hplain =>
    have hsame : Alone env pre doc ∨ (doc, new) :: List.replicate left (doc, before) =
        listedFor env plain doc ↔ left = 0 ∨ new = before := by
      rw [Alone, hcopies, hplain, List.replicate_succ]
      simp
    have hentries : (((doc, new) :: List.replicate left (doc, before)).filterMap fun p =>
        shownUpdate d (changedCols env columns p.1 p.2) p) =
        (if d.matchesEvent (.update (some (changedCols env columns doc new))) then
          [(some doc, some new)] else []) ++
        if d.matchesEvent (.update (some (changedCols env columns doc before))) then
          List.replicate left (some doc, some before) else [] := by
      rw [List.filterMap_cons, List.filterMap_replicate]
      unfold shownUpdate
      split <;> split <;> simp_all
    have hwatch : (∃ p ∈ (doc, new) :: List.replicate left (doc, before),
        d.matchesEvent (.update (some (changedCols env columns p.1 p.2))) = true) ↔
        d.matchesEvent (.update (some (changedCols env columns doc new))) = true ∨
          left ≠ 0 ∧
            d.matchesEvent (.update (some (changedCols env columns doc before))) = true := by
      simp [List.mem_replicate]
    rw [hentries, hsame, hcopies, hwatch]
    by_cases hmo : d.matchesEvent
        (.update (some (more ++ changedCols env columns doc new))) = true
    · rw [if_pos hmo, List.perm_replicate]
      constructor
      · intro h _
        obtain ⟨hlength, hall⟩ := List.eq_replicate_iff.mp h
        have hmc : d.matchesEvent (.update (some (changedCols env columns doc new))) = true := by
          by_contra hmc
          rw [if_neg hmc, List.nil_append] at hlength
          split at hlength <;> simp at hlength
        refine ⟨hmc, or_iff_not_imp_left.mpr fun hleft => ?_⟩
        rw [if_pos hmc] at hlength hall
        split at hlength
        case isTrue hmb =>
          rw [if_pos hmb] at hall
          have hlast := hall (some doc, some before)
            (List.mem_append_right _ (List.mem_replicate.mpr ⟨hleft, rfl⟩))
          exact (Option.some.inj (Prod.mk.inj hlast).2).symm
        case isFalse => exact absurd (Nat.succ.inj hlength).symm hleft
      · intro h
        obtain ⟨hmc, hleft | rfl⟩ := h (.inl hmo)
        · rw [if_pos hmc, hleft]
          split <;> rfl
        · rw [if_pos hmc, if_pos hmc]
          rfl
    · have hmc : ¬ d.matchesEvent (.update (some (changedCols env columns doc new))) = true :=
        fun h => hmo (hmono h)
      rw [if_neg hmo, if_neg hmc, List.nil_append, List.perm_nil]
      constructor
      · rintro h (hmo' | hmc' | ⟨hleft, hmb⟩)
        · exact absurd hmo' hmo
        · exact absurd hmc' hmc
        · rw [if_pos hmb, List.replicate_eq_nil_iff] at h
          exact absurd h hleft
      · intro h
        split
        case isTrue hmb =>
          by_contra hleft
          rw [List.replicate_eq_nil_iff] at hleft
          exact hmc (h (.inr (.inr ⟨hleft, hmb⟩))).1
        case isFalse => rfl

/-- What becomes of a row, as a trigger sees it. -/
def shownRow (env : Env Doc) (columns : List String) (table origin : String)
    (assigned : List String) (base : List (Doc × Doc)) (d : TriggerDef Doc (Request Doc H))
    (δ : ReferentialDelta Doc) (doc : Doc) : Option (Option Doc × Option Doc) :=
  match δ.fate env doc with
  | none => none
  | some none => if d.matchesEvent .delete then some (some doc, none) else none
  | some (some new) =>
    shownUpdate d (updatedCols env columns table origin assigned base doc new) (doc, new)

theorem seenBy_deltaChanges :
    seenBy d ((deltaChanges env origin assigned base columns table δ pre).map Change.image) =
      pre.filterMap (shownRow env columns table origin assigned base d δ) := by
  rw [seenBy_map, deltaChanges, List.filterMap_filterMap]
  refine List.filterMap_congr fun doc _ => ?_
  unfold shownRow
  cases δ.fate env doc with
  | none => rfl
  | some fate =>
    cases fate with
    | none => rfl
    | some new => rfl

theorem seenBy_deltaImages : seenBy d (deltaImages env columns δ) =
    (δ.deletes.filterMap fun doc =>
      if d.matchesEvent .delete then some (some doc, (none : Option Doc)) else none) ++
    δ.updates.filterMap fun p => shownUpdate d (changedCols env columns p.1 p.2) p := by
  rw [deltaImages, seenBy_append, seenBy_map, seenBy_map]
  rfl

/-- The key of the row that an image is of. -/
def imageKey (env : Env Doc) (x : Option Doc × Option Doc) : Option (List UInt8) :=
  x.1.map env.objectKey

theorem imageKey_shownUpdate {cols : List String} {p : Doc × Doc} :
    ∀ x ∈ shownUpdate d cols p, imageKey env x = some (env.objectKey p.1) := by
  intro x hx
  unfold shownUpdate at hx
  split at hx
  · rw [← Option.some.inj hx]
    rfl
  · cases hx

theorem imageKey_shownDelete {doc : Doc} : ∀ x ∈ (if d.matchesEvent .delete then
    some (some doc, (none : Option Doc)) else none), imageKey env x = some (env.objectKey doc) := by
  intro x hx
  split at hx
  · rw [← Option.some.inj hx]
    rfl
  · cases hx

theorem imageKey_shownRow : ∀ x ∈ shownRow env columns table origin assigned base d δ doc,
    imageKey env x = some (env.objectKey doc) := by
  unfold shownRow
  split
  · rintro x ⟨⟩
  · exact imageKey_shownDelete
  · exact imageKey_shownUpdate

theorem fibre_some {α : Type} (key : α → List UInt8) (k : List UInt8) (xs : List α) :
    fibre (fun x => some (key x)) (some k) xs = fibre key k xs := by
  simp [fibre]

/-- A plan shows the triggers of a table what it does to the rows. -/
theorem delta_shown_iff (columns : List String) (table origin : String) (assigned : List String)
    (base : List (Doc × Doc)) (d : TriggerDef Doc (Request Doc H)) (h : Tracks env pre own δ)
    (hrepeats : Repeats env pre own plain) :
    (seenBy d (deltaImages env columns δ)).Perm
        (seenBy d ((deltaChanges env origin assigned base columns table δ pre).map
          Change.image)) ↔
      ∀ doc ∈ pre, ShowsRow env columns table origin assigned base d δ plain pre doc := by
  rw [seenBy_deltaChanges, seenBy_deltaImages, Fibres.perm_iff_of_keys (imageKey env)
    fun doc => some (env.objectKey doc)]
  · refine forall₂_congr fun doc hdoc => ?_
    rw [Fibres.fibre_append, Fibres.fibre_filterMap (fun _ => imageKey_shownDelete),
      Fibres.fibre_filterMap (fun _ => imageKey_shownUpdate),
      Fibres.fibre_filterMap (fun _ => imageKey_shownRow), fibre_some, fibre_some, fibre_some,
      fibre_docs env pre]
    change (_ ++ (listedFor env δ.updates doc).filterMap _).Perm _ ↔ _
    cases h.rowEntries doc with
    | untouched hfate hdeletes hupdates =>
      have hnone : shownRow env columns table origin assigned base d δ doc = none := by
        rw [shownRow, hfate]
      rw [hdeletes, hupdates, ShowsRow, hfate, List.filterMap_replicate, hnone]
      exact iff_of_true (List.Perm.refl _) trivial
    | removed hfate hdeletes hupdates =>
      have hrow : shownRow env columns table origin assigned base d δ doc =
          if d.matchesEvent .delete then some (some doc, none) else none := by
        rw [shownRow, hfate]
      rw [hdeletes, hupdates, ShowsRow, hfate, List.filterMap_replicate, hrow, List.filterMap_nil,
        List.append_nil]
      by_cases hd : d.matchesEvent .delete = true
      · simp only [hd, ↓reduceIte, List.filterMap_cons, List.filterMap_nil, forall_const]
        rw [Alone]
        constructor
        · exact fun h => by simpa using h.length_eq.symm
        · intro h
          rw [h]
          exact List.Perm.refl _
      · simp [hd]
    | updated new rest hfate hdeletes hupdates =>
      have hlisted := h.listed hrepeats hdoc hupdates
      have hrows : (List.replicate (copies env pre doc) doc).filterMap
          (shownRow env columns table origin assigned base d δ) =
          (List.replicate (copies env pre doc) (doc, new)).filterMap fun p => shownUpdate d
            ((if table = origin ∧ env.objectKey doc ∈ base.map fun p => env.objectKey p.1 then
              assigned else []) ++ changedCols env columns p.1 p.2) p := by
        rw [List.filterMap_replicate, List.filterMap_replicate, shownRow, hfate]
        rfl
      rw [hdeletes, ShowsRow, hfate, List.filterMap_nil, List.nil_append, hrows]
      unfold Watches
      rw [hupdates]
      exact shown_updated_iff hlisted hdoc
  · intro x hx
    rcases List.mem_append.mp hx with hx | hx
    · obtain ⟨doc, hdoc, hx⟩ := List.mem_filterMap.mp hx
      exact ⟨doc, h.deletes doc hdoc, imageKey_shownDelete x hx⟩
    · obtain ⟨p, hp, hx⟩ := List.mem_filterMap.mp hx
      exact ⟨p.1, h.updates p hp, imageKey_shownUpdate x hx⟩
  · intro x hx
    obtain ⟨doc, hdoc, hx⟩ := List.mem_filterMap.mp hx
    exact ⟨doc, hdoc, imageKey_shownRow x hx⟩

end Show

/-! ## What statements list -/

/-- The rows as their table holds them, with the images they get. -/
def changedBy (image : Doc → Option Doc) (docs : List Doc) : List (Doc × Doc) :=
  docs.filterMap fun doc => (image doc).map fun new => (doc, new)

theorem mem_changedBy {image : Doc → Option Doc} {docs : List Doc} {p : Doc × Doc} :
    p ∈ changedBy image docs ↔ p.1 ∈ docs ∧ image p.1 = some p.2 := by
  obtain ⟨old, new⟩ := p
  simp [changedBy]

theorem listedFor_changedBy (env : Env Doc) (image : Doc → Option Doc) (pre : List Doc)
    (doc : Doc) : listedFor env (changedBy image pre) doc =
      match image doc with
      | none => []
      | some new => List.replicate (copies env pre doc) (doc, new) := by
  have hkeys : ∀ x, ∀ p ∈ (image x).map (fun new => (x, new)),
      env.objectKey p.1 = env.objectKey x := by
    rintro x p hp
    obtain ⟨new, -, rfl⟩ := Option.mem_map.mp hp
    rfl
  have hfibre := Fibres.fibre_filterMap hkeys (env.objectKey doc) pre
  rw [fibre_docs, List.filterMap_replicate] at hfibre
  refine hfibre.trans ?_
  cases image doc with
  | none => rfl
  | some new => rfl

/-- An UPDATE of one table lists every row by itself. -/
theorem repeats_changedBy (env : Env Doc) (image : Doc → Option Doc) (pre : List Doc) :
    Repeats env pre (changedBy image pre) (changedBy image pre) := by
  intro doc _
  have hlist := listedFor_changedBy env image pre doc
  cases himage : image doc with
  | none =>
    rw [himage] at hlist
    exact .inr ⟨hlist, by rw [hlist]; exact Nat.zero_le 1⟩
  | some new =>
    rw [himage] at hlist
    exact .inl ⟨new, hlist, rfl⟩

/-- A join lists every row once. -/
theorem repeats_of_nodup {env : Env Doc} {own : List (Doc × Doc)} (pre : List Doc)
    (h : (own.map fun p => env.objectKey p.1).Nodup) : Repeats env pre own [] := by
  refine fun doc _ => .inr ⟨rfl, ?_⟩
  have hcount := List.nodup_iff_count_le_one.mp h (env.objectKey doc)
  rw [List.count_eq_length_filter, List.filter_map, List.length_map] at hcount
  refine le_trans (le_of_eq ?_) hcount
  congr 1
  exact List.filter_congr fun p _ => Bool.eq_iff_iff.mpr (by simp)

end Docsql.Dml
