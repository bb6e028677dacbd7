import Docsql.Dml.Execute

/-!
# What row triggers are run for

A statement keeps faith with its triggers when each of them is run once for
every row changed that it matches, with the images of that row.  A BEFORE
trigger for INSERT is run once more for each candidate that does not become a
row, because it comes before the conflicts are looked at.
-/

namespace Docsql.Dml

open StateExcept (forEach bind_eq_ok_iff fromExcept_eq_ok_iff pure_eq_ok_iff)
open Trigger (TriggerDef TriggerFireEvent)

variable {Doc H α : Type}

/-! ## Images -/

/-- What a trigger is given of a row: the event and both images. -/
abbrev Image (Doc : Type) := TriggerFireEvent × Option Doc × Option Doc

def Change.image : Change Doc → Image Doc
  | inserted doc => (.insert, none, some doc)
  | deleted doc => (.delete, some doc, none)
  | updated old new cols => (.update (some cols), some old, some new)

/-- The images a trigger matches, without the event. -/
def seenBy (d : TriggerDef Doc (Request Doc H)) (images : List (Image Doc)) :
    List (Option Doc × Option Doc) :=
  (images.filter fun im => d.matchesEvent im.1).map Prod.snd

theorem seenBy_append (d : TriggerDef Doc (Request Doc H)) (xs ys : List (Image Doc)) :
    seenBy d (xs ++ ys) = seenBy d xs ++ seenBy d ys := by
  simp [seenBy]

/-! ## Records -/

namespace Record

variable (r : Record Doc)

instance : Append (Record Doc) :=
  ⟨fun a b => ⟨a.ran ++ b.ran, a.changed ++ b.changed, a.unplaced ++ b.unplaced⟩⟩

@[simp] theorem ran_append (a b : Record Doc) : (a ++ b).ran = a.ran ++ b.ran := rfl

@[simp] theorem changed_append (a b : Record Doc) : (a ++ b).changed = a.changed ++ b.changed := rfl

@[simp] theorem unplaced_append (a b : Record Doc) :
    (a ++ b).unplaced = a.unplaced ++ b.unplaced := rfl

theorem append_assoc (a b x : Record Doc) : a ++ b ++ x = a ++ (b ++ x) := by
  change Record.mk _ _ _ = Record.mk _ _ _
  simp

@[simp] theorem append_empty : r ++ ({} : Record Doc) = r := by
  change Record.mk _ _ _ = r
  simp

@[simp] theorem empty_append : ({} : Record Doc) ++ r = r := rfl

/-- The images a trigger was run with. -/
def runsOf (d : TriggerDef Doc (Request Doc H)) : List (Option Doc × Option Doc) :=
  (r.ran.filter fun x => x.trigger = d.name).map fun x => (x.old, x.new)

/-- The images of the rows changed that a trigger matches. -/
def changesFor (d : TriggerDef Doc (Request Doc H)) : List (Option Doc × Option Doc) :=
  seenBy d ((r.changed.filter fun x => x.1 = d.table).map fun x => x.2.image)

/-- The candidates a BEFORE INSERT trigger was run for in vain. -/
def candidatesFor (d : TriggerDef Doc (Request Doc H)) : List (Option Doc × Option Doc) :=
  if d.before then
    seenBy d ((r.unplaced.filter fun x => x.1 = d.table).map fun x => (.insert, none, some x.2))
  else []

/-- Every trigger was run once for each row changed that it matches. -/
def Faithful (c : Catalog Doc H) : Prop :=
  ∀ d ∈ c.triggers, (r.runsOf d).Perm (r.changesFor d ++ r.candidatesFor d)

variable {r}

theorem runsOf_append (a b : Record Doc) (d : TriggerDef Doc (Request Doc H)) :
    (a ++ b).runsOf d = a.runsOf d ++ b.runsOf d := by
  simp [runsOf]

theorem changesFor_append (a b : Record Doc) (d : TriggerDef Doc (Request Doc H)) :
    (a ++ b).changesFor d = a.changesFor d ++ b.changesFor d := by
  simp [changesFor, seenBy_append]

theorem candidatesFor_append (a b : Record Doc) (d : TriggerDef Doc (Request Doc H)) :
    (a ++ b).candidatesFor d = a.candidatesFor d ++ b.candidatesFor d := by
  unfold candidatesFor
  split
  · simp [seenBy_append]
  · rfl

theorem faithful_empty (c : Catalog Doc H) : ({} : Record Doc).Faithful c := by
  intro d _
  simp [runsOf, changesFor, candidatesFor, seenBy]

theorem Faithful.append {c : Catalog Doc H} {a b : Record Doc} (ha : a.Faithful c)
    (hb : b.Faithful c) : (a ++ b).Faithful c := by
  intro d hd
  rw [runsOf_append, changesFor_append, candidatesFor_append]
  refine ((ha d hd).append (hb d hd)).trans ?_
  rw [List.append_assoc, List.append_assoc]
  refine List.Perm.append_left _ ?_
  rw [← List.append_assoc, ← List.append_assoc]
  exact List.perm_append_comm.append_right _

end Record

/-! ## Firing -/

section Fire

variable {c : Catalog Doc H} {nested : Option (Nested Doc H)}
variable {table : String} {before : Bool} {e e' : Session Doc H}

/-- The runs that one event of a row leads to. -/
def firing (c : Catalog Doc H) (table : String) (before : Bool) (im : Image Doc) :
    List (Ran Doc) :=
  (matchedTriggers c table before im.1).map fun d => ⟨d.name, table, before, im.2.1, im.2.2⟩

def ranFor (c : Catalog Doc H) (table : String) (before : Bool) (images : List (Image Doc)) :
    Record Doc :=
  { ran := images.flatMap (firing c table before) }

theorem forEach_ok {run : α → SessionM Doc H Unit} {add : α → Record Doc}
    (hrun : ∀ a e e', run a e = (.ok (), e') → e'.record = e.record ++ add a) {xs : List α}
    (h : forEach run xs e = (.ok (), e')) :
    e'.record = e.record ++ xs.foldr (fun a r => add a ++ r) {} := by
  induction xs generalizing e with
  | nil =>
    obtain ⟨-, rfl⟩ := pure_eq_ok_iff.mp h
    simp
  | cons x xs ih =>
    obtain ⟨_, e₁, h₁, h₂⟩ := bind_eq_ok_iff.mp h
    rw [ih h₂, hrun x e e₁ h₁, List.foldr_cons, Record.append_assoc]

theorem note_ok {f : Record Doc → Record Doc} {u : Unit} (h : note f e = (.ok u, e')) :
    e'.record = f e.record ∧ e'.tables = e.tables := by
  obtain ⟨-, rfl⟩ := Prod.mk.inj h
  exact ⟨rfl, rfl⟩

theorem checkBodyTarget_ok {target firingTable : String} {u : Unit}
    (h : checkBodyTarget target firingTable e = (.ok u, e')) : e' = e := by
  unfold checkBodyTarget at h
  obtain ⟨_, e₁, h₁, h⟩ := bind_eq_ok_iff.mp h
  have hcheck : ∀ {p : Prop} [Decidable p] {msg : String} {u : Unit} {s s' : Session Doc H},
      StateExcept.throwIf p msg s = (.ok u, s') → s' = s := by
    intro p _ msg u s s' h
    unfold StateExcept.throwIf at h
    split at h
    · cases h
    · exact (pure_eq_ok_iff.mp h).2
  rw [hcheck h₁, StateExcept.read_bind] at h
  exact hcheck h

theorem apart_record (run : SessionM Doc H Unit) (e : Session Doc H) :
    (apart run e).2.record = e.record := rfl

/-- A body does nothing to the record of the statement it is run for. -/
theorem runAction_ok {run : Nested Doc H} {d : TriggerDef Doc (Request Doc H)}
    {old new : Option Doc} {action : Trigger.TriggerAction Doc (Request Doc H)}
    (h : runAction run d table old new action e = (.ok (), e')) :
    e'.record = e.record ++ ({} : Record Doc) := by
  rw [Record.append_empty]
  cases action with
  | raise msg => cases h
  | sql stmt =>
    obtain ⟨_, e₁, h₁, h⟩ := bind_eq_ok_iff.mp h
    obtain ⟨request, e₂, h₂, h⟩ := bind_eq_ok_iff.mp h
    have hrecord := apart_record (run stmt.target request) e₂
    rw [h, (fromExcept_eq_ok_iff.mp h₂).2, checkBodyTarget_ok h₁] at hrecord
    exact hrecord

theorem foldr_empty (xs : List α) :
    xs.foldr (fun _ r => ({} : Record Doc) ++ r) ({} : Record Doc) = {} := by
  induction xs with
  | nil => rfl
  | cons x xs ih => rw [List.foldr_cons, ih, Record.empty_append]

theorem runTrigger_ok {run : Nested Doc H} {d : TriggerDef Doc (Request Doc H)}
    {old new : Option Doc} (h : runTrigger run table before old new d e = (.ok (), e')) :
    e'.record = e.record ++ { ran := [⟨d.name, table, before, old, new⟩] } := by
  unfold runTrigger at h
  obtain ⟨_, e₁, h₁, h⟩ := bind_eq_ok_iff.mp h
  have hnote := (note_ok h₁).1
  have hrest : e'.record = e₁.record := by
    obtain ⟨pass, e₂, h₂, h⟩ := bind_eq_ok_iff.mp h
    rw [(fromExcept_eq_ok_iff.mp h₂).2] at h
    split at h
    · have hloop := forEach_ok (fun _ _ _ => runAction_ok) h
      rwa [foldr_empty, Record.append_empty] at hloop
    · rw [(pure_eq_ok_iff.mp h).2]
  rw [hrest, hnote]
  change Record.mk _ _ _ = Record.mk _ _ _
  simp

theorem foldr_ran (f : α → Ran Doc) (xs : List α) :
    xs.foldr (fun a r => ({ ran := [f a] } : Record Doc) ++ r) {} = { ran := xs.map f } := by
  induction xs with
  | nil => rfl
  | cons x xs ih =>
    rw [List.foldr_cons, ih]
    rfl

theorem fireRowTriggers_ok {im : Image Doc}
    (h : fireRowTriggers c nested table before im.1 im.2.1 im.2.2 e = (.ok (), e')) :
    e'.record = e.record ++ { ran := firing c table before im } := by
  unfold fireRowTriggers at h
  split at h
  case isTrue hnone =>
    rw [(pure_eq_ok_iff.mp h).2, firing, List.isEmpty_iff.mp hnone]
    exact (Record.append_empty _).symm
  case isFalse =>
    cases nested with
    | none => cases h
    | some run =>
      rw [forEach_ok (fun _ _ _ => runTrigger_ok) h, foldr_ran]
      rfl

theorem foldr_flatMap (f : α → List (Ran Doc)) (xs : List α) :
    xs.foldr (fun a r => ({ ran := f a } : Record Doc) ++ r) {} = { ran := xs.flatMap f } := by
  induction xs with
  | nil => rfl
  | cons x xs ih =>
    rw [List.foldr_cons, ih]
    rfl

theorem fireAll_ok {images : α → Image Doc} {xs : List α} {u : Unit}
    (h : fireAll c nested table before images xs e = (.ok u, e')) :
    e'.record = e.record ++ ranFor c table before (xs.map images) := by
  have hrun : ∀ (a : α) (e e' : Session Doc H),
      fireRowTriggers c nested table before (images a).1 (images a).2.1 (images a).2.2 e =
        (.ok (), e') → e'.record = e.record ++ { ran := firing c table before (images a) } :=
    fun a e e' h => fireRowTriggers_ok h
  rw [forEach_ok hrun h, foldr_flatMap, ranFor, List.flatMap_map]

end Fire

/-! ## The runs of one trigger -/

section Runs

variable {c : Catalog Doc H} {d : TriggerDef Doc (Request Doc H)} (hd : d ∈ c.triggers)

include hd

theorem runsOf_firing (table : String) (before : Bool) (im : Image Doc) :
    ({ ran := firing c table before im } : Record Doc).runsOf d =
      if d.table = table ∧ d.before = before then seenBy d [im] else [] := by
  have hname : (matchedTriggers c table before im.1).filter (fun d' => d'.name = d.name) =
      if d.table = table ∧ d.before = before ∧ d.matchesEvent im.1 = true then [d] else [] := by
    have hsingle : c.triggers.filter (fun d' => decide (d'.name = d.name)) = [d] := by
      have hnodup := c.named
      have hinj : ∀ d' ∈ c.triggers, d'.name = d.name → d' = d := fun d' hd' heq =>
        List.inj_on_of_nodup_map hnodup hd' hd heq
      obtain ⟨pre, post, hsplit⟩ := List.append_of_mem hd
      rw [hsplit] at hnodup hinj ⊢
      rw [List.map_append, List.map_cons] at hnodup
      have hnot : ∀ d' ∈ pre ++ post, d'.name ≠ d.name := by
        intro d' hd' heq
        have hapart := (List.nodup_middle.mp hnodup)
        refine (List.nodup_cons.mp hapart).1 ?_
        rw [← List.map_append]
        exact List.mem_map.mpr ⟨d', hd', heq⟩
      rw [List.filter_append, List.filter_cons_of_pos (by simp),
        List.filter_eq_nil_iff.mpr fun d' hd' => by
          simpa using hnot d' (List.mem_append_left _ hd'),
        List.filter_eq_nil_iff.mpr fun d' hd' => by
          simpa using hnot d' (List.mem_append_right _ hd'), List.nil_append]
    unfold matchedTriggers
    rw [List.filter_comm, hsingle]
    by_cases hmatch : d.table = table ∧ d.before = before ∧ d.matchesEvent im.1 = true
    · rw [if_pos hmatch, List.filter_cons_of_pos, List.filter_nil]
      simp [hmatch]
    · rw [if_neg hmatch, List.filter_cons_of_neg, List.filter_nil]
      simpa [and_assoc] using hmatch
  unfold Record.runsOf firing
  rw [List.filter_map, List.map_map]
  change ((matchedTriggers c table before im.1).filter fun d' => decide (d'.name = d.name)).map
    (fun _ => im.2) = _
  rw [hname]
  by_cases hplace : d.table = table ∧ d.before = before
  · rw [if_pos hplace]
    by_cases hev : d.matchesEvent im.1 = true
    · rw [if_pos ⟨hplace.1, hplace.2, hev⟩]
      simp [seenBy, hev]
    · rw [if_neg fun h => hev h.2.2]
      simp [seenBy, hev]
  · rw [if_neg hplace, if_neg fun h => hplace ⟨h.1, h.2.1⟩]
    rfl

theorem runsOf_ranFor (table : String) (before : Bool) (images : List (Image Doc)) :
    (ranFor c table before images).runsOf d =
      if d.table = table ∧ d.before = before then seenBy d images else [] := by
  induction images with
  | nil =>
    split
    · rfl
    · rfl
  | cons im images ih =>
    have hcons : ranFor c table before (im :: images) =
        ({ ran := firing c table before im } : Record Doc) ++ ranFor c table before images := rfl
    rw [hcons, Record.runsOf_append, runsOf_firing hd, ih]
    split
    · exact (seenBy_append d [im] images).symm
    · rfl

end Runs

/-! ## A statement that announces its changes -/

/-- The triggers of a table are run with `images`, before and after the changes. -/
def announced (c : Catalog Doc H) (table : String) (images : List (Image Doc))
    (changes : List (Change Doc)) : Record Doc :=
  ranFor c table true images ++ ({ changed := changes.map fun ch => (table, ch) } : Record Doc) ++
    ranFor c table false images

section Announced

variable (table : String) (images : List (Image Doc)) (changes : List (Change Doc))

theorem announced_runsOf {c : Catalog Doc H} {d : TriggerDef Doc (Request Doc H)}
    (hd : d ∈ c.triggers) :
    (announced c table images changes).runsOf d =
      if d.table = table then seenBy d images else [] := by
  have hnone : ({ changed := changes.map fun ch => (table, ch) } : Record Doc).runsOf d = [] :=
    rfl
  rw [announced, Record.runsOf_append, Record.runsOf_append, runsOf_ranFor hd,
    runsOf_ranFor hd, hnone]
  cases d.before <;> by_cases htable : d.table = table <;> simp [htable]

theorem announced_changesFor (c : Catalog Doc H) (d : TriggerDef Doc (Request Doc H)) :
    (announced c table images changes).changesFor d =
      if d.table = table then seenBy d (changes.map Change.image) else [] := by
  have hran : ∀ before, (ranFor c table before images).changesFor d = [] := fun _ => rfl
  rw [announced, Record.changesFor_append, Record.changesFor_append, hran, hran,
    List.nil_append, List.append_nil]
  unfold Record.changesFor
  by_cases htable : d.table = table
  · rw [if_pos htable, List.filter_eq_self.mpr, List.map_map]
    · rfl
    · intro x hx
      obtain ⟨ch, -, rfl⟩ := List.mem_map.mp hx
      exact decide_eq_true htable.symm
  · rw [if_neg htable, List.filter_eq_nil_iff.mpr]
    · rfl
    · intro x hx
      obtain ⟨ch, -, rfl⟩ := List.mem_map.mp hx
      simpa using fun heq : table = d.table => htable heq.symm

theorem announced_candidatesFor (c : Catalog Doc H) (d : TriggerDef Doc (Request Doc H)) :
    (announced c table images changes).candidatesFor d = [] := by
  unfold Record.candidatesFor
  split
  · rfl
  · rfl

theorem announced_faithful_iff (c : Catalog Doc H) :
    (announced c table images changes).Faithful c ↔ ∀ d ∈ c.triggers, d.table = table →
      (seenBy d images).Perm (seenBy d (changes.map Change.image)) := by
  refine forall₂_congr fun d hd => ?_
  rw [announced_runsOf table images changes hd, announced_changesFor, announced_candidatesFor,
    List.append_nil]
  by_cases htable : d.table = table
  · simp [htable]
  · simp [htable]

end Announced

/-- Images of exactly the changes. -/
theorem announced_faithful {c : Catalog Doc H} {table : String} {images : List (Image Doc)}
    {changes : List (Change Doc)} (h : changes.map Change.image = images) :
    (announced c table images changes).Faithful c :=
  (announced_faithful_iff table images changes c).mpr fun d _ _ => by rw [h]

/-! ## Records of several tables -/

/-- A record that does not concern a trigger. -/
structure Record.Silent (r : Record Doc) (d : TriggerDef Doc (Request Doc H)) : Prop where
  runs : r.runsOf d = []
  changes : r.changesFor d = []
  candidates : r.candidatesFor d = []

theorem Record.Silent.append {a b : Record Doc} {d : TriggerDef Doc (Request Doc H)}
    (ha : a.Silent d) (hb : b.Silent d) : (a ++ b).Silent d where
  runs := by rw [runsOf_append, ha.runs, hb.runs, List.append_nil]
  changes := by rw [changesFor_append, ha.changes, hb.changes, List.append_nil]
  candidates := by rw [candidatesFor_append, ha.candidates, hb.candidates, List.append_nil]

theorem Record.empty_silent (d : TriggerDef Doc (Request Doc H)) :
    ({} : Record Doc).Silent d := by
  refine ⟨rfl, rfl, ?_⟩
  unfold candidatesFor
  split
  · rfl
  · rfl

theorem announced_silent {c : Catalog Doc H} {d : TriggerDef Doc (Request Doc H)} {table : String}
    (hd : d ∈ c.triggers) (h : d.table ≠ table) (images : List (Image Doc))
    (changes : List (Change Doc)) : (announced c table images changes).Silent d where
  runs := by rw [announced_runsOf table images changes hd, if_neg h]
  changes := by rw [announced_changesFor, if_neg h]
  candidates := announced_candidatesFor table images changes c d

theorem Record.faithful_append_iff {c : Catalog Doc H} {a b : Record Doc}
    (h : ∀ d ∈ c.triggers, a.Silent d ∨ b.Silent d) :
    (a ++ b).Faithful c ↔ a.Faithful c ∧ b.Faithful c := by
  constructor
  · intro hab
    constructor
    · intro d hd
      rcases h d hd with ha | hb
      · rw [ha.runs, ha.changes, ha.candidates]
        exact List.Perm.refl _
      · have hperm := hab d hd
        rwa [runsOf_append, changesFor_append, candidatesFor_append, hb.runs, hb.changes,
          hb.candidates, List.append_nil, List.append_nil, List.append_nil] at hperm
    · intro d hd
      rcases h d hd with ha | hb
      · have hperm := hab d hd
        rwa [runsOf_append, changesFor_append, candidatesFor_append, ha.runs, ha.changes,
          ha.candidates, List.nil_append, List.nil_append, List.nil_append] at hperm
      · rw [hb.runs, hb.changes, hb.candidates]
        exact List.Perm.refl _
  · rintro ⟨ha, hb⟩
    exact ha.append hb

/-- Tables that come one after the other. -/
def announcedAll (c : Catalog Doc H) (images : String → List (Image Doc))
    (changes : String → List (Change Doc)) (tables : List String) : Record Doc :=
  tables.foldr (fun t r => announced c t (images t) (changes t) ++ r) {}

theorem announcedAll_silent {c : Catalog Doc H} {d : TriggerDef Doc (Request Doc H)}
    (hd : d ∈ c.triggers) (images : String → List (Image Doc))
    (changes : String → List (Change Doc)) {tables : List String} (h : d.table ∉ tables) :
    (announcedAll c images changes tables).Silent d := by
  induction tables with
  | nil => exact Record.empty_silent d
  | cons t tables ih =>
    rw [List.mem_cons, not_or] at h
    exact (announced_silent hd h.1 _ _).append (ih h.2)

theorem announcedAll_faithful_iff {c : Catalog Doc H} (images : String → List (Image Doc))
    (changes : String → List (Change Doc)) {tables : List String} (hnodup : tables.Nodup) :
    (announcedAll c images changes tables).Faithful c ↔
      ∀ t ∈ tables, (announced c t (images t) (changes t)).Faithful c := by
  induction tables with
  | nil => simp [announcedAll, Record.faithful_empty]
  | cons t tables ih =>
    obtain ⟨hnot, hnodup⟩ := List.nodup_cons.mp hnodup
    rw [List.forall_mem_cons, ← ih hnodup]
    refine Record.faithful_append_iff fun d hd => ?_
    by_cases ht : d.table = t
    · exact .inr (announcedAll_silent hd images changes (ht ▸ hnot))
    · exact .inl (announced_silent hd ht _ _)

end Docsql.Dml
