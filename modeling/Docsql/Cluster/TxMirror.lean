import Docsql.Cluster.TxBuffer

/-!
# The buffer mirrors the transaction

The engine is run on a state that remembers which writes it holds the effects
of.  The marks of the buffer are the savepoints of the engine and some marks
that RELEASE left behind.  ROLLBACK TO finds the same place on both stacks as
long as no mark left behind covers the savepoint meant.
-/

namespace Docsql.Cluster

variable {S : Type} (exec : String → S → Except String (Option String × S))

/-- The engine, with the writes whose effects its state holds. -/
def traced (sql : String) (s : S × List String) :
    Except String (Option String × S × List String) :=
  (exec sql s.1).map fun r => (r.1, r.2, s.2 ++ [r.1.getD sql])

/-! ## Stacks -/

section Stacks

variable {α β : Type} {name : String} {stack : List (String × α)}

theorem fromNewest_sublist (name : String) (stack : List (String × α)) :
    (fromNewest name stack).Sublist stack :=
  (List.dropWhile_suffix _).sublist

theorem fromNewest_cons {e : String × α} {older : List (String × α)}
    (h : fromNewest name stack = e :: older) : e.1 = name := by
  have hhead := List.head?_dropWhile_not (fun e : String × α => decide (e.1 ≠ name)) stack
  rw [← fromNewest, h, List.head?_cons] at hhead
  simpa using hhead

/-- A stack inside another one is inside it from the newest entry of a name on. -/
theorem fromNewest_mono (name : String) {inner outer : List (String × α)} (h : inner.Sublist outer) :
    (fromNewest name inner).Sublist (fromNewest name outer) := by
  induction h with
  | slnil => exact List.Sublist.refl _
  | @cons l₁ l₂ e h ih =>
    unfold fromNewest at ih ⊢
    rw [List.dropWhile_cons]
    split
    · exact ih
    · exact ((fromNewest_sublist name l₁).trans h).cons e
  | @cons_cons l₁ l₂ e h ih =>
    unfold fromNewest at ih ⊢
    rw [List.dropWhile_cons, List.dropWhile_cons]
    split
    · exact ih
    · exact h.cons_cons e

theorem fromNewest_map (f : α → β) :
    fromNewest name (stack.map fun e => (e.1, f e.2)) =
      (fromNewest name stack).map fun e => (e.1, f e.2) := by
  rw [fromNewest, fromNewest, List.dropWhile_map]
  rfl

end Stacks

/-! ## What holds between statements -/

namespace Server

/-- How many writes of the transaction a snapshot holds. -/
def held (base snap : S × List String) : ℕ := snap.2.length - base.2.length

/-- Outside a transaction everything has been forwarded. -/
structure Closed (s : Server (S × List String)) : Prop where
  noTx : s.engine.txSnapshot = none
  noSavepoints : s.engine.savepoints = []
  noWrites : s.pending.writes = []
  noMarks : s.pending.marks = []
  sent : s.engine.db.2 = s.forwarded

/-- Inside a transaction that began at `base`. -/
structure Open (base : S × List String) (s : Server (S × List String)) : Prop where
  began : s.engine.txSnapshot = some base
  sent : base.2 = s.forwarded
  applied : s.engine.db.2 = base.2 ++ s.pending.writes
  saved : ∀ e ∈ s.engine.savepoints,
    e.2.2 = base.2 ++ s.pending.writes.take (held base e.2)
  stack : (s.engine.savepoints.map fun e => (e.1, held base e.2)).Sublist s.pending.marks
  within : ∀ e ∈ s.pending.marks, e.2 ≤ s.pending.writes.length
  ordered : s.pending.marks.Pairwise fun newer older => older.2 ≤ newer.2

def Mirrors (s : Server (S × List String)) : Prop := s.Closed ∨ ∃ base, s.Open base

/-- COMMIT would forward the writes the transaction has made. -/
def Agrees (s : Server (S × List String)) : Prop :=
  ∀ base, s.engine.txSnapshot = some base → s.engine.db.2 = base.2 ++ s.pending.writes

/-- A ROLLBACK TO that goes through finds as its newest mark one set after as
many writes as the savepoint it returns to. -/
def Aligned (s : Server (S × List String)) : Request × Fault → Prop
  | (.rollback (some name), .none) =>
    ∀ base e older, s.engine.txSnapshot = some base →
      fromNewest name s.engine.savepoints = e :: older →
        ((fromNewest name s.pending.marks).head?.map Prod.snd) = some (held base e.2)
  | _ => True

variable {exec} {s : Server (S × List String)} {base : S × List String} {fault : Fault}
variable {name : String}

theorem Open.agrees (h : s.Open base) : s.Agrees := by
  intro base' hbase
  obtain rfl := Option.some.inj (h.began.symm.trans hbase)
  exact h.applied

theorem Mirrors.agrees (h : s.Mirrors) : s.Agrees := by
  rcases h with h | ⟨base, h⟩
  · intro base hbase
    rw [h.noTx] at hbase
    cases hbase
  · exact h.agrees

theorem Open.held_le (h : s.Open base) {e : String × S × List String}
    (he : e ∈ s.engine.savepoints) : held base e.2 ≤ s.pending.writes.length :=
  h.within (e.1, held base e.2) (h.stack.subset (List.mem_map_of_mem he))

/-! ## One statement -/

section Handle

variable {T : Type} {run : String → T → Except String (Option String × T)} {s : Server T}
variable {r : Request × Fault} {e : Engine T}

theorem handle_ok {resolved : Option String} (hroom : s.refuses r.1 = false)
    (h : s.engine.execute run r.1 r.2 = (.ok resolved, e)) :
    s.handle run r = (settle r.1 true { s with engine := e }).record r.1 resolved := by
  rw [handle, hroom, h]
  rfl

theorem handle_error {msg : String} (hroom : s.refuses r.1 = false)
    (h : s.engine.execute run r.1 r.2 = (.error msg, e)) :
    s.handle run r = settle r.1 false { s with engine := e } := by
  rw [handle, hroom, h]
  rfl

end Handle

theorem mirrors_begin (h : s.Mirrors) : (s.handle (traced exec) (.begin, fault)).Mirrors := by
  rcases h with h | ⟨base, h⟩
  · have hrun : s.engine.execute (traced exec) .begin fault =
        (.ok none, { s.engine with txSnapshot := some s.engine.db }) := by
      simp only [Engine.execute, Engine.beginTx, h.noTx]
      rfl
    rw [handle_ok rfl hrun]
    refine .inr ⟨s.engine.db, rfl, h.sent, ?_, ?_, ?_, ?_, ?_⟩
    · change s.engine.db.2 = s.engine.db.2 ++ s.pending.writes
      rw [h.noWrites, List.append_nil]
    · change ∀ e ∈ s.engine.savepoints, _
      rw [h.noSavepoints]
      exact fun e he => (List.not_mem_nil he).elim
    · change (s.engine.savepoints.map _).Sublist s.pending.marks
      rw [h.noSavepoints]
      exact List.nil_sublist _
    · change ∀ e ∈ s.pending.marks, _
      rw [h.noMarks]
      exact fun e he => (List.not_mem_nil he).elim
    · change s.pending.marks.Pairwise _
      rw [h.noMarks]
      exact List.Pairwise.nil
  · have hrun : s.engine.execute (traced exec) .begin fault =
        (.error "transaction already in progress", s.engine) := by
      simp only [Engine.execute, Engine.beginTx, h.began]
      rfl
    rw [handle_error rfl hrun]
    exact .inr ⟨base, h⟩

theorem mirrors_commit (h : s.Mirrors) : (s.handle (traced exec) (.commit, fault)).Mirrors := by
  rcases h with h | ⟨base, h⟩
  · have hrun : s.engine.execute (traced exec) .commit fault =
        (.error "no transaction in progress", s.engine) := by
      simp only [Engine.execute, Engine.commit, h.noTx]
      rfl
    rw [handle_error rfl hrun]
    simp only [settle, h.noTx]
    exact .inl ⟨h.noTx, h.noSavepoints, rfl, rfl, h.sent⟩
  · by_cases hfault : fault = .none
    · have hrun : s.engine.execute (traced exec) .commit fault =
          (.ok none, ⟨s.engine.db, none, []⟩) := by
        simp only [Engine.execute, Engine.commit, h.began, if_pos hfault]
        rfl
      rw [handle_ok rfl hrun]
      refine .inl ⟨rfl, rfl, rfl, rfl, ?_⟩
      change s.engine.db.2 = s.forwarded ++ s.pending.writes
      rw [h.applied, h.sent]
    · have hrun : s.engine.execute (traced exec) .commit fault =
          (.error "sync failed", s.engine) := by
        simp only [Engine.execute, Engine.commit, h.began, if_neg hfault]
        rfl
      rw [handle_error rfl hrun]
      simp only [settle, h.began]
      exact .inr ⟨base, h⟩

theorem mirrors_rollback (h : s.Mirrors) :
    (s.handle (traced exec) (.rollback none, fault)).Mirrors := by
  rcases h with h | ⟨base, h⟩
  · have hrun : s.engine.execute (traced exec) (.rollback none) fault =
        (.error "no transaction in progress", s.engine) := by
      simp only [Engine.execute, Engine.rollbackTx, h.noTx]
      rfl
    rw [handle_error rfl hrun]
    simp only [settle, h.noTx]
    exact .inl ⟨h.noTx, h.noSavepoints, rfl, rfl, h.sent⟩
  · cases fault with
    | none =>
      have hrun : s.engine.execute (traced exec) (.rollback none) .none =
          (.ok none, ⟨base, none, []⟩) := by
        simp only [Engine.execute, Engine.rollbackTx, h.began]
        rfl
      rw [handle_ok rfl hrun]
      exact .inl ⟨rfl, rfl, rfl, rfl, h.sent⟩
    | work =>
      have hrun : s.engine.execute (traced exec) (.rollback none) .work =
          (.error "restore failed", s.engine) := by
        simp only [Engine.execute, Engine.rollbackTx, h.began]
        rfl
      rw [handle_error rfl hrun]
      simp only [settle, h.began]
      exact .inr ⟨base, h⟩
    | sync =>
      have hrun : s.engine.execute (traced exec) (.rollback none) .sync =
          (.error "sync failed", ⟨base, none, []⟩) := by
        simp only [Engine.execute, Engine.rollbackTx, h.began]
        rfl
      rw [handle_error rfl hrun]
      exact .inl ⟨rfl, rfl, rfl, rfl, h.sent⟩

theorem held_of_applied (h : s.Open base) : held base s.engine.db = s.pending.writes.length := by
  rw [held, h.applied, List.length_append, Nat.add_sub_cancel_left]

theorem mirrors_savepoint (h : s.Mirrors) :
    (s.handle (traced exec) (.savepoint name, fault)).Mirrors := by
  by_cases hok : s.engine.txSnapshot.isNone = false ∧
      ¬Engine.maxSavepoints ≤ s.engine.savepoints.length ∧ fault = .none
  · obtain ⟨htx, hroom, rfl⟩ := hok
    rcases h with h | ⟨base, h⟩
    · rw [h.noTx] at htx
      cases htx
    have hrun : s.engine.execute (traced exec) (.savepoint name) .none =
        (.ok none, { s.engine with savepoints := (name, s.engine.db) :: s.engine.savepoints }) := by
      simp only [Engine.execute, Engine.savepoint, htx, if_neg hroom]
      rfl
    rw [handle_ok rfl hrun]
    refine .inr ⟨base, h.began, h.sent, h.applied, ?_, ?_, ?_, ?_⟩
    · intro e he
      rcases List.mem_cons.mp he with rfl | he
      · change s.engine.db.2 = base.2 ++ s.pending.writes.take (held base s.engine.db)
        rw [held_of_applied h, List.take_length]
        exact h.applied
      · exact h.saved e he
    · change List.Sublist ((name, held base s.engine.db) :: _)
        ((name, s.pending.writes.length) :: s.pending.marks)
      rw [held_of_applied h]
      exact h.stack.cons_cons _
    · intro e he
      rcases List.mem_cons.mp he with rfl | he
      · exact le_refl _
      · exact h.within e he
    · exact List.pairwise_cons.mpr ⟨h.within, h.ordered⟩
  · have hrun : ∃ msg, s.engine.execute (traced exec) (.savepoint name) fault =
        (.error msg, s.engine) := by
      simp only [Engine.execute, Engine.savepoint]
      split
      · exact ⟨_, rfl⟩
      · rename_i htx
        split
        · exact ⟨_, rfl⟩
        · rename_i hroom
          split
          · exact ⟨_, rfl⟩
          · rename_i hfault
            exact absurd ⟨Bool.eq_false_iff.mpr htx, hroom, by simpa using hfault⟩ hok
    obtain ⟨msg, hrun⟩ := hrun
    rw [handle_error rfl hrun]
    exact h

theorem mirrors_release (h : s.Mirrors) :
    (s.handle (traced exec) (.release name, fault)).Mirrors := by
  cases hstack : fromNewest name s.engine.savepoints with
  | nil =>
    have hrun : s.engine.execute (traced exec) (.release name) fault =
        (.error s!"savepoint {name} does not exist", s.engine) := by
      simp only [Engine.execute, Engine.releaseSavepoint, hstack]
      rfl
    rw [handle_error rfl hrun]
    exact h
  | cons e older =>
    have hrun : s.engine.execute (traced exec) (.release name) fault =
        (.ok none, { s.engine with savepoints := older }) := by
      simp only [Engine.execute, Engine.releaseSavepoint, hstack]
      rfl
    rw [handle_ok rfl hrun]
    have hsub := fromNewest_sublist name s.engine.savepoints
    rw [hstack] at hsub
    rcases h with h | ⟨base, h⟩
    · rw [h.noSavepoints] at hsub
      cases hsub
    -- the buffer keeps its newest mark of the name, the engine drops the savepoint
    have hstacks := fromNewest_mono name h.stack
    rw [fromNewest_map, hstack] at hstacks
    have hmarks : (s.pending.release name).marks = fromNewest name s.pending.marks := by
      unfold TxPending.release
      cases hm : fromNewest name s.pending.marks with
      | nil =>
        rw [hm] at hstacks
        cases hstacks
      | cons mark marks => rfl
    have hwrites : (s.pending.release name).writes = s.pending.writes := by
      unfold TxPending.release
      split <;> rfl
    refine .inr ⟨base, h.began, h.sent, ?_, ?_, ?_, ?_, ?_⟩
    · change s.engine.db.2 = base.2 ++ (s.pending.release name).writes
      rw [hwrites]
      exact h.applied
    · intro e' he'
      change _ = base.2 ++ (s.pending.release name).writes.take _
      rw [hwrites]
      exact h.saved e' (hsub.subset (List.mem_cons_of_mem _ he'))
    · change List.Sublist _ (s.pending.release name).marks
      rw [hmarks]
      exact (List.sublist_cons_self _ _).trans hstacks
    · change ∀ e ∈ (s.pending.release name).marks, e.2 ≤ (s.pending.release name).writes.length
      rw [hmarks, hwrites]
      exact fun e he => h.within e ((fromNewest_sublist name _).subset he)
    · change (s.pending.release name).marks.Pairwise _
      rw [hmarks]
      exact h.ordered.sublist (fromNewest_sublist name _)

/-- What ROLLBACK TO finds on the two stacks. -/
theorem Open.newest (h : s.Open base) {e : String × S × List String}
    {older : List (String × S × List String)}
    (hstack : fromNewest name s.engine.savepoints = e :: older) :
    ∃ mark marks, fromNewest name s.pending.marks = mark :: marks ∧
      (older.map fun e => (e.1, held base e.2)).Sublist marks ∧
      mark.2 ≤ s.pending.writes.length ∧ (∀ e ∈ marks, e.2 ≤ mark.2) := by
  have hstacks := fromNewest_mono name h.stack
  rw [fromNewest_map, hstack] at hstacks
  cases hm : fromNewest name s.pending.marks with
  | nil =>
    rw [hm] at hstacks
    cases hstacks
  | cons mark marks =>
    rw [hm] at hstacks
    have hsub := fromNewest_sublist name s.pending.marks
    rw [hm] at hsub
    exact ⟨mark, marks, rfl, hstacks.tail, h.within mark (hsub.subset List.mem_cons_self),
      (List.pairwise_cons.mp (h.ordered.sublist hsub)).1⟩

theorem execute_rollbackTo {e : String × S × List String}
    {older : List (String × S × List String)}
    (hstack : fromNewest name s.engine.savepoints = e :: older) :
    s.engine.execute (traced exec) (.rollback (some name)) .none =
      (.ok none, { s.engine with db := e.2, savepoints := older }) := by
  simp only [Engine.execute, Engine.rollbackToSavepoint, hstack]
  rfl

theorem mirrors_rollbackTo (h : s.Mirrors) (ha : s.Aligned (.rollback (some name), fault)) :
    (s.handle (traced exec) (.rollback (some name), fault)).Mirrors := by
  cases hstack : fromNewest name s.engine.savepoints with
  | nil =>
    have hrun : s.engine.execute (traced exec) (.rollback (some name)) fault =
        (.error s!"savepoint {name} does not exist", s.engine) := by
      simp only [Engine.execute, Engine.rollbackToSavepoint, hstack]
      rfl
    rw [handle_error rfl hrun]
    exact h
  | cons e older =>
    have hsub := fromNewest_sublist name s.engine.savepoints
    rw [hstack] at hsub
    rcases h with h | ⟨base, h⟩
    · rw [h.noSavepoints] at hsub
      cases hsub
    by_cases hfault : fault = .none
    · subst hfault
      obtain ⟨mark, marks, hmarks, hinner, hlen, hbelow⟩ := h.newest hstack
      have hheld := ha base e older h.began hstack
      rw [hmarks, List.head?_cons, Option.map_some, Option.some.injEq] at hheld
      have hpending : (s.pending.rollbackTo name).writes = s.pending.writes.take mark.2 ∧
          (s.pending.rollbackTo name).marks = marks := by
        rw [TxPending.rollbackTo, hmarks]
        exact ⟨rfl, rfl⟩
      have hlower : ∀ e' ∈ older, held base e'.2 ≤ mark.2 := fun e' he' =>
        hbelow _ (hinner.subset (List.mem_map_of_mem he'))
      rw [handle_ok rfl (execute_rollbackTo hstack)]
      refine .inr ⟨base, h.began, h.sent, ?_, ?_, ?_, ?_, ?_⟩
      · change e.2.2 = base.2 ++ (s.pending.rollbackTo name).writes
        rw [hpending.1, hheld]
        exact h.saved e (hsub.subset List.mem_cons_self)
      · intro e' he'
        change _ = base.2 ++ (s.pending.rollbackTo name).writes.take _
        rw [hpending.1, List.take_take, min_eq_left (hlower e' he')]
        exact h.saved e' (hsub.subset (List.mem_cons_of_mem _ he'))
      · change List.Sublist _ (s.pending.rollbackTo name).marks
        rw [hpending.2]
        exact hinner
      · change ∀ e ∈ (s.pending.rollbackTo name).marks, e.2 ≤
          (s.pending.rollbackTo name).writes.length
        rw [hpending.1, hpending.2, List.length_take, min_eq_left hlen]
        exact hbelow
      · change (s.pending.rollbackTo name).marks.Pairwise _
        rw [hpending.2]
        have hmsub := fromNewest_sublist name s.pending.marks
        rw [hmarks] at hmsub
        exact (h.ordered.sublist hmsub).of_cons
    · have hrun : s.engine.execute (traced exec) (.rollback (some name)) fault =
          (.error "restore failed", { s.engine with savepoints := older }) := by
        simp only [Engine.execute, Engine.rollbackToSavepoint, hstack, if_neg hfault]
        rfl
      rw [handle_error rfl hrun]
      have hcut : older.Sublist s.engine.savepoints := (List.sublist_cons_self _ _).trans hsub
      exact .inr ⟨base, h.began, h.sent, h.applied, fun e' he' => h.saved e' (hcut.subset he'),
        (hcut.map _).trans h.stack, h.within, h.ordered⟩

/-- A ROLLBACK TO that finds another place leaves other writes in the buffer than
in the transaction. -/
theorem aligned_of_agrees {r : Request × Fault} (h : s.Mirrors)
    (hafter : (s.handle (traced exec) r).Agrees) : s.Aligned r := by
  match r with
  | (.rollback (some name), .none) =>
    intro base e older hbase hstack
    rcases h with h | ⟨base', h⟩
    · rw [h.noTx] at hbase
      cases hbase
    obtain rfl := Option.some.inj (h.began.symm.trans hbase)
    obtain ⟨mark, marks, hmarks, -, hlen, -⟩ := h.newest hstack
    rw [handle_ok rfl (execute_rollbackTo hstack)] at hafter
    have hkept : (s.pending.rollbackTo name).writes = s.pending.writes.take mark.2 := by
      rw [TxPending.rollbackTo, hmarks]
    have hbuffer : e.2.2 = base'.2 ++ s.pending.writes.take mark.2 := by
      rw [← hkept]
      exact hafter base' h.began
    have hsub := fromNewest_sublist name s.engine.savepoints
    rw [hstack] at hsub
    have hmem : e ∈ s.engine.savepoints := hsub.subset List.mem_cons_self
    rw [hmarks, List.head?_cons, Option.map_some, held, hbuffer, List.length_append,
      Nat.add_sub_cancel_left, List.length_take, min_eq_left hlen]
  | (.rollback (some _), .work) => trivial
  | (.rollback (some _), .sync) => trivial
  | (.rollback none, _) => trivial
  | (.begin, _) => trivial
  | (.commit, _) => trivial
  | (.savepoint _, _) => trivial
  | (.release _, _) => trivial
  | (.write _, _) => trivial

theorem mirrors_write {sql : String} (h : s.Mirrors) :
    (s.handle (traced exec) (.write sql, fault)).Mirrors := by
  by_cases hroom : s.refuses (.write sql) = true
  · rw [handle, if_pos hroom]
    exact h
  rw [Bool.not_eq_true] at hroom
  cases hexec : exec sql s.engine.db.1 with
  | error msg =>
    have hrun : s.engine.execute (traced exec) (.write sql) fault = (.error msg, s.engine) := by
      simp only [Engine.execute, Engine.write, traced, hexec]
      rfl
    rw [handle_error hroom hrun]
    exact h
  | ok out =>
    obtain ⟨resolved, db⟩ := out
    have hrun : s.engine.execute (traced exec) (.write sql) fault =
        (.ok resolved, { s.engine with
          db := (db, s.engine.db.2 ++ [resolved.getD sql]) }) := by
      simp only [Engine.execute, Engine.write, traced, hexec]
      rfl
    rw [handle_ok hroom hrun]
    rcases h with h | ⟨base, h⟩
    · have htx : s.engine.txSnapshot.isSome = false := by rw [h.noTx]; rfl
      simp only [settle, record, htx]
      refine .inl ⟨h.noTx, h.noSavepoints, h.noWrites, h.noMarks, ?_⟩
      change s.engine.db.2 ++ _ = s.forwarded ++ _
      rw [h.sent]
    · have htx : s.engine.txSnapshot.isSome = true := by rw [h.began]; rfl
      simp only [settle, record, htx]
      refine .inr ⟨base, h.began, h.sent, ?_, ?_, h.stack, ?_, h.ordered⟩
      · change s.engine.db.2 ++ _ = base.2 ++ (s.pending.writes ++ _)
        rw [h.applied, List.append_assoc]
      · intro e he
        change e.2.2 = base.2 ++ (s.pending.writes ++ _).take _
        rw [List.take_append_of_le_length (h.held_le he)]
        exact h.saved e he
      · intro e he
        change e.2 ≤ (s.pending.writes ++ _).length
        rw [List.length_append]
        exact (h.within e he).trans (Nat.le_add_right _ _)

/-- Every statement keeps the buffer and the transaction together, a ROLLBACK TO
if the stacks are aligned. -/
theorem handle_mirrors {r : Request × Fault} (h : s.Mirrors) (ha : s.Aligned r) :
    (s.handle (traced exec) r).Mirrors := by
  obtain ⟨req, fault⟩ := r
  match req with
  | .begin => exact mirrors_begin h
  | .commit => exact mirrors_commit h
  | .rollback none => exact mirrors_rollback h
  | .rollback (some name) => exact mirrors_rollbackTo h ha
  | .savepoint name => exact mirrors_savepoint h
  | .release name => exact mirrors_release h
  | .write sql => exact mirrors_write h

/-! ## Whole connections -/

/-- COMMIT hands over the writes of the transaction that its committed state
holds, in the order they were made. -/
def CommitsBuffer (exec : String → S → Except String (Option String × S))
    (s : Server (S × List String)) : Prop :=
  ∀ base, s.engine.txSnapshot = some base →
    (s.handle (traced exec) (.commit, .none)).engine.db.2 = base.2 ++ s.pending.takeWrites.1 ∧
    (s.handle (traced exec) (.commit, .none)).forwarded = s.forwarded ++ s.pending.takeWrites.1

theorem commitsBuffer_iff : s.CommitsBuffer exec ↔ s.Agrees := by
  refine forall_congr' fun base => imp_congr_right fun hbase => ?_
  have hrun : s.engine.execute (traced exec) .commit .none =
      (.ok none, ⟨s.engine.db, none, []⟩) := by
    simp only [Engine.execute, Engine.commit, hbase]
    rfl
  rw [handle_ok rfl hrun]
  exact ⟨fun h => h.1, fun h => ⟨h, rfl⟩⟩

theorem run_append (exec : String → S → Except String (Option String × S)) (db : S)
    (requests : List (Request × Fault)) (r : Request × Fault) :
    run exec db (requests ++ [r]) = (run exec db requests).handle exec r := by
  simp [run]

theorem mirrors_start (db : S) : (run (traced exec) (db, []) []).Mirrors :=
  .inl ⟨rfl, rfl, rfl, rfl, rfl⟩

/-- The buffer mirrors the transaction at every point of a connection exactly when
every ROLLBACK TO of it finds the stacks aligned. -/
theorem buffer_mirrors_transaction (exec : String → S → Except String (Option String × S))
    (db : S) (requests : List (Request × Fault)) :
    (∀ done, done <+: requests → (run (traced exec) (db, []) done).CommitsBuffer exec) ↔
      ∀ done r, done ++ [r] <+: requests → (run (traced exec) (db, []) done).Aligned r := by
  have hshorter : ∀ {done r}, done ++ [r] <+: requests → done <+: requests := fun h =>
    (List.prefix_append _ _).trans h
  constructor
  · intro hcommits done r hdone
    have hmirrors : ∀ done, done <+: requests → (run (traced exec) (db, []) done).Mirrors := by
      intro done
      induction done using List.reverseRecOn with
      | nil => exact fun _ => mirrors_start db
      | append_singleton done r ih =>
        intro hdone
        have hbefore := ih (hshorter hdone)
        have hafter := commitsBuffer_iff.mp (hcommits _ hdone)
        rw [run_append] at hafter ⊢
        exact handle_mirrors hbefore (aligned_of_agrees hbefore hafter)
    have hafter := commitsBuffer_iff.mp (hcommits _ hdone)
    rw [run_append] at hafter
    exact aligned_of_agrees (hmirrors done (hshorter hdone)) hafter
  · intro haligned done hdone
    refine commitsBuffer_iff.mpr (Mirrors.agrees ?_)
    induction done using List.reverseRecOn with
    | nil => exact mirrors_start db
    | append_singleton done r ih =>
      rw [run_append]
      exact handle_mirrors (ih (hshorter hdone)) (haligned done r hdone)

/-- A savepoint set after a write and released again stays in the buffer: the
rollback to the older one of its name takes the write from the transaction only. -/
theorem released_mark_hides_savepoint :
    ¬∀ requests, (run (traced fun sql (s : List String) => .ok (none, s ++ [sql])) ([], [])
      requests).CommitsBuffer fun sql s => .ok (none, s ++ [sql]) := by
  intro hclaim
  have hcommit := hclaim [(.begin, .none), (.savepoint "a", .none),
    (.write "INSERT INTO t VALUES (1)", .none), (.savepoint "a", .none), (.release "a", .none),
    (.rollback (some "a"), .none)] ([], []) rfl
  exact absurd hcommit.1 (by decide)

/-! ## The trace is an addition -/

section Untrace

variable {T : Type} (f : S → T)

def mapEngine (e : Engine S) : Engine T :=
  ⟨f e.db, e.txSnapshot.map f, e.savepoints.map fun x => (x.1, f x.2)⟩

def mapDb (s : Server S) : Server T := { s with engine := mapEngine f s.engine }

theorem settle_mapDb (req : Request) (ok : Bool) (s : Server S) :
    (s.mapDb f).settle req ok = (s.settle req ok).mapDb f := by
  have htx : (s.mapDb f).engine.txSnapshot.isSome = s.engine.txSnapshot.isSome :=
    Option.isSome_map
  match req with
  | .commit =>
    simp only [settle, htx]
    split_ifs <;> rfl
  | .rollback none =>
    simp only [settle, htx]
    split_ifs <;> rfl
  | .rollback (some _) => rfl
  | .begin => rfl
  | .savepoint _ => rfl
  | .release _ => rfl
  | .write _ => rfl

theorem record_mapDb (req : Request) (resolved : Option String) (s : Server S) :
    (s.mapDb f).record req resolved = (s.record req resolved).mapDb f := by
  have htx : (s.mapDb f).engine.txSnapshot.isSome = s.engine.txSnapshot.isSome :=
    Option.isSome_map
  match req with
  | .write _ =>
    simp only [record, htx]
    split_ifs <;> rfl
  | .commit => rfl
  | .rollback none => rfl
  | .rollback (some _) => rfl
  | .begin => rfl
  | .savepoint _ => rfl
  | .release _ => rfl

end Untrace

theorem execute_untrace (exec : String → S → Except String (Option String × S)) (req : Request) (fault : Fault) (e : Engine (S × List String)) :
    (mapEngine Prod.fst e).execute exec req fault =
      ((e.execute (traced exec) req fault).1,
        mapEngine Prod.fst (e.execute (traced exec) req fault).2) := by
  obtain ⟨db, tx, savepoints⟩ := e
  match req with
  | .begin => cases tx <;> rfl
  | .commit =>
    cases tx with
    | none => rfl
    | some snap => cases fault <;> rfl
  | .rollback none =>
    cases tx with
    | none => rfl
    | some snap => cases fault <;> rfl
  | .rollback (some name) =>
    simp only [Engine.execute, Engine.rollbackToSavepoint, mapEngine, fromNewest_map]
    cases fromNewest name savepoints with
    | nil => rfl
    | cons x older => cases fault <;> rfl
  | .savepoint name =>
    simp only [Engine.execute, Engine.savepoint, mapEngine, List.length_map, Option.isNone_map]
    split_ifs <;> rfl
  | .release name =>
    simp only [Engine.execute, Engine.releaseSavepoint, mapEngine, fromNewest_map]
    cases fromNewest name savepoints <;> rfl
  | .write sql =>
    simp only [Engine.execute, Engine.write, traced, mapEngine]
    cases exec sql db.1 <;> rfl

theorem handle_untrace (s : Server (S × List String)) (r : Request × Fault) :
    (s.mapDb Prod.fst).handle exec r = (s.handle (traced exec) r).mapDb Prod.fst := by
  obtain ⟨req, fault⟩ := r
  have hroom : (s.mapDb Prod.fst).refuses req = s.refuses req := by cases req <;> rfl
  by_cases hrefuses : s.refuses req = true
  · rw [handle, handle, if_pos (hroom.trans hrefuses), if_pos hrefuses]
  rw [Bool.not_eq_true] at hrefuses
  have hrun := execute_untrace exec req fault s.engine
  rcases hout : s.engine.execute (traced exec) req fault with ⟨msg | resolved, e⟩
  · rw [hout] at hrun
    rw [handle_error (hroom.trans hrefuses) hrun, handle_error hrefuses hout, ← settle_mapDb]
    rfl
  · rw [hout] at hrun
    rw [handle_ok (hroom.trans hrefuses) hrun, handle_ok hrefuses hout, ← record_mapDb,
      ← settle_mapDb]
    rfl

/-- Without the trace it is the run of the engine itself. -/
theorem run_untrace (exec : String → S → Except String (Option String × S)) (db : S)
    (requests : List (Request × Fault)) :
    (run (traced exec) (db, []) requests).mapDb Prod.fst = run exec db requests := by
  induction requests using List.reverseRecOn with
  | nil => rfl
  | append_singleton requests r ih => rw [run_append, run_append, ← handle_untrace, ih]

end Server

end Docsql.Cluster
