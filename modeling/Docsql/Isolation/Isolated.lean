import Docsql.Isolation.Sections
import Docsql.Lib.Run

/-!
# Connections and the transaction of another one

Whoever changes the engine's transaction or its owner holds `write_order`, so the
checks made under it are still true when the statement runs.  A view of the read
tier is taken without it, and after the check.
-/

namespace Docsql.Isolation

variable {C D R Q W : Type} [DecidableEq C]

/-- The server as the ideal engine would answer. -/
structure Isolated (E : Engine D R Q W) (tables : D) (σ : Server C D R Q W) : Prop where
  /-- Each reply is the ideal one, so only its owner sees an open transaction. -/
  replies : ∀ before e, before ++ [e] <+: σ.history → (replay E tables before).Allows E e
  /-- The tables, and what a rollback restores, hold the writes of everybody else. -/
  kept : σ.db = (replay E tables σ.history).database
  owned : (∀ c, σ.phase c = .idle ∨ σ.phase c = .closed) →
    (σ.db.inTransaction = true ↔ ∃ c, σ.txOwner = some c ∧ σ.phase c ≠ .closed)

/-- A view of the read tier is taken while no transaction is open. -/
def ViewsCommitted (σ : Server C D R Q W) : Step C D Q W → Prop
  | .advance c _ => ∀ q, σ.phase c = .eligible q → σ.db.inTransaction = false
  | _ => True

/-- What is true of the holder of `write_order` in each of its phases. -/
def Held (i : Ideal C D) (txOwner : Option C) (c : C) : Phase Q W → Prop
  | .sampled _ inTx => txOwner = i.owner ∧ inTx = i.owner.isSome
  | .cleared s => txOwner = i.owner ∧ (i.owner = none ∨ i.owner = s.conn c)
  | .executed .begin ok _ =>
    if ok then txOwner = none ∧ i.owner = some c else txOwner = i.owner
  | .executed .commit _ inTx | .executed .rollback _ inTx =>
    if inTx then txOwner = i.owner else i.owner = none
  | .closingOwned => txOwner = i.owner ∧ i.owner = some c
  | .closingReleased => txOwner = none ∧ i.owner = some c
  | .closingDone => txOwner = i.owner ∧ i.owner ≠ some c
  | _ => txOwner = i.owner

structure Inv (E : Engine D R Q W) (tables : D) (σ : Server C D R Q W) : Prop where
  replies : ∀ before e, before ++ [e] <+: σ.history → (replay E tables before).Allows E e
  kept : σ.db = (replay E tables σ.history).database
  order : ∀ c, (σ.phase c).ordered = true ↔ σ.writeOrder = some c
  free : σ.writeOrder = none → σ.txOwner = (replay E tables σ.history).owner
  held : ∀ c, σ.writeOrder = some c →
    Held (replay E tables σ.history) σ.txOwner c (σ.phase c)
  live : ∀ c, σ.phase c = .closed → (replay E tables σ.history).owner ≠ some c

variable {E : Engine D R Q W} {tables : D} {σ : Server C D R Q W} {c : C} {p : Phase Q W}

theorem inv_init : Inv E tables (.init tables : Server C D R Q W) where
  replies before e h := absurd (List.prefix_nil.1 h) (by simp)
  kept := rfl
  order c := by simp [Server.init, Phase.ordered]
  free _ := rfl
  held c h := by cases h
  live c h := by cases h

namespace Inv

theorem inTransaction (hinv : Inv E tables σ) :
    σ.db.inTransaction = (replay E tables σ.history).owner.isSome := by
  rw [hinv.kept, Ideal.inTransaction_database]

theorem tables_eq (hinv : Inv E tables σ) :
    σ.db.tables = (replay E tables σ.history).tables := by
  rw [hinv.kept]
  rfl

/-- A phase without `write_order` is left for another one. -/
theorem enter (hinv : Inv E tables σ) (hfrom : (σ.phase c).ordered = false)
    (hto : p.ordered = false) (hclosed : p ≠ .closed) : Inv E tables (σ.enter c p) where
  replies := hinv.replies
  kept := hinv.kept
  order c' := by
    rcases eq_or_ne c' c with rfl | hne
    · simp [Server.enter, hto, ← hinv.order, hfrom]
    · simp [Server.enter, hne, hinv.order]
  free := hinv.free
  held c' h := by
    have hne : c' ≠ c := by
      rintro rfl
      rw [(hinv.order c').2 h] at hfrom
      cases hfrom
    simpa [Server.enter, hne] using hinv.held c' h
  live c' h := by
    rcases eq_or_ne c' c with rfl | hne
    · exact absurd (by simpa [Server.enter] using h) hclosed
    · exact hinv.live c' (by simpa [Server.enter, hne] using h)

/-- `write_order` is taken. -/
theorem take (hinv : Inv E tables σ) (hfree : σ.writeOrder = none) (hto : p.ordered = true)
    (hheld : σ.txOwner = (replay E tables σ.history).owner →
      Held (replay E tables σ.history) σ.txOwner c p) :
    Inv E tables ({ σ with writeOrder := some c }.enter c p) where
  replies := hinv.replies
  kept := hinv.kept
  order c' := by
    rcases eq_or_ne c' c with rfl | hne
    · simp [Server.enter, hto]
    · simp [Server.enter, hne, hinv.order, hfree, hne.symm]
  free h := by cases h
  held c' h := by
    obtain rfl : c = c' := Option.some.inj h
    simpa [Server.enter] using hheld (hinv.free hfree)
  live c' h := by
    rcases eq_or_ne c' c with rfl | hne
    · rw [show p = .closed by simpa [Server.enter] using h] at hto
      cases hto
    · exact hinv.live c' (by simpa [Server.enter, hne] using h)

/-- A section under `write_order` that leaves the engine alone. -/
theorem keep (hinv : Inv E tables σ) (hfrom : (σ.phase c).ordered = true)
    (hto : p.ordered = true) {txOwner : Option C}
    (hheld : Held (replay E tables σ.history) txOwner c p) :
    Inv E tables ({ σ with txOwner := txOwner }.enter c p) where
  replies := hinv.replies
  kept := hinv.kept
  order c' := by
    rcases eq_or_ne c' c with rfl | hne
    · simp [Server.enter, hto, ← hinv.order, hfrom]
    · simp [Server.enter, hne, hinv.order]
  free h := by
    have hheld := (hinv.order c).1 hfrom
    rw [show σ.writeOrder = none from h] at hheld
    cases hheld
  held c' h := by
    obtain rfl : c = c' := Option.some.inj (((hinv.order c).1 hfrom).symm.trans h)
    simpa [Server.enter] using hheld
  live c' h := by
    rcases eq_or_ne c' c with rfl | hne
    · rw [show p = .closed by simpa [Server.enter] using h] at hto
      cases hto
    · exact hinv.live c' (by simpa [Server.enter, hne] using h)

theorem replies_snoc (hinv : Inv E tables σ) {e : Event C D R Q W}
    (hallows : (replay E tables σ.history).Allows E e) :
    ∀ before e', before ++ [e'] <+: σ.history ++ [e] →
      (replay E tables before).Allows E e' := by
  intro before e' h
  rcases List.prefix_concat_iff.1 h with heq | h
  · obtain ⟨hbefore, he⟩ := List.append_inj' heq rfl
    cases he
    rwa [hbefore]
  · exact hinv.replies before e' h

/-- A section under `write_order` that changes the engine. -/
theorem change (hinv : Inv E tables σ) (hfrom : (σ.phase c).ordered = true)
    (hto : p.ordered = true) {db : Database D} {e : Event C D R Q W}
    (hallows : (replay E tables σ.history).Allows E e)
    (hdb : db = ((replay E tables σ.history).apply E e).database)
    (howner : ∀ c', ((replay E tables σ.history).apply E e).owner = some c' →
      c' = c ∨ (replay E tables σ.history).owner = some c')
    (hheld : Held ((replay E tables σ.history).apply E e) σ.txOwner c p) :
    Inv E tables (({ σ with db := db }.log e).enter c p) where
  replies := hinv.replies_snoc hallows
  kept := by
    rw [hdb, ← replay_snoc]
    rfl
  order c' := by
    rcases eq_or_ne c' c with rfl | hne
    · simp [Server.enter, Server.log, hto, ← hinv.order, hfrom]
    · simp [Server.enter, Server.log, hne, hinv.order]
  free h := by
    have hheld := (hinv.order c).1 hfrom
    rw [show σ.writeOrder = none from h] at hheld
    cases hheld
  held c' h := by
    obtain rfl : c = c' := Option.some.inj (((hinv.order c).1 hfrom).symm.trans h)
    simpa [Server.enter, Server.log, replay_snoc] using hheld
  live c' h := by
    rcases eq_or_ne c' c with rfl | hne
    · rw [show p = .closed by simpa [Server.enter, Server.log] using h] at hto
      cases hto
    · intro hown
      simp only [Server.enter, Server.log, replay_snoc] at hown
      have hbefore := (howner c' hown).resolve_left hne
      exact hinv.live c' (by simpa [Server.enter, Server.log, hne] using h) hbefore

/-- `write_order` is released. -/
theorem release (hinv : Inv E tables σ) (hfrom : (σ.phase c).ordered = true)
    (howner : σ.txOwner = (replay E tables σ.history).owner) (hto : p.ordered = false)
    (hclosed : p = .closed → (replay E tables σ.history).owner ≠ some c) :
    Inv E tables ({ σ with writeOrder := none }.enter c p) where
  replies := hinv.replies
  kept := hinv.kept
  order c' := by
    have hheld := (hinv.order c).1 hfrom
    rcases eq_or_ne c' c with rfl | hne
    · simp [Server.enter, hto]
    · simp [Server.enter, hne, hinv.order, hheld, hne.symm]
  free _ := howner
  held c' h := by cases h
  live c' h := by
    rcases eq_or_ne c' c with rfl | hne
    · exact hclosed (by simpa [Server.enter] using h)
    · exact hinv.live c' (by simpa [Server.enter, hne] using h)

/-- A read answers and changes nothing. -/
theorem answer (hinv : Inv E tables σ) (hfrom : (σ.phase c).ordered = false) {q : Q}
    (hsees : (replay E tables σ.history).seenBy (some c) = σ.db.tables) :
    Inv E tables ((σ.log (.read c q (E.query q σ.db.tables))).enter c .idle) := by
  have hsame : replay E tables (σ.history ++ [.read c q (E.query q σ.db.tables)]) =
      replay E tables σ.history := replay_snoc ..
  have hentered : Inv E tables (σ.enter c .idle) := hinv.enter hfrom rfl (by rintro ⟨⟩)
  refine ⟨hinv.replies_snoc ?_, ?_, hentered.order, ?_, ?_, ?_⟩
  · show _ = _
    rw [hsees]
  · exact hinv.kept.trans (congrArg Ideal.database hsame.symm)
  · exact fun h => (hentered.free h).trans (congrArg Ideal.owner hsame.symm)
  · intro c' h
    have hheld : Held (replay E tables σ.history) _ c' _ := hentered.held c' h
    rwa [← hsame] at hheld
  · intro c' h
    have hlive : (replay E tables σ.history).owner ≠ some c' := hentered.live c' h
    rwa [← hsame] at hlive

theorem at_phase (hinv : Inv E tables σ) (hphase : σ.phase c = p) (hp : p.ordered = true) :
    Held (replay E tables σ.history) σ.txOwner c p := by
  rw [← hphase] at hp ⊢
  exact hinv.held c ((hinv.order c).1 hp)

/-- The recorded owner of an open transaction is its owner. -/
theorem owner_of_open (hinv : Inv E tables σ) (hopen : σ.db.inTransaction = true)
    (howner : σ.txOwner = some c) : (replay E tables σ.history).owner = some c := by
  rw [hinv.inTransaction] at hopen
  cases horder : σ.writeOrder with
  | none => rw [← hinv.free horder, howner]
  | some holder =>
    have hheld := hinv.held holder horder
    have hordered := (hinv.order holder).2 horder
    generalize σ.phase holder = p at hheld hordered
    have hclosed {i : Ideal C D} (h : i.owner = none) (h' : i.owner.isSome = true) : False := by
      rw [h] at h'
      cases h'
    cases p with
    | sampled | cleared | closingOwned | closingDone => rw [← hheld.1, howner]
    | executed s ok inTx =>
      cases s with
      | begin =>
        cases ok with
        | true => cases hheld.1.symm.trans howner
        | false => exact hheld.symm.trans howner
      | commit | rollback =>
        cases inTx with
        | true => exact hheld.symm.trans howner
        | false => exact (hclosed hheld hopen).elim
      | _ => exact hheld.symm.trans howner
    | closingReleased => cases hheld.1.symm.trans howner
    | _ => exact hheld.symm.trans howner

/-! ## The sections -/

theorem classify (hinv : Inv E tables σ) {s : Stmt Q W} (hphase : σ.phase c = .received s)
    (o : Outside D) : Inv E tables (σ.classifyReadEligible c o s) := by
  have hfrom : (σ.phase c).ordered = false := by rw [hphase]; rfl
  have hmove (p : Phase Q W) (hp : p.ordered = false) (hclosed : p ≠ .closed) :
      Inv E tables (σ.enter c p) := hinv.enter hfrom hp hclosed
  cases s with
  | read q =>
    rw [Server.classifyReadEligible]
    split_ifs
    · exact hmove _ rfl (by rintro ⟨⟩)
    · exact hmove _ rfl (by rintro ⟨⟩)
    · exact hmove _ rfl (by rintro ⟨⟩)
  | _ => exact hmove _ rfl (by rintro ⟨⟩)

/-- Without an open transaction everybody sees the tables. -/
theorem seenBy_of_closed (hinv : Inv E tables σ) (hclosed : σ.db.inTransaction = false)
    (conn : Option C) : (replay E tables σ.history).seenBy conn = σ.db.tables := by
  rw [hinv.inTransaction, Option.isSome_eq_false_iff, Option.isNone_iff_eq_none] at hclosed
  rw [hinv.tables_eq, Ideal.seenBy_of_owner (.inl hclosed)]

theorem view (hinv : Inv E tables σ) {q : Q} (hphase : σ.phase c = .eligible q)
    (hclosed : σ.db.inTransaction = false) : Inv E tables (σ.executeReadSql E c q) :=
  hinv.answer (by rw [hphase]; rfl) (hinv.seenBy_of_closed hclosed _)

theorem foreignControl (hinv : Inv E tables σ) {s : Stmt Q W}
    (hphase : σ.phase c = .arrived s) : Inv E tables (σ.foreignControl c s) := by
  have hfrom : (σ.phase c).ordered = false := by rw [hphase]; rfl
  rw [Server.foreignControl]
  split_ifs
  · exact hinv.enter hfrom rfl (by rintro ⟨⟩)
  · exact hinv.enter hfrom rfl (by rintro ⟨⟩)

theorem queue (hinv : Inv E tables σ) {s : Stmt Q W} (hphase : σ.phase c = .looping s) :
    Inv E tables (σ.queue c s) := by
  have hfrom : (σ.phase c).ordered = false := by rw [hphase]; rfl
  rw [Server.queue]
  split
  · rename_i hs
    split
    · rename_i hfree
      exact hinv.take hfree hs id
    · exact hinv
  · rename_i hs
    split
    · exact hinv.enter hfrom (eq_false_of_ne_true hs) (by rintro ⟨⟩)
    · exact hinv.enter hfrom (eq_false_of_ne_true hs) (by rintro ⟨⟩)

/-- A phase of a read is left without `write_order`, one of another statement with it. -/
theorem move (hinv : Inv E tables σ) (hsame : p.ordered = (σ.phase c).ordered)
    (hclosed : p ≠ .closed)
    (hheld : (σ.phase c).ordered = true → Held (replay E tables σ.history) σ.txOwner c p) :
    Inv E tables (σ.enter c p) := by
  cases hfrom : (σ.phase c).ordered with
  | true => exact hinv.keep hfrom (hsame.trans hfrom) (hheld hfrom)
  | false => exact hinv.enter hfrom (hsame.trans hfrom) hclosed

theorem sample (hinv : Inv E tables σ) {s : Stmt Q W} (hphase : σ.phase c = .polling s) :
    Inv E tables (σ.enter c (.sampled s σ.db.inTransaction)) := by
  refine hinv.move (by rw [hphase]; rfl) (by rintro ⟨⟩) fun hs => ?_
  rw [hphase] at hs
  exact ⟨hinv.at_phase hphase hs, hinv.inTransaction⟩

omit [DecidableEq C] in
theorem isSome_eq_false {i : Ideal C D} (h : i.owner.isSome = false) : i.owner = none :=
  Option.isNone_iff_eq_none.1 (Option.isSome_eq_false_iff.1 h)

theorem may_run {i : Ideal C D} {s : Stmt Q W} (howner : σ.txOwner = i.owner)
    (hbusy : σ.busy c i.owner.isSome s = false) : i.owner = none ∨ i.owner = s.conn c := by
  cases s with
  | replicated w => exact .inl (isSome_eq_false hbusy)
  | _ =>
    rcases Bool.and_eq_false_iff.1 hbusy with h | h
    · exact .inl (isSome_eq_false h)
    · exact .inr (howner.symm.trans (of_not_not (of_decide_eq_false h)))

theorem compare (hinv : Inv E tables σ) (o : Outside D) {s : Stmt Q W} {inTx : Bool}
    (hphase : σ.phase c = .sampled s inTx) : Inv E tables (σ.compare c o s inTx) := by
  have hordered : (σ.phase c).ordered = s.ordered := by rw [hphase]; rfl
  rw [Server.compare]
  split
  · split
    · rename_i hs
      have hfrom : (σ.phase c).ordered = true := hordered.trans hs
      exact hinv.keep hfrom rfl (hinv.at_phase hphase hs).1
    · rename_i hs
      have hfrom : (σ.phase c).ordered = false := hordered.trans (eq_false_of_ne_true hs)
      exact hinv.enter hfrom rfl (by rintro ⟨⟩)
  · rename_i hbusy
    refine hinv.move hordered.symm (by rintro ⟨⟩) fun hs => ?_
    obtain ⟨howner, rfl⟩ := hinv.at_phase hphase (hordered.symm.trans hs)
    exact ⟨howner, may_run howner (eq_false_of_ne_true hbusy)⟩

theorem executeRead (hinv : Inv E tables σ) (o : Outside D) {q : Q}
    (hphase : σ.phase c = .cleared (.read q)) : Inv E tables (σ.execute E c o (.read q)) := by
  have hfrom : (σ.phase c).ordered = false := by rw [hphase]; rfl
  rw [Server.execute]
  split
  · exact hinv.enter hfrom rfl (by rintro ⟨⟩)
  · rename_i hbusy
    refine hinv.answer hfrom ?_
    rcases Bool.and_eq_false_iff.1 (eq_false_of_ne_true hbusy) with h | h
    · exact hinv.seenBy_of_closed h _
    · cases hopen : σ.db.inTransaction with
      | false => exact hinv.seenBy_of_closed hopen _
      | true =>
        have howner := hinv.owner_of_open hopen (of_not_not (of_decide_eq_false h))
        rw [hinv.tables_eq, Ideal.seenBy_of_owner (.inr howner)]

/-- A write of `conn`, by its owner or outside a transaction. -/
theorem executeWrite (hinv : Inv E tables σ) {s : Stmt Q W} {w : W}
    (hphase : σ.phase c = .cleared s) (hs : s.ordered = true)
    (hafter : ∀ i : Ideal C D, σ.txOwner = i.owner →
      Held i σ.txOwner c (.executed s true σ.db.inTransaction)) :
    Inv E tables (({ σ with db := { σ.db with tables := (E.write w σ.db.tables).1 } }.log
      (.wrote (s.conn c) w (E.write w σ.db.tables).2)).enter c
        (.executed s true σ.db.inTransaction)) := by
  have hfrom : (σ.phase c).ordered = true := by rw [hphase]; exact hs
  obtain ⟨howner, hmay⟩ := hinv.at_phase hphase hs
  obtain ⟨hsame, hdb⟩ := Ideal.write_of_owner (fun d => (E.write w d).1) hmay
  refine hinv.change hfrom rfl ?_ ?_ ?_ ?_
  · show _ = _
    rw [Ideal.seenBy_of_owner hmay, hinv.tables_eq]
  · show _ = Ideal.database (Ideal.write _ _ _)
    rw [hdb, ← hinv.kept]
  · intro c' h
    exact .inr (hsame.symm.trans h)
  · exact hafter _ (howner.trans hsame.symm)

/-- The snapshot of an open transaction is what is committed. -/
theorem open_iff (hinv : Inv E tables σ) {d : D} (h : σ.db.txSnapshot = some d) :
    (replay E tables σ.history).owner.isSome = true ∧
      d = (replay E tables σ.history).committed := by
  have hkept := congrArg Database.txSnapshot hinv.kept
  rw [h] at hkept
  obtain ⟨p, hp, rfl⟩ := Option.map_eq_some_iff.1 hkept.symm
  exact ⟨by rw [Ideal.owner, hp]; rfl, rfl⟩

theorem executeBegin (hinv : Inv E tables σ) (o : Outside D)
    (hphase : σ.phase c = .cleared .begin) : Inv E tables (σ.execute E c o .begin) := by
  have hfrom : (σ.phase c).ordered = true := by rw [hphase]; rfl
  obtain ⟨howner, -⟩ := hinv.at_phase hphase rfl
  rw [Server.execute]
  split
  · exact hinv.keep hfrom rfl howner
  · rename_i hclosed
    have hnone : (replay E tables σ.history).owner = none :=
      isSome_eq_false (hinv.inTransaction.symm.trans (eq_false_of_ne_true hclosed))
    have htables : σ.db.tables = (replay E tables σ.history).committed := by
      rw [hinv.tables_eq, Ideal.tables, Ideal.owner_eq_none.1 hnone]
      rfl
    refine hinv.change hfrom rfl hnone ?_ ?_ ⟨howner.trans hnone, rfl⟩
    · rw [htables]
      rfl
    · rintro c' ⟨⟩
      exact .inl rfl

omit [DecidableEq C] in
theorem owner_of_may {i : Ideal C D} (hopen : i.owner.isSome = true)
    (hmay : i.owner = none ∨ i.owner = some c) : i.owner = some c := by
  refine hmay.resolve_left fun h => ?_
  rw [h] at hopen
  cases hopen

theorem executeCommit (hinv : Inv E tables σ) (o : Outside D)
    (hphase : σ.phase c = .cleared .commit) : Inv E tables (σ.execute E c o .commit) := by
  have hfrom : (σ.phase c).ordered = true := by rw [hphase]; rfl
  obtain ⟨howner, hmay⟩ := hinv.at_phase hphase rfl
  rw [Server.execute]
  split
  · rename_i hopen
    rw [hinv.inTransaction] at hopen
    split
    · refine hinv.change hfrom rfl (owner_of_may hopen hmay) ?_ ?_ rfl
      · rw [hinv.tables_eq]
        rfl
      · rintro c' ⟨⟩
    · exact hinv.keep hfrom rfl howner
  · rename_i hclosed
    exact hinv.keep hfrom rfl
      (isSome_eq_false (hinv.inTransaction.symm.trans (eq_false_of_ne_true hclosed)))

theorem executeRollback (hinv : Inv E tables σ) (o : Outside D)
    (hphase : σ.phase c = .cleared .rollback) : Inv E tables (σ.execute E c o .rollback) := by
  have hfrom : (σ.phase c).ordered = true := by rw [hphase]; rfl
  obtain ⟨howner, hmay⟩ := hinv.at_phase hphase rfl
  rw [Server.execute]
  split
  · rename_i hnone
    have hclosed : σ.db.inTransaction = false := by rw [Database.inTransaction, hnone]; rfl
    exact hinv.keep hfrom rfl (isSome_eq_false (hinv.inTransaction.symm.trans hclosed))
  · rename_i d hd _
    obtain ⟨hopen, rfl⟩ := hinv.open_iff hd
    refine hinv.change hfrom rfl (owner_of_may hopen hmay) rfl ?_ rfl
    rintro c' ⟨⟩
  · rename_i d torn hd _
    obtain ⟨hopen, rfl⟩ := hinv.open_iff hd
    have hown := owner_of_may hopen hmay
    refine hinv.change hfrom rfl hown rfl ?_ (howner.trans hown)
    rintro c' ⟨⟩
    exact .inl rfl

theorem execute (hinv : Inv E tables σ) (o : Outside D) {s : Stmt Q W}
    (hphase : σ.phase c = .cleared s) : Inv E tables (σ.execute E c o s) := by
  cases s with
  | read q => exact hinv.executeRead o hphase
  | write w => exact hinv.executeWrite hphase rfl fun _ h => h
  | replicated w => exact hinv.executeWrite hphase rfl fun _ h => h
  | begin => exact hinv.executeBegin o hphase
  | commit => exact hinv.executeCommit o hphase
  | rollback => exact hinv.executeRollback o hphase

/-- The owner is cleared when the transaction is over, and recorded when it begins. -/
theorem bookkeep (hinv : Inv E tables σ) (o : Outside D) {s : Stmt Q W} {ok inTx : Bool}
    (hphase : σ.phase c = .executed s ok inTx) : Inv E tables (σ.bookkeep c o s ok inTx) := by
  have hfrom : (σ.phase c).ordered = true := by rw [hphase]; rfl
  have hheld := hinv.at_phase hphase rfl
  have hended (inTx : Bool) (h : if inTx = true then
      σ.txOwner = (replay E tables σ.history).owner else (replay E tables σ.history).owner = none) :
      Inv E tables (if inTx = true then σ.enter c (.finishing none)
        else { σ with txOwner := none }.enter c (.finishing none)) := by
    split at h
    · rename_i hopen
      rw [if_pos hopen]
      exact hinv.keep hfrom rfl h
    · rename_i hclosed
      rw [if_neg hclosed]
      exact hinv.keep hfrom rfl h.symm
  cases s with
  | begin =>
    cases ok with
    | true => exact hinv.keep hfrom rfl hheld.2.symm
    | false =>
      show Inv E tables (if _ then _ else _)
      split
      · exact hinv.keep hfrom rfl hheld
      · exact hinv.keep hfrom rfl hheld
  | commit => exact hended inTx hheld
  | rollback => exact hended inTx hheld
  | _ => exact hinv.keep hfrom rfl hheld

theorem finish (hinv : Inv E tables σ) {next : Option (Stmt Q W)}
    (hphase : σ.phase c = .finishing next) : Inv E tables (σ.finish c next) := by
  have hfrom : (σ.phase c).ordered = true := by rw [hphase]; rfl
  cases next with
  | none => exact hinv.release hfrom (hinv.at_phase hphase rfl) rfl (by rintro ⟨⟩)
  | some s => exact hinv.release hfrom (hinv.at_phase hphase rfl) rfl (by rintro ⟨⟩)

theorem closeOrder (hinv : Inv E tables σ) : Inv E tables (σ.closeOrder c) := by
  rw [Server.closeOrder]
  split
  · rename_i hfree
    exact hinv.take hfree rfl id
  · exact hinv

theorem closeCheck (hinv : Inv E tables σ) (hphase : σ.phase c = .closingOrdered) :
    Inv E tables (σ.closeCheck c) := by
  have hfrom : (σ.phase c).ordered = true := by rw [hphase]; rfl
  have howner : σ.txOwner = (replay E tables σ.history).owner := hinv.at_phase hphase rfl
  rw [Server.closeCheck]
  split
  · rename_i hown
    exact hinv.keep hfrom rfl ⟨howner, howner.symm.trans hown⟩
  · rename_i hother
    exact hinv.keep hfrom rfl ⟨howner, fun h => hother (howner.trans h)⟩

theorem closeRelease (hinv : Inv E tables σ) (hphase : σ.phase c = .closingOwned) :
    Inv E tables (σ.closeRelease c) :=
  hinv.keep (by rw [hphase]; rfl) rfl ⟨rfl, (hinv.at_phase hphase rfl).2⟩

theorem closeRollback (hinv : Inv E tables σ) (hphase : σ.phase c = .closingReleased) :
    Inv E tables (σ.closeRollback c) := by
  have hfrom : (σ.phase c).ordered = true := by rw [hphase]; rfl
  obtain ⟨hnone, howner⟩ := hinv.at_phase hphase rfl
  rw [Server.closeRollback]
  split
  · rename_i hsnap
    have hopen := hinv.inTransaction
    rw [howner, Database.inTransaction, hsnap] at hopen
    cases hopen
  · rename_i d hd
    obtain ⟨-, rfl⟩ := hinv.open_iff hd
    refine hinv.change hfrom rfl howner rfl ?_ ⟨hnone, by rintro ⟨⟩⟩
    rintro c' ⟨⟩

theorem closeFinish (hinv : Inv E tables σ) (hphase : σ.phase c = .closingDone) :
    Inv E tables (σ.closeFinish c) := by
  obtain ⟨howner, hother⟩ := hinv.at_phase hphase rfl
  exact hinv.release (by rw [hphase]; rfl) howner rfl fun _ => hother

theorem advance (hinv : Inv E tables σ) (o : Outside D)
    (hview : ∀ q, σ.phase c = .eligible q → σ.db.inTransaction = false) :
    Inv E tables (σ.advance E c o) := by
  rw [Server.advance]
  split
  · exact hinv.classify ‹_› o
  · exact hinv.view ‹_› (hview _ ‹_›)
  · exact hinv.foreignControl ‹_›
  · exact hinv.queue ‹_›
  · exact hinv.sample ‹_›
  · exact hinv.compare o ‹_›
  · exact hinv.execute o ‹_›
  · exact hinv.bookkeep o ‹_›
  · exact hinv.finish ‹_›
  · exact hinv.closeOrder
  · exact hinv.closeCheck ‹_›
  · exact hinv.closeRelease ‹_›
  · exact hinv.closeRollback ‹_›
  · exact hinv.closeFinish ‹_›
  · exact hinv
  · exact hinv

theorem step (hinv : Inv E tables σ) {s : Step C D Q W} (hview : ViewsCommitted σ s) :
    Inv E tables (step E σ s) := by
  cases s with
  | receive c s =>
    rw [Isolation.step]
    split
    · rename_i hphase
      exact hinv.enter (by rw [hphase]; rfl) rfl (by rintro ⟨⟩)
    · exact hinv
  | refuse c =>
    rw [Isolation.step]
    split
    · rename_i hphase
      exact hinv.enter (by rw [hphase]; rfl) rfl (by rintro ⟨⟩)
    · rename_i hphase
      exact hinv.enter (by rw [hphase]; rfl) rfl (by rintro ⟨⟩)
    · rename_i hphase
      exact hinv.enter (by rw [hphase]; rfl) rfl (by rintro ⟨⟩)
    · exact hinv
  | disconnect c =>
    rw [Isolation.step]
    split
    · rename_i hphase
      exact hinv.enter (by rw [hphase]; rfl) rfl (by rintro ⟨⟩)
    · exact hinv
  | advance c o => exact hinv.advance o hview

/-- Between requests the owner of the open transaction is recorded, and connected. -/
theorem owned (hinv : Inv E tables σ) (hquiet : ∀ c, σ.phase c = .idle ∨ σ.phase c = .closed) :
    σ.db.inTransaction = true ↔ ∃ c, σ.txOwner = some c ∧ σ.phase c ≠ .closed := by
  have hfree : σ.writeOrder = none := by
    refine Option.eq_none_iff_forall_ne_some.2 fun c hc => ?_
    have hordered := (hinv.order c).2 hc
    rcases hquiet c with h | h
    · rw [h] at hordered
      cases hordered
    · rw [h] at hordered
      cases hordered
  rw [hinv.inTransaction, hinv.free hfree, Option.isSome_iff_exists]
  refine exists_congr fun c => ⟨fun h => ⟨h, fun hclosed => hinv.live c hclosed h⟩, And.left⟩

end Inv

/-! ## Runs -/

/-- Tables that list what was written. -/
def listing : Engine (List ℕ) (List ℕ) Unit ℕ where
  query _ d := d
  write w d := (d ++ [w], [])

def fair : Outside (List ℕ) := ⟨true, true, true, none⟩

/-- A request of the ordered path from its frame to its answer. -/
def request (c : Bool) (s : Stmt Unit ℕ) : List (Step Bool (List ℕ) Unit ℕ) :=
  .receive c s :: List.replicate 8 (.advance c fair)

/-- One connection classifies a read, another one begins and writes, the first takes its view. -/
def lateView : List (Step Bool (List ℕ) Unit ℕ) :=
  [.receive true (.read ()), .advance true fair] ++ request false .begin ++
    request false (.write 1) ++ [.advance true fair]

/-- A read between two writes. -/
def timelyView : List (Step Bool (List ℕ) Unit ℕ) :=
  request false (.write 1) ++ [.receive true (.read ()), .advance true fair, .advance true fair] ++
    request false (.write 2)

end Docsql.Isolation
