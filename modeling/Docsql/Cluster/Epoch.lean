import Docsql.Cluster.Quorum

/-!
# One automatic primary per epoch

A node promotes itself at most once: a demotion freezes it.  So an epoch is 0 or
1, a node that has promoted itself is never demoted, and two primaries of one
epoch are two nodes that have promoted themselves.  Nothing in the conditions of
a promotion looks at the other replicas.
-/

namespace Docsql.Cluster.Quorum

variable {ι : Type} {members : List ι} {c : Config ι} {n : Node ι}
variable {applied : String → Option ℕ} {order : List ι}

/-! ## What a cycle can do -/

/-- The node has probed an active primary of a higher epoch. -/
def Outranked (n : Node ι) : Prop :=
  ∃ m v, n.views m = some v ∧ v.isActivePrimary = true ∧ n.primaryEpoch < v.epoch

/-- The role and the views stay as they are. -/
structure SameRole (n n' : Node ι) : Prop where
  readOnly : n'.readOnly = n.readOnly
  replicateTo : n'.replicateTo = n.replicateTo
  epoch : n'.primaryEpoch = n.primaryEpoch
  views : n'.views = n.views

section Best

variable {views : ι → Option MemberView} {epoch : ℕ}

theorem outbid_some {best : Option (ι × ℕ)} {addr : ι} (h : best ≠ none) :
    outbid views epoch best addr ≠ none := by
  unfold outbid
  split
  · exact h
  · split
    · exact Option.some_ne_none _
    · exact h

theorem foldl_outbid_some {best : Option (ι × ℕ)} (h : best ≠ none) :
    order.foldl (outbid views epoch) best ≠ none := by
  induction order generalizing best with
  | nil => exact h
  | cons addr order ih => exact ih (outbid_some h)

/-- Nothing is found only where there is nothing higher. -/
theorem bestPrimary_eq_none (h : bestPrimary views epoch order = none) {m : ι} (hm : m ∈ order)
    {v : MemberView} (hv : views m = some v) (hactive : v.isActivePrimary = true) :
    v.epoch ≤ epoch := by
  by_contra hlt
  rw [not_le] at hlt
  obtain ⟨front, back, rfl⟩ := List.append_of_mem hm
  rw [bestPrimary, List.foldl_append, List.foldl_cons] at h
  refine foldl_outbid_some ?_ h
  cases hfront : front.foldl (outbid views epoch) none with
  | none => simp [outbid, hv, hactive, hlt]
  | some b => exact outbid_some (Option.some_ne_none _)

theorem foldl_outbid_mem {best : Option (ι × ℕ)} {b : ι × ℕ}
    (h : order.foldl (outbid views epoch) best = some b) :
    best = some b ∨ ∃ v, views b.1 = some v ∧ v.isActivePrimary = true ∧ epoch < v.epoch := by
  induction order generalizing best with
  | nil => exact .inl h
  | cons addr order ih =>
    rcases ih h with hout | hfound
    · unfold outbid at hout
      split at hout
      · exact .inl hout
      · rename_i v hv
        split at hout
        · rename_i hhigher
          obtain rfl := Option.some.inj hout
          exact .inr ⟨v, hv, hhigher.1, hhigher.2.1⟩
        · exact .inl hout
    · exact .inr hfound

theorem bestPrimary_mem {b : ι × ℕ} (h : bestPrimary views epoch order = some b) :
    ∃ v, views b.1 = some v ∧ v.isActivePrimary = true ∧ epoch < v.epoch :=
  (foldl_outbid_mem h).resolve_left fun h => by cases h

end Best

/-- A cycle promotes the node, demotes it, or leaves its role; an active primary
that is left alone is not outranked. -/
theorem supervise_cases (members : List ι) (c : Config ι) (applied : String → Option ℕ)
    (order : List ι) (n : Node ι) :
    (promotes members c applied n = true ∧ n.readOnly = true ∧
      supervise members c applied order n =
        { n with readOnly := false, replicateTo := none, primaryEpoch := n.primaryEpoch + 1 }) ∨
    (promotes members c applied n = false ∧ Outranked n ∧ c.arbiter = false ∧
      n.isActivePrimary = true ∧ ∃ addr, supervise members c applied order n =
        { n with readOnly := true, replicateTo := some addr, autoPromoteFrozen := true }) ∨
    (promotes members c applied n = false ∧
      SameRole n (supervise members c applied order n) ∧
      (c.arbiter = false → n.isActivePrimary = true →
        ∀ m ∈ order, ∀ v, n.views m = some v → v.isActivePrimary = true →
          v.epoch ≤ n.primaryEpoch)) := by
  unfold supervise
  split
  · rename_i harbiter
    refine .inr (.inr ⟨by simp [promotes, harbiter], ⟨rfl, rfl, rfl, rfl⟩, ?_⟩)
    rw [harbiter]
    exact fun h => by cases h
  rename_i harbiter
  rw [Bool.not_eq_true] at harbiter
  split
  · rename_i hreplica
    simp only [Bool.and_eq_true, Bool.not_eq_true'] at hreplica
    obtain ⟨⟨hauto, hread⟩, hfrozen⟩ := hreplica
    have hidle : n.isActivePrimary = true → False := by
      simp [Node.isActivePrimary, hread]
    cases hprimary : c.primaryAddr with
    | none =>
      exact .inr (.inr ⟨by simp [promotes, hprimary], ⟨rfl, rfl, rfl, rfl⟩,
        fun _ h => (hidle h).elim⟩)
    | some primary =>
      have hpromotes : promotes members c applied n = (isLost c n primary &&
          hasMajority members c n && lagOk c applied (n.views primary)) := by
        simp [promotes, harbiter, hauto, hread, hfrozen, hprimary]
      unfold superviseReplica
      dsimp only
      by_cases hlost : (isLost c n primary && hasMajority members c n) = true
      · rw [if_pos hlost]
        by_cases hlag : lagOk c applied (n.views primary) = true
        · rw [if_pos hlag]
          exact .inl ⟨by rw [hpromotes, hlost, hlag]; rfl, hread, rfl⟩
        · rw [if_neg hlag]
          rw [Bool.not_eq_true] at hlag
          exact .inr (.inr ⟨by rw [hpromotes, hlag, Bool.and_false], ⟨rfl, rfl, rfl, rfl⟩,
            fun _ h => (hidle h).elim⟩)
      · rw [if_neg hlost]
        rw [Bool.not_eq_true] at hlost
        refine .inr (.inr ⟨by rw [hpromotes, hlost, Bool.false_and], ?_,
          fun _ h => (hidle h).elim⟩)
        split
        · exact ⟨rfl, rfl, rfl, rfl⟩
        · exact ⟨rfl, rfl, rfl, rfl⟩
  · rename_i hreplica
    have hpromotes : promotes members c applied n = false := by
      simp only [Bool.not_eq_true] at hreplica
      rw [promotes, Bool.and_assoc (!c.arbiter), Bool.and_assoc (!c.arbiter), hreplica]
      simp
    split
    · rename_i hactive
      cases hbest : bestPrimary n.views n.primaryEpoch order with
      | none =>
        exact .inr (.inr ⟨hpromotes, ⟨rfl, rfl, rfl, rfl⟩, fun _ _ m hm v hv ha =>
          bestPrimary_eq_none hbest hm hv ha⟩)
      | some b =>
        obtain ⟨v, hv, ha, hlt⟩ := bestPrimary_mem hbest
        exact .inr (.inl ⟨hpromotes, ⟨b.1, v, hv, ha, hlt⟩, harbiter, hactive, b.1, rfl⟩)
    · rename_i hactive
      exact .inr (.inr ⟨hpromotes, ⟨rfl, rfl, rfl, rfl⟩, fun _ h => absurd h hactive⟩)

/-! ## Whole runs -/

variable [DecidableEq ι] {ms : Membership ι} {w : World ι} {e : Event ι}

/-- No two active primaries share an epoch above 0. -/
def OnePerEpoch (w : World ι) : Prop :=
  ∀ i j, i ≠ j → (w.node i).isActivePrimary = true → (w.node j).isActivePrimary = true →
    (w.node i).primaryEpoch = (w.node j).primaryEpoch → (w.node i).primaryEpoch = 0

/-- The event is a cycle the loop of a member can run. -/
def Membership.Cycles (ms : Membership ι) (self : ι) (order : List ι) : Prop :=
  self ∈ ms.all ∧ ∀ m ∈ ms.all, m ∈ order

/-- A node that has probed a higher active primary is read-only after its cycle. -/
def Membership.Yields (ms : Membership ι) (w : World ι) : Event ι → Prop
  | .cycle self applied order => ms.Cycles self order → Outranked (w.node self) →
    ((ms.step w (.cycle self applied order)).node self).readOnly = true
  | _ => True

/-- Nobody promotes itself after another node has, and an outranked node is
read-only or an active primary that may be demoted. -/
def Membership.Fit (ms : Membership ι) (w : World ι) : Event ι → Prop
  | .cycle self applied order => ms.Cycles self order →
    (promotes (ms.members self) (ms.config self) applied (w.node self) = true →
      ∀ j, j ≠ self → (w.node j).primaryEpoch = 0) ∧
    (Outranked (w.node self) → (w.node self).readOnly = true ∨
      (ms.config self).arbiter = false ∧ (w.node self).replicateTo = none)
  | _ => True

/-- Epochs are 0 or 1, those at 1 are active, and views are of members and never
ahead of them. -/
structure Inv (ms : Membership ι) (w : World ι) : Prop where
  epochs : ∀ i, (w.node i).primaryEpoch ≤ 1
  active : ∀ i, (w.node i).primaryEpoch = 1 → (w.node i).isActivePrimary = true
  views : ∀ i m v, (w.node i).views m = some v →
    v.epoch ≤ (w.node m).primaryEpoch ∧ m ∈ ms.members i
  answers : ∀ i m v, (i, m, v) ∈ w.answers → v.epoch ≤ (w.node m).primaryEpoch

theorem inv_start (ms : Membership ι) (role : ι → Bool × Option ι) :
    Inv ms (World.start role) := by
  refine ⟨fun _ => Nat.zero_le 1, fun _ h => ?_, fun _ _ _ h => ?_, fun _ _ _ h => ?_⟩
  · cases h
  · cases h
  · exact (List.not_mem_nil h).elim

theorem ne_of_mem_members {self m : ι} (h : m ∈ ms.members self) : m ≠ self := by
  simpa using (List.mem_filter.mp h).2

/-- A change of one node that lowers no epoch and keeps to what is known. -/
theorem Inv.update (h : Inv ms w) {self : ι} {n : Node ι}
    (hle : (w.node self).primaryEpoch ≤ n.primaryEpoch) (hone : n.primaryEpoch ≤ 1)
    (hactive : n.primaryEpoch = 1 → n.isActivePrimary = true)
    (hviews : ∀ m v, n.views m = some v →
      v.epoch ≤ (w.node m).primaryEpoch ∧ m ∈ ms.members self) :
    Inv ms { w with node := Function.update w.node self n } := by
  have hmono : ∀ i, (w.node i).primaryEpoch ≤ (Function.update w.node self n i).primaryEpoch := by
    intro i
    by_cases hi : i = self
    · subst hi
      rwa [Function.update_self]
    · rw [Function.update_of_ne hi]
  refine ⟨fun i => ?_, fun i => ?_, fun i m v hv => ?_, fun i m v hv => ?_⟩
  · by_cases hi : i = self
    · subst hi
      simpa using hone
    · simpa [Function.update_of_ne hi] using h.epochs i
  · by_cases hi : i = self
    · subst hi
      simpa using hactive
    · simpa [Function.update_of_ne hi] using h.active i
  · dsimp only at hv
    by_cases hi : i = self
    · subst hi
      rw [Function.update_self] at hv
      exact ⟨(hviews m v hv).1.trans (hmono m), (hviews m v hv).2⟩
    · rw [Function.update_of_ne hi] at hv
      exact ⟨(h.views i m v hv).1.trans (hmono m), (h.views i m v hv).2⟩
  · exact (h.answers i m v hv).trans (hmono m)

theorem Inv.endCycle (h : Inv ms w) (self : ι) (applied : String → Option ℕ) (order : List ι) :
    Inv ms { w with node :=
      Function.update w.node self (ms.endCycle self applied order (w.node self)) } := by
  have hread : ∀ {n : Node ι}, n.readOnly = true → n.isActivePrimary = false := by
    intro n hn
    rw [Node.isActivePrimary, hn]
    rfl
  rcases supervise_cases (ms.members self) (ms.config self) applied order
    { w.node self with fenced := !hasMajority (ms.members self) (ms.config self) (w.node self) }
    with ⟨-, hro, heq⟩ | ⟨-, ⟨m, v, hv, -, hlt⟩, -, -, addr, heq⟩ | ⟨-, hsame, -⟩
  · have hro : (w.node self).readOnly = true := hro
    have hzero : (w.node self).primaryEpoch = 0 := by
      by_contra hne
      have hle := h.epochs self
      have hact := h.active self (by omega)
      rw [hread hro] at hact
      cases hact
    rw [Membership.endCycle, heq]
    refine h.update (Nat.le_succ _) ?_ (fun _ => rfl) (h.views self)
    change (w.node self).primaryEpoch + 1 ≤ 1
    omega
  · have hle := (h.views self m v hv).1.trans (h.epochs m)
    have hlt : (w.node self).primaryEpoch < v.epoch := hlt
    rw [Membership.endCycle, heq]
    refine h.update (le_refl _) (h.epochs self) (fun hone => ?_) (h.views self)
    change (w.node self).primaryEpoch = 1 at hone
    omega
  · rw [Membership.endCycle]
    refine h.update hsame.epoch.ge ?_ (fun hone => ?_) ?_
    · rw [hsame.epoch]
      exact h.epochs self
    · have hact := h.active self (hsame.epoch.symm.trans hone)
      rw [Node.isActivePrimary, hsame.readOnly, hsame.replicateTo]
      exact hact
    · rw [hsame.views]
      exact h.views self

theorem Inv.step (h : Inv ms w) (e : Event ι) : Inv ms (ms.step w e) := by
  cases e with
  | answer asker member head =>
    refine ⟨h.epochs, h.active, h.views, fun i m v hv => ?_⟩
    rcases List.mem_cons.mp hv with heq | hv
    · obtain ⟨rfl, rfl, rfl⟩ : i = asker ∧ m = member ∧ _ = _ := by simpa using heq
      exact le_refl _
    · exact h.answers i m v hv
  | miss asker member =>
    rw [Membership.step]
    split
    · exact h.update (le_refl _) (h.epochs asker) (h.active asker) (h.views asker)
    · exact h
  | hit asker member view =>
    rw [Membership.step]
    split
    · rename_i hhit
      refine h.update (le_refl _) (h.epochs asker) (h.active asker) fun m v hv => ?_
      change (if view.isSome then Function.update (w.node asker).views member view
        else (w.node asker).views) m = some v at hv
      split at hv
      · by_cases hm : m = member
        · subst hm
          rw [Function.update_self] at hv
          exact ⟨h.answers asker m v (hhit.2 v hv), hhit.1⟩
        · rw [Function.update_of_ne hm] at hv
          exact h.views asker m v hv
      · exact h.views asker m v hv
    · exact h
  | cycle self applied order =>
    rw [Membership.step]
    split
    · exact h.endCycle self applied order
    · exact h

theorem onePerEpoch_iff (h : Inv ms w) :
    OnePerEpoch w ↔ ∀ i j, i ≠ j → (w.node i).primaryEpoch = 1 → (w.node j).primaryEpoch = 0 := by
  refine ⟨fun hone i j hij hi => ?_, fun hone i j hij _ _ heq => ?_⟩
  · by_contra hj
    have hj : (w.node j).primaryEpoch = 1 := by
      have := h.epochs j
      omega
    have hzero := hone i j hij (h.active i hi) (h.active j hj) (hi.trans hj.symm)
    omega
  · by_contra hne
    have hi : (w.node i).primaryEpoch = 1 := by
      have := h.epochs i
      omega
    have hj := hone i j hij hi
    omega

/-- The node after its cycle, and all others as they were. -/
theorem step_cycle {self : ι} (hcycles : ms.Cycles self order) :
    ms.step w (.cycle self applied order) =
      ⟨Function.update w.node self (ms.endCycle self applied order (w.node self)), w.answers⟩ :=
  if_pos hcycles

/-- The roles a cycle can leave behind, in terms of the node before it. -/
theorem endCycle_cases (w : World ι) (applied : String → Option ℕ) (self : ι)
    (hcycles : ms.Cycles self order) :
    (promotes (ms.members self) (ms.config self) applied (w.node self) = true ∧
      (ms.endCycle self applied order (w.node self)).readOnly = false ∧
      (ms.endCycle self applied order (w.node self)).primaryEpoch =
        (w.node self).primaryEpoch + 1) ∨
    (promotes (ms.members self) (ms.config self) applied (w.node self) = false ∧
      (ms.endCycle self applied order (w.node self)).primaryEpoch =
        (w.node self).primaryEpoch ∧
      ((ms.endCycle self applied order (w.node self)).readOnly = true ∧
          (ms.config self).arbiter = false ∧ (w.node self).isActivePrimary = true ∨
        (ms.endCycle self applied order (w.node self)).readOnly = (w.node self).readOnly ∧
        ((ms.config self).arbiter = false → (w.node self).isActivePrimary = true →
          ∀ m ∈ ms.all, ∀ v, (w.node self).views m = some v → v.isActivePrimary = true →
            v.epoch ≤ (w.node self).primaryEpoch))) := by
  rcases supervise_cases (ms.members self) (ms.config self) applied order
    { w.node self with fenced := !hasMajority (ms.members self) (ms.config self) (w.node self) }
    with ⟨hpromotes, -, heq⟩ | ⟨hpromotes, -, harbiter, hactive, addr, heq⟩ |
      ⟨hpromotes, hsame, hnone⟩
  · refine .inl ⟨hpromotes, ?_, ?_⟩
    · rw [Membership.endCycle, heq]
    · rw [Membership.endCycle, heq]
  · refine .inr ⟨hpromotes, ?_, .inl ⟨?_, harbiter, hactive⟩⟩
    · rw [Membership.endCycle, heq]
    · rw [Membership.endCycle, heq]
  · exact .inr ⟨hpromotes, hsame.epoch, .inr ⟨hsame.readOnly, fun harbiter hactive m hm =>
      hnone harbiter hactive m (hcycles.2 m hm)⟩⟩

theorem outranked_by (h : Inv ms w) {self : ι} (hout : Outranked (w.node self)) :
    ∃ m, m ≠ self ∧ m ∈ ms.all ∧ (w.node m).primaryEpoch = 1 ∧
      ∃ v, (w.node self).views m = some v ∧ v.isActivePrimary = true ∧
        (w.node self).primaryEpoch < v.epoch := by
  obtain ⟨m, v, hv, hactive, hlt⟩ := hout
  obtain ⟨hle, hm⟩ := h.views self m v hv
  have hone := h.epochs m
  exact ⟨m, ne_of_mem_members hm, (List.mem_filter.mp hm).1, by omega, v, hv, hactive, hlt⟩

theorem step_of_fit (h : Inv ms w) (hone : OnePerEpoch w) (hfit : ms.Fit w e) :
    OnePerEpoch (ms.step w e) ∧ ms.Yields w e := by
  have hsame : ∀ {node : ι → Node ι}, (∀ i, (node i).primaryEpoch = (w.node i).primaryEpoch) →
      Inv ms ⟨node, w.answers⟩ → OnePerEpoch (⟨node, w.answers⟩ : World ι) := by
    intro node hnode hinv
    rw [onePerEpoch_iff hinv]
    dsimp only
    intro i j
    rw [hnode i, hnode j]
    exact (onePerEpoch_iff h).mp hone i j
  have hupdate : ∀ {self : ι} {n : Node ι}, n.primaryEpoch = (w.node self).primaryEpoch →
      ∀ i, (Function.update w.node self n i).primaryEpoch = (w.node i).primaryEpoch := by
    intro self n hn i
    by_cases hi : i = self
    · subst hi
      rwa [Function.update_self]
    · rw [Function.update_of_ne hi]
  have hstep := h.step e
  cases e with
  | answer asker member head => exact ⟨hone, trivial⟩
  | miss asker member =>
    refine ⟨?_, trivial⟩
    rw [Membership.step] at hstep ⊢
    split
    · rename_i hmem
      rw [if_pos hmem] at hstep
      exact hsame (hupdate rfl) hstep
    · exact hone
  | hit asker member view =>
    refine ⟨?_, trivial⟩
    rw [Membership.step] at hstep ⊢
    split
    · rename_i hhit
      rw [if_pos hhit] at hstep
      exact hsame (hupdate rfl) hstep
    · exact hone
  | cycle self applied order =>
    by_cases hcycles : ms.Cycles self order
    · obtain ⟨hfirst, hrole⟩ := hfit hcycles
      rw [step_cycle hcycles] at hstep
      rw [Membership.Yields, step_cycle hcycles]
      dsimp only
      rw [Function.update_self]
      rcases endCycle_cases w applied self hcycles with
        ⟨hpromotes, hread, hepoch⟩ | ⟨-, hepoch, hread⟩
      · have hothers := hfirst hpromotes
        refine ⟨?_, fun _ hout => ?_⟩
        · rw [onePerEpoch_iff hstep]
          dsimp only
          intro i j hij hi
          by_cases hj : j = self
          · subst hj
            rw [Function.update_of_ne hij, hothers i hij] at hi
            cases hi
          · rw [Function.update_of_ne hj]
            exact hothers j hj
        · obtain ⟨m, hne, -, hm, -⟩ := outranked_by h hout
          rw [hothers m hne] at hm
          cases hm
      · refine ⟨hsame (hupdate hepoch) hstep, fun _ hout => ?_⟩
        obtain ⟨m, -, hm, -, v, hv, hactive, hlt⟩ := outranked_by h hout
        rcases hread with ⟨hread, -⟩ | ⟨hread, hnone⟩
        · exact hread
        · rw [hread]
          rcases hrole hout with hro | ⟨harbiter, htarget⟩
          · exact hro
          · by_contra hro
            rw [Bool.not_eq_true] at hro
            have hself : (w.node self).isActivePrimary = true := by
              rw [Node.isActivePrimary, hro, htarget]
              rfl
            exact absurd (hnone harbiter hself m hm v hv hactive) (not_le.mpr hlt)
    · have hidle : ms.step w (.cycle self applied order) = w := if_neg hcycles
      rw [hidle]
      exact ⟨hone, fun hc => absurd hc hcycles⟩

theorem fit_of_step (h : Inv ms w) (hone : OnePerEpoch (ms.step w e)) (hyields : ms.Yields w e) :
    ms.Fit w e := by
  match e with
  | .answer _ _ _ => trivial
  | .miss _ _ => trivial
  | .hit _ _ _ => trivial
  | .cycle self applied order =>
    intro hcycles
    have hstep := h.step (.cycle self applied order)
    have hafter := hyields hcycles
    rw [step_cycle hcycles] at hstep hone hafter
    dsimp only at hafter
    rw [Function.update_self] at hafter
    have hself := hstep.epochs self
    have hlead := (onePerEpoch_iff hstep).mp hone self
    dsimp only at hself hlead
    rw [Function.update_self] at hself hlead
    rcases endCycle_cases w applied self hcycles with
      ⟨-, hread, hepoch⟩ | ⟨hpromotes, -, hread⟩
    · refine ⟨fun _ j hj => ?_, fun hout => ?_⟩
      · have hzero := hlead j (Ne.symm hj) (by omega)
        rwa [Function.update_of_ne hj] at hzero
      · rw [hafter hout] at hread
        cases hread
    · refine ⟨fun htrue => ?_, fun hout => ?_⟩
      · rw [hpromotes] at htrue
        cases htrue
      · rcases hread with ⟨-, harbiter, hactive⟩ | ⟨hread, -⟩
        · rw [Node.isActivePrimary, Bool.and_eq_true, Option.isNone_iff_eq_none] at hactive
          exact .inr ⟨harbiter, hactive.2⟩
        · exact .inl (hread.symm.trans (hafter hout))

theorem run_append (ms : Membership ι) (w : World ι) (events : List (Event ι)) (e : Event ι) :
    ms.run w (events ++ [e]) = ms.step (ms.run w events) e := by
  simp [Membership.run]

theorem inv_run (ms : Membership ι) (role : ι → Bool × Option ι) (events : List (Event ι)) :
    Inv ms (ms.run (World.start role) events) := by
  induction events using List.reverseRecOn with
  | nil => exact inv_start ms role
  | append_singleton events e ih =>
    rw [run_append]
    exact ih.step e

/-- One primary per epoch in every state, and outranked nodes give way, exactly in
the runs where nobody promotes itself after another node has. -/
theorem one_primary_per_epoch (ms : Membership ι) (role : ι → Bool × Option ι)
    (events : List (Event ι)) :
    ((∀ done, done <+: events → OnePerEpoch (ms.run (World.start role) done)) ∧
      ∀ done e, done ++ [e] <+: events → ms.Yields (ms.run (World.start role) done) e) ↔
      ∀ done e, done ++ [e] <+: events → ms.Fit (ms.run (World.start role) done) e := by
  have hshorter : ∀ {done e}, done ++ [e] <+: events → done <+: events := fun h =>
    (List.prefix_append _ _).trans h
  constructor
  · rintro ⟨hone, hyields⟩ done e hdone
    have hafter := hone _ hdone
    rw [run_append] at hafter
    exact fit_of_step (inv_run ms role done) hafter (hyields done e hdone)
  · intro hfit
    have hone : ∀ done, done <+: events → OnePerEpoch (ms.run (World.start role) done) := by
      intro done
      induction done using List.reverseRecOn with
      | nil => exact fun _ i j _ _ _ _ => rfl
      | append_singleton done e ih =>
        intro hdone
        rw [run_append]
        exact (step_of_fit (inv_run ms role done) (ih (hshorter hdone)) (hfit done e hdone)).1
    exact ⟨hone, fun done e hdone =>
      (step_of_fit (inv_run ms role done) (hone done (hshorter hdone)) (hfit done e hdone)).2⟩

/-! ### Two replicas -/

/-- A primary with two replicas that may promote themselves. -/
def pairOfReplicas : Membership (Fin 3) where
  all := [0, 1, 2]
  config := fun i => ⟨false, i ≠ 0, if i = 0 then none else some 0, 0, 1, some s!"node {i}"⟩

/-- Both replicas see the primary once, then lose it while they see each other. -/
def lostPrimary : List (Event (Fin 3)) :=
  let view : MemberView := ⟨0, false, false, some 0, some "node 0"⟩
  [.answer 1 0 (some 0), .answer 2 0 (some 0), .hit 1 0 (some view), .hit 2 0 (some view),
    .miss 1 0, .miss 2 0,
    .cycle 1 (fun _ => none) [0, 1, 2], .cycle 2 (fun _ => none) [0, 1, 2]]

theorem two_primaries_of_epoch_one :
    ¬OnePerEpoch (pairOfReplicas.run
      (World.start fun i => (i ≠ 0, if i = 0 then none else some 0)) lostPrimary) := by
  intro hone
  have hepoch := hone 1 2 (by decide) (by decide) (by decide) (by decide)
  exact absurd hepoch (by decide)

end Docsql.Cluster.Quorum
