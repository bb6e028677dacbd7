import Mathlib.Tactic

/-!
# Catch-up positions

One origin numbers its writes and sends each of them to a peer.  The peer
records a position for the origin: live frames, the replay of the queue, pulled
ranges and adopted snapshots all write it (`conn.rs`, `sync.rs`, `catchup.rs`).
A frame may arrive late, repeatedly or not at all.
-/

namespace Docsql.Cluster.Catchup

/-- The journal of the origin, and what the peer has of it. -/
structure Link where
  /-- The last number of the journal, the first one still kept, and the last one
  voided by an adoption at the origin. -/
  head : ℕ := 0
  oldest : ℕ := 1
  voidedTo : ℕ := 0
  /-- The entries applied at the peer or contained in its snapshot. -/
  held : Finset ℕ := ∅
  position : Option ℕ := none
  gateClosed : Bool := false
  queue : List ℕ := []
  /-- A pull: the last entry applied, and where it ends. -/
  pull : Option (ℕ × ℕ) := none
  /-- The head sampled in the probe round. -/
  floor : Option ℕ := none
  /-- A snapshot was adopted, the queued writes that failed since, and the head
  sampled after it. -/
  adopted : Bool := false
  failures : ℕ := 0
  fresh : Option ℕ := none

inductive Event where
  /-- The origin commits and journals a write. -/
  | write
  /-- The origin adopts a snapshot and voids its journal. -/
  | void
  | trim (oldest : ℕ)
  /-- A frame arrives; `ok`: the queue has room, or the statement succeeds. -/
  | deliver (seq : ℕ) (ok : Bool)
  | drain (ok : Bool)
  | closeGate
  | restart
  | startPull (after : ℕ)
  | pullEntry (ok : Bool)
  | endPull
  | failPull
  | probe
  /-- `clear`: positions are dropped with the old state. -/
  | adopt (snapshot : Finset ℕ) (clear : Bool)
  | probeFresh
  | seedFresh

namespace Link

variable (l : Link)

/-- Never backwards. -/
def advancePosition (seq : ℕ) : Link :=
  if l.position.any fun pos => seq ≤ pos then l else { l with position := some seq }

def covered (seq : ℕ) : Bool := l.position.any fun pos => seq ≤ pos

/-- A replicated write and its position in one commit unit. -/
def applySeq (seq : ℕ) : Link :=
  Link.advancePosition { l with held := insert seq l.held } seq

/-- The frame is applied directly. -/
def AppliesLive (seq : ℕ) (ok : Bool) : Prop :=
  1 ≤ seq ∧ seq ≤ l.head ∧ l.gateClosed = true ∧ l.covered seq = false ∧ ok = true

instance (seq : ℕ) (ok : Bool) : Decidable (l.AppliesLive seq ok) :=
  inferInstanceAs (Decidable (_ ∧ _))

/-- `REQ_SQL_SEQ` at the peer. -/
def deliver (seq : ℕ) (ok : Bool) : Link :=
  if l.AppliesLive seq ok then l.applySeq seq
  else if 1 ≤ seq ∧ seq ≤ l.head ∧ l.gateClosed = false ∧ ok = true then
    { l with queue := l.queue ++ [seq] }
  else l

/-- One queued write: skipped, replayed, or given up after its retries. -/
def drain (ok : Bool) : Link :=
  match l.queue with
  | [] => l
  | seq :: rest =>
    if l.covered seq then { l with queue := rest }
    else if ok then Link.applySeq { l with queue := rest } seq
    else { l with queue := rest, failures := l.failures + 1 }

/-- A plan starts at a position that was recorded and still is inside the journal. -/
def CanPull (after : ℕ) : Prop :=
  l.pull = none ∧ l.position.any (fun pos => after ≤ pos) = true ∧ after ≤ l.head ∧
    l.oldest ≤ after + 1

instance (after : ℕ) : Decidable (l.CanPull after) := inferInstanceAs (Decidable (_ ∧ _))

/-- The next entry of a pull; a failed one ends it. -/
def pullEntry (ok : Bool) : Link :=
  match l.pull with
  | none => l
  | some (last, head) =>
    if last < head then
      if ok then { l with held := insert (last + 1) l.held, pull := some (last + 1, head) }
      else { l with pull := none }
    else l

def endPull : Link :=
  match l.pull with
  | none => l
  | some (last, head) =>
    if last = head then Link.advancePosition { l with pull := none } head else l

/-- The probe-round floor, never below what is recorded. -/
def seedPositions : Link :=
  match l.floor with
  | none => l
  | some head => if l.position.getD 0 < head then { l with position := some head } else l

def adopt (snapshot : Finset ℕ) (clear : Bool) : Link :=
  Link.seedPositions { l with
    held := snapshot
    position := if clear then none else l.position
    adopted := true
    failures := 0
    fresh := none }

/-- Heads are probed again once the queue has gone through without a failure. -/
def probeFresh : Link :=
  if l.adopted = true ∧ l.gateClosed = true ∧ l.failures = 0 then
    { l with fresh := some l.head }
  else l

def seedFresh : Link :=
  match l.fresh with
  | none => l
  | some head => Link.advancePosition { l with adopted := false, fresh := none } head

def step : Event → Link
  | .write => { l with head := l.head + 1 }
  | .void => { l with voidedTo := max l.voidedTo l.head }
  | .trim oldest => { l with oldest := max l.oldest oldest }
  | .deliver seq ok => l.deliver seq ok
  | .drain ok => l.drain ok
  | .closeGate => { l with gateClosed := true }
  | .restart => { l with
      gateClosed := false, queue := [], pull := none, floor := none, adopted := false
      failures := 0, fresh := none }
  | .startPull after => if l.CanPull after then { l with pull := some (after, l.head) } else l
  | .pullEntry ok => l.pullEntry ok
  | .endPull => l.endPull
  | .failPull => { l with pull := none }
  | .probe => { l with floor := some l.head }
  | .adopt snapshot clear => if l.pull = none then l.adopt snapshot clear else l
  | .probeFresh => l.probeFresh
  | .seedFresh => l.seedFresh

def run (events : List Event) : Link := events.foldl step {}

/-! ## Positions and entries -/

/-- The entry needs no pull: the peer has it, or the origin voided it. -/
def Has (seq : ℕ) : Prop := seq ∈ l.held ∨ seq ≤ l.voidedTo

/-- Everything up to this number. -/
def HasUpTo (seq : ℕ) : Prop := ∀ s, 1 ≤ s → s ≤ seq → l.Has s

/-- What is missing lies after the recorded position. -/
def NeverLeads : Prop := ∀ pos, l.position = some pos → l.HasUpTo pos

/-- A frame goes through only after all frames before it, and an adopted snapshot
or a fresh head covers no more than the peer has. -/
def Fit : Event → Prop
  | .deliver seq ok => l.AppliesLive seq ok → l.HasUpTo (seq - 1)
  | .drain ok => ∀ seq rest, l.queue = seq :: rest → l.covered seq = false → ok = true →
      l.HasUpTo (seq - 1)
  | .adopt snapshot clear => l.pull = none →
      ∀ s, 1 ≤ s → s ≤ max (l.floor.getD 0) (if clear then 0 else l.position.getD 0) →
        s ∈ snapshot ∨ s ≤ l.voidedTo
  | .seedFresh => ∀ head, l.fresh = some head → l.HasUpTo head
  | _ => True

/-- A pull has applied everything up to its last entry. -/
def PullsInOrder : Prop := ∀ last head, l.pull = some (last, head) → l.HasUpTo last

variable {l} {l' : Link} {e : Event} {seq : ℕ}

theorem HasUpTo.mono {n : ℕ} (h : l.HasUpTo n) (hn : seq ≤ n) : l.HasUpTo seq :=
  fun s hs hle => h s hs (hle.trans hn)

/-- Nothing the peer has is lost from one state to the other. -/
structure Grows (l l' : Link) : Prop where
  held : l.held ⊆ l'.held
  voided : l.voidedTo ≤ l'.voidedTo

theorem Grows.hasUpTo (h : Grows l l') (hup : l.HasUpTo seq) : l'.HasUpTo seq := by
  intro s hs hle
  rcases hup s hs hle with hmem | hvoid
  · exact .inl (h.held hmem)
  · exact .inr (hvoid.trans h.voided)

theorem grows_of_eq (hheld : l'.held = l.held) (hvoided : l'.voidedTo = l.voidedTo) :
    Grows l l' :=
  ⟨hheld.ge, hvoided.ge⟩

/-- Steps that leave the position and the pull alone. -/
theorem keep_of_grows (hlead : l.NeverLeads) (horder : l.PullsInOrder) (h : Grows l l')
    (hpos : l'.position = l.position) (hpull : l'.pull = l.pull ∨ l'.pull = none) :
    l'.NeverLeads ∧ l'.PullsInOrder := by
  refine ⟨fun pos hp => h.hasUpTo (hlead pos (hpos ▸ hp)), fun last head hp => ?_⟩
  rcases hpull with heq | hnone
  · exact h.hasUpTo (horder last head (heq ▸ hp))
  · rw [hnone] at hp
    cases hp

theorem covered_iff : l.covered seq = true ↔ ∃ pos, l.position = some pos ∧ seq ≤ pos := by
  unfold covered
  cases l.position with
  | none => simp
  | some pos => simp

theorem advancePosition_cases (l : Link) (seq : ℕ) :
    (l.covered seq = true ∧ l.advancePosition seq = l) ∨
      (l.covered seq = false ∧ l.advancePosition seq = { l with position := some seq }) := by
  unfold advancePosition covered
  cases h : l.position.any fun pos => seq ≤ pos with
  | true => exact .inl ⟨rfl, if_pos rfl⟩
  | false => exact .inr ⟨rfl, if_neg Bool.false_ne_true⟩

/-- Recording a position that is covered. -/
theorem keep_advance (hup : l.HasUpTo seq) (hlead : l.NeverLeads) (horder : l.PullsInOrder) :
    (l.advancePosition seq).NeverLeads ∧ (l.advancePosition seq).PullsInOrder := by
  rcases advancePosition_cases l seq with ⟨-, heq⟩ | ⟨-, heq⟩
  · rw [heq]
    exact ⟨hlead, horder⟩
  · rw [heq]
    refine ⟨fun pos hp => ?_, horder⟩
    obtain rfl := Option.some.inj hp
    exact hup

theorem hasUpTo_of_advance (h : (l.advancePosition seq).NeverLeads) (hlead : l.NeverLeads) :
    l.HasUpTo seq := by
  rcases advancePosition_cases l seq with ⟨hcov, -⟩ | ⟨-, heq⟩
  · obtain ⟨pos, hpos, hle⟩ := covered_iff.mp hcov
    exact (hlead pos hpos).mono hle
  · rw [heq] at h
    exact h seq rfl

theorem grows_insert (l : Link) (seq : ℕ) : Grows l { l with held := insert seq l.held } :=
  ⟨Finset.subset_insert _ _, le_refl _⟩

/-- The entry itself closes the range below it. -/
theorem hasUpTo_insert (h : l.HasUpTo (seq - 1)) :
    HasUpTo { l with held := insert seq l.held } seq := by
  intro s hs hle
  by_cases heq : s = seq
  · exact .inl (heq ▸ Finset.mem_insert_self _ _)
  · exact (grows_insert l seq).hasUpTo h s hs (by omega)

theorem keep_applySeq (hup : l.HasUpTo (seq - 1)) (hlead : l.NeverLeads)
    (horder : l.PullsInOrder) : (l.applySeq seq).NeverLeads ∧ (l.applySeq seq).PullsInOrder := by
  obtain ⟨hlead', horder'⟩ := keep_of_grows hlead horder (grows_insert l seq) rfl (.inl rfl)
  exact keep_advance (hasUpTo_insert hup) hlead' horder'

/-- A frame that is applied over a gap leaves the position ahead. -/
theorem hasUpTo_of_applySeq (hlead : l.NeverLeads) (horder : l.PullsInOrder)
    (h : (l.applySeq seq).NeverLeads) : l.HasUpTo (seq - 1) := by
  obtain ⟨hlead', -⟩ := keep_of_grows hlead horder (grows_insert l seq) rfl (.inl rfl)
  have hup := hasUpTo_of_advance h hlead'
  intro s hs hle
  rcases hup s hs (by omega) with hmem | hvoid
  · rcases Finset.mem_insert.mp hmem with heq | hmem
    · omega
    · exact .inl hmem
  · exact .inr hvoid

theorem seedPositions_position (l : Link) :
    l.seedPositions.position.getD 0 = max (l.floor.getD 0) (l.position.getD 0) := by
  unfold seedPositions
  split
  · rename_i hfloor
    rw [hfloor, Option.getD_none, Nat.zero_max]
  · rename_i head hfloor
    rw [hfloor, Option.getD_some]
    split
    · rename_i hlt
      rw [Option.getD_some, max_eq_left hlt.le]
    · rename_i hlt
      rw [max_eq_right (not_lt.mp hlt)]

theorem seedPositions_same (l : Link) :
    l.seedPositions.held = l.held ∧ l.seedPositions.voidedTo = l.voidedTo ∧
      l.seedPositions.pull = l.pull := by
  unfold seedPositions
  split
  · exact ⟨rfl, rfl, rfl⟩
  · split
    · exact ⟨rfl, rfl, rfl⟩
    · exact ⟨rfl, rfl, rfl⟩

/-- The position after an adoption is the larger of the floor and what was kept. -/
theorem adopt_position (l : Link) (snapshot : Finset ℕ) (clear : Bool) :
    (l.adopt snapshot clear).position.getD 0 =
      max (l.floor.getD 0) (if clear then 0 else l.position.getD 0) := by
  rw [adopt, seedPositions_position]
  dsimp only
  split
  · rfl
  · rfl

theorem neverLeads_iff : l.NeverLeads ↔ l.HasUpTo (l.position.getD 0) := by
  unfold NeverLeads
  cases l.position with
  | none =>
    refine ⟨fun _ s hs hle => ?_, fun _ _ h => by cases h⟩
    rw [Option.getD_none] at hle
    omega
  | some pos => exact ⟨fun h => h pos rfl, fun h _ hpos => Option.some.inj hpos ▸ h⟩

theorem adopt_neverLeads_iff (l : Link) (snapshot : Finset ℕ) (clear : Bool) :
    (l.adopt snapshot clear).NeverLeads ↔
      ∀ s, 1 ≤ s → s ≤ max (l.floor.getD 0) (if clear then 0 else l.position.getD 0) →
        s ∈ snapshot ∨ s ≤ l.voidedTo := by
  rw [neverLeads_iff, adopt_position]
  unfold HasUpTo Has adopt
  rw [(seedPositions_same _).1, (seedPositions_same _).2.1]

/-! ## Steps and runs -/

theorem keep_pullEntry {ok : Bool} (hlead : l.NeverLeads) (horder : l.PullsInOrder) :
    (l.pullEntry ok).NeverLeads ∧ (l.pullEntry ok).PullsInOrder := by
  unfold pullEntry
  split
  · exact ⟨hlead, horder⟩
  · rename_i last head hpull
    split
    · split
      · have hgrows := grows_insert l (last + 1)
        refine ⟨fun pos hp => hgrows.hasUpTo (hlead pos hp), fun last' head' hp => ?_⟩
        obtain ⟨rfl, rfl⟩ : last + 1 = last' ∧ head = head' := by simpa using hp
        exact hasUpTo_insert (horder last head hpull)
      · exact keep_of_grows hlead horder (grows_of_eq rfl rfl) rfl (.inr rfl)
    · exact ⟨hlead, horder⟩

theorem keep_endPull (hlead : l.NeverLeads) (horder : l.PullsInOrder) :
    l.endPull.NeverLeads ∧ l.endPull.PullsInOrder := by
  unfold endPull
  split
  · exact ⟨hlead, horder⟩
  · rename_i last head hpull
    split
    · rename_i hend
      have hother : NeverLeads { l with pull := none } ∧
          PullsInOrder { l with pull := none } :=
        keep_of_grows hlead horder (grows_of_eq rfl rfl) rfl (.inr rfl)
      have hup : HasUpTo { l with pull := none } head := hend ▸ horder last head hpull
      exact keep_advance hup hother.1 hother.2
    · exact ⟨hlead, horder⟩

/-- A step that fits keeps the position behind the data. -/
theorem step_keeps (hlead : l.NeverLeads) (horder : l.PullsInOrder) (hfit : l.Fit e) :
    (l.step e).NeverLeads ∧ (l.step e).PullsInOrder := by
  cases e with
  | write => exact keep_of_grows hlead horder (grows_of_eq rfl rfl) rfl (.inl rfl)
  | void => exact keep_of_grows hlead horder ⟨subset_rfl, le_max_left _ _⟩ rfl (.inl rfl)
  | trim oldest => exact keep_of_grows hlead horder (grows_of_eq rfl rfl) rfl (.inl rfl)
  | deliver seq ok =>
    rw [step, deliver]
    split
    · rename_i hlive
      exact keep_applySeq (hfit hlive) hlead horder
    · split
      · exact keep_of_grows hlead horder (grows_of_eq rfl rfl) rfl (.inl rfl)
      · exact ⟨hlead, horder⟩
  | drain ok =>
    rw [step, drain]
    split
    · exact ⟨hlead, horder⟩
    · rename_i seq rest hqueue
      have hother : NeverLeads { l with queue := rest } ∧
          PullsInOrder { l with queue := rest } :=
        keep_of_grows hlead horder (grows_of_eq rfl rfl) rfl (.inl rfl)
      split
      · exact hother
      · rename_i hcov
        split
        · rename_i hok
          rw [Bool.not_eq_true] at hcov
          exact keep_applySeq (hfit seq rest hqueue hcov hok) hother.1 hother.2
        · exact keep_of_grows hlead horder (grows_of_eq rfl rfl) rfl (.inl rfl)
  | closeGate => exact keep_of_grows hlead horder (grows_of_eq rfl rfl) rfl (.inl rfl)
  | restart => exact keep_of_grows hlead horder (grows_of_eq rfl rfl) rfl (.inr rfl)
  | startPull after =>
    rw [step]
    split
    · rename_i hcan
      refine ⟨hlead, fun last head hp => ?_⟩
      obtain ⟨rfl, rfl⟩ : after = last ∧ l.head = head := by simpa using hp
      obtain ⟨pos, hpos, hle⟩ := covered_iff.mp hcan.2.1
      exact (hlead pos hpos).mono hle
    · exact ⟨hlead, horder⟩
  | pullEntry ok => exact keep_pullEntry hlead horder
  | endPull => exact keep_endPull hlead horder
  | failPull => exact keep_of_grows hlead horder (grows_of_eq rfl rfl) rfl (.inr rfl)
  | probe => exact keep_of_grows hlead horder (grows_of_eq rfl rfl) rfl (.inl rfl)
  | adopt snapshot clear =>
    rw [step]
    split
    · rename_i hpull
      refine ⟨(adopt_neverLeads_iff l snapshot clear).mpr (hfit hpull), fun last head hp => ?_⟩
      rw [adopt, (seedPositions_same _).2.2] at hp
      rw [hpull] at hp
      cases hp
    · exact ⟨hlead, horder⟩
  | probeFresh =>
    rw [step, probeFresh]
    split
    · exact keep_of_grows hlead horder (grows_of_eq rfl rfl) rfl (.inl rfl)
    · exact ⟨hlead, horder⟩
  | seedFresh =>
    rw [step, seedFresh]
    split
    · exact ⟨hlead, horder⟩
    · rename_i head hfresh
      have hother : NeverLeads { l with adopted := false, fresh := none } ∧
          PullsInOrder { l with adopted := false, fresh := none } :=
        keep_of_grows hlead horder (grows_of_eq rfl rfl) rfl (.inl rfl)
      exact keep_advance (hfit head hfresh) hother.1 hother.2

/-- A step after which the position is behind the data did fit. -/
theorem fit_of_step (hlead : l.NeverLeads) (horder : l.PullsInOrder)
    (h : (l.step e).NeverLeads) : l.Fit e := by
  match e with
  | .deliver seq ok =>
    intro hlive
    rw [step, deliver, if_pos hlive] at h
    exact hasUpTo_of_applySeq hlead horder h
  | .drain ok =>
    intro seq rest hqueue hcov hok
    have hdrain : l.drain ok = Link.applySeq { l with queue := rest } seq := by
      rw [drain, hqueue]
      dsimp only
      rw [hcov, hok]
      rfl
    rw [step, hdrain] at h
    have hother : NeverLeads { l with queue := rest } ∧
        PullsInOrder { l with queue := rest } :=
      keep_of_grows hlead horder (grows_of_eq rfl rfl) rfl (.inl rfl)
    have hup : HasUpTo { l with queue := rest } (seq - 1) :=
      hasUpTo_of_applySeq hother.1 hother.2 h
    exact hup
  | .adopt snapshot clear =>
    intro hpull
    rw [step, if_pos hpull] at h
    exact (adopt_neverLeads_iff l snapshot clear).mp h
  | .seedFresh =>
    intro head hfresh
    rw [step, seedFresh, hfresh] at h
    have hother : NeverLeads { l with adopted := false, fresh := none } ∧
        PullsInOrder { l with adopted := false, fresh := none } :=
      keep_of_grows hlead horder (grows_of_eq rfl rfl) rfl (.inl rfl)
    have hup : HasUpTo { l with adopted := false, fresh := none } head :=
      hasUpTo_of_advance h hother.1
    exact hup
  | .write => trivial
  | .void => trivial
  | .trim _ => trivial
  | .closeGate => trivial
  | .restart => trivial
  | .startPull _ => trivial
  | .pullEntry _ => trivial
  | .endPull => trivial
  | .failPull => trivial
  | .probe => trivial
  | .probeFresh => trivial

theorem run_append (events : List Event) (e : Event) :
    run (events ++ [e]) = (run events).step e := by
  simp [run]

theorem run_nil_keeps : (run []).NeverLeads ∧ (run []).PullsInOrder := by
  refine ⟨fun pos hpos => ?_, fun last head hpull => ?_⟩
  · cases hpos
  · cases hpull

/-- Positions stay behind the data exactly in the runs whose steps fit. -/
theorem positions_never_lead (events : List Event) :
    (∀ done, done <+: events → (run done).NeverLeads) ↔
      ∀ done e, done ++ [e] <+: events → (run done).Fit e := by
  have hshorter : ∀ {done e}, done ++ [e] <+: events → done <+: events := fun h =>
    (List.prefix_append _ _).trans h
  constructor
  · intro hlead
    have horder : ∀ done, done <+: events → (run done).PullsInOrder := by
      intro done
      induction done using List.reverseRecOn with
      | nil => exact fun _ => run_nil_keeps.2
      | append_singleton done e ih =>
        intro hdone
        have hbefore := hlead done (hshorter hdone)
        have hafter := hlead _ hdone
        rw [run_append] at hafter ⊢
        have hfit := fit_of_step hbefore (ih (hshorter hdone)) hafter
        exact (step_keeps hbefore (ih (hshorter hdone)) hfit).2
    intro done e hdone
    have hafter := hlead _ hdone
    rw [run_append] at hafter
    exact fit_of_step (hlead done (hshorter hdone)) (horder done (hshorter hdone)) hafter
  · intro hfit
    have hkeeps : ∀ done, done <+: events →
        (run done).NeverLeads ∧ (run done).PullsInOrder := by
      intro done
      induction done using List.reverseRecOn with
      | nil => exact fun _ => run_nil_keeps
      | append_singleton done e ih =>
        intro hdone
        obtain ⟨hlead, horder⟩ := ih (hshorter hdone)
        rw [run_append]
        exact step_keeps hlead horder (hfit done e hdone)
    exact fun done hdone => (hkeeps done hdone).1

/-- The first frame is lost and the second goes through. -/
theorem position_leads_after_lost_frame :
    ¬∀ events, (run events).NeverLeads := by
  intro hclaim
  have hlead := hclaim [.write, .closeGate, .write, .deliver 2 true] 2 rfl 1 (le_refl 1) (by decide)
  rcases hlead with hmem | hvoid
  · exact absurd hmem (by decide)
  · exact absurd hvoid (by decide)

end Link

end Docsql.Cluster.Catchup
