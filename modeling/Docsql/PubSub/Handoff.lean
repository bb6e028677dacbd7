import Docsql.Lib.Run
import Docsql.PubSub.Store

/-!
# From replay to live delivery

One subscription of a node: publishes, trims and the steps of `handle_subscribe`
in any order.  A publish stores its message and notifies later, under the
registry lock; `write_order` keeps another publish or a trim from coming between.
The replay reads chunks without that lock.
-/

namespace Docsql.PubSub

inductive SubKind where
  | channel
  | pattern
deriving DecidableEq, Repr

structure Subscription where
  kind : SubKind
  name : String
  /-- The `from` argument; `none` is the latest message. -/
  afterId : Option ℤ
deriving DecidableEq, Repr

def Subscription.hits (sub : Subscription) (m : StoredMessage) : Bool :=
  match sub.kind with
  | .channel => m.channel == sub.name
  | .pattern => patternMatches sub.name m.channel

/-- The local variables of `handle_subscribe`; `start` is the cursor it began at. -/
structure Replay where
  start : ℤ
  progress : ℤ
  cursor : ℤ
  watermark : ℤ
  window : ReplayWindow := {}
deriving DecidableEq, Repr

inductive Phase where
  | idle
  /-- At the head of the chunk loop. -/
  | scanning (r : Replay)
  | sending (r : Replay) (chunk rest : List StoredMessage)
  /-- Stalled or exhausted: the filter is to be armed at `progress`. -/
  | leaving (r : Replay)
  /-- The chunks are through, the next bound is to be sampled. -/
  | sampling (r : Replay)
  /-- The registry lock is to be taken for the last sample. -/
  | confirming (r : Replay)
  | returned (start : ℤ)
deriving DecidableEq, Repr

structure Node where
  store : Store := []
  /-- Stored, but subscribers are not notified yet. -/
  pending : Option StoredMessage := none
  phase : Phase := .idle
  /-- `none` is `i64::MAX`, or no subscription: every live push is dropped. -/
  skipThrough : Option ℤ := none
  /-- The frames of the subscriber, in the order of its channel. -/
  sent : List StoredMessage := []
  /-- The rows at the return of `handle_subscribe` and the messages after it. -/
  owed : List StoredMessage := []
deriving DecidableEq, Repr

inductive Event where
  | publish (channel : String) (ts : ℤ) (payload : String)
  | notify
  | trim (channel : String) (keep : ℤ)
  | subscribe
  /-- The next step of `handle_subscribe`; `readOk`: its chunk can be read. -/
  | advance (readOk : Bool)
deriving DecidableEq, Repr

namespace Node

variable (sub : Subscription) (n : Node)

def publish (channel : String) (ts : ℤ) (payload : String) : Node :=
  let (store, m) := n.store.storeInsert channel ts payload
  { n with
    store := store
    pending := some m
    owed := match n.phase with
      | .returned _ => n.owed ++ [m]
      | _ => n.owed }

/-- Ids up to `skipThrough` are left to the replay. -/
def notify : Node :=
  match n.pending with
  | none => n
  | some m =>
    if sub.hits m = true ∧ (n.skipThrough.any fun skip => skip < m.id) = true then
      { n with pending := none, sent := n.sent ++ [m] }
    else { n with pending := none }

/-- Registration and the first watermark, in one registry lock. -/
def subscribe : Node :=
  match n.phase with
  | .idle =>
    let watermark := n.store.queryMaxId
    let progress := sub.afterId.getD watermark
    { n with phase := .scanning ⟨progress, progress, progress, watermark, {}⟩ }
  | _ => n

/-- `arm_filter` and the return of `handle_subscribe`. -/
def armFilter (start watermark : ℤ) : Node :=
  { n with skipThrough := some watermark, phase := .returned start, owed := n.store }

def readChunk (r : Replay) (readOk : Bool) : Phase :=
  if r.cursor < r.watermark then
    if readOk then
      let chunk := n.store.queryHistoryChunk r.cursor r.watermark r.window.rows
      match chunk.getLast? with
      -- The ids were trimmed away.
      | none => .leaving r
      | some last => .sending { r with cursor := last.id } chunk chunk
    else .leaving r
  else .sampling r

def advance (readOk : Bool) : Node :=
  match n.phase with
  | .idle => n
  | .scanning r => { n with phase := n.readChunk r readOk }
  | .sending r chunk [] => { n with phase := .scanning { r with window := r.window.advance chunk } }
  | .sending r chunk (m :: rest) =>
    if sub.hits m then
      { n with phase := .sending { r with progress := m.id } chunk rest, sent := n.sent ++ [m] }
    else { n with phase := .sending r chunk rest }
  | .leaving r => n.armFilter r.start r.progress
  | .sampling r =>
    let watermark := n.store.queryMaxId
    if r.cursor ≥ watermark then
      { n with phase := .confirming { r with watermark := watermark } }
    else { n with phase := .scanning { r with watermark := watermark } }
  | .confirming r =>
    let sampled := n.store.queryMaxId
    if r.cursor ≥ sampled then n.armFilter r.start sampled
    else { n with phase := .scanning { r with watermark := sampled } }
  | .returned _ => n

def step (n : Node) : Event → Node
  | .publish channel ts payload =>
    if n.pending = none then n.publish channel ts payload else n
  | .notify => n.notify sub
  | .trim channel keep =>
    if n.pending = none ∧ 1 ≤ keep then { n with store := n.store.storeTrim channel keep } else n
  | .subscribe => n.subscribe sub
  | .advance readOk => n.advance sub readOk

def run (events : List Event) : Node := events.foldl (step sub) {}

/-! ## Delivery -/

/-- Ids go up along the frames; after the return each message the subscription is
owed is among them once, unless its publish still has to notify. -/
def HandedOff (n : Node) : Prop :=
  Store.InOrder n.sent ∧
    ∀ start, n.phase = .returned start →
      ∀ m ∈ n.owed, sub.hits m = true → start < m.id → n.pending ≠ some m → n.sent.count m = 1

/-- The replay does not leave early while a matching message above the last one it
delivered has been notified already. -/
def Fit (n : Node) : Event → Prop
  | .advance _ => ∀ r, n.phase = .leaving r →
      ∀ m ∈ n.store, sub.hits m = true → r.progress < m.id → n.pending = some m
  | _ => True

/-! ## The invariant of the replay -/

/-- What the replay has delivered: every stored row up to its cursor that matches,
except those still to go out of the chunk. -/
structure CaughtUp (store : Store) (sent : List StoredMessage) (r : Replay)
    (rest : List StoredMessage) : Prop where
  start_le : r.start ≤ r.progress
  progress_le : r.progress ≤ r.cursor
  -- A subscriber may start above every id of the store.
  cursor_le : r.cursor = r.start ∨ r.cursor ≤ store.queryMaxId
  sent_le : ∀ m ∈ sent, m.id ≤ r.progress
  restInOrder : Store.InOrder rest
  rest_mem : ∀ m ∈ rest, r.progress < m.id ∧ m.id ≤ store.queryMaxId ∧ m.id ≤ r.cursor
  covered : ∀ m ∈ store, sub.hits m = true → r.start < m.id → m.id ≤ r.cursor →
    m ∈ sent ∨ m ∈ rest

/-- What is sent after the return: the filter lies below new ids, and a message that
is owed was sent or will be when its publish notifies. -/
structure Live (n : Node) (start skip : ℤ) : Prop where
  armed : n.skipThrough = some skip
  skip_le : skip ≤ n.store.queryMaxId
  pending_last : ∀ m, n.pending = some m → skip < m.id → ∀ x ∈ n.sent, x.id < m.id
  owed : ∀ m ∈ n.owed, sub.hits m = true → start < m.id →
    m ∈ n.sent ∨ n.pending = some m ∧ skip < m.id

/-- Live pushes are suppressed until the return. -/
def PhaseInv (n : Node) : Phase → Prop
  | .idle => n.skipThrough = none ∧ n.sent = []
  | .scanning r => n.skipThrough = none ∧ CaughtUp sub n.store n.sent r [] ∧
      r.watermark ≤ n.store.queryMaxId
  | .sending r _ rest => n.skipThrough = none ∧ CaughtUp sub n.store n.sent r rest ∧
      r.watermark ≤ n.store.queryMaxId
  | .leaving r => n.skipThrough = none ∧ CaughtUp sub n.store n.sent r [] ∧
      r.progress ≤ n.store.queryMaxId
  | .sampling r => n.skipThrough = none ∧ CaughtUp sub n.store n.sent r []
  | .confirming r => n.skipThrough = none ∧ CaughtUp sub n.store n.sent r []
  | .returned start => ∃ skip, Live sub n start skip

structure Inv (n : Node) : Prop where
  inOrder : Store.InOrder n.store
  pending_top : ∀ m, n.pending = some m → m.id = n.store.queryMaxId
  sentInOrder : Store.InOrder n.sent
  sent_le : ∀ m ∈ n.sent, m.id ≤ n.store.queryMaxId
  phase : PhaseInv sub n n.phase

variable {sub n} {store store' : Store} {sent rest : List StoredMessage} {r : Replay}

theorem CaughtUp.follows (h : CaughtUp sub store sent r rest) (hstore : Store.Follows store store') :
    CaughtUp sub store' sent r rest where
  start_le := h.start_le
  progress_le := h.progress_le
  cursor_le := h.cursor_le.imp_right fun hle => hle.trans hstore.top
  sent_le := h.sent_le
  restInOrder := h.restInOrder
  rest_mem m hm :=
    ⟨(h.rest_mem m hm).1, (h.rest_mem m hm).2.1.trans hstore.top, (h.rest_mem m hm).2.2⟩
  covered m hm hhit hstart hcursor := by
    rcases hstore.old m hm with hold | hnew
    · exact h.covered m hold hhit hstart hcursor
    · -- New ids are above the cursor.
      rcases h.cursor_le with heq | hle
      · omega
      · omega

/-- The phases before the return only look at the store and the frames. -/
theorem PhaseInv.follows {n' : Node} {phase : Phase} (h : PhaseInv sub n phase)
    (hstore : Store.Follows n.store n'.store) (hskip : n'.skipThrough = n.skipThrough)
    (hsent : n'.sent = n.sent) (hphase : ∀ start, phase ≠ .returned start) :
    PhaseInv sub n' phase := by
  cases phase with
  | idle => exact ⟨hskip.trans h.1, hsent.trans h.2⟩
  | scanning r =>
    exact ⟨hskip.trans h.1, hsent ▸ h.2.1.follows hstore, h.2.2.trans hstore.top⟩
  | sending r chunk rest =>
    exact ⟨hskip.trans h.1, hsent ▸ h.2.1.follows hstore, h.2.2.trans hstore.top⟩
  | leaving r =>
    exact ⟨hskip.trans h.1, hsent ▸ h.2.1.follows hstore, h.2.2.trans hstore.top⟩
  | sampling r => exact ⟨hskip.trans h.1, hsent ▸ h.2.follows hstore⟩
  | confirming r => exact ⟨hskip.trans h.1, hsent ▸ h.2.follows hstore⟩
  | returned start => exact absurd rfl (hphase start)

/-! ## Steps -/

theorem Inv.publish (h : Inv sub n) (hpending : n.pending = none) (channel : String) (ts : ℤ)
    (payload : String) : Inv sub (n.publish channel ts payload) := by
  obtain ⟨hstore, htop⟩ := Store.storeInsert_spec h.inOrder channel ts payload
  refine ⟨hstore.inOrder, fun m hm => ?_, h.sentInOrder,
    fun m hm => (h.sent_le m hm).trans hstore.top, ?_⟩
  · obtain rfl := Option.some.inj hm
    exact htop.symm
  · have hphase := h.phase
    show PhaseInv sub (n.publish channel ts payload) n.phase
    cases hp : n.phase with
    | returned start =>
      rw [hp] at hphase
      obtain ⟨skip, hlive⟩ := hphase
      refine ⟨skip, hlive.armed, hlive.skip_le.trans hstore.top, fun m hm _ x hx => ?_, ?_⟩
      · obtain rfl := Option.some.inj hm
        exact (h.sent_le x hx).trans_lt (Int.lt_add_one_of_le (le_refl _))
      · intro m hm hhit hstart
        have howed : (n.publish channel ts payload).owed =
            n.owed ++ [(n.store.storeInsert channel ts payload).2] := by
          simp only [Node.publish, hp]
        rw [howed] at hm
        rcases List.mem_append.mp hm with hold | hnew
        · rcases hlive.owed m hold hhit hstart with hsent | ⟨hpend, -⟩
          · exact .inl hsent
          · rw [hpending] at hpend
            cases hpend
        · obtain rfl := List.mem_singleton.mp hnew
          exact .inr ⟨rfl, hlive.skip_le.trans_lt (Int.lt_add_one_of_le (le_refl _))⟩
    | _ => exact (hp ▸ hphase : PhaseInv sub n _).follows hstore rfl rfl nofun

theorem Inv.trim (h : Inv sub n) (hpending : n.pending = none) (channel : String) (keep : ℤ) :
    Inv sub { n with store := n.store.storeTrim channel keep } := by
  obtain ⟨hstore, htop⟩ := Store.storeTrim_spec h.inOrder channel keep
  refine ⟨hstore.inOrder, fun m hm => ?_, h.sentInOrder,
    fun m hm => (h.sent_le m hm).trans hstore.top, ?_⟩
  · exact absurd (hpending.symm.trans hm) nofun
  · have hphase := h.phase
    show PhaseInv sub { n with store := n.store.storeTrim channel keep } n.phase
    cases hp : n.phase with
    | returned start =>
      rw [hp] at hphase
      obtain ⟨skip, hlive⟩ := hphase
      exact ⟨skip, hlive.armed, hlive.skip_le.trans hstore.top, hlive.pending_last, hlive.owed⟩
    | _ => exact (hp ▸ hphase : PhaseInv sub n _).follows hstore rfl rfl nofun

/-- Before the return a notify changes nothing but the pending message. -/
theorem Inv.notify_suppressed (h : Inv sub n) (hskip : n.skipThrough = none)
    (hphase : ∀ start, n.phase ≠ .returned start) : Inv sub (n.notify sub) := by
  unfold Node.notify
  split
  · exact h
  · rw [if_neg (by simp [hskip])]
    exact ⟨h.inOrder, nofun, h.sentInOrder, h.sent_le,
      h.phase.follows (Store.Follows.refl h.inOrder) rfl rfl hphase⟩

theorem Inv.notify_live (h : Inv sub n) {start skip : ℤ} (hphase : n.phase = .returned start)
    (hlive : Live sub n start skip) : Inv sub (n.notify sub) := by
  unfold Node.notify
  split
  · exact h
  · rename_i m hpending
    have hpass : (n.skipThrough.any fun skip => skip < m.id) = true ↔ skip < m.id := by
      rw [hlive.armed, Option.any_some, decide_eq_true_iff]
    split
    · rename_i hpush
      have hlast := hlive.pending_last m hpending (hpass.mp hpush.2)
      refine ⟨h.inOrder, nofun, h.sentInOrder.append hlast, fun x hx => ?_, ?_⟩
      · rcases List.mem_append.mp hx with hold | hnew
        · exact h.sent_le x hold
        · obtain rfl := List.mem_singleton.mp hnew
          exact (h.pending_top x hpending).le
      · rw [hphase]
        refine ⟨skip, hlive.armed, hlive.skip_le, nofun, fun x hx hhit hstart => .inl ?_⟩
        rcases hlive.owed x hx hhit hstart with hsent | ⟨hpend, -⟩
        · exact List.mem_append_left _ hsent
        · obtain rfl := Option.some.inj (hpending.symm.trans hpend)
          exact List.mem_append_right _ (List.mem_singleton_self _)
    · rename_i hpush
      refine ⟨h.inOrder, nofun, h.sentInOrder, h.sent_le, ?_⟩
      rw [hphase]
      refine ⟨skip, hlive.armed, hlive.skip_le, nofun, fun x hx hhit hstart => .inl ?_⟩
      rcases hlive.owed x hx hhit hstart with hsent | ⟨hpend, hlt⟩
      · exact hsent
      · obtain rfl := Option.some.inj (hpending.symm.trans hpend)
        exact absurd ⟨hhit, hpass.mpr hlt⟩ hpush

theorem PhaseInv.suppressed {phase : Phase} (h : PhaseInv sub n phase)
    (hphase : ∀ start, phase ≠ .returned start) : n.skipThrough = none := by
  cases phase with
  | returned start => exact absurd rfl (hphase start)
  | _ => exact h.1

theorem Inv.notify (h : Inv sub n) : Inv sub (n.notify sub) := by
  by_cases hreturned : ∃ start, n.phase = .returned start
  · obtain ⟨start, hphase⟩ := hreturned
    have hlive := h.phase
    rw [hphase] at hlive
    obtain ⟨skip, hlive⟩ := hlive
    exact h.notify_live hphase hlive
  · have hphase : ∀ start, n.phase ≠ .returned start := not_exists.mp hreturned
    exact h.notify_suppressed (h.phase.suppressed hphase) hphase

theorem Inv.subscribe (h : Inv sub n) : Inv sub (n.subscribe sub) := by
  have hphase := h.phase
  unfold Node.subscribe
  split
  · rename_i hidle
    rw [hidle] at hphase
    obtain ⟨hskip, hsent⟩ := hphase
    refine ⟨h.inOrder, h.pending_top, h.sentInOrder, h.sent_le, hskip, ?_, le_refl _⟩
    exact ⟨le_refl _, le_refl _, .inl rfl, by simp [hsent], List.Pairwise.nil, by simp,
      fun m _ _ hstart hcursor => absurd hcursor (not_le.mpr hstart)⟩
  · exact h

/-- Other fields of the node stay. -/
theorem Inv.enter (h : Inv sub n) {phase : Phase}
    (hphase : PhaseInv sub { n with phase := phase } phase) :
    Inv sub { n with phase := phase } :=
  ⟨h.inOrder, h.pending_top, h.sentInOrder, h.sent_le, hphase⟩

theorem Inv.readChunk (h : Inv sub n) (readOk : Bool) (hphase : n.phase = .scanning r) :
    Inv sub { n with phase := n.readChunk r readOk } := by
  have hscan := h.phase
  rw [hphase] at hscan
  obtain ⟨hskip, hup, hwater⟩ := hscan
  have hprogress := hup.progress_le
  apply h.enter
  unfold Node.readChunk
  split
  · rename_i hlt
    have hbelow : r.progress ≤ n.store.queryMaxId := (hprogress.trans hlt.le).trans hwater
    split
    · dsimp only
      split
      · exact ⟨hskip, hup, hbelow⟩
      · rename_i last hlast
        obtain ⟨horder, hmem, hall⟩ := Store.queryHistoryChunk_spec h.inOrder
          (rfl : n.store.queryHistoryChunk r.cursor r.watermark r.window.rows = _)
        have hlastMem := hmem last (List.mem_of_getLast? hlast)
        have hlastTop := Store.le_queryMaxId hlastMem.1
        refine ⟨hskip, ⟨hup.start_le, hprogress.trans hlastMem.2.le, .inr hlastTop, hup.sent_le,
          horder, ?_, ?_⟩, hwater⟩
        · intro m hm
          exact ⟨hprogress.trans_lt (hmem m hm).2, Store.le_queryMaxId (hmem m hm).1,
            horder.le_last hlast hm⟩
        · intro m hm hhit hstart hcursor
          by_cases hold : m.id ≤ r.cursor
          · exact (hup.covered m hm hhit hstart hold).imp_right nofun
          · exact .inr (hall last hlast m hm (not_le.mp hold) hcursor)
    · exact ⟨hskip, hup, hbelow⟩
  · exact ⟨hskip, hup⟩

/-- Rows of the chunk that do not match are dropped. -/
theorem Inv.sendNext (h : Inv sub n) {chunk : List StoredMessage} {m : StoredMessage}
    (hphase : n.phase = .sending r chunk (m :: rest)) (readOk : Bool) :
    Inv sub (n.advance sub readOk) := by
  have hsend := h.phase
  rw [hphase] at hsend
  obtain ⟨hskip, hup, hwater⟩ := hsend
  have hm := hup.rest_mem m List.mem_cons_self
  have hrest := List.pairwise_cons.mp hup.restInOrder
  unfold Node.advance
  rw [hphase]
  dsimp only
  split
  · have hlast : ∀ x ∈ n.sent, x.id < m.id := fun x hx => (hup.sent_le x hx).trans_lt hm.1
    refine ⟨h.inOrder, h.pending_top, h.sentInOrder.append hlast, ?_, hskip, ?_, hwater⟩
    · intro x hx
      rcases List.mem_append.mp hx with hold | hnew
      · exact h.sent_le x hold
      · obtain rfl := List.mem_singleton.mp hnew
        exact hm.2.1
    · refine ⟨hup.start_le.trans hm.1.le, hm.2.2, hup.cursor_le, ?_, hrest.2, ?_, ?_⟩
      · intro x hx
        rcases List.mem_append.mp hx with hold | hnew
        · exact (hlast x hold).le
        · obtain rfl := List.mem_singleton.mp hnew
          exact le_refl _
      · intro x hx
        exact ⟨hrest.1 x hx, (hup.rest_mem x (List.mem_cons_of_mem _ hx)).2⟩
      · intro x hx hhit hstart hcursor
        rcases hup.covered x hx hhit hstart hcursor with hsent | hmem
        · exact .inl (List.mem_append_left _ hsent)
        · rcases List.mem_cons.mp hmem with rfl | hmem
          · exact .inl (List.mem_append_right _ (List.mem_singleton_self _))
          · exact .inr hmem
  · rename_i hmiss
    refine h.enter ⟨hskip, ⟨hup.start_le, hup.progress_le, hup.cursor_le, hup.sent_le, hrest.2,
      fun x hx => hup.rest_mem x (List.mem_cons_of_mem _ hx), ?_⟩, hwater⟩
    intro x hx hhit hstart hcursor
    refine (hup.covered x hx hhit hstart hcursor).imp_right fun hmem => ?_
    rcases List.mem_cons.mp hmem with rfl | hmem
    · exact absurd hhit hmiss
    · exact hmem

theorem Inv.armFilter (h : Inv sub n) {start skip : ℤ} (hskip : skip ≤ n.store.queryMaxId)
    (hlast : ∀ m, n.pending = some m → skip < m.id → ∀ x ∈ n.sent, x.id < m.id)
    (hall : ∀ m ∈ n.store, sub.hits m = true → start < m.id →
      m ∈ n.sent ∨ n.pending = some m ∧ skip < m.id) : Inv sub (n.armFilter start skip) :=
  ⟨h.inOrder, h.pending_top, h.sentInOrder, h.sent_le, skip, rfl, hskip, hlast, hall⟩

/-- The early exit, when it fits. -/
theorem Inv.leave (h : Inv sub n) (hphase : n.phase = .leaving r)
    (hfit : ∀ m ∈ n.store, sub.hits m = true → r.progress < m.id → n.pending = some m) :
    Inv sub (n.armFilter r.start r.progress) := by
  have hleave := h.phase
  rw [hphase] at hleave
  obtain ⟨-, hup, hbelow⟩ := hleave
  refine h.armFilter hbelow (fun m _ hlt x hx => (hup.sent_le x hx).trans_lt hlt) ?_
  intro m hm hhit hstart
  by_cases hle : m.id ≤ r.progress
  · exact .inl ((hup.covered m hm hhit hstart (hle.trans hup.progress_le)).resolve_right nofun)
  · exact .inr ⟨hfit m hm hhit (not_le.mp hle), not_le.mp hle⟩

/-- The last sample is taken in the registry lock, so nothing was suppressed above it. -/
theorem Inv.confirm (h : Inv sub n) (hphase : n.phase = .confirming r) (readOk : Bool) :
    Inv sub (n.advance sub readOk) := by
  have hconfirm := h.phase
  rw [hphase] at hconfirm
  obtain ⟨hskip, hup⟩ := hconfirm
  unfold Node.advance
  rw [hphase]
  dsimp only
  split
  · rename_i hcursor
    refine h.armFilter (le_refl _) (fun m hpend hlt => ?_) fun m hm hhit hstart => .inl ?_
    · exact absurd (h.pending_top m hpend) hlt.ne'
    · have hle : m.id ≤ r.cursor := (Store.le_queryMaxId hm).trans hcursor
      exact (hup.covered m hm hhit hstart hle).resolve_right nofun
  · exact h.enter ⟨hskip, ⟨hup.start_le, hup.progress_le, hup.cursor_le, hup.sent_le,
      hup.restInOrder, hup.rest_mem, hup.covered⟩, le_refl _⟩

theorem Inv.sample (h : Inv sub n) (hphase : n.phase = .sampling r) (readOk : Bool) :
    Inv sub (n.advance sub readOk) := by
  have hsample := h.phase
  rw [hphase] at hsample
  obtain ⟨hskip, hup⟩ := hsample
  have hup' : CaughtUp sub n.store n.sent { r with watermark := n.store.queryMaxId } [] :=
    ⟨hup.start_le, hup.progress_le, hup.cursor_le, hup.sent_le, hup.restInOrder, hup.rest_mem,
      hup.covered⟩
  unfold Node.advance
  rw [hphase]
  dsimp only
  split
  · exact h.enter ⟨hskip, hup'⟩
  · exact h.enter ⟨hskip, hup', le_refl _⟩

theorem Inv.advance (h : Inv sub n) {readOk : Bool} (hfit : Fit sub n (.advance readOk)) :
    Inv sub (n.advance sub readOk) := by
  cases hphase : n.phase with
  | idle =>
    unfold Node.advance
    rw [hphase]
    exact h
  | scanning r =>
    have hread := h.readChunk readOk hphase
    unfold Node.advance
    rw [hphase]
    exact hread
  | sending r chunk rest =>
    cases rest with
    | nil =>
      have hsend := h.phase
      rw [hphase] at hsend
      obtain ⟨hskip, hup, hwater⟩ := hsend
      unfold Node.advance
      rw [hphase]
      exact h.enter ⟨hskip, ⟨hup.start_le, hup.progress_le, hup.cursor_le, hup.sent_le,
        hup.restInOrder, hup.rest_mem, hup.covered⟩, hwater⟩
    | cons m rest => exact h.sendNext hphase readOk
  | leaving r =>
    have hleave := h.leave hphase (hfit r hphase)
    unfold Node.advance
    rw [hphase]
    exact hleave
  | sampling r => exact h.sample hphase readOk
  | confirming r => exact h.confirm hphase readOk
  | returned start =>
    unfold Node.advance
    rw [hphase]
    exact h

theorem Inv.step (h : Inv sub n) {e : Event} (hfit : Fit sub n e) : Inv sub (step sub n e) := by
  cases e with
  | publish channel ts payload =>
    rw [Node.step]
    split
    · rename_i hpending
      exact h.publish hpending channel ts payload
    · exact h
  | notify => exact h.notify
  | trim channel keep =>
    rw [Node.step]
    split
    · rename_i hcan
      exact h.trim hcan.1 channel keep
    · exact h
  | subscribe => exact h.subscribe
  | advance readOk => exact h.advance hfit

theorem inv_start (sub : Subscription) : Inv sub {} :=
  ⟨List.Pairwise.nil, nofun, List.Pairwise.nil, by simp, rfl, rfl⟩

theorem InOrder.nodup (h : Store.InOrder sent) : sent.Nodup :=
  h.imp fun hlt heq => hlt.ne (congrArg StoredMessage.id heq)

theorem Inv.handedOff (h : Inv sub n) : HandedOff sub n := by
  refine ⟨h.sentInOrder, fun start hphase m hm hhit hstart hpending => ?_⟩
  have hlive := h.phase
  rw [hphase] at hlive
  obtain ⟨skip, hlive⟩ := hlive
  rcases hlive.owed m hm hhit hstart with hsent | ⟨hpend, -⟩
  · exact List.count_eq_one_of_mem (InOrder.nodup h.sentInOrder) hsent
  · exact absurd hpend hpending

/-- A message suppressed above `progress` is lost by the early exit. -/
theorem Inv.fit_of_handedOff (h : Inv sub n) {e : Event} (hoff : HandedOff sub (Node.step sub n e)) :
    Fit sub n e := by
  cases e with
  | advance readOk =>
    intro r hphase m hm hhit hlt
    have hleave := h.phase
    rw [hphase] at hleave
    obtain ⟨-, hup, -⟩ := hleave
    have hstep : Node.step sub n (.advance readOk) = n.armFilter r.start r.progress := by
      simp only [Node.step, Node.advance, hphase]
    rw [hstep] at hoff
    by_contra hpending
    have hcount := hoff.2 r.start rfl m hm hhit (hup.start_le.trans_lt hlt) hpending
    have hsent : m ∈ n.sent := List.count_pos_iff.mp (hcount.symm ▸ Nat.one_pos)
    exact absurd (hup.sent_le m hsent) (not_le.mpr hlt)
  | _ => trivial

/-- Every message reaches the subscriber once and in id order, in exactly those runs
whose early exits leave no notified message behind. -/
theorem delivered_exactly_once (sub : Subscription) (events : List Event) :
    (∀ done e, done ++ [e] <+: events → Fit sub (run sub done) e) ↔
      ∀ done, done <+: events → HandedOff sub (run sub done) :=
  Lib.Run.fit_iff_good (inv_start sub) (fun _ _ h hfit => h.step hfit)
    (fun _ h => h.handedOff) (fun _ _ h hoff => h.fit_of_handedOff hoff) events

/-- Message 2 is notified while the replay of message 1 is on its way, and a trim
removes message 1: the empty chunk ends the replay and 2 is never sent. -/
theorem trimmed_backlog_loses_message :
    ¬ ∀ (sub : Subscription) (events : List Event), HandedOff sub (run sub events) := by
  intro h
  have hlost := (h ⟨.channel, "c", some 0⟩
    [.publish "c" 0 "a", .notify, .subscribe, .publish "c" 0 "b", .notify, .trim "c" 1,
      .advance true, .advance true]).2 0 rfl ⟨2, "c", 0, "b"⟩
  revert hlost
  decide

end Node

end Docsql.PubSub
