import Mathlib.Data.List.Sort
import Docsql.Transport.Crypto

/-!
# What a keyed connection delivers

The counters of one process order its seals, the challenge ties a seal to its connection, and the
replay guard follows the prefix and the counters.
-/

namespace Docsql.Transport

variable {P C : Type} {net : Net P C} {aead : Aead}

/-! ## The guard over a stream -/

def checkAll (g : ReplayGuard) (fs : List Frame) : Except String ReplayGuard :=
  fs.foldlM (fun g f => g.check f.payload) g

theorem checkAll_snoc (g : ReplayGuard) (fs : List Frame) (f : Frame) :
    checkAll g (fs ++ [f]) = (checkAll g fs >>= fun g => g.check f.payload) := by
  rw [checkAll, List.foldlM_append]
  simp only [List.foldlM_cons, List.foldlM_nil, bind_pure]
  rfl

/-- A frame sealed under the given prefix and counter. -/
def SealedAs (noncePrefix : List UInt8) (counter : ℕ) (f : Frame) : Prop :=
  counter ≤ nonceCounterCap ∧ ∃ rest, f.payload = nonceBytes noncePrefix counter ++ rest

theorem checkAll_of_sealed {noncePrefix : List UInt8} (hlen : noncePrefix.length = 8)
    (fs : List (ℕ × Frame)) (hsealed : ∀ p ∈ fs, SealedAs noncePrefix p.1 p.2)
    (hordered : fs.Pairwise fun a b => a.1 < b.1) {g : ReplayGuard}
    (hg : ∀ p, g.noncePrefix = some p → p = noncePrefix ∧ ∀ a ∈ fs, g.last < a.1) :
    ∃ g', checkAll g (fs.map Prod.snd) = .ok g' := by
  induction fs generalizing g with
  | nil => exact ⟨g, rfl⟩
  | cons a fs ih =>
    obtain ⟨hfirst, hrest⟩ := List.pairwise_cons.1 hordered
    obtain ⟨hcap, rest, hbody⟩ := hsealed a List.mem_cons_self
    have hcheck : g.check a.2.payload = .ok ⟨some noncePrefix, a.1⟩ := by
      rw [hbody, check_nonceBytes g hlen hcap]
      split
      · rfl
      · rename_i p hp
        obtain ⟨rfl, hlast⟩ := hg p hp
        rw [if_pos rfl, if_pos (hlast a List.mem_cons_self)]
    obtain ⟨g', hg'⟩ := ih (g := ⟨some noncePrefix, a.1⟩)
      (fun p hp => hsealed p (List.mem_cons_of_mem _ hp)) hrest (by
        rintro p ⟨⟩
        exact ⟨rfl, hfirst⟩)
    refine ⟨g', ?_⟩
    rw [List.map_cons, checkAll, List.foldlM_cons, hcheck]
    exact hg'

/-! ## The invariant -/

/-- The frames an end accepted are the other end's, in the order of their counters. -/
def AcceptedFrom [DecidableEq C] (σ : State P C) (e : End C) : Prop :=
  ∃ rs : List (Seal C), (σ.ends e).accepted = rs.map Seal.frame ∧
    rs.Pairwise (fun a b => a.counter < b.counter) ∧
    (∀ r ∈ rs, r ∈ σ.sealsOf e.peer ∧ r.counter ≤ (σ.ends e).guard.last) ∧
    ((σ.ends e).guard.noncePrefix = none → rs = [])

/-- The guard has seen what was delivered. -/
structure Checked (es : EndState) : Prop where
  ok : es.isOpen = true → checkAll .default es.delivered = .ok es.guard
  refused : es.replayRefused = true → ∃ msg, checkAll .default es.delivered = .error msg

/-- What goes out for a seal. -/
def Seal.Honest (net : Net P C) (aead : Aead) (r : Seal C) : Prop :=
  r.wire = ⟨r.frame.frameType, r.frame.flags,
    nonceBytes (net.noncePrefix (net.proc r.sender)) r.counter ++
      aead.encrypt (nonceBytes (net.noncePrefix (net.proc r.sender)) r.counter)
        (aad r.frame.frameType r.frame.flags r.conn) r.frame.payload⟩

theorem Seal.Honest.nonce {r : Seal C} (h : r.Honest net aead) : nonceOf r.wire.payload =
    nonceBytes (net.noncePrefix (net.proc r.sender)) r.counter := by
  rw [h]
  exact nonceOf_append (net.length_noncePrefix _)

theorem inbound_eq (aead : Aead) (e : End C) :
    ∃ unencrypted, inbound aead e = receive aead unencrypted := by
  obtain ⟨c, _ | _⟩ := e
  · show ∃ unencrypted, handleConnection aead = receive aead unencrypted
    exact ⟨_, rfl⟩
  · show ∃ unencrypted, readResponseFrameWithGuard aead = receive aead unencrypted
    exact ⟨_, rfl⟩

theorem inbound_ok {e : End C} {conn : List UInt8} {g g' : ReplayGuard} {f f' : Frame}
    (h : inbound aead e conn g f = .ok (g', f')) :
    g.check f.payload = .ok g' ∧ f'.frameType = f.frameType ∧ f'.flags = f.flags ∧
      aead.decrypt (nonceOf f.payload) (aad f.frameType f.flags conn) (f.payload.drop 12) =
        some f'.payload := by
  obtain ⟨unencrypted, heq⟩ := inbound_eq aead e
  rw [heq] at h
  exact receive_ok h

theorem inbound_replay {e : End C} {conn : List UInt8} {g : ReplayGuard} {f : Frame} {msg : String}
    (h : inbound aead e conn g f = .error (.replay msg)) : g.check f.payload = .error msg := by
  obtain ⟨unencrypted, heq⟩ := inbound_eq aead e
  rw [heq] at h
  exact receive_replay h

/-- A copy of a sealed frame does not break the cipher. -/
theorem unforged_copy {σ : State P C} {e : End C} {f : Frame} (conn plain : List UInt8)
    (hhello : (σ.ends e).hello = some conn)
    (hopen : aead.decrypt (nonceOf f.payload) (aad f.frameType f.flags conn) (f.payload.drop 12) =
      some plain)
    (hsealed : ∃ r ∈ σ.seals, nonceOf r.wire.payload = nonceOf f.payload ∧
      aad r.frame.frameType r.frame.flags r.conn = aad f.frameType f.flags conn ∧
      r.frame.payload = plain) : Unforged aead σ (.deliver e f) := by
  intro conn' plain' hhello' hopen'
  cases hhello.symm.trans hhello'
  cases hopen.symm.trans hopen'
  exact hsealed

variable [DecidableEq C]

structure Inv (net : Net P C) (aead : Aead) (σ : State P C) : Prop where
  fresh : ∀ r ∈ σ.seals, r.counter < σ.counter (net.proc r.sender) ∧ r.counter ≤ nonceCounterCap
  ordered : σ.seals.Pairwise fun a b =>
    net.proc a.sender = net.proc b.sender → a.counter < b.counter
  honest : ∀ r ∈ σ.seals, r.Honest net aead
  conn : ∀ r ∈ σ.seals, r.conn = net.challenge r.sender.conn
  hello : ∀ e ch, (σ.ends e).hello = some ch → ch = net.challenge e.conn
  accepted : ∀ e, AcceptedFrom σ e
  checked : ∀ e, Checked (σ.ends e)

variable {σ : State P C}

theorem mem_sealsOf {r : Seal C} {e : End C} : r ∈ σ.sealsOf e ↔ r ∈ σ.seals ∧ r.sender = e := by
  simp [State.sealsOf]

/-- The seals of one end, in the order of their counters. -/
theorem Inv.sealsOf_ordered (hinv : Inv net aead σ) (e : End C) :
    (σ.sealsOf e).Pairwise fun a b => a.counter < b.counter := by
  have hpairs : (σ.sealsOf e).Pairwise fun a b =>
      net.proc a.sender = net.proc b.sender → a.counter < b.counter :=
    hinv.ordered.sublist List.filter_sublist
  refine hpairs.imp_of_mem fun {a b} ha hb hab => ?_
  rw [(mem_sealsOf.1 ha).2, (mem_sealsOf.1 hb).2] at hab
  exact hab rfl

theorem Inv.nonces_nodup (hinv : Inv net aead σ) :
    (σ.seals.map fun r => nonceOf r.wire.payload).Nodup := by
  refine List.pairwise_map.2 (hinv.ordered.imp_of_mem fun {a b} ha hb hab heq => ?_)
  rw [(hinv.honest a ha).nonce, (hinv.honest b hb).nonce] at heq
  obtain ⟨hstart, hcounter⟩ := nonceBytes_inj (net.length_noncePrefix _)
    (net.length_noncePrefix _) (hinv.fresh a ha).2 (hinv.fresh b hb).2 heq
  exact (hab (net.noncePrefix_injective hstart)).ne hcounter

theorem Inv.accepted_sublist (hinv : Inv net aead σ) (e : End C) :
    ((σ.ends e).accepted).Sublist (σ.sealedBy e.peer) := by
  obtain ⟨rs, haccepted, hpairs, hmem, -⟩ := hinv.accepted e
  have hnodup : rs.Nodup := hpairs.imp fun hlt heq => by
    rw [heq] at hlt
    exact lt_irrefl _ hlt
  have hsub : rs.Sublist (σ.sealsOf e.peer) := by
    have hasymm : Std.Antisymm fun a b : Seal C => a.counter < b.counter :=
      ⟨fun a b hab hba => absurd hba (lt_asymm hab)⟩
    exact List.sublist_of_subperm_of_pairwise
      (List.subperm_of_subset hnodup fun r hr => (hmem r hr).1) hpairs (hinv.sealsOf_ordered _)
  rw [haccepted]
  exact hsub.map Seal.frame

/-- A stream of what the other end sent passes the guard. -/
theorem Inv.unattacked (hinv : Inv net aead σ) (e : End C)
    (h : (σ.ends e).delivered <+: σ.sentBy e.peer) : (σ.ends e).replayRefused = false := by
  refine eq_false_of_ne_true fun hrefused => ?_
  obtain ⟨msg, hmsg⟩ := (hinv.checked e).refused hrefused
  obtain ⟨n, hn⟩ : ∃ n, (σ.ends e).delivered = (σ.sentBy e.peer).take n :=
    ⟨_, List.prefix_iff_eq_take.1 h⟩
  obtain ⟨g, hg⟩ := checkAll_of_sealed (g := .default)
    (net.length_noncePrefix (net.proc e.peer))
    (((σ.sealsOf e.peer).take n).map fun r => (r.counter, r.wire)) (by
      intro p hp
      obtain ⟨r, hr, rfl⟩ := List.mem_map.1 hp
      obtain ⟨hseal, hsender⟩ := mem_sealsOf.1 (List.mem_of_mem_take hr)
      refine ⟨(hinv.fresh r hseal).2, ?_⟩
      have hbody := congrArg Frame.payload (hinv.honest r hseal)
      rw [hsender] at hbody
      exact ⟨_, hbody⟩) (by
      refine List.pairwise_map.2 ?_
      exact (hinv.sealsOf_ordered e.peer).sublist (List.take_sublist n _)) nofun
  have hfs : (((σ.sealsOf e.peer).take n).map fun r => (r.counter, r.wire)).map Prod.snd =
      (σ.ends e).delivered := by
    rw [hn, State.sentBy, ← List.map_take, List.map_map]
    rfl
  rw [hfs, hmsg] at hg
  cases hg

theorem Inv.delivers (hinv : Inv net aead σ) : Delivers σ :=
  ⟨hinv.accepted_sublist, hinv.nonces_nodup, hinv.unattacked⟩

/-! ## Steps -/

theorem inv_init : Inv net aead (init net : State P C) where
  fresh := by simp [init]
  ordered := List.Pairwise.nil
  honest := by simp [init]
  conn := by simp [init]
  hello e ch h := by
    obtain ⟨c, _ | _⟩ := e
    · exact (Option.some.inj h).symm
    · cases h
  accepted e := ⟨[], rfl, List.Pairwise.nil, by simp, fun _ => rfl⟩
  checked e := ⟨fun _ => rfl, nofun⟩

@[simp] theorem setEnd_self (e : End C) (es : EndState) : (σ.setEnd e es).ends e = es := by
  simp [State.setEnd]

theorem setEnd_of_ne {e e' : End C} (h : e' ≠ e) (es : EndState) :
    (σ.setEnd e es).ends e' = σ.ends e' := by
  simp [State.setEnd, h]

/-- One end changes, and nothing is sealed. -/
theorem Inv.setEnd (hinv : Inv net aead σ) {e : End C} {es : EndState}
    (hhello : ∀ ch, es.hello = some ch → ch = net.challenge e.conn)
    (haccepted : AcceptedFrom (σ.setEnd e es) e) (hchecked : Checked es) :
    Inv net aead (σ.setEnd e es) where
  fresh := hinv.fresh
  ordered := hinv.ordered
  honest := hinv.honest
  conn := hinv.conn
  hello e' ch h := by
    by_cases he : e' = e
    · subst he
      rw [setEnd_self] at h
      exact hhello ch h
    · rw [setEnd_of_ne he] at h
      exact hinv.hello e' ch h
  accepted e' := by
    by_cases he : e' = e
    · subst he
      exact haccepted
    · have hold := hinv.accepted e'
      rw [AcceptedFrom] at hold ⊢
      rwa [setEnd_of_ne he]
  checked e' := by
    by_cases he : e' = e
    · subst he
      rwa [setEnd_self]
    · rw [setEnd_of_ne he]
      exact hinv.checked e'

/-- The frames accepted so far stay what they were. -/
theorem AcceptedFrom.setEnd {e : End C} {es : EndState} (h : AcceptedFrom σ e)
    (haccepted : es.accepted = (σ.ends e).accepted) (hguard : es.guard = (σ.ends e).guard) :
    AcceptedFrom (σ.setEnd e es) e := by
  rw [AcceptedFrom, setEnd_self, haccepted, hguard]
  exact h

theorem Inv.helloStep (hinv : Inv net aead σ) {c : C} {f : Frame}
    (hbound : Bound net σ (.hello c f)) : Inv net aead (helloStep σ c f) := by
  rw [Transport.helloStep]
  split
  · rename_i hopen
    split
    · rename_i ch hch
      refine hinv.setEnd ?_ ((hinv.accepted _).setEnd rfl rfl) ?_
      · rintro ch' ⟨⟩
        exact hbound ch hch
      · exact ⟨(hinv.checked _).ok, (hinv.checked _).refused⟩
    · refine hinv.setEnd (hinv.hello _) ((hinv.accepted _).setEnd rfl rfl) ?_
      exact ⟨nofun, (hinv.checked _).refused⟩
  · exact hinv

/-- A counter that moves on keeps the seals below it. -/
theorem Inv.bump [DecidableEq P] (hinv : Inv net aead σ) {p : P}
    (hwrap : σ.counter p + 1 < 2 ^ 64) : Inv net aead { σ with
      counter := Function.update σ.counter p ((σ.counter p + 1) % 2 ^ 64) } where
  fresh r hr := by
    refine ⟨?_, (hinv.fresh r hr).2⟩
    have hold := (hinv.fresh r hr).1
    by_cases hp : net.proc r.sender = p
    · rw [hp] at hold ⊢
      simp only [Function.update_self, Nat.mod_eq_of_lt hwrap]
      omega
    · simpa only [Function.update_of_ne hp] using hold
  ordered := hinv.ordered
  honest := hinv.honest
  conn := hinv.conn
  hello := hinv.hello
  accepted := hinv.accepted
  checked := hinv.checked

/-- A new seal comes after all others of its process. -/
theorem Inv.addSeal (hinv : Inv net aead σ) {r : Seal C}
    (hfresh : r.counter < σ.counter (net.proc r.sender) ∧ r.counter ≤ nonceCounterCap)
    (hlast : ∀ a ∈ σ.seals, net.proc a.sender = net.proc r.sender → a.counter < r.counter)
    (hhonest : r.Honest net aead) (hconn : r.conn = net.challenge r.sender.conn) :
    Inv net aead { σ with seals := σ.seals ++ [r] } where
  fresh := by
    intro a ha
    rcases List.mem_append.1 ha with ha | ha
    · exact hinv.fresh a ha
    · rw [List.mem_singleton.1 ha]
      exact hfresh
  ordered := by
    refine List.pairwise_append.2 ⟨hinv.ordered, List.pairwise_singleton _ _, ?_⟩
    intro a ha b hb
    rw [List.mem_singleton.1 hb]
    exact hlast a ha
  honest := by
    intro a ha
    rcases List.mem_append.1 ha with ha | ha
    · exact hinv.honest a ha
    · rw [List.mem_singleton.1 ha]
      exact hhonest
  conn := by
    intro a ha
    rcases List.mem_append.1 ha with ha | ha
    · exact hinv.conn a ha
    · rw [List.mem_singleton.1 ha]
      exact hconn
  hello := hinv.hello
  accepted e := by
    obtain ⟨rs, haccepted, hpairs, hmem, hnone⟩ := hinv.accepted e
    refine ⟨rs, haccepted, hpairs, fun a ha => ⟨?_, (hmem a ha).2⟩, hnone⟩
    obtain ⟨hseal, hsender⟩ := mem_sealsOf.1 (hmem a ha).1
    exact mem_sealsOf.2 ⟨List.mem_append_left _ hseal, hsender⟩
  checked := hinv.checked

theorem sealBody_ok {noncePrefix plain conn payload : List UInt8} {counter : ℕ}
    {frameType flags : UInt16}
    (h : sealBody aead noncePrefix counter frameType flags plain conn = .ok payload) :
    counter ≤ nonceCounterCap ∧ payload = nonceBytes noncePrefix counter ++
      aead.encrypt (nonceBytes noncePrefix counter) (aad frameType flags conn) plain := by
  obtain ⟨nonce, hnonce, h⟩ := Except.bind_eq_ok_iff.1 h
  unfold nextNonce at hnonce
  split_ifs at hnonce with hcap
  cases hnonce
  cases h
  exact ⟨not_lt.1 hcap, rfl⟩

theorem Inv.sealStep [DecidableEq P] (hinv : Inv net aead σ) {e : End C} {frameType flags : UInt16}
    {plain : List UInt8} (hbound : Bound net σ (.send e frameType flags plain)) :
    Inv net aead (sealStep net aead σ e frameType flags plain) := by
  have hwrap : σ.counter (net.proc e) + 1 < 2 ^ 64 := hbound
  rw [Transport.sealStep]
  split
  · rename_i conn _ hhello
    have hbump := hinv.bump hwrap
    simp only
    split
    · exact hbump
    · rename_i payload hseal
      obtain ⟨hcap, rfl⟩ := sealBody_ok hseal
      refine hbump.addSeal ⟨?_, hcap⟩ ?_ rfl (hinv.hello e conn hhello)
      · simp only [Function.update_self, Nat.mod_eq_of_lt hwrap]
        exact Nat.lt_succ_self _
      · intro a ha hproc
        have hlt := (hinv.fresh a ha).1
        rwa [hproc] at hlt
  · exact hinv

/-- A frame that passes the check of an end is one that the other end sealed. -/
theorem Inv.accepts (hlaw : aead.Lawful) (hinv : Inv net aead σ) {e : End C} {f f' : Frame}
    {conn : List UInt8} {g' : ReplayGuard} (hideal : Unforged aead σ (.deliver e f))
    (hbound : Bound net σ (.deliver e f)) (hhello : (σ.ends e).hello = some conn)
    (hcheck : (σ.ends e).guard.check f.payload = .ok g') (htype : f'.frameType = f.frameType)
    (hflags : f'.flags = f.flags)
    (hopen : aead.decrypt (nonceOf f.payload) (aad f.frameType f.flags conn) (f.payload.drop 12) =
      some f'.payload) :
    ∃ r ∈ σ.sealsOf e.peer, r.frame = f' ∧ ∃ rest, f.payload =
      nonceBytes (net.noncePrefix (net.proc r.sender)) r.counter ++ rest := by
  obtain ⟨r, hr, hnonce, haad, hplain⟩ := hideal conn f'.payload hhello hopen
  obtain ⟨htype', hflags', hconn⟩ := aad_injective haad
  have hwire := hinv.honest r hr
  have hnonce' := hwire.nonce
  have hbody : f.payload = r.wire.payload := by
    have hrest := hlaw.opens_only _ _ _ _ hopen
    rw [← List.take_append_drop 12 f.payload, hrest]
    show nonceOf f.payload ++ _ = _
    rw [← hnonce, hnonce', hwire, htype', hflags', hconn, hplain]
  have hcopy : r.wire = f := by
    rw [hwire] at hbody ⊢
    obtain ⟨frameType, flags, payload⟩ := f
    simp only at htype' hflags' hbody
    rw [htype', hflags', hbody, htype', hflags']
  have hsame : r.sender.conn = e.conn := by
    rw [hinv.conn r hr, hinv.hello e conn hhello] at hconn
    exact net.challenge_injective hconn
  have hpeer : r.sender = e.peer := by
    obtain ⟨⟨c, side⟩, _⟩ := r
    obtain ⟨c', side'⟩ := e
    obtain rfl : c = c' := hsame
    have hne : side ≠ side' := by
      rintro rfl
      refine hbound ?_ g' hcheck
      exact List.mem_map.2 ⟨_, mem_sealsOf.2 ⟨hr, rfl⟩, hcopy⟩
    cases side <;> cases side' <;> first | rfl | exact absurd rfl hne
  refine ⟨r, mem_sealsOf.2 ⟨hr, hpeer⟩, ?_, ⟨_, by rw [hbody, hwire]⟩⟩
  obtain ⟨frameType, flags, payload⟩ := f'
  simp only at htype hflags hplain
  rw [htype, hflags, ← htype', ← hflags', ← hplain]

theorem Inv.deliverStep (hlaw : aead.Lawful) (hinv : Inv net aead σ) {e : End C} {f : Frame}
    (hideal : Unforged aead σ (.deliver e f)) (hbound : Bound net σ (.deliver e f)) :
    Inv net aead (deliverStep aead σ e f) := by
  rw [Transport.deliverStep]
  split
  · rename_i conn hopen hhello
    have hseen := (hinv.checked e).ok hopen
    have hnotRefused : (σ.ends e).replayRefused = true → False := by
      intro h
      obtain ⟨msg, hmsg⟩ := (hinv.checked e).refused h
      rw [hseen] at hmsg
      cases hmsg
    have hchecked : checkAll .default ((σ.ends e).delivered ++ [f]) =
        (σ.ends e).guard.check f.payload := by
      rw [checkAll_snoc, hseen]
      rfl
    simp only
    split
    · rename_i g' f' hok
      obtain ⟨hcheck, htype, hflags, hdec⟩ := inbound_ok hok
      obtain ⟨r, hr, rfl, rest, hbody⟩ :=
        hinv.accepts hlaw hideal hbound hhello hcheck htype hflags hdec
      obtain ⟨rs, haccepted, hpairs, hmem, hnone⟩ := hinv.accepted e
      obtain ⟨hseal, -⟩ := mem_sealsOf.1 hr
      obtain ⟨rfl, hlast⟩ := check_ok (net.length_noncePrefix _) (hinv.fresh r hseal).2
        (hbody ▸ hcheck)
      have hbefore : ∀ a ∈ rs, a.counter < r.counter := by
        intro a ha
        cases hg : (σ.ends e).guard.noncePrefix with
        | none =>
          rw [hnone hg] at ha
          cases ha
        | some p => exact lt_of_le_of_lt (hmem a ha).2 (hlast p hg).2
      refine hinv.setEnd (hinv.hello e) ⟨rs ++ [r], ?_, ?_, ?_, ?_⟩ ⟨fun _ => ?_, ?_⟩
      · rw [setEnd_self, List.map_append, ← haccepted]
        rfl
      · refine List.pairwise_append.2 ⟨hpairs, List.pairwise_singleton _ _, ?_⟩
        intro a ha b hb
        rw [List.mem_singleton.1 hb]
        exact hbefore a ha
      · intro a ha
        rw [setEnd_self]
        rcases List.mem_append.1 ha with ha | ha
        · exact ⟨(hmem a ha).1, (hbefore a ha).le⟩
        · rw [List.mem_singleton.1 ha]
          exact ⟨hr, le_rfl⟩
      · rw [setEnd_self]
        nofun
      · exact hchecked.trans hcheck
      · exact fun h => absurd h hnotRefused
    · rename_i msg hreplay
      refine hinv.setEnd (hinv.hello e) ((hinv.accepted e).setEnd rfl rfl) ⟨nofun, fun _ => ?_⟩
      exact ⟨msg, hchecked.trans (inbound_replay hreplay)⟩
    · refine hinv.setEnd (hinv.hello e) ((hinv.accepted e).setEnd rfl rfl) ⟨nofun, ?_⟩
      exact fun h => absurd h hnotRefused
  · exact hinv

theorem Inv.step [DecidableEq P] (hlaw : aead.Lawful) (hinv : Inv net aead σ) {s : Step C}
    (hideal : Unforged aead σ s) (hbound : Bound net σ s) : Inv net aead (step net aead σ s) := by
  cases s with
  | hello c f => exact hinv.helloStep hbound
  | send e frameType flags plain => exact hinv.sealStep hbound
  | deliver e f => exact hinv.deliverStep hlaw hideal hbound

/-! ## Runs -/

theorem delivers_of_bound [DecidableEq P] (net : Net P C) (hlaw : aead.Lawful)
    {steps : List (Step C)}
    (hideal : ∀ done s, done ++ [s] <+: steps → Unforged aead (run net aead done) s)
    (hbound : ∀ done s, done ++ [s] <+: steps → Bound net (run net aead done) s)
    {done : List (Step C)} (hdone : done <+: steps) : Delivers (run net aead done) :=
  (Lib.Run.inv_of_fit (F := fun σ s => Unforged aead σ s ∧ Bound net σ s) inv_init
    (fun _ _ hinv hfit => hinv.step hlaw hfit.1 hfit.2)
    (fun done s h => ⟨hideal done s h, hbound done s h⟩) hdone).delivers

/-! ## Two nodes and two connections -/

/-- A cipher that appends a checksum of all its parts. -/
def checksumAead : Aead where
  encrypt nonce aad plain :=
    plain ++ Bytes.toLE 16 (Bytes.ofLE (nonce ++ (aad ++ plain)) % (2 ^ 127 - 1))
  decrypt nonce aad body :=
    let plain := body.take (body.length - 16)
    if body = plain ++ Bytes.toLE 16 (Bytes.ofLE (nonce ++ (aad ++ plain)) % (2 ^ 127 - 1)) then
      some plain
    else none

theorem checksumAead_lawful : checksumAead.Lawful where
  opens nonce aad plain := by
    have htake : ∀ tag : List UInt8, tag.length = 16 →
        (plain ++ tag).take ((plain ++ tag).length - 16) = plain := by
      intro tag htag
      rw [List.length_append, htag, Nat.add_sub_cancel, List.take_left]
    simp only [checksumAead]
    rw [htake _ (Bytes.length_toLE _ _), if_pos rfl]
  opens_only nonce aad body plain h := by
    simp only [checksumAead] at h ⊢
    split_ifs at h with hbody
    cases h
    exact hbody

def twoNodes : Net Bool Bool where
  noncePrefix p := List.replicate 8 (if p then 1 else 2)
  challenge c := List.replicate 16 (if c then 3 else 4)
  proc e := decide (e.side = .server)
  length_noncePrefix _ := List.length_replicate
  noncePrefix_injective := by
    rintro (_ | _) (_ | _) h
    · rfl
    · cases h
    · cases h
    · rfl
  challenge_injective := by
    rintro (_ | _) (_ | _) h
    · rfl
    · cases h
    · cases h
    · rfl

/-- The frame that goes out when the process seals under its first counter. -/
def firstFrame (server : Bool) (frameType : UInt16) (plain conn : List UInt8) : Frame :=
  ⟨frameType, flagEncrypted, nonceBytes (twoNodes.noncePrefix server) 1 ++
    checksumAead.encrypt (nonceBytes (twoNodes.noncePrefix server) 1)
      (aad frameType flagEncrypted conn) plain⟩

def helloOf (c : Bool) : Frame := ⟨respHello, 0, twoNodes.challenge c⟩

/-- The dialing end gets the frame of its own `AUTH` back. -/
def reflection : List (Step Bool) :=
  [.hello false (helloOf false), .send ⟨false, .dialer⟩ reqAuth 0 [7],
    .deliver ⟨false, .dialer⟩ (firstFrame false reqAuth [7] (twoNodes.challenge false))]

/-- A later connection gets the challenge of an earlier one, and what its server answered there. -/
def replayedSession : List (Step Bool) :=
  [.send ⟨true, .server⟩ respError 0 [9], .hello false (helloOf true),
    .deliver ⟨false, .dialer⟩ (firstFrame true respError [9] (twoNodes.challenge true))]

/-- A request and its answer. -/
def exchange : List (Step Bool) :=
  [.hello false (helloOf false), .send ⟨false, .dialer⟩ reqAuth 0 [7],
    .deliver ⟨false, .server⟩ (firstFrame false reqAuth [7] (twoNodes.challenge false)),
    .send ⟨false, .server⟩ respError 0 [9],
    .deliver ⟨false, .dialer⟩ (firstFrame true respError [9] (twoNodes.challenge false))]

def IdealRun [DecidableEq P] (net : Net P C) (aead : Aead) (steps : List (Step C)) : Prop :=
  ∀ done s, done ++ [s] <+: steps → Unforged aead (run net aead done) s

theorem reflection_ideal : IdealRun twoNodes checksumAead reflection := by
  refine Lib.Run.Fits.at_prefix (F := Unforged checksumAead) ⟨trivial, trivial, ?_, trivial⟩
  refine unforged_copy (twoNodes.challenge false) [7] ?_ ?_ ?_
  · decide
  · decide
  · decide

theorem replayedSession_ideal : IdealRun twoNodes checksumAead replayedSession := by
  refine Lib.Run.Fits.at_prefix (F := Unforged checksumAead) ⟨trivial, trivial, ?_, trivial⟩
  refine unforged_copy (twoNodes.challenge true) [9] ?_ ?_ ?_
  · decide
  · decide
  · decide

theorem frames_of_no_peer :
    (IdealRun twoNodes checksumAead reflection ∧
      ¬Delivers (run twoNodes checksumAead reflection)) ∧
    IdealRun twoNodes checksumAead replayedSession ∧
      ¬Delivers (run twoNodes checksumAead replayedSession) := by
  refine ⟨⟨reflection_ideal, fun h => ?_⟩, replayedSession_ideal, fun h => ?_⟩
  · have haccepted := h.accepted ⟨false, .dialer⟩
    revert haccepted
    decide
  · have haccepted := h.accepted ⟨false, .dialer⟩
    revert haccepted
    decide

theorem exchange_delivers : Delivers (run twoNodes checksumAead exchange) := by
  have hwhole : exchange <+: exchange := List.prefix_rfl
  refine delivers_of_bound twoNodes checksumAead_lawful ?_ ?_ hwhole
  · refine Lib.Run.Fits.at_prefix (F := Unforged checksumAead)
      ⟨trivial, trivial, ?_, trivial, ?_, trivial⟩
    · refine unforged_copy (twoNodes.challenge false) [7] ?_ ?_ ?_
      · decide
      · decide
      · decide
    · refine unforged_copy (twoNodes.challenge false) [9] ?_ ?_ ?_
      · decide
      · decide
      · decide
  · refine Lib.Run.Fits.at_prefix (F := Bound twoNodes) ⟨?_, ?_, ?_, ?_, ?_, trivial⟩
    · rintro ch h
      cases h
      rfl
    · show _ + 1 < 2 ^ 64
      decide
    · exact fun h => absurd h (by decide)
    · show _ + 1 < 2 ^ 64
      decide
    · exact fun h => absurd h (by decide)

end Docsql.Transport
