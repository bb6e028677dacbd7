import Mathlib.Tactic

/-!
# Automatic promotion

The quorum loop of `quorum.rs`: a node probes the other members, counts the
cycles each of them missed, and after every cycle decides whether to promote or
to demote itself.  Nodes are their own addresses.  Events interleave freely:
answers may be recorded long after they were given.
-/

namespace Docsql.Cluster.Quorum

variable {ι : Type}

structure MemberView where
  epoch : ℕ
  readOnly : Bool
  forwarding : Bool
  journalHead : Option ℕ
  nodeId : Option String
deriving DecidableEq

def MemberView.isActivePrimary (v : MemberView) : Bool := !v.readOnly && !v.forwarding

/-- What a node is started with. -/
structure Config (ι : Type) where
  arbiter : Bool
  autoPromote : Bool
  primaryAddr : Option ι
  catchupWindow : ℕ
  k : ℕ
  nodeId : Option String

structure Node (ι : Type) where
  readOnly : Bool
  replicateTo : Option ι
  primaryEpoch : ℕ
  autoPromoteFrozen : Bool
  promoteLagWarned : Bool
  fenced : Bool
  misses : ι → ℕ
  views : ι → Option MemberView

def Node.isActivePrimary (n : Node ι) : Bool := !n.readOnly && n.replicateTo.isNone

/-- A node as it starts. -/
def Node.start (readOnly : Bool) (replicateTo : Option ι) : Node ι :=
  ⟨readOnly, replicateTo, 0, false, false, false, fun _ => 0, fun _ => none⟩

/-- The status a node reports, with the head of its journal at that time. -/
def Node.status (c : Config ι) (n : Node ι) (head : Option ℕ) : MemberView :=
  ⟨n.primaryEpoch, n.readOnly, n.replicateTo.isSome, head, c.nodeId⟩

/-! ## Visibility -/

section Visibility

variable (members : List ι) (c : Config ι) (n : Node ι)

/-- `DOCSQL_QUORUM_K`, at least one. -/
def Config.debounce : ℕ := max c.k 1

def isLost (member : ι) : Bool := c.debounce ≤ n.misses member

def visible : ℕ := 1 + members.countP fun m => n.misses m < c.debounce

def hasMajority : Bool := members.length + 1 < visible members c n * 2

end Visibility

/-! ## Supervision -/

section Supervise

variable (members : List ι) (c : Config ι)

/-- Whether the primary last seen is not too far ahead of what was applied here. -/
def lagOk (applied : String → Option ℕ) (view : Option MemberView) : Bool :=
  match view.bind MemberView.journalHead, view.bind MemberView.nodeId with
  | some head, some origin =>
    c.catchupWindow = 0 ∨ head - (applied origin).getD 0 ≤ c.catchupWindow
  | _, _ => false

/-- The conditions of an automatic promotion. -/
def promotes (applied : String → Option ℕ) (n : Node ι) : Bool :=
  !c.arbiter && c.autoPromote && n.readOnly && !n.autoPromoteFrozen &&
    c.primaryAddr.any fun primary =>
      isLost c n primary && hasMajority members c n && lagOk c applied (n.views primary)

/-- The read-only replica: promotion, or the warning that is given once. -/
def superviseReplica (applied : String → Option ℕ) (n : Node ι) (primary : ι) : Node ι :=
  if isLost c n primary && hasMajority members c n then
    if lagOk c applied (n.views primary) then
      { n with readOnly := false, replicateTo := none, primaryEpoch := n.primaryEpoch + 1 }
    else { n with promoteLagWarned := true }
  else if ((n.views primary).bind MemberView.journalHead).isSome then
    { n with promoteLagWarned := false }
  else n

/-- An active primary above `epoch` takes the place of a lower one. -/
def outbid (views : ι → Option MemberView) (epoch : ℕ) (best : Option (ι × ℕ)) (addr : ι) :
    Option (ι × ℕ) :=
  match views addr with
  | none => best
  | some v =>
    if v.isActivePrimary = true ∧ epoch < v.epoch ∧ ∀ b ∈ best, b.2 < v.epoch then
      some (addr, v.epoch)
    else best

def bestPrimary (views : ι → Option MemberView) (epoch : ℕ) (order : List ι) :
    Option (ι × ℕ) :=
  order.foldl (outbid views epoch) none

/-- `supervise`; `order` is the order in which the map of views is walked. -/
def supervise (applied : String → Option ℕ) (order : List ι) (n : Node ι) : Node ι :=
  if c.arbiter then n
  else if c.autoPromote && n.readOnly && !n.autoPromoteFrozen then
    match c.primaryAddr with
    | some primary => superviseReplica members c applied n primary
    | none => n
  else if !n.readOnly && n.replicateTo.isNone then
    match bestPrimary n.views n.primaryEpoch order with
    | some (addr, _) =>
      { n with readOnly := true, replicateTo := some addr, autoPromoteFrozen := true }
    | none => n
  else n

end Supervise

/-! ## The cluster -/

/-- The member set all nodes have in common, and how each is configured. -/
structure Membership (ι : Type) where
  all : List ι
  config : ι → Config ι

/-- The nodes, and the answers under way: who asked, who answered, what. -/
structure World (ι : Type) where
  node : ι → Node ι
  answers : List (ι × ι × MemberView)

inductive Event (ι : Type) where
  /-- The member answers a probe. -/
  | answer (asker member : ι) (head : Option ℕ)
  /-- The probe fails. -/
  | miss (asker member : ι)
  /-- An answer arrives; one that does not parse has no view. -/
  | hit (asker member : ι) (view : Option MemberView)
  /-- The end of a cycle. -/
  | cycle (self : ι) (applied : String → Option ℕ) (order : List ι)

variable [DecidableEq ι] (ms : Membership ι)

def Membership.members (self : ι) : List ι := ms.all.filter (· ≠ self)

def Node.recordMiss (member : ι) (n : Node ι) : Node ι :=
  { n with misses := Function.update n.misses member (n.misses member + 1) }

def Node.recordHit (member : ι) (view : Option MemberView) (n : Node ι) : Node ι :=
  { n with
    misses := Function.update n.misses member 0
    views := if view.isSome then Function.update n.views member view else n.views }

/-- The fence is set, then the roles are looked at. -/
def Membership.endCycle (self : ι) (applied : String → Option ℕ) (order : List ι) (n : Node ι) :
    Node ι :=
  supervise (ms.members self) (ms.config self) applied order
    { n with fenced := !hasMajority (ms.members self) (ms.config self) n }

/-- What is not possible changes nothing: probes go to members, an answer has
been given before it arrives, and the walk over the views meets all of them. -/
def Membership.step (w : World ι) : Event ι → World ι
  | .answer asker member head =>
    { w with answers :=
        (asker, member, (w.node member).status (ms.config member) head) :: w.answers }
  | .miss asker member =>
    if member ∈ ms.members asker then
      { w with node := Function.update w.node asker ((w.node asker).recordMiss member) }
    else w
  | .hit asker member view =>
    if member ∈ ms.members asker ∧ ∀ v ∈ view, (asker, member, v) ∈ w.answers then
      { w with node := Function.update w.node asker ((w.node asker).recordHit member view) }
    else w
  | .cycle self applied order =>
    if self ∈ ms.all ∧ ∀ m ∈ ms.all, m ∈ order then
      { w with node :=
          Function.update w.node self (ms.endCycle self applied order (w.node self)) }
    else w

def Membership.run (w : World ι) (events : List (Event ι)) : World ι := events.foldl ms.step w

/-- All nodes have just been started, read-only or not, forwarding or not. -/
def World.start (role : ι → Bool × Option ι) : World ι :=
  ⟨fun i => Node.start (role i).1 (role i).2, []⟩

end Docsql.Cluster.Quorum
