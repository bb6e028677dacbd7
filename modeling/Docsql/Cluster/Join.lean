import Mathlib.Data.Fintype.Basic
import Mathlib.Data.Finset.Card
import Mathlib.Tactic

/-!
# Joining a live mesh

Live nodes commit numbered writes and fan each of them out, under their write
path, to the other nodes and to the joiner once they list it.  The joiner probes
journal heads, asks one node for a dump while the others are held, replays it,
and drains what it queued meanwhile (`sync.rs`).
-/

namespace Docsql.Cluster.Join

variable {ι : Type*} [Fintype ι] [DecidableEq ι]

/-- The writes of one origin, in the order of the list. -/
def numbers (i : ι) (writes : List (ι × ℕ)) : List ℕ :=
  (writes.filter fun w => w.1 = i).map Prod.snd

/-- How a peer answered `REQ_HOLD`. -/
inductive Answer where
  | missing
  | granted
  /-- It could not be connected, and is skipped. -/
  | unreachable
deriving DecidableEq

inductive Phase (ι : Type*) where
  | probing
  /-- The serving node has its write path and collects the holds. -/
  | quiescing (server : ι)
  /-- The dump is captured, the write path is still held. -/
  | serving (server : ι) (dump : List (ι × ℕ))
  | received (dump : List (ι × ℕ))
  /-- The dump is replayed; the queue drains and fresh heads are probed. -/
  | adopted
  /-- `bootstrap_sync` returned after `JoinApply::Applied`. -/
  | joined

structure World (ι : Type*) where
  /-- The writes an origin has committed, and those a node has applied. -/
  seq : ι → ℕ := fun _ => 0
  state : ι → List (ι × ℕ) := fun _ => []
  /-- The legs of the last write that are under way. -/
  waiting : ι → Finset ι := fun _ => ∅
  toJoiner : ι → Bool := fun _ => false
  /-- The joiner is among the node's peers. -/
  listed : ι → Bool
  held : ι → Bool := fun _ => false
  phase : Phase ι := .probing
  answer : ι → Answer := fun _ => .missing
  /-- The joiner: whether it runs, its intake gate and queue, the writes in its
  state, the heads of the probe round, its positions, and the heads probed again. -/
  up : Bool := false
  gateClosed : Bool := false
  queue : List (ι × ℕ) := []
  applied : List (ι × ℕ) := []
  heads : ι → ℕ := fun _ => 0
  position : ι → ℕ := fun _ => 0
  fresh : ι → Option ℕ := fun _ => none

inductive Event (ι : Type*) where
  | write (i : ι)
  | deliver (i j : ι)
  | arrive (i : ι)
  /-- The leg fails while the joiner is down. -/
  | lose (i : ι)
  | start
  | newRound
  | probe (i : ι)
  | requestSync (server : ι)
  | hold (i : ι)
  | unreachable (i : ι)
  /-- `REQ_RELEASE`, or the watchdog of the hold. -/
  | release (i : ι)
  /-- `room`: the peer list of the serving node is not full. -/
  | capture (room : Bool)
  | send
  /-- Busy, a broken stream or a failed replay: the joiner retries. -/
  | abort
  | replay
  | drain
  | closeGate
  | probeFresh (i : ι)
  | seedFresh (i : ι)
  | finish

namespace World

variable (w : World ι)

/-- No write of the node is under way. -/
def PathFree (i : ι) : Prop := w.waiting i = ∅ ∧ w.toJoiner i = false

instance (i : ι) : Decidable (w.PathFree i) := inferInstanceAs (Decidable (_ ∧ _))

/-- The write path is taken by a hold or by `handle_sync`. -/
def frozen (i : ι) : Bool :=
  w.held i || match w.phase with
    | .quiescing server => server = i
    | .serving server _ => server = i
    | _ => false

def write (i : ι) : World ι :=
  if w.PathFree i ∧ w.frozen i = false then
    { w with
      seq := Function.update w.seq i (w.seq i + 1)
      state := Function.update w.state i (w.state i ++ [(i, w.seq i + 1)])
      waiting := Function.update w.waiting i (Finset.univ.erase i)
      toJoiner := Function.update w.toJoiner i (w.listed i) }
  else w

def deliver (i j : ι) : World ι :=
  if j ∈ w.waiting i ∧ w.frozen j = false then
    { w with
      state := Function.update w.state j (w.state j ++ [(i, w.seq i)])
      waiting := Function.update w.waiting i ((w.waiting i).erase j) }
  else w

/-- A sequenced write at the joiner: skipped when its position covers it. -/
def applySeq (i : ι) (n : ℕ) : World ι :=
  if n ≤ w.position i then w
  else { w with applied := w.applied ++ [(i, n)], position := Function.update w.position i n }

/-- `gate_enqueue`, or the direct path behind a closed gate. -/
def arrive (i : ι) : World ι :=
  if w.toJoiner i = true ∧ w.up = true then
    let w' : World ι := { w with toJoiner := Function.update w.toJoiner i false }
    if w.gateClosed then w'.applySeq i (w.seq i)
    else { w' with queue := w.queue ++ [(i, w.seq i)] }
  else w

def lose (i : ι) : World ι :=
  if w.up then w else { w with toJoiner := Function.update w.toJoiner i false }

def requestSync (server : ι) : World ι :=
  match w.phase with
  | .probing =>
    if w.up = true ∧ w.PathFree server ∧ w.held server = false then
      { w with phase := .quiescing server, answer := fun _ => .missing }
    else w
  | _ => w

/-- `handle_hold`; an empty advertise address freezes without a registration. -/
def hold (advertised : Bool) (i : ι) : World ι :=
  match w.phase with
  | .quiescing server =>
    if i ≠ server ∧ w.answer i = .missing ∧ w.PathFree i ∧ w.held i = false then
      { w with
        held := Function.update w.held i true
        answer := Function.update w.answer i .granted
        listed := Function.update w.listed i (w.listed i || advertised) }
    else w
  | _ => w

def unreachable (i : ι) : World ι :=
  match w.phase with
  | .quiescing _ =>
    if w.answer i = .missing then
      { w with answer := Function.update w.answer i .unreachable }
    else w
  | _ => w

def capture (advertised room : Bool) : World ι :=
  match w.phase with
  | .quiescing server =>
    if ∀ i, i ≠ server → w.answer i ≠ .missing then
      { w with
        phase := .serving server (w.state server)
        listed := Function.update w.listed server (w.listed server || (advertised && room)) }
    else w
  | _ => w

def send : World ι :=
  match w.phase with
  | .serving _ dump => { w with phase := .received dump }
  | _ => w

def abort : World ι :=
  match w.phase with
  | .quiescing _ => { w with phase := .probing }
  | .serving _ _ => { w with phase := .probing }
  | .received _ => { w with phase := .probing }
  | _ => w

/-- The dump becomes the state, and `seed_positions` the floor of the queue. -/
def replay : World ι :=
  match w.phase with
  | .received dump =>
    { w with
      phase := .adopted
      applied := dump
      position := fun i => max (w.position i) (w.heads i) }
  | _ => w

def drain : World ι :=
  match w.phase, w.queue with
  | .adopted, (i, n) :: rest => World.applySeq { w with queue := rest } i n
  | _, _ => w

def closeGate : World ι :=
  match w.phase, w.queue with
  | .adopted, [] => { w with gateClosed := true }
  | _, _ => w

def probeFresh (i : ι) : World ι :=
  match w.phase, w.gateClosed with
  | .adopted, true => { w with fresh := Function.update w.fresh i (some (w.seq i)) }
  | _, _ => w

def seedFresh (i : ι) : World ι :=
  match w.phase, w.fresh i with
  | .adopted, some head =>
    { w with position := Function.update w.position i (max (w.position i) head) }
  | _, _ => w

def finish : World ι :=
  match w.phase, w.gateClosed with
  | .adopted, true => { w with phase := .joined }
  | _, _ => w

def probe (i : ι) : World ι :=
  match w.phase with
  | .probing => { w with heads := Function.update w.heads i (w.seq i) }
  | _ => w

def newRound : World ι :=
  match w.phase with
  | .probing => { w with heads := fun _ => 0 }
  | _ => w

def step (advertised : Bool) (w : World ι) : Event ι → World ι
  | .write i => w.write i
  | .deliver i j => w.deliver i j
  | .arrive i => w.arrive i
  | .lose i => w.lose i
  | .start => { w with up := true }
  | .newRound => w.newRound
  | .probe i => w.probe i
  | .requestSync server => w.requestSync server
  | .hold i => w.hold advertised i
  | .unreachable i => w.unreachable i
  | .release i => { w with held := Function.update w.held i false }
  | .capture room => w.capture advertised room
  | .send => w.send
  | .abort => w.abort
  | .replay => w.replay
  | .drain => w.drain
  | .closeGate => w.closeGate
  | .probeFresh i => w.probeFresh i
  | .seedFresh i => w.seedFresh i
  | .finish => w.finish

/-- `static`: the nodes that list the joiner from the start. -/
def run (static : ι → Bool) (advertised : Bool) (events : List (Event ι)) : World ι :=
  events.foldl (step advertised) { listed := static }

/-! ## Writes at the joiner -/

/-- The writes of an origin whose leg to the joiner is through. -/
def arrived (i : ι) : ℕ := if w.toJoiner i then w.seq i - 1 else w.seq i

/-- Each write once, in the order of its origin, up to a leg that is under way. -/
def AppliedOnce : Prop :=
  ∀ i, ∃ last, w.arrived i ≤ last ∧ last ≤ w.seq i ∧ numbers i w.applied = List.range' 1 last

/-- What the join does not secure itself.  At the capture every node lists the
joiner, and a node that was not held has no write under way to the serving one.
A write that is in the dump and also comes to the joiner was probed before.  A head
probed again covers nothing that is still under way. -/
def Fit (advertised : Bool) (w : World ι) : Event ι → Prop
  | .capture room => ∀ server, w.phase = .quiescing server →
      (w.listed server || (advertised && room)) = true ∧
        ∀ i, i ≠ server → w.listed i = true ∧
          (w.answer i = .unreachable → server ∉ w.waiting i)
  | .replay => ∀ dump, w.phase = .received dump →
      ∀ i n, ((i, n) ∈ w.queue ∨ w.toJoiner i = true ∧ n = w.seq i) → (i, n) ∈ dump →
        n ≤ w.heads i
  | .seedFresh i => w.phase = .adopted →
      ∀ head, w.fresh i = some head → head = 0 ∨ (i, head) ∈ w.applied
  | _ => True

end World

end Docsql.Cluster.Join
