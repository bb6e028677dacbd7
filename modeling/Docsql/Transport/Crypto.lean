import Docsql.Lib.Bytes
import Docsql.Lib.StateExcept
import Docsql.Lib.Run

/-!
# Sealed frames

Sealing and opening one frame of a keyed connection, and the replay guard of one direction.  The
cipher is a parameter.
-/

namespace Docsql.Transport

structure Frame where
  frameType : UInt16
  flags : UInt16
  payload : List UInt8
deriving DecidableEq, Repr

def flagEncrypted : UInt16 := 0x0004

def reqAuth : UInt16 := 0x0002

def respError : UInt16 := 0x0103

def respHello : UInt16 := 0x010F

/-- AES-256-GCM under the shared key. -/
structure Aead where
  encrypt : (nonce aad plain : List UInt8) → List UInt8
  decrypt : (nonce aad body : List UInt8) → Option (List UInt8)

/-- Decryption undoes encryption, and only a ciphertext of its own parts opens. -/
structure Aead.Lawful (aead : Aead) : Prop where
  opens : ∀ nonce aad plain, aead.decrypt nonce aad (aead.encrypt nonce aad plain) = some plain
  opens_only : ∀ nonce aad body plain,
    aead.decrypt nonce aad body = some plain → body = aead.encrypt nonce aad plain

/-- The header fields and the challenge of the connection. -/
def aad (frameType flags : UInt16) (conn : List UInt8) : List UInt8 :=
  Bytes.toLE 2 frameType.toNat ++ (Bytes.toLE 2 flags.toNat ++ conn)

def nonceCounterCap : ℕ := 2 ^ 32 - 1

def nonceBytes (noncePrefix : List UInt8) (counter : ℕ) : List UInt8 :=
  noncePrefix ++ Bytes.toLE 4 counter

/-- `counter` is the value `fetch_add` returned. -/
def nextNonce (noncePrefix : List UInt8) (counter : ℕ) : Except String (List UInt8) :=
  if nonceCounterCap < counter then
    .error ("transport nonce budget exhausted (>2^32 sealed frames from this " ++
      "process); restart the node")
  else .ok (nonceBytes noncePrefix counter)

/-- The nonce a sealed payload starts with. -/
def nonceOf (body : List UInt8) : List UInt8 := body.take 12

/-! ## Replay guard -/

structure ReplayGuard where
  noncePrefix : Option (List UInt8)
  last : ℕ
deriving DecidableEq, Repr

def ReplayGuard.default : ReplayGuard := ⟨none, 0⟩

def ReplayGuard.check (g : ReplayGuard) (body : List UInt8) : Except String ReplayGuard :=
  if body.length < 12 then .error "sealed payload too short"
  else
    let noncePrefix := body.take 8
    let counter := Bytes.ofLE ((body.drop 8).take 4)
    match g.noncePrefix with
    | none => .ok ⟨some noncePrefix, counter⟩
    | some p =>
      if p = noncePrefix then
        if g.last < counter then .ok ⟨some p, counter⟩
        else .error "replayed or reordered encrypted frame rejected"
      else .error "encrypted frame nonce prefix changed mid-connection"

/-! ## Seal and open -/

section Cipher

variable (aead : Aead)

def sealBody (noncePrefix : List UInt8) (counter : ℕ) (frameType flags : UInt16)
    (plain conn : List UInt8) : Except String (List UInt8) := do
  let nonce ← nextNonce noncePrefix counter
  return nonce ++ aead.encrypt nonce (aad frameType flags conn) plain

def openBody (frameType flags : UInt16) (body conn : List UInt8) : Except String (List UInt8) :=
  if body.length < 12 + 16 then .error "sealed payload too short"
  else
    match aead.decrypt (body.take 12) (aad frameType flags conn) (body.drop 12) with
    | some plain => .ok plain
    | none => .error "decrypt failed (wrong key or tampered frame)"

inductive Refusal where
  | unencrypted (msg : String)
  | replay (msg : String)
  | tampered (msg : String)
deriving DecidableEq, Repr

/-- What either end does with an inbound frame. -/
def receive (unencrypted : UInt16 → String) (conn : List UInt8) (g : ReplayGuard) (f : Frame) :
    Except Refusal (ReplayGuard × Frame) :=
  if f.flags &&& flagEncrypted = 0 then .error (.unencrypted (unencrypted f.frameType))
  else
    match g.check f.payload with
    | .error e => .error (.replay e)
    | .ok g =>
      match openBody aead f.frameType f.flags f.payload conn with
      | .error e => .error (.tampered e)
      | .ok plain => .ok (g, { f with payload := plain })

/-- The inbound check of `handle_connection`. -/
def handleConnection : List UInt8 → ReplayGuard → Frame → Except Refusal (ReplayGuard × Frame) :=
  receive aead fun _ => "transport encrypted; client must send encrypted frames"

def readResponseFrameWithGuard :
    List UInt8 → ReplayGuard → Frame → Except Refusal (ReplayGuard × Frame) :=
  receive aead fun frameType =>
    s!"peer sent an unencrypted {frameType} response on a keyed transport"

end Cipher

/-- The challenge in the first frame a dialing end reads.  The peer's own text, which follows the
first message, is left out. -/
def readWireHello (f : Frame) : Except String (List UInt8) :=
  if f.frameType = respError ∧ f.flags &&& flagEncrypted = 0 then
    .error "peer refused the connection"
  else if f.frameType ≠ respHello ∨ f.payload.length ≠ 16 then
    .error "keyed peer did not send its RESP_HELLO challenge"
  else .ok f.payload

/-! ## Facts -/

theorem toLE_inj_of_lt {a b : UInt16} (h : Bytes.toLE 2 a.toNat = Bytes.toLE 2 b.toNat) :
    a = b :=
  UInt16.toNat_inj.1 (Bytes.toLE_inj (UInt16.toNat_lt a) (UInt16.toNat_lt b) h)

/-- The associated data fixes the header and the challenge. -/
theorem aad_injective {frameType frameType' flags flags' : UInt16} {conn conn' : List UInt8}
    (h : aad frameType flags conn = aad frameType' flags' conn') :
    frameType = frameType' ∧ flags = flags' ∧ conn = conn' := by
  obtain ⟨htype, hrest⟩ := List.append_inj h (by simp)
  obtain ⟨hflags, hconn⟩ := List.append_inj hrest (by simp)
  exact ⟨toLE_inj_of_lt htype, toLE_inj_of_lt hflags, hconn⟩

section Nonce

variable {noncePrefix rest : List UInt8} {counter : ℕ}

theorem length_nonceBytes (counter : ℕ) (hlen : noncePrefix.length = 8) :
    (nonceBytes noncePrefix counter).length = 12 := by
  simp [nonceBytes, hlen]

theorem nonceOf_append (hlen : noncePrefix.length = 8) :
    nonceOf (nonceBytes noncePrefix counter ++ rest) = nonceBytes noncePrefix counter := by
  rw [nonceOf, ← length_nonceBytes counter hlen, List.take_left]

theorem nonceBytes_inj {noncePrefix' : List UInt8} {counter' : ℕ} (hlen : noncePrefix.length = 8)
    (hlen' : noncePrefix'.length = 8) (hcap : counter ≤ nonceCounterCap)
    (hcap' : counter' ≤ nonceCounterCap)
    (h : nonceBytes noncePrefix counter = nonceBytes noncePrefix' counter') :
    noncePrefix = noncePrefix' ∧ counter = counter' := by
  obtain ⟨hstart, hcounter⟩ := List.append_inj h (hlen.trans hlen'.symm)
  have hlt {k : ℕ} (hk : k ≤ nonceCounterCap) : k < 256 ^ 4 := by
    have hpos : nonceCounterCap + 1 = 256 ^ 4 := by decide
    omega
  exact ⟨hstart, Bytes.toLE_inj (hlt hcap) (hlt hcap') hcounter⟩

/-- What the guard reads off a sealed payload. -/
theorem check_nonceBytes (g : ReplayGuard) (hlen : noncePrefix.length = 8)
    (hcap : counter ≤ nonceCounterCap) :
    g.check (nonceBytes noncePrefix counter ++ rest) =
      match g.noncePrefix with
      | none => .ok ⟨some noncePrefix, counter⟩
      | some p =>
        if p = noncePrefix then
          if g.last < counter then .ok ⟨some p, counter⟩
          else .error "replayed or reordered encrypted frame rejected"
        else .error "encrypted frame nonce prefix changed mid-connection" := by
  have hlt : counter < 256 ^ 4 := by
    have hpos : nonceCounterCap + 1 = 256 ^ 4 := by decide
    omega
  have hstart : (nonceBytes noncePrefix counter ++ rest).take 8 = noncePrefix := by
    rw [nonceBytes, List.append_assoc, ← hlen, List.take_left]
  have hcounter : ((nonceBytes noncePrefix counter ++ rest).drop 8).take 4 =
      Bytes.toLE 4 counter := by
    rw [nonceBytes, List.append_assoc, ← hlen, List.drop_left]
    exact List.take_left' (Bytes.length_toLE 4 counter)
  have hlong : ¬(nonceBytes noncePrefix counter ++ rest).length < 12 := by
    rw [List.length_append, length_nonceBytes _ hlen]
    omega
  rw [ReplayGuard.check, if_neg hlong, hstart, hcounter, Bytes.ofLE_toLE hlt]

/-- A payload that passes the guard of a direction comes after all that passed before. -/
theorem check_ok {g g' : ReplayGuard} (hlen : noncePrefix.length = 8)
    (hcap : counter ≤ nonceCounterCap)
    (h : g.check (nonceBytes noncePrefix counter ++ rest) = .ok g') :
    g' = ⟨some noncePrefix, counter⟩ ∧
      ∀ p, g.noncePrefix = some p → p = noncePrefix ∧ g.last < counter := by
  rw [check_nonceBytes g hlen hcap] at h
  split at h
  · rename_i hnone
    exact ⟨(Except.ok.inj h).symm, fun p hp => by cases hnone.symm.trans hp⟩
  · rename_i p hsome
    split_ifs at h with hp hlast
    · refine ⟨(hp ▸ Except.ok.inj h).symm, fun q hq => ?_⟩
      cases hsome.symm.trans hq
      exact ⟨hp, hlast⟩

end Nonce

theorem openBody_ok {aead : Aead} {frameType flags : UInt16} {body conn plain : List UInt8}
    (h : openBody aead frameType flags body conn = .ok plain) :
    aead.decrypt (nonceOf body) (aad frameType flags conn) (body.drop 12) = some plain := by
  unfold openBody at h
  split_ifs at h
  split at h
  · rename_i hsome
    cases h
    exact hsome
  · cases h

theorem receive_ok {aead : Aead} {unencrypted : UInt16 → String} {conn : List UInt8}
    {g g' : ReplayGuard} {f f' : Frame} (h : receive aead unencrypted conn g f = .ok (g', f')) :
    g.check f.payload = .ok g' ∧ f'.frameType = f.frameType ∧ f'.flags = f.flags ∧
      aead.decrypt (nonceOf f.payload) (aad f.frameType f.flags conn) (f.payload.drop 12) =
        some f'.payload := by
  unfold receive at h
  split_ifs at h
  split at h
  · cases h
  · rename_i g₁ hcheck
    split at h
    · cases h
    · rename_i plain hopen
      cases h
      exact ⟨hcheck, rfl, rfl, openBody_ok hopen⟩

theorem receive_replay {aead : Aead} {unencrypted : UInt16 → String} {conn : List UInt8}
    {g : ReplayGuard} {f : Frame} {msg : String}
    (h : receive aead unencrypted conn g f = .error (.replay msg)) :
    g.check f.payload = .error msg := by
  unfold receive at h
  split_ifs at h with hflag
  · cases h
  · split at h
    · rename_i e hcheck
      cases h
      exact hcheck
    · split at h <;> cases h

end Docsql.Transport

/-!
# Keyed connections

Processes that share one transport key, their connections, and a network that delivers any frame
to any end.  What the network cannot do is forge: a payload that opens was sealed before.
-/

namespace Docsql.Transport

inductive Side where
  | server
  | dialer
deriving DecidableEq, Repr

variable {P C : Type}

/-- One end of a connection. -/
structure End (C : Type) where
  conn : C
  side : Side
deriving DecidableEq, Repr

def Side.other : Side → Side
  | .server => .dialer
  | .dialer => .server

def End.peer (e : End C) : End C := ⟨e.conn, e.side.other⟩

/-- The processes at the ends of the connections, with distinct nonce prefixes, and the distinct
challenges the servers draw. -/
structure Net (P C : Type) where
  noncePrefix : P → List UInt8
  challenge : C → List UInt8
  proc : End C → P
  length_noncePrefix : ∀ p, (noncePrefix p).length = 8
  noncePrefix_injective : Function.Injective noncePrefix
  challenge_injective : Function.Injective challenge

/-- A frame that an end sealed: the frame, the challenge bound into it, and what goes out. -/
structure Seal (C : Type) where
  sender : End C
  counter : ℕ
  frame : Frame
  conn : List UInt8
  wire : Frame
deriving DecidableEq, Repr

structure EndState where
  hello : Option (List UInt8)
  guard : ReplayGuard
  isOpen : Bool
  delivered : List Frame
  accepted : List Frame
  replayRefused : Bool
deriving DecidableEq, Repr

structure State (P C : Type) where
  /-- `NONCE_COUNTER` of each process. -/
  counter : P → ℕ
  ends : End C → EndState
  seals : List (Seal C)

/-- A step of an end or of the network. -/
inductive Step (C : Type) where
  | hello (c : C) (f : Frame)
  | send (e : End C) (frameType flags : UInt16) (plain : List UInt8)
  | deliver (e : End C) (f : Frame)
deriving DecidableEq, Repr

section Machine

variable [DecidableEq P] [DecidableEq C] (net : Net P C) (aead : Aead)

/-- The server knows its challenge, the dialing end waits for it. -/
def init : State P C where
  counter _ := 1
  ends e :=
    { hello := match e.side with
        | .server => some (net.challenge e.conn)
        | .dialer => none
      guard := .default, isOpen := true, delivered := [], accepted := [], replayRefused := false }
  seals := []

def State.setEnd (σ : State P C) (e : End C) (es : EndState) : State P C :=
  { σ with ends := Function.update σ.ends e es }

def helloStep (σ : State P C) (c : C) (f : Frame) : State P C :=
  let e : End C := ⟨c, .dialer⟩
  let es := σ.ends e
  if es.isOpen ∧ es.hello = none then
    match readWireHello f with
    | .ok ch => σ.setEnd e { es with hello := some ch }
    | .error _ => σ.setEnd e { es with isOpen := false }
  else σ

/-- A refused seal sends nothing, and the counter has moved all the same. -/
def sealStep (σ : State P C) (e : End C) (frameType flags : UInt16) (plain : List UInt8) :
    State P C :=
  match (σ.ends e).isOpen, (σ.ends e).hello with
  | true, some conn =>
    let p := net.proc e
    let counter := σ.counter p
    let flags := flags ||| flagEncrypted
    let σ := { σ with counter := Function.update σ.counter p ((counter + 1) % 2 ^ 64) }
    match sealBody aead (net.noncePrefix p) counter frameType flags plain conn with
    | .error _ => σ
    | .ok payload =>
      { σ with seals := σ.seals ++
          [⟨e, counter, ⟨frameType, flags, plain⟩, conn, ⟨frameType, flags, payload⟩⟩] }
  | _, _ => σ

/-- The inbound check of the end. -/
def inbound (e : End C) : List UInt8 → ReplayGuard → Frame → Except Refusal (ReplayGuard × Frame) :=
  match e.side with
  | .server => handleConnection aead
  | .dialer => readResponseFrameWithGuard aead

/-- A frame that is refused closes the connection. -/
def deliverStep (σ : State P C) (e : End C) (f : Frame) : State P C :=
  match (σ.ends e).isOpen, (σ.ends e).hello with
  | true, some conn =>
    let es := { σ.ends e with delivered := (σ.ends e).delivered ++ [f] }
    match inbound aead e conn es.guard f with
    | .ok (guard, frame) =>
      σ.setEnd e { es with guard := guard, accepted := es.accepted ++ [frame] }
    | .error (.replay _) => σ.setEnd e { es with isOpen := false, replayRefused := true }
    | .error _ => σ.setEnd e { es with isOpen := false }
  | _, _ => σ

def step (σ : State P C) : Step C → State P C
  | .hello c f => helloStep σ c f
  | .send e frameType flags plain => sealStep net aead σ e frameType flags plain
  | .deliver e f => deliverStep aead σ e f

def run (steps : List (Step C)) : State P C := steps.foldl (step net aead) (init net)

/-! ## What the transport is for -/

variable (σ : State P C)

/-- The seals of an end, in order. -/
def State.sealsOf (e : End C) : List (Seal C) := σ.seals.filter fun r => r.sender = e

/-- The frames an end sealed. -/
def State.sealedBy (e : End C) : List Frame := (σ.sealsOf e).map Seal.frame

/-- The frames an end put on the wire. -/
def State.sentBy (e : End C) : List Frame := (σ.sealsOf e).map Seal.wire

/-- Each end gets what the other one sealed, in order and once; a nonce serves one seal; a
connection that delivers what was sent refuses nothing as a replay. -/
structure Delivers : Prop where
  accepted : ∀ e, ((σ.ends e).accepted).Sublist (σ.sealedBy e.peer)
  nonces : (σ.seals.map fun r => nonceOf r.wire.payload).Nodup
  unattacked : ∀ e, (σ.ends e).delivered <+: σ.sentBy e.peer → (σ.ends e).replayRefused = false

/-- The cipher is not forged: a delivered payload that opens at the end was sealed. -/
def Unforged : Step C → Prop
  | .deliver e f => ∀ conn plain, (σ.ends e).hello = some conn →
      aead.decrypt (nonceOf f.payload) (aad f.frameType f.flags conn) (f.payload.drop 12) =
        some plain →
      ∃ r ∈ σ.seals, nonceOf r.wire.payload = nonceOf f.payload ∧
        aad r.frame.frameType r.frame.flags r.conn = aad f.frameType f.flags conn ∧
        r.frame.payload = plain
  | _ => True

/-- A dialing end reads the challenge of its own connection, an end gets a frame of its own back
only when its guard refuses it, and the counter does not wrap. -/
def Bound : Step C → Prop
  | .hello c f => ∀ ch, readWireHello f = .ok ch → ch = net.challenge c
  | .send e _ _ _ => σ.counter (net.proc e) + 1 < 2 ^ 64
  | .deliver e f => f ∈ σ.sentBy e → ∀ g, (σ.ends e).guard.check f.payload ≠ .ok g

end Machine

end Docsql.Transport
