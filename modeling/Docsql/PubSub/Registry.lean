import Docsql.Lib.MapSum
import Docsql.PubSub.Glob
import Docsql.PubSub.Handoff

/-!
# The subscription registry

Who subscribes to what: two maps of maps, a pair of counters for each connection and a total.
Each operation changes them separately; the counters say what the maps hold after all of them.
-/

namespace Docsql.PubSub

open Lib (FinMap)
open Lib.FinMap

def maxSubsPerConn : ℕ := 4096
def maxSubsTotal : ℕ := 200000

def i64Max : ℤ := 2 ^ 63 - 1

/-- Its sender is left to the outcomes of the pushes. -/
structure Sub where
  skipThrough : ℤ

/-- By name, then by connection. -/
abbrev Subs := FinMap String (FinMap ℕ Sub)

structure Inner where
  channels : Subs := ∅
  patterns : Subs := ∅
  /-- Channel and pattern subscriptions of each connection. -/
  counts : FinMap ℕ (ℕ × ℕ) := ∅
  total : ℕ := 0

inductive SendOutcome where
  | sent
  | full
  | closed
deriving DecidableEq

def Inner.subs (s : Inner) : SubKind → Subs
  | .channel => s.channels
  | .pattern => s.patterns

def Inner.setSubs (s : Inner) (m : Subs) : SubKind → Inner
  | .channel => { s with channels := m }
  | .pattern => { s with patterns := m }

/-! ## Maps of subscriptions -/

def holds (conn : ℕ) (subs : FinMap ℕ Sub) : Bool := (subs.lookup conn).isSome

/-- `map.entry(name).or_default().insert(conn, sub)` -/
def putSub (m : Subs) (name : String) (conn : ℕ) (sub : Sub) : Subs :=
  m.insert name (((m.lookup name).getD ∅).insert conn sub)

/-- The map without the subscription, and the connection if there was one. -/
def takeSub (m : Subs) (name : String) (conn : ℕ) : Subs × List ℕ :=
  match m.lookup name with
  | none => (m, [])
  | some subs => if holds conn subs then (m.insert name (subs.erase conn), [conn]) else (m, [])

/-- The same one after the other, with the connections that lost a subscription. -/
def takeSubs (m : Subs) : List (String × ℕ) → Subs × List ℕ
  | [] => (m, [])
  | (name, conn) :: rest =>
    let (m, gone) := takeSub m name conn
    let (m, later) := takeSubs m rest
    (m, gone ++ later)

/-- Every subscription of the connection, and how many there were. -/
def takeConn (m : Subs) (conn : ℕ) : Subs × ℕ :=
  (m.mapValues fun subs => subs.erase conn, m.sum fun subs => if holds conn subs then 1 else 0)

/-- `retain(|_, subs| !subs.is_empty())` -/
def prune (m : Subs) : Subs := m.retain fun subs => !subs.entries.isEmpty

/-! ## Operations -/

namespace Inner

variable (s : Inner)

def connCount (conn : ℕ) : ℕ :=
  let held := (s.counts.lookup conn).getD (0, 0)
  held.1 + held.2

def bump (held : ℕ × ℕ) : SubKind → ℕ × ℕ
  | .channel => (held.1 + 1, held.2)
  | .pattern => (held.1, held.2 + 1)

def lower (held : ℕ × ℕ) : SubKind → ℕ × ℕ
  | .channel => (held.1 - 1, held.2)
  | .pattern => (held.1, held.2 - 1)

def register (conn : ℕ) (kind : SubKind) (name : String) : Except String ℕ × Inner :=
  let sub : Sub := ⟨i64Max⟩
  if ((s.subs kind).lookup name).any (holds conn) then
    let s := s.setSubs (putSub (s.subs kind) name conn sub) kind
    (.ok (s.connCount conn), s)
  else if s.connCount conn ≥ maxSubsPerConn then
    (.error s!"subscription limit reached ({maxSubsPerConn} per connection)", s)
  else if s.total ≥ maxSubsTotal then
    (.error s!"subscription limit reached ({maxSubsTotal} node-wide)", s)
  else
    let held := (s.counts.lookup conn).getD (0, 0)
    let s := { s with total := s.total + 1, counts := s.counts.insert conn (bump held kind) }
    let s := s.setSubs (putSub (s.subs kind) name conn sub) kind
    (.ok (s.connCount conn), s)

/-- One subscription less; the subtractions stop at zero. -/
def dec (kind : SubKind) (s : Inner) (conn : ℕ) : Inner :=
  let s := { s with total := s.total - 1 }
  match s.counts.lookup conn with
  | none => s
  | some held =>
    let held := lower held kind
    if held = (0, 0) then { s with counts := s.counts.erase conn }
    else { s with counts := s.counts.insert conn held }

def armFilter (conn : ℕ) (kind : SubKind) (name : String) (watermark : ℤ) : Inner :=
  if ((s.subs kind).lookup name).any (holds conn) then
    s.setSubs (putSub (s.subs kind) name conn ⟨watermark⟩) kind
  else s

/-- No names: all of the kind. -/
def unregister (conn : ℕ) (kind : SubKind) (names : List String) : ℕ × Inner :=
  let (m, removed) :=
    if names = [] then takeConn (s.subs kind) conn
    else
      let (m, gone) := takeSubs (s.subs kind) (names.map fun name => (name, conn))
      (m, gone.length)
  let s := s.setSubs (prune m) kind
  let s := (List.replicate removed conn).foldl (dec kind) s
  (s.connCount conn, s)

def removeConn (conn : ℕ) : Inner :=
  let (channels, ch) := takeConn s.channels conn
  let (patterns, pat) := takeConn s.patterns conn
  { channels := prune channels
    patterns := prune patterns
    counts := s.counts.erase conn
    total := s.total - (ch + pat) }

/-- The subscriptions of one name that a message is pushed to. -/
def pushedTo (name : String) (subs : FinMap ℕ Sub) (id : ℤ) : List (String × ℕ) :=
  (subs.entries.filter fun e => e.2.skipThrough < id).map fun e => (name, e.1)

/-- Pushes to the channel and to the patterns that match it; closed receivers are pruned. -/
def notify (channel : String) (id : ℤ) (send : SubKind → String × ℕ → SendOutcome) : ℕ × Inner :=
  let exact := pushedTo channel ((s.channels.lookup channel).getD ∅) id
  let matching := (s.patterns.entries.filter fun e => patternMatches e.1 channel).flatMap
    fun e => pushedTo e.1 e.2 id
  let reached := (exact.filter fun e => send .channel e = .sent) ++
    matching.filter fun e => send .pattern e = .sent
  let (channels, gone) := takeSubs s.channels (exact.filter fun e => send .channel e = .closed)
  let s := { s with channels := prune channels }
  let s := gone.foldl (dec .channel) s
  let (patterns, gone) := takeSubs s.patterns (matching.filter fun e => send .pattern e = .closed)
  let s := { s with patterns := prune patterns }
  let s := gone.foldl (dec .pattern) s
  ((reached.map Prod.snd).dedup.length, s)

end Inner

inductive RegistryEvent where
  | register (conn : ℕ) (kind : SubKind) (name : String)
  | armFilter (conn : ℕ) (kind : SubKind) (name : String) (watermark : ℤ)
  | unregister (conn : ℕ) (kind : SubKind) (names : List String)
  | removeConn (conn : ℕ)
  /-- With the outcome of every push. -/
  | notify (channel : String) (id : ℤ) (send : SubKind → String × ℕ → SendOutcome)

def Inner.after (s : Inner) : RegistryEvent → Inner
  | .register conn kind name => (s.register conn kind name).2
  | .armFilter conn kind name watermark => s.armFilter conn kind name watermark
  | .unregister conn kind names => (s.unregister conn kind names).2
  | .removeConn conn => s.removeConn conn
  | .notify channel id send => (s.notify channel id send).2

/-! ## What the counters say -/

/-- In how many maps of the kind the connection is. -/
def holders (conn : ℕ) (m : Subs) : ℕ := m.sum fun subs => if holds conn subs then 1 else 0

def entryOf (held : ℕ × ℕ) : Option (ℕ × ℕ) := if held = (0, 0) then none else some held

def heldBy (h : SubKind → ℕ → ℕ) (conn : ℕ) : ℕ × ℕ := (h .channel conn, h .pattern conn)

/-- The counters stand for these numbers of subscriptions. -/
structure Counted (s : Inner) (h : SubKind → ℕ → ℕ) : Prop where
  counts : ∀ conn, s.counts.lookup conn = entryOf (heldBy h conn)
  total : s.total = s.counts.sum fun held => held.1 + held.2

/-- No map of a name is empty. -/
def Pruned (m : Subs) : Prop := ∀ e ∈ m.entries, e.2.entries ≠ []

structure Exact (s : Inner) : Prop where
  counted : Counted s fun kind conn => holders conn (s.subs kind)
  pruned : ∀ kind, Pruned (s.subs kind)
  capped : ∀ conn, holders conn s.channels + holders conn s.patterns ≤ maxSubsPerConn

/-! ## Maps -/

section Maps

variable {m : Subs} {name : String} {conn c : ℕ} {sub : Sub}

theorem holds_insert (subs : FinMap ℕ Sub) :
    holds c (subs.insert conn sub) = (decide (c = conn) || holds c subs) := by
  unfold holds
  by_cases h : c = conn
  · subst h
    rw [AList.lookup_insert, decide_eq_true rfl]
    rfl
  · rw [AList.lookup_insert_ne h, decide_eq_false h, Bool.false_or]

theorem holds_erase (subs : FinMap ℕ Sub) :
    holds c (subs.erase conn) = (decide (c ≠ conn) && holds c subs) := by
  unfold holds
  by_cases h : c = conn
  · subst h
    rw [AList.lookup_erase, decide_eq_false (not_not_intro rfl)]
    rfl
  · rw [AList.lookup_erase_ne h, decide_eq_true h, Bool.true_and]

theorem weightAt_getD (weight : FinMap ℕ Sub → ℕ) (hempty : weight ∅ = 0) :
    weightAt weight name m = weight ((m.lookup name).getD ∅) := by
  unfold weightAt
  cases m.lookup name with
  | none => exact hempty.symm
  | some subs => rfl

/-- A subscription that is new counts once, another one not at all. -/
theorem holders_putSub :
    holders c (putSub m name conn sub) =
      holders c m + if c = conn ∧ ((m.lookup name).any (holds conn)) = false then 1 else 0 := by
  have hsum := sum_insert (fun subs => if holds c subs then 1 else 0) m name
    (((m.lookup name).getD ∅).insert conn sub)
  rw [weightAt_getD _ rfl] at hsum
  simp only [holds_insert] at hsum
  have hany : (m.lookup name).any (holds conn) = holds conn ((m.lookup name).getD ∅) := by
    cases m.lookup name <;> rfl
  rw [hany]
  unfold holders putSub
  by_cases hc : c = conn
  · subst hc
    cases hholds : holds c ((m.lookup name).getD ∅) <;> simp [hholds] at hsum ⊢ <;> omega
  · simp only [hc, decide_false, Bool.false_or, false_and, if_false] at hsum ⊢
    omega

theorem holders_takeSub :
    holders c (takeSub m name conn).1 + (takeSub m name conn).2.count c = holders c m := by
  unfold takeSub
  cases hlookup : m.lookup name with
  | none => rfl
  | some subs =>
    cases hholds : holds conn subs with
    | false =>
      simp only [hholds]
      rfl
    | true =>
      simp only [hholds, if_true]
      have hsum := sum_insert (fun subs => if holds c subs then 1 else 0) m name (subs.erase conn)
      rw [weightAt, hlookup] at hsum
      simp only [holds_erase, Option.map_some, Option.getD_some] at hsum
      unfold holders
      by_cases hc : c = conn
      · subst hc
        simp [hholds] at hsum ⊢
        omega
      · simp only [hc, ne_eq, not_false_eq_true, decide_true, Bool.true_and] at hsum
        rw [List.count_singleton, if_neg (by simpa using fun h => hc h.symm)]
        omega

theorem holders_takeSubs (c : ℕ) (m : Subs) (entries : List (String × ℕ)) :
    holders c (takeSubs m entries).1 + (takeSubs m entries).2.count c = holders c m := by
  induction entries generalizing m with
  | nil => rfl
  | cons e entries ih =>
    obtain ⟨name, conn⟩ := e
    have hone := @holders_takeSub m name conn c
    have hrest := ih (takeSub m name conn).1
    rw [takeSubs]
    dsimp only
    rw [List.count_append]
    omega

/-- Only connections that were asked for lose a subscription. -/
theorem mem_takeSubs {entries : List (String × ℕ)} (h : c ∈ (takeSubs m entries).2) :
    ∃ name, (name, c) ∈ entries := by
  induction entries generalizing m with
  | nil => cases h
  | cons e entries ih =>
    obtain ⟨name, conn⟩ := e
    rw [takeSubs] at h
    rcases List.mem_append.mp h with h | h
    · unfold takeSub at h
      split at h
      · cases h
      · split_ifs at h
        · rw [List.mem_singleton.mp h]
          exact ⟨name, List.mem_cons_self⟩
        · cases h
    · obtain ⟨name', hmem⟩ := ih h
      exact ⟨name', List.mem_cons_of_mem _ hmem⟩

theorem holders_takeConn :
    holders c (takeConn m conn).1 = if c = conn then 0 else holders c m := by
  unfold holders takeConn
  rw [sum_mapValues]
  simp only [holds_erase]
  by_cases hc : c = conn
  · subst hc
    simp [FinMap.sum]
  · simp only [hc, ne_eq, not_false_eq_true, decide_true, Bool.true_and, if_false]

theorem holders_prune : holders c (prune m) = holders c m := by
  refine sum_retain ?_ m
  intro subs hempty
  have hnil : subs.entries = [] := by simpa using hempty
  have hnone : holds c subs = false := by
    unfold holds AList.lookup
    rw [hnil]
    rfl
  rw [hnone]
  rfl

theorem pruned_prune : Pruned (prune m) := by
  intro e he
  have hkeep := (List.mem_filter.mp he).2
  simpa using hkeep

theorem Pruned.putSub (h : Pruned m) : Pruned (putSub m name conn sub) := by
  intro e he
  unfold PubSub.putSub at he
  rw [AList.entries_insert] at he
  rcases List.mem_cons.mp he with rfl | he
  · rw [AList.entries_insert]
    exact List.cons_ne_nil _ _
  · exact h e ((List.kerase_sublist _ _).subset he)

end Maps

/-! ## Counters -/

section Counters

variable {s : Inner} {h : SubKind → ℕ → ℕ} {kind : SubKind} {conn : ℕ}

def oneMore (h : SubKind → ℕ → ℕ) (kind : SubKind) (conn : ℕ) : SubKind → ℕ → ℕ :=
  fun k c => h k c + if k = kind ∧ c = conn then 1 else 0

theorem heldBy_oneMore_self : heldBy (oneMore h kind conn) conn = Inner.bump (heldBy h conn) kind := by
  cases kind <;> simp [heldBy, oneMore, Inner.bump]

theorem heldBy_oneMore_ne {c : ℕ} (hc : c ≠ conn) : heldBy (oneMore h kind conn) c = heldBy h c := by
  simp only [heldBy, oneMore, hc, and_false, if_false, Nat.add_zero]

theorem bump_ne (held : ℕ × ℕ) : Inner.bump held kind ≠ (0, 0) := by
  cases kind <;> simp [Inner.bump]

theorem lower_bump (held : ℕ × ℕ) : Inner.lower (Inner.bump held kind) kind = held := by
  cases kind <;> rfl

theorem sum_bump (held : ℕ × ℕ) :
    (Inner.bump held kind).1 + (Inner.bump held kind).2 = held.1 + held.2 + 1 := by
  cases kind <;> simp only [Inner.bump] <;> omega

theorem entryOf_getD (held : ℕ × ℕ) : (entryOf held).getD (0, 0) = held := by
  unfold entryOf
  split_ifs with hzero
  · exact hzero.symm
  · rfl

theorem entryOf_bump (held : ℕ × ℕ) : entryOf (Inner.bump held kind) = some (Inner.bump held kind) :=
  if_neg (bump_ne held)

theorem Counted.connCount (hs : Counted s h) :
    s.connCount conn = h .channel conn + h .pattern conn := by
  unfold Inner.connCount
  rw [hs.counts, entryOf_getD]
  rfl

theorem Counted.setSubs (hs : Counted s h) (m : Subs) : Counted (s.setSubs m kind) h := by
  cases kind <;> exact ⟨hs.counts, hs.total⟩

/-- A counter raised with the total. -/
theorem Counted.bump (hs : Counted s h) :
    Counted { s with
      total := s.total + 1
      counts := s.counts.insert conn (Inner.bump ((s.counts.lookup conn).getD (0, 0)) kind) }
      (oneMore h kind conn) := by
  have hheld : (s.counts.lookup conn).getD (0, 0) = heldBy h conn := by
    rw [hs.counts, entryOf_getD]
  rw [hheld]
  constructor
  · intro c
    by_cases hc : c = conn
    · subst hc
      rw [heldBy_oneMore_self, entryOf_bump]
      exact AList.lookup_insert _
    · rw [heldBy_oneMore_ne hc]
      exact (AList.lookup_insert_ne hc).trans (hs.counts c)
  · have hsum := sum_insert (fun held : ℕ × ℕ => held.1 + held.2) s.counts conn
      (Inner.bump (heldBy h conn) kind)
    have hweight : weightAt (fun held : ℕ × ℕ => held.1 + held.2) conn s.counts =
        (heldBy h conn).1 + (heldBy h conn).2 := by
      rw [← hheld, weightAt]
      cases s.counts.lookup conn <;> rfl
    rw [hweight, sum_bump] at hsum
    have htotal := hs.total
    dsimp only
    omega

/-- `dec` undoes one more. -/
theorem Counted.dec (hs : Counted s (oneMore h kind conn)) : Counted (Inner.dec kind s conn) h := by
  have hlookup : s.counts.lookup conn = some (Inner.bump (heldBy h conn) kind) := by
    rw [hs.counts, heldBy_oneMore_self, entryOf_bump]
  have hweight : weightAt (fun held : ℕ × ℕ => held.1 + held.2) conn s.counts =
      (heldBy h conn).1 + (heldBy h conn).2 + 1 := by
    rw [weightAt, hlookup]
    exact sum_bump _
  have hother : ∀ c, c ≠ conn → s.counts.lookup c = entryOf (heldBy h c) := by
    intro c hc
    rw [hs.counts, heldBy_oneMore_ne hc]
  have htotal := hs.total
  unfold Inner.dec
  simp only [hlookup, lower_bump]
  split_ifs with hzero
  · have hsum := sum_erase (fun held : ℕ × ℕ => held.1 + held.2) s.counts conn
    rw [hweight, hzero] at hsum
    constructor
    · intro c
      by_cases hc : c = conn
      · subst hc
        rw [hzero]
        exact AList.lookup_erase _ _
      · exact (AList.lookup_erase_ne hc).trans (hother c hc)
    · dsimp only
      omega
  · have hsum := sum_insert (fun held : ℕ × ℕ => held.1 + held.2) s.counts conn (heldBy h conn)
    rw [hweight] at hsum
    constructor
    · intro c
      by_cases hc : c = conn
      · subst hc
        rw [entryOf, if_neg hzero]
        exact AList.lookup_insert _
      · exact (AList.lookup_insert_ne hc).trans (hother c hc)
    · dsimp only
      omega

theorem Counted.foldl_dec {gone : List ℕ}
    (hs : Counted s fun k c => h k c + if k = kind then gone.count c else 0) :
    Counted (gone.foldl (Inner.dec kind) s) h := by
  induction gone generalizing s with
  | nil => simpa using hs
  | cons conn gone ih =>
    apply ih
    apply Counted.dec
    have hsplit : (fun k c => h k c + if k = kind then (conn :: gone).count c else 0) =
        oneMore (fun k c => h k c + if k = kind then gone.count c else 0) kind conn := by
      funext k c
      unfold oneMore
      rw [List.count_cons]
      by_cases hk : k = kind <;> by_cases hc : c = conn
      · simp [hk, hc, Nat.add_assoc]
      · simp [hk, hc, Ne.symm hc]
      · simp [hk]
      · simp [hk]
    rwa [hsplit] at hs

theorem subs_dec (k : SubKind) : (Inner.dec kind s conn).subs k = s.subs k := by
  have hkeep : (Inner.dec kind s conn).channels = s.channels ∧
      (Inner.dec kind s conn).patterns = s.patterns := by
    unfold Inner.dec
    dsimp only
    split
    · exact ⟨rfl, rfl⟩
    · split_ifs
      · exact ⟨rfl, rfl⟩
      · exact ⟨rfl, rfl⟩
  cases k with
  | channel => exact hkeep.1
  | pattern => exact hkeep.2

theorem subs_foldl_dec (gone : List ℕ) (k : SubKind) :
    (gone.foldl (Inner.dec kind) s).subs k = s.subs k := by
  induction gone generalizing s with
  | nil => rfl
  | cons conn gone ih => exact ih.trans (subs_dec k)

theorem subs_setSubs_self (m : Subs) : (s.setSubs m kind).subs kind = m := by
  cases kind <;> rfl

theorem subs_setSubs_ne (m : Subs) {k : SubKind} (hk : k ≠ kind) :
    (s.setSubs m kind).subs k = s.subs k := by
  cases kind <;> cases k <;> first | rfl | exact absurd rfl hk

end Counters

/-! ## Operations keep the accounts -/

section Steps

variable {s : Inner} {kind : SubKind} {conn : ℕ}

theorem Exact.cap_of_le (hs : Exact s) {s' : Inner}
    (hle : ∀ k c, holders c (s'.subs k) ≤ holders c (s.subs k)) (c : ℕ) :
    holders c s'.channels + holders c s'.patterns ≤ maxSubsPerConn :=
  (Nat.add_le_add (hle .channel c) (hle .pattern c)).trans (hs.capped c)

/-- Subscriptions of one kind are taken away and counted down. -/
theorem Exact.less (hs : Exact s) {m : Subs} {gone : List ℕ}
    (hm : ∀ c, holders c m + gone.count c = holders c (s.subs kind)) :
    Exact (gone.foldl (Inner.dec kind) (s.setSubs (prune m) kind)) := by
  have hsubs : ∀ k c, holders c ((s.setSubs (prune m) kind).subs k) +
      (if k = kind then gone.count c else 0) = holders c (s.subs k) := by
    intro k c
    by_cases hk : k = kind
    · subst hk
      rw [subs_setSubs_self, holders_prune, if_pos rfl, hm]
    · rw [subs_setSubs_ne _ hk, if_neg hk, Nat.add_zero]
  constructor
  · simp only [subs_foldl_dec]
    apply Counted.foldl_dec
    apply Counted.setSubs
    simp only [hsubs]
    exact hs.counted
  · intro k
    rw [subs_foldl_dec]
    by_cases hk : k = kind
    · subst hk
      rw [subs_setSubs_self]
      exact pruned_prune
    · rw [subs_setSubs_ne _ hk]
      exact hs.pruned k
  · apply hs.cap_of_le
    intro k c
    rw [subs_foldl_dec, ← hsubs k c]
    exact Nat.le_add_right _ _

/-- A subscription that is there is replaced. -/
theorem Exact.replace (hs : Exact s) {name : String} {sub : Sub}
    (hold : ((s.subs kind).lookup name).any (holds conn) = true) :
    Exact (s.setSubs (putSub (s.subs kind) name conn sub) kind) := by
  have hsubs : ∀ k c, holders c ((s.setSubs (putSub (s.subs kind) name conn sub) kind).subs k) =
      holders c (s.subs k) := by
    intro k c
    by_cases hk : k = kind
    · subst hk
      rw [subs_setSubs_self, holders_putSub, hold]
      simp
    · rw [subs_setSubs_ne _ hk]
  constructor
  · simp only [hsubs]
    exact hs.counted.setSubs _
  · intro k
    by_cases hk : k = kind
    · subst hk
      rw [subs_setSubs_self]
      exact (hs.pruned k).putSub
    · rw [subs_setSubs_ne _ hk]
      exact hs.pruned k
  · exact hs.cap_of_le fun k c => (hsubs k c).le

/-- A new subscription, already counted. -/
theorem Exact.more (hs : Exact s) {raised : Inner} {name : String} {sub : Sub}
    (hkeep : ∀ k, raised.subs k = s.subs k)
    (hcounted : Counted raised (oneMore (fun k c => holders c (s.subs k)) kind conn))
    (hnew : ((s.subs kind).lookup name).any (holds conn) = false)
    (hroom : holders conn s.channels + holders conn s.patterns < maxSubsPerConn) :
    Exact (raised.setSubs (putSub (raised.subs kind) name conn sub) kind) := by
  rw [hkeep kind]
  have hsubs : ∀ k c, holders c ((raised.setSubs (putSub (s.subs kind) name conn sub) kind).subs k) =
      oneMore (fun k c => holders c (s.subs k)) kind conn k c := by
    intro k c
    unfold oneMore
    by_cases hk : k = kind
    · subst hk
      rw [subs_setSubs_self, holders_putSub, hnew]
      simp
    · rw [subs_setSubs_ne _ hk, hkeep, if_neg fun h => hk h.1]
      rfl
  constructor
  · simp only [hsubs]
    exact hcounted.setSubs _
  · intro k
    by_cases hk : k = kind
    · subst hk
      rw [subs_setSubs_self]
      exact (hs.pruned k).putSub
    · rw [subs_setSubs_ne _ hk, hkeep]
      exact hs.pruned k
  · intro c
    have hcap : holders c (s.subs .channel) + holders c (s.subs .pattern) ≤ maxSubsPerConn :=
      hs.capped c
    apply (congrArg₂ (· + ·) (hsubs .channel c) (hsubs .pattern c)).trans_le
    unfold oneMore
    by_cases hc : c = conn
    · subst hc
      change holders c (s.subs .channel) + holders c (s.subs .pattern) < maxSubsPerConn at hroom
      cases kind <;> simp <;> omega
    · simpa [hc] using hcap

theorem Exact.register (hs : Exact s) (name : String) : Exact (s.register conn kind name).2 := by
  unfold Inner.register
  dsimp only
  split_ifs with hold hcap htotal
  · exact hs.replace hold
  · exact hs
  · exact hs
  · apply hs.more (fun k => by cases k <;> rfl) hs.counted.bump
    · simpa using hold
    · rw [hs.counted.connCount] at hcap
      exact not_le.mp hcap

theorem Exact.armFilter (hs : Exact s) (name : String) (watermark : ℤ) :
    Exact (s.armFilter conn kind name watermark) := by
  unfold Inner.armFilter
  split_ifs with hold
  · exact hs.replace hold
  · exact hs

theorem Exact.unregister (hs : Exact s) (names : List String) :
    Exact (s.unregister conn kind names).2 := by
  unfold Inner.unregister
  dsimp only
  split_ifs with hall
  · apply hs.less
    intro c
    rw [holders_takeConn, List.count_replicate]
    by_cases hc : c = conn
    · subst hc
      rw [if_pos rfl, if_pos (beq_self_eq_true c), Nat.zero_add]
      rfl
    · rw [if_neg hc, if_neg (by simpa using Ne.symm hc), Nat.add_zero]
  · have hmany : (takeSubs (s.subs kind) (names.map fun name => (name, conn))).2 =
        List.replicate (takeSubs (s.subs kind) (names.map fun name => (name, conn))).2.length
          conn := by
      apply List.eq_replicate_of_mem
      intro c hc
      obtain ⟨name, hmem⟩ := mem_takeSubs hc
      obtain ⟨_, -, heq⟩ := List.mem_map.mp hmem
      exact (congrArg Prod.snd heq).symm
    rw [← hmany]
    exact hs.less fun c => holders_takeSubs c _ _

theorem Exact.removeConn (hs : Exact s) : Exact (s.removeConn conn) := by
  have hsubs : ∀ k c, holders c ((s.removeConn conn).subs k) =
      if c = conn then 0 else holders c (s.subs k) := by
    intro k c
    cases k <;> exact holders_prune.trans holders_takeConn
  constructor
  · constructor
    · intro c
      have hheld : heldBy (fun k c => holders c ((s.removeConn conn).subs k)) c =
          if c = conn then (0, 0) else heldBy (fun k c => holders c (s.subs k)) c := by
        unfold heldBy
        dsimp only
        rw [hsubs, hsubs]
        split_ifs <;> rfl
      rw [hheld]
      by_cases hc : c = conn
      · subst hc
        rw [if_pos rfl]
        exact AList.lookup_erase _ _
      · rw [if_neg hc]
        exact (AList.lookup_erase_ne hc).trans (hs.counted.counts c)
    · have hsum := sum_erase (fun held : ℕ × ℕ => held.1 + held.2) s.counts conn
      have hweight : weightAt (fun held : ℕ × ℕ => held.1 + held.2) conn s.counts =
          holders conn s.channels + holders conn s.patterns := by
        have hcount : s.connCount conn = holders conn s.channels + holders conn s.patterns :=
          hs.counted.connCount
        rw [← hcount, Inner.connCount, weightAt]
        cases s.counts.lookup conn <;> rfl
      have htotal := hs.counted.total
      rw [hweight] at hsum
      unfold Inner.removeConn takeConn
      unfold holders at hsum
      dsimp only
      omega
  · intro k
    cases k <;> exact pruned_prune
  · apply hs.cap_of_le
    intro k c
    rw [hsubs]
    split_ifs
    · exact Nat.zero_le _
    · exact le_rfl

theorem Exact.notify (hs : Exact s) (channel : String) (id : ℤ)
    (send : SubKind → String × ℕ → SendOutcome) : Exact (s.notify channel id send).2 := by
  unfold Inner.notify
  dsimp only
  have hchannels := @Exact.less s .channel hs _ _ fun c => holders_takeSubs c s.channels
    ((Inner.pushedTo channel ((s.channels.lookup channel).getD ∅) id).filter
      fun e => send .channel e = .closed)
  exact @Exact.less _ .pattern hchannels _ _ fun c => holders_takeSubs c _ _

end Steps

/-- The counters are exact after every sequence of operations. -/
theorem registry_exact (events : List RegistryEvent) : Exact (events.foldl Inner.after {}) := by
  have hstep : ∀ s e, Exact s → Exact (Inner.after s e) := by
    intro s e hs
    cases e with
    | register conn kind name => exact hs.register name
    | armFilter conn kind name watermark => exact hs.armFilter name watermark
    | unregister conn kind names => exact hs.unregister names
    | removeConn conn => exact hs.removeConn
    | notify channel id send => exact hs.notify channel id send
  have hinit : Exact {} := by
    refine ⟨⟨fun conn => rfl, rfl⟩, ?_, fun conn => Nat.zero_le _⟩
    intro kind e he
    cases kind <;> cases he
  induction events using List.reverseRecOn with
  | nil => exact hinit
  | append_singleton events e ih =>
    rw [List.foldl_append]
    exact hstep _ e ih

end Docsql.PubSub
