import Docsql.Auth.Accounts
import Docsql.Lib.Run

/-!
# Cached grants

Connections of logged-in users keep the grants that were resolved for them, with the value of
`grants_epoch` at that moment, and resolve again when the counter has moved.  Each section under
the engine lock is one step; the counter moves in a step of its own.
-/

namespace Docsql.Auth

open Sql (FilteredGrants resolveGrants heldGrants)

structure UserAuth where
  name : String
  grants : FilteredGrants

/-- What a connection knows. -/
structure Conn where
  isOpen : Bool := true
  user : Option UserAuth := none
  userEpoch : ℕ := 0
  /-- A login between its two sections: the name, and whether the password was right. -/
  login : Option (String × Bool) := none
  /-- The frame at hand waits for its grants to be resolved again. -/
  stale : Bool := false
  /-- The grants the last frame was authorized with. -/
  authorized : Option FilteredGrants := none

structure Server (C : Type) where
  accounts : Accounts := {}
  /-- Name, and whether it is a view. -/
  objects : List (String × Bool) := []
  grantsEpoch : ℕ := 0
  /-- Statements that have run and have not moved the counter yet. -/
  pending : ℕ := 0
  conns : C → Conn := fun _ => {}

inductive Step (C : Type) where
  /-- A user-management statement, under the lock. -/
  | userAdmin (stmt : UserAdminStmt)
  /-- The same statement after the lock. -/
  | bump
  | create (name : String) (view : Bool)
  /-- DROP TABLE or DROP VIEW of these objects, dependents included. -/
  | drop (names : List String)
  | rename (old new : String)
  | loginStart (c : C) (name password : String)
  | loginResolve (c : C)
  /-- A connection starts to handle a frame. -/
  | frame (c : C)
  | refresh (c : C)

section Machine

variable {C : Type} [DecidableEq C] (kdf : Kdf) (validateRowFilter : String → Except String Unit)

def Server.setConn (σ : Server C) (c : C) (conn : Conn) : Server C :=
  { σ with conns := Function.update σ.conns c conn }

def Server.objectsOf (σ : Server C) : Objects where
  exists_ t := (σ.objects.lookup t).isSome
  isView t := (σ.objects.lookup t).any id
  validateRowFilter := validateRowFilter

def validLogin (name : String) : Bool :=
  !(name.isEmpty || 64 < name.utf8ByteSize || !name.toList.all nameChar)

/-- The first section of `user_login_frame`; `name` is trimmed and in lower case. -/
def loginStart (σ : Server C) (c : C) (name password : String) : Server C :=
  let conn := σ.conns c
  if conn.isOpen && validLogin name then
    let ok := (σ.accounts.storedPw name).any fun stored => kdf.verify stored password
    σ.setConn c { conn with login := some (name, ok) }
  else σ

/-- The second one resolves the grants and samples the counter. -/
def loginResolve (σ : Server C) (c : C) : Server C :=
  let conn := σ.conns c
  match conn.login with
  | some (name, true) =>
    match resolveGrants σ.accounts.store name with
    | some g => σ.setConn c { conn with
        user := some ⟨name, g⟩, userEpoch := σ.grantsEpoch, login := none }
    | none => σ.setConn c { conn with login := none }
  | _ => σ.setConn c { conn with login := none }

/-- The start of a frame: the counter decides whether the grants are resolved again. -/
def frame (σ : Server C) (c : C) : Server C :=
  let conn := σ.conns c
  match conn.user with
  | some u =>
    if conn.isOpen && !conn.stale then
      if σ.grantsEpoch ≠ conn.userEpoch then σ.setConn c { conn with stale := true }
      else σ.setConn c { conn with authorized := some u.grants }
    else σ
  | none => σ

def refresh (σ : Server C) (c : C) : Server C :=
  let conn := σ.conns c
  match conn.user with
  | some u =>
    if conn.isOpen && conn.stale then
      match resolveGrants σ.accounts.store u.name with
      | some g => σ.setConn c { conn with
          user := some ⟨u.name, g⟩, userEpoch := σ.grantsEpoch, stale := false
          authorized := some g }
      | none => σ.setConn c { conn with isOpen := false, user := none, stale := false }
    else σ
  | none => σ

/-- Statements that fail change nothing and do not move the counter. -/
def step (σ : Server C) : Step C → Server C
  | .userAdmin stmt =>
    match execUserAdmin kdf (σ.objectsOf validateRowFilter) σ.accounts stmt with
    | .ok accounts => { σ with accounts := accounts, pending := σ.pending + 1 }
    | .error _ => σ
  | .bump =>
    if σ.pending = 0 then σ
    else { σ with grantsEpoch := (σ.grantsEpoch + 1) % 2 ^ 64, pending := σ.pending - 1 }
  | .create name view =>
    if (σ.objects.lookup name).isSome then σ
    else { σ with objects := (name, view) :: σ.objects }
  | .drop names => { σ with
      accounts := deleteGrantsFor σ.accounts names
      objects := σ.objects.filter fun p => !names.contains p.1 }
  | .rename old new => { σ with
      accounts := renameGrants σ.accounts old new
      objects := σ.objects.map fun p => if p.1 == old then (new, p.2) else p }
  | .loginStart c name password => loginStart kdf σ c name password
  | .loginResolve c => loginResolve σ c
  | .frame c => frame σ c
  | .refresh c => refresh σ c

def run (steps : List (Step C)) : Server C := steps.foldl (step kdf validateRowFilter) {}

variable (σ : Server C)

/-- With no statement in progress, a cache that the counter calls current holds what
`resolve_grants` gives; where the user is gone there is no such cache. -/
def Current : Prop :=
  σ.pending = 0 → ∀ c u, (σ.conns c).user = some u → (σ.conns c).userEpoch = σ.grantsEpoch →
    resolveGrants σ.accounts.store u.name = some u.grants

/-- A frame that starts with no statement in progress is authorized with what `resolve_grants`
gives, and where the user is gone it closes the connection. -/
def FramesFollow : Prop :=
  σ.pending = 0 → ∀ c u, (σ.conns c).user = some u → (σ.conns c).isOpen = true →
    (σ.conns c).stale = false →
    let after := (refresh (frame σ c) c).conns c
    match resolveGrants σ.accounts.store u.name with
    | some g => after.authorized = some g
    | none => after.isOpen = false ∧ after.authorized = (σ.conns c).authorized

/-- The caches that the counter calls current. -/
def Trusted (u : UserAuth) : Prop :=
  ∃ c, (σ.conns c).user = some u ∧ (σ.conns c).userEpoch = σ.grantsEpoch

/-- The counter does not wrap, and an object that is dropped or renamed carries no grant that the
user of such a cache holds. -/
def Quiet : Step C → Prop
  | .bump => σ.grantsEpoch + 1 < 2 ^ 64
  | .drop names => σ.pending = 0 → ∀ u, Trusted σ u →
      ∀ g ∈ heldGrants σ.accounts.store u.name, g.tbl ∈ names → isInternalTable g.tbl = true
  | .rename old _ => σ.pending = 0 → ∀ u, Trusted σ u →
      ∀ g ∈ heldGrants σ.accounts.store u.name, g.tbl ≠ old
  | _ => True

/-! ## Runs -/

/-- Caches are not from the future. -/
structure Inv : Prop where
  epoch : ∀ c u, (σ.conns c).user = some u → (σ.conns c).userEpoch ≤ σ.grantsEpoch
  current : Current σ

end Machine

section Steps

variable {C : Type} {kdf : Kdf} {validateRowFilter : String → Except String Unit} {σ : Server C}

/-- The cache of a connection after a change of it. -/
def Settled (σ : Server C) (conn : Conn) : Prop :=
  ∀ u, conn.user = some u → conn.userEpoch ≤ σ.grantsEpoch ∧
    (σ.pending = 0 → conn.userEpoch = σ.grantsEpoch →
      resolveGrants σ.accounts.store u.name = some u.grants)

theorem Inv.settled (hinv : Inv σ) (c : C) : Settled σ (σ.conns c) :=
  fun u hu => ⟨hinv.epoch c u hu, fun hpending hepoch => hinv.current hpending c u hu hepoch⟩

/-- Grants that were just resolved. -/
theorem settled_of_resolved {conn : Conn} {u : UserAuth}
    (hu : conn.user = some u) (hepoch : conn.userEpoch = σ.grantsEpoch)
    (hresolved : resolveGrants σ.accounts.store u.name = some u.grants) : Settled σ conn := by
  intro u' hu'
  cases hu.symm.trans hu'
  exact ⟨hepoch.le, fun _ _ => hresolved⟩

/-- Other rows, from which the users of current caches get the same grants. -/
theorem Inv.setAccounts (hinv : Inv σ) {accounts : Accounts} {objects : List (String × Bool)}
    (h : σ.pending = 0 → ∀ u, Trusted σ u → resolveGrants accounts.store u.name =
      resolveGrants σ.accounts.store u.name) :
    Inv { σ with accounts := accounts, objects := objects } where
  epoch := hinv.epoch
  current hpending c u hu hepoch :=
    (h hpending u ⟨c, hu, hepoch⟩).trans (hinv.current hpending c u hu hepoch)

theorem Inv.userAdmin (hinv : Inv σ) (accounts : Accounts) :
    Inv { σ with accounts := accounts, pending := σ.pending + 1 } where
  epoch := hinv.epoch
  current h := absurd h (Nat.succ_ne_zero _)

/-- The counter leaves every cache behind. -/
theorem Inv.bump (hinv : Inv σ) (hwrap : σ.grantsEpoch + 1 < 2 ^ 64) (pending : ℕ) :
    Inv { σ with grantsEpoch := (σ.grantsEpoch + 1) % 2 ^ 64, pending := pending } where
  epoch c u hu := by
    have hold := hinv.epoch c u hu
    simp only [Nat.mod_eq_of_lt hwrap]
    omega
  current _ c u hu hepoch := by
    have hold := hinv.epoch c u hu
    simp only [Nat.mod_eq_of_lt hwrap] at hepoch
    omega

theorem inv_init : Inv ({} : Server C) where
  epoch _ _ hu := by cases hu
  current _ _ _ hu := by cases hu

variable [DecidableEq C]

theorem Inv.setConn (hinv : Inv σ) {c : C} {conn : Conn} (hconn : Settled σ conn) :
    Inv (σ.setConn c conn) := by
  have hall : ∀ c', Settled σ ((σ.setConn c conn).conns c') := by
    intro c'
    by_cases hc : c' = c
    · subst hc
      simpa [Server.setConn] using hconn
    · simpa [Server.setConn, hc] using hinv.settled c'
  exact ⟨fun c u hu => (hall c u hu).1, fun hpending c u hu => (hall c u hu).2 hpending⟩

theorem Inv.frame (hinv : Inv σ) (c : C) : Inv (frame σ c) := by
  rw [Auth.frame]
  split
  · split_ifs
    · exact hinv.setConn (hinv.settled c)
    · exact hinv.setConn (hinv.settled c)
    · exact hinv
  · exact hinv

theorem Inv.refresh (hinv : Inv σ) (c : C) : Inv (refresh σ c) := by
  rw [Auth.refresh]
  split
  · rename_i u hu
    split_ifs
    · split
      · rename_i g hg
        exact hinv.setConn (settled_of_resolved rfl rfl hg)
      · exact hinv.setConn nofun
    · exact hinv
  · exact hinv

theorem Inv.loginResolve (hinv : Inv σ) (c : C) : Inv (loginResolve σ c) := by
  rw [Auth.loginResolve]
  split
  · split
    · rename_i g hg
      exact hinv.setConn (settled_of_resolved rfl rfl hg)
    · exact hinv.setConn (hinv.settled c)
  · exact hinv.setConn (hinv.settled c)

theorem Inv.step (hinv : Inv σ) {s : Step C} (hquiet : Quiet σ s) :
    Inv (step kdf validateRowFilter σ s) := by
  cases s with
  | userAdmin stmt =>
    rw [Auth.step]
    split
    · exact hinv.userAdmin _
    · exact hinv
  | bump =>
    rw [Auth.step]
    split_ifs
    · exact hinv
    · exact hinv.bump hquiet _
  | create name view =>
    rw [Auth.step]
    split_ifs
    · exact hinv
    · exact hinv.setAccounts fun _ _ _ => rfl
  | drop names =>
    exact hinv.setAccounts fun hpending u hu =>
      resolveGrants_deleteGrantsFor (hquiet hpending u hu)
  | rename old new =>
    exact hinv.setAccounts fun hpending u hu => resolveGrants_renameGrants (hquiet hpending u hu)
  | loginStart c name password =>
    rw [Auth.step, loginStart]
    split_ifs
    · exact hinv.setConn (hinv.settled c)
    · exact hinv
  | loginResolve c => exact hinv.loginResolve c
  | frame c => exact hinv.frame c
  | refresh c => exact hinv.refresh c

theorem Inv.framesFollow (hinv : Inv σ) : FramesFollow σ := by
  intro hpending c u hu hopen hstale
  by_cases hepoch : σ.grantsEpoch = (σ.conns c).userEpoch
  · rw [hinv.current hpending c u hu hepoch.symm]
    simp [Auth.frame, Auth.refresh, Server.setConn, hu, hopen, hstale, hepoch]
  · cases hres : resolveGrants σ.accounts.store u.name with
    | none => simp [Auth.frame, Auth.refresh, Server.setConn, hu, hopen, hstale, hepoch, hres]
    | some g => simp [Auth.frame, Auth.refresh, Server.setConn, hu, hopen, hstale, hepoch, hres]

/-- Where no held grant is dropped or renamed away, cached grants follow the stored ones. -/
theorem grants_follow (kdf : Kdf) (validateRowFilter : String → Except String Unit)
    {steps : List (Step C)}
    (hquiet : ∀ done s, done ++ [s] <+: steps → Quiet (run kdf validateRowFilter done) s)
    {done : List (Step C)} (hdone : done <+: steps) :
    Current (run kdf validateRowFilter done) ∧ FramesFollow (run kdf validateRowFilter done) :=
  have hinv := Lib.Run.inv_of_fit (F := Quiet) inv_init (fun _ _ hinv hfit => hinv.step hfit)
    hquiet hdone
  ⟨hinv.current, hinv.framesFollow⟩

end Steps

/-! ## A dropped table -/

def plainKdf : Kdf where
  hashPrefix := "$pbkdf2-sha256$"
  isStoredForm _ := false
  hashPassword password := "$pbkdf2-sha256$" ++ password
  verify stored password := stored == "$pbkdf2-sha256$" ++ password

def acceptAll (_ : String) : Except String Unit := .ok ()

/-- A user with one grant logs in. -/
def bobLogsIn : List (Step Unit) :=
  [.userAdmin (.createUser "bob" "password"), .bump, .create "t" false,
    .userAdmin (.grantTable [.select] ["t"] ["bob"] [] none), .bump,
    .loginStart () "bob" "password", .loginResolve ()]

/-- The table is dropped, and another one gets its name. -/
def recreated : List (Step Unit) := bobLogsIn ++ [.drop ["t"], .create "t" false, .frame ()]

theorem dropped_grants_stay_cached :
    ¬Current (run plainKdf acceptAll recreated) ∧
      (((run plainKdf acceptAll recreated).conns ()).authorized.any fun g => g.maySelect "t") =
        true := by
  refine ⟨fun h => ?_, by decide +kernel⟩
  cases hu : ((run plainKdf acceptAll recreated).conns ()).user with
  | none =>
    have hsome : ((run plainKdf acceptAll recreated).conns ()).user.isSome = true := by
      decide
    rw [hu] at hsome
    cases hsome
  | some u =>
    have hres := h (by decide) () u hu (by decide +kernel)
    have hprivs : (((run plainKdf acceptAll recreated).conns ()).user.bind fun u =>
        (resolveGrants (run plainKdf acceptAll recreated).accounts.store u.name).map fun g =>
          g.tablePrivs) =
        ((run plainKdf acceptAll recreated).conns ()).user.map fun u => u.grants.tablePrivs := by
      rw [hu, Option.bind_some, hres]
      rfl
    revert hprivs
    decide

/-- Another table is dropped. -/
def otherDropped : List (Step Unit) := bobLogsIn ++ [.drop ["s"], .frame ()]

theorem otherDropped_quiet :
    ∀ done s, done ++ [s] <+: otherDropped → Quiet (run plainKdf acceptAll done) s := by
  refine Lib.Run.Fits.at_prefix (F := Quiet)
    ⟨trivial, ?_, trivial, trivial, ?_, trivial, trivial, ?_, trivial, trivial⟩
  · show _ + 1 < 2 ^ 64
    decide
  · show _ + 1 < 2 ^ 64
    decide
  · intro _ u _ g hg hmem
    have hall : ∀ g ∈ (run plainKdf acceptAll bobLogsIn).accounts.grants, g.tbl ∉ ["s"] := by
      decide
    exact absurd hmem (hall g (List.mem_of_mem_filter hg))

theorem grants_follow_otherDropped :
    Current (run plainKdf acceptAll otherDropped) ∧
      FramesFollow (run plainKdf acceptAll otherDropped) :=
  grants_follow plainKdf acceptAll otherDropped_quiet List.prefix_rfl

end Docsql.Auth
