import Docsql.Sql.Grants

/-!
# User management

The tables of users, roles, members and grants, the statements that change them, and what
dropping or renaming an object does to its grants.
-/

namespace Docsql.Auth

open Sql (Grant ColumnList TablePriv UserStore FilteredGrants resolveGrants eqIgnoreAsciiCase
  isUserTable isSystemTable)

/-- The rows of the four storage tables. -/
structure Accounts where
  /-- Name and stored password. -/
  users : List (String × String) := []
  roles : List String := []
  members : List (String × String) := []
  grants : List Grant := []

inductive UserAdminStmt where
  | createUser (name password : String)
  | alterUserPassword (name password : String)
  | dropUser (name : String)
  | createRole (name : String)
  | dropRole (name : String)
  | grantRoles (roles to_ : List String)
  | revokeRoles (roles from_ : List String)
  | grantTable (privileges : List TablePriv) (tables to_ cols : List String)
    (rowFilter : Option String)
  | revokeTable (privileges : List TablePriv) (tables from_ : List String)

/-- Password derivation, with the salt it draws. -/
structure Kdf where
  hashPrefix : String
  isStoredForm : String → Bool
  hashPassword : String → String
  /-- `StoredPw::parse` and `verify`; a form that does not parse verifies nothing. -/
  verify : (stored password : String) → Bool

/-- The catalog as GRANT sees it. -/
structure Objects where
  exists_ : String → Bool
  isView : String → Bool
  validateRowFilter : String → Except String Unit

def builtinRoles : List String := ["admin", "readwrite", "readonly"]

def nameChar (c : Char) : Bool := c.isAlphanum || c == '_' || c == '$'

def validateName (name : String) : Except String Unit :=
  if name.utf8ByteSize = 0 || 64 < name.utf8ByteSize then
    .error s!"name {name.quote} must be 1-64 characters"
  else if !((name.toList.head?.any fun c => c.isAlpha || c == '_') && name.toList.all nameChar) then
    .error s!"name {name.quote} must match [a-zA-Z_][a-zA-Z0-9_$]*"
  else if builtinRoles.contains name then
    .error s!"{name} is a built-in role name and cannot be reused"
  else if ["select", "insert", "update", "delete", "all"].contains name then
    .error s!"{name} is a privilege keyword and cannot be used as a name"
  else .ok ()

def storedPasswordForm (kdf : Kdf) (password : String) : Except String String :=
  if password.startsWith kdf.hashPrefix then
    if kdf.isStoredForm password then .ok password
    else .error "malformed pre-hashed password"
  else if password.length < 8 then
    .error s!"password must be at least 8 characters (got {password.length})"
  else if password.toList.all fun c => password.toList.head? == some c then
    .error "password must not be a single repeated character"
  else .ok (kdf.hashPassword password)

namespace Accounts

variable (a : Accounts)

/-- What `resolve_grants` reads. -/
def store : UserStore := ⟨a.users.map Prod.fst, a.members, a.grants⟩

def ensureUserTables : Accounts :=
  { a with roles := a.roles ++ builtinRoles.filter fun r => !a.roles.contains r }

def storedPw (user : String) : Option String := a.users.lookup user

def userNames : List String := a.users.map Prod.fst

def grantRow (role member : String) : Accounts :=
  if a.members.contains (role, member) then a
  else { a with members := a.members ++ [(role, member)] }

/-- An empty column list is none. -/
def columnList (cols : List String) : Option ColumnList :=
  if h : cols = [] then none else some ⟨cols, h⟩

/-- A row that is already there in its exact shape is not added again. -/
def grantPrivRow (grantee : String) (priv : TablePriv) (tbl : String) (cols : List String)
    (rowFilter : Option String) : Accounts :=
  let duplicate := a.grants.any fun g => g.grantee == grantee && decide (g.priv = priv) &&
    g.tbl == tbl && (g.cols.map ColumnList.names == (columnList cols).map ColumnList.names) &&
    g.filter == rowFilter
  if duplicate then a
  else { a with grants := a.grants ++ [⟨grantee, priv, tbl, columnList cols, rowFilter⟩] }

def deleteGrants (p : Grant → Bool) : Accounts := { a with grants := a.grants.filter fun g => !p g }

end Accounts

/-- What GRANT asks of each table. -/
def checkGrantTable (objects : Objects) (privileges : List TablePriv) (cols : List String)
    (rowFilter : Option String) (t : String) : Except String Unit :=
  let plain := cols.isEmpty && rowFilter.isNone
  if !objects.exists_ t || isUserTable t then .error s!"table {t} does not exist"
  else if !(plain || decide (privileges = [.select])) then
    .error "column lists and row filters apply to single-privilege SELECT grants only"
  else if plain && objects.isView t then .ok ()
  else if objects.isView t then
    .error "column lists and row filters apply to tables, not views"
  else
    match rowFilter with
    | some pred => objects.validateRowFilter pred
    | none => .ok ()

/-- `exec_user_admin`. -/
def execUserAdmin (kdf : Kdf) (objects : Objects) (a : Accounts) :
    UserAdminStmt → Except String Accounts
  | .createUser name password => do
    validateName name
    if a.roles.contains name then throw s!"a role named {name} already exists"
    if (a.storedPw name).isSome then throw s!"user {name} already exists"
    let stored ← storedPasswordForm kdf password
    let a := a.ensureUserTables
    return { a with users := a.users ++ [(name, stored)] }
  | .alterUserPassword name password => do
    if (a.storedPw name).isNone then throw s!"user {name} does not exist"
    let stored ← storedPasswordForm kdf password
    let a := a.ensureUserTables
    return { a with users := a.users.map fun p => if p.1 == name then (name, stored) else p }
  | .dropUser name => do
    if (a.storedPw name).isNone then throw s!"user {name} does not exist"
    return { a.deleteGrants (·.grantee == name) with
      users := a.users.filter fun p => !(p.1 == name)
      members := a.members.filter fun p => !(p.2 == name) }
  | .createRole name => do
    validateName name
    if a.userNames.contains name then throw s!"a user named {name} already exists"
    let a := a.ensureUserTables
    return { a with roles := if a.roles.contains name then a.roles else a.roles ++ [name] }
  | .dropRole name => do
    if builtinRoles.contains name then throw s!"built-in role {name} cannot be dropped"
    if !a.roles.contains name then throw s!"role {name} does not exist"
    return { a.deleteGrants (·.grantee == name) with
      roles := a.roles.filter fun r => !(r == name)
      members := a.members.filter fun p => !(p.1 == name) }
  | .grantRoles roles to_ => do
    match roles.find? fun r => !a.roles.contains r with
    | some r => throw s!"role {r} does not exist"
    | none =>
      match to_.find? fun u => !a.userNames.contains u with
      | some u => throw s!"user {u} does not exist (role membership is user-only)"
      | none => return roles.foldl (fun a r => to_.foldl (fun a u => a.grantRow r u) a) a
  | .revokeRoles roles from_ =>
    return { a with members := a.members.filter fun p =>
      !(roles.contains p.1 && from_.contains p.2) }
  | .grantTable privileges tables to_ cols rowFilter => do
    tables.forM (checkGrantTable objects privileges cols rowFilter)
    match to_.find? fun g => !(a.userNames.contains g || a.roles.contains g) with
    | some g => throw s!"grantee {g} is neither a user nor a role"
    | none => return to_.foldl (fun a g => tables.foldl (fun a t => privileges.foldl
        (fun a p => a.grantPrivRow g p t cols rowFilter) a) a) a
  | .revokeTable privileges tables from_ =>
    -- the table name counts in any case
    return a.deleteGrants fun g => from_.contains g.grantee && privileges.any (· = g.priv) &&
      tables.any fun t => eqIgnoreAsciiCase g.tbl t

/-! ## Dropped and renamed objects -/

def isInternalTable (name : String) : Bool := isSystemTable name || isUserTable name

/-- The rows on any of the names. -/
def deleteGrantsFor (a : Accounts) (names : List String) : Accounts :=
  a.deleteGrants fun g => names.contains g.tbl && !isInternalTable g.tbl

/-- Grants follow a rename. -/
def renameGrants (a : Accounts) (old new : String) : Accounts :=
  { a with grants := a.grants.map fun g => if g.tbl == old then { g with tbl := new } else g }

/-! ## What a user holds -/

variable {a : Accounts} {name : String}

/-- The grants of a user depend on the users, the members and the rows the user holds. -/
theorem resolveGrants_congr {store store' : UserStore} (husers : store'.users = store.users)
    (hmembers : store'.members = store.members)
    (hheld : Sql.heldGrants store' name = Sql.heldGrants store name) :
    resolveGrants store' name = resolveGrants store name := by
  have hroles : Sql.rolesOf store' name = Sql.rolesOf store name := by
    rw [Sql.rolesOf, hmembers, Sql.rolesOf]
  rw [resolveGrants, resolveGrants, husers, hroles, hheld]

theorem resolveGrants_deleteGrantsFor {names : List String}
    (h : ∀ g ∈ Sql.heldGrants a.store name, g.tbl ∈ names → isInternalTable g.tbl = true) :
    resolveGrants (deleteGrantsFor a names).store name = resolveGrants a.store name := by
  refine resolveGrants_congr rfl rfl ?_
  show (a.grants.filter fun g => !(names.contains g.tbl && !isInternalTable g.tbl)).filter _ = _
  rw [List.filter_comm]
  refine List.filter_eq_self.2 fun g hg => ?_
  by_cases hmem : g.tbl ∈ names
  · rw [h g hg hmem]
    simp
  · simp [hmem]

theorem resolveGrants_renameGrants {old new : String}
    (h : ∀ g ∈ Sql.heldGrants a.store name, g.tbl ≠ old) :
    resolveGrants (renameGrants a old new).store name = resolveGrants a.store name := by
  refine resolveGrants_congr rfl rfl ?_
  show (a.grants.map fun g => if g.tbl == old then { g with tbl := new } else g).filter _ = _
  rw [List.filter_map]
  have hgrantee : ((fun g : Grant => decide (g.grantee ∈ Sql.rolesOf (renameGrants a old new).store
      name)) ∘ fun g => if g.tbl == old then { g with tbl := new } else g) =
      fun g => decide (g.grantee ∈ Sql.rolesOf a.store name) := by
    funext g
    show decide ((if g.tbl == old then { g with tbl := new } else g).grantee ∈ _) = _
    split <;> rfl
  rw [hgrantee]
  refine (List.map_congr_left fun g hg => ?_).trans (List.map_id _)
  rw [if_neg]
  · rfl
  · exact fun heq => h g hg (by simpa using heq)

end Docsql.Auth
