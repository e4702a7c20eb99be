/-
What a boot does to the RBAC tables (`AuthzService.sync_permissions`, `sync_builtin_roles`, `bootstrap`) and what an
administrator does to them between two boots.
-/
import OpenFish.Authz.Grants
import OpenFish.Lib.Dict
import OpenFish.Lib.Text

namespace OpenFish.Authz

open Lib

/-! ## The tables -/

structure Tables extends Db where
  /-- `auto_grant` of a role, and `module` of a point. -/
  autoGrant : Dict Nat Bool
  modules : Dict Nat String
  /-- The ids in `seed_migrations`. -/
  seeds : List String

def Tables.empty : Tables where
  users := []
  roles := []
  permissions := []
  userRoles := []
  rolePermissions := []
  autoGrant := .empty
  modules := .empty
  seeds := []

def Db.nextRoleId (db : Db) : Nat := (db.roles.map (·.id)).foldl max 0 + 1

/-- `{perms[c].id for c in codes if c in perms}`. -/
def Tables.ids (t : Tables) (codes : List String) : List Nat := (codes.filterMap t.permission?).map (·.id)

/-- `_set_role_permissions` without `replace`: the missing rows are added. -/
def Tables.grant (t : Tables) (roleId : Nat) (wanted : List Nat) : Tables :=
  { t with
    rolePermissions := t.rolePermissions ++
      (wanted.dedup.filter fun pid => RolePermission.mk roleId pid ∉ t.rolePermissions).map (RolePermission.mk roleId) }

/-! ## A boot -/

/-- An entry of `_SEED_TOPUPS`. -/
structure Topup where
  id : String
  role : String
  points : List String
  deriving DecidableEq, Repr

/-- What one release declares: `seed_catalog()`, as the module of each point, and `_SEED_TOPUPS`. -/
structure Release where
  catalog : Dict String String
  topups : List Topup

def anonymousRole : String := "anonymous"
def authenticatedRole : String := "authenticated"
def adminRole : String := "admin"

structure BuiltinRole where
  code : String
  isBuiltin : Bool
  isAnonymousDefault : Bool
  autoGrant : Bool
  deriving DecidableEq, Repr

/-- `BUILTIN_ROLES`. -/
def builtinRoles : List BuiltinRole :=
  [⟨anonymousRole, true, true, false⟩, ⟨authenticatedRole, true, false, true⟩, ⟨adminRole, true, false, false⟩]

/-- `_ANONYMOUS_SEED`. -/
def anonymousSeed : List String := ["doc:read"]

/-- `_AUTHENTICATED_SEED`. -/
def authenticatedSeed : List String :=
  ["package:read", "package:write", "build:read", "build:download", "build:sha256", "nodebuild:read", "nodebuild:download",
    "nodebuild:sha256", "tool:read", "tool:download", "npm:read", "npm:download", "npm:publish", "model:read", "model:resolve",
    "docker:read", "docker:download", "debian:read", "debian:download", "doc:read", "app:read", "repo:read", "repo:push",
    "finding:read", "agent:run", "key:list", "key:create", "key:delete", "key:stats"]

def seedOf (t : Tables) (code : String) : List String :=
  if code = anonymousRole then anonymousSeed
  else if code = authenticatedRole then authenticatedSeed
  else t.permissions.map (·.code)

/-- One turn of the loop of `sync_permissions`. The codes of the catalog are distinct, so no turn sees a row that another
one has added. -/
def syncPermission (t : Tables) (e : String × String) : Tables :=
  match t.permission? e.1 with
  | none =>
    { t with permissions := t.permissions ++ [⟨t.nextPermissionId, e.1⟩], modules := t.modules.set t.nextPermissionId e.2 }
  | some row => if t.modules.has row.id then t else { t with modules := t.modules.set row.id e.2 }

/-- `sync_permissions`. -/
def syncPermissions (catalog : Dict String String) (t : Tables) : Tables := catalog.entries.foldl syncPermission t

/-- A built-in role is created with its seed, or keeps its points and gets its flags back. -/
def syncRole (t : Tables) (b : BuiltinRole) : Tables :=
  match t.roleByCode? b.code with
  | none =>
    let id := t.nextRoleId
    let created : Tables :=
      { t with
        roles := t.roles ++ [⟨id, b.code, b.isBuiltin, b.isAnonymousDefault⟩]
        autoGrant := t.autoGrant.set id b.autoGrant }
    created.grant id (t.ids (seedOf t b.code))
  | some role =>
    { t with
      roles := t.roles.map fun r =>
        if r.id = role.id then { r with isBuiltin := true, isAnonymousDefault := b.isAnonymousDefault } else r
      autoGrant := t.autoGrant.set role.id b.autoGrant }

/-- The admin role is topped up with every point there is. -/
def topUpAdmin (t : Tables) : Tables :=
  match t.roleByCode? adminRole with
  | none => t
  | some role => t.grant role.id (t.permissions.map (·.id))

/-- `_apply_seed_topups`, with the entries that are applied. -/
def applySeedTopups : List Topup → Tables → Tables × List Topup
  | [], t => (t, [])
  | entry :: rest, t =>
    if entry.id ∈ t.seeds then applySeedTopups rest t
    else
      match t.roleByCode? entry.role with
      -- the role may be created by a later release, so the entry waits
      | none => applySeedTopups rest t
      | some role =>
        let recorded : Tables := { t.grant role.id (t.ids entry.points) with seeds := t.seeds ++ [entry.id] }
        ((applySeedTopups rest recorded).1, entry :: (applySeedTopups rest recorded).2)

/-- What `sync_builtin_roles` has done when it comes to the top-ups. -/
def beforeTopups (r : Release) (t : Tables) : Tables :=
  topUpAdmin (builtinRoles.foldl syncRole (syncPermissions r.catalog t))

/-- `bootstrap`. -/
def bootstrap (r : Release) (t : Tables) : Tables := (applySeedTopups r.topups (beforeTopups r t)).1

/-! ## An administrator -/

/-- `module_of`. -/
def moduleOf (code : String) : String := (Text.partition ':' code).1

inductive Edit
  | setRolePermissions (roleId : Nat) (codes : List String)
  | createRole (code : String)
  | deleteRole (roleId : Nat)
  deriving DecidableEq, Repr

variable (isAlnum : Char → Bool)

/-- The code of a role that may be created. -/
def roleCode (code : String) : Option String :=
  let code := Text.strip code
  let bare := Text.removeChar '_' (Text.removeChar '-' code)
  if code = "" ∨ bare = "" ∨ bare.toList.all isAlnum = false then none else some code

/-- What an edit leaves; one that raises leaves everything as it was. -/
def Edit.run (t : Tables) : Edit → Tables
  | .setRolePermissions roleId codes =>
    match (Write.setRolePermissions roleId codes).commit t.toDb with
    | none => t
    | some db =>
      let created := db.permissions.filter fun p => t.permission? p.code = none
      { t with toDb := db, modules := t.modules.update (created.map fun p => (p.id, moduleOf p.code)) }
  | .createRole code =>
    match roleCode isAlnum code with
    | none => t
    | some code =>
      if (t.roleByCode? code).isSome then t
      else
        { t with
          roles := t.roles ++ [⟨t.nextRoleId, code, false, false⟩]
          autoGrant := t.autoGrant.set t.nextRoleId false }
  | .deleteRole roleId =>
    match (Write.deleteRole roleId).commit t.toDb with
    | none => t
    | some db => { t with toDb := db, autoGrant := t.autoGrant.erase roleId }

inductive Event
  | boot (release : Release)
  | edit (edit : Edit)

def Event.run (t : Tables) : Event → Tables
  | .boot release => bootstrap release t
  | .edit e => e.run isAlnum t

end OpenFish.Authz
