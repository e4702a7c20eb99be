/-
The RBAC tables of `models/rbac.py` and what `AuthzService` (`services/authz.py`) reads off them and writes
to them: the permission codes of a user and of an anonymous caller, and the four writes that change them.
-/
import Mathlib.Data.List.Dedup
import Mathlib.Tactic.Common

namespace OpenFish.Authz

structure Role where
  id : Nat
  code : String
  isBuiltin : Bool
  isAnonymousDefault : Bool
  deriving DecidableEq, Repr

structure Permission where
  id : Nat
  code : String
  deriving DecidableEq, Repr

structure UserRole where
  userId : Nat
  roleId : Nat
  deriving DecidableEq, Repr

structure RolePermission where
  roleId : Nat
  permissionId : Nat
  deriving DecidableEq, Repr

/-- The tables as committed. -/
structure Db where
  users : List Nat
  roles : List Role
  permissions : List Permission
  userRoles : List UserRole
  rolePermissions : List RolePermission
  deriving DecidableEq, Repr

/-- Who asks, a superuser apart: an account, or a caller without one. -/
inductive Principal
  | anonymous
  | user (id : Nat)
  deriving DecidableEq, Repr

/-! ## Reads -/

/-- The roles of the query's join: those granted to the account, or those flagged as the anonymous default. -/
def heldRoles (db : Db) : Principal → List Role
  | .anonymous => db.roles.filter (·.isAnonymousDefault)
  | .user id => db.roles.filter fun r => db.userRoles.any fun ur => ur.userId = id ∧ ur.roleId = r.id

/-- The query of `_grants_for_user_id` and of `anonymous_grants`. -/
def grantsOf (db : Db) (who : Principal) : List String :=
  ((db.permissions.filter fun p =>
    (heldRoles db who).any fun r => db.rolePermissions.any fun rp => rp.roleId = r.id ∧ rp.permissionId = p.id).map
      (·.code)).dedup

/-! ## Writes -/

inductive Write
  | revokeRole (userId : Nat) (roleCode : String)
  | grantRole (userId : Nat) (roleCode : String)
  | setRolePermissions (roleId : Nat) (codes : List String)
  | deleteRole (roleId : Nat)
  deriving DecidableEq, Repr

def Db.role? (db : Db) (id : Nat) : Option Role := db.roles.find? (·.id = id)

def Db.roleByCode? (db : Db) (code : String) : Option Role := db.roles.find? (·.code = code)

def Db.permission? (db : Db) (code : String) : Option Permission := db.permissions.find? (·.code = code)

def Db.nextPermissionId (db : Db) : Nat := (db.permissions.map (·.id)).foldl max 0 + 1

/-- The permission points an administrator names before any code checks them. -/
def Db.addPermissions (db : Db) : List String → Db
  | [] => db
  | code :: codes =>
    { db with permissions := db.permissions ++ [⟨db.nextPermissionId, code⟩] : Db }.addPermissions codes

/-- `_set_role_permissions` with `replace`: the role's rows outside `wanted` are deleted, the others added. -/
def Db.rewrite (db : Db) (roleId : Nat) (wanted : List Nat) : Db :=
  let kept := db.rolePermissions.filter fun rp => rp.roleId ≠ roleId ∨ rp.permissionId ∈ wanted
  { db with
    rolePermissions := kept ++
      (wanted.filter fun pid => RolePermission.mk roleId pid ∉ db.rolePermissions).map (RolePermission.mk roleId) }

/-- What a write commits; nothing when it returns or raises before its commit. -/
def Write.commit (db : Db) : Write → Option Db
  | .revokeRole userId roleCode =>
    match db.roleByCode? roleCode with
    | none => none
    | some role =>
      some { db with userRoles := db.userRoles.filter fun ur => ¬ (ur.userId = userId ∧ ur.roleId = role.id) }
  | .grantRole userId roleCode =>
    match db.roleByCode? roleCode with
    | none => none
    | some role =>
      if userId ∉ db.users then none
      else if UserRole.mk userId role.id ∈ db.userRoles then none
      else some { db with userRoles := db.userRoles ++ [⟨userId, role.id⟩] }
  | .setRolePermissions roleId codes =>
    match db.role? roleId with
    | none => none
    | some role =>
      let unknown := codes.filter fun c => db.permission? c = none
      -- a code that is new and named twice breaks the unique constraint on codes
      if ¬ unknown.Nodup then none
      else
        let db' := db.addPermissions unknown
        some (db'.rewrite role.id ((codes.filterMap db'.permission?).map (·.id)).dedup)
  | .deleteRole roleId =>
    match db.role? roleId with
    | none => none
    | some role =>
      if role.isBuiltin then none
      else
        some { db with
          roles := db.roles.filter (·.id ≠ role.id)
          userRoles := db.userRoles.filter (·.roleId ≠ role.id)
          rolePermissions := db.rolePermissions.filter (·.roleId ≠ role.id) }

end OpenFish.Authz
