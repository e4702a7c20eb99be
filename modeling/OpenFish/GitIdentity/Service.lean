/-
`GitIdentityService` of `services/git_identity.py` for one account: `token_for` with `ensure`, the reuse and the
minting of the account's token, and `revoke`, against a Forgejo that keeps at most one token under the service's
name, refuses a second one and lets a missing one be deleted. Every remote call may fail before or after it
takes effect, and every call may be cut short.
-/
import OpenFish.Lib.Interleave

namespace OpenFish.GitIdentity

open Lib

abbrev Time := Int

/-- What the stored ciphertext opens to. -/
structure Sealed where
  token : Nat
  readOnly : Bool
  deriving DecidableEq, Repr

/-- The row of `git_identities`. -/
structure Row where
  sealed : Option Sealed := none
  tokenExpiresAt : Option Time := none
  revokedAt : Option Time := none
  deriving DecidableEq, Repr

/-- A token on Forgejo, with how many revocations had returned when the call that made it began. -/
structure Token where
  secret : Nat
  readOnly : Bool
  begun : Nat
  deriving DecidableEq, Repr

/-- The account on both sides. -/
structure Account where
  row : Option Row := none
  /-- The Forgejo account exists. -/
  onForgejo : Bool := false
  /-- The account's token under the service's name. -/
  live : Option Token := none
  clock : Time := 0
  /-- How many tokens Forgejo has made: each has another secret. -/
  made : Nat := 0
  /-- How many `delete_token` and `create_token` calls took effect. -/
  touches : Nat := 0
  /-- How many `revoke` calls returned `True`. -/
  revocations : Nat := 0
  deriving DecidableEq, Repr

/-- What a commit writes: the columns that `after` has changed from the row as the session loaded it. -/
def Row.merge (loaded after current : Row) : Row where
  sealed := if after.sealed = loaded.sealed then current.sealed else after.sealed
  tokenExpiresAt := if after.tokenExpiresAt = loaded.tokenExpiresAt then current.tokenExpiresAt else after.tokenExpiresAt
  revokedAt := if after.revokedAt = loaded.revokedAt then current.revokedAt else after.revokedAt

def Account.commit (s : Account) (loaded after : Row) : Account := { s with row := s.row.map (loaded.merge after) }

/-- `_is_expired`. -/
def isExpired (expiresAt : Option Time) (now : Time) : Bool :=
  match expiresAt with
  | none => true
  | some t => t ≤ now

/-- `_reusable_token`. -/
def reusableToken (row : Row) (now : Time) (readOnly : Bool) : Option Nat :=
  if row.revokedAt.isSome then none
  else
    match row.sealed with
    | none => none
    | some c =>
      if isExpired row.tokenExpiresAt now then none
      else if c.readOnly ≠ readOnly then none
      else some c.token

/-- How a step ends: a remote call may fail before or after it takes effect, and any step may be the last. -/
inductive Fate
  | done
  | failsBefore
  | failsAfter
  | crash
  deriving DecidableEq, Repr

/-- The remote call takes effect. -/
def Fate.effective : Fate → Bool
  | .done | .failsAfter => true
  | .failsBefore | .crash => false

inductive Request
  /-- `named`: the call gives the account's external id. -/
  | tokenFor (readOnly named : Bool)
  | revoke (deleteForgejoUser : Bool)
  deriving DecidableEq, Repr

/-- A `token_for` call: the scope it asks for, and how many revocations had returned when it began. -/
structure Mint where
  readOnly : Bool
  named : Bool
  begun : Nat
  deriving DecidableEq, Repr

/-- Where a call stands, with the row as its session loaded it. -/
inductive Call
  | finding (m : Mint)
  | ensuring (m : Mint) (loaded : Option Row)
  | provisioning (m : Mint) (loaded : Option Row)
  | deciding (m : Mint) (loaded : Row)
  | deleting (m : Mint) (loaded : Row) (now : Time)
  | creating (m : Mint) (loaded : Row) (now : Time)
  | committing (m : Mint) (loaded : Row) (now : Time) (secret : Nat)
  | credential (m : Mint) (secret : Nat)
  | revoking (deleteForgejoUser : Bool)
  | cutting (deleteForgejoUser : Bool) (loaded : Row)
  | removing (loaded : Row)
  | finishing (loaded : Row)
  | revoked (found : Bool)
  /-- Raised, or cut short. -/
  | ended
  deriving DecidableEq, Repr

def enter (s : Account) : Request → Call
  | .tokenFor readOnly named => .finding ⟨readOnly, named, s.revocations⟩
  | .revoke deleteForgejoUser => .revoking deleteForgejoUser

/-- `ensure` once it has the row under its lock. The session keeps the row it loaded first, so the second look
finds a row only where the first one found none. -/
def underLock (m : Mint) (loaded current : Option Row) : Call :=
  match loaded.or current with
  | some row => if row.revokedAt.isNone then .deciding m row else .ensuring m (some row)
  | none => .ensuring m none

/-- `revoke` once the remote token is gone. -/
def afterDelete (deleteForgejoUser : Bool) (loaded : Row) : Call :=
  if deleteForgejoUser then .removing loaded else .finishing loaded

def Account.deleteToken (s : Account) : Account := { s with live := none, touches := s.touches + 1 }

/-- `create_token`, where Forgejo does not refuse it. -/
def Account.createToken (s : Account) (m : Mint) : Account :=
  { s with live := some ⟨s.made, m.readOnly, m.begun⟩, made := s.made + 1, touches := s.touches + 1 }

variable (lifetime : Time)

/-- One step of a call. -/
def step (s : Account) (k : Call) (fate : Fate) : Account × Call :=
  match k with
  | .finding m =>
    if fate = .crash then (s, .ended)
    else
      match s.row with
      | some row => (s, if row.revokedAt.isNone then .deciding m row else .ensuring m (some row))
      | none => (s, if m.named then .ensuring m none else .ended)
  | .ensuring m loaded =>
    match underLock m loaded s.row with
    | .ensuring m loaded =>
      ({ s with onForgejo := s.onForgejo || fate.effective },
        if fate = .done then .provisioning m loaded else .ended)
    | k => (s, if fate = .crash then .ended else k)
  | .provisioning m loaded =>
    if fate ≠ .done then (s, .ended)
    else
      match loaded with
      | some row => (s.commit row { row with revokedAt := none }, .deciding m { row with revokedAt := none })
      | none =>
        -- another session may have inserted the row: the unique constraint hands it over as it is
        match s.row with
        | some row => (s, .deciding m row)
        | none => ({ s with row := some {} }, .deciding m {})
  | .deciding m loaded =>
    if fate = .crash then (s, .ended)
    else
      match reusableToken loaded s.clock m.readOnly with
      | some token => (s, .credential m token)
      | none => (s, if loaded.sealed.isSome then .deleting m loaded s.clock else .creating m loaded s.clock)
  | .deleting m loaded now =>
    -- a failed deletion is passed over
    (if fate.effective then s.deleteToken else s, if fate = .crash then .ended else .creating m loaded now)
  | .creating m loaded now =>
    if fate.effective ∧ s.onForgejo ∧ s.live = none then
      (s.createToken m, if fate = .done then .committing m loaded now s.made else .ended)
    else (s, .ended)
  | .committing m loaded now secret =>
    if fate ≠ .done then (s, .ended)
    else
      (s.commit loaded ⟨some ⟨secret, m.readOnly⟩, some (now + lifetime), none⟩, .credential m secret)
  | .revoking deleteForgejoUser =>
    if fate = .crash then (s, .ended)
    else
      match s.row with
      | none => (s, .revoked false)
      | some row => (s, if row.sealed.isSome then .cutting deleteForgejoUser row else afterDelete deleteForgejoUser row)
  | .cutting deleteForgejoUser loaded =>
    (if fate.effective then s.deleteToken else s,
      if fate = .done then afterDelete deleteForgejoUser loaded else .ended)
  | .removing loaded =>
    (if fate.effective then { s with onForgejo := false, live := none } else s,
      if fate = .crash then .ended else .finishing loaded)
  | .finishing loaded =>
    if fate ≠ .done then (s, .ended)
    else ({ s.commit loaded ⟨none, none, some s.clock⟩ with revocations := s.revocations + 1 }, .revoked true)
  | .credential .. | .revoked _ | .ended => (s, k)

/-- The service for one account, from before its first credential, with the time passing. -/
def service : Program Account Call Request Fate Nat where
  start := {}
  enter := enter
  step := step lifetime
  other s d := { s with clock := s.clock + d }

end OpenFish.GitIdentity
