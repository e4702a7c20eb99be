/-
The grant cache of `AuthzService`: `_grants_for_user_id` and `anonymous_grants` look into the cache, query
the database and store the result under the version of that moment; a write commits and then invalidates.
An answer is current when no result is stored after a write that committed since its query has returned.
-/
import OpenFish.Lib.Interleave
import OpenFish.Authz.Grants

namespace OpenFish.Authz

open Lib

/-- A reading of the monotonic clock, in nanoseconds. -/
abbrev Time := Nat

/-- `CACHE_TTL_SECONDS`. -/
def cacheTtl : Time := 30000000000

structure Entry where
  version : Nat
  stampedAt : Time
  grants : List String
  deriving DecidableEq, Repr

/-- The service: its cache, and the database with every state it was ever committed in, the first one first. -/
structure Service where
  version : Nat := 0
  grantCache : Nat → Option Entry := fun _ => none
  anonCache : Option Entry := none
  dbs : List Db
  clock : Time := 0
  /-- Which state the latest committed of the returned writes led to. -/
  returned : Nat := 0

/-- `_fresh`. -/
def fresh (entry : Option Entry) (version : Nat) (clock : Time) : Option (List String) :=
  match entry with
  | none => none
  | some e =>
    if e.version ≠ version then none
    else if cacheTtl < clock - e.stampedAt then none
    else some e.grants

def Service.cached (s : Service) : Principal → Option Entry
  | .anonymous => s.anonCache
  | .user id => s.grantCache id

/-- `self._grant_cache[user_id] = …` and `self._anon_cache = …`. -/
def Service.stored (s : Service) (who : Principal) (e : Entry) : Service :=
  match who with
  | .anonymous => { s with anonCache := some e }
  | .user id => { s with grantCache := fun j => if j = id then some e else s.grantCache j }

def Service.invalidate (s : Service) : Service :=
  { s with version := s.version + 1, grantCache := fun _ => none, anonCache := none }

/-- A check: who asks for what, and which state the writes that had returned when it began led to. -/
structure Check where
  who : Principal
  code : String
  floor : Nat
  deriving DecidableEq, Repr

/-- Where a call stands. -/
inductive Call
  /-- `has_permission` before it looks into the cache. -/
  | checking (c : Check)
  | querying (c : Check)
  /-- Before it stores what it read off the state `n` of the database. -/
  | storing (c : Check) (grants : List String) (n : Nat)
  | answered (c : Check) (answer : Bool)
  | writing (w : Write)
  /-- Before it invalidates, its change committed as the state `n`. -/
  | committed (n : Nat)
  /-- Returned or raised, with nothing to answer. -/
  | ended
  deriving DecidableEq, Repr

/-- A call as it is made. -/
inductive Request
  | hasPermission (who : Principal) (code : String)
  | write (w : Write)
  deriving DecidableEq, Repr

def enter (s : Service) : Request → Call
  | .hasPermission who code => .checking ⟨who, code, s.returned⟩
  | .write w => .writing w

/-- One step; a statement that the database refuses ends the call with an exception. -/
def step (s : Service) (k : Call) (accepted : Bool) : Service × Call :=
  match k with
  | .checking c =>
    match fresh (s.cached c.who) s.version s.clock with
    | some grants => (s, .answered c (c.code ∈ grants))
    | none => (s, .querying c)
  | .querying c =>
    match s.dbs.getLast?, accepted with
    | some db, true => (s, .storing c (grantsOf db c.who) (s.dbs.length - 1))
    | _, _ => (s, .ended)
  | .storing c grants _ =>
    (s.stored c.who { version := s.version, stampedAt := s.clock, grants }, .answered c (c.code ∈ grants))
  | .writing w =>
    match s.dbs.getLast?.bind w.commit, accepted with
    | some db, true => ({ s with dbs := s.dbs ++ [db] }, .committed s.dbs.length)
    | _, _ => (s, .ended)
  | .committed n => ({ s.invalidate with returned := max s.returned n }, .ended)
  | .answered .. | .ended => (s, k)

/-- The service over a database, with the time passing. -/
def service (db : Db) : Program Service Call Request Bool Time where
  start := { dbs := [db] }
  enter := enter
  step := step
  other s d := { s with clock := s.clock + d }

/-! ## What the cache promises -/

/-- `grants` are those of a state of the database at or after the state `floor`. -/
def AtOrAfter (s : Service) (floor : Nat) (who : Principal) (grants : List String) : Prop :=
  ∃ n db, floor ≤ n ∧ s.dbs[n]? = some db ∧ grants = grantsOf db who

/-- Every answer is that of a state of the database at or after the writes that had returned when the call
began. -/
def Current (s : Scene Service Call) : Prop :=
  ∀ (i : Nat) (c : Check) (answer : Bool), s.calls[i]? = some (.answered c answer) →
    ∃ grants, AtOrAfter s.shared c.floor c.who grants ∧ answer = decide (c.code ∈ grants)

/-- A result is stored only while no write has returned that committed after its query. -/
def StoresInTime (s : Scene Service Call) : Move Request Bool Time → Prop
  | .step i _ =>
    match s.calls[i]? with
    | some (.storing _ _ n) => s.shared.returned ≤ n
    | _ => True
  | _ => True

/-! ## The invariant -/

/-- What is cached under the version of now is of a state at or after every write that has returned. -/
structure Versioned (s : Service) : Prop where
  returned : s.returned < s.dbs.length
  cached : ∀ who e, s.cached who = some e → e.version = s.version → AtOrAfter s s.returned who e.grants

/-- What holds of a call wherever it stands. -/
def Standing (s : Service) : Call → Prop
  | .checking c | .querying c => c.floor ≤ s.returned
  | .storing c grants n => c.floor ≤ n ∧ ∃ db, s.dbs[n]? = some db ∧ grants = grantsOf db c.who
  | .answered c answer => ∃ grants, AtOrAfter s c.floor c.who grants ∧ answer = decide (c.code ∈ grants)
  | .committed n => n < s.dbs.length
  | .writing _ | .ended => True

/-- The database keeps its states, and a write that returned stays returned. -/
structure Grows (s s' : Service) : Prop where
  dbs : ∃ new, s'.dbs = s.dbs ++ new
  returned : s.returned ≤ s'.returned

theorem Grows.get? {s s' : Service} (h : Grows s s') {n : Nat} {db : Db} (hn : s.dbs[n]? = some db) :
    s'.dbs[n]? = some db := by
  obtain ⟨new, hnew⟩ := h.dbs
  rw [hnew]
  exact (List.getElem?_append_left (List.getElem?_eq_some_iff.1 hn).1).trans hn

theorem Grows.atOrAfter {s s' : Service} (h : Grows s s') {floor : Nat} {who : Principal} {grants : List String}
    (hs : AtOrAfter s floor who grants) : AtOrAfter s' floor who grants := by
  obtain ⟨n, db, hle, hn, hgrants⟩ := hs
  exact ⟨n, db, hle, h.get? hn, hgrants⟩

theorem Grows.standing {s s' : Service} (h : Grows s s') {k : Call} (hk : Standing s k) : Standing s' k := by
  cases k with
  | checking c | querying c => exact Nat.le_trans hk h.returned
  | storing c grants n =>
    obtain ⟨hle, db, hn, hgrants⟩ := hk
    exact ⟨hle, db, h.get? hn, hgrants⟩
  | answered c answer =>
    obtain ⟨grants, hat, hans⟩ := hk
    exact ⟨grants, h.atOrAfter hat, hans⟩
  | committed n =>
    obtain ⟨new, hnew⟩ := h.dbs
    have hn : n < s.dbs.length := hk
    show n < s'.dbs.length
    rw [hnew, List.length_append]
    omega
  | writing w => trivial
  | ended => trivial

theorem grows_refl {s s' : Service} (hdbs : s'.dbs = s.dbs) (hret : s'.returned = s.returned) : Grows s s' :=
  ⟨⟨[], by rw [hdbs, List.append_nil]⟩, Nat.le_of_eq hret.symm⟩

theorem fresh_eq_some {entry : Option Entry} {version : Nat} {clock : Time} {grants : List String}
    (h : fresh entry version clock = some grants) : ∃ e, entry = some e ∧ e.version = version ∧ grants = e.grants := by
  unfold fresh at h
  split at h
  · cases h
  · rename_i e
    split at h
    · cases h
    · rename_i hv
      split at h
      · cases h
      · cases h
        exact ⟨e, rfl, not_not.1 hv, rfl⟩

theorem cached_stored (s : Service) (who who' : Principal) (e : Entry) :
    (s.stored who e).cached who' = if who' = who then some e else s.cached who' := by
  cases who <;> cases who' <;> simp [Service.stored, Service.cached]

theorem stored_eq (s : Service) (who : Principal) (e : Entry) :
    (s.stored who e).dbs = s.dbs ∧ (s.stored who e).returned = s.returned ∧ (s.stored who e).version = s.version := by
  cases who <;> exact ⟨rfl, rfl, rfl⟩

theorem cached_invalidate (s : Service) (who : Principal) : s.invalidate.cached who = none := by
  cases who <;> rfl

/-- What one step of a call does: the database grows, the invariant is kept, and the call stands where it should. -/
theorem step_spec {s : Service} {k : Call} (hs : Versioned s) (hk : Standing s k) (accepted : Bool)
    (hok : ∀ c grants n, k = .storing c grants n → s.returned ≤ n) :
    Grows s (step s k accepted).1 ∧ Versioned (step s k accepted).1 ∧
      Standing (step s k accepted).1 (step s k accepted).2 := by
  have hkept : Grows s s := grows_refl rfl rfl
  cases k with
  | checking c =>
    cases hfresh : fresh (s.cached c.who) s.version s.clock with
    | some grants =>
      simp only [step, hfresh]
      obtain ⟨e, hentry, hversion, rfl⟩ := fresh_eq_some hfresh
      obtain ⟨n, db, hle, hn, hgrants⟩ := hs.cached _ e hentry hversion
      exact ⟨hkept, hs, e.grants, ⟨n, db, Nat.le_trans hk hle, hn, hgrants⟩, rfl⟩
    | none =>
      simp only [step, hfresh]
      exact ⟨hkept, hs, hk⟩
  | querying c =>
    have hlast : s.dbs.getLast? = s.dbs[s.dbs.length - 1]? := List.getLast?_eq_getElem?
    have hlt := hs.returned
    have hfloor : c.floor ≤ s.returned := hk
    cases hdb : s.dbs.getLast? with
    | none =>
      simp only [step, hdb]
      exact ⟨hkept, hs, trivial⟩
    | some db =>
      cases accepted with
      | false =>
        simp only [step, hdb]
        exact ⟨hkept, hs, trivial⟩
      | true =>
        simp only [step, hdb]
        refine ⟨hkept, hs, ?_, db, hlast.symm.trans hdb, rfl⟩
        omega
  | storing c grants n =>
    simp only [step]
    have hret := hok c grants n rfl
    obtain ⟨hle, db, hn, hgrants⟩ := hk
    obtain ⟨hdbs, hreturned, hversion⟩ := stored_eq s c.who { version := s.version, stampedAt := s.clock, grants }
    have hgrows := grows_refl hdbs hreturned
    -- the entry goes under the version of now; what it was read from is no older, by `hok`
    refine ⟨hgrows, ⟨by rw [hdbs, hreturned]; exact hs.returned, fun who e he hev => ?_⟩, grants, ?_, rfl⟩
    · rw [hreturned]
      rw [cached_stored] at he
      split at he
      · rename_i hwho
        cases he
        exact hgrows.atOrAfter ⟨n, db, hret, hn, hwho ▸ hgrants⟩
      · rw [hversion] at hev
        exact hgrows.atOrAfter (hs.cached who e he hev)
    · exact hgrows.atOrAfter ⟨n, db, hle, hn, hgrants⟩
  | answered c answer => exact ⟨hkept, hs, hk⟩
  | writing w =>
    cases hdb : s.dbs.getLast?.bind w.commit with
    | none =>
      simp only [step, hdb]
      exact ⟨hkept, hs, trivial⟩
    | some db =>
      cases accepted with
      | false =>
        simp only [step, hdb]
        exact ⟨hkept, hs, trivial⟩
      | true =>
        simp only [step, hdb]
        have hgrows : Grows s { s with dbs := s.dbs ++ [db] } := ⟨⟨[db], rfl⟩, Nat.le_refl _⟩
        have hlt := hs.returned
        refine ⟨hgrows, ⟨?_, fun who e he hev => hgrows.atOrAfter (hs.cached who e he hev)⟩, ?_⟩
        · show s.returned < (s.dbs ++ [db]).length
          rw [List.length_append]
          omega
        · show s.dbs.length < (s.dbs ++ [db]).length
          rw [List.length_append, List.length_singleton]
          omega
  | committed n =>
    refine ⟨⟨⟨[], (List.append_nil _).symm⟩, Nat.le_max_left _ _⟩, ⟨?_, fun who e he _ => ?_⟩, trivial⟩
    · exact Nat.max_lt.2 ⟨hs.returned, hk⟩
    · have hnone := cached_invalidate s who
      cases who <;> cases he
  | ended => exact ⟨hkept, hs, trivial⟩

theorem outline (db : Db) : (service db).Outline StoresInTime Versioned Standing where
  start := ⟨Nat.zero_lt_one, fun who e he => by cases who <;> cases he⟩
  enter := by
    intro s a _
    cases a with
    | hasPermission who code => exact Nat.le_refl _
    | write w => trivial
  step := by
    intro s i k w hs hi hok
    have hspec := step_spec hs.shared (hs.calls hi) w fun c grants n hk => by
      subst hk
      simpa only [StoresInTime, hi] using hok
    exact hspec.2
  others := by
    intro s i k w j k' hs hi hok _ hj
    have hspec := step_spec hs.shared (hs.calls hi) w fun c grants n hk => by
      subst hk
      simpa only [StoresInTime, hi] using hok
    exact hspec.1.standing (hs.calls hj)
  world := by
    intro s d hs _
    have hgrows : Grows s.shared { s.shared with clock := s.shared.clock + d } := grows_refl rfl rfl
    refine ⟨⟨hs.shared.returned, fun who e he hev => hs.shared.cached who e ?_ hev⟩, fun hk => hgrows.standing (hs.calls hk)⟩
    cases who <;> exact he

/-- Within one process, an answer of `has_permission` is that of a state of the database at or after every
write that had returned when the call began, as long as every result is stored in time. -/
theorem answers_current (db : Db) {ms : List (Move Request Bool Time)}
    (h : (service db).machine.AllSteps (fun _ => StoresInTime) ms) :
    (service db).machine.AllStates (fun _ => Current) ms :=
  h.allStates fun _ hs _ _ _ hk => ((outline db).run hs).calls hk

/-! ## The revocation that is not seen -/

/-- One account that holds one role with one permission. -/
def oneGrant : Db where
  users := [1]
  roles := [⟨1, "dev", false, false⟩]
  permissions := [⟨1, "repo:push"⟩]
  userRoles := [⟨1, 1⟩]
  rolePermissions := [⟨1, 1⟩]

/-- A check stores its result in time, the role is revoked, and a second check asks the database again. -/
def revokedBetween : List (Move Request Bool Time) :=
  [.step 2 true, .step 2 true, .step 2 true, .begin (.hasPermission (.user 1) "repo:push"),
    .step 1 true, .step 1 true, .begin (.write (.revokeRole 1 "dev")),
    .step 0 true, .step 0 true, .step 0 true, .begin (.hasPermission (.user 1) "repo:push")]

theorem answers_current_revokedBetween :
    (service oneGrant).machine.AllSteps (fun _ => StoresInTime) revokedBetween ∧
      (service oneGrant).machine.AllStates (fun _ => Current) revokedBetween :=
  have h : (service oneGrant).machine.AllSteps (fun _ => StoresInTime) revokedBetween :=
    ⟨Nat.le_refl _, trivial, trivial, trivial, trivial, trivial, trivial, Nat.le_refl _, trivial, trivial, trivial, trivial⟩
  ⟨h, answers_current oneGrant h⟩

/-- A check reads the grants, the role is revoked and the cache invalidated, the check stores what it read
under the new version, and the next check is answered with it. -/
def revokedBeforeStore : List (Move Request Bool Time) :=
  [.step 2 true, .begin (.hasPermission (.user 1) "repo:push"), .step 0 true,
    .step 1 true, .step 1 true, .begin (.write (.revokeRole 1 "dev")),
    .step 0 true, .step 0 true, .begin (.hasPermission (.user 1) "repo:push")]

/-- The call that begins after the revocation has returned is answered `true`. -/
theorem revokedBeforeStore_not_current :
    ¬ (service oneGrant).machine.AllStates (fun _ => Current) revokedBeforeStore := by
  intro h
  have hanswered : ((service oneGrant).machine.state revokedBeforeStore).calls[2]? =
      some (.answered ⟨.user 1, "repo:push", 1⟩ true) := by decide
  have hdbs : ((service oneGrant).machine.state revokedBeforeStore).shared.dbs =
      [oneGrant, { oneGrant with userRoles := [] }] := by decide
  obtain ⟨grants, ⟨n, db, hle, hn, rfl⟩, hanswer⟩ := h.now 2 _ _ hanswered
  rw [hdbs] at hn
  match n, hle with
  | 1, _ =>
    cases hn
    exact absurd hanswer (by decide)
  | n + 2, _ => cases hn

end OpenFish.Authz
