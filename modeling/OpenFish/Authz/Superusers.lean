/-
The route `set_superuser` (`routes/access.py`) over `count_superusers` and `set_superuser` of `AuthzService`: a request
checks its caller, counts the superusers if it is to demote one, and writes the flag.
An active superuser remains exactly as long as no demotion is written on a count that has become too high.
-/
import OpenFish.Lib.Interleave
import OpenFish.Lib.Table

namespace OpenFish.Authz

open Lib

/-- A row of `users`. -/
structure Account where
  id : Nat
  isActive : Bool
  isSuperuser : Bool
  deriving DecidableEq, Repr

instance : Keyed Account := ⟨Account.id⟩

structure SuperuserRequest where
  caller : Nat
  userId : Nat
  superuser : Bool
  deriving DecidableEq, Repr

/-- Where a request stands. -/
inductive RequestStage
  | sent
  /-- The caller is a superuser. -/
  | checked
  /-- What `count_superusers` answered was more than one. -/
  | counted (n : Nat)
  | ended
  deriving DecidableEq, Repr

structure Console where
  users : Table Account
  requests : List (SuperuserRequest × RequestStage)

inductive ConsoleInput
  | send (r : SuperuserRequest)
  | step (i : Nat)
  deriving DecidableEq, Repr

inductive ConsoleAnswer
  | sent
  | checked
  | counted (n : Nat)
  | forbidden
  | lastSuperuser
  | userNotFound
  /-- The flag as it was and as it is. -/
  | written (was now : Bool)
  | nothing
  deriving DecidableEq, Repr

/-! ## The route -/

/-- `count_superusers`. -/
def countSuperusers (users : Table Account) : Nat := users.rows.countP (·.isSuperuser)

/-- `principal["is_superuser"]`: guards let in active accounts only. -/
def isSuperuserCaller (users : Table Account) (caller : Nat) : Bool :=
  match users.get? caller with
  | none => false
  | some user => user.isActive && user.isSuperuser

/-- `AuthzService.set_superuser`. -/
def setSuperuser (users : Table Account) (userId : Nat) (value : Bool) : ConsoleAnswer × Table Account :=
  match users.get? userId with
  | none => (.userNotFound, users)
  | some user =>
    (.written user.isSuperuser value,
      users.update (key · == userId) (fun u => { u with isSuperuser := value }) fun _ => rfl)

/-- The next step of a request. -/
def requestStep (users : Table Account) (r : SuperuserRequest) :
    RequestStage → ConsoleAnswer × Table Account × RequestStage
  | .sent => if isSuperuserCaller users r.caller then (.checked, users, .checked) else (.forbidden, users, .ended)
  | .checked =>
    if r.superuser then
      let written := setSuperuser users r.userId true
      (written.1, written.2, .ended)
    else if countSuperusers users ≤ 1 then (.lastSuperuser, users, .ended)
    else (.counted (countSuperusers users), users, .counted (countSuperusers users))
  | .counted _ =>
    let written := setSuperuser users r.userId false
    (written.1, written.2, .ended)
  | .ended => (.nothing, users, .ended)

def Console.step (s : Console) : ConsoleInput → ConsoleAnswer × Console
  | .send r => (.sent, { s with requests := s.requests ++ [(r, .sent)] })
  | .step i =>
    match s.requests[i]? with
    | none => (.nothing, s)
    | some (r, stage) =>
      let next := requestStep s.users r stage
      (next.1, ⟨next.2.1, s.requests.set i (r, next.2.2)⟩)

/-- Any number of requests over the accounts, in any order of their steps. -/
def console (users : Table Account) : Machine Console ConsoleInput ConsoleAnswer := ⟨⟨users, []⟩, Console.step⟩

/-! ## Administrators -/

def Account.administers (u : Account) : Bool := u.isActive && u.isSuperuser

def administrators (users : Table Account) : Nat := users.rows.countP Account.administers

/-- Superusers that `count_superusers` counts although nobody can log in as them. -/
def deactivated (users : Table Account) : Nat := users.rows.countP fun u => !u.isActive && u.isSuperuser

theorem countSuperusers_eq (users : Table Account) : countSuperusers users = administrators users + deactivated users := by
  unfold countSuperusers administrators deactivated
  induction users.rows with
  | nil => rfl
  | cons u rows ih =>
    obtain ⟨id, isActive, isSuperuser⟩ := u
    rw [List.countP_cons, List.countP_cons, List.countP_cons, ih]
    cases isActive <;> cases isSuperuser <;> simp [Account.administers] <;> omega

/-- How often the log, back to the count of request `i`, took the flag from a superuser. -/
def demotedSince (i : Nat) : List (ConsoleInput × ConsoleAnswer) → Nat
  | [] => 0
  | (input, .counted _) :: log => if input = .step i then 0 else demotedSince i log
  | (_, .written true false) :: log => demotedSince i log + 1
  | _ :: log => demotedSince i log

/-- How often it gave the flag. -/
def promotedSince (i : Nat) : List (ConsoleInput × ConsoleAnswer) → Nat
  | [] => 0
  | (input, .counted _) :: log => if input = .step i then 0 else promotedSince i log
  | (_, .written false true) :: log => promotedSince i log + 1
  | _ :: log => promotedSince i log

/-- A demotion of an active superuser is written while its count, less the deactivated superusers and the demotions since,
with the promotions since, is still more than one. -/
def CountHolds (log : List (ConsoleInput × ConsoleAnswer)) (s : Console) : ConsoleInput → Prop
  | .send _ => True
  | .step i =>
    match s.requests[i]? with
    | some (r, .counted n) => ∀ user, s.users.get? r.userId = some user → user.administers = true →
        deactivated s.users + demotedSince i log + 1 < n + promotedSince i log
    | _ => True

/-! ## What a write does -/

/-- What a write adds to a count of flags. -/
def weight (flag : Bool) : Nat := if flag then 1 else 0

theorem setSuperuser_cases (users : Table Account) (userId : Nat) (value : Bool) :
    (users.get? userId = none ∧ setSuperuser users userId value = (.userNotFound, users)) ∨
      ∃ user users', users.get? userId = some user ∧
        setSuperuser users userId value = (.written user.isSuperuser value, users') ∧
        countSuperusers users' + weight user.isSuperuser = countSuperusers users + weight value ∧
        administrators users' + weight user.administers = administrators users + weight (user.isActive && value) := by
  unfold setSuperuser
  cases huser : users.get? userId with
  | none => exact .inl ⟨rfl, rfl⟩
  | some user => exact .inr ⟨user, _, rfl, rfl, Table.countP_update_key _ huser _, Table.countP_update_key _ huser _⟩

variable {log : List (ConsoleInput × ConsoleAnswer)} {input : ConsoleInput} {i : Nat}

theorem demotedSince_written (was now : Bool) :
    demotedSince i ((input, .written was now) :: log) = demotedSince i log + weight (was && !now) := by
  cases was <;> cases now <;> rfl

theorem promotedSince_written (was now : Bool) :
    promotedSince i ((input, .written was now) :: log) = promotedSince i log + weight (!was && now) := by
  cases was <;> cases now <;> rfl

theorem weight_flips (was now : Bool) : weight was + weight (!was && now) = weight now + weight (was && !now) := by
  cases was <;> cases now <;> rfl

/-! ## What a count is worth later -/

/-- A count that was made, corrected by what was written since, is the count of now. -/
def CountsTrack (log : List (ConsoleInput × ConsoleAnswer)) (s : Console) : Prop :=
  ∀ i r n, s.requests[i]? = some (r, .counted n) → countSuperusers s.users + demotedSince i log = n + promotedSince i log

/-- A write moves the count as far as the log says. -/
theorem tracks_write {users : Table Account} {n userId : Nat} {value : Bool}
    (h : countSuperusers users + demotedSince i log = n + promotedSince i log) :
    countSuperusers (setSuperuser users userId value).2 + demotedSince i ((input, (setSuperuser users userId value).1) :: log) =
      n + promotedSince i ((input, (setSuperuser users userId value).1) :: log) := by
  rcases setSuperuser_cases users userId value with ⟨-, heq⟩ | ⟨user, users', -, heq, hcount, -⟩
  · rw [heq]
    exact h
  · rw [heq, demotedSince_written, promotedSince_written]
    have hflips := weight_flips user.isSuperuser value
    dsimp only
    omega

/-- An answer that is neither a count nor a write. -/
def Quiet (answer : ConsoleAnswer) : Prop :=
  ∀ log input i, demotedSince i ((input, answer) :: log) = demotedSince i log ∧
    promotedSince i ((input, answer) :: log) = promotedSince i log

/-- A step of a request leaves the accounts alone, or counts them, or writes a flag. -/
theorem requestStep_cases (users : Table Account) (r : SuperuserRequest) (stage : RequestStage) :
    ((∀ n, stage ≠ .counted n) ∧
      ∃ answer stage', requestStep users r stage = (answer, users, stage') ∧ Quiet answer ∧ ∀ n, stage' ≠ .counted n) ∨
      (stage = .checked ∧ r.superuser = false ∧ requestStep users r stage =
        (.counted (countSuperusers users), users, .counted (countSuperusers users))) ∨
      ∃ value, (value = true ∧ stage = .checked ∨ value = false ∧ ∃ n, stage = .counted n) ∧ requestStep users r stage =
        ((setSuperuser users r.userId value).1, (setSuperuser users r.userId value).2, .ended) := by
  have hquiet : Quiet .nothing ∧ Quiet .checked ∧ Quiet .forbidden ∧ Quiet .lastSuperuser :=
    ⟨fun _ _ _ => ⟨rfl, rfl⟩, fun _ _ _ => ⟨rfl, rfl⟩, fun _ _ _ => ⟨rfl, rfl⟩, fun _ _ _ => ⟨rfl, rfl⟩⟩
  cases stage with
  | sent =>
    simp only [requestStep]
    split
    · exact .inl ⟨fun _ => RequestStage.noConfusion, _, _, rfl, hquiet.2.1, fun _ => RequestStage.noConfusion⟩
    · exact .inl ⟨fun _ => RequestStage.noConfusion, _, _, rfl, hquiet.2.2.1, fun _ => RequestStage.noConfusion⟩
  | checked =>
    simp only [requestStep]
    split
    · exact .inr (.inr ⟨true, .inl ⟨rfl, trivial⟩, rfl⟩)
    · rename_i hvalue
      split
      · exact .inl ⟨fun _ => RequestStage.noConfusion, _, _, rfl, hquiet.2.2.2, fun _ => RequestStage.noConfusion⟩
      · exact .inr (.inl ⟨trivial, eq_false_of_ne_true hvalue, rfl⟩)
  | counted n => exact .inr (.inr ⟨false, .inr ⟨rfl, n, rfl⟩, rfl⟩)
  | ended => exact .inl ⟨fun _ => RequestStage.noConfusion, _, _, rfl, hquiet.1, fun _ => RequestStage.noConfusion⟩

theorem step_some {s : Console} {r : SuperuserRequest} {stage : RequestStage} (hi : s.requests[i]? = some (r, stage)) :
    s.step (.step i) = ((requestStep s.users r stage).1,
      ⟨(requestStep s.users r stage).2.1, s.requests.set i (r, (requestStep s.users r stage).2.2)⟩) := by
  simp only [Console.step, hi]

theorem countsTrack_step {s : Console} (h : CountsTrack log s) (input : ConsoleInput) :
    CountsTrack ((input, (s.step input).1) :: log) (s.step input).2 := by
  intro j r n hj
  cases input with
  | send request =>
    rcases getElem?_append_cases (show (s.requests ++ [(request, .sent)])[j]? = _ from hj) with ⟨-, heq⟩ | hold
    · cases heq
    · exact h j r n hold
  | step i =>
    cases hi : s.requests[i]? with
    | none =>
      simp only [Console.step, hi] at hj ⊢
      exact h j r n hj
    | some found =>
      obtain ⟨request, stage⟩ := found
      rw [step_some hi] at hj ⊢
      rcases requestStep_cases s.users request stage with
        ⟨-, answer, stage', heq, hquiet, hnot⟩ | ⟨-, -, heq⟩ | ⟨value, -, heq⟩
      · rw [heq] at hj ⊢
        rw [(hquiet log (.step i) j).1, (hquiet log (.step i) j).2]
        rcases getElem?_set_cases hj with ⟨-, hself⟩ | ⟨-, hold⟩
        · exact absurd (Prod.mk.inj hself).2.symm (hnot n)
        · exact h j r n hold
      · rw [heq] at hj ⊢
        rcases getElem?_set_cases hj with ⟨rfl, hself⟩ | ⟨hne, hold⟩
        · -- the request has just counted
          obtain rfl := RequestStage.counted.inj (Prod.mk.inj hself).2
          simp only [demotedSince, promotedSince, if_true]
        · have hinput : ConsoleInput.step i ≠ .step j := fun heq => hne (ConsoleInput.step.inj heq).symm
          simp only [demotedSince, promotedSince, if_neg hinput]
          exact h j r n hold
      · rw [heq] at hj ⊢
        rcases getElem?_set_cases hj with ⟨-, hself⟩ | ⟨-, hold⟩
        · cases (Prod.mk.inj hself).2
        · exact tracks_write (h j r n hold)

/-! ## The last administrator -/

theorem administrators_pos {users : Table Account} : 0 < administrators users ↔ ∃ u ∈ users.rows, u.administers = true :=
  List.countP_pos_iff

theorem weight_mono {a b : Bool} (h : a = true → b = true) : weight a ≤ weight b := by
  cases a with
  | false => exact Nat.zero_le _
  | true => exact Nat.le_of_eq (congrArg weight (h rfl).symm)

theorem weight_pos {flag : Bool} (h : flag = true) : weight flag = 1 := if_pos h

/-- From an active superuser, a step leads to one exactly if its count holds. -/
theorem administered_step {s : Console} (htrack : CountsTrack log s) (hpos : 0 < administrators s.users)
    (input : ConsoleInput) : 0 < administrators (s.step input).2.users ↔ CountHolds log s input := by
  cases input with
  | send request => exact iff_of_true hpos trivial
  | step i =>
    cases hi : s.requests[i]? with
    | none =>
      simp only [Console.step, CountHolds, hi]
      exact iff_of_true hpos trivial
    | some found =>
      obtain ⟨request, stage⟩ := found
      rw [step_some hi]
      simp only [CountHolds, hi]
      rcases requestStep_cases s.users request stage with
        ⟨hnot, answer, stage', heq, -⟩ | ⟨rfl, -, heq⟩ | ⟨value, hvalue, heq⟩
      · rw [heq]
        refine iff_of_true hpos ?_
        cases stage with
        | counted n => exact absurd rfl (hnot n)
        | _ => trivial
      · rw [heq]
        exact iff_of_true hpos trivial
      · rw [heq]
        dsimp only
        rcases setSuperuser_cases s.users request.userId value with
          ⟨hnone, hwrite⟩ | ⟨user, users', huser, hwrite, -, hadmins⟩
        · rw [hwrite]
          refine iff_of_true hpos ?_
          rcases hvalue with ⟨-, rfl⟩ | ⟨-, n, rfl⟩
          · trivial
          · intro user huser
            rw [hnone] at huser
            cases huser
        · rw [hwrite]
          rcases hvalue with ⟨rfl, rfl⟩ | ⟨rfl, n, rfl⟩
          · -- a promotion takes nobody's flag
            have hle : weight user.administers ≤ weight (user.isActive && true) :=
              weight_mono fun h => by rw [(Bool.and_eq_true_iff.1 h).1]; rfl
            exact iff_of_true (by dsimp only; omega) trivial
          · have hcount := htrack i request n hi
            rw [countSuperusers_eq] at hcount
            rw [Bool.and_false] at hadmins
            have hzero : weight false = 0 := rfl
            simp only [huser, Option.some.injEq, forall_eq']
            cases hadmin : user.administers with
            | false =>
              rw [hadmin] at hadmins
              exact iff_of_true (by omega) fun h => by cases h
            | true =>
              rw [hadmin, weight_pos rfl] at hadmins
              simp only [forall_true_left]
              omega

/-- An active superuser remains throughout a run exactly if every demotion is written while its count holds. -/
theorem administered_iff_countsHold (users : Table Account) (h : ∃ u ∈ users.rows, u.administers = true)
    (inputs : List ConsoleInput) :
    (console users).AllStates (fun _ s => ∃ u ∈ s.users.rows, u.administers = true) inputs ↔
      (console users).AllSteps CountHolds inputs := by
  refine Machine.allStates_iff_allSteps h (fun is i hpos => ?_) inputs
  have htrack : CountsTrack ((console users).log is) ((console users).state is) :=
    Machine.invariant (M := console users) (P := CountsTrack) (fun _ _ _ h => by simp [console] at h)
      (fun _ _ i h => countsTrack_step h i) is
  rw [← administrators_pos]
  exact administered_step htrack (administrators_pos.2 hpos) i

/-- Two superusers. -/
def twoSuperusers : Table Account where
  rows := [⟨1, true, true⟩, ⟨2, true, true⟩]
  next := 3
  pos := by decide
  below := by decide
  sorted := by decide

/-- One superuser demotes the other, and then wants to demote itself. -/
def demotedInTurn : List ConsoleInput :=
  [.step 1, .step 1, .send ⟨1, 1, false⟩, .step 0, .step 0, .step 0, .send ⟨1, 2, false⟩]

theorem administered_iff_countsHold_demotedInTurn :
    (console twoSuperusers).AllStates (fun _ s => ∃ u ∈ s.users.rows, u.administers = true) demotedInTurn := by
  refine (administered_iff_countsHold twoSuperusers ⟨⟨1, true, true⟩, List.mem_cons_self .., rfl⟩ demotedInTurn).2 ?_
  refine ⟨trivial, trivial, trivial, ?_, trivial, trivial, trivial, trivial⟩
  intro _ _ _
  show _ < 2 + _
  decide

/-- Each of them demotes the other, and both are counted before either write. -/
def demotedAtOnce : List ConsoleInput :=
  [.step 1, .step 0, .step 1, .step 0, .step 1, .step 0, .send ⟨2, 1, false⟩, .send ⟨1, 2, false⟩]

theorem demotedAtOnce_no_administrator :
    (∃ u ∈ twoSuperusers.rows, u.administers = true) ∧
      ¬ ∃ u ∈ ((console twoSuperusers).state demotedAtOnce).users.rows, u.administers = true := by
  refine ⟨⟨⟨1, true, true⟩, List.mem_cons_self .., rfl⟩, ?_⟩
  rw [← administrators_pos]
  decide

end OpenFish.Authz
