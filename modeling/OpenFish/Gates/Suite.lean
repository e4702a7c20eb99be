/-
Verification suites of `services/gates.py`: check commands, the three outcomes, and `run_suite`, under
the source's names in camel case. The executor of a command and the digest of a suite are parameters.
-/
import OpenFish.Lib.Text
import Mathlib.Algebra.Order.Ring.Int

namespace OpenFish.Gates

open Lib

/-! ## Outcomes -/

/-- `GATE_STATUSES`. -/
inductive GateStatus
  | passed | failed | unverified
  deriving DecidableEq, Repr

def GateStatus.value : GateStatus → String
  | .passed => "passed"
  | .failed => "failed"
  | .unverified => "unverified"

/-- `GateResult`; the two proofs are what `_sync_status` establishes. -/
structure GateResult where
  gate : String
  passed : Bool
  status : GateStatus
  exitCode : Int
  stdoutTail : String
  durationMs : Int
  timedOut : Bool
  quiet : status = .unverified → passed = false
  settled : passed = false → status ≠ .passed

/-- The status `_sync_status` leaves. -/
def syncedStatus (passed : Bool) (status : GateStatus) : GateStatus :=
  if status ≠ .unverified ∧ passed = false then .failed else status

/-- The construction of a `GateResult`, through `_sync_status`. -/
def GateResult.synced (gate : String) (passed : Bool) (status : GateStatus) (exitCode : Int) (stdoutTail : String)
    (durationMs : Int) (timedOut : Bool) : GateResult where
  gate := gate
  passed := passed && decide (status ≠ .unverified)
  status := syncedStatus passed status
  exitCode := exitCode
  stdoutTail := stdoutTail
  durationMs := durationMs
  timedOut := timedOut
  quiet := by cases passed <;> cases status <;> decide
  settled := by cases passed <;> cases status <;> decide

structure GateSummary where
  gates : List GateResult
  total : Nat
  passed : Nat
  failed : Nat
  unverified : Nat
  durationMs : Int := 0
  state : GateStatus
  reason : String := ""
  suiteSource : String := ""
  suiteHash : String := ""

/-- The state `_sync_state` leaves: the declared one, else one derived from the counts. -/
def syncedState (declared : Option GateStatus) (passed failed unverified : Nat) : GateStatus :=
  match declared with
  | some state => state
  | none =>
    if 0 < failed then .failed
    else if 0 < unverified ∧ passed = 0 then .unverified
    else .passed

def GateSummary.ok (s : GateSummary) : Bool := s.state == .passed && s.failed == 0

/-! ## Suites -/

/-- `VALIDATIONS`. -/
inductive Validation
  | validated | unvalidated
  deriving DecidableEq, Repr

/-- `SUITE_SOURCES`. -/
inductive SuiteSource
  | agentChecks | policy | discovery | explicit | unverified
  deriving DecidableEq, Repr

def SuiteSource.value : SuiteSource → String
  | .agentChecks => "agent-checks"
  | .policy => "policy"
  | .discovery => "discovery"
  | .explicit => "explicit"
  | .unverified => "unverified"

/-- `CheckCommand`; the two proofs are what `_check_command` establishes. Budgets are in seconds. -/
structure CheckCommand where
  id : String
  argv : List String
  cwd : String := "."
  timeout : Option Rat := none
  validation : Validation := .unvalidated
  source : String := "explicit"
  named : Text.blank id = false
  runnable : ∃ program, argv.head? = some program ∧ Text.blank program = false

def CheckCommand.gating (c : CheckCommand) : Bool := c.validation == .validated

/-- `CheckSuite`; the proof is what `_check_source` establishes. -/
structure CheckSuite where
  checks : List CheckCommand
  source : SuiteSource := .unverified
  reason : String := ""
  distinct : (checks.map (·.id)).Nodup

def CheckSuite.gating (s : CheckSuite) : List CheckCommand := s.checks.filter (·.gating)

def CheckSuite.resolved (s : CheckSuite) : Bool := !s.gating.isEmpty

/-! ## Execution -/

structure ExecOutcome where
  exitCode : Int
  output : String
  timedOut : Bool
  durationMs : Int
  deriving DecidableEq, Repr

/-- `CommandExecutor.run_command` of a command, a root and a budget; it may raise. -/
abbrev Executor := CheckCommand → String → Rat → Except String ExecOutcome

def defaultGateTimeout : Rat := 120

def stdoutTailLimit : Nat := 4096

def truncationMarker : String := "…[output truncated]\n"

def tail (text : String) : String :=
  if text.length ≤ stdoutTailLimit then text
  else truncationMarker ++ String.ofList (text.toList.drop (text.length - stdoutTailLimit))

/-- `float(command.timeout or timeout)`. -/
def budget (timeout : Rat) (c : CheckCommand) : Rat :=
  match c.timeout with
  | some t => if t = 0 then timeout else t
  | none => timeout

/-- What the executor made of a command; a crash of the executor is a red outcome. -/
def outcome (executor : Executor) (root : String) (timeout : Rat) (c : CheckCommand) : ExecOutcome :=
  match executor c root (budget timeout c) with
  | .ok o => o
  | .error exc => ⟨1, s!"[error] executor crashed: {exc}\n", false, 0⟩

/-- Exit code 0 in time. -/
def ExecOutcome.clean (o : ExecOutcome) : Bool := o.exitCode == 0 && !o.timedOut

/-- The status of a check that ended with an outcome. -/
def checkStatus (c : CheckCommand) (o : ExecOutcome) : GateStatus :=
  if !c.gating then .unverified else if o.clean then .passed else .failed

/-- The normalised result of a check. -/
def gateResult (c : CheckCommand) (o : ExecOutcome) : GateResult :=
  .synced c.id o.clean (checkStatus c o) o.exitCode (tail o.output) o.durationMs o.timedOut

def unverifiedSummary (reason source : String) : GateSummary where
  gates := [.synced s!"suite:{source}" false .unverified (-1) reason 0 false]
  total := 1
  passed := 0
  failed := 0
  unverified := 1
  state := syncedState (some .unverified) 0 0 1
  reason := reason
  suiteSource := source

def countStatus (status : GateStatus) (results : List GateResult) : Nat := results.countP (·.status == status)

/-- The state `summarize` declares. -/
def declaredState (results : List GateResult) : GateStatus :=
  if 0 < countStatus .failed results then .failed
  else if 0 < countStatus .passed results then .passed
  else .unverified

def summarize (results : List GateResult) : GateSummary where
  gates := results
  total := results.length
  passed := countStatus .passed results
  failed := countStatus .failed results
  unverified := countStatus .unverified results
  durationMs := (results.map (·.durationMs)).sum
  state := syncedState (some (declaredState results)) (countStatus .passed results) (countStatus .failed results)
    (countStatus .unverified results)

def orText (s default : String) : String := if s = "" then default else s

def runSuite (fingerprint : CheckSuite → String) (executor : Executor) (root : String) (timeout : Rat)
    (suite : CheckSuite) : GateSummary :=
  if suite.checks.isEmpty then
    unverifiedSummary (orText suite.reason ("仓库里没有可解析的校验套件（.agent/checks/、policy checks:、" ++
      "manifest 自动发现都没有命中）")) suite.source.value
  else
    let summary := summarize (suite.checks.map fun c => gateResult c (outcome executor root timeout c))
    let summary := { summary with suiteSource := suite.source.value, suiteHash := fingerprint suite }
    -- the override: a suite without a gating check never passes
    if suite.resolved then summary
    else { summary with
      state := .unverified
      reason := orText suite.reason "套件里的检查都还是 unvalidated（未经证伪验证），只能报告、不能门控" }

/-! ## The verdict of a suite -/

theorem gateResult_status (c : CheckCommand) (o : ExecOutcome) : (gateResult c o).status = checkStatus c o := by
  show syncedStatus o.clean (checkStatus c o) = checkStatus c o
  unfold checkStatus syncedStatus
  cases c.gating <;> cases o.clean <;> rfl

theorem countStatus_pos {status : GateStatus} {checks : List CheckCommand} {o : CheckCommand → ExecOutcome} :
    0 < countStatus status (checks.map fun c => gateResult c (o c)) ↔
      ∃ c ∈ checks, checkStatus c (o c) = status := by
  simp [countStatus, List.countP_pos_iff, gateResult_status]

theorem mem_gating {suite : CheckSuite} {c : CheckCommand} :
    c ∈ suite.gating ↔ c ∈ suite.checks ∧ c.gating = true := List.mem_filter

theorem checkStatus_passed {c : CheckCommand} {o : ExecOutcome} :
    checkStatus c o = .passed ↔ c.gating = true ∧ o.clean = true := by
  unfold checkStatus
  cases c.gating <;> cases o.clean <;> decide

theorem checkStatus_failed {c : CheckCommand} {o : ExecOutcome} :
    checkStatus c o = .failed ↔ c.gating = true ∧ o.clean = false := by
  unfold checkStatus
  cases c.gating <;> cases o.clean <;> decide

/-- Every gating check of the suite ends with exit code 0 in time. -/
def AllClean (executor : Executor) (root : String) (timeout : Rat) (suite : CheckSuite) : Prop :=
  ∀ c ∈ suite.gating, (outcome executor root timeout c).clean = true

section
variable {fingerprint : CheckSuite → String} {executor : Executor} {root : String} {timeout : Rat}
  {suite : CheckSuite}

/-- A suite that cannot gate is unverified, whatever its checks do. -/
theorem runSuite_ungated (h : suite.gating = []) :
    (runSuite fingerprint executor root timeout suite).state = .unverified := by
  have hres : suite.resolved = false := by simp [CheckSuite.resolved, h]
  unfold runSuite
  split
  · rfl
  · dsimp only
    rw [hres]; rfl

/-- A suite that can gate is judged by its gating checks alone. -/
theorem runSuite_gated (h : suite.gating ≠ []) :
    (runSuite fingerprint executor root timeout suite).state =
      if 0 < countStatus .failed (suite.checks.map fun c => gateResult c (outcome executor root timeout c)) then .failed
      else .passed := by
  obtain ⟨c, hc⟩ := List.exists_mem_of_ne_nil _ h
  obtain ⟨hmem, hg⟩ := mem_gating.1 hc
  have hne : suite.checks.isEmpty = false := by
    cases hs : suite.checks with
    | nil => rw [hs] at hmem; cases hmem
    | cons => rfl
  have hres : suite.resolved = true := by simp [CheckSuite.resolved, h]
  unfold runSuite
  rw [hne]
  dsimp only
  rw [hres]
  show declaredState _ = _
  unfold declaredState
  split
  · rfl
  · rename_i hfail
    -- no gating check failed, so this one passed
    have hclean : (outcome executor root timeout c).clean = true := by
      by_contra hbad
      exact hfail (countStatus_pos.2 ⟨c, hmem, checkStatus_failed.2 ⟨hg, by simpa using hbad⟩⟩)
    rw [if_pos (countStatus_pos.2 ⟨c, hmem, checkStatus_passed.2 ⟨hg, hclean⟩⟩)]

theorem runSuite_verified_iff :
    (runSuite fingerprint executor root timeout suite).state ≠ .unverified ↔ suite.gating ≠ [] := by
  constructor
  · exact fun h hn => h (runSuite_ungated hn)
  · intro h
    rw [runSuite_gated h]
    split <;> decide

/-- A suite passes exactly when it can gate and all its gating checks are clean. -/
theorem runSuite_passed_iff :
    (runSuite fingerprint executor root timeout suite).state = .passed ↔
      suite.gating ≠ [] ∧ AllClean executor root timeout suite := by
  constructor
  · intro h
    have hg : suite.gating ≠ [] := runSuite_verified_iff.1 (by rw [h]; decide)
    refine ⟨hg, fun c hc => ?_⟩
    obtain ⟨hmem, hgat⟩ := mem_gating.1 hc
    rw [runSuite_gated hg] at h
    by_contra hbad
    rw [if_pos (countStatus_pos.2 ⟨c, hmem, checkStatus_failed.2 ⟨hgat, by simpa using hbad⟩⟩)] at h
    cases h
  · rintro ⟨hg, hall⟩
    rw [runSuite_gated hg, if_neg]
    intro hpos
    obtain ⟨c, hmem, hs⟩ := countStatus_pos.1 hpos
    obtain ⟨hgat, hbad⟩ := checkStatus_failed.1 hs
    rw [hall c (mem_gating.2 ⟨hmem, hgat⟩)] at hbad
    cases hbad

end

end OpenFish.Gates
