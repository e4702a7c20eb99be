/-
The assurance ladder of `services/check_trust.py`: the repository suite is the authority, the AI suite
advises, and a pull request is opened only on the verdict of gating checks.
-/
import OpenFish.Gates.Suite

namespace OpenFish.Gates

/-! ## The ladder -/

/-- `ASSURANCE_LEVELS`. -/
inductive AssuranceLevel
  | L0 | L1 | L2 | L3
  deriving DecidableEq, Repr

def AssuranceLevel.value : AssuranceLevel → String
  | .L0 => "L0"
  | .L1 => "L1"
  | .L2 => "L2"
  | .L3 => "L3"

def mayAutoMerge : Bool := false

def labelFor (level : AssuranceLevel) : String := "ai-checks/" ++ level.value

/-- `LEVEL_DESCRIPTIONS`. -/
def levelDescription : AssuranceLevel → String
  | .L0 => "无可门控校验（unverified）——只报告，不 push、不开 PR"
  | .L1 => "仅由 AI 维护的校验背书——可开带标签的 PR，绝不自动合并"
  | .L2 => "由仓库（用户）校验背书——AI 校验只作补充信号"
  | .L3 => "AI 校验按客观标准晋升为权威（默认关闭，策略显式开启）"

structure Assurance where
  level : AssuranceLevel
  mayOpenPr : Bool
  mayAutoMerge : Bool
  label : String
  description : String
  reason : String
  userState : GateStatus
  aiState : GateStatus
  verifiedBy : List String
  deriving DecidableEq, Repr

def stateOf (summary : Option GateSummary) : GateStatus := (summary.map (·.state)).getD .unverified

/-- The verdict at a level, everything the level decides filled in. -/
def Assurance.at_ (level : AssuranceLevel) (mayOpenPr : Bool) (reason : String) (userState aiState : GateStatus)
    (verifiedBy : List String) : Assurance :=
  { level, mayOpenPr, mayAutoMerge := Gates.mayAutoMerge, label := labelFor level,
    description := levelDescription level, reason, userState, aiState, verifiedBy }

/-- `assess_assurance`; of the criteria it reads whether they are enabled. -/
def assessAssurance (userSummary aiSummary : Option GateSummary) (l3Eligible enabled : Bool) : Assurance :=
  let userState := stateOf userSummary
  let aiState := stateOf aiSummary
  let user := userState.value
  let ai := aiState.value
  if userState ≠ .unverified then
    .at_ .L2 (userState == .passed)
      (s!"仓库校验 {user}（权威）；AI 校验 {ai}" ++ if aiState ≠ .unverified then "（只作补充信号）" else "（无）")
      userState aiState ["repository"]
  else if aiState ≠ .unverified then
    let level := if l3Eligible && enabled then AssuranceLevel.L3 else .L1
    .at_ level (aiState == .passed)
      (s!"没有仓库校验，仅 AI 维护的校验 {ai}" ++
        if level = .L3 then "（L3 已按客观标准晋升，仍不自动合并）" else "（advisory，绝不自动合并）")
      userState aiState ["ai"]
  else
    .at_ .L0 false "没有可门控的校验（仓库校验与 AI 校验都 unverified）" userState aiState []

/-- Who opens a pull request: the repository suite if it can judge, else the AI suite. -/
theorem assessAssurance_mayOpenPr (userSummary aiSummary : Option GateSummary) (l3Eligible enabled : Bool) :
    (assessAssurance userSummary aiSummary l3Eligible enabled).mayOpenPr = true ↔
      stateOf userSummary = .passed ∨ (stateOf userSummary = .unverified ∧ stateOf aiSummary = .passed) := by
  unfold assessAssurance Assurance.at_
  cases stateOf userSummary <;> cases stateOf aiSummary <;> simp

/-- No verdict lets a merge happen by itself. -/
theorem assessAssurance_never_merges (userSummary aiSummary : Option GateSummary) (l3Eligible enabled : Bool) :
    (assessAssurance userSummary aiSummary l3Eligible enabled).mayAutoMerge = false := by
  unfold assessAssurance
  dsimp only
  split
  · rfl
  · split <;> rfl

/-! ## Both gates -/

/-- One run of both suites, each with its executor, its root and its budget. -/
structure TwoSuites where
  fingerprint : CheckSuite → String
  userSuite : CheckSuite
  aiSuite : CheckSuite
  userRoot : String
  aiRoot : String
  userTimeout : Rat := defaultGateTimeout
  aiTimeout : Rat := defaultGateTimeout
  l3Eligible : Bool := false
  enabled : Bool := false

/-- `assess_assurance` on `run_suite` of both gates. -/
def TwoSuites.assess (g : TwoSuites) (userExecutor aiExecutor : Executor) : Assurance :=
  assessAssurance (some (runSuite g.fingerprint userExecutor g.userRoot g.userTimeout g.userSuite))
    (some (runSuite g.fingerprint aiExecutor g.aiRoot g.aiTimeout g.aiSuite)) g.l3Eligible g.enabled

/-- Both executors make the same of every check that is allowed to judge: the gating checks of the user
suite and, where it has none, those of the AI suite. -/
structure TwoSuites.SameJudges (g : TwoSuites) (userExecutor aiExecutor userExecutor' aiExecutor' : Executor) : Prop where
  user : ∀ c ∈ g.userSuite.gating, outcome userExecutor' g.userRoot g.userTimeout c =
    outcome userExecutor g.userRoot g.userTimeout c
  ai : g.userSuite.gating = [] → ∀ c ∈ g.aiSuite.gating, outcome aiExecutor' g.aiRoot g.aiTimeout c =
    outcome aiExecutor g.aiRoot g.aiTimeout c

theorem assess_mayOpenPr_iff (g : TwoSuites) (userExecutor aiExecutor : Executor) :
    (g.assess userExecutor aiExecutor).mayOpenPr = true ↔
      (g.userSuite.gating ≠ [] ∧ AllClean userExecutor g.userRoot g.userTimeout g.userSuite) ∨
        (g.userSuite.gating = [] ∧ g.aiSuite.gating ≠ [] ∧ AllClean aiExecutor g.aiRoot g.aiTimeout g.aiSuite) := by
  unfold TwoSuites.assess
  rw [assessAssurance_mayOpenPr]
  refine or_congr runSuite_passed_iff (and_congr ?_ runSuite_passed_iff)
  exact not_iff_not.1 runSuite_verified_iff

theorem allClean_congr {executor executor' : Executor} {root : String} {timeout : Rat} {suite : CheckSuite}
    (h : ∀ c ∈ suite.gating, outcome executor' root timeout c = outcome executor root timeout c) :
    AllClean executor' root timeout suite ↔ AllClean executor root timeout suite :=
  forall₂_congr fun c hc => by rw [h c hc]

/-- A pull request is authorised only by the checks allowed to judge it: for all suites and whatever the
executors do, it may be opened exactly when the user suite has a validated check and all its validated
checks exit 0 in time, or the user suite has none, the AI suite has one, and all its validated checks
exit 0 in time; and executors that differ on other checks only lead to the same answer. -/
theorem pr_authorised_by_judges (g : TwoSuites) (userExecutor aiExecutor : Executor) :
    ((g.assess userExecutor aiExecutor).mayOpenPr = true ↔
      (g.userSuite.gating ≠ [] ∧ AllClean userExecutor g.userRoot g.userTimeout g.userSuite) ∨
        (g.userSuite.gating = [] ∧ g.aiSuite.gating ≠ [] ∧ AllClean aiExecutor g.aiRoot g.aiTimeout g.aiSuite)) ∧
    ∀ userExecutor' aiExecutor', g.SameJudges userExecutor aiExecutor userExecutor' aiExecutor' →
      (g.assess userExecutor' aiExecutor').mayOpenPr = (g.assess userExecutor aiExecutor).mayOpenPr := by
  refine ⟨assess_mayOpenPr_iff g userExecutor aiExecutor, fun userExecutor' aiExecutor' hsame => ?_⟩
  rw [Bool.eq_iff_iff, assess_mayOpenPr_iff, assess_mayOpenPr_iff, allClean_congr hsame.user]
  refine or_congr Iff.rfl (and_congr_right fun hnone => ?_)
  rw [allClean_congr (hsame.ai hnone)]

end OpenFish.Gates
