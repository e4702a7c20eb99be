/-
The run of one task (`AgentRunner.run` of `services/agent_runner.py`): clone, read, gates, review, search, emit, and for a
task that writes the commit, the push and the pull request. What a run asks of its adapter, its sink, the lease and the file
system is an event with its answer, and the world answers from all that was asked before.
-/
import OpenFish.Agent.Branch
import OpenFish.Agent.Credentials
import OpenFish.Agent.PullRequest
import OpenFish.Gates.Guard
import OpenFish.Lib.Handling

namespace OpenFish.Agent

open Lib

open Gates (Assurance AssuranceLevel CheckSuite GateSummary assessAssurance checkDirRelpath fixGuardViolations isTestPath
  normalizeRepoPath under unverifiedSummary)

open Queue (TaskKind agentBranchPrefix)

/-! ## The task and the policy -/

structure TaskRequest where
  taskId : String
  repoUrl : String
  commitSha : String
  kind : TaskKind := .review
  baseBranch : String := "main"
  branch : Option String := none
  repo : Option String := none
  attempt : Nat := 0
  deriving DecidableEq, Repr

def kindText : TaskKind → String
  | .review => "review"
  | .fix => "fix"
  | .checks => "checks"
  | .import => "import"
  | .backfill => "backfill"

/-- `PR_POLICIES`. -/
inductive PrPolicy
  | onGreen | always | never
  deriving DecidableEq, Repr

/-- `normalize_pr_policy`. -/
def PrPolicy.ofString? (value : String) : Option PrPolicy :=
  [("on_green", PrPolicy.onGreen), ("always", .always), ("never", .never)].lookup (Text.lower (Text.strip value))

structure PolicyView where
  source : String
  hash : String
  maxFindingsPerRun : Int
  raw : Option String := none
  warnings : List String := []
  prPolicy : String := "on_green"
  autoFix : Bool := false
  checks : List (List (String × Json)) := []
  curator : String := "bootstrap"
  curatorMinIntervalSeconds : Int := 3600

structure ReadContext where
  agentsMd : Option String := none
  policyText : Option String := none
  policyPath : Option String := none
  deriving DecidableEq, Repr

structure FrozenSuite where
  suite : CheckSuite
  fingerprint : String
  baseSha : String
  notes : List String

/-! ## What a run asks -/

/-- The steps of the protocol. -/
inductive Step
  | clone | read | gates | review | search | emit
  deriving DecidableEq, Repr

def steps : List Step := [.clone, .read, .gates, .review, .search, .emit]

inductive Request
  | setModelEnv (env : Dict String String)
  | markRunning (taskId : String)
  | prepare (workdir : String)
  | clone (workdir repoUrl commitSha : String)
  | prepareUntrustedWorkdir (workdir : String)
  | readContext (workdir : String)
  | resolveSuites (workdir : String) (policyChecks : List (List (String × Json)))
  | protectSuite (workdir : String) (readonly : Bool)
  | suiteProtectedPaths (suite : CheckSuite) (workdir : String)
  | protectPaths (workdir : String) (paths : List String) (readonly : Bool)
  | runGates (workdir : String) (timeout : Rat) (suite : CheckSuite)
  | runAiGates (workdir : String) (timeout : Rat) (suite : CheckSuite)
  | review (workdir : String) (policy : PolicyView) (commitSha : String) (context : ReadContext) (kind : TaskKind)
  | curate (workdir : String) (timeout : Rat)
  | search (workdir : String) (finding : List (String × Json)) (commitSha : String) (context : ReadContext)
  | changedPaths (workdir : String)
  | commit (workdir branch commitSha message : String)
  | emit (workdir : String) (payload : Json)
  | recordFindings (taskId : String) (result : Result)
  | publishGuard
  | push (workdir branch commitSha repoUrl : String)
  | openPr (workdir branch base title body : String)
  | markDone (taskId resultRef : String) (prUrl : Option String)
  | markFailed (taskId reason : String)
  | markFinished (workdir : String)

/-- What is answered to a request. -/
abbrev Answer : Request → Type
  | .readContext _ => ReadContext
  | .resolveSuites .. => CheckSuite × CheckSuite
  | .suiteProtectedPaths .. => List String
  | .runGates .. | .runAiGates .. => GateSummary
  | .review .. => List (List (String × Json))
  | .curate .. => Option (List (String × Json))
  | .search .. => List (String × Json)
  | .changedPaths _ => List String
  | .commit .. => Bool
  | .emit .. | .openPr .. => String
  | _ => Unit

structure Event where
  request : Request
  answer : Except Raised (Answer request)

/-- What was asked, the latest first. -/
abbrev History := List Event

/-- What answers a run, and its clock. -/
structure World where
  answer : History → (r : Request) → Except Raised (Answer r)
  now : History → String

/-- A runner: its world, what its adapter can do beside what every adapter can, and its settings. -/
structure AgentRunner where
  world : World
  protectsSuite : Bool
  protectsPaths : Bool
  runsAiGates : Bool
  curates : Bool
  reportsChanges : Bool
  leased : Bool
  workRoot : String
  gateTimeout : Rat
  maxFindings : Int
  policyParser : Option (Option String → Except Raised PolicyView)
  prPolicyOverride : Option PrPolicy
  autoFixOverride : Option Bool
  modelEnv : Dict String String
  adapterSecrets : List String
  sha256 : String → String
  fingerprint : CheckSuite → String
  describe : Issue → String
  conversions : Conversions

/-- What must never be in a log line or a result. -/
def AgentRunner.secrets (R : AgentRunner) : List String := secretValues R.modelEnv ++ R.adapterSecrets.filter (· ≠ "")

/-- The variables of a run, beside what it asked. -/
structure Locals where
  history : History := []
  steps : List Step := []
  frozen : Option FrozenSuite := none

abbrev Program := EStateM Raised Locals

/-- What a run did. -/
structure RunOutcome where
  taskId : String
  done : Bool
  steps : List Step
  run : Option RunMeta := none
  findings : List Finding := []
  gates : List GateEntry := []
  aiGates : List GateEntry := []
  curator : Option (List (String × Json)) := none
  resultRef : Option String := none
  prUrl : Option String := none
  error : Option String := none

variable (R : AgentRunner) (task : TaskRequest)

def ask (r : Request) : Program (Answer r) := fun s =>
  let s' := { s with history := ⟨r, R.world.answer s.history r⟩ :: s.history }
  match R.world.answer s.history r with
  | .ok a => .ok a s'
  | .error e => .error e s'

def take (step : Step) : Program Unit := modify fun s => { s with steps := s.steps ++ [step] }

def now : Program String := do return R.world.now (← get).history

/-! ## The optional methods of an adapter -/

/-- `except OSError: pass`. -/
def bestEffort (x : Program Unit) : Program Unit :=
  handling x fun
    | .os _ _ => pure ()
    | e => throw e

/-- `_protect_suite`. -/
def protectSuite (workdir : String) (readonly : Bool) : Program Unit :=
  if R.protectsSuite then bestEffort (ask R (.protectSuite workdir readonly)) else pure ()

/-- `_protect_paths`. -/
def protectPaths (workdir : String) (paths : List String) (readonly : Bool) : Program Unit :=
  if R.protectsPaths && !paths.isEmpty then bestEffort (ask R (.protectPaths workdir paths readonly)) else pure ()

/-- The summary of an AI suite that the adapter cannot run. -/
def noAiGates : GateSummary :=
  unverifiedSummary "adapter 未实现 run_ai_gates：AI 校验块按 unverified 处理（不参与门控）" "agent-checks"

/-- `_run_ai_gates`. -/
def runAiGates (workdir : String) (suite : CheckSuite) : Program GateSummary :=
  if R.runsAiGates then ask R (.runAiGates workdir R.gateTimeout suite) else return noAiGates

/-- `_curate`, of a proposal. -/
def curate (workdir : String) : Program (Option (List (String × Json))) :=
  if task.kind = .checks ∧ R.curates = true then ask R (.curate workdir R.gateTimeout) else return none

/-- `_adapter_changed_paths`. -/
def adapterChangedPaths (workdir : String) : Program (List String) :=
  if R.reportsChanges then ask R (.changedPaths workdir)
  else throw (.agent ("adapter 没有实现 changed_paths()，无法证明本次 run 没有改动被冻结的校验套件；" ++
    "按失败处理（硬不变量：同一 run 不得既修复又削弱判它的检查）"))

/-! ## Policies -/

/-- `str(exc)`. -/
def Raised.message : Raised → String
  | .agent message | .os _ message | .other _ message => message
  | .interrupt => ""

/-- `f"{exc.__class__.__name__}: {exc}"`. -/
def Raised.named : Raised → String
  | .agent message => s!"AgentRunnerError: {message}"
  | .os name message | .other name message => s!"{name}: {message}"
  | .interrupt => ""

def builtinPolicyText : String := "version: 1\nsource: builtin-default\n"

def defaultMaxFindings : Int := 50

/-- `load_policy`: a policy that cannot be parsed does not stop a run. -/
def AgentRunner.loadPolicy (text : Option String) : Except Raised PolicyView :=
  match R.policyParser with
  | some parser =>
    match parser text with
    | .ok policy => .ok policy
    | .error .interrupt => .error .interrupt
    | .error e => .ok { source := "repo-unparsed", hash := R.sha256 (text.getD ""), maxFindingsPerRun := defaultMaxFindings,
                        raw := text, warnings := [e.message] }
  | none =>
    match text.filter fun t => !Text.blank t with
    | none => .ok { source := "builtin-default", hash := R.sha256 builtinPolicyText, maxFindingsPerRun := defaultMaxFindings }
    | some t => .ok { source := "repo", hash := R.sha256 t, maxFindingsPerRun := defaultMaxFindings, raw := some t }

def AgentRunner.effectiveMaxFindings (policy : PolicyView) : Int :=
  let budget := if policy.maxFindingsPerRun = 0 then R.maxFindings else policy.maxFindingsPerRun
  max 1 (min budget R.maxFindings)

/-- Explicit argument or environment, policy file, `on_green`. -/
def AgentRunner.effectivePrPolicy (policy : PolicyView) : PrPolicy :=
  R.prPolicyOverride.getD ((PrPolicy.ofString? policy.prPolicy).getD .onGreen)

def AgentRunner.effectiveAutoFix (policy : PolicyView) : Bool := R.autoFixOverride.getD policy.autoFix

def AgentRunner.freezeSuite (suite : CheckSuite) (baseSha : String) : FrozenSuite where
  suite := suite
  fingerprint := R.fingerprint suite
  baseSha := baseSha
  notes := if suite.reason = "" then [] else [suite.reason]

/-! ## Up to the document -/

/-- What a run holds when its payload is ready. -/
structure Prepared where
  policy : PolicyView
  user : FrozenSuite
  ai : FrozenSuite
  summary : GateSummary
  aiSummary : GateSummary
  curatorReport : Option (List (String × Json))
  payload : Json

/-- Every finding is searched for, in order. -/
def searchAll (workdir : String) (context : ReadContext) :
    List (List (String × Json)) → Program (List (List (String × Json)))
  | [] => return []
  | finding :: rest => do
    let enriched ← ask R (.search workdir finding task.commitSha context)
    return enriched :: (← searchAll workdir context rest)

/-- The payload of the document, before it is scrubbed. -/
def rawPayload (policy : PolicyView) (user ai : FrozenSuite) (summary aiSummary : GateSummary)
    (curatorReport : Option (List (String × Json))) (enriched : List (List (String × Json))) (startedAt finishedAt : String) :
    Json :=
  .obj
    [("run", .obj
      [("commit_sha", .str task.commitSha), ("policy_hash", .str policy.hash), ("policy_source", .str policy.source),
        ("mode", .str (kindText task.kind)), ("task_id", .str task.taskId), ("repo", orNull .str task.repo),
        ("started_at", .str startedAt), ("finished_at", .str finishedAt), ("suite_hash", .str user.fingerprint),
        ("suite_source", .str user.suite.source.value), ("suite_state", .str summary.state.value),
        ("ai_suite_hash", .str ai.fingerprint), ("ai_suite_source", .str ai.suite.source.value),
        ("ai_suite_state", .str aiSummary.state.value)]),
      ("findings", .arr (enriched.map .obj)), ("gates", .arr ((gateEntries summary).map GateEntry.modelDump)),
      ("ai_gates", .arr ((gateEntries aiSummary).map GateEntry.modelDump)), ("curator", orNull .obj curatorReport)]

/-- The lock of the suite and of what it runs, for a fix. -/
def lockSuites (workdir : String) (suite : CheckSuite) (readonly : Bool) : Program Unit := do
  protectSuite R workdir readonly
  let paths ← ask R (.suiteProtectedPaths suite workdir)
  protectPaths R workdir paths readonly

/-- Only a fix has the judges of its own work within reach. -/
def lockForFix (workdir : String) (suite : CheckSuite) : Program Unit :=
  if task.kind = .fix then lockSuites R workdir suite true else pure ()

/-- A half-configured sandbox fails the task. -/
def prepareUntrusted (workdir : String) : Program Unit :=
  handling (ask R (.prepareUntrustedWorkdir workdir)) fun
    | .other "SandboxIdentityError" message => throw (.agent s!"无法为任务 {task.taskId} 准备工作目录的沙箱身份：{message}")
    | e => throw e

/-- The run up to its payload. -/
def AgentRunner.gather (workdir startedAt : String) : Program Prepared := do
  ask R (.markRunning task.taskId)
  ask R (.prepare workdir)
  take .clone
  ask R (.clone workdir task.repoUrl task.commitSha)
  prepareUntrusted R task workdir
  take .read
  let context ← ask R (.readContext workdir)
  let policy ← raising (R.loadPolicy context.policyText)
  let pairs ← ask R (.resolveSuites workdir policy.checks)
  let user := R.freezeSuite pairs.1 task.commitSha
  let ai := R.freezeSuite pairs.2 task.commitSha
  modify fun s => { s with frozen := some user }
  lockForFix R task workdir user.suite
  take .gates
  let summary ← ask R (.runGates workdir R.gateTimeout user.suite)
  let aiSummary ← runAiGates R workdir ai.suite
  take .review
  let raw ← ask R (.review workdir policy task.commitSha context task.kind)
  let curatorReport ← curate R task workdir
  take .search
  let enriched ← searchAll R task workdir context (raw.take (R.effectiveMaxFindings policy).toNat)
  take .emit
  let finishedAt ← now R
  let raw := rawPayload task policy user ai summary aiSummary curatorReport enriched startedAt finishedAt
  return { policy, user, ai, summary, aiSummary, curatorReport, payload := scrubPayload R.secrets raw }

/-! ## Publication -/

/-- A fix, a curator's proposal, or a review that its repository lets repair a failed gate. -/
def AgentRunner.escalates (p : Prepared) : Bool :=
  decide (task.kind = .review) && R.effectiveAutoFix p.policy && !(failedGateNames (gateEntries p.summary)).isEmpty

def AgentRunner.writesSource (p : Prepared) : Bool :=
  decide (task.kind = .fix) || decide (task.kind = .checks) || R.escalates task p

/-- The branch of a task: its own, or one named after it. -/
def TaskRequest.branchName : String :=
  match task.branch.filter (· ≠ "") with
  | some branch => branch
  | none => agentBranchPrefix ++ (if task.kind = .checks then "checks" else "fix") ++ "-" ++ task.taskId

def Result.assured (document : Result) (assurance : Assurance) : Result :=
  { document with run := { document.run with
      assuranceLevel := assurance.level.value, assuranceLabel := assurance.label } }

/-- The document after the suites ran again. -/
def Result.rejudged (document : Result) (fresh freshAi : GateSummary) (assurance : Assurance) : Result :=
  Result.assured { document with
    gates := gateEntries fresh
    aiGates := gateEntries freshAi
    run := { document.run with suiteState := fresh.state.value, aiSuiteState := freshAi.state.value } } assurance

def assess (summary aiSummary : GateSummary) : Assurance := assessAssurance (some summary) (some aiSummary) false false

/-- `validate_result` of a document that was changed. -/
def revalidate (document : Result) : Program Result :=
  raising ((validateResult R.describe document.modelDump).mapError .agent)

/-- `curator_guard_violations`. -/
def curatorGuardViolations (paths : List String) : List String :=
  (paths.map normalizeRepoPath).filter fun normalized => !(under normalized checkDirRelpath || isTestPath normalized)

/-- The paths that a task may not have changed. -/
def TaskRequest.violations (suite : CheckSuite) (changed : List String) : List String :=
  if task.kind = .checks then curatorGuardViolations changed else fixGuardViolations changed (some suite)

/-- `_guard_task_paths`, of a task that writes. -/
def guardTaskPaths (workdir : String) (suite : CheckSuite) : Program Unit := do
  let changed ← adapterChangedPaths R workdir
  let violations := task.violations suite changed
  if violations = [] then return
  let listed := ", ".intercalate violations
  if task.kind = .checks then
    throw (.agent (s!"checks（curator）任务写出了 .agent/checks/** 与测试文件之外的内容（{listed}）：" ++
      "curator 只改校验套件，改源码是 fix 任务的职责"))
  else
    throw (.agent (s!"fix 任务改动了被冻结的校验套件或它的执行入口（{listed}）：" ++
      "硬不变量禁止同一 run 既产出修复又削弱判它的检查"))

/-- `_publish`: the lease is asked for, and a guard that is broken counts as lost. -/
def publishGuard (branch : String) : Program Unit :=
  if R.leased then
    handling (ask R .publishGuard) fun
      | .agent message => throw (.agent message)
      | .interrupt => throw .interrupt
      | e => throw (.agent (s!"发布前无法确认任务租约仍然有效（{e.named}）；拒绝 push {branch} / 开 PR"))
  else pure ()

/-- What a publication leaves for the end of the run. -/
structure Published where
  document : Result
  result : Result
  resultRef : Option String := none
  prUrl : Option String := none

def failedOutcome (error : String) : Program RunOutcome := do
  return { taskId := task.taskId, done := false, steps := (← get).steps, error := some error }

/-- The title and the body of the pull request: a curator's proposal has its own. -/
def AgentRunner.pullRequest (p : Prepared) (result : Result) (assurance : Assurance) (summary aiSummary : GateSummary) :
    Except Raised (String × String) :=
  match decide (task.kind = .checks), p.curatorReport with
  | true, some report => R.conversions.proposal report task.commitSha
  | _, _ => .ok (prTitle result, prBody result assurance summary aiSummary p.user.suite p.ai.suite)

/-- The durable record, the push and the pull request. -/
def AgentRunner.deliver (workdir branch : String) (p : Prepared) (document result : Result) (assurance : Assurance)
    (summary aiSummary : GateSummary) : Program Published := do
  let resultRef ← ask R (.emit workdir document.modelDump)
  ask R (.recordFindings task.taskId result)
  publishGuard R branch
  ask R (.push workdir branch task.commitSha task.repoUrl)
  publishGuard R branch
  let text ← raising (R.pullRequest task p result assurance summary aiSummary)
  let prUrl ← ask R (.openPr workdir branch task.baseBranch text.1 text.2)
  return { document, result, resultRef := some resultRef, prUrl := some prUrl }

/-- Why `on_green` withholds a pull request. -/
def withheld (assurance : Assurance) (failedGates : List String) : String :=
  let failed := ", ".intercalate failedGates
  s!"pr_policy=on_green 但保证等级 {assurance.level.value} 不允许自动 push/开 PR（{assurance.reason}）" ++
    (if failedGates = [] then "" else s!"；失败 gate：{failed}") ++
    (if assurance.level = AssuranceLevel.L0 then "；校验 unverified（没有可门控的检查）" else "") ++
    "；已 commit 但按策略不 push、不开 PR"

/-- `on_green`: the frozen suites run again on what was committed, and judge whether it is published. -/
def AgentRunner.publishOnGreen (workdir branch : String) (p : Prepared) (document : Result) :
    Program (Published ⊕ RunOutcome) := do
  let fresh ← ask R (.runGates workdir R.gateTimeout p.user.suite)
  let freshAi ← runAiGates R workdir p.ai.suite
  let assurance := assess fresh freshAi
  let document := document.rejudged fresh freshAi assurance
  let result ← revalidate R document
  if assurance.mayOpenPr then
    return .inl (← R.deliver task workdir branch p document result assurance fresh freshAi)
  else
    let reason := withheld assurance (failedGateNames document.gates)
    ask R (.markFailed task.taskId reason)
    return .inr { taskId := task.taskId, done := false, steps := (← get).steps, run := some document.run,
                  findings := document.findings, gates := document.gates, error := some reason }

/-- The part of a run that writes: what it publishes, or the outcome when it withholds it. -/
def AgentRunner.publish (workdir : String) (p : Prepared) (document result : Result) :
    Program (Published ⊕ RunOutcome) := do
  let branch ← raising ((assertPushable (some task.branchName)).mapError .agent)
  guardTaskPaths R task workdir p.user.suite
  let policy := R.effectivePrPolicy p.policy
  if policy = .never then return .inl { document, result }
  else
    let _ ← ask R (.commit workdir branch task.commitSha (commitMessage result))
    if policy = .onGreen ∧ task.kind ≠ .checks then R.publishOnGreen task workdir branch p document
    else return .inl (← R.deliver task workdir branch p document result (assess p.summary p.aiSummary) p.summary p.aiSummary)

/-! ## The run -/

/-- Where the document is: what was not published is emitted and recorded now. -/
def AgentRunner.resultRef (workdir : String) (published : Published) : Program String :=
  match published.resultRef with
  | some resultRef => return resultRef
  | none => do
    let resultRef ← ask R (.emit workdir published.document.modelDump)
    ask R (.recordFindings task.taskId published.result)
    return resultRef

/-- The end of a run: the document is recorded, and the task is done. -/
def AgentRunner.settle (workdir : String) (published : Published) : Program RunOutcome := do
  let resultRef ← R.resultRef task workdir published
  ask R (.markDone task.taskId resultRef published.prUrl)
  let document := published.document
  return { taskId := task.taskId, done := true, steps := (← get).steps, run := some document.run,
           findings := document.findings, gates := document.gates, aiGates := document.aiGates,
           curator := document.curator, resultRef := some resultRef, prUrl := published.prUrl }

/-- The run after its document is valid. -/
def AgentRunner.conclude (workdir : String) (p : Prepared) (first : Result) : Program RunOutcome := do
  let document := first.assured (assess p.summary p.aiSummary)
  let result ← revalidate R document
  if R.writesSource task p then
    let published ← R.publish task workdir p document result
    match published with
    | .inl published => R.settle task workdir published
    | .inr outcome => return outcome
  else R.settle task workdir { document, result }

/-- The body of the `try` in `run`. -/
def AgentRunner.attempt (workdir startedAt : String) : Program RunOutcome := do
  let p ← R.gather task workdir startedAt
  match validateResult R.describe p.payload with
  | .error message => do
    ask R (.markFailed task.taskId message)
    return { taskId := task.taskId, done := false, steps := (← get).steps, gates := gateEntries p.summary,
             error := some message }
  | .ok first => R.conclude task workdir p first

/-- The `except` clauses: an error of the runner as it is, any other masked. -/
def AgentRunner.rescue (e : Raised) : Program RunOutcome :=
  match e with
  | .interrupt => throw .interrupt
  | .agent message => do
    ask R (.markFailed task.taskId message)
    failedOutcome task message
  | e => do
    let safe := maskSecrets e.named R.secrets
    ask R (.markFailed task.taskId safe)
    failedOutcome task safe

/-- The locks are taken off what was frozen, also where a proposal never put them on. -/
def unlockSuites (workdir : String) (frozen : Option FrozenSuite) : Program Unit :=
  match frozen with
  | some frozen => if task.kind = .fix ∨ task.kind = .checks then lockSuites R workdir frozen.suite false else pure ()
  | none => pure ()

/-- The `finally` clause: the credential is dropped, the locks are taken off and the directory is marked. -/
def AgentRunner.cleanUp (workdir : String) : Program Unit := do
  ask R (.setModelEnv Dict.empty)
  unlockSuites R task workdir (← get).frozen
  bestEffort (ask R (.markFinished workdir))

def AgentRunner.run : Program RunOutcome := do
  let workdir ← raising ((Queue.workdirFor R.workRoot task.taskId task.attempt).mapError .agent)
  ask R (.setModelEnv R.modelEnv)
  let startedAt ← now R
  ensuring (handling (R.attempt task workdir startedAt) (R.rescue task)) (R.cleanUp task workdir)

end OpenFish.Agent
