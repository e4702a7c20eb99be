/-
The protocol of a run: what has to have been asked, and answered, before a run commits, emits, records, pushes, opens a pull
request and settles its task. Every run keeps to it, whatever its world answers.
-/
import OpenFish.Agent.Asking

namespace OpenFish.Agent

open Lib

open Gates (CheckSuite GateSummary unverifiedSummary)

variable (R : AgentRunner) (task : TaskRequest) (w : String)

/-! ## The stages of a run -/

/-- What a run asked when its payload is ready: the policy and both suites come from the base revision, which nothing but
git has touched, and the suites were run as they were frozen. -/
structure Gathered (p : Prepared) (past : History) : Prop where
  quiet : ∀ e ∈ past, Quiet e.request
  frozen : ∃ after context pairs, past = after ++ [⟨.resolveSuites w p.policy.checks, .ok pairs⟩, ⟨.readContext w, .ok context⟩,
      ⟨.prepareUntrustedWorkdir w, .ok ()⟩, ⟨.clone w task.repoUrl task.commitSha, .ok ()⟩, ⟨.prepare w, .ok ()⟩,
      ⟨.markRunning task.taskId, .ok ()⟩, ⟨.setModelEnv R.modelEnv, .ok ()⟩] ∧
    R.loadPolicy context.policyText = .ok p.policy ∧ p.user = R.freezeSuite pairs.1 task.commitSha ∧
    p.ai = R.freezeSuite pairs.2 task.commitSha
  judged : ⟨.runGates w R.gateTimeout p.user.suite, .ok p.summary⟩ ∈ past
  scrubbed : ∃ raw, p.payload = scrubPayload R.secrets raw

/-- The events of the AI suite, which an adapter may not run. -/
def aiEvents (suite : CheckSuite) (summary : GateSummary) : History :=
  if R.runsAiGates then [⟨.runAiGates w R.gateTimeout suite, .ok summary⟩] else []

/-- The lease was asked for, if the run has one, and it was held. -/
def leaseCheck : History := if R.leased then [⟨.publishGuard, .ok ()⟩] else []

/-- How far a run got; of the document, whether it is to be published. -/
inductive Stage
  | drafted | cleared | committed
  | final (publishing : Bool)
  | emitted (publishing : Bool)
  | recorded (publishing : Bool)
  | admitted | pushed | readmitted | opened
  deriving DecidableEq, Repr

/-- A run is at a stage, with a document, after what was asked and answered before. -/
inductive Reached (p : Prepared) (branch : String) : Stage → Result → History → Prop
  | drafted {first : Result} {past : History} (gathered : Gathered R task w p past)
      (valid : validateResult R.describe p.payload = .ok first) :
      Reached p branch .drafted (first.assured (assess p.summary p.aiSummary)) past
  | cleared {document : Result} {changed : List String} {past : History} (h : Reached p branch .drafted document past)
      (writes : R.writesSource task p = true) (pushable : assertPushable (some task.branchName) = .ok branch)
      (clean : task.violations p.user.suite changed = []) :
      Reached p branch .cleared document (⟨.changedPaths w, .ok changed⟩ :: past)
  | committed {document : Result} {made : Bool} {past : History} (h : Reached p branch .cleared document past)
      (policy : R.effectivePrPolicy p.policy ≠ .never) :
      Reached p branch .committed document (⟨.commit w branch task.commitSha (commitMessage document), .ok made⟩ :: past)
  | rejudged {document : Result} {fresh freshAi : GateSummary} {past : History} (h : Reached p branch .committed document past)
      (policy : R.effectivePrPolicy p.policy = .onGreen ∧ task.kind ≠ .checks)
      (unrun : R.runsAiGates = false → freshAi = noAiGates) (opens : (assess fresh freshAi).mayOpenPr = true) :
      Reached p branch (.final true) (document.rejudged fresh freshAi (assess fresh freshAi))
        (aiEvents R w p.ai.suite freshAi ++ ⟨.runGates w R.gateTimeout p.user.suite, .ok fresh⟩ :: past)
  | unjudged {document : Result} {past : History} (h : Reached p branch .committed document past)
      (policy : ¬ (R.effectivePrPolicy p.policy = .onGreen ∧ task.kind ≠ .checks)) :
      Reached p branch (.final true) document past
  | unpublished {document : Result} {past : History} (h : Reached p branch .cleared document past)
      (policy : R.effectivePrPolicy p.policy = .never) : Reached p branch (.final false) document past
  | reviewed {document : Result} {past : History} (h : Reached p branch .drafted document past)
      (writes : R.writesSource task p = false) : Reached p branch (.final false) document past
  | emitted {publishing : Bool} {document : Result} {resultRef : String} {past : History}
      (h : Reached p branch (.final publishing) document past) :
      Reached p branch (.emitted publishing) document (⟨.emit w document.modelDump, .ok resultRef⟩ :: past)
  | recorded {publishing : Bool} {document : Result} {past : History} (h : Reached p branch (.emitted publishing) document past) :
      Reached p branch (.recorded publishing) document (⟨.recordFindings task.taskId document, .ok ()⟩ :: past)
  | admitted {document : Result} {past : History} (h : Reached p branch (.recorded true) document past) :
      Reached p branch .admitted document (leaseCheck R ++ past)
  | pushed {document : Result} {past : History} (h : Reached p branch .admitted document past) :
      Reached p branch .pushed document (⟨.push w branch task.commitSha task.repoUrl, .ok ()⟩ :: past)
  | readmitted {document : Result} {past : History} (h : Reached p branch .pushed document past) :
      Reached p branch .readmitted document (leaseCheck R ++ past)
  | opened {document : Result} {title body url : String} {past : History} (h : Reached p branch .readmitted document past) :
      Reached p branch .opened document (⟨.openPr w branch task.baseBranch title body, .ok url⟩ :: past)

/-- The task was settled: the sink took it as done or as failed. -/
def Event.settles : Event → Prop
  | ⟨.markDone .., .ok _⟩ | ⟨.markFailed .., .ok _⟩ => True
  | _ => False

/-- What may be asked, after what was asked before. -/
def Permitted (past : History) : Request → Prop
  | .changedPaths workdir => workdir = w ∧ ∃ p branch document, Reached R task w p branch .drafted document past ∧
      R.writesSource task p = true ∧ assertPushable (some task.branchName) = .ok branch
  | .commit workdir branch commitSha message => workdir = w ∧ commitSha = task.commitSha ∧
      ∃ p document, Reached R task w p branch .cleared document past ∧ R.effectivePrPolicy p.policy ≠ .never ∧
        message = commitMessage document
  | .emit workdir payload => workdir = w ∧ ∃ p branch publishing document,
      Reached R task w p branch (.final publishing) document past ∧ payload = document.modelDump
  | .recordFindings taskId document => taskId = task.taskId ∧ ∃ p branch publishing,
      Reached R task w p branch (.emitted publishing) document past
  | .publishGuard => R.leased = true ∧ ∃ p branch document,
      Reached R task w p branch (.recorded true) document past ∨ Reached R task w p branch .pushed document past
  | .push workdir branch commitSha repoUrl => workdir = w ∧ commitSha = task.commitSha ∧ repoUrl = task.repoUrl ∧
      ∃ p document, Reached R task w p branch .admitted document past
  | .openPr workdir branch base _ _ => workdir = w ∧ base = task.baseBranch ∧
      ∃ p document, Reached R task w p branch .readmitted document past
  | .markDone taskId _ prUrl => taskId = task.taskId ∧ ∃ p branch document,
      (prUrl = none ∧ Reached R task w p branch (.recorded false) document past) ∨
        (prUrl ≠ none ∧ Reached R task w p branch .opened document past)
  | .markFailed taskId _ => taskId = task.taskId ∧ ∀ e ∈ past, ¬ e.settles
  | _ => True

/-- Every request was permitted when it was made. -/
def Lawful : History → Prop
  | [] => True
  | e :: past => Permitted R task w past e.request ∧ Lawful past

/-- What a publication left can be settled: nothing was published, or a pull request is open. -/
def Ready (published : Published) (past : History) : Prop := ∃ p branch,
  (published.resultRef = none ∧ published.prUrl = none ∧ published.result = published.document ∧
      Reached R task w p branch (.final false) published.document past) ∨
    (published.resultRef ≠ none ∧ published.prUrl ≠ none ∧ Reached R task w p branch .opened published.document past)

/-- The variables of a run that kept to the protocol, its task not settled. -/
structure Sound (s : Locals) : Prop where
  lawful : Lawful R task w s.history
  unsettled : ∀ e ∈ s.history, ¬ e.settles
  ordered : s.steps <+: steps

/-- A run ended with an outcome: the sink took the task as what the outcome says, from a sound state. -/
inductive Ended : RunOutcome → History → Prop
  | done {outcome : RunOutcome} {s : Locals} {p : Prepared} {branch resultRef : String} {document : Result}
      (sound : Sound R task w s) (isDone : outcome.done = true) (complete : outcome.steps = steps)
      (reached : (outcome.prUrl = none ∧ Reached R task w p branch (.recorded false) document s.history) ∨
        (outcome.prUrl ≠ none ∧ Reached R task w p branch .opened document s.history))
      (ref : outcome.resultRef = some resultRef) (run : outcome.run = some document.run)
      (findings : outcome.findings = document.findings) (gates : outcome.gates = document.gates)
      (aiGates : outcome.aiGates = document.aiGates) (curator : outcome.curator = document.curator) :
      Ended outcome (⟨.markDone task.taskId resultRef outcome.prUrl, .ok ()⟩ :: s.history)
  | failed {outcome : RunOutcome} {s : Locals} {reason : String} (sound : Sound R task w s)
      (isFailed : outcome.done = false) (reached : outcome.steps = s.steps) (error : outcome.error = some reason) :
      Ended outcome (⟨.markFailed task.taskId reason, .ok ()⟩ :: s.history)

end OpenFish.Agent
