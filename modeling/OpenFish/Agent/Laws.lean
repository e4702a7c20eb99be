/-
What the protocol gives every run: the effects of a run are an initial part of its script, a push has everything behind it that
makes it safe, the credential is dropped, and the outcome says what the sink was told.
-/
import OpenFish.Agent.Keeping

namespace OpenFish.Agent

open Lib

open Gates (CheckSuite GateSummary)

variable (R : AgentRunner) (task : TaskRequest)

/-! ## Whole runs -/

/-- The work directory of a task; there is none for a name that is refused. -/
def AgentRunner.workdir : String := ((Queue.workdirFor R.workRoot task.taskId task.attempt).toOption).getD ""

/-- What a run asked, the latest first, whether it returned or raised. -/
def AgentRunner.trace : History :=
  match R.run task {} with
  | .ok _ s | .error _ s => s.history

variable {R task}

theorem trace_of_wp {P : History → Prop} (h : wp (R.run task) (fun _ s => P s.history) (fun _ s => P s.history) {}) :
    P (R.trace task) := by
  unfold wp at h
  unfold AgentRunner.trace
  cases hrun : R.run task {} with
  | ok outcome s =>
    rw [hrun] at h
    exact h
  | error e s =>
    rw [hrun] at h
    exact h

/-- A run that raises was refused its directory or its credential, or it cleaned up. -/
theorem wp_run : wp (R.run task)
    (fun outcome s => ∃ past, Ended R task (R.workdir task) outcome past ∧ Cleaned past s.history)
    (fun _ s => s.history = [] ∨ (∃ e, s.history = [⟨.setModelEnv R.modelEnv, .error e⟩]) ∨
      ∃ past, Lawful R task (R.workdir task) past ∧ Cleaned past s.history) {} := by
  unfold AgentRunner.run
  refine wp_then <| wp_raising (fun w hw => ?_) fun _ _ => .inl rfl
  have hworkdir : R.workdir task = w := by
    unfold AgentRunner.workdir
    cases hname : Queue.workdirFor R.workRoot task.taskId task.attempt with
    | ok w' =>
      rw [hname] at hw
      exact Except.ok.inj hw
    | error e =>
      rw [hname] at hw
      exact absurd hw (by simp [Except.mapError])
  rw [hworkdir]
  refine wp_then <| wp_ask (fun _ _ => ?_) fun e _ => .inr (.inl ⟨e, rfl⟩)
  refine wp_then <| wp_then <| (wp_get).2 ?_
  rw [wp_pure, wp_ensuring, wp_handling]
  have hclean {past : History} (h : Lawful R task w past) (s : Locals) (hs : s.history = past) :
      wp (R.cleanUp task w) (fun _ s' => s'.history = [] ∨ (∃ e, s'.history = [⟨.setModelEnv R.modelEnv, .error e⟩]) ∨
          ∃ past, Lawful R task w past ∧ Cleaned past s'.history)
        (fun _ s' => s'.history = [] ∨ (∃ e, s'.history = [⟨.setModelEnv R.modelEnv, .error e⟩]) ∨
          ∃ past, Lawful R task w past ∧ Cleaned past s'.history) s :=
    wp_mono wp_cleanUp (fun _ _ hc => .inr (.inr ⟨past, h, hs ▸ hc⟩)) fun _ _ hc => .inr (.inr ⟨past, h, hs ▸ hc⟩)
  have hend {outcome : RunOutcome} {s : Locals} (h : Ended R task w outcome s.history) :
      wp (R.cleanUp task w) (fun _ s' => ∃ past, Ended R task w outcome past ∧ Cleaned past s'.history)
        (fun _ s' => s'.history = [] ∨ (∃ e, s'.history = [⟨.setModelEnv R.modelEnv, .error e⟩]) ∨
          ∃ past, Lawful R task w past ∧ Cleaned past s'.history) s :=
    wp_mono wp_cleanUp (fun _ _ hc => ⟨_, h, hc⟩) fun _ _ hc => .inr (.inr ⟨_, h.lawful, hc⟩)
  refine wp_mono (wp_attempt rfl rfl) (fun outcome s h => hend h) fun e s hsound => ?_
  exact wp_mono (wp_rescue hsound) (fun outcome s h => hend h) fun _ s hsound => hclean hsound.lawful s rfl

/-- In every run, whatever its world answers, every request is one that the protocol permits where it is made. -/
theorem run_lawful (R : AgentRunner) (task : TaskRequest) : Lawful R task (R.workdir task) (R.trace task) := by
  refine trace_of_wp (wp_mono wp_run ?_ ?_)
  · rintro outcome s ⟨past, hended, hcleaned⟩
    exact hcleaned.lawful hended.lawful
  · rintro e s (h | ⟨raised, h⟩ | ⟨past, hlawful, hcleaned⟩)
    · rw [h]
      exact trivial
    · rw [h]
      exact ⟨trivial, trivial⟩
    · exact hcleaned.lawful hlawful

/-- Once a run has the credential of its model it drops it, however the run ends, and what follows takes the locks off and
marks the directory. -/
theorem credential_dropped (R : AgentRunner) (task : TaskRequest) :
    R.trace task = [] ∨ (∃ e, R.trace task = [⟨.setModelEnv R.modelEnv, .error e⟩]) ∨ ∃ past, Cleaned past (R.trace task) := by
  refine trace_of_wp (P := fun h => h = [] ∨ (∃ e, h = [⟨.setModelEnv R.modelEnv, .error e⟩]) ∨ ∃ past, Cleaned past h)
    (wp_mono wp_run ?_ ?_)
  · rintro outcome s ⟨past, -, hcleaned⟩
    exact .inr (.inr ⟨past, hcleaned⟩)
  · rintro e s (h | h | ⟨past, -, hcleaned⟩)
    · exact .inl h
    · exact .inr (.inl h)
    · exact .inr (.inr ⟨past, hcleaned⟩)

/-! ## The effects of a run -/

/-- What a run leaves outside of its work directory, and the document. What the sink is told of the task is not among it. -/
inductive Effect
  | commit | emit | record | push | openPr
  deriving DecidableEq, Repr

def Request.effect? : Request → Option Effect
  | .commit .. => some .commit
  | .emit .. => some .emit
  | .recordFindings .. => some .record
  | .push .. => some .push
  | .openPr .. => some .openPr
  | _ => none

/-- The effects of a history, in the order they were asked for. -/
def effects (past : History) : List Effect := past.reverse.filterMap fun e => e.request.effect?

/-- What a run that publishes leaves, in order, and one that does not. -/
def script : Bool → List Effect
  | true => [.commit, .emit, .record, .push, .openPr]
  | false => [.emit, .record]

/-- The effects at a stage. -/
def Stage.effects : Stage → List Effect
  | .drafted | .cleared => []
  | .committed | .final true => [.commit]
  | .final false => []
  | .emitted true => [.commit, .emit]
  | .emitted false => [.emit]
  | .recorded true | .admitted => [.commit, .emit, .record]
  | .recorded false => [.emit, .record]
  | .pushed | .readmitted => [.commit, .emit, .record, .push]
  | .opened => [.commit, .emit, .record, .push, .openPr]

@[simp] theorem effects_cons (e : Event) (past : History) : effects (e :: past) = effects past ++ e.request.effect?.toList := by
  rw [effects, List.reverse_cons, List.filterMap_append]
  cases h : e.request.effect? <;> simp [effects, h]

theorem effects_append (new past : History) (h : ∀ e ∈ new, e.request.effect? = none) : effects (new ++ past) = effects past := by
  induction new with
  | nil => rfl
  | cons e new ih =>
    rw [List.cons_append, effects_cons, h e (List.mem_cons_self ..), ih fun e he => h e (List.mem_cons_of_mem _ he)]
    exact List.append_nil _

theorem effects_of_quiet {past : History} (h : ∀ e ∈ past, Quiet e.request) : effects past = [] := by
  rw [← List.append_nil past]
  refine effects_append past [] fun e he => ?_
  have := h e he
  obtain ⟨r, answer⟩ := e
  cases r <;> first | rfl | exact absurd this Bool.false_ne_true

variable {w : String} {p : Prepared} {branch : String} {document : Result} {past : History}

theorem Reached.effects_eq {stage : Stage} (h : Reached R task w p branch stage document past) :
    effects past = stage.effects := by
  induction h with
  | drafted gathered => exact effects_of_quiet gathered.quiet
  | cleared h writes pushable clean ih => rw [effects_cons, ih]; rfl
  | committed h policy ih => rw [effects_cons, ih]; rfl
  | rejudged h policy unrun opens ih =>
    rw [effects_append _ _ fun e he => ?_, effects_cons, ih]
    · rfl
    · unfold aiEvents at he
      split at he
      · rw [List.mem_singleton.1 he]
        rfl
      · cases he
  | unjudged h policy ih => exact ih
  | unpublished h policy ih => exact ih
  | reviewed h writes ih => exact ih
  | @emitted publishing document resultRef past h ih => rw [effects_cons, ih]; cases publishing <;> rfl
  | @recorded publishing document past h ih => rw [effects_cons, ih]; cases publishing <;> rfl
  | admitted h ih | readmitted h ih =>
    rw [effects_append _ _ fun e he => ?_, ih]
    · rfl
    · unfold leaseCheck at he
      split at he
      · rw [List.mem_singleton.1 he]
        rfl
      · cases he
  | pushed h ih => rw [effects_cons, ih]; rfl
  | opened h ih => rw [effects_cons, ih]; rfl

/-- After what the protocol permits, the effects are still an initial part of a script. -/
theorem Permitted.script {r : Request} (h : Permitted R task w past r) (hpast : ∃ publishing, effects past <+: script publishing)
    (answer : Except Raised (Answer r)) : ∃ publishing, effects (⟨r, answer⟩ :: past) <+: Agent.script publishing := by
  have hat (publishing : Bool) {stage : Stage} {p : Prepared} {branch : String} {document : Result}
      (hreached : Reached R task w p branch stage document past) {effect : Effect} (heffect : r.effect? = some effect)
      (hscript : stage.effects ++ [effect] <+: Agent.script publishing) :
      ∃ publishing, effects (⟨r, answer⟩ :: past) <+: Agent.script publishing :=
    ⟨publishing, by rw [effects_cons, hreached.effects_eq, heffect]; exact hscript⟩
  cases hr : r.effect? with
  | none =>
    obtain ⟨publishing, hpast⟩ := hpast
    exact ⟨publishing, by rw [effects_cons, hr]; simpa using hpast⟩
  | some effect =>
    cases r with
    | commit =>
      obtain ⟨-, -, p, document, hreached, -⟩ := h
      exact hat true hreached rfl (by decide)
    | emit =>
      obtain ⟨-, p, branch, publishing, document, hreached, -⟩ := h
      exact hat publishing hreached rfl (by cases publishing <;> decide)
    | recordFindings =>
      obtain ⟨-, p, branch, publishing, hreached⟩ := h
      exact hat publishing hreached rfl (by cases publishing <;> decide)
    | push =>
      obtain ⟨-, -, -, p, document, hreached⟩ := h
      exact hat true hreached rfl (by decide)
    | openPr =>
      obtain ⟨-, -, p, document, hreached⟩ := h
      exact hat true hreached rfl (by decide)
    | _ => exact absurd hr (by simp [Request.effect?])

theorem effects_of_lawful : ∀ {past : History}, Lawful R task w past → ∃ publishing, effects past <+: script publishing
  | [], _ => ⟨true, script true, rfl⟩
  | e :: _, h => h.1.script (effects_of_lawful h.2) e.answer

/-- What a run leaves outside, the marks of the sink aside, is an initial part of commit, document, record, push and pull request,
or of document and record: none of these is done twice, and none before what has to be done first. -/
theorem effects_in_order (R : AgentRunner) (task : TaskRequest) : ∃ publishing, effects (R.trace task) <+: script publishing :=
  effects_of_lawful (run_lawful R task)

/-! ## What the sink is told -/

/-- The sink was told once how a task ended, last before the clean-up, and as the outcome of the run says: a task that is done
took every step and left a whole script, with its pull request in it or without one. -/
def Told (task : TaskRequest) (outcome : RunOutcome) (history : History) : Prop :=
  ∃ told before, Cleaned (told :: before) history ∧ (∀ e ∈ before, ¬ e.settles) ∧
    ((outcome.done = true ∧ outcome.steps = steps ∧ effects before = script outcome.prUrl.isSome ∧
        ∃ resultRef, outcome.resultRef = some resultRef ∧ told = ⟨.markDone task.taskId resultRef outcome.prUrl, .ok ()⟩) ∨
      (outcome.done = false ∧ outcome.steps <+: steps ∧
        ∃ reason, outcome.error = some reason ∧ told = ⟨.markFailed task.taskId reason, .ok ()⟩))

theorem Ended.told {outcome : RunOutcome} {history : History} (h : Ended R task w outcome past)
    (hcleaned : Cleaned past history) : Told task outcome history := by
  cases h with
  | done sound isDone complete reached ref =>
    refine ⟨_, _, hcleaned, sound.unsettled, .inl ⟨isDone, complete, ?_, _, ref, rfl⟩⟩
    rcases reached with ⟨hurl, hreached⟩ | ⟨hurl, hreached⟩
    · rw [hreached.effects_eq, hurl]
      rfl
    · rw [hreached.effects_eq, Option.isSome_iff_ne_none.2 hurl]
      rfl
  | failed sound isFailed reached error =>
    exact ⟨_, _, hcleaned, sound.unsettled, .inr ⟨isFailed, reached ▸ sound.ordered, _, error, rfl⟩⟩

/-- In every run that returns, the sink was told what the outcome says. -/
theorem outcome_told (R : AgentRunner) (task : TaskRequest) :
    wp (R.run task) (fun outcome s => Told task outcome s.history) (fun _ _ => True) {} :=
  wp_mono wp_run (fun _ _ ⟨_, hended, hcleaned⟩ => hended.told hcleaned) fun _ _ _ => trivial

/-! ## What stands behind a push -/

/-- What was asked and answered before a push: the lease was held, the document was emitted and recorded, the branch was
committed right after the changed paths were found clean, and `on_green` ran the suites again as they were frozen at the base
revision, of which the repository's passed, or the other where it has none. -/
def Authorised (R : AgentRunner) (task : TaskRequest) (w branch : String) (past : History) : Prop :=
  ∃ p document resultRef rejudging made message changed before,
    past = leaseCheck R ++ ⟨.recordFindings task.taskId document, .ok ()⟩ :: ⟨.emit w document.modelDump, .ok resultRef⟩ ::
      (rejudging ++ ⟨.commit w branch task.commitSha message, .ok made⟩ :: ⟨.changedPaths w, .ok changed⟩ :: before) ∧
    Gathered R task w p before ∧ R.writesSource task p = true ∧ task.violations p.user.suite changed = [] ∧
    R.effectivePrPolicy p.policy ≠ .never ∧
    (R.effectivePrPolicy p.policy = .onGreen → task.kind ≠ .checks → ∃ fresh freshAi,
      rejudging = aiEvents R w p.ai.suite freshAi ++ [⟨.runGates w R.gateTimeout p.user.suite, .ok fresh⟩] ∧
        (fresh.state = .passed ∨ (fresh.state = .unverified ∧ freshAi.state = .passed)))

/-- Before a commit the changed paths were asked for, and what was gathered is all that was asked before them. -/
theorem Reached.committing (h : Reached R task w p branch .committed document past) :
    Pushable branch ∧ ∃ made message changed before,
      past = ⟨.commit w branch task.commitSha message, .ok made⟩ :: ⟨.changedPaths w, .ok changed⟩ :: before ∧
        Gathered R task w p before ∧ R.writesSource task p = true ∧ task.violations p.user.suite changed = [] ∧
        R.effectivePrPolicy p.policy ≠ .never := by
  cases h with | committed h policy =>
  cases h with | cleared h writes pushable clean =>
  cases h with | drafted gathered valid =>
  exact ⟨(assertPushable_ok_iff.1 pushable).2, _, _, _, _, rfl, gathered, writes, clean, policy⟩

theorem Reached.authorised (h : Reached R task w p branch .admitted document past) :
    Pushable branch ∧ Authorised R task w branch past := by
  cases h with | admitted h =>
  cases h with | recorded h =>
  cases h with | @emitted _ _ resultRef past h =>
  cases h with
  | @rejudged document fresh freshAi past h policy unrun opens =>
    obtain ⟨hpushable, made, message, changed, before, rfl, gathered, writes, clean, hnever⟩ := h.committing
    have hjudged := (Gates.assessAssurance_mayOpenPr (some fresh) (some freshAi) false false).1 opens
    refine ⟨hpushable, p, document.rejudged fresh freshAi (assess fresh freshAi), resultRef, _, made, message, changed, before,
      ?_, gathered, writes, clean, hnever, fun _ _ => ⟨fresh, freshAi, rfl, hjudged⟩⟩
    simp only [List.append_assoc, List.singleton_append]
  | unjudged h policy =>
    obtain ⟨hpushable, made, message, changed, before, rfl, gathered, writes, clean, hnever⟩ := h.committing
    exact ⟨hpushable, p, _, resultRef, [], made, message, changed, before, rfl, gathered, writes, clean, hnever,
      fun hgreen hkind => absurd ⟨hgreen, hkind⟩ policy⟩

theorem Lawful.permitted {past : History} (h : Lawful R task w past) : ∀ {n : Nat} {e : Event}, past[n]? = some e →
    Permitted R task w (past.drop (n + 1)) e.request := by
  induction past with
  | nil =>
    intro n e hget
    rw [List.getElem?_nil] at hget
    cases hget
  | cons e past ih =>
    intro n e' hget
    cases n with
    | zero =>
      rw [List.getElem?_cons_zero, Option.some.injEq] at hget
      exact hget ▸ h.1
    | succ n =>
      rw [List.getElem?_cons_succ] at hget
      exact ih h.2 hget

/-- A push goes to a branch in the agent's namespace, of the task's own repository and revision, and everything that makes it
safe was asked and answered before it. -/
theorem push_authorised (R : AgentRunner) (task : TaskRequest) (n : Nat) (workdir branch commitSha repoUrl : String)
    (h : (R.trace task)[n]?.map (fun e => e.request) = some (.push workdir branch commitSha repoUrl)) :
    Pushable branch ∧ commitSha = task.commitSha ∧ repoUrl = task.repoUrl ∧
      Authorised R task (R.workdir task) branch ((R.trace task).drop (n + 1)) := by
  obtain ⟨e, hget, hrequest⟩ := Option.map_eq_some_iff.1 h
  have hpermitted := (run_lawful R task).permitted hget
  rw [hrequest] at hpermitted
  obtain ⟨-, hsha, hurl, p, document, hreached⟩ := hpermitted
  exact ⟨hreached.authorised.1, hsha, hurl, hreached.authorised.2⟩

section fixed

def greenSummary : GateSummary where
  gates := []
  total := 0
  passed := 0
  failed := 0
  unverified := 0
  state := .passed

/-- A finding in a file with the adapter's token in it. -/
def leakFinding : List (String × Json) :=
  [("rule_id", .str "R1"), ("level", .str "debt"), ("severity", .str "low"), ("file_path", .str "a.py"), ("symbol", .str "f"),
    ("title", .str "prints tok-12345")]

/-- A world in which everything goes well. -/
def greenAnswer : (r : Request) → Answer r
  | .readContext _ => {}
  | .resolveSuites .. => (⟨[], .unverified, "", List.nodup_nil⟩, ⟨[], .unverified, "", List.nodup_nil⟩)
  | .suiteProtectedPaths .. => []
  | .runGates .. | .runAiGates .. => greenSummary
  | .review .. => [leakFinding]
  | .curate .. => none
  | .search _ finding _ _ => finding
  | .changedPaths _ => ["a.py"]
  | .commit .. => true
  | .emit .. => "result.json"
  | .openPr .. => "pull/1"
  | .setModelEnv _ | .markRunning _ | .prepare _ | .clone .. | .prepareUntrustedWorkdir _ | .protectSuite .. | .protectPaths ..
  | .recordFindings .. | .publishGuard | .push .. | .markDone .. | .markFailed .. | .markFinished _ => ()

def greenRunner : AgentRunner where
  world := { answer := fun _ r => .ok (greenAnswer r), now := fun _ => "2026-01-01T00:00:00Z" }
  protectsSuite := true
  protectsPaths := true
  runsAiGates := true
  curates := true
  reportsChanges := true
  leased := true
  workRoot := "work"
  gateTimeout := 60
  maxFindings := 50
  policyParser := none
  prPolicyOverride := none
  autoFixOverride := none
  modelEnv := .empty
  adapterSecrets := ["tok-12345"]
  sha256 := fun _ => ""
  fingerprint := fun _ => ""
  describe := fun _ => ""
  conversions := { render := fun _ => "", truncate := fun _ => none, printable := default }

def fixTask : TaskRequest where
  taskId := "7"
  repoUrl := "repo.git"
  commitSha := "abc"
  kind := .fix
  branch := some "agent/fix-7"

def Request.pushed? : Request → Option (String × String × String × String)
  | .push workdir branch commitSha repoUrl => some (workdir, branch, commitSha, repoUrl)
  | _ => none

theorem Request.pushed?_eq {r : Request} {workdir branch commitSha repoUrl : String}
    (h : r.pushed? = some (workdir, branch, commitSha, repoUrl)) : r = .push workdir branch commitSha repoUrl := by
  unfold Request.pushed? at h
  split at h
  · cases h
    rfl
  · cases h

theorem fixTask_push_authorised :
    Authorised greenRunner fixTask (greenRunner.workdir fixTask) "agent/fix-7" ((greenRunner.trace fixTask).drop 8) := by
  have hpushed : ((greenRunner.trace fixTask)[7]?.bind fun e => e.request.pushed?) =
      some ("work/7", "agent/fix-7", "abc", "repo.git") := by decide +kernel
  obtain ⟨e, hget, hrequest⟩ := Option.bind_eq_some_iff.1 hpushed
  have h := push_authorised greenRunner fixTask 7 "work/7" "agent/fix-7" "abc" "repo.git"
    (by rw [hget, Option.map_some, Request.pushed?_eq hrequest])
  exact h.2.2.2

end fixed

end OpenFish.Agent
