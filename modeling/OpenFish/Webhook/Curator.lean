/-
The curator's gate of `services/check_store.py` beside the queue it guards: a delivery asks the gate, plans its tasks
with the verdict and enqueues them later, while other deliveries do the same and the queue works on. A repository has
one open proposal exactly as long as no enqueue and no retry meets one.
-/
import OpenFish.Queue.Dedup
import OpenFish.Webhook.Delivery

namespace OpenFish.Webhook

open Lib
open Queue (AgentTask Tasks Time RunnerTable EnqueueArgs TaskStatus TaskKind AtMostOne Admits MeetsNone activeTaskStatuses)

/-! ## The gate -/

/-- A row of `check_suite_snapshots`, as far as the gate reads it. -/
structure CheckSuiteSnapshot where
  repoId : Nat
  kind : String
  deriving DecidableEq, Repr

/-- `OPEN_TASK_STATUSES`. -/
def openTaskStatuses : List TaskStatus := [.queued, .leased, .running]

/-- `has_ai_snapshot`. -/
def hasAiSnapshot (snapshots : List CheckSuiteSnapshot) (repoId : Nat) : Bool :=
  snapshots.any fun row => row.repoId = repoId ∧ row.kind = "ai"

/-- A `checks` task of a repository. -/
def isChecks (repoId : Nat) (t : AgentTask) : Bool := t.repoId = repoId ∧ t.kind = .checks

/-- `curator_should_enqueue`: the verdict and its reason. -/
def curatorShouldEnqueue (tasks : Tasks) (snapshots : List CheckSuiteSnapshot) (repoId : Nat) (mode : String)
    (minIntervalSeconds : Int) (now : Time) : Bool × String :=
  match tasks.rows.find? fun t => isChecks repoId t ∧ t.status ∈ openTaskStatuses with
  | some openTask => (false, s!"已有进行中的 checks 任务 #{openTask.id}（状态 {openTask.status.value}）")
  | none =>
    if mode = "bootstrap" ∧ hasAiSnapshot snapshots repoId then (false, "bootstrap 只提案一次：该仓库已有 AI 套件快照")
    else if 0 < minIntervalSeconds then
      let cutoff := now - minIntervalSeconds * 1000000
      let recent := tasks.rows.filter fun t => isChecks repoId t ∧ cutoff ≤ t.createdAt
      match (recent.insertionSort fun a b => b.createdAt ≤ a.createdAt).head? with
      | some task => (false, s!"冷却期内：{minIntervalSeconds}s 内已有 checks 任务 #{task.id}")
      | none => (true, "")
    else (true, "")

/-! ## Deliveries beside the queue -/

/-- A deployment, and how `json.dumps` writes the payload of a task. -/
structure Workshop extends Deployment where
  dumps : Payload → String

structure Platform where
  webhooks : Database
  tasks : Tasks
  snapshots : List CheckSuiteSnapshot

/-- What a step of a delivery finds besides the tables it shares. -/
structure Reading where
  now : Time
  createdAt : Time
  /-- `curator_min_interval_seconds` of the repository; `none` where the policy was never read. -/
  minInterval : Option Int
  runners : RunnerTable
  /-- `AGENT_MAX_IN_FLIGHT_PER_REPO`. -/
  setting : Int
  /-- Why the database refuses the step, if it does. -/
  fault : Option String := none

def defaultCuratorMinIntervalSeconds : Int := 3600

/-- `curator_enqueue_allowed`, which fails closed. -/
def curatorEnqueueAllowed (p : Platform) (repo : Repo) (r : Reading) : Bool × String :=
  match r.fault with
  | some why => (false, "curator gate unavailable: " ++ why)
  | none =>
    curatorShouldEnqueue p.tasks p.snapshots repo.id (curatorMode repo)
      (r.minInterval.getD defaultCuratorMinIntervalSeconds) r.now

/-- What `enqueue_task` passes to the queue. -/
def enqueueArgs (w : Workshop) (action : QueuedAction) (r : Reading) : EnqueueArgs where
  repoId := action.repoId
  kind := action.kind
  payload := w.dumps action.payload
  priority := action.priority
  dedupKey := some action.dedupKey
  setting := r.setting
  now := r.now
  createdAt := r.createdAt

/-- `enqueue_task`: a queue that fails costs the delivery its task and nothing else. -/
def enqueueTask (w : Workshop) (action : QueuedAction) (r : Reading) (q : Tasks) : Tasks :=
  match r.fault with
  | some _ => q
  | none => (Queue.enqueue r.runners (enqueueArgs w action r) q).2

/-- The next step of `forgejo_webhook` where the gate and the queue are the platform's. -/
def act (w : Workshop) (p : Platform) (request : Request) (r : Reading) : Platform × Request :=
  match request.stage with
  | .claimed repo =>
    let (webhooks, request') :=
      proceed w.toDeployment p.webhooks request ⟨(curatorEnqueueAllowed p repo r).1, r.fault.isSome⟩
    ({ p with webhooks }, request')
  | .acting _ (.enqueueTask action :: _) =>
    let (webhooks, request') := proceed w.toDeployment p.webhooks request ⟨false, r.fault.isSome⟩
    ({ p with webhooks, tasks := enqueueTask w action r p.tasks }, request')
  | _ =>
    let (webhooks, request') := proceed w.toDeployment p.webhooks request ⟨false, r.fault.isSome⟩
    ({ p with webhooks }, request')

/-- A call on the queue that enqueues nothing: a worker's, the reclaimer's or an operator's. -/
structure Operation where
  call : Queue.Call
  noEnqueue : ∀ a, call.op ≠ .enqueue a

/-- What happens between the steps of the deliveries. -/
inductive Meanwhile
  | imported (repos : List Repo)
  | snapshotted (row : CheckSuiteSnapshot)
  | operated (operation : Operation)

def meanwhile (p : Platform) : Meanwhile → Platform
  | .imported repos => { p with webhooks := { p.webhooks with repos } }
  | .snapshotted row => { p with snapshots := p.snapshots ++ [row] }
  | .operated operation => { p with tasks := (Queue.step p.tasks operation.call).2 }

abbrev Turn := Move (Body × Headers) Reading Meanwhile

/-- Any number of deliveries beside an empty queue. -/
def curation (w : Workshop) (repos : List Repo) : Program Platform Request (Body × Headers) Reading Meanwhile where
  start := ⟨⟨repos, some []⟩, Table.empty, []⟩
  enter _ arrival := receive w.toDeployment arrival.1 arrival.2
  step := act w
  other := meanwhile

/-! ## What the claim is about -/

/-- At most one `checks` task of a repository is queued, leased or running. -/
def OneProposal (p : Platform) : Prop := ∀ repoId, AtMostOne (isChecks repoId · = true) p.tasks

/-- The task that the next step of a delivery enqueues. -/
def Request.nextTask (request : Request) : Option QueuedAction :=
  match request.stage with
  | .acting _ (.enqueueTask action :: _) => some action
  | _ => none

/-- What was found when the gate was asked is still so: a proposal that `enqueue` lets through meets no open one of its
repository, and neither does a failed or dead one that an operator takes up again. -/
structure StillAlone (w : Workshop) (s : Scene Platform Request) (turn : Turn) : Prop where
  enqueued : ∀ i r request action, turn = .step i r → s.calls[i]? = some request → request.nextTask = some action →
    r.fault = none → Admits r.runners (enqueueArgs w action r) s.shared.tasks .checks →
      ∀ t ∈ s.shared.tasks.rows, isChecks action.repoId t = true → t.status ∉ activeTaskStatuses
  retried : ∀ operation id reason now, turn = .other (.operated operation) → operation.call.op = .retry id reason now →
    ∀ t, s.shared.tasks.get? id = some t → t.status ∈ [TaskStatus.failed, .dead] → t.kind = .checks →
      ∀ t' ∈ s.shared.tasks.rows, isChecks t.repoId t' = true → t'.status ∉ activeTaskStatuses

/-- A delivery that starts when its repository has a snapshot of an AI suite queues no proposal to bootstrap it. -/
def BootstrapsOnce (w : Workshop) (repos : List Repo) (turns : List Turn) : Prop :=
  ∀ earlier, earlier <:+ turns → ∀ i request, ((curation w repos).machine.state turns).calls[i]? = some request →
    ((curation w repos).machine.state earlier).calls.length ≤ i →
      ∀ action, .enqueueTask action ∈ request.ran → action.kind = "checks" →
        ("suite_scope", Json.str "bootstrap") ∈ action.payload →
          hasAiSnapshot ((curation w repos).machine.state earlier).shared.snapshots action.repoId = false

/-! ## One open proposal -/

theorem isChecks_iff {repoId : Nat} {t : AgentTask} : isChecks repoId t = true ↔ t.repoId = repoId ∧ t.kind = .checks :=
  decide_eq_true_iff

theorem oneProposal_call {q : Tasks} (hq : ∀ repoId, AtMostOne (isChecks repoId · = true) q) (c : Queue.Call) :
    (∀ repoId, AtMostOne (isChecks repoId · = true) (Queue.step q c).2) ↔
      ∀ repoId, MeetsNone (isChecks repoId · = true) q c := by
  refine forall_congr' fun repoId => Queue.atMostOne_step (fun hs => ?_) (hq repoId)
  rw [isChecks_iff, isChecks_iff, hs.repoId, hs.kind]

/-- What a step of a delivery does to the queue. -/
theorem act_tasks (w : Workshop) (p : Platform) (request : Request) (r : Reading) :
    (act w p request r).1.tasks =
      match request.nextTask with
      | some action => enqueueTask w action r p.tasks
      | none => p.tasks := by
  obtain ⟨body, event, stage, letThrough, ran⟩ := request
  cases stage with
  | acting repo todo =>
    cases todo with
    | nil => rfl
    | cons effect todo => cases effect <;> rfl
  | arrived | unseen | resolved | claimed | answered => rfl

theorem act_snapshots (w : Workshop) (p : Platform) (request : Request) (r : Reading) :
    (act w p request r).1.snapshots = p.snapshots := by
  unfold act
  split <;> rfl

theorem oneProposal_enqueue (w : Workshop) {p : Platform} (hp : OneProposal p) (action : QueuedAction) (r : Reading) :
    (∀ repoId, AtMostOne (isChecks repoId · = true) (enqueueTask w action r p.tasks)) ↔
      (r.fault = none → Admits r.runners (enqueueArgs w action r) p.tasks .checks →
        ∀ t ∈ p.tasks.rows, isChecks action.repoId t = true → t.status ∉ activeTaskStatuses) := by
  unfold enqueueTask
  cases hfault : r.fault with
  | some why => exact iff_of_true hp fun h => by cases h
  | none =>
    refine (oneProposal_call hp ⟨r.runners, .enqueue (enqueueArgs w action r)⟩).trans ?_
    constructor
    · intro hmeets _ hadmits
      exact (hmeets action.repoId).enqueued _ _ rfl hadmits (isChecks_iff.2 ⟨rfl, rfl⟩)
    · intro halone repoId
      refine ⟨?_, fun _ _ _ hop => by cases hop⟩
      rintro a kind hop hadmits hchecks
      cases hop
      obtain ⟨rfl, rfl⟩ := isChecks_iff.1 hchecks
      exact halone rfl hadmits

theorem oneProposal_operate {p : Platform} (hp : OneProposal p) (operation : Operation) :
    OneProposal (meanwhile p (.operated operation)) ↔
      ∀ id reason now, operation.call.op = .retry id reason now →
        ∀ t, p.tasks.get? id = some t → t.status ∈ [TaskStatus.failed, .dead] → t.kind = .checks →
          ∀ t' ∈ p.tasks.rows, isChecks t.repoId t' = true → t'.status ∉ activeTaskStatuses := by
  refine (oneProposal_call hp operation.call).trans ?_
  constructor
  · intro hmeets id reason now hop t ht hs hkind
    exact (hmeets t.repoId).retried id reason now hop t ht hs (isChecks_iff.2 ⟨rfl, hkind⟩)
  · intro halone repoId
    refine ⟨fun a _ hop => absurd hop (operation.noEnqueue a), ?_⟩
    intro id reason now hop t ht hs hchecks
    obtain ⟨rfl, hkind⟩ := isChecks_iff.1 hchecks
    exact halone id reason now hop t ht hs hkind

/-- From a state with one open proposal a repository, a turn leads to another exactly when it meets no open one. -/
theorem oneProposal_next (w : Workshop) (repos : List Repo) {s : Scene Platform Request} (hs : OneProposal s.shared)
    (turn : Turn) : OneProposal ((curation w repos).next s turn).shared ↔ StillAlone w s turn := by
  cases turn with
  | begin arrival => exact iff_of_true hs ⟨fun _ _ _ _ h => (by cases h), fun _ _ _ _ h => (by cases h)⟩
  | step i r =>
    cases hi : s.calls[i]? with
    | none =>
      rw [Program.next_none _ hi]
      refine iff_of_true hs ⟨fun _ _ _ _ h hrequest => ?_, fun _ _ _ _ h => (by cases h)⟩
      cases h
      rw [hi] at hrequest; cases hrequest
    | some request =>
      rw [Program.next_step _ hi]
      show (∀ repoId, AtMostOne _ (act w s.shared request r).1.tasks) ↔ _
      rw [act_tasks]
      cases hnext : request.nextTask with
      | none =>
        refine iff_of_true hs ⟨fun _ _ _ _ h hrequest hsome => ?_, fun _ _ _ _ h => (by cases h)⟩
        cases h
        rw [hi] at hrequest; cases hrequest
        rw [hnext] at hsome; cases hsome
      | some action =>
        refine (oneProposal_enqueue w hs action r).trans ⟨fun h => ⟨?_, fun _ _ _ _ h => (by cases h)⟩, fun h => ?_⟩
        · intro j r' request' action' hturn hrequest hsome
          cases hturn
          rw [hi] at hrequest; cases hrequest
          rw [hnext] at hsome; cases hsome
          exact h
        · exact h.enqueued i r request action rfl hi hnext
  | other event =>
    cases event with
    | imported repos' => exact iff_of_true hs ⟨fun _ _ _ _ h => (by cases h), fun _ _ _ _ h => (by cases h)⟩
    | snapshotted row => exact iff_of_true hs ⟨fun _ _ _ _ h => (by cases h), fun _ _ _ _ h => (by cases h)⟩
    | operated operation =>
      refine (oneProposal_operate hs operation).trans ⟨fun h => ⟨fun _ _ _ _ h => (by cases h), ?_⟩, fun h => ?_⟩
      · intro operation' id reason now hturn
        cases hturn
        exact h id reason now
      · exact fun id reason now => h.retried operation id reason now rfl

/-! ## Bootstrapping -/

/-- What a request did and has planned to do. -/
def Request.planned (request : Request) : List Effect :=
  request.ran ++
    match request.stage with
    | .acting _ todo => todo
    | _ => []

/-- A plan is made once, and carried out. -/
theorem planned_proceed (d : Deployment) (db : Database) (request : Request) (reply : Reply) :
    (proceed d db request reply).2.planned = request.planned ∨
      ∃ repo, request.stage = .claimed repo ∧
        (proceed d db request reply).2.planned = request.ran ++ effects d.render request.event repo reply.curatorAllowed := by
  obtain ⟨body, event, stage, letThrough, ran⟩ := request
  cases stage with
  | arrived =>
    left
    simp only [proceed]
    split <;> rfl
  | unseen =>
    left
    simp only [proceed]
    split
    · rfl
    · split <;> rfl
  | resolved repo =>
    left
    simp only [proceed]
    split <;> rfl
  | claimed repo => exact .inr ⟨repo, rfl, rfl⟩
  | acting repo todo =>
    left
    cases todo with
    | nil => rfl
    | cons effect todo => exact List.append_assoc ran [effect] todo
  | answered response => exact .inl rfl

/-- A proposal is planned only with the gate's leave. -/
theorem checks_of_effects {render : Json → String} {event : WebhookEvent} {repo : Repo} {allowed : Bool}
    {action : QueuedAction} (h : .enqueueTask action ∈ effects render event repo allowed) (hkind : action.kind = "checks") :
    allowed = true ∧ action = checksAction event repo.id (headSha render event) (curatorMode repo) := by
  rcases List.mem_append.1 h with h | h
  · obtain ⟨action', hplan, heq⟩ := List.mem_map.1 h
    cases heq
    unfold planActions at hplan
    split at hplan
    · rename_i hpush
      dsimp only at hplan
      split at hplan
      · cases hplan
      · rename_i hlive
        have hdefault : event.isDefaultBranch = true := by simpa using fun h => hlive (.inl h)
        rcases List.mem_append.1 hplan with hreview | hchecks
        · split at hreview
          · obtain rfl := List.mem_singleton.1 hreview
            exact absurd hkind (show "review" ≠ "checks" by decide)
          · cases hreview
        · have hverdict : (if event.kind = .push ∧ event.isDefaultBranch then allowed else true) = allowed :=
            if_pos ⟨hpush, hdefault⟩
          rw [hverdict] at hchecks
          split at hchecks
          · rename_i hmode
            exact ⟨hmode.2, List.mem_singleton.1 hchecks⟩
          · cases hchecks
    · split at hplan
      · cases hplan
      · obtain rfl := List.mem_singleton.1 hplan
        exact absurd hkind (show "fix" ≠ "checks" by decide)
    · cases hplan
  · split at h
    · cases List.mem_singleton.1 h
    · cases h

/-- The gate lets no repository with a snapshot be bootstrapped. -/
theorem bootstrap_refused {p : Platform} {repo : Repo} {r : Reading} (hmode : curatorMode repo = "bootstrap")
    (h : (curatorEnqueueAllowed p repo r).1 = true) : hasAiSnapshot p.snapshots repo.id = false := by
  unfold curatorEnqueueAllowed at h
  split at h
  · cases h
  · unfold curatorShouldEnqueue at h
    split at h
    · cases h
    · split at h
      · cases h
      · rename_i hno
        simpa using fun hsnapshot => hno ⟨hmode, hsnapshot⟩

/-- A proposal to bootstrap a repository that has no snapshot among these. -/
def Apart (snapshots : List CheckSuiteSnapshot) (request : Request) : Prop :=
  ∀ action, .enqueueTask action ∈ request.planned → action.kind = "checks" →
    ("suite_scope", Json.str "bootstrap") ∈ action.payload → hasAiSnapshot snapshots action.repoId = false

theorem hasAiSnapshot_mono {snapshots later : List CheckSuiteSnapshot} (hsub : snapshots ⊆ later) {repoId : Nat}
    (h : hasAiSnapshot later repoId = false) : hasAiSnapshot snapshots repoId = false := by
  rw [hasAiSnapshot, List.any_eq_false] at h ⊢
  exact fun row hrow => h row (hsub hrow)

theorem apart_act (w : Workshop) {snapshots : List CheckSuiteSnapshot} {p : Platform} (hsub : snapshots ⊆ p.snapshots)
    {request : Request} (h : Apart snapshots request) (r : Reading) : Apart snapshots (act w p request r).2 := by
  intro action hplanned hkind hscope
  have hact : ∃ reply : Reply, (act w p request r).2 = (proceed w.toDeployment p.webhooks request reply).2 ∧
      ∀ repo, request.stage = .claimed repo → reply.curatorAllowed = (curatorEnqueueAllowed p repo r).1 := by
    unfold act
    split
    · rename_i repo hstage
      exact ⟨_, rfl, fun repo' h' => by rw [hstage] at h'; cases h'; rfl⟩
    · rename_i hstage
      exact ⟨_, rfl, fun repo' h' => by rw [hstage] at h'; cases h'⟩
    · rename_i hstage _
      exact ⟨_, rfl, fun repo' h' => absurd h' (hstage repo')⟩
  obtain ⟨reply, heq, hallowed⟩ := hact
  rw [heq] at hplanned
  rcases planned_proceed w.toDeployment p.webhooks request reply with hsame | ⟨repo, hstage, hnew⟩
  · rw [hsame] at hplanned
    exact h action hplanned hkind hscope
  · rw [hnew] at hplanned
    rcases List.mem_append.1 hplanned with hran | hplan
    · exact h action (List.mem_append_left _ hran) hkind hscope
    · obtain ⟨htrue, rfl⟩ := checks_of_effects hplan hkind
      have hmode : curatorMode repo = "bootstrap" := by
        simpa [checksAction, eq_comm] using hscope
      rw [hallowed repo hstage] at htrue
      exact hasAiSnapshot_mono hsub (bootstrap_refused hmode htrue)

/-- After a moment of a run, its snapshots stay and the deliveries that begin later are apart from them. -/
structure Since (s₀ s : Scene Platform Request) : Prop where
  calls : s₀.calls.length ≤ s.calls.length
  snapshots : s₀.shared.snapshots ⊆ s.shared.snapshots
  apart : ∀ i request, s.calls[i]? = some request → s₀.calls.length ≤ i → Apart s₀.shared.snapshots request

theorem apart_receive (d : Deployment) (arrival : Body × Headers) (snapshots : List CheckSuiteSnapshot) :
    Apart snapshots (receive d arrival.1 arrival.2) := by
  have hplanned : (receive d arrival.1 arrival.2).planned = [] := by
    simp only [receive]
    split
    · rfl
    · split
      · rfl
      · split <;> rfl
  intro action h
  rw [hplanned] at h
  cases h

theorem Since.next (w : Workshop) (repos : List Repo) {s₀ s : Scene Platform Request} (h : Since s₀ s) (turn : Turn) :
    Since s₀ ((curation w repos).next s turn) := by
  cases turn with
  | begin arrival =>
    refine ⟨?_, h.snapshots, fun i request hi hlate => ?_⟩
    · show _ ≤ (s.calls ++ [_]).length
      rw [List.length_append]
      exact Nat.le_add_right_of_le h.calls
    · rcases getElem?_append_cases hi with ⟨-, rfl⟩ | hi
      · exact apart_receive w.toDeployment arrival _
      · exact h.apart i request hi hlate
  | step i r =>
    cases hi : s.calls[i]? with
    | none =>
      rw [Program.next_none _ hi]
      exact h
    | some request =>
      rw [Program.next_step _ hi]
      refine ⟨?_, ?_, fun j request' hj hlate => ?_⟩
      · rw [List.length_set]
        exact h.calls
      · show _ ⊆ (act w s.shared request r).1.snapshots
        rw [act_snapshots]
        exact h.snapshots
      · rcases getElem?_set_cases hj with ⟨rfl, rfl⟩ | ⟨-, hj⟩
        · exact apart_act w h.snapshots (h.apart j request hi hlate) r
        · exact h.apart j request' hj hlate
  | other event =>
    refine ⟨h.calls, fun row hrow => ?_, h.apart⟩
    cases event with
    | imported | operated => exact h.snapshots hrow
    | snapshotted row' => exact List.mem_append_left _ (h.snapshots hrow)

theorem bootstrapsOnce (w : Workshop) (repos : List Repo) (turns : List Turn) : BootstrapsOnce w repos turns := by
  rintro earlier ⟨later, rfl⟩ i request hi hlate action hran hkind hscope
  have hsince : ∀ later : List Turn, Since ((curation w repos).machine.state earlier)
      ((curation w repos).machine.state (later ++ earlier)) := by
    intro later
    induction later with
    | nil =>
      refine ⟨Nat.le_refl _, fun _ h => h, fun i request hi hlate => ?_⟩
      exact absurd (List.getElem?_eq_some_iff.1 hi).1 (Nat.not_lt.2 hlate)
    | cons turn later ih => exact ih.next w repos turn
  exact (hsince later).apart i request hi hlate action (List.mem_append_left _ hran) hkind hscope

/-! ## Every run -/

/-- Whatever the deliveries, the imports, the snapshots and the calls on the queue between them: a repository has at most
one open proposal throughout exactly when no proposal meets an open one as it is enqueued or taken up again, and no
delivery bootstraps a repository that had a snapshot when it came. -/
theorem oneProposal_iff (w : Workshop) (repos : List Repo) (turns : List Turn) :
    ((curation w repos).machine.AllStates (fun _ s => OneProposal s.shared) turns ↔
        (curation w repos).machine.AllSteps (fun _ => StillAlone w) turns) ∧
      BootstrapsOnce w repos turns := by
  refine ⟨Machine.allStates_iff_allSteps ?_ ?_ turns, bootstrapsOnce w repos turns⟩
  · exact fun _ t ht => by cases ht
  · exact fun turns turn hs => oneProposal_next w repos hs turn

/-- A workshop whose pushes carry their head as their body. -/
def pushWorkshop : Workshop where
  secret := "secret"
  computeSignature _ _ := plainSignature
  loads body := .ok (.obj [("ref", .str "refs/heads/main"), ("after", .str (String.ofList (body.map Char.ofUInt8))),
    ("repository", .obj [("full_name", .str "team/app")])])
  render _ := ""
  digest body := String.ofList (body.map Char.ofUInt8)
  dumps _ := ""

/-- A step within a minute, of a repository whose policy was never read. -/
def firstMinute : Reading := { now := 60, createdAt := 60, minInterval := none, runners := Queue.noRunners, setting := 0 }

/-- A push of a head. -/
def push (head : UInt8) : Turn := .begin ([head], signedHeaders)

/-- The push of a head has arrived. -/
theorem receive_push (head : UInt8) : receive pushWorkshop.toDeployment [head] signedHeaders =
    { body := [head], stage := .arrived, event := parseEvent pushWorkshop.render "push"
        [("ref", .str "refs/heads/main"), ("after", .str (String.ofList [Char.ofUInt8 head])),
          ("repository", .obj [("full_name", .str "team/app")])] } :=
  receive_signedHeaders (by decide) (fun _ _ => rfl) (List.cons_ne_nil _ _) rfl

/-- Two pushes of one repository: both ask the gate before either of them enqueues (read from the last turn to the
first). -/
def twoPushes : List Turn :=
  List.replicate 2 (.step 1 firstMinute) ++ List.replicate 2 (.step 0 firstMinute) ++
    List.replicate 4 (.step 1 firstMinute) ++ List.replicate 4 (.step 0 firstMinute) ++ [push 98, push 97]

/-- `twoPushes` ends with two open proposals, under the keys of the two heads. -/
theorem twoPushes_two_open :
    ¬ (curation pushWorkshop [⟨1, "team/app", none, none, none⟩]).machine.AllStates (fun _ s => OneProposal s.shared)
      twoPushes := by
  intro h
  have hopen : ∃ t ∈ ((curation pushWorkshop [⟨1, "team/app", none, none, none⟩]).machine.state twoPushes).shared.tasks.rows,
      ∃ t' ∈ ((curation pushWorkshop [⟨1, "team/app", none, none, none⟩]).machine.state twoPushes).shared.tasks.rows,
        isChecks 1 t = true ∧ isChecks 1 t' = true ∧ t.status ∈ activeTaskStatuses ∧ t'.status ∈ activeTaskStatuses ∧
          t ≠ t' := by
    have hstart : (curation pushWorkshop [⟨1, "team/app", none, none, none⟩]).machine.state [push 98, push 97] =
        ⟨⟨⟨[⟨1, "team/app", none, none, none⟩], some []⟩, Table.empty, []⟩,
          [receive pushWorkshop.toDeployment [97] signedHeaders, receive pushWorkshop.toDeployment [98] signedHeaders]⟩ := rfl
    rw [twoPushes, Machine.state_append, hstart, receive_push, receive_push]
    decide +kernel
  obtain ⟨t, ht, t', ht', hc, hc', ha, ha', hne⟩ := hopen
  exact hne (h.now 1 t ht t' ht' hc hc' ha ha')

end OpenFish.Webhook
