/-
The task queue of `services/agent_queue.py`: the rows of `agent_tasks` and `repo_runners`, the
values exchanged with callers, and the nine methods of `AgentQueue` as functions on the table, under
the source's names in camel case.

Every method reads the clock, so every method takes the instant it read; `enqueue` and `claim` read
`repo_runners` and take the rows as they stand. Text columns no method looks into (`payload`) are
carried as they are stored.
-/
import OpenFish.Lib.Machine
import OpenFish.Lib.Table
import OpenFish.Lib.Text
import Mathlib.Algebra.Order.Ring.Int
import Mathlib.Data.List.Rotate
import Mathlib.Data.List.Sort

namespace OpenFish.Queue

open Lib

/-- An instant or a duration, in microseconds. -/
abbrev Time := Int

/-! ## Rows -/

inductive TaskStatus
  | queued | leased | running | done | failed | dead
  deriving DecidableEq, Repr

def TaskStatus.value : TaskStatus → String
  | .queued => "queued"
  | .leased => "leased"
  | .running => "running"
  | .done => "done"
  | .failed => "failed"
  | .dead => "dead"

/-- `ACTIVE_TASK_STATUSES`: work still pending. -/
def activeTaskStatuses : List TaskStatus := [.queued, .leased, .running]

/-- `RUNNING_TASK_STATUSES`: an execution slot is held. -/
def runningTaskStatuses : List TaskStatus := [.leased, .running]

inductive TaskKind
  | review | fix | checks | «import» | backfill
  deriving DecidableEq, Repr

/-- `kind in TASK_KIND`. -/
def TaskKind.ofString? : String → Option TaskKind
  | "review" => some .review
  | "fix" => some .fix
  | "checks" => some .checks
  | "import" => some .import
  | "backfill" => some .backfill
  | _ => none

/-- A row of `agent_tasks`. -/
structure AgentTask where
  id : Nat
  repoId : Nat
  runnerId : Option Nat
  kind : TaskKind
  status : TaskStatus
  payload : String
  leasedBy : String
  leaseUntil : Option Time
  scheduledAt : Option Time
  attempts : Nat
  maxAttempts : Nat
  dedupKey : Option String
  priority : Int
  resultRef : Option String
  error : Option String
  createdAt : Time
  startedAt : Option Time
  finishedAt : Option Time
  deriving DecidableEq, Repr

instance : Keyed AgentTask := ⟨AgentTask.id⟩

@[simp] theorem key_agentTask (t : AgentTask) : key t = t.id := rfl

/-- The table `agent_tasks`. -/
abbrev Tasks := Table AgentTask

/-- A row of `repo_runners`: the columns the queue reads. -/
structure RepoRunner where
  id : Nat
  repoId : Nat
  enabled : Bool
  maxConcurrency : Int
  deriving DecidableEq, Repr

/-- The table `repo_runners`: `repo_id` is unique. -/
structure RunnerTable where
  rows : List RepoRunner
  uniq : (rows.map (·.repoId)).Nodup

def noRunners : RunnerTable := ⟨[], by simp⟩

def RunnerTable.ofRepo (runners : RunnerTable) (repo : Nat) : Option RepoRunner :=
  runners.rows.find? (·.repoId == repo)

/-! ## Values exchanged with callers -/

/-- Proof that `worker` owns task `taskId` until `expiresAt`. -/
structure Lease where
  taskId : Nat
  worker : String
  expiresAt : Time
  attempts : Nat := 0
  deriving DecidableEq, Repr

/-- A task that was atomically moved to `leased` for a worker. -/
structure ClaimedTask where
  id : Nat
  repoId : Nat
  kind : TaskKind
  payload : String
  attempts : Nat
  maxAttempts : Nat
  priority : Int
  lease : Lease
  runnerId : Option Nat
  deriving DecidableEq, Repr

/-- What `reclaim_expired` did with one abandoned lease. -/
structure ReclaimOutcome where
  taskId : Nat
  previousStatus : TaskStatus
  status : TaskStatus
  attempts : Nat
  reason : String
  deriving DecidableEq, Repr

/-- The arguments of `enqueue`, the configured ceiling it may read and the two clock readings of
the inserted row. -/
structure EnqueueArgs where
  repoId : Nat
  kind : String := "review"
  payload : String := "\x7b\x7d"
  priority : Int := 0
  maxAttempts : Int := 3
  scheduledAt : Option Time := none
  dedupKey : Option String := none
  maxInFlightPerRepo : Option Int := none
  setting : Int := 0
  now : Time
  createdAt : Time

/-! ## Producer -/

def configuredMaxInFlightPerRepo (setting : Int) : Int := max 0 setting

/-- The `WHERE` of the duplicate check. -/
def isDuplicate (repo : Nat) (kind : TaskKind) (dedup : String) (t : AgentTask) : Bool :=
  t.repoId == repo && t.kind == kind && t.dedupKey == some dedup && decide (t.status ∈ activeTaskStatuses)

/-- The ceiling `enqueue` applies, in its order of precedence. -/
def enqueueCeiling (runners : RunnerTable) (a : EnqueueArgs) : Int :=
  match a.maxInFlightPerRepo, runners.ofRepo a.repoId with
  | some explicit, _ => explicit
  | none, some runner =>
    if 0 < runner.maxConcurrency then runner.maxConcurrency else configuredMaxInFlightPerRepo a.setting
  | none, none => configuredMaxInFlightPerRepo a.setting

/-- The row `enqueue` inserts. -/
def newTask (runners : RunnerTable) (a : EnqueueArgs) (kind : TaskKind) (dedup : String) (id : Nat) : AgentTask where
  id := id
  repoId := a.repoId
  runnerId := (runners.ofRepo a.repoId).map (·.id)
  kind := kind
  status := .queued
  payload := a.payload
  leasedBy := ""
  leaseUntil := none
  scheduledAt := some (a.scheduledAt.getD a.now)
  attempts := 0
  maxAttempts := a.maxAttempts.toNat
  dedupKey := if dedup = "" then none else some dedup
  priority := a.priority
  resultRef := none
  error := none
  createdAt := a.createdAt
  startedAt := none
  finishedAt := none

theorem key_newTask (runners : RunnerTable) (a : EnqueueArgs) (kind : TaskKind) (dedup : String) (id : Nat) :
    key (newTask runners a kind dedup id) = id := rfl

/-- `AgentQueue.enqueue`: the new id, 0 when the task was suppressed, or the text of the
`ValueError`. -/
def enqueue (runners : RunnerTable) (a : EnqueueArgs) (q : Tasks) : Except String Nat × Tasks :=
  match TaskKind.ofString? a.kind with
  | none =>
    (.error s!"unknown task kind {a.kind}; expected one of ('review', 'fix', 'checks', 'import', 'backfill')", q)
  | some kind =>
    if a.maxAttempts < 1 then (.error "max_attempts must be at least 1", q)
    else
      let dedup := Text.strip (a.dedupKey.getD "")
      -- suppressed: a pending duplicate, or a repository at its ceiling
      if dedup ≠ "" ∧ q.rows.any (isDuplicate a.repoId kind dedup) then (.ok 0, q)
      else
        let ceiling := enqueueCeiling runners a
        let active := q.rows.countP fun t => t.repoId == a.repoId && decide (t.status ∈ activeTaskStatuses)
        if 0 < ceiling ∧ ceiling ≤ active then (.ok 0, q)
        else (.ok q.next, q.insert (newTask runners a kind dedup) (key_newTask runners a kind dedup))

/-! ## Consumer -/

/-- `_runner_runnable`: the repository has no disabled runner row. -/
def runnerRunnable (runners : RunnerTable) (repo : Nat) : Bool :=
  !runners.rows.any fun r => r.repoId == repo && !r.enabled

/-- The number of execution slots a repository holds. -/
def inflight (q : Tasks) (repo : Nat) : Nat :=
  q.rows.countP fun t => t.repoId == repo && decide (t.status ∈ runningTaskStatuses)

/-- `_runner_ceiling_available`: `NOT (bounded > 0 AND inflight >= bounded)`, a missing runner row
counting as 0. -/
def runnerCeilingAvailable (runners : RunnerTable) (q : Tasks) (repo : Nat) : Bool :=
  let bounded := ((runners.ofRepo repo).map (·.maxConcurrency)).getD 0
  !(decide (bounded > 0) && decide ((inflight q repo : Int) ≥ bounded))

/-- The `WHERE` of the claim's `SELECT`. -/
def claimable (runners : RunnerTable) (now : Time) (q : Tasks) (t : AgentTask) : Bool :=
  t.status == .queued && t.scheduledAt.all (· ≤ now) && runnerRunnable runners t.repoId &&
    runnerCeilingAvailable runners q t.repoId

/-- `ORDER BY priority DESC, created_at ASC`. -/
def ClaimOrder (a b : AgentTask) : Prop :=
  b.priority < a.priority ∨ (a.priority = b.priority ∧ a.createdAt ≤ b.createdAt)

instance : DecidableRel ClaimOrder := fun _ _ => inferInstanceAs (Decidable (_ ∨ _))

/-- The claim's `SELECT … LIMIT 1`. Which of two equally ranked rows comes first is the database's
choice: it scans the table from any row on (`scan`), and the sort is stable. -/
def bestTask (runners : RunnerTable) (now : Time) (scan : Nat) (q : Tasks) : Option AgentTask :=
  (((q.rows.rotate scan).filter (claimable runners now q)).insertionSort ClaimOrder).head?

def setLeased (worker : String) (expires now : Time) (t : AgentTask) : AgentTask :=
  { t with status := .leased, leasedBy := worker, leaseUntil := some expires, startedAt := some now }

def claim (runners : RunnerTable) (worker : String) (now leaseFor : Time) (scan : Nat) (q : Tasks) :
    Option ClaimedTask × Tasks :=
  match bestTask runners now scan q with
  | none => (none, q)
  | some task =>
    -- the row was locked by the `SELECT`, so the write by primary key finds it as it was read
    let expires := now + leaseFor
    let q' := q.update (·.id == task.id) (setLeased worker expires now) fun _ => rfl
    (some
      { id := task.id, repoId := task.repoId, runnerId := task.runnerId, kind := task.kind, payload := task.payload,
        attempts := task.attempts, maxAttempts := task.maxAttempts, priority := task.priority,
        lease := { taskId := task.id, worker := worker, expiresAt := expires, attempts := task.attempts } }, q')

/-- The `WHERE` that ties an outcome write to its lease. -/
def holds (lease : Lease) (expected : List TaskStatus) (t : AgentTask) : Bool :=
  t.id == lease.taskId && t.leasedBy == lease.worker && decide (t.status ∈ expected)

def setStatus (status : TaskStatus) (setStarted : Option Time) (t : AgentTask) : AgentTask :=
  { t with status := status, startedAt := setStarted.orElse fun _ => t.startedAt }

/-- `AgentQueue._transition`; `setStarted` is the clock reading stored when `set_started` is true. -/
def transition (lease : Lease) (expected : List TaskStatus) (status : TaskStatus) (setStarted : Option Time)
    (q : Tasks) : Bool × Tasks :=
  (q.rowcount (holds lease expected),
    q.update (holds lease expected) (setStatus status setStarted) fun _ => rfl)

def markRunning (lease : Lease) (q : Tasks) : Bool × Tasks := transition lease [.leased] .running none q

def setLeaseUntil (expires : Time) (t : AgentTask) : AgentTask := { t with leaseUntil := some expires }

def heartbeat (lease : Lease) (now leaseFor : Time) (q : Tasks) : Bool × Tasks :=
  (q.rowcount (holds lease [.leased, .running]),
    q.update (holds lease [.leased, .running]) (setLeaseUntil (now + leaseFor)) fun _ => rfl)

def setFinished (status : TaskStatus) (resultRef error : Option String) (now : Time) (t : AgentTask) : AgentTask :=
  { t with
    status := status, resultRef := resultRef, error := error, leasedBy := "", leaseUntil := none,
    finishedAt := some now }

def finish (lease : Lease) (status : TaskStatus) (resultRef error : Option String) (now : Time) (q : Tasks) :
    Bool × Tasks :=
  (q.rowcount (holds lease [.leased, .running]),
    q.update (holds lease [.leased, .running]) (setFinished status resultRef error now) fun _ => rfl)

def succeed (lease : Lease) (resultRef : Option String) (now : Time) (q : Tasks) : Bool × Tasks :=
  finish lease .done resultRef none now q

/-! ## Failure: a guarded `SELECT`, then an `UPDATE` by primary key -/

/-- `min(MAX_BACKOFF_SECONDS, DEFAULT_BACKOFF_SECONDS * 2 ** (attempts - 1))`; the multiplication
raises `OverflowError` once the power no longer fits a float. -/
def backoff (attempts : Nat) : Option Time :=
  if 1024 ≤ attempts - 1 then none else some (min 900000000 (30000000 * 2 ^ (attempts - 1)))

/-- The columns `fail` assigns on the row it loaded; `none` when computing them raises. -/
def failed (error : String) (now : Time) (task : AgentTask) : Option AgentTask :=
  let attempts := task.attempts + 1
  let task' := { task with
    attempts := attempts, error := some (Text.clip 2000 error), leaseUntil := none, leasedBy := "",
    finishedAt := some now }
  if task.maxAttempts ≤ attempts then some { task' with status := .dead }
  else (backoff attempts).map fun delay =>
    { task' with status := .queued, scheduledAt := some (now + delay) }

/-- A row as `fail` loaded it and as it will write it. -/
structure FailWrite where
  loaded : AgentTask
  written : AgentTask
  deriving DecidableEq, Repr

/-- A column of the flush: written only where the session changed it. -/
def dirty {α : Type} [DecidableEq α] (loaded written current : α) : α :=
  if written = loaded then current else written

/-- The flush of a changed object: the assigned columns that differ from what was loaded, on the
row as it stands now. -/
def FailWrite.flush (w : FailWrite) (t : AgentTask) : AgentTask := { t with
  status := dirty w.loaded.status w.written.status t.status
  attempts := dirty w.loaded.attempts w.written.attempts t.attempts
  error := dirty w.loaded.error w.written.error t.error
  leaseUntil := dirty w.loaded.leaseUntil w.written.leaseUntil t.leaseUntil
  leasedBy := dirty w.loaded.leasedBy w.written.leasedBy t.leasedBy
  scheduledAt := dirty w.loaded.scheduledAt w.written.scheduledAt t.scheduledAt
  finishedAt := dirty w.loaded.finishedAt w.written.finishedAt t.finishedAt }

/-- What `fail` reports: the status the task ended in, `"lost"`, or an `OverflowError`. -/
inductive FailOutcome
  | queued | dead | lost | overflow
  deriving DecidableEq, Repr

/-- The answer of a write that went through. -/
def FailWrite.outcome (w : FailWrite) : FailOutcome :=
  if w.loaded.maxAttempts ≤ w.loaded.attempts + 1 then .dead else .queued

/-- The first statement of `fail`: the guarded `SELECT` and the assignments on the loaded row. -/
def failSelect (lease : Lease) (error : String) (now : Time) (q : Tasks) : Except FailOutcome FailWrite :=
  match q.rows.find? (holds lease [.leased, .running]) with
  | none => .error .lost
  | some task =>
    match failed error now task with
    | none => .error .overflow
    | some written => .ok ⟨task, written⟩

/-- The second statement of `fail`: the `UPDATE` by primary key on commit. -/
def failUpdate (w : FailWrite) (q : Tasks) : Tasks := q.update (·.id == w.loaded.id) w.flush fun _ => rfl

/-- `AgentQueue.fail`: the two statements one after the other. -/
def fail (lease : Lease) (error : String) (now : Time) (q : Tasks) : FailOutcome × Tasks :=
  match failSelect lease error now q with
  | .error o => (o, q)
  -- no lock is held between the two: see `Interleaving`
  | .ok w => (w.outcome, failUpdate w q)

/-! ## Recovery and operator actions -/

/-- The `WHERE` of the reclaim's `SELECT`. -/
def leaseExpired (moment : Time) (t : AgentTask) : Bool :=
  decide (t.status ∈ [TaskStatus.leased, .running]) && t.leaseUntil.any (· < moment)

def reclaimReason (t : AgentTask) : String :=
  let holder := if t.leasedBy = "" then "unknown" else t.leasedBy
  s!"lease expired while {t.status.value} (held by {holder}); reclaimed"

/-- The columns `reclaim_expired` assigns on one abandoned row. -/
def reclaimed (moment : Time) (t : AgentTask) : AgentTask :=
  let t' := { t with
    attempts := t.attempts + 1, error := some (reclaimReason t), leasedBy := "", leaseUntil := none,
    scheduledAt := some moment }
  if t.maxAttempts ≤ t.attempts + 1 then { t' with status := .dead, finishedAt := some moment }
  else { t' with status := .queued }

theorem reclaimed_id (moment : Time) (t : AgentTask) : (reclaimed moment t).id = t.id := by
  unfold reclaimed; dsimp only; split <;> rfl

/-- `AgentQueue.reclaim_expired`; the report lists the rows by `lease_until` ascending. -/
def reclaimExpired (moment : Time) (q : Tasks) : List ReclaimOutcome × Tasks :=
  let swept := (q.rows.filter (leaseExpired moment)).insertionSort
    fun a b => a.leaseUntil.getD 0 ≤ b.leaseUntil.getD 0
  (swept.map fun t =>
      ⟨t.id, t.status, (reclaimed moment t).status, t.attempts + 1, reclaimReason t⟩,
    q.update (leaseExpired moment) (reclaimed moment) (reclaimed_id moment))

/-- The `WHERE` of an operator action. -/
def actionable (taskId : Nat) (expected : List TaskStatus) (t : AgentTask) : Bool :=
  t.id == taskId && decide (t.status ∈ expected)

def setRetried (reason : String) (now : Time) (t : AgentTask) : AgentTask :=
  { t with
    status := .queued, attempts := 0, leasedBy := "", leaseUntil := none, scheduledAt := some now,
    finishedAt := none, resultRef := none, error := some s!"requeued: {reason}" }

def retry (taskId : Nat) (reason : String) (now : Time) (q : Tasks) : Bool × Tasks :=
  (q.rowcount (actionable taskId [.failed, .dead]),
    q.update (actionable taskId [.failed, .dead]) (setRetried reason now) fun _ => rfl)

def setCancelled (reason : String) (now : Time) (t : AgentTask) : AgentTask :=
  { t with
    status := .dead, leasedBy := "", leaseUntil := none, finishedAt := some now,
    error := some s!"cancelled: {reason}" }

def cancel (taskId : Nat) (reason : String) (now : Time) (q : Tasks) : Bool × Tasks :=
  (q.rowcount (actionable taskId [.queued, .leased, .running]),
    q.update (actionable taskId [.queued, .leased, .running]) (setCancelled reason now) fun _ => rfl)

/-! ## The queue as a machine -/

inductive Op
  | enqueue (args : EnqueueArgs)
  | claim (worker : String) (now leaseFor : Time) (scan : Nat)
  | markRunning (lease : Lease)
  | heartbeat (lease : Lease) (now leaseFor : Time)
  | succeed (lease : Lease) (resultRef : Option String) (now : Time)
  | fail (lease : Lease) (error : String) (now : Time)
  | reclaimExpired (moment : Time)
  | retry (taskId : Nat) (reason : String) (now : Time)
  | cancel (taskId : Nat) (reason : String) (now : Time)

/-- A call with the runner rows it meets. -/
structure Call where
  runners : RunnerTable
  op : Op

inductive Answer
  | enqueued (result : Except String Nat)
  | claimed (task : Option ClaimedTask)
  | flag (changed : Bool)
  | failed (outcome : FailOutcome)
  | reclaimed (report : List ReclaimOutcome)

/-- One atomic call. -/
def step (q : Tasks) (c : Call) : Answer × Tasks :=
  match c.op with
  | .enqueue a => (enqueue c.runners a q).map .enqueued id
  | .claim w now leaseFor scan => (claim c.runners w now leaseFor scan q).map .claimed id
  | .markRunning l => (markRunning l q).map .flag id
  | .heartbeat l now leaseFor => (heartbeat l now leaseFor q).map .flag id
  | .succeed l ref now => (succeed l ref now q).map .flag id
  | .fail l e now => (fail l e now q).map .failed id
  | .reclaimExpired m => (reclaimExpired m q).map .reclaimed id
  | .retry k r now => (retry k r now q).map .flag id
  | .cancel k r now => (cancel k r now q).map .flag id

/-- The queue: an empty table, then any calls. -/
def agentQueue : Machine Tasks Call Answer := ⟨Table.empty, step⟩

abbrev Event := Call × Answer

end OpenFish.Queue
