/-
The row invariant and the delivery bound: in every state reached with named workers, the lease
columns agree with the status, a pending task has an attempt left, and no task was handed out more
often than its attempts allow since it was enqueued or last retried.
-/
import OpenFish.Queue.History

namespace OpenFish.Queue

open Lib

/-- A row as every reader relies on it, `n` being how often it was handed out. -/
structure RowOk (n : Nat) (t : AgentTask) : Prop where
  leasedBy : t.leasedBy ≠ "" ↔ t.leaseUntil.isSome = true
  leaseUntil : t.leaseUntil.isSome = true ↔ t.status ∈ [TaskStatus.leased, .running]
  attempts : t.attempts ≤ t.maxAttempts
  pending : t.status ∈ activeTaskStatuses → t.attempts < t.maxAttempts
  delivered : n ≤ t.maxAttempts

/-- Every row of a table reached by a history is as its readers rely on it. -/
def RowsOk (h : List Event) (q : Tasks) : Prop := ∀ t ∈ q.rows, RowOk (handedOut h t.id) t

/-- A call by a named worker. -/
def Op.Named : Op → Prop
  | .claim worker .. => worker ≠ ""
  | _ => True

/-! ## The invariant -/

/-- The deliveries of a task are its failed attempts, one more while a worker holds it, and never
above the maximum once it has come to rest. -/
def Counted (n : Nat) (t : AgentTask) : Prop :=
  match t.status with
  | .queued => n = t.attempts ∧ t.attempts < t.maxAttempts
  | .leased => n = t.attempts + 1 ∧ t.attempts < t.maxAttempts
  | .running => n = t.attempts + 1 ∧ t.attempts < t.maxAttempts
  | _ => n ≤ t.maxAttempts ∧ t.attempts ≤ t.maxAttempts

/-- The lease columns are set exactly while a worker holds the task. -/
def LeaseColumns (t : AgentTask) : Prop :=
  if t.status ∈ runningTaskStatuses then t.leasedBy ≠ "" ∧ t.leaseUntil.isSome = true
  else t.leasedBy = "" ∧ t.leaseUntil = none

theorem counted_running {n : Nat} {t : AgentTask} (h : Counted n t) (hs : t.status ∈ runningTaskStatuses) :
    n = t.attempts + 1 ∧ t.attempts < t.maxAttempts := by
  unfold Counted at h
  simp only [runningTaskStatuses, List.mem_cons, List.not_mem_nil, or_false] at hs
  rcases hs with hs | hs <;> rw [hs] at h <;> exact h

theorem counted_active {n : Nat} {t : AgentTask} (h : Counted n t) (hs : t.status ∈ activeTaskStatuses) :
    n ≤ t.maxAttempts ∧ t.attempts < t.maxAttempts := by
  unfold Counted at h
  simp only [activeTaskStatuses, List.mem_cons, List.not_mem_nil, or_false] at hs
  rcases hs with hs | hs | hs <;> rw [hs] at h <;> dsimp only at h <;> omega

/-- Every move of a row keeps the count. -/
theorem Touched.counted {r r' : AgentTask} {e : Option Effect} {n : Nat} (h : Touched r e r') (hc : Counted n r)
    (hpos : 0 < r.maxAttempts) : Counted (handedAfter e n) r' := by
  cases h with
  | same => exact hc
  | started hs =>
    have := counted_running hc (by rw [hs]; decide)
    exact this
  | beat => exact hc
  | leased l now hs =>
    unfold Counted at hc
    rw [hs] at hc
    obtain ⟨rfl, hlt⟩ := hc
    exact ⟨rfl, hlt⟩
  | finished ref now hs =>
    obtain ⟨rfl, hlt⟩ := counted_running hc hs
    exact ⟨hlt, Nat.le_of_lt hlt⟩
  | requeued error at_ fin hs hlt =>
    obtain ⟨rfl, -⟩ := counted_running hc hs
    exact ⟨rfl, hlt⟩
  | buried error sch now hs hle =>
    obtain ⟨rfl, hlt⟩ := counted_running hc hs
    exact ⟨hlt, hlt⟩
  -- attempts and count start again
  | retried reason now hs => exact ⟨rfl, hpos⟩
  | cancelled reason now hs =>
    obtain ⟨hn, hlt⟩ := counted_active hc hs
    exact ⟨hn, Nat.le_of_lt hlt⟩

theorem leaseColumns_running {t : AgentTask} (hs : t.status ∈ runningTaskStatuses) :
    LeaseColumns t ↔ t.leasedBy ≠ "" ∧ t.leaseUntil.isSome = true := by
  unfold LeaseColumns; rw [if_pos hs]

theorem leaseColumns_idle {t : AgentTask} (hs : t.status ∉ runningTaskStatuses) :
    LeaseColumns t ↔ t.leasedBy = "" ∧ t.leaseUntil = none := by
  unfold LeaseColumns; rw [if_neg hs]

/-- Every move of a row by a named worker keeps the lease columns. -/
theorem Touched.leaseColumns {r r' : AgentTask} {e : Option Effect} (h : Touched r e r') (hc : LeaseColumns r)
    (hn : ∀ l, e = some (.issued l) → l.worker ≠ "") : LeaseColumns r' := by
  cases h with
  | same => exact hc
  | started hs =>
    have hr : r.status ∈ runningTaskStatuses := by rw [hs]; decide
    exact (leaseColumns_running (by simp [setStatus, runningTaskStatuses])).2 ((leaseColumns_running hr).1 hc)
  | beat expires hs =>
    exact (leaseColumns_running (t := setLeaseUntil expires r) hs).2 ⟨((leaseColumns_running hs).1 hc).1, rfl⟩
  | leased l now => exact (leaseColumns_running (by simp [setLeased, runningTaskStatuses])).2 ⟨hn l rfl, rfl⟩
  | finished | requeued | buried | retried | cancelled =>
    exact (leaseColumns_idle (by simp [setFinished, setRetried, setCancelled, runningTaskStatuses])).2 ⟨rfl, rfl⟩

/-- What is kept of every row, `n` being how often it was handed out. -/
structure RowInv (n : Nat) (t : AgentTask) : Prop where
  positive : 0 < t.maxAttempts
  counted : Counted n t
  columns : LeaseColumns t

theorem RowInv.rowOk {n : Nat} {t : AgentTask} (h : RowInv n t) : RowOk n t := by
  have hcols := h.columns
  have hcount := h.counted
  by_cases hs : t.status ∈ runningTaskStatuses
  · obtain ⟨hby, huntil⟩ := (leaseColumns_running hs).1 hcols
    obtain ⟨hn, hlt⟩ := counted_running hcount hs
    exact ⟨iff_of_true hby huntil, iff_of_true huntil hs, Nat.le_of_lt hlt, fun _ => hlt, by omega⟩
  · obtain ⟨hby, huntil⟩ := (leaseColumns_idle hs).1 hcols
    have hnone : ¬ t.leaseUntil.isSome = true := by simp [huntil]
    have hle : n ≤ t.maxAttempts ∧ t.attempts ≤ t.maxAttempts := by
      unfold Counted at hcount
      split at hcount <;> omega
    exact ⟨iff_of_false (fun hne => hne hby) hnone, iff_of_false hnone hs, hle.2,
      fun ha => (counted_active hcount ha).2, hle.1⟩

/-! ## Every run -/

/-- A lease is issued under the worker name that claimed. -/
theorem issued_worker {q : Tasks} {c : Call} {k : Nat} {l : Lease}
    (h : effect (c, (step q c).1) k = some (.issued l)) (hn : c.op.Named) : l.worker ≠ "" := by
  obtain ⟨w, now, leaseFor, scan, task, hop, -, -, rfl⟩ := issued_elim h
  rw [hop] at hn; exact hn

theorem rowInv_step (h : List Event) (q : Tasks) (c : Call)
    (hi : ∀ k t, q.get? k = some t → RowInv (handedOut h k) t) (hn : c.op.Named) (k : Nat) (t : AgentTask)
    (ht : (step q c).2.get? k = some t) : RowInv (handedOut ((c, (step q c).1) :: h) k) t := by
  have hm := step_moved q c k
  rw [ht] at hm
  rw [handedOut]
  generalize he : effect (c, (step q c).1) k = e at hm
  generalize ho : q.get? k = o at hm
  cases hm with
  | created hf =>
    refine ⟨hf.maxAttempts, ?_, ?_⟩
    · unfold Counted; rw [hf.status]; exact ⟨hf.attempts.symm, hf.attempts ▸ hf.maxAttempts⟩
    · exact (leaseColumns_idle (by rw [hf.status]; decide)).2 ⟨hf.leasedBy, hf.leaseUntil⟩
  | @touched _ r _ htr =>
    have hr := hi k r ho
    refine ⟨htr.sameTask.maxAttempts ▸ hr.positive, htr.counted hr.counted hr.positive,
      htr.leaseColumns hr.columns fun l hl => issued_worker (he.trans hl) hn⟩

/-- The row invariant and the delivery bound: after any calls by named workers, in any order and at any
times, every row is as its readers rely on it, the deliveries counted since it was enqueued or last
successfully retried. -/
theorem rows_ok (cs : List Call) (hn : ∀ c ∈ cs, c.op.Named) :
    RowsOk (agentQueue.log cs) (agentQueue.state cs) := by
  have hinv := (Machine.AllSteps.of_forall (M := agentQueue) hn).invariant
    (P := fun h q => ∀ k t, Table.get? q k = some t → RowInv (handedOut h k) t)
    (fun _ _ h => by cases h) (fun h q c hi hc => rowInv_step h q c hi hc)
  exact fun t ht => (hinv t.id t (get?_of_row ht)).rowOk

/-- A task claimed twice within its three attempts (read from the last call to the first). -/
def twoClaims : List Call :=
  [ ⟨noRunners, .claim "b" 200 60 0⟩, ⟨noRunners, .reclaimExpired 100⟩, ⟨noRunners, .claim "a" 0 60 0⟩,
    ⟨noRunners, .enqueue { repoId := 1, now := 0, createdAt := 0 }⟩ ]

theorem rows_ok_two_claims : RowsOk (agentQueue.log twoClaims) (agentQueue.state twoClaims) :=
  rows_ok twoClaims (by
    intro c hc
    simp only [twoClaims, List.mem_cons, List.not_mem_nil, or_false] at hc
    rcases hc with rfl | rfl | rfl | rfl <;> simp [Op.Named])

end OpenFish.Queue
