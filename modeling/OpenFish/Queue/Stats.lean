/-
`AgentQueue.stats`: its `ready` counts the due tasks of repositories that may run, and leaves out the ceiling that a claim
also asks for. The two agree unless every task it counts waits behind a full repository.
-/
import OpenFish.Queue.Ceiling

namespace OpenFish.Queue

open Lib

/-! ## The counts -/

/-- `TASK_STATUS`. -/
def taskStatus : List TaskStatus := [.queued, .leased, .running, .done, .failed, .dead]

structure QueueStats where
  byStatus : List (TaskStatus × Nat)
  ready : Nat
  expired : Nat
  deriving DecidableEq, Repr

/-- The `WHERE` of the count of `ready`. -/
def ready (runners : RunnerTable) (moment : Time) (t : AgentTask) : Bool :=
  t.status == .queued && t.scheduledAt.all (· ≤ moment) && runnerRunnable runners t.repoId

/-- `AgentQueue.stats`. -/
def stats (runners : RunnerTable) (moment : Time) (q : Tasks) : QueueStats where
  byStatus := taskStatus.map fun status => (status, q.rows.countP (·.status == status))
  ready := q.rows.countP (ready runners moment)
  expired := q.rows.countP (leaseExpired moment)

/-! ## What a claim would return -/

/-- `ready` is positive exactly when a claim would return a task. -/
def ReadyAgrees (runners : RunnerTable) (now : Time) (q : Tasks) : Prop :=
  ∀ worker leaseFor scan,
    0 < (stats runners now q).ready ↔ (claim runners worker now leaseFor scan q).1.isSome = true

/-- Where a task is ready, one is of a repository that is below its ceiling. -/
def SomeBelowCeiling (runners : RunnerTable) (now : Time) (q : Tasks) : Prop :=
  ∀ t ∈ q.rows, ready runners now t = true →
    ∃ t' ∈ q.rows, ready runners now t' = true ∧ runnerCeilingAvailable runners q t'.repoId = true

theorem claimable_eq (runners : RunnerTable) (now : Time) (q : Tasks) (t : AgentTask) :
    claimable runners now q t = (ready runners now t && runnerCeilingAvailable runners q t.repoId) := rfl

theorem ready_pos {runners : RunnerTable} {now : Time} {q : Tasks} :
    0 < (stats runners now q).ready ↔ ∃ t ∈ q.rows, ready runners now t = true :=
  List.countP_pos_iff

theorem bestTask_isSome {runners : RunnerTable} {now : Time} (scan : Nat) {q : Tasks} :
    (bestTask runners now scan q).isSome = true ↔ ∃ t ∈ q.rows, claimable runners now q t = true := by
  constructor
  · intro h
    obtain ⟨t, ht⟩ := Option.isSome_iff_exists.1 h
    exact ⟨t, candidate_iff.1 (bestTask_some ht).1⟩
  · rintro ⟨t, ht⟩
    cases hbest : bestTask runners now scan q with
    | none => exact absurd (candidate_iff.2 ht) (bestTask_none.1 hbest t)
    | some best => rfl

theorem claim_isSome {runners : RunnerTable} {worker : String} {now leaseFor : Time} {scan : Nat} {q : Tasks} :
    (claim runners worker now leaseFor scan q).1.isSome = true ↔ ∃ t ∈ q.rows, claimable runners now q t = true := by
  rw [← bestTask_isSome scan]
  unfold claim
  cases bestTask runners now scan q <;> rfl

/-- In every queue and at every moment `ready` is positive exactly when a claim would return a task, if and only if
one of the ready tasks is of a repository below its ceiling, or none is ready. -/
theorem readyAgrees_iff_someBelowCeiling (runners : RunnerTable) (now : Time) (q : Tasks) :
    ReadyAgrees runners now q ↔ SomeBelowCeiling runners now q := by
  constructor
  · intro h t ht hready
    have hclaim := (h "" 0 0).1 (ready_pos.2 ⟨t, ht, hready⟩)
    obtain ⟨t', ht', hclaimable⟩ := claim_isSome.1 hclaim
    rw [claimable_eq, Bool.and_eq_true] at hclaimable
    exact ⟨t', ht', hclaimable⟩
  · intro h worker leaseFor scan
    rw [ready_pos, claim_isSome]
    constructor
    · rintro ⟨t, ht, hready⟩
      obtain ⟨t', ht', hready', hbelow⟩ := h t ht hready
      exact ⟨t', ht', by rw [claimable_eq, hready', hbelow]; rfl⟩
    · rintro ⟨t, ht, hclaimable⟩
      rw [claimable_eq, Bool.and_eq_true] at hclaimable
      exact ⟨t, ht, hclaimable.1⟩

/-! ## A full repository -/

/-- A runner of one slot. -/
def oneSlot : RunnerTable := ⟨[⟨1, 7, true, 1⟩], by decide⟩

/-- Two tasks of its repository, of which one is claimed. -/
def slotTaken : Tasks :=
  agentQueue.state
    [⟨oneSlot, .claim "w" 20 60 0⟩, ⟨oneSlot, .enqueue { repoId := 7, now := 10, createdAt := 10, maxInFlightPerRepo := some 0 }⟩,
      ⟨oneSlot, .enqueue { repoId := 7, now := 0, createdAt := 0 }⟩]

/-- One task is ready, and no claim returns it. -/
theorem slotTaken_not_readyAgrees : ¬ ReadyAgrees oneSlot 30 slotTaken := by
  intro h
  have hready : 0 < (stats oneSlot 30 slotTaken).ready := by decide +kernel
  have hnone : (claim oneSlot "w" 30 60 0 slotTaken).1.isSome = false := by decide +kernel
  rw [(h "w" 60 0).1 hready] at hnone
  cases hnone

end OpenFish.Queue
