/-
Lease fencing: a `mark_running`, `heartbeat`, `succeed` or `fail` goes through exactly for the
worker name the task's live lease was issued to. A lease is matched by task and worker name only, so
a lost lease is refused unless its task is held again under the same name.
-/
import OpenFish.Queue.History

namespace OpenFish.Queue

open Lib

/-! ## What the claim is about -/

/-- The lease a call presents, and the statuses its write accepts. -/
def Op.presents : Op → Option (Lease × List TaskStatus)
  | .markRunning l => some (l, [.leased])
  | .heartbeat l .. => some (l, [.leased, .running])
  | .succeed l .. => some (l, [.leased, .running])
  | .fail l .. => some (l, [.leased, .running])
  | _ => none

/-- `False`, or `"lost"`. -/
def Answer.reportsLoss : Answer → Bool
  | .flag changed => !changed
  | .failed outcome => outcome == .lost
  | _ => false

/-- A call that presents a lease presents the one most recently issued for its task and not ended
since, or reports the loss and leaves the table as it was. -/
def Fenced (h : List Event) (q : Tasks) (c : Call) : Prop :=
  ∀ l expected, c.op.presents = some (l, expected) →
    currentLease h l.taskId = some l ∨ ((step q c).1.reportsLoss = true ∧ (step q c).2 = q)

/-- A call does not present a lease of a task that its worker name holds under another lease, in a
status the call accepts. -/
def NoNamesake (h : List Event) (q : Tasks) (c : Call) : Prop :=
  ∀ l expected, c.op.presents = some (l, expected) →
    ∀ l', currentLease h l.taskId = some l' → l'.worker = l.worker →
      (∃ t, q.get? l.taskId = some t ∧ t.status ∈ expected) → l' = l

/-! ## The live lease and the row -/

/-- The worker name a row is held under. -/
def holder : Option AgentTask → Option String
  | some t => if t.status ∈ runningTaskStatuses then some t.leasedBy else none
  | none => none

theorem holder_eq_some {o : Option AgentTask} {w : String} :
    holder o = some w ↔ ∃ t, o = some t ∧ t.status ∈ runningTaskStatuses ∧ t.leasedBy = w := by
  cases o with
  | none => simp [holder]
  | some t => simp only [holder, Option.ite_none_right_eq_some, Option.some.injEq, exists_eq_left']

/-- The live lease and the holder change together. -/
theorem Moved.holder {e : Option Effect} {o o' : Option AgentTask} (h : Moved e o o') (live : Option Lease)
    (hl : live.map (·.worker) = Queue.holder o) : (leaseAfter e live).map (·.worker) = Queue.holder o' := by
  cases h with
  | absent => exact hl
  | created hf => simp [Queue.holder, hf.status, runningTaskStatuses, leaseAfter]
  | @touched _ r r' ht =>
    cases ht with
    | same => exact hl
    | started hs =>
      have : Queue.holder (some (setStatus .running none r)) = Queue.holder (some r) := by
        simp [Queue.holder, hs, setStatus, runningTaskStatuses]
      rw [this]; exact hl
    | beat => exact hl
    | leased => rfl
    | finished | requeued | buried | retried | cancelled => rfl

theorem Moved.issued_task {l : Lease} {o o' : Option AgentTask} (h : Moved (some (.issued l)) o o') :
    ∃ t, o = some t ∧ l.taskId = t.id := by
  cases h with
  | @touched _ r r' ht => cases ht with
    | leased _ now hs hid => exact ⟨r, rfl, hid⟩

/-- The live lease of every task is a lease of that task, held under its worker name by a leased or
running row; a task without a live lease is not held. -/
structure LeaseInv (h : List Event) (q : Tasks) : Prop where
  task : ∀ k l, currentLease h k = some l → l.taskId = k
  worker : ∀ k, (currentLease h k).map (·.worker) = holder (q.get? k)

theorem leaseInv_step (h : List Event) (q : Tasks) (c : Call) (hi : LeaseInv h q) :
    LeaseInv ((c, (step q c).1) :: h) (step q c).2 := by
  refine ⟨fun k l hl => ?_, fun k => (step_moved q c k).holder _ (hi.worker k)⟩
  have hm := step_moved q c k
  rw [currentLease] at hl
  cases he : effect (c, (step q c).1) k with
  | none => rw [he] at hl; exact hi.task k l hl
  | some eff =>
    rw [he] at hl hm
    cases eff with
    | issued l' =>
      cases hl
      obtain ⟨t, ht, hid⟩ := hm.issued_task
      exact hid.trans (Table.get?_eq_some.1 ht).2
    | created | ended | retried | cancelled => cases hl

theorem leaseInv (cs : List Call) : LeaseInv (agentQueue.log cs) (agentQueue.state cs) :=
  Machine.invariant (M := agentQueue) ⟨fun _ _ h => (by cases h), fun _ => rfl⟩ leaseInv_step cs

/-! ## When a write goes through -/

theorem presents_running {op : Op} {l : Lease} {expected : List TaskStatus}
    (hp : op.presents = some (l, expected)) : ∀ s ∈ expected, s ∈ runningTaskStatuses := by
  unfold Op.presents at hp
  split at hp <;> cases hp <;> simp [runningTaskStatuses]

/-- A write reports the loss exactly when no row meets its `WHERE`. -/
theorem step_reportsLoss {q : Tasks} {c : Call} {l : Lease} {expected : List TaskStatus}
    (hp : c.op.presents = some (l, expected)) :
    (step q c).1.reportsLoss = !q.rowcount (holds l expected) := by
  obtain ⟨runners, op⟩ := c
  cases op with
  | markRunning | heartbeat | succeed => cases hp; rfl
  | fail _ e now =>
    cases hp
    show ((fail l e now q).1 == .lost) = _
    cases hf : q.rows.find? (holds l [.leased, .running]) with
    | none =>
      have hr : q.rowcount (holds l [.leased, .running]) = false :=
        List.any_eq_false.2 fun t ht => List.find?_eq_none.1 hf t ht
      rw [hr]; simp only [fail, failSelect, hf]; rfl
    | some t =>
      have hr : q.rowcount (holds l [.leased, .running]) = true :=
        Table.rowcount_iff.2 ⟨t, List.mem_of_find?_eq_some hf, List.find?_some hf⟩
      rw [hr]; simp only [fail, failSelect, hf]
      cases failed e now t with
      | none => rfl
      | some w => simp only [FailWrite.outcome]; split <;> rfl
  | enqueue | claim | reclaimExpired | retry | cancel => cases hp

/-- A write whose `WHERE` no row meets leaves the table as it was. -/
theorem step_unchanged {q : Tasks} {c : Call} {l : Lease} {expected : List TaskStatus}
    (hp : c.op.presents = some (l, expected)) (hno : q.rowcount (holds l expected) = false) : (step q c).2 = q := by
  obtain ⟨runners, op⟩ := c
  cases op with
  | markRunning => cases hp; exact Table.update_of_rowcount (f := setStatus _ _) (fun _ => rfl) hno
  | heartbeat => cases hp; exact Table.update_of_rowcount (f := setLeaseUntil _) (fun _ => rfl) hno
  | succeed => cases hp; exact Table.update_of_rowcount (f := setFinished _ _ _ _) (fun _ => rfl) hno
  | fail _ e now =>
    cases hp
    have hf : q.rows.find? (holds l [.leased, .running]) = none :=
      List.find?_eq_none.2 fun t ht => List.any_eq_false.1 hno t ht
    show (fail l e now q).2 = q
    simp only [fail, failSelect, hf]
  | enqueue | claim | reclaimExpired | retry | cancel => cases hp

/-- The `WHERE` of a write is met exactly when the live lease was issued to the presented worker name
and the row is in an accepted status. -/
theorem rowcount_holds_iff {h : List Event} {q : Tasks} (hi : LeaseInv h q) {op : Op} {l : Lease}
    {expected : List TaskStatus} (hp : op.presents = some (l, expected)) :
    q.rowcount (holds l expected) = true ↔
      ∃ l', currentLease h l.taskId = some l' ∧ l'.worker = l.worker ∧
        ∃ t, q.get? l.taskId = some t ∧ t.status ∈ expected := by
  constructor
  · intro hr
    obtain ⟨t, ht, hh⟩ := Table.rowcount_iff.1 hr
    obtain ⟨hid, hw, hs⟩ := holds_iff.1 hh
    have hg : q.get? l.taskId = some t := Table.get?_eq_some.2 ⟨ht, hid⟩
    have hwk := hi.worker l.taskId
    rw [holder_eq_some.2 ⟨t, hg, presents_running hp _ hs, hw⟩] at hwk
    obtain ⟨l', hl', hlw⟩ := Option.map_eq_some_iff.1 hwk
    exact ⟨l', hl', hlw, t, hg, hs⟩
  · rintro ⟨l', hl', hlw, t, hg, hs⟩
    have hwk := hi.worker l.taskId
    rw [hl'] at hwk
    obtain ⟨t', hg', -, hw⟩ := holder_eq_some.1 hwk.symm
    rw [hg] at hg'; cases hg'
    obtain ⟨ht, hid⟩ := Table.get?_eq_some.1 hg
    exact Table.rowcount_iff.2 ⟨t, ht, holds_iff.2 ⟨hid, hw.trans hlw, hs⟩⟩

/-- At a reachable state a call is fenced exactly when it presents no namesake of the live lease. -/
theorem fenced_iff {h : List Event} {q : Tasks} (hi : LeaseInv h q) (c : Call) :
    Fenced h q c ↔ NoNamesake h q c := by
  constructor
  · intro hf l expected hp l' hl' hw hs
    rcases hf l expected hp with hcur | ⟨hloss, -⟩
    · rw [hcur] at hl'; cases hl'; rfl
    · have hyes := (rowcount_holds_iff hi hp).2 ⟨l', hl', hw, hs⟩
      rw [step_reportsLoss hp, hyes] at hloss; cases hloss
  · intro hn l expected hp
    cases hr : q.rowcount (holds l expected) with
    | false => exact .inr ⟨by rw [step_reportsLoss hp, hr]; rfl, step_unchanged hp hr⟩
    | true =>
      obtain ⟨l', hl', hw, hs⟩ := (rowcount_holds_iff hi hp).1 hr
      rw [hn l expected hp l' hl' hw hs] at hl'
      exact .inl hl'

/-! ## Every run -/

/-- Lease fencing: in a run of any calls, every call that presents a lease is fenced if and only if
no call presents a lease of a task that its worker name holds under another lease. -/
theorem fencing_iff_noNamesake (cs : List Call) :
    agentQueue.AllSteps Fenced cs ↔ agentQueue.AllSteps NoNamesake cs :=
  Machine.allSteps_congr (fun cs c => fenced_iff (leaseInv cs) c) cs

/-- One worker name claims a task, loses it to the reclaim, claims it again, and reports success on
the first lease (read from the last call to the first). -/
def staleAck : List Call :=
  [ ⟨noRunners, .succeed ⟨1, "w", 60, 0⟩ none 300⟩, ⟨noRunners, .claim "w" 200 60 0⟩,
    ⟨noRunners, .reclaimExpired 100⟩, ⟨noRunners, .claim "w" 0 60 0⟩,
    ⟨noRunners, .enqueue { repoId := 1, now := 0, createdAt := 0 }⟩ ]

/-- The lost lease of `staleAck` is accepted: the task is `done` on it. -/
theorem staleAck_not_fenced : ¬ agentQueue.AllSteps Fenced staleAck := by
  intro h
  rcases h.1 ⟨1, "w", 60, 0⟩ runningTaskStatuses rfl with hc | ⟨hl, -⟩
  · exact absurd hc (by decide)
  · exact absurd hl (by decide)

end OpenFish.Queue
