/-
What one call does to one row, and what a history says about it.

`effect` reads the fate of a task off a call and its answer; `Moved` lists the ways a row may change
under each effect; `step_moved` says a call moves every row in one of these ways. Every invariant of
the queue is derived from `step_moved` alone.
-/
import OpenFish.Queue.Model

namespace OpenFish.Queue

open Lib

/-! ## Effects -/

/-- What a call and its answer say about one task. -/
inductive Effect
  | created
  | issued (lease : Lease)
  | ended
  | retried
  | cancelled
  deriving DecidableEq, Repr

/-- The effect of an answered call on task `k`: only answers that report a change count. -/
def effect (e : Event) (k : Nat) : Option Effect :=
  match e.1.op, e.2 with
  | .enqueue _, .enqueued (.ok id) => if 0 < id ∧ id = k then some .created else none
  | .claim .., .claimed (some task) => if task.id = k then some (.issued task.lease) else none
  | .succeed l .., .flag true => if l.taskId = k then some .ended else none
  | .fail l .., .failed .queued => if l.taskId = k then some .ended else none
  | .fail l .., .failed .dead => if l.taskId = k then some .ended else none
  | .reclaimExpired _, .reclaimed report => if report.any (·.taskId == k) then some .ended else none
  | .retry id .., .flag true => if id = k then some .retried else none
  | .cancel id .., .flag true => if id = k then some .cancelled else none
  | _, _ => none

/-- The live lease of a task after an effect. -/
def leaseAfter : Option Effect → Option Lease → Option Lease
  | none, live => live
  | some (.issued l), _ => some l
  | some _, _ => none

/-- The lease most recently issued for a task, unless something has ended it since. -/
def currentLease : List Event → Nat → Option Lease
  | [], _ => none
  | e :: h, k => leaseAfter (effect e k) (currentLease h k)

/-- The number of deliveries counted after an effect. -/
def handedAfter : Option Effect → Nat → Nat
  | some (.issued _), n => n + 1
  | some .created, _ => 0
  | some .retried, _ => 0
  | _, n => n

/-- How often a task was handed out since it was enqueued or last successfully retried. -/
def handedOut : List Event → Nat → Nat
  | [], _ => 0
  | e :: h, k => handedAfter (effect e k) (handedOut h k)

/-! ## The moves of one row -/

/-- The ways a call changes the row `r`. -/
inductive Touched (r : AgentTask) : Option Effect → AgentTask → Prop
  | same : Touched r none r
  | started : r.status = .leased → Touched r none (setStatus .running none r)
  | beat (expires : Time) : r.status ∈ runningTaskStatuses → Touched r none (setLeaseUntil expires r)
  | leased (l : Lease) (now : Time) : r.status = .queued → l.taskId = r.id →
      Touched r (some (.issued l)) (setLeased l.worker l.expiresAt now r)
  | finished (ref : Option String) (now : Time) : r.status ∈ runningTaskStatuses →
      Touched r (some .ended) (setFinished .done ref none now r)
  | requeued (error : String) (at_ : Time) (finishedAt : Option Time) :
      r.status ∈ runningTaskStatuses → r.attempts + 1 < r.maxAttempts →
      Touched r (some .ended)
        { r with status := .queued, attempts := r.attempts + 1, error := some error, leasedBy := "",
                 leaseUntil := none, scheduledAt := some at_, finishedAt := finishedAt }
  | buried (error : String) (scheduledAt : Option Time) (now : Time) :
      r.status ∈ runningTaskStatuses → r.maxAttempts ≤ r.attempts + 1 →
      Touched r (some .ended)
        { r with status := .dead, attempts := r.attempts + 1, error := some error, leasedBy := "",
                 leaseUntil := none, scheduledAt := scheduledAt, finishedAt := some now }
  | retried (reason : String) (now : Time) : r.status ∈ [TaskStatus.failed, .dead] →
      Touched r (some .retried) (setRetried reason now r)
  | cancelled (reason : String) (now : Time) : r.status ∈ activeTaskStatuses →
      Touched r (some .cancelled) (setCancelled reason now r)

/-- A row as `enqueue` inserts it. -/
structure Fresh (r : AgentTask) : Prop where
  status : r.status = .queued
  leasedBy : r.leasedBy = ""
  leaseUntil : r.leaseUntil = none
  attempts : r.attempts = 0
  maxAttempts : 0 < r.maxAttempts

/-- The ways a call changes the row of one key. -/
inductive Moved : Option Effect → Option AgentTask → Option AgentTask → Prop
  | absent : Moved none none none
  | created {r : AgentTask} : Fresh r → Moved (some .created) none (some r)
  | touched {e : Option Effect} {r r' : AgentTask} : Touched r e r' → Moved e (some r) (some r')

theorem Moved.refl : ∀ o : Option AgentTask, Moved none o o
  | none => .absent
  | some _ => .touched .same

/-- The columns no method writes after the insert. -/
structure SameTask (r r' : AgentTask) : Prop where
  id : r'.id = r.id
  repoId : r'.repoId = r.repoId
  kind : r'.kind = r.kind
  maxAttempts : r'.maxAttempts = r.maxAttempts
  dedupKey : r'.dedupKey = r.dedupKey
  priority : r'.priority = r.priority
  createdAt : r'.createdAt = r.createdAt

theorem Touched.sameTask {e : Option Effect} {r r' : AgentTask} (h : Touched r e r') : SameTask r r' := by
  cases h <;> exact ⟨rfl, rfl, rfl, rfl, rfl, rfl, rfl⟩

theorem get?_of_row {q : Tasks} {t : AgentTask} (h : t ∈ q.rows) : q.get? t.id = some t := Table.get?_of_mem h

/-! ## Guarded updates of one key -/

/-- A guarded `UPDATE` of the row of key `id` moves the rows as its matching row is touched. -/
theorem moved_update {q : Tasks} {p : AgentTask → Bool} {f : AgentTask → AgentTask} (hf : ∀ r, key (f r) = key r)
    (id k : Nat) (eff : Effect) (hp : ∀ r, p r = true → r.id = id)
    (ht : ∀ r ∈ q.rows, p r = true → Touched r (some eff) (f r)) :
    Moved (if q.rowcount p = true ∧ id = k then some eff else none) (q.get? k) ((q.update p f hf).get? k) := by
  rw [Table.get?_update]
  cases hg : q.get? k with
  | none =>
    have hno : ¬ (q.rowcount p = true ∧ id = k) := by
      rintro ⟨hc, rfl⟩
      obtain ⟨r, hr, hpr⟩ := Table.rowcount_iff.1 hc
      exact Table.get?_eq_none.1 hg r hr (hp r hpr)
    rw [if_neg hno]; exact .absent
  | some r =>
    obtain ⟨hr, rfl⟩ := Table.get?_eq_some.1 hg
    simp only [Option.map_some]
    by_cases hpr : p r = true
    · rw [if_pos hpr, if_pos ⟨Table.rowcount_iff.2 ⟨r, hr, hpr⟩, (hp r hpr).symm⟩]
      exact .touched (ht r hr hpr)
    · -- the row of this key would have to be the matching one
      have hno : ¬ (q.rowcount p = true ∧ id = key r) := by
        rintro ⟨hc, hid⟩
        obtain ⟨r', hr', hpr'⟩ := Table.rowcount_iff.1 hc
        rw [Table.eq_of_key hr' hr ((hp r' hpr').trans hid)] at hpr'
        exact hpr hpr'
      rw [if_neg hpr, if_neg hno]; exact .touched .same

/-- An `UPDATE` without an effect (`mark_running`, `heartbeat`) moves the rows as they are touched. -/
theorem moved_update_none {q : Tasks} {p : AgentTask → Bool} {f : AgentTask → AgentTask}
    (hf : ∀ r, key (f r) = key r) (k : Nat) (ht : ∀ r, p r = true → Touched r none (f r)) :
    Moved none (q.get? k) ((q.update p f hf).get? k) := by
  rw [Table.get?_update]
  cases q.get? k with
  | none => exact .absent
  | some r =>
    simp only [Option.map_some]
    by_cases hpr : p r = true
    · rw [if_pos hpr]; exact .touched (ht r hpr)
    · rw [if_neg hpr]; exact .touched .same

theorem holds_iff {l : Lease} {expected : List TaskStatus} {t : AgentTask} :
    holds l expected t = true ↔ t.id = l.taskId ∧ t.leasedBy = l.worker ∧ t.status ∈ expected := by
  simp [holds, and_assoc]

theorem actionable_iff {id : Nat} {expected : List TaskStatus} {t : AgentTask} :
    actionable id expected t = true ↔ t.id = id ∧ t.status ∈ expected := by
  simp [actionable]

theorem leaseExpired_iff {m : Time} {t : AgentTask} :
    leaseExpired m t = true ↔ t.status ∈ runningTaskStatuses ∧ ∃ u, t.leaseUntil = some u ∧ u < m := by
  simp [leaseExpired, runningTaskStatuses, Option.any_eq_true]

/-! ## One call -/

/-- `enqueue` inserts a task of this kind: the kind is known, an attempt is allowed, and neither a pending duplicate nor
the ceiling of the repository suppresses it. -/
structure Admits (runners : RunnerTable) (a : EnqueueArgs) (q : Tasks) (kind : TaskKind) : Prop where
  known : TaskKind.ofString? a.kind = some kind
  attempts : 1 ≤ a.maxAttempts
  fresh : Text.strip (a.dedupKey.getD "") ≠ "" →
    q.rows.any (isDuplicate a.repoId kind (Text.strip (a.dedupKey.getD ""))) = false
  below : 0 < enqueueCeiling runners a →
    (q.rows.countP fun t => t.repoId == a.repoId && decide (t.status ∈ activeTaskStatuses) : Int) < enqueueCeiling runners a

/-- The row that `enqueue` inserts then. -/
def admitted (runners : RunnerTable) (a : EnqueueArgs) (kind : TaskKind) (id : Nat) : AgentTask :=
  newTask runners a kind (Text.strip (a.dedupKey.getD "")) id

theorem key_admitted (runners : RunnerTable) (a : EnqueueArgs) (kind : TaskKind) (id : Nat) :
    key (admitted runners a kind id) = id := rfl

/-- `enqueue` inserts an admitted task, and changes nothing else ever. -/
theorem enqueue_spec (runners : RunnerTable) (a : EnqueueArgs) (q : Tasks) :
    ((∀ kind, ¬ Admits runners a q kind) ∧ (∀ id, (enqueue runners a q).1 = .ok id → id = 0) ∧
        (enqueue runners a q).2 = q) ∨
      ∃ kind, Admits runners a q kind ∧
        enqueue runners a q = (.ok q.next, q.insert (admitted runners a kind) (key_admitted runners a kind)) := by
  have hzero : ∀ id, (.ok 0 : Except String Nat) = .ok id → id = 0 := fun id h => by cases h; rfl
  unfold enqueue
  split
  · rename_i hkind
    refine .inl ⟨fun kind h => ?_, fun _ h => (by cases h), rfl⟩
    rw [h.known] at hkind
    cases hkind
  · rename_i kind hkind
    have hsame {kind' : TaskKind} (h : Admits runners a q kind') : kind' = kind := by
      have := h.known
      rw [hkind] at this
      cases this; rfl
    by_cases hmax : a.maxAttempts < 1
    · rw [if_pos hmax]
      exact .inl ⟨fun _ h => (by have := h.attempts; omega), fun _ h => (by cases h), rfl⟩
    · rw [if_neg hmax]
      dsimp only
      split
      · rename_i hdup
        refine .inl ⟨fun kind' h => ?_, hzero, rfl⟩
        rw [hsame h] at h
        rw [h.fresh hdup.1] at hdup
        exact Bool.false_ne_true hdup.2
      · rename_i hdup
        split
        · rename_i hceiling
          exact .inl ⟨fun _ h => (by have := h.below hceiling.1; omega), hzero, rfl⟩
        · rename_i hceiling
          refine .inr ⟨kind, ⟨hkind, by omega, fun hne => ?_, fun hpos => ?_⟩, rfl⟩
          · simpa using fun hany => hdup ⟨hne, hany⟩
          · exact lt_of_not_ge fun hle => hceiling ⟨hpos, hle⟩

theorem enqueue_moved (runners : RunnerTable) (a : EnqueueArgs) (q : Tasks) (k : Nat) :
    Moved (effect (⟨runners, .enqueue a⟩, .enqueued (enqueue runners a q).1) k) (q.get? k)
      ((enqueue runners a q).2.get? k) := by
  rcases enqueue_spec runners a q with ⟨-, hzero, hq⟩ | ⟨kind, hadmits, heq⟩
  · have hnone : effect (⟨runners, .enqueue a⟩, .enqueued (enqueue runners a q).1) k = none := by
      cases hans : (enqueue runners a q).1 with
      | error => rfl
      | ok id => rw [hzero id hans]; simp [effect]
    rw [hnone, hq]; exact .refl _
  · have hpos : 0 < q.next := q.pos
    rw [heq]
    dsimp only
    rw [Table.get?_insert]
    by_cases hk : k = q.next
    · subst hk
      rw [if_pos rfl, Table.get?_next]
      simp only [effect, hpos, and_self, if_true]
      have hmax := hadmits.attempts
      exact .created ⟨rfl, rfl, rfl, rfl, by simp only [admitted, newTask]; omega⟩
    · rw [if_neg hk]
      simp only [effect, hpos, true_and, if_neg (Ne.symm hk)]
      exact .refl _

theorem bestTask_mem {runners : RunnerTable} {now : Time} {scan : Nat} {q : Tasks} {t : AgentTask}
    (h : bestTask runners now scan q = some t) : t ∈ q.rows ∧ claimable runners now q t = true := by
  have hm := (List.mem_insertionSort _).1 (List.mem_of_head? h)
  obtain ⟨hr, hc⟩ := List.mem_filter.1 hm
  exact ⟨List.mem_rotate.1 hr, hc⟩

theorem claimable_iff {runners : RunnerTable} {now : Time} {q : Tasks} {t : AgentTask} :
    claimable runners now q t = true ↔
      t.status = .queued ∧ t.scheduledAt.all (· ≤ now) = true ∧ runnerRunnable runners t.repoId = true ∧
        runnerCeilingAvailable runners q t.repoId = true := by
  simp [claimable, and_assoc]

theorem claim_moved (runners : RunnerTable) (w : String) (now leaseFor : Time) (scan : Nat) (q : Tasks) (k : Nat) :
    Moved (effect (⟨runners, .claim w now leaseFor scan⟩, .claimed (claim runners w now leaseFor scan q).1) k)
      (q.get? k) ((claim runners w now leaseFor scan q).2.get? k) := by
  unfold claim
  split
  · exact .refl _
  · rename_i task hb
    obtain ⟨hmem, hc⟩ := bestTask_mem hb
    have hq := (claimable_iff.1 hc).1
    have hcount : q.rowcount (·.id == task.id) = true := Table.rowcount_iff.2 ⟨task, hmem, by simp⟩
    have h := moved_update (q := q) (p := (·.id == task.id)) (f := setLeased w (now + leaseFor) now)
      (fun _ => rfl) task.id k
      (.issued ⟨task.id, w, now + leaseFor, task.attempts⟩) (fun r hr => by simpa using hr)
      (fun r hr hid => by
        have : r = task := Table.eq_of_key hr hmem (by simpa using hid)
        subst this
        exact .leased ⟨r.id, w, now + leaseFor, r.attempts⟩ now hq rfl)
    simpa only [effect, hcount, true_and] using h

/-- A lease write that answers `True` ends the lease it names; one that answers `False` does nothing. -/
theorem finish_moved (l : Lease) (ref : Option String) (now : Time) (q : Tasks) (k : Nat) :
    Moved (if (succeed l ref now q).1 = true ∧ l.taskId = k then some .ended else none) (q.get? k)
      ((succeed l ref now q).2.get? k) :=
  moved_update (f := setFinished .done ref none now) (fun _ => rfl) _ k _ (fun _ hr => (holds_iff.1 hr).1)
    fun _ _ hr => .finished ref now (holds_iff.1 hr).2.2

theorem markRunning_moved (l : Lease) (q : Tasks) (k : Nat) :
    Moved none (q.get? k) ((markRunning l q).2.get? k) :=
  moved_update_none (f := setStatus .running none) (fun _ => rfl) k
    fun _ hr => .started (by simpa using (holds_iff.1 hr).2.2)

theorem heartbeat_moved (l : Lease) (now leaseFor : Time) (q : Tasks) (k : Nat) :
    Moved none (q.get? k) ((heartbeat l now leaseFor q).2.get? k) :=
  moved_update_none (f := setLeaseUntil (now + leaseFor)) (fun _ => rfl) k fun _ hr => .beat _ (holds_iff.1 hr).2.2

theorem retry_moved (id : Nat) (reason : String) (now : Time) (q : Tasks) (k : Nat) :
    Moved (if (retry id reason now q).1 = true ∧ id = k then some .retried else none) (q.get? k)
      ((retry id reason now q).2.get? k) :=
  moved_update (f := setRetried reason now) (fun _ => rfl) _ k _ (fun _ hr => (actionable_iff.1 hr).1)
    fun _ _ hr => .retried _ now (actionable_iff.1 hr).2

theorem cancel_moved (id : Nat) (reason : String) (now : Time) (q : Tasks) (k : Nat) :
    Moved (if (cancel id reason now q).1 = true ∧ id = k then some .cancelled else none) (q.get? k)
      ((cancel id reason now q).2.get? k) :=
  moved_update (f := setCancelled reason now) (fun _ => rfl) _ k _ (fun _ hr => (actionable_iff.1 hr).1)
    fun _ _ hr => .cancelled _ now (actionable_iff.1 hr).2

/-! ## Failure and reclaim -/

@[simp] theorem dirty_self {α : Type} [DecidableEq α] (loaded written : α) :
    dirty loaded written loaded = written := by
  unfold dirty; split
  · rename_i h; exact h.symm
  · rfl

/-- Written back on the row it was loaded from, a flush is the assigned row. -/
theorem failed_touched {error : String} {now : Time} {r r' : AgentTask} (hs : r.status ∈ runningTaskStatuses)
    (h : failed error now r = some r') : Touched r (some .ended) r' ∧ (⟨r, r'⟩ : FailWrite).flush r = r' := by
  unfold failed at h
  dsimp only at h
  split at h
  · rename_i hle
    cases h
    exact ⟨.buried _ _ now hs hle, by simp [FailWrite.flush]⟩
  · rename_i hlt
    obtain ⟨delay, -, rfl⟩ := Option.map_eq_some_iff.1 h
    exact ⟨.requeued _ _ _ hs (Nat.lt_of_not_le hlt), by simp [FailWrite.flush]⟩

theorem failSelect_ok {l : Lease} {error : String} {now : Time} {q : Tasks} {w : FailWrite}
    (h : failSelect l error now q = .ok w) :
    w.loaded ∈ q.rows ∧ holds l [.leased, .running] w.loaded = true ∧ failed error now w.loaded = some w.written := by
  unfold failSelect at h
  split at h
  · cases h
  · rename_i task hf
    split at h
    · cases h
    · rename_i written hw
      cases h
      exact ⟨List.mem_of_find?_eq_some hf, List.find?_some hf, hw⟩

theorem failSelect_error {l : Lease} {error : String} {now : Time} {q : Tasks} {o : FailOutcome}
    (h : failSelect l error now q = .error o) : o = .lost ∨ o = .overflow := by
  unfold failSelect at h
  split at h
  · cases h; exact .inl rfl
  · split at h
    · cases h; exact .inr rfl
    · cases h

theorem fail_moved (runners : RunnerTable) (l : Lease) (error : String) (now : Time) (q : Tasks) (k : Nat) :
    Moved (effect (⟨runners, .fail l error now⟩, .failed (fail l error now q).1) k) (q.get? k)
      ((fail l error now q).2.get? k) := by
  unfold fail
  split
  · rename_i o ho
    rcases failSelect_error ho with rfl | rfl <;> exact .refl _
  · rename_i w hw
    obtain ⟨hmem, hholds, hwr⟩ := failSelect_ok hw
    obtain ⟨hid, -, hst⟩ := holds_iff.1 hholds
    -- nothing ran in between: the row written is the row read
    have hcount : q.rowcount (·.id == w.loaded.id) = true := Table.rowcount_iff.2 ⟨w.loaded, hmem, by simp⟩
    have h := moved_update (q := q) (p := (·.id == w.loaded.id)) (f := w.flush) (fun _ => rfl) w.loaded.id k .ended
      (fun r hr => by simpa using hr) (fun r hr hr' => by
        have : r = w.loaded := Table.eq_of_key hr hmem (by simpa using hr')
        subst this
        obtain ⟨ht, hflush⟩ := failed_touched hst hwr
        rw [hflush]; exact ht)
    simp only [hcount, true_and] at h
    have heff : effect (⟨runners, .fail l error now⟩, .failed w.outcome) k =
        if l.taskId = k then some .ended else none := by
      unfold FailWrite.outcome; split <;> rfl
    rw [heff, ← hid]; exact h

theorem reclaimed_touched {m : Time} {r : AgentTask} (h : leaseExpired m r = true) :
    Touched r (some .ended) (reclaimed m r) := by
  have hs := (leaseExpired_iff.1 h).1
  unfold reclaimed
  dsimp only
  split
  · rename_i hle; exact .buried _ _ m hs hle
  · rename_i hlt; exact .requeued _ _ _ hs (Nat.lt_of_not_le hlt)

/-- The reclaim report names exactly the abandoned rows. -/
theorem reclaim_report (m : Time) (q : Tasks) (k : Nat) :
    (reclaimExpired m q).1.any (·.taskId == k) = true ↔ ∃ r, q.get? k = some r ∧ leaseExpired m r = true := by
  simp only [reclaimExpired, List.any_map, List.any_eq_true, List.mem_insertionSort, List.mem_filter,
    Function.comp_apply, beq_iff_eq]
  constructor
  · rintro ⟨r, ⟨hr, he⟩, rfl⟩; exact ⟨r, get?_of_row hr, he⟩
  · rintro ⟨r, hg, he⟩
    obtain ⟨hr, hk⟩ := Table.get?_eq_some.1 hg
    exact ⟨r, ⟨hr, he⟩, hk⟩

theorem reclaim_moved (runners : RunnerTable) (m : Time) (q : Tasks) (k : Nat) :
    Moved (effect (⟨runners, .reclaimExpired m⟩, .reclaimed (reclaimExpired m q).1) k) (q.get? k)
      ((reclaimExpired m q).2.get? k) := by
  have hrep := reclaim_report m q k
  have hget : (reclaimExpired m q).2.get? k =
      (q.get? k).map fun r => if leaseExpired m r then reclaimed m r else r := Table.get?_update (reclaimed_id m) k
  rw [hget]
  simp only [effect]
  cases hg : q.get? k with
  | none =>
    rw [if_neg fun hr => by obtain ⟨r, h, -⟩ := hrep.1 hr; rw [hg] at h; cases h]
    exact .absent
  | some r =>
    simp only [Option.map_some]
    by_cases he : leaseExpired m r = true
    · rw [if_pos (hrep.2 ⟨r, hg, he⟩), if_pos he]
      exact .touched (reclaimed_touched he)
    · rw [if_neg fun hr => by obtain ⟨r', h, h'⟩ := hrep.1 hr; rw [hg] at h; cases h; exact he h', if_neg he]
      exact .touched .same

/-! ## Every call -/

theorem effect_flag (runners : RunnerTable) (op : Op) (b : Bool) {k id : Nat} {eff : Effect}
    (ht : effect (⟨runners, op⟩, .flag true) k = if id = k then some eff else none)
    (hf : effect (⟨runners, op⟩, .flag false) k = none) :
    effect (⟨runners, op⟩, .flag b) k = if b = true ∧ id = k then some eff else none := by
  cases b
  · simp [hf]
  · simp [ht]

/-- What one call does to the row of any key: it is moved as the call's effect on that key says. -/
theorem step_moved (q : Tasks) (c : Call) (k : Nat) :
    Moved (effect (c, (step q c).1) k) (q.get? k) ((step q c).2.get? k) := by
  obtain ⟨runners, op⟩ := c
  cases op with
  | enqueue a => exact enqueue_moved runners a q k
  | claim w now leaseFor scan => exact claim_moved runners w now leaseFor scan q k
  | markRunning l => exact markRunning_moved l q k
  | heartbeat l now leaseFor => exact heartbeat_moved l now leaseFor q k
  | succeed l ref now =>
    have h := effect_flag runners (.succeed l ref now) ((succeed l ref now q).1) (k := k) rfl rfl
    show Moved (effect (_, .flag (succeed l ref now q).1) k) _ _
    rw [h]; exact finish_moved l ref now q k
  | fail l e now => exact fail_moved runners l e now q k
  | reclaimExpired m => exact reclaim_moved runners m q k
  | retry id r now =>
    have h := effect_flag runners (.retry id r now) ((retry id r now q).1) (k := k) rfl rfl
    show Moved (effect (_, .flag (retry id r now q).1) k) _ _
    rw [h]; exact retry_moved id r now q k
  | cancel id r now =>
    have h := effect_flag runners (.cancel id r now) ((cancel id r now q).1) (k := k) rfl rfl
    show Moved (effect (_, .flag (cancel id r now q).1) k) _ _
    rw [h]; exact cancel_moved id r now q k

/-- The operations that have an effect on a task. -/
theorem effect_op {c : Call} {a : Answer} {k : Nat} {e : Effect} (h : effect (c, a) k = some e) :
    match e with
    | .created => ∃ args, c.op = .enqueue args
    | .issued _ => ∃ w now leaseFor scan, c.op = .claim w now leaseFor scan
    | .retried => ∃ reason now, c.op = .retry k reason now
    | .cancelled => ∃ reason now, c.op = .cancel k reason now
    | .ended => True := by
  unfold effect at h
  split at h <;> first | contradiction | skip
  all_goals
    rename_i hop _
    split at h <;> cases h
  · exact ⟨_, hop⟩
  · exact ⟨_, _, _, _, hop⟩
  · trivial
  · trivial
  · trivial
  · trivial
  · rename_i hid; exact ⟨_, _, hid ▸ hop⟩
  · rename_i hid; exact ⟨_, _, hid ▸ hop⟩

/-- A lease is issued by a claim only, to the task the claim selected. -/
theorem issued_elim {q : Tasks} {c : Call} {k : Nat} {l : Lease}
    (h : effect (c, (step q c).1) k = some (.issued l)) :
    ∃ w now leaseFor scan task, c.op = .claim w now leaseFor scan ∧ bestTask c.runners now scan q = some task ∧
      task.id = k ∧ l = ⟨task.id, w, now + leaseFor, task.attempts⟩ := by
  obtain ⟨w, now, leaseFor, scan, hop⟩ := effect_op h
  obtain ⟨runners, op⟩ := c
  subst hop
  refine ⟨w, now, leaseFor, scan, ?_⟩
  cases hb : bestTask runners now scan q with
  | none => simp [effect, step, claim, hb] at h
  | some task =>
    simp only [effect, step, claim, hb, Prod.map_fst] at h
    split at h
    · rename_i hk; cases h; exact ⟨task, rfl, rfl, hk, rfl⟩
    · cases h

end OpenFish.Queue
