/-
Calls interleaved statement by statement: `fail` reads in one statement and writes by primary key in
another, and any other statements may run in between; every other method is one guarded statement or
serialised. A cancellation is kept throughout a run exactly when no such late write requeues a task
cancelled since it was read.
-/
import OpenFish.Queue.History

namespace OpenFish.Queue

open Lib

/-! ## Statements -/

/-- The table, and the `fail` calls that have read a row and not yet written it. -/
structure Database where
  queue : Tasks
  inFlight : List FailWrite

/-- A statement as the database serialises it. -/
inductive Statement
  | whole (c : Call)
  | failSelect (lease : Lease) (error : String) (now : Time)
  | failUpdate (i : Nat)

/-- One statement; the two of `fail` answer with the commit, or when the `SELECT` decides. -/
def execute (db : Database) : Statement → Option Answer × Database
  | .whole c => (some (step db.queue c).1, { db with queue := (step db.queue c).2 })
  | .failSelect l e now =>
    match failSelect l e now db.queue with
    | .error o => (some (.failed o), db)
    | .ok w => (none, { db with inFlight := db.inFlight ++ [w] })
  | .failUpdate i =>
    match db.inFlight[i]? with
    | none => (none, db)
    | some w => (some (.failed w.outcome), ⟨failUpdate w db.queue, db.inFlight.eraseIdx i⟩)

/-- Interleaved statements from the empty table on. -/
def interleaving : Machine Database Statement (Option Answer) := ⟨⟨Table.empty, []⟩, execute⟩

/-- A `fail` with nothing between its two statements is the atomic `fail`. -/
theorem fail_statements (db : Database) (l : Lease) (e : String) (now : Time) (runners : RunnerTable) :
    (execute (execute db (.failSelect l e now)).2 (.failUpdate db.inFlight.length)).2 =
      (execute db (.whole ⟨runners, .fail l e now⟩)).2 := by
  simp only [execute, step, fail]
  cases failSelect l e now db.queue with
  | error o =>
    have : db.inFlight[db.inFlight.length]? = none := List.getElem?_eq_none (le_refl _)
    simp only [this, Prod.map_snd, id_eq]
  | ok w => simp [List.eraseIdx_append_of_length_le]

/-! ## What the claim is about -/

/-- Whether a task stays cancelled after an effect. -/
def cancelledAfter : Option Effect → Bool → Bool
  | some .cancelled, _ => true
  | some .retried, _ => false
  | _, b => b

/-- What an answered statement says about one task, the failures in two statements apart. -/
def fate : Statement × Option Answer → Nat → Option Effect
  | (.whole c, some a), k => effect (c, a) k
  | _, _ => none

/-- Whether a `cancel` of the task returned `True` and no later `retry` of it did. -/
def cancelled : List (Statement × Option Answer) → Nat → Bool
  | [], _ => false
  | e :: h, k => cancelledAfter (fate e k) (cancelled h k)

/-- Every cancelled task is `dead`, and no claim hands it out. -/
def CancellationsKept (h : List (Statement × Option Answer)) (db : Database) : Prop :=
  ∀ k, cancelled h k = true →
    (∃ t, db.queue.get? k = some t ∧ t.status = .dead) ∧
      ∀ runners worker now leaseFor scan task,
        (claim runners worker now leaseFor scan db.queue).1 = some task → task.id ≠ k

/-- A late write does not requeue a task cancelled by then: the task it read had no attempt left. -/
def NoLateRequeue (h : List (Statement × Option Answer)) (db : Database) (s : Statement) : Prop :=
  ∀ i w, s = .failUpdate i → db.inFlight[i]? = some w → cancelled h w.loaded.id = true →
    w.loaded.maxAttempts ≤ w.loaded.attempts + 1

/-! ## Whole statements -/

/-- A call keeps a cancelled task dead until it is retried. -/
theorem Moved.dead {e : Option Effect} {o o' : Option AgentTask} {b : Bool} (h : Moved e o o')
    (hb : b = true → ∃ t, o = some t ∧ t.status = .dead) (hc : cancelledAfter e b = true) :
    ∃ t, o' = some t ∧ t.status = .dead := by
  cases h with
  | absent => exact hb hc
  | created => obtain ⟨t, ht, -⟩ := hb hc; cases ht
  | @touched _ r r' ht =>
    -- a dead row is neither held nor queued
    have hdead : b = true → r.status = .dead := fun hbt => by
      obtain ⟨t, ht, hs⟩ := hb hbt; cases ht; exact hs
    refine ⟨r', rfl, ?_⟩
    cases ht with
    | same => exact hdead hc
    | started hs => rw [hdead hc] at hs; cases hs
    | beat _ hs => rw [hdead hc] at hs; exact absurd hs (by decide)
    | leased _ _ hs => rw [hdead hc] at hs; cases hs
    | finished _ _ hs => rw [hdead hc] at hs; exact absurd hs (by decide)
    | requeued _ _ _ hs => rw [hdead hc] at hs; exact absurd hs (by decide)
    | buried => rfl
    | retried => cases hc
    | cancelled => rfl

/-- A claim hands out queued tasks only. -/
theorem claim_ne_dead {runners : RunnerTable} {worker : String} {now leaseFor : Time} {scan k : Nat} {q : Tasks}
    {t : AgentTask} (ht : q.get? k = some t) (hs : t.status = .dead) {task : ClaimedTask}
    (h : (claim runners worker now leaseFor scan q).1 = some task) : task.id ≠ k := by
  rintro rfl
  cases hb : bestTask runners now scan q with
  | none => simp [claim, hb] at h
  | some best =>
    simp only [claim, hb, Option.some.injEq] at h
    subst h
    obtain ⟨hmem, hc⟩ := bestTask_mem hb
    rw [get?_of_row hmem] at ht
    cases ht
    rw [(claimable_iff.1 hc).1] at hs; cases hs

theorem cancellationsKept_iff {h : List (Statement × Option Answer)} {db : Database} :
    CancellationsKept h db ↔ ∀ k, cancelled h k = true → ∃ t, db.queue.get? k = some t ∧ t.status = .dead := by
  constructor
  · exact fun hk k hc => (hk k hc).1
  · intro hk k hc
    obtain ⟨t, ht, hs⟩ := hk k hc
    exact ⟨⟨t, ht, hs⟩, fun _ _ _ _ _ _ hcl => claim_ne_dead ht hs hcl⟩

/-! ## Late writes -/

/-- Every write in flight was computed from a held row. -/
def InFlightOk (_ : List (Statement × Option Answer)) (db : Database) : Prop :=
  ∀ w ∈ db.inFlight, w.loaded.status ∈ runningTaskStatuses ∧
    ∃ error now, failed error now w.loaded = some w.written

theorem inFlightOk_step (h : List (Statement × Option Answer)) (db : Database) (s : Statement)
    (hi : InFlightOk h db) : InFlightOk ((s, (execute db s).1) :: h) (execute db s).2 := by
  intro w hw
  cases s with
  | whole c => exact hi w hw
  | failSelect l e now =>
    simp only [execute] at hw
    split at hw
    · exact hi w hw
    · rename_i w' hw'
      rcases List.mem_append.1 hw with hw | hw
      · exact hi w hw
      · rw [List.mem_singleton] at hw; subst hw
        obtain ⟨-, hh, hf⟩ := failSelect_ok hw'
        exact ⟨(holds_iff.1 hh).2.2, e, now, hf⟩
  | failUpdate i =>
    simp only [execute] at hw
    split at hw
    · exact hi w hw
    · exact hi w (List.mem_of_mem_eraseIdx hw)

/-- The status a late write leaves, whatever the row has become. -/
theorem flush_status {w : FailWrite} {error : String} {now : Time} (hs : w.loaded.status ∈ runningTaskStatuses)
    (hf : failed error now w.loaded = some w.written) (t : AgentTask) :
    (w.flush t).status = .dead ↔ w.loaded.maxAttempts ≤ w.loaded.attempts + 1 := by
  have hw : w.written.status = if w.loaded.maxAttempts ≤ w.loaded.attempts + 1 then .dead else .queued := by
    unfold failed at hf
    dsimp only at hf
    split at hf
    · rename_i hle; rw [← Option.some.inj hf, if_pos hle]
    · rename_i hlt
      obtain ⟨delay, -, hw⟩ := Option.map_eq_some_iff.1 hf
      rw [← hw, if_neg hlt]
  -- neither is a running status, so the column counts as changed and is written
  have hne : w.written.status ≠ w.loaded.status := by
    intro heq
    rw [← heq, hw] at hs
    split at hs <;> exact absurd hs (by decide)
  show dirty w.loaded.status w.written.status t.status = .dead ↔ _
  unfold dirty
  rw [if_neg hne, hw]
  split
  · rename_i hle; exact iff_of_true rfl hle
  · rename_i hlt; exact iff_of_false (by decide) hlt

/-! ## Every interleaving -/

theorem failUpdate_get? (w : FailWrite) (q : Tasks) (k : Nat) :
    (failUpdate w q).get? k = (q.get? k).map fun t => if t.id == w.loaded.id then w.flush t else t :=
  Table.get?_update (f := w.flush) (fun _ => rfl) k

/-- Where cancellations are kept, a statement keeps them exactly when it is no late requeue. -/
theorem cancellationsKept_step {h : List (Statement × Option Answer)} {db : Database} {s : Statement}
    (hi : InFlightOk h db) (hk : CancellationsKept h db) :
    CancellationsKept ((s, (execute db s).1) :: h) (execute db s).2 ↔ NoLateRequeue h db s := by
  rw [cancellationsKept_iff] at hk ⊢
  cases s with
  | whole c =>
    refine iff_of_true (fun k hc => ?_) (fun _ _ hs => by cases hs)
    exact (step_moved db.queue c k).dead (hk k) hc
  | failSelect l e now =>
    refine iff_of_true (fun k hc => ?_) (fun _ _ hs => by cases hs)
    have : (execute db (.failSelect l e now)).2.queue = db.queue := by
      simp only [execute]; split <;> rfl
    rw [this]; exact hk k hc
  | failUpdate i =>
    cases hw : db.inFlight[i]? with
    | none =>
      refine iff_of_true (fun k hc => ?_) (fun j w hs hj => by cases hs; rw [hw] at hj; cases hj)
      simp only [execute, hw]; exact hk k hc
    | some w =>
      obtain ⟨hs, error, now, hf⟩ := hi w (List.mem_of_getElem? hw)
      have hst := flush_status hs hf
      simp only [execute, hw]
      constructor
      · -- the row written is the cancelled one
        intro hkept j w' hj hw' hc
        cases hj; rw [hw] at hw'; cases hw'
        obtain ⟨t, ht, -⟩ := hk w.loaded.id hc
        obtain ⟨t', ht', hs'⟩ := hkept w.loaded.id hc
        have hid : t.id = w.loaded.id := (Table.get?_eq_some.1 ht).2
        rw [failUpdate_get?, ht, Option.map_some, if_pos (beq_iff_eq.2 hid)] at ht'
        cases ht'
        exact (hst t).1 hs'
      · intro hno k hc
        obtain ⟨t, ht, hdead⟩ := hk k hc
        have hid : t.id = k := (Table.get?_eq_some.1 ht).2
        refine ⟨_, by rw [failUpdate_get?, ht, Option.map_some], ?_⟩
        split
        · rename_i heq
          exact (hst t).2 (hno i w rfl hw (by rw [← beq_iff_eq.1 heq, hid]; exact hc))
        · exact hdead

/-- Cancellations are kept at every moment of an interleaving if and only if no late write of the
interleaving requeues a task cancelled by then. -/
theorem cancellationsKept_iff_noLateRequeue (ss : List Statement) :
    interleaving.AllStates CancellationsKept ss ↔ interleaving.AllSteps NoLateRequeue ss :=
  Machine.allStates_iff_allSteps (fun _ hc => by cases hc)
    (fun ss _ hk => cancellationsKept_step
      (Machine.invariant (M := interleaving) (P := InFlightOk) (fun _ hw => by cases hw) inFlightOk_step ss) hk) ss

/-- A worker's `fail` reads its task, an operator cancels the task, and the worker's write commits
(read from the last statement to the first). -/
def lostCancel : List Statement :=
  [ .failUpdate 0, .whole ⟨noRunners, .cancel 1 "cancelled" 20⟩, .failSelect ⟨1, "w", 60, 0⟩ "boom" 10,
    .whole ⟨noRunners, .claim "w" 0 60 0⟩,
    .whole ⟨noRunners, .enqueue { repoId := 1, now := 0, createdAt := 0 }⟩ ]

/-- `lostCancel` ends with the cancelled task queued again. -/
theorem lostCancel_requeued : ¬ interleaving.AllStates CancellationsKept lostCancel := by
  intro h
  obtain ⟨⟨t, ht, hs⟩, -⟩ := h.now 1 (by decide)
  have hall : ∀ t ∈ (interleaving.state lostCancel).queue.rows, t.status = .queued := by decide
  rw [hall t (Table.get?_eq_some.1 ht).1] at hs
  cases hs

end OpenFish.Queue
