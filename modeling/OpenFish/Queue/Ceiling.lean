/-
The execution ceiling and fair selection: while the runner rows stay as they are, no repository
holds more slots than its ceiling, and a claim hands out a best due task of the enabled repositories
below their ceilings whenever there is one.
-/
import OpenFish.Queue.History

namespace OpenFish.Queue

open Lib

/-! ## What a claim should do -/

section
variable (runners : RunnerTable) (now : Time) (q : Tasks)

/-- No runner row of the repository is disabled. -/
def Enabled (repo : Nat) : Prop := ∀ r ∈ runners.rows, r.repoId = repo → r.enabled = true

/-- The repository holds fewer slots than any positive ceiling set for it. -/
def BelowCeiling (repo : Nat) : Prop :=
  ∀ r ∈ runners.rows, r.repoId = repo → 0 < r.maxConcurrency → (inflight q repo : Int) < r.maxConcurrency

/-- A due queued task of an enabled repository below its ceiling. -/
structure Candidate (t : AgentTask) : Prop where
  mem : t ∈ q.rows
  queued : t.status = .queued
  due : ∀ at_, t.scheduledAt = some at_ → at_ ≤ now
  enabled : Enabled runners t.repoId
  below : BelowCeiling runners q t.repoId

/-- `a` is ranked no lower than `b`: by priority, then by age. -/
def RankedBefore (a b : AgentTask) : Prop :=
  b.priority < a.priority ∨ (b.priority = a.priority ∧ a.createdAt ≤ b.createdAt)

/-- What a claim answers: a best candidate, or nothing when there is none. -/
structure FairClaim (answer : Option ClaimedTask) : Prop where
  best : ∀ task, answer = some task →
    ∃ t, Candidate runners now q t ∧ t.id = task.id ∧ t.repoId = task.repoId ∧
      ∀ t', Candidate runners now q t' → RankedBefore t t'
  nothing : answer = none ↔ ∀ t, ¬ Candidate runners now q t

end

/-! ## The predicates of the `SELECT` -/

theorem ofRepo_eq_some {runners : RunnerTable} {repo : Nat} {r : RepoRunner} :
    runners.ofRepo repo = some r ↔ r ∈ runners.rows ∧ r.repoId = repo := by
  unfold RunnerTable.ofRepo
  constructor
  · intro h; exact ⟨List.mem_of_find?_eq_some h, by simpa using List.find?_some h⟩
  · rintro ⟨hr, hid⟩
    cases hf : runners.rows.find? (·.repoId == repo) with
    | none => exact absurd hid (by simpa using List.find?_eq_none.1 hf r hr)
    | some r' =>
      have hid' : r'.repoId = repo := by simpa using List.find?_some hf
      rw [List.inj_on_of_nodup_map runners.uniq (List.mem_of_find?_eq_some hf) hr (hid'.trans hid.symm)]

theorem runnerRunnable_iff {runners : RunnerTable} {repo : Nat} :
    runnerRunnable runners repo = true ↔ Enabled runners repo := by
  simp only [runnerRunnable, Enabled, Bool.not_eq_true', List.any_eq_false, Bool.and_eq_true, beq_iff_eq,
    Bool.not_eq_true', not_and, Bool.not_eq_false]

theorem runnerCeilingAvailable_iff {runners : RunnerTable} {q : Tasks} {repo : Nat} :
    runnerCeilingAvailable runners q repo = true ↔ BelowCeiling runners q repo := by
  unfold runnerCeilingAvailable BelowCeiling
  simp only [Bool.not_eq_true', Bool.and_eq_false_iff, decide_eq_false_iff_not, not_lt, not_le, gt_iff_lt, ge_iff_le]
  cases ho : runners.ofRepo repo with
  | none =>
    simp only [Option.map_none, Option.getD_none, le_refl, true_or, true_iff]
    intro r hr hid
    rw [ofRepo_eq_some.2 ⟨hr, hid⟩] at ho; cases ho
  | some r =>
    obtain ⟨hr, hid⟩ := ofRepo_eq_some.1 ho
    simp only [Option.map_some, Option.getD_some]
    constructor
    · intro h r' hr' hid' hpos
      have : r' = r := by rw [ofRepo_eq_some.2 ⟨hr', hid'⟩] at ho; cases ho; rfl
      subst this; omega
    · intro h
      by_cases hpos : 0 < r.maxConcurrency
      · exact .inr (h r hr hid hpos)
      · exact .inl (by omega)

theorem candidate_iff {runners : RunnerTable} {now : Time} {q : Tasks} {t : AgentTask} :
    Candidate runners now q t ↔ t ∈ q.rows ∧ claimable runners now q t = true := by
  rw [claimable_iff, runnerRunnable_iff, runnerCeilingAvailable_iff]
  constructor
  · rintro ⟨hm, hs, hd, he, hb⟩
    refine ⟨hm, hs, ?_, he, hb⟩
    cases hsch : t.scheduledAt with
    | none => rfl
    | some at_ => simpa using hd at_ hsch
  · rintro ⟨hm, hs, hd, he, hb⟩
    refine ⟨hm, hs, fun at_ hat => ?_, he, hb⟩
    rw [hat] at hd; simpa using hd

/-! ## The selection -/

instance : Std.Total ClaimOrder := ⟨fun a b => by
  rcases lt_trichotomy a.priority b.priority with h | h | h
  · exact .inr (.inl h)
  · exact (le_total a.createdAt b.createdAt).imp (fun hc => .inr ⟨h, hc⟩) (fun hc => .inr ⟨h.symm, hc⟩)
  · exact .inl (.inl h)⟩

instance : IsTrans AgentTask ClaimOrder := ⟨fun a b c hab hbc => by
  rcases hab with hab | ⟨hab, hab'⟩ <;> rcases hbc with hbc | ⟨hbc, hbc'⟩
  · exact .inl (hbc.trans hab)
  · exact .inl (hbc ▸ hab)
  · exact .inl (hab ▸ hbc)
  · exact .inr ⟨hab.trans hbc, hab'.trans hbc'⟩⟩

theorem claimOrder_iff {a b : AgentTask} : ClaimOrder a b ↔ RankedBefore a b := by
  unfold ClaimOrder RankedBefore; rw [eq_comm (a := a.priority)]

theorem mem_selected {runners : RunnerTable} {now : Time} {scan : Nat} {q : Tasks} {t : AgentTask} :
    t ∈ ((q.rows.rotate scan).filter (claimable runners now q)).insertionSort ClaimOrder ↔
      Candidate runners now q t := by
  rw [List.mem_insertionSort, List.mem_filter, List.mem_rotate, candidate_iff]

theorem bestTask_some {runners : RunnerTable} {now : Time} {scan : Nat} {q : Tasks} {t : AgentTask}
    (h : bestTask runners now scan q = some t) :
    Candidate runners now q t ∧ ∀ t', Candidate runners now q t' → RankedBefore t t' := by
  unfold bestTask at h
  have hsorted := List.pairwise_insertionSort ClaimOrder ((q.rows.rotate scan).filter (claimable runners now q))
  refine ⟨mem_selected.1 (List.mem_of_head? h), fun t' ht' => ?_⟩
  have hm : t' ∈ ((q.rows.rotate scan).filter (claimable runners now q)).insertionSort ClaimOrder :=
    mem_selected.2 ht'
  obtain ⟨rest, hl⟩ := List.head?_eq_some_iff.1 h
  rw [hl] at hsorted hm
  rcases List.mem_cons.1 hm with rfl | hm
  · exact .inr ⟨rfl, le_refl _⟩
  · exact claimOrder_iff.1 (List.rel_of_pairwise_cons hsorted hm)

theorem bestTask_none {runners : RunnerTable} {now : Time} {scan : Nat} {q : Tasks} :
    bestTask runners now scan q = none ↔ ∀ t, ¬ Candidate runners now q t := by
  unfold bestTask
  rw [List.head?_eq_none_iff, List.eq_nil_iff_forall_not_mem]
  exact forall_congr' fun t => not_congr mem_selected

theorem claim_fair (runners : RunnerTable) (w : String) (now leaseFor : Time) (scan : Nat) (q : Tasks) :
    FairClaim runners now q (claim runners w now leaseFor scan q).1 := by
  cases hb : bestTask runners now scan q with
  | none => exact ⟨fun task h => by simp [claim, hb] at h, by simpa [claim, hb] using bestTask_none.1 hb⟩
  | some t =>
    obtain ⟨hc, hbest⟩ := bestTask_some hb
    refine ⟨fun task h => ?_, ⟨fun h => by simp [claim, hb] at h, fun h => absurd hc (h t)⟩⟩
    simp only [claim, hb, Option.some.injEq] at h
    subst h
    exact ⟨t, hc, rfl, rfl, hbest⟩

/-! ## The ceiling -/

theorem slotOf_iff {repo : Nat} {t : AgentTask} :
    (t.repoId == repo && decide (t.status ∈ runningTaskStatuses)) = true ↔
      t.repoId = repo ∧ t.status ∈ runningTaskStatuses := by
  simp

/-- A row takes a slot only by being leased. -/
theorem Touched.running {r r' : AgentTask} {e : Option Effect} (h : Touched r e r')
    (hs : r'.status ∈ runningTaskStatuses) : r.status ∈ runningTaskStatuses ∨ ∃ l, e = some (.issued l) := by
  cases h with
  | same => exact .inl hs
  | started hr => exact .inl (by rw [hr]; decide)
  | beat _ hr => exact .inl hr
  | leased l => exact .inr ⟨l, rfl⟩
  | finished | requeued | buried | retried | cancelled =>
    simp [setFinished, setRetried, setCancelled, runningTaskStatuses] at hs

/-- After a call, a row holding a slot held one before or was just leased. -/
theorem slot_step {q : Tasks} {c : Call} {r' : AgentTask} (hr' : r' ∈ (step q c).2.rows)
    (hs : r'.status ∈ runningTaskStatuses) :
    ∃ r, q.get? r'.id = some r ∧ r'.repoId = r.repoId ∧
      (r.status ∈ runningTaskStatuses ∨ ∃ l, effect (c, (step q c).1) r'.id = some (.issued l)) := by
  have hm := step_moved q c r'.id
  rw [get?_of_row hr'] at hm
  generalize he : effect (c, (step q c).1) r'.id = e at hm ⊢
  generalize ho : q.get? r'.id = o at hm
  cases hm with
  | created hf => rw [hf.status] at hs; exact absurd hs (by decide)
  | @touched _ r _ ht => exact ⟨r, rfl, ht.sameTask.repoId, ht.running hs⟩

/-- A call takes a slot of a repository only by claiming one of its tasks, and then one slot. -/
theorem inflight_step (q : Tasks) (c : Call) (repo : Nat) :
    inflight (step q c).2 repo ≤ inflight q repo ∨
      (inflight (step q c).2 repo ≤ inflight q repo + 1 ∧
        ∃ now scan t, bestTask c.runners now scan q = some t ∧ t.repoId = repo) := by
  by_cases hex : ∃ k l t, effect (c, (step q c).1) k = some (.issued l) ∧ q.get? k = some t ∧ t.repoId = repo
  · -- the claim leased a task of this repository: the one slot gained
    obtain ⟨k, l, t, he, hg, hrepo⟩ := hex
    obtain ⟨w, now, leaseFor, scan, task, hop, hb, hk, -⟩ := issued_elim he
    have htask : task = t := by
      have := get?_of_row (bestTask_mem hb).1
      rw [hk, hg] at this; cases this; rfl
    refine .inr ⟨Table.countP_le [k] fun r' hr' hq => ?_, now, scan, task, hb, htask ▸ hrepo⟩
    obtain ⟨hrepo', hs⟩ := slotOf_iff.1 hq
    obtain ⟨r, hr, hsame, hrun | ⟨l', hl'⟩⟩ := slot_step hr' hs
    · obtain ⟨hmem, hkey⟩ := Table.get?_eq_some.1 hr
      exact .inr ⟨r, hmem, hkey, slotOf_iff.2 ⟨hsame ▸ hrepo', hrun⟩⟩
    · -- the one task a claim leases
      obtain ⟨w', now', leaseFor', scan', task', hop', hb', hk', -⟩ := issued_elim hl'
      rw [hop] at hop'; cases hop'
      rw [hb] at hb'; cases hb'
      exact .inl (List.mem_singleton.2 (hk'.symm.trans hk))
  · refine .inl (Table.countP_le [] fun r' hr' hq => ?_)
    obtain ⟨hrepo', hs⟩ := slotOf_iff.1 hq
    obtain ⟨r, hr, hsame, hrun | ⟨l, hl⟩⟩ := slot_step hr' hs
    · obtain ⟨hmem, hkey⟩ := Table.get?_eq_some.1 hr
      exact .inr ⟨r, hmem, hkey, slotOf_iff.2 ⟨hsame ▸ hrepo', hrun⟩⟩
    · exact absurd ⟨r'.id, l, r, hl, hr, hsame ▸ hrepo'⟩ hex

/-- Every bounded repository holds its ceiling at most. -/
def WithinCeiling (runners : RunnerTable) (q : Tasks) : Prop :=
  ∀ r ∈ runners.rows, 0 < r.maxConcurrency → (inflight q r.repoId : Int) ≤ r.maxConcurrency

theorem withinCeiling_step {runners : RunnerTable} {q : Tasks} (hw : WithinCeiling runners q) (op : Op) :
    WithinCeiling runners (step q ⟨runners, op⟩).2 := by
  intro r hr hpos
  have hle := hw r hr hpos
  rcases inflight_step q ⟨runners, op⟩ r.repoId with h | ⟨h, now, scan, t, hb, ht⟩
  · omega
  · have hlt := (bestTask_some hb).1.below r hr ht.symm hpos
    rw [ht] at hlt; omega

/-- The execution ceiling and fair selection: with the runner rows held fixed, after any operations in
any order, no bounded repository is above its ceiling, and whatever claim is made next, by any worker
at any time, it answers a best due task of the enabled repositories below their ceilings, or `None`
exactly when there is none. -/
theorem ceiling_and_fair_claims (runners : RunnerTable) (ops : List Op) :
    let q := agentQueue.state (ops.map (Call.mk runners))
    WithinCeiling runners q ∧
      ∀ worker now leaseFor scan, FairClaim runners now q (claim runners worker now leaseFor scan q).1 := by
  refine ⟨?_, fun worker now leaseFor scan => claim_fair runners worker now leaseFor scan _⟩
  induction ops with
  | nil => intro r _ hpos; exact Int.le_of_lt hpos
  | cons op ops ih => exact withinCeiling_step ih op

end OpenFish.Queue
