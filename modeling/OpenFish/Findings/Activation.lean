/-
`should_reactivate` as a case distinction: the count of a rule first, then drift, then the due date.
-/
import OpenFish.Findings.Model

namespace OpenFish.Findings

/-- Condition 3 of `should_reactivate`, but for the severity. -/
def countExceeds (ctx : ReactivationContext) : Bool :=
  match ctx.ruleThreshold, ctx.ruleOpenCount with
  | some threshold, some count => decide (threshold < count)
  | _, _ => false

/-- Condition 2. -/
def dueNow (f : Finding) (ctx : ReactivationContext) (now : Time) : Bool :=
  f.due.any fun due => !truthy ctx.stopReason && decide (due ≤ ctx.today.getD (dateOf now))

theorem shouldReactivate_counted {f : Finding} {ctx : ReactivationContext} {now : Time}
    (h : countExceeds ctx = true) : shouldReactivate f ctx now = .ok (some reasonEscalation) := by
  unfold countExceeds at h
  unfold shouldReactivate
  cases severityRaised ctx.previousSeverity ctx.currentSeverity with
  | true => rfl
  | false =>
    cases ht : ctx.ruleThreshold with
    | none => rw [ht] at h; cases h
    | some threshold =>
      cases hc : ctx.ruleOpenCount with
      | none => rw [ht, hc] at h; cases h
      | some count =>
        rw [ht, hc] at h
        simp only [if_pos (of_decide_eq_true h)]
        rfl

/-- Without more open findings than its threshold allows, a rule's threshold is as if it had none. -/
theorem shouldReactivate_threshold {f : Finding} {ctx : ReactivationContext} {now : Time}
    (hs : severityRaised ctx.previousSeverity ctx.currentSeverity = false) (h : countExceeds ctx = false) :
    shouldReactivate f ctx now = shouldReactivate f { ctx with ruleThreshold := none } now := by
  unfold countExceeds at h
  unfold shouldReactivate
  rw [hs]
  cases ht : ctx.ruleThreshold with
  | none => rfl
  | some threshold =>
    cases hc : ctx.ruleOpenCount with
    | none => rfl
    | some count =>
      rw [ht, hc] at h
      simp only [if_neg (of_decide_eq_false h)]
      rfl

theorem shouldReactivate_uncounted {f : Finding} {ctx : ReactivationContext} {now : Time}
    (hs : severityRaised ctx.previousSeverity ctx.currentSeverity = false) (h : countExceeds ctx = false) :
    shouldReactivate f ctx now = (driftReason f ctx).map fun drift =>
      if drift.isSome then some reasonDrift else if dueNow f ctx now then some reasonDue else none := by
  rw [shouldReactivate_threshold hs h]
  unfold shouldReactivate dueNow
  dsimp only
  rw [hs]
  change (driftReason f ctx >>= _) = _
  cases driftReason f ctx with
  | error e => rfl
  | ok drift =>
    cases drift with
    | some _ => rfl
    | none =>
      cases f.due with
      | none => rfl
      | some due =>
        by_cases hd : (!truthy ctx.stopReason) = true ∧ due ≤ ctx.today.getD (dateOf now)
        · have hyes : (!truthy ctx.stopReason && decide (due ≤ ctx.today.getD (dateOf now))) = true := by
            rw [hd.1, decide_eq_true hd.2]; rfl
          simp only [if_pos hd, Option.any_some, hyes]
          rfl
        · have hno : (!truthy ctx.stopReason && decide (due ≤ ctx.today.getD (dateOf now))) = false :=
            Bool.eq_false_iff.2 fun hyes => hd (by simpa using hyes)
          simp only [if_neg hd, Option.any_some, hno]
          rfl

/-- A finding is reactivated for one of three reasons. -/
theorem shouldReactivate_reason {f : Finding} {ctx : ReactivationContext} {now : Time} {reason : String}
    (hs : severityRaised ctx.previousSeverity ctx.currentSeverity = false)
    (h : shouldReactivate f ctx now = .ok (some reason)) :
    reason = reasonEscalation ∨ reason = reasonDrift ∨ reason = reasonDue := by
  cases hcount : countExceeds ctx with
  | true =>
    rw [shouldReactivate_counted hcount] at h
    cases h
    exact .inl rfl
  | false =>
    rw [shouldReactivate_uncounted hs hcount] at h
    cases hdrift : driftReason f ctx with
    | error e => rw [hdrift] at h; cases h
    | ok drift =>
      rw [hdrift] at h
      have hreason : (if drift.isSome then some reasonDrift else if dueNow f ctx now then some reasonDue else none) =
          some reason := Except.ok.inj h
      split at hreason
      · cases hreason; exact .inr (.inl rfl)
      · split at hreason
        · cases hreason; exact .inr (.inr rfl)
        · cases hreason

end OpenFish.Findings
