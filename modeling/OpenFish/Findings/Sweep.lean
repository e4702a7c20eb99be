/-
The sweep of `_apply_escalation` on all rows at once, and what it leaves: a rule is settled after it exactly when,
before it, every deferred finding of a rule over the threshold is one the sweep looks at, and the deferred ones alone
are over the threshold.
-/
import OpenFish.Findings.Identity

namespace OpenFish.Findings

open Lib

/-- A finding counts for its rule: it is open, acknowledged or wontfix. -/
def Finding.live (f : Finding) : Bool := decide (f.status ∈ [FindingStatus.open, .acknowledged, .wontfix])

/-- The count that condition 3 is defined over. -/
def liveCount (repo : Nat) (rule : String) (st : Store) : Nat :=
  st.findings.rows.countP fun f => f.repoId == repo && f.ruleId == rule && f.live

/-- No finding of a rule that is over the threshold is left deferred. -/
def RulesSettled (threshold : Int) (repo : Nat) (st : Store) : Prop :=
  ∀ rule, (∀ f ∈ st.findings.rows, f.repoId = repo → f.ruleId = rule → f.status ∉ deferredStatuses) ∨
    (liveCount repo rule st : Int) ≤ threshold

/-- The deferred findings of a rule. -/
def deferredCount (repo : Nat) (rule : String) (st : Store) : Nat :=
  st.findings.rows.countP fun f => f.repoId == repo && f.ruleId == rule && decide (f.status ∈ deferredStatuses)

theorem countP_deferredFindings (order : List Nat) (repo : Nat) (rule : String) (st : Store) :
    (deferredFindings order repo st).countP (·.ruleId == rule) = deferredCount repo rule st := by
  unfold deferredFindings deferredCount
  rw [(List.perm_insertionSort _ _).countP_eq, List.countP_filter]
  refine List.countP_congr fun f _ => ?_
  cases f.repoId == repo <;> cases f.ruleId == rule <;> simp

theorem live_of_deferred {f : Finding} (h : f.status ∈ deferredStatuses) : f.live = true := by
  unfold Finding.live
  unfold deferredStatuses at h
  exact decide_eq_true (List.mem_cons_of_mem _ h)

/-- The sweep reopens some rows, wherever they stand. -/
theorem rows_foldl_escalate (runId : Option Nat) (now : Time) (swept : List Finding) (st : Store) :
    (swept.foldl (escalate runId now) st).findings.rows =
      st.findings.rows.map fun f => if f.id ∈ swept.map (·.id) then setReopened f else f := by
  induction swept generalizing st with
  | nil => exact (List.map_id'' (fun f => if_neg List.not_mem_nil) _).symm
  | cons row swept ih =>
    rw [List.foldl_cons, ih]
    show (st.findings.rows.map _).map _ = _
    rw [List.map_map]
    refine List.map_congr_left fun f _ => ?_
    by_cases hrow : f.id = row.id
    · have hhead : f.id ∈ (row :: swept).map (·.id) := hrow ▸ List.mem_cons_self ..
      have hself : (if f.id == row.id then setReopened f else f) = setReopened f := if_pos (by simpa using hrow)
      simp only [Function.comp, hself, if_pos hhead]
      split <;> rfl
    · have hself : (if f.id == row.id then setReopened f else f) = f := if_neg (by simpa using hrow)
      simp only [Function.comp, hself, List.map_cons, List.mem_cons, hrow, false_or]

/-- The rows that are swept. -/
theorem mem_overThreshold {threshold : Int} {exclude order : List Nat} {repo : Nat} {st : Store} {f : Finding} :
    f ∈ overThreshold threshold exclude (deferredFindings order repo st) ↔
      (f ∈ st.findings.rows ∧ f.repoId = repo ∧ f.status ∈ deferredStatuses) ∧
        f.id ∉ exclude ∧ threshold < deferredCount repo f.ruleId st := by
  unfold overThreshold
  rw [List.mem_filter, mem_deferredFindings, Bool.and_eq_true, Bool.not_eq_true', decide_eq_false_iff_not,
    decide_eq_true_eq, countP_deferredFindings]

/-- A row is swept exactly if it is one of the rows to be swept itself. -/
theorem mem_map_overThreshold {threshold : Int} {exclude order : List Nat} {repo : Nat} {st : Store} {f : Finding}
    (hf : f ∈ st.findings.rows) : f.id ∈ (overThreshold threshold exclude (deferredFindings order repo st)).map (·.id) ↔
      (f.repoId = repo ∧ f.status ∈ deferredStatuses) ∧ f.id ∉ exclude ∧ threshold < deferredCount repo f.ruleId st := by
  constructor
  · intro h
    obtain ⟨g, hg, hid⟩ := List.mem_map.1 h
    have hg := mem_overThreshold.1 hg
    have : g = f := Table.eq_of_key hg.1.1 hf hid
    subst this
    exact ⟨hg.1.2, hg.2⟩
  · rintro ⟨hat, hover⟩
    exact List.mem_map_of_mem (mem_overThreshold.2 ⟨⟨hf, hat⟩, hover⟩)

theorem applyEscalation_rows {a : IngestArgs} {threshold : Int} (ht : countThreshold a.policy = some threshold)
    (repo : Nat) (exclude : List Nat) (st : Store) : (applyEscalation a repo exclude st).2.findings.rows =
      st.findings.rows.map fun f =>
        if f.id ∈ (overThreshold threshold exclude (deferredFindings a.order repo st)).map (·.id) then setReopened f
        else f := by
  unfold applyEscalation
  rw [ht]
  exact rows_foldl_escalate ..

/-- Reopening a deferred finding leaves its rule with as many findings as before. -/
theorem liveCount_applyEscalation {a : IngestArgs} {threshold : Int} (ht : countThreshold a.policy = some threshold)
    (repo : Nat) (exclude : List Nat) (st : Store) (rule : String) :
    liveCount repo rule (applyEscalation a repo exclude st).2 = liveCount repo rule st := by
  unfold liveCount
  rw [applyEscalation_rows ht, List.countP_map]
  refine List.countP_congr fun f hf => ?_
  dsimp only [Function.comp]
  split
  · rename_i hswept
    have hlive := live_of_deferred ((mem_map_overThreshold hf).1 hswept).1.2
    show (f.repoId == repo && f.ruleId == rule && (setReopened f).live) = true ↔ _
    rw [hlive]
    rfl
  · rfl

/-- After the sweep every rule is settled exactly if the sweep reached every deferred finding of a rule over the
threshold. -/
theorem settled_applyEscalation_iff {a : IngestArgs} {threshold : Int} (ht : countThreshold a.policy = some threshold)
    {repo : Nat} {exclude : List Nat} {st : Store} :
    RulesSettled threshold repo (applyEscalation a repo exclude st).2 ↔
      ∀ rule, threshold < liveCount repo rule st → ∀ f ∈ st.findings.rows, f.repoId = repo → f.ruleId = rule →
        f.status ∈ deferredStatuses → f.id ∉ exclude ∧ threshold < deferredCount repo rule st := by
  unfold RulesSettled
  refine forall_congr' fun rule => ?_
  rw [liveCount_applyEscalation ht, applyEscalation_rows ht]
  constructor
  · intro h hover f hf hrepo hrule hdeferred
    have hnone := h.resolve_right (by omega)
    by_contra hkept
    subst hrule
    refine hnone f (List.mem_map.2 ⟨f, hf, if_neg fun hswept => hkept ?_⟩) hrepo rfl hdeferred
    exact ((mem_map_overThreshold hf).1 hswept).2
  · intro h
    by_cases hover : threshold < liveCount repo rule st
    · refine .inl fun f' hf' hrepo hrule => ?_
      obtain ⟨f, hf, rfl⟩ := List.mem_map.1 hf'
      split
      · exact show FindingStatus.open ∉ deferredStatuses by decide
      · rename_i hkept
        rw [if_neg hkept] at hrepo hrule
        intro hdeferred
        have hreached := h hover f hf hrepo hrule hdeferred
        exact hkept ((mem_map_overThreshold hf).2 ⟨⟨hrepo, hdeferred⟩, hreached.1, hrule.symm ▸ hreached.2⟩)
    · exact .inr (by omega)

end OpenFish.Findings
