/-
Which issue events queue a fix: those that are not about an end and that find the label on the issue, or in the places
that `parse_event` reads where the issue has none.
-/
import OpenFish.Webhook.Event

namespace OpenFish.Webhook

open Lib

section Labels

variable (render : Json → String)

/-- The header names an issue event. -/
def isIssues (eventName : String) : Prop :=
  Text.lower (Text.strip (Text.partition ',' eventName).1) ∈ ["issues", "issue"]

instance (eventName : String) : Decidable (isIssues eventName) := inferInstanceAs (Decidable (_ ∈ _))

/-- The action of a payload, as it is compared. -/
def actionOf (payload : Payload) : String := Text.lower (Text.strip ((Json.get payload "action").textOr render))

/-- The issue is closed or deleted. -/
def ends (payload : Payload) : Bool := actionOf render payload ∈ ["closed", "deleted"]

def isAgent (name : String) : Bool := Text.lower name = agentLabel

/-- The issue of a payload. -/
def issueOf (payload : Payload) : Payload := (Json.get payload "issue").entries?.getD []

/-- The labels in `payload["labels"]`. -/
def listed (payload : Payload) : List String := ((Json.get payload "labels").items?.getD []).filterMap (labelName render)

/-- The label in `payload["label"]`. -/
def single (payload : Payload) : Option String := labelName render (Json.get payload "label")

/-- The issue carries the label, in the payload's `issue.labels`. -/
def carried (payload : Payload) : Bool := (listed render (issueOf payload)).any isAgent

/-- The label is named where an issue's labels do not stand: in a `label` of the issue, or, for an issue that names none,
in the `labels` or the `label` of the event itself. -/
def namedElsewhere (payload : Payload) : Bool :=
  (single render (issueOf payload)).any isAgent ||
    ((listed render (issueOf payload)).isEmpty && (single render (issueOf payload)).isNone &&
      ((listed render payload).any isAgent || (single render payload).any isAgent))

theorem mem_labelsOf {payload : Payload} {name : String} :
    name ∈ labelsOf render payload ↔ name ∈ listed render payload ∨ single render payload = some name := by
  rw [labelsOf, List.mem_eraseDups, List.mem_append, Option.mem_toList]
  rfl

theorem labelsOf_any (payload : Payload) :
    (labelsOf render payload).any isAgent = ((listed render payload).any isAgent || (single render payload).any isAgent) := by
  rw [Bool.eq_iff_iff, Bool.or_eq_true, List.any_eq_true, List.any_eq_true, Option.any_eq_true]
  constructor
  · rintro ⟨name, hname, hagent⟩
    rcases (mem_labelsOf render).1 hname with h | h
    · exact Or.inl ⟨name, h, hagent⟩
    · exact Or.inr ⟨name, h, hagent⟩
  · rintro (⟨name, h, hagent⟩ | ⟨name, h, hagent⟩)
    · exact ⟨name, (mem_labelsOf render).2 (Or.inl h), hagent⟩
    · exact ⟨name, (mem_labelsOf render).2 (Or.inr h), hagent⟩

theorem labelsOf_eq_nil {payload : Payload} :
    labelsOf render payload = [] ↔ listed render payload = [] ∧ single render payload = none := by
  rw [List.eq_nil_iff_forall_not_mem, List.eq_nil_iff_forall_not_mem, Option.eq_none_iff_forall_ne_some]
  simp only [mem_labelsOf, not_or, forall_and, ne_eq]

/-- The label is found on the issue, or elsewhere. -/
theorem hasAgentLabel_issuesEvent (payload : Payload) :
    (issuesEvent render payload).hasAgentLabel = (carried render payload || namedElsewhere render payload) := by
  have hany : (issuesEvent render payload).hasAgentLabel = (issuesEvent render payload).labels.any isAgent := by
    rw [WebhookEvent.hasAgentLabel, Bool.eq_iff_iff, decide_eq_true_iff, List.mem_map, List.any_eq_true]
    simp [isAgent]
  rw [hany, issuesEvent, carried, namedElsewhere, ← issueOf]
  by_cases hnone : labelsOf render (issueOf payload) = []
  · obtain ⟨hlisted, hsingle⟩ := (labelsOf_eq_nil render).1 hnone
    simp only [if_pos hnone, labelsOf_any, hlisted, hsingle]
    rfl
  · simp only [if_neg hnone, labelsOf_any]
    have hempty : ((listed render (issueOf payload)).isEmpty && (single render (issueOf payload)).isNone) = false := by
      rw [Bool.eq_false_iff]
      intro h
      rw [Bool.and_eq_true, List.isEmpty_iff, Option.isNone_iff_eq_none] at h
      exact hnone ((labelsOf_eq_nil render).2 h)
    rw [hempty, Bool.false_and, Bool.or_false]

/-- A fix is planned for an issue that has not ended and whose event finds the label. -/
theorem plans_fix_iff {eventName : String} (hname : isIssues eventName) (payload : Payload) (repoId : Nat)
    (autoReview : Bool) (curatorMode : String) (curatorAllowed : Bool) :
    (∃ action ∈ planActions render (parseEvent render eventName payload) repoId autoReview curatorMode curatorAllowed,
      action.kind = "fix") ↔
      ends render payload = false ∧ (carried render payload || namedElsewhere render payload) = true := by
  have hpush : Text.lower (Text.strip (Text.partition ',' eventName).1) ≠ "push" := by
    unfold isIssues at hname
    rintro heq
    rw [heq] at hname
    exact absurd hname (by decide)
  have hends : (issuesEvent render payload).action ∈ ["closed", "deleted"] ↔ ends render payload = true := by
    have hcommon : (commonEvent render payload .issues).action = actionOf render payload := rfl
    rw [ends, decide_eq_true_iff]
    by_cases hnone : actionOf render payload = ""
    · have haction : (issuesEvent render payload).action = "opened" := by
        simp only [issuesEvent, hcommon, hnone, if_true]
      rw [haction, hnone]
      decide
    · have haction : (issuesEvent render payload).action = actionOf render payload := by
        simp only [issuesEvent, hcommon, if_neg hnone]
      rw [haction]
  have hissues : Text.lower (Text.strip (Text.partition ',' eventName).1) ∈ ["issues", "issue"] := hname
  rw [parseEvent, if_neg hpush, if_pos hissues]
  show (∃ action ∈ (if (issuesEvent render payload).hasAgentLabel = false ∨
    (issuesEvent render payload).action ∈ ["closed", "deleted"] then []
    else [fixAction (issuesEvent render payload) repoId]), action.kind = "fix") ↔ _
  simp only [hasAgentLabel_issuesEvent, hends]
  split
  · rename_i hnot
    simp only [List.not_mem_nil, false_and, exists_false, false_iff]
    rintro ⟨hopen, hlabel⟩
    rcases hnot with hnot | hnot
    · rw [hlabel] at hnot; cases hnot
    · rw [hopen] at hnot; cases hnot
  · rename_i hnot
    rw [not_or, Bool.not_eq_false, Bool.not_eq_true] at hnot
    exact ⟨fun _ => hnot.symm, fun _ => ⟨_, List.mem_singleton.2 rfl, rfl⟩⟩

/-- Only a labelled issue queues a fix, exactly where the event does not name the label elsewhere, or it makes no
difference. -/
theorem fix_iff_labelled (render : Json → String) (eventName : String) (hname : isIssues eventName) (payload : Payload)
    (repoId : Nat) (autoReview : Bool) (curatorMode : String) (curatorAllowed : Bool) :
    ((∃ action ∈ planActions render (parseEvent render eventName payload) repoId autoReview curatorMode curatorAllowed,
        action.kind = "fix") ↔
      ends render payload = false ∧ carried render payload = true) ↔
      (namedElsewhere render payload = true → ends render payload = true ∨ carried render payload = true) := by
  rw [plans_fix_iff render hname]
  cases ends render payload <;> cases carried render payload <;> cases namedElsewhere render payload <;> simp

/-- The label has been taken off, and the event says which it was. -/
def unlabeled : Payload :=
  [("action", .str "unlabeled"), ("issue", .obj [("number", .int 7), ("labels", .arr [])]),
    ("label", .obj [("name", .str "agent")])]

theorem unlabeled_queues_fix :
    ¬ ∀ (render : Json → String) (payload : Payload) (repoId : Nat) (autoReview : Bool) (curatorMode : String)
      (curatorAllowed : Bool),
      (∃ action ∈ planActions render (parseEvent render "issues" payload) repoId autoReview curatorMode curatorAllowed,
          action.kind = "fix") ↔
        ends render payload = false ∧ carried render payload = true := by
  intro h
  have hplan := h (fun _ => "") unlabeled 1 true "off" false
  rw [plans_fix_iff _ (by decide)] at hplan
  revert hplan
  decide +kernel

end Labels

theorem fix_iff_labelled_opened :
    (∃ action ∈ planActions (fun _ => "") (parseEvent (fun _ => "") "issues"
        [("action", .str "opened"), ("issue", .obj [("labels", .arr [.str "Agent"])])]) 1 true "off" false,
        action.kind = "fix") ↔
      ends (fun _ => "") [("action", .str "opened"), ("issue", .obj [("labels", .arr [.str "Agent"])])] = false ∧
        carried (fun _ => "") [("action", .str "opened"), ("issue", .obj [("labels", .arr [.str "Agent"])])] = true :=
  (fix_iff_labelled (fun _ => "") "issues" (by decide +kernel) _ 1 true "off" false).2 fun h => by cases h

end OpenFish.Webhook
