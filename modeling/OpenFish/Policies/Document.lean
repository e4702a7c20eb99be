/-
The review policy (`services/review_policy.py`): its schema, what is checked beyond it, and the document that
`parse_document` builds.
-/
import OpenFish.Lib.Text
import OpenFish.Lib.Yaml

namespace OpenFish.Policies

open Lib
open Lib.Yaml (Coercions AtLeast Positive)

def levels : List String := ["blocking", "debt"]
def exceptionStatuses : List String := ["wontfix", "acknowledged"]
def prPolicies : List String := ["on_green", "always", "never"]
def curatorModes : List String := ["off", "bootstrap", "auto"]

/-! ## Schema -/

structure PolicyDefaults where
  autoReview : Bool := true
  maxFindingsPerRun : AtLeast 1 := ⟨50, by decide⟩
  prPolicy : String := "on_green"
  autoFix : Bool := false
  curator : String := "bootstrap"
  curatorMinIntervalSeconds : AtLeast 0 := ⟨3600, by decide⟩
  deriving DecidableEq

structure RulePolicy where
  id : String
  level : String := "debt"
  defaultDueDays : Option (AtLeast 0) := none
  autofix : Bool := false
  deriving DecidableEq

structure PolicyException where
  rule : String
  paths : List String := []
  reason : String := ""
  decidedBy : Option String := none
  due : Date
  status : String := "wontfix"
  deriving DecidableEq

structure PolicyEscalation where
  ruleNoiseThreshold : AtLeast 1 := ⟨3, by decide⟩
  ruleCountThreshold : AtLeast 1 := ⟨20, by decide⟩
  deriving DecidableEq

structure PolicyCheck where
  id : String
  command : String
  cwd : String := "."
  timeout : Option Positive := none
  deriving DecidableEq

/-- The part of a `PolicyDocument` that bears the policy. -/
structure Policy where
  version : Int := 1
  defaults : PolicyDefaults := {}
  rules : List RulePolicy := []
  exceptions : List PolicyException := []
  escalation : PolicyEscalation := {}
  checks : List PolicyCheck := []
  deriving DecidableEq

/-- `PolicyDocument`, with the annotations of the platform. -/
structure PolicyDocument extends Policy where
  policySource : String
  policyHash : String
  warnings : List String
  path : Option String

/-! ## Reading -/

def PolicyDefaults.fields : List String :=
  ["auto_review", "max_findings_per_run", "pr_policy", "auto_fix", "curator", "curator_min_interval_seconds"]

def RulePolicy.fields : List String := ["id", "level", "default_due_days", "autofix"]

def PolicyException.fields : List String := ["rule", "paths", "reason", "decided_by", "due", "status"]

def PolicyEscalation.fields : List String := ["rule_noise_threshold", "rule_count_threshold"]

def PolicyCheck.fields : List String := ["id", "command", "cwd", "timeout"]

/-- The fields of a document that are always dumped. -/
def Policy.fields : List String := ["version", "defaults", "rules", "exceptions", "escalation"]

section Validate

variable (c : Coercions)

def PolicyDefaults.validate (v : Yaml) : Option PolicyDefaults :=
  v.entries?.bind fun es =>
    if Yaml.known PolicyDefaults.fields es then
      let d : PolicyDefaults := {}
      (Yaml.field es "auto_review" c.bool d.autoReview).bind fun autoReview =>
      (Yaml.field es "max_findings_per_run" (c.atLeast 1) d.maxFindingsPerRun).bind fun maxFindingsPerRun =>
      (Yaml.field es "pr_policy" c.str d.prPolicy).bind fun prPolicy =>
      (Yaml.field es "auto_fix" c.bool d.autoFix).bind fun autoFix =>
      (Yaml.field es "curator" c.str d.curator).bind fun curator =>
      (Yaml.field es "curator_min_interval_seconds" (c.atLeast 0) d.curatorMinIntervalSeconds).map fun interval =>
        ⟨autoReview, maxFindingsPerRun, prPolicy, autoFix, curator, interval⟩
    else none

def RulePolicy.validate (v : Yaml) : Option RulePolicy :=
  v.entries?.bind fun es =>
    if Yaml.known RulePolicy.fields es then
      (Yaml.required es "id" c.str).bind fun id =>
      (Yaml.field es "level" c.str "debt").bind fun level =>
      (Yaml.field es "default_due_days" (Yaml.optional (c.atLeast 0)) none).bind fun defaultDueDays =>
      (Yaml.field es "autofix" c.bool false).map fun autofix => ⟨id, level, defaultDueDays, autofix⟩
    else none

def PolicyException.validate (v : Yaml) : Option PolicyException :=
  v.entries?.bind fun es =>
    if Yaml.known PolicyException.fields es then
      (Yaml.required es "rule" c.str).bind fun rule =>
      (Yaml.field es "paths" (c.listOf c.str) []).bind fun paths =>
      (Yaml.field es "reason" c.str "").bind fun reason =>
      (Yaml.field es "decided_by" (Yaml.optional c.str) none).bind fun decidedBy =>
      (Yaml.required es "due" c.date).bind fun due =>
      (Yaml.field es "status" c.str "wontfix").map fun status => ⟨rule, paths, reason, decidedBy, due, status⟩
    else none

def PolicyEscalation.validate (v : Yaml) : Option PolicyEscalation :=
  v.entries?.bind fun es =>
    if Yaml.known PolicyEscalation.fields es then
      let d : PolicyEscalation := {}
      (Yaml.field es "rule_noise_threshold" (c.atLeast 1) d.ruleNoiseThreshold).bind fun noise =>
      (Yaml.field es "rule_count_threshold" (c.atLeast 1) d.ruleCountThreshold).map fun count => ⟨noise, count⟩
    else none

def PolicyCheck.validate (v : Yaml) : Option PolicyCheck :=
  v.entries?.bind fun es =>
    if Yaml.known PolicyCheck.fields es then
      (Yaml.required es "id" c.str).bind fun id =>
      (Yaml.required es "command" c.str).bind fun command =>
      (Yaml.field es "cwd" c.str ".").bind fun cwd =>
      (Yaml.field es "timeout" (Yaml.optional c.positive) none).map fun timeout => ⟨id, command, cwd, timeout⟩
    else none

/-- The annotations may stand in a file too; they are read and then overwritten. -/
def annotated (es : List (Yaml × Yaml)) : Bool :=
  (Yaml.field es "policy_source" c.str "file").isSome && (Yaml.field es "policy_hash" c.str "").isSome &&
    (Yaml.field es "warnings" (c.listOf c.str) []).isSome && (Yaml.field es "path" (Yaml.optional c.str) none).isSome

/-- `PolicyDocument.model_validate`. -/
def Policy.validate (es : List (Yaml × Yaml)) : Option Policy :=
  if Yaml.known (Policy.fields ++ ["checks", "policy_source", "policy_hash", "warnings", "path"]) es && annotated c es then
    (Yaml.field es "version" c.int 1).bind fun version =>
    (Yaml.field es "defaults" (PolicyDefaults.validate c) {}).bind fun defaults =>
    (Yaml.field es "rules" (c.listOf (RulePolicy.validate c)) []).bind fun rules =>
    (Yaml.field es "exceptions" (c.listOf (PolicyException.validate c)) []).bind fun exceptions =>
    (Yaml.field es "escalation" (PolicyEscalation.validate c) {}).bind fun escalation =>
    (Yaml.field es "checks" (c.listOf (PolicyCheck.validate c)) []).map fun checks =>
      ⟨version, defaults, rules, exceptions, escalation, checks⟩
  else none

end Validate

/-! ## Beyond the schema -/

/-- `PolicyValidationError`: the schema's refusal, whose text is the validator's, or one of this module's. -/
inductive PolicyError
  | schema
  | yaml
  | violation (message : String)
  deriving DecidableEq, Repr

/-- `expected one of …`. -/
def expected (names : List String) : String := "; expected one of " ++ ", ".intercalate names

def checkDefaults (d : PolicyDefaults) : Except PolicyError Unit :=
  if d.prPolicy ∉ prPolicies then .error (.violation ("defaults.pr_policy=" ++ d.prPolicy ++ expected prPolicies))
  else if d.curator ∉ curatorModes then
    .error (.violation ("defaults.curator=" ++ d.curator ++ expected curatorModes))
  else .ok ()

def checkException (today : Date) (index : Nat) (e : PolicyException) : Except PolicyError Unit :=
  let place := "exceptions[" ++ toString index ++ "] (" ++ e.rule ++ ")"
  if e.due.le today then
    .error (.violation (place ++ " has due=" ++ e.due.isoformat ++ ", which is not after today (" ++ today.isoformat ++ ")"))
  else if e.status ∉ exceptionStatuses then
    .error (.violation (place ++ " has status=" ++ e.status ++ expected exceptionStatuses))
  else .ok ()

/-- The exceptions are checked in order; one about a rule that the policy does not have is a warning. -/
def checkExceptions (today : Date) (known : List String) : Nat → List PolicyException → Except PolicyError (List String)
  | _, [] => .ok []
  | index, e :: es =>
    match checkException today index e with
    | .error err => .error err
    | .ok _ =>
      (checkExceptions today known (index + 1) es).map fun warnings =>
        (if e.rule ∈ known then []
        else ["exceptions[" ++ toString index ++ "] references rule " ++ e.rule ++ ", which this policy does not define " ++
          "(unknown rule — the exception is inert until the rule exists)"]) ++ warnings

def checkRules : List String → List RulePolicy → Except PolicyError Unit
  | _, [] => .ok ()
  | seen, r :: rs =>
    if r.id ∈ seen then .error (.violation ("rules declares " ++ r.id ++ " more than once"))
    else if r.level ∉ levels then .error (.violation ("rules[" ++ r.id ++ "].level=" ++ r.level ++ expected levels))
    else checkRules (seen ++ [r.id]) rs

def checkChecks : Nat → List String → List PolicyCheck → Except PolicyError Unit
  | _, _, [] => .ok ()
  | index, seen, k :: ks =>
    if Text.blank k.id = true then .error (.violation ("checks[" ++ toString index ++ "] has an empty id"))
    else if k.id ∈ seen then .error (.violation ("checks declares " ++ k.id ++ " more than once"))
    else if Text.blank k.command = true then .error (.violation ("checks[" ++ k.id ++ "].command is empty"))
    else checkChecks (index + 1) (seen ++ [k.id]) ks

/-- `validate_document`: the warnings. -/
def validateDocument (today : Date) (p : Policy) : Except PolicyError (List String) :=
  match checkDefaults p.defaults with
  | .error err => .error err
  | .ok _ =>
    match checkExceptions today (p.rules.map (·.id)) 0 p.exceptions with
    | .error err => .error err
    | .ok warnings =>
      match checkRules [] p.rules with
      | .error err => .error err
      | .ok _ => (checkChecks 0 [] p.checks).map fun _ => warnings

/-- `parse_document`, with the hash of a policy. -/
def parseDocument (c : Coercions) (hash : Policy → String) (today : Date) (source : String) (path : Option String)
    (raw : List (Yaml × Yaml)) : Except PolicyError PolicyDocument :=
  match Policy.validate c raw with
  | none => .error .schema
  | some p =>
    (validateDocument today p).map fun warnings =>
      { p with policySource := source, policyHash := hash p, warnings, path }

theorem parseDocument_ok {c : Coercions} {hash : Policy → String} {today : Date} {source : String} {path : Option String}
    {raw : List (Yaml × Yaml)} {d : PolicyDocument} :
    parseDocument c hash today source path raw = .ok d ↔
      Policy.validate c raw = some d.toPolicy ∧ validateDocument today d.toPolicy = .ok d.warnings ∧
        d.policySource = source ∧ d.policyHash = hash d.toPolicy ∧ d.path = path := by
  unfold parseDocument
  cases hp : Policy.validate c raw with
  | none => simp
  | some p =>
    dsimp only
    cases hw : validateDocument today p with
    | error err =>
      simp only [Except.map, reduceCtorEq, Option.some.injEq, false_iff]
      rintro ⟨rfl, hok, -⟩
      rw [hw] at hok
      cases hok
    | ok warnings =>
      obtain ⟨q, s, h, w, path'⟩ := d
      simp only [Except.map, Except.ok.injEq, PolicyDocument.mk.injEq, Option.some.injEq]
      constructor
      · rintro ⟨rfl, rfl, rfl, rfl, rfl⟩
        exact ⟨rfl, hw, rfl, rfl, rfl⟩
      · rintro ⟨rfl, hok, rfl, rfl, rfl⟩
        rw [hw] at hok
        cases hok
        exact ⟨rfl, rfl, rfl, rfl, rfl⟩

end OpenFish.Policies
