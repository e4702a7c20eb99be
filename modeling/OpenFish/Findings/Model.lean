/-
The findings of `services/findings.py`: the tables a session works on, and `ingest`, `decide` and
`rule_quality_watch` as functions on them, with the §6.2 activation conditions, under the source's
names in camel case.

A function that raises returns the error and the tables as they stand at that point of the session;
what becomes of them is the caller's transaction. The digest of `fingerprint` and the read-only git
probe are parameters.
-/
import OpenFish.Lib.Machine
import OpenFish.Lib.Table
import OpenFish.Lib.Text
import Mathlib.Data.List.Dedup
import Mathlib.Data.List.Sort

namespace OpenFish.Findings

open Lib

/-- An instant or a duration, in microseconds. -/
abbrev Time := Int

/-- A calendar day, counted from the epoch. -/
abbrev Date := Int

/-- The day of an instant. -/
def dateOf (t : Time) : Date := t / 86400000000

/-! ## Rows -/

inductive FindingStatus
  | «open» | acknowledged | wontfix | fixed | stale
  deriving DecidableEq, Repr

inductive FindingLevel
  | blocking | debt
  deriving DecidableEq, Repr

/-- `FINDING_SEVERITY`. -/
inductive Severity
  | low | medium | high | critical
  deriving DecidableEq, Repr

/-- `_SEVERITY_RANK`. -/
def Severity.rank : Severity → Nat
  | .low => 0
  | .medium => 1
  | .high => 2
  | .critical => 3

/-- The statuses that defer a finding. -/
def deferredStatuses : List FindingStatus := [.acknowledged, .wontfix]

def reasonFalsePositive : String := "false_positive"
def reasonAccepted : String := "accepted"
def reasonWontfix : String := "wontfix"
def reasonDrift : String := "code_drift"
def reasonDue : String := "due"
def reasonEscalation : String := "escalation"
def reasonMatched : String := "matched"

def ruleQualityRuleId : String := "meta.rule-quality"

def ruleQualityWindowDays : Int := 30

def ruleQualitySymbol : String := "review-policy.rules"

def policyEntryPath : String := ".agent/review-policy.yml"

/-- A row of `findings`. -/
structure Finding where
  id : Nat
  repoId : Nat
  fingerprint : String
  ruleId : String
  level : FindingLevel
  severity : Severity
  status : FindingStatus
  filePath : String
  symbol : String
  lineHint : Option Int
  title : String
  detail : String
  firstSeenRunId : Option Nat
  lastSeenRunId : Option Nat
  seenCount : Nat
  owner : Option String := none
  due : Option Date := none
  decidedBy : Option String := none
  decidedAt : Option Time := none
  deriving DecidableEq, Repr

instance : Keyed Finding := ⟨Finding.id⟩

@[simp] theorem key_finding (f : Finding) : key f = f.id := rfl

/-- A row of `finding_events`. -/
structure FindingEvent where
  id : Nat
  findingId : Nat
  at_ : Time
  actor : String
  fromStatus : Option FindingStatus
  toStatus : FindingStatus
  reason : String
  runId : Option Nat
  deriving DecidableEq, Repr

instance : Keyed FindingEvent := ⟨FindingEvent.id⟩

@[simp] theorem key_findingEvent (e : FindingEvent) : key e = e.id := rfl

/-- A row of `finding_evidence`. -/
structure FindingEvidence where
  findingId : Nat
  repoIssueId : Nat
  relation : String
  deriving DecidableEq, Repr

/-- A row of `review_runs`: the columns `ingest` reads and writes. -/
structure ReviewRun where
  id : Nat
  findingsNew : Nat
  findingsMatched : Nat
  deriving DecidableEq, Repr

instance : Keyed ReviewRun := ⟨ReviewRun.id⟩

/-- A row of `repos`. -/
structure Repo where
  id : Nat
  slug : String
  deriving DecidableEq, Repr

/-- The tables. -/
structure Store where
  findings : Table Finding
  events : Table FindingEvent
  evidence : List FindingEvidence
  runs : Table ReviewRun
  repos : List Repo

/-- What is raised. -/
inductive FindingsError
  | notFound (findingId : Nat)
  | decisionInvalid (message : String)
  | findings (message : String)
  | value (message : String)
  | drift (message : String)
  deriving DecidableEq, Repr

/-! ## The session -/

/-- `session.get(models.Finding, id)`. -/
def Store.finding? (st : Store) (id : Nat) : Option Finding := st.findings.get? id

/-- The finding of a repository with a fingerprint (the pair is unique). -/
def Store.byFingerprint (st : Store) (repo : Nat) (digest : String) : Option Finding :=
  st.findings.rows.find? fun f => f.repoId == repo && f.fingerprint == digest

/-- Attributes assigned on a loaded finding. -/
def Store.assign (st : Store) (id : Nat) (f : Finding → Finding) (hf : ∀ r, key (f r) = key r) : Store :=
  { st with findings := st.findings.update (·.id == id) f hf }

/-- `session.add(finding)`, flushed. -/
def Store.addFinding (st : Store) (mk : Nat → Finding) (hmk : ∀ k, key (mk k) = k) : Store :=
  { st with findings := st.findings.insert mk hmk }

/-- The event of one transition, but for its id. -/
structure Transition where
  findingId : Nat
  at_ : Time
  actor : String
  fromStatus : Option FindingStatus
  toStatus : FindingStatus
  reason : String
  runId : Option Nat

/-- The row of a transition. -/
def Transition.event (t : Transition) (id : Nat) : FindingEvent :=
  ⟨id, t.findingId, t.at_, t.actor, t.fromStatus, t.toStatus, t.reason, t.runId⟩

def Store.recordEvent (st : Store) (t : Transition) : Store :=
  { st with events := st.events.insert t.event fun _ => rfl }

/-- The events of one finding by id ascending (the rows stand in the order of their ids). -/
def Store.eventsFor (st : Store) (findingId : Nat) : List FindingEvent :=
  st.events.rows.filter fun e => e.findingId == findingId

/-! ## Fingerprint -/

def fingerprintInput (ruleId filePath symbol contextKey : String) : String :=
  String.intercalate "\x00" [ruleId, filePath, symbol, contextKey]

/-- `fingerprint`: the digest of the canonical string. -/
def fingerprint (sha256 : String → String) (ruleId filePath symbol contextKey : String) : String :=
  sha256 (fingerprintInput ruleId filePath symbol contextKey)

/-! ## Code drift -/

abbrev Ranges := List (Int × Int)

/-- A line interval a symbol occupies in a file. -/
structure SymbolRange where
  path : String
  symbol : String
  start : Int
  stop : Int
  deriving DecidableEq, Repr

/-- What condition 1 needs once git has answered. -/
structure DriftContext where
  symbol : Option SymbolRange := none
  changed : Ranges := []
  detail : String := ""
  deriving DecidableEq, Repr

def rangesIntersect (left right : Int × Int) : Bool :=
  decide (min left.1 left.2 ≤ max right.1 right.2) && decide (min right.1 right.2 ≤ max left.1 left.2)

def SymbolRange.overlaps (s : SymbolRange) (ranges : Ranges) : Bool :=
  ranges.any fun item => rangesIntersect (s.start, s.stop) item

/-- `drift_adapter.drift_context` of a path, a symbol, a base and a head; it may raise `DriftError`. -/
abbrev DriftAdapter := String → String → String → String → Except String DriftContext

/-! ## Activation -/

structure ReactivationContext where
  today : Option Date := none
  drift : Option DriftContext := none
  driftAdapter : Option DriftAdapter := none
  base : Option String := none
  head : Option String := none
  ruleOpenCount : Option Nat := none
  ruleThreshold : Option Int := none
  previousSeverity : Option Severity := none
  currentSeverity : Option Severity := none
  stopReason : Option String := none

/-- `bool(s)` of an optional string. -/
def truthy (s : Option String) : Bool := s.any (· ≠ "")

def severityRaised (previous current : Option Severity) : Bool :=
  match previous, current with
  | some p, some c => decide (p.rank < c.rank)
  | _, _ => false

/-- `_drift_reason`: condition 1. -/
def driftReason (f : Finding) (ctx : ReactivationContext) : Except FindingsError (Option String) := do
  if truthy ctx.stopReason then return none
  let drift ← match ctx.drift, ctx.driftAdapter, ctx.base, ctx.head with
    | some d, _, _, _ => pure (some d)
    | none, some adapter, some base, some head =>
      if base = "" ∨ head = "" then pure none
      else ((adapter f.filePath f.symbol base head).mapError .drift).map some
    | none, _, _, _ => pure none
  match drift with
  | none => return none
  | some d =>
    match d.symbol with
    | some anchor => return if anchor.overlaps d.changed then some reasonDrift else none
    | none => return none

/-- `should_reactivate`: the three conditions of §6.2 in their order, at a clock reading. -/
def shouldReactivate (f : Finding) (ctx : ReactivationContext) (now : Time) :
    Except FindingsError (Option String) := do
  if severityRaised ctx.previousSeverity ctx.currentSeverity then return some reasonEscalation
  match ctx.ruleThreshold, ctx.ruleOpenCount with
  | some threshold, some count => if threshold < count then return some reasonEscalation
  | _, _ => pure ()
  if (← driftReason f ctx).isSome then return some reasonDrift
  match f.due with
  | some due =>
    if !truthy ctx.stopReason ∧ due ≤ ctx.today.getD (dateOf now) then return some reasonDue
  | none => pure ()
  return none

end OpenFish.Findings
