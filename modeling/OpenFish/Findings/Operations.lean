/-
`ingest`, `decide` and `rule_quality_watch` of `services/findings.py`, and the machine they make.
-/
import OpenFish.Findings.Model

namespace OpenFish.Findings

open Lib

/-! ## Deciding -/

/-- `DECISION_ACTIONS`. -/
inductive DecisionAction
  | fix | fixed | acknowledge | wontfix | falsePositive
  deriving DecidableEq, Repr

/-- `action in DECISION_ACTIONS`. -/
def DecisionAction.ofString? : String → Option DecisionAction
  | "fix" => some .fix
  | "fixed" => some .fixed
  | "acknowledge" => some .acknowledge
  | "wontfix" => some .wontfix
  | "false_positive" => some .falsePositive
  | _ => none

def DecisionAction.value : DecisionAction → String
  | .fix => "fix"
  | .fixed => "fixed"
  | .acknowledge => "acknowledge"
  | .wontfix => "wontfix"
  | .falsePositive => "false_positive"

def deferActions : DecisionAction → Option FindingStatus
  | .acknowledge => some .acknowledged
  | .wontfix => some .wontfix
  | _ => none

/-- The arguments of `decide`, and the clock it reads when no `now` is given. -/
structure DecideArgs where
  findingId : Nat
  action : String
  actor : String
  owner : Option String := none
  due : Option Date := none
  reason : Option String := none
  runId : Option Nat := none
  confirmedBy : Option String := none
  now : Option Time := none
  clock : Time := 0

/-- `str(actor or "").strip() or "unknown"`. -/
def DecideArgs.decider (a : DecideArgs) : String :=
  if Text.strip a.actor = "" then "unknown" else Text.strip a.actor

/-- `reason or default`. -/
def orElse (reason : Option String) (default : String) : String :=
  match reason with
  | some r => if r = "" then default else r
  | none => default

/-- `(owner or "").strip()`. -/
def ownerText (owner : Option String) : String := Text.strip (owner.getD "")

/-- `_require_debt_fields`: the fields a deferral lacks. -/
def missingDebtFields (owner : Option String) (due : Option Date) : List String :=
  (if ownerText owner = "" then ["owner"] else []) ++ (if due.isNone then ["due"] else [])

def requireDebtFields (action : DecisionAction) (owner : Option String) (due : Option Date) :
    Except FindingsError Unit :=
  match missingDebtFields owner due with
  | [] => .ok ()
  | missing =>
    let fields := String.intercalate " and " missing
    .error (.decisionInvalid s!"action {action.value} requires {fields} (invariant I2)")

/-- The second confirmation a false positive needs on the fixing branch. -/
def requireSecondPerson (a : DecideArgs) : Except FindingsError Unit :=
  if !truthy a.confirmedBy then
    .error (.decisionInvalid
      "a false positive needs a second confirmation (finding:decide by someone other than the proposer)")
  else if Text.strip (a.confirmedBy.getD "") = a.decider then
    .error (.decisionInvalid "the second confirmation must come from another account")
  else .ok ()

/-- The migration table of `decide`: the status and the reason a decision leads to, or its refusal. -/
def migration (a : DecideArgs) (finding : Finding) : Except FindingsError (FindingStatus × String) :=
  let action := Text.lower (Text.strip a.action)
  match DecisionAction.ofString? action with
  | none =>
    .error (.decisionInvalid
      s!"unknown action {action}; expected one of fix, fixed, acknowledge, wontfix, false_positive")
  | some action =>
    match deferActions action with
    | some to_ =>
      if finding.level = .blocking then
        .error (.decisionInvalid (s!"a blocking finding cannot be {action.value} (invariant I3); " ++
          "fix it, or record a confirmed false positive"))
      else
        match requireDebtFields action a.owner a.due with
        | .error e => .error e
        | .ok () =>
          if finding.status = .fixed then
            .error (.decisionInvalid ("a fixed finding cannot go back to a deferred state; open it " ++
              "again through the review run that still matches it"))
          else .ok (to_, orElse a.reason (if to_ = .wontfix then reasonWontfix else reasonAccepted))
    | none =>
      if action = .fixed ∨ action = .fix then
        let reason := orElse a.reason reasonAccepted
        if reason = reasonFalsePositive then
          match requireSecondPerson a with
          | .error e => .error e
          | .ok () => .ok (.fixed, reason)
        else .ok (.fixed, reason)
      else .error (.decisionInvalid s!"unknown action {action.value}")

def setDecided (a : DecideArgs) (to_ : FindingStatus) (f : Finding) : Finding :=
  let f := if to_ ∈ deferredStatuses then { f with owner := some (ownerText a.owner), due := a.due } else f
  { f with status := to_, decidedBy := some a.decider, decidedAt := some (a.now.getD a.clock) }

theorem setDecided_id (a : DecideArgs) (to_ : FindingStatus) (f : Finding) : (setDecided a to_ f).id = f.id := by
  unfold setDecided; dsimp only; split <;> rfl

structure Decided where
  finding : Finding
  fromStatus : FindingStatus
  toStatus : FindingStatus
  reason : String
  deriving DecidableEq, Repr

protected def decide (a : DecideArgs) (st : Store) : Except FindingsError Decided × Store :=
  match st.finding? a.findingId with
  | none => (.error (.notFound a.findingId), st)
  | some finding =>
    match migration a finding with
    | .error e => (.error e, st)
    | .ok (to_, reason) =>
      let st' := (st.assign finding.id (setDecided a to_) (setDecided_id a to_)).recordEvent
        { findingId := finding.id, at_ := a.now.getD a.clock, actor := a.decider, fromStatus := some finding.status,
          toStatus := to_, reason := reason, runId := a.runId }
      (.ok ⟨setDecided a to_ finding, finding.status, to_, reason⟩, st')

/-! ## Ingesting -/

/-- A value of an entry as `ingest` looks at it: its text, and whether it counts as true. -/
structure Value where
  text : String
  truthy : Bool := text ≠ ""

def text (v : Option Value) (fallback : String) : String := (v.map (·.text)).getD fallback

/-- An evidence link of an entry. -/
structure EvidenceRow where
  relation : Option Value := none
  repoIssueId : Option Nat := none

/-- One entry of a batch; `lineHint` is `none` where the key is absent. -/
structure Entry where
  ruleId : Option Value
  filePath : Option Value
  symbol : Option Value
  contextKey : Option Value := none
  level : Option Value := none
  severity : Option Value := none
  lineHint : Option (Option Int) := none
  title : Option Value := none
  detail : Option Value := none
  evidence : List EvidenceRow := []

def normalizeLevel (v : Option Value) : Except FindingsError FindingLevel :=
  let value := text v "None"
  match Text.lower (Text.strip (text v "debt")) with
  | "blocking" => .ok .blocking
  | "debt" => .ok .debt
  | _ => .error (.value s!"level must be one of ('blocking', 'debt'), got {value}")

def normalizeSeverity (v : Option Value) : Severity :=
  match Text.lower (Text.strip (text v "medium")) with
  | "low" => .low
  | "high" => .high
  | "critical" => .critical
  | _ => .medium

/-- `policy.escalation`: the two thresholds. -/
structure Escalation where
  ruleNoiseThreshold : Option Int := none
  ruleCountThreshold : Option Int := none

/-- The parts of a policy that are read here. -/
structure Policy where
  escalation : Option Escalation := none
  ruleNoiseThreshold : Option Int := none

def countThreshold (policy : Option Policy) : Option Int :=
  policy.bind fun p => p.escalation.bind (·.ruleCountThreshold)

/-- A repository given by its id or by its slug. -/
inductive RepoRef
  | id (n : Nat)
  | slug (s : String)

def resolveRepoId (repos : List Repo) : RepoRef → Except FindingsError Nat
  | .id n => .ok n
  | .slug s =>
    -- a string of digits is an id
    if s ≠ "" ∧ s.toList.all Char.isDigit then .ok (s.toList.foldl (fun n c => 10 * n + (c.toNat - '0'.toNat)) 0)
    else
      match repos.find? (·.slug == s) with
      | some repo => .ok repo.id
      | none => .error (.findings s!"no repo with slug {s}")

/-- The arguments of `ingest`. `clock n` is the clock reading while entry `n` is folded in, and
`order` the order in which the sweep's unordered query happens to return rows, by their ids. -/
structure IngestArgs where
  repo : RepoRef
  runId : Option Nat
  driftAdapter : Option DriftAdapter := none
  base : Option String := none
  head : Option String := none
  drift : Option DriftContext := none
  today : Option Date := none
  policy : Option Policy := none
  clock : Nat → Time
  order : List Nat := []

/-- What `ingest` counts, and the findings it has seen. -/
structure Tally where
  created : Nat := 0
  matched : Nat := 0
  reactivated : Nat := 0
  seenIds : List Nat := []
  deriving DecidableEq, Repr

/-- The links `_attach_evidence` adds, given what is linked already. -/
def newLinks (findingId : Nat) : List EvidenceRow → List (Nat × String) → List FindingEvidence
  | [], _ => []
  | row :: rows, linked =>
    let named := text row.relation "mentions"
    let relation := if named ∈ ["mentions", "duplicate_of", "fixed_by"] then named else "mentions"
    match row.repoIssueId with
    | none => newLinks findingId rows linked
    | some issue =>
      if (issue, relation) ∈ linked then newLinks findingId rows linked
      else ⟨findingId, issue, relation⟩ :: newLinks findingId rows ((issue, relation) :: linked)

def attachEvidence (findingId : Nat) (rows : List EvidenceRow) (st : Store) : Nat × Store :=
  let linked := (st.evidence.filter (·.findingId == findingId)).map fun e => (e.repoIssueId, e.relation)
  let links := newLinks findingId rows linked
  (links.length, { st with evidence := st.evidence ++ links })

def reactivationContext (a : IngestArgs) (finding : Finding) (st : Store) : ReactivationContext where
  today := a.today
  drift := a.drift
  driftAdapter := a.driftAdapter
  base := a.base
  head := a.head
  ruleOpenCount := some (st.findings.rows.countP fun f =>
    f.repoId == finding.repoId && f.ruleId == finding.ruleId &&
      decide (f.status ∈ [FindingStatus.open, .acknowledged, .wontfix]))
  ruleThreshold := countThreshold a.policy

def newFinding (repo : Nat) (digest ruleId filePath symbol : String) (level : FindingLevel) (runId : Option Nat)
    (entry : Entry) (id : Nat) : Finding where
  id := id
  repoId := repo
  fingerprint := digest
  ruleId := ruleId
  level := level
  severity := normalizeSeverity entry.severity
  status := .open
  filePath := filePath
  symbol := symbol
  lineHint := entry.lineHint.join
  title := text entry.title ruleId
  detail := text entry.detail ""
  firstSeenRunId := runId
  lastSeenRunId := runId
  seenCount := 1

def setObserved (runId : Option Nat) (entry : Entry) (f : Finding) : Finding :=
  { f with
    lastSeenRunId := runId
    seenCount := f.seenCount + 1
    lineHint := entry.lineHint.getD f.lineHint
    title := if entry.title.any (·.truthy) then text entry.title "" else f.title
    detail := if entry.detail.any (·.truthy) then text entry.detail "" else f.detail }

def setOpen (f : Finding) : Finding := { f with status := .open }

/-- A finding put back to `open`, its deferral dropped. -/
def setReopened (f : Finding) : Finding := { f with status := .open, owner := none, due := none }

/-- The deduplication hit: the observation advances, and the finding is reopened if it is stale or
one of the activation conditions holds. -/
def matchEntry (a : IngestArgs) (entry : Entry) (existing : Finding) (t : Tally) (st : Store) :
    Except FindingsError Tally × Store :=
  let now := a.clock t.seenIds.length
  let t := { t with matched := t.matched + 1 }
  let st := st.assign existing.id (setObserved a.runId entry) fun _ => rfl
  let seen (t : Tally) : Tally := { t with seenIds := t.seenIds ++ [existing.id] }
  match existing.status with
  | .stale =>
    (.ok (seen { t with reactivated := t.reactivated + 1 }),
      (st.assign existing.id setOpen fun _ => rfl).recordEvent
        { findingId := existing.id, at_ := now, actor := "agent", fromStatus := some .stale, toStatus := .open,
          reason := reasonDrift, runId := a.runId })
  | .acknowledged | .wontfix =>
    match shouldReactivate existing (reactivationContext a existing st) now with
    -- the probe raised: the observation is in the session already
    | .error e => (.error e, st)
    | .ok none => (.ok (seen t), st)
    | .ok (some reason) =>
      (.ok (seen { t with reactivated := t.reactivated + 1 }),
        (st.assign existing.id setReopened fun _ => rfl).recordEvent
          { findingId := existing.id, at_ := now, actor := "system", fromStatus := some existing.status,
            toStatus := .open, reason := reason, runId := a.runId })
  -- an open or fixed finding keeps its status
  | _ => (.ok (seen t), st)

/-- One turn of the loop of `ingest`. -/
def ingestEntry (sha256 : String → String) (a : IngestArgs) (repo : Nat) (entry : Entry) (t : Tally) (st : Store) :
    Except FindingsError Tally × Store :=
  let ruleId := Text.strip (text entry.ruleId "")
  let filePath := Text.strip (text entry.filePath "")
  let symbol := Text.strip (text entry.symbol "")
  if ruleId = "" ∨ filePath = "" ∨ symbol = "" then
    (.error (.findings ("a finding needs rule_id, file_path and symbol — " ++
      s!"got rule_id={ruleId} file_path={filePath} symbol={symbol}")), st)
  else
    let digest := fingerprint sha256 ruleId filePath symbol (text entry.contextKey "")
    match st.byFingerprint repo digest with
    | none =>
      match normalizeLevel entry.level with
      | .error e => (.error e, st)
      | .ok level =>
        let id := st.findings.next
        let st := st.addFinding (newFinding repo digest ruleId filePath symbol level a.runId entry) fun _ => rfl
        let st := st.recordEvent
          { findingId := id, at_ := a.clock t.seenIds.length, actor := "agent", fromStatus := none, toStatus := .open,
            reason := reasonMatched, runId := a.runId }
        (.ok { t with created := t.created + 1, seenIds := t.seenIds ++ [id] },
          (attachEvidence id entry.evidence st).2)
    | some existing => matchEntry a entry existing t st

/-- The loop of `ingest`. -/
def ingestEntries (sha256 : String → String) (a : IngestArgs) (repo : Nat) :
    List Entry → Tally → Store → Except FindingsError Tally × Store
  | [], t, st => (.ok t, st)
  | entry :: entries, t, st =>
    match ingestEntry sha256 a repo entry t st with
    | (.error e, st') => (.error e, st')
    | (.ok t', st') => ingestEntries sha256 a repo entries t' st'

/-- One turn of the loop of `_apply_escalation`. -/
def escalate (runId : Option Nat) (now : Time) (st : Store) (row : Finding) : Store :=
  (st.assign row.id setReopened fun _ => rfl).recordEvent
    { findingId := row.id, at_ := now, actor := "system", fromStatus := some row.status, toStatus := .open,
      reason := reasonEscalation, runId := runId }

/-- The deferred findings of a repository, in the order the database returns them. -/
def deferredFindings (order : List Nat) (repo : Nat) (st : Store) : List Finding :=
  (st.findings.rows.filter fun f => f.repoId == repo && decide (f.status ∈ deferredStatuses)).insertionSort
    fun f g => order.idxOf f.id ≤ order.idxOf g.id

def overThreshold (threshold : Int) (exclude : List Nat) (deferred : List Finding) : List Finding :=
  deferred.filter fun row =>
    !decide (row.id ∈ exclude) && decide (threshold < (deferred.countP (·.ruleId == row.ruleId) : Int))

def applyEscalation (a : IngestArgs) (repo : Nat) (exclude : List Nat) (st : Store) : Nat × Store :=
  match countThreshold a.policy with
  | none => (0, st)
  | some threshold =>
    let reopened := overThreshold threshold exclude (deferredFindings a.order repo st)
    (reopened.length, reopened.foldl (escalate a.runId (a.clock exclude.length)) st)

def setCounted (t : Tally) (run : ReviewRun) : ReviewRun :=
  { run with findingsNew := run.findingsNew + t.created, findingsMatched := run.findingsMatched + t.matched }

/-- `ingest`; an element of `findings` that is no mapping is `none`. -/
def ingest (sha256 : String → String) (a : IngestArgs) (findings : List (Option Entry)) (st : Store) :
    Except FindingsError Tally × Store :=
  match resolveRepoId st.repos a.repo with
  | .error e => (.error e, st)
  | .ok repo =>
    let run := a.runId.bind st.runs.get?
    if a.runId.isSome ∧ run.isNone then
      (.error (.findings (s!"review_run {a.runId.getD 0} does not exist; create the ReviewRun before " ++
        "ingesting its findings")), st)
    else
      match ingestEntries sha256 a repo findings.reduceOption {} st with
      | (.error e, st') => (.error e, st')
      | (.ok t, st') =>
        let (escalated, st') := applyEscalation a repo t.seenIds st'
        let runs := match run with
          | some run => st'.runs.update (·.id == run.id) (setCounted t) fun _ => rfl
          | none => st'.runs
        (.ok { t with reactivated := t.reactivated + escalated }, { st' with runs := runs })

/-! ## Rule governance -/

/-- `_false_positive_counts`: rules with their false positives in the window. -/
def falsePositiveCounts (repo : Nat) (since : Time) (st : Store) : List (String × Nat) :=
  let hits := st.events.rows.filterMap fun e =>
    if e.reason = reasonFalsePositive ∧ since ≤ e.at_ then
      (st.findings.rows.find? fun f => f.id == e.findingId && f.repoId == repo).map (·.ruleId)
    else none
  hits.dedup.map fun rule => (rule, hits.count rule)

/-- The arguments of `rule_quality_watch`, and the clock it reads when no `now` is given. -/
structure WatchArgs where
  repo : RepoRef
  policy : Policy
  actor : String := "system"
  now : Option Time := none
  windowDays : Int := ruleQualityWindowDays
  clock : Time := 0

/-- The noise threshold of a policy: the first of the two places that is not 0. -/
def noiseThreshold (policy : Policy) : Int :=
  let first := (policy.escalation.bind (·.ruleNoiseThreshold)).getD 0
  if first ≠ 0 then first else policy.ruleNoiseThreshold.getD 0

/-- The noisy rules with their counts, by rule id. -/
def noisyRules (threshold : Int) (counts : List (String × Nat)) : List (String × Nat) :=
  (counts.filter fun c => c.1 ≠ ruleQualityRuleId ∧ threshold ≠ 0 ∧ threshold ≤ c.2).insertionSort
    fun c d => c.1 ≤ d.1

def noiseDetail (a : WatchArgs) (rule : String) (count : Nat) : String :=
  s!"{count} confirmed false positive(s) for rule {rule} in the last {a.windowDays} days " ++
    s!"(threshold {noiseThreshold a.policy}); the rule needs fixing or demoting to debt."

def governanceFinding (repo : Nat) (digest rule detail : String) (id : Nat) : Finding where
  id := id
  repoId := repo
  fingerprint := digest
  ruleId := ruleQualityRuleId
  level := .debt
  severity := .medium
  status := .open
  filePath := policyEntryPath
  symbol := ruleQualitySymbol
  lineHint := none
  title := s!"Rule {rule} is noisy — review or demote it"
  detail := detail
  firstSeenRunId := none
  lastSeenRunId := none
  seenCount := 1

/-- The attributes a repeated alarm assigns; a count of 0 is taken for 1. -/
def setNoisy (detail : String) (f : Finding) : Finding :=
  { f with detail := detail, seenCount := (if f.seenCount = 0 then 1 else f.seenCount) + 1 }

structure Watched where
  created : List Nat := []
  updated : List Nat := []
  deriving DecidableEq, Repr

/-- One turn of the loop of `rule_quality_watch`. -/
def watchRule (sha256 : String → String) (a : WatchArgs) (repo : Nat) (w : Watched × Store)
    (rule : String × Nat) : Watched × Store :=
  let moment := a.now.getD a.clock
  let digest := fingerprint sha256 ruleQualityRuleId policyEntryPath ruleQualitySymbol rule.1
  let detail := noiseDetail a rule.1 rule.2
  match w.2.byFingerprint repo digest with
  | none =>
    let id := w.2.findings.next
    ({ w.1 with created := w.1.created ++ [id] },
      (w.2.addFinding (governanceFinding repo digest rule.1 detail) fun _ => rfl).recordEvent
        { findingId := id, at_ := moment, actor := a.actor, fromStatus := none, toStatus := .open,
          reason := reasonFalsePositive, runId := none })
  | some finding =>
    let st := w.2.assign finding.id (setNoisy detail) fun _ => rfl
    ({ w.1 with updated := w.1.updated ++ [finding.id] },
      if finding.status = .fixed then
        (st.assign finding.id setOpen fun _ => rfl).recordEvent
          { findingId := finding.id, at_ := moment, actor := a.actor, fromStatus := some .fixed, toStatus := .open,
            reason := reasonEscalation, runId := none }
      else st)

structure QualityReport where
  threshold : Int
  windowDays : Int
  counts : List (String × Nat)
  noisy : List String
  watched : Watched
  deriving DecidableEq, Repr

def ruleQualityWatch (sha256 : String → String) (a : WatchArgs) (st : Store) :
    Except FindingsError QualityReport × Store :=
  match resolveRepoId st.repos a.repo with
  | .error e => (.error e, st)
  | .ok repo =>
    let since := a.now.getD a.clock - a.windowDays * 86400000000
    let threshold := noiseThreshold a.policy
    let counts := falsePositiveCounts repo since st
    let noisy := noisyRules threshold counts
    let (watched, st') := noisy.foldl (watchRule sha256 a repo) ({}, st)
    (.ok ⟨threshold, a.windowDays, counts, noisy.map (·.1), watched⟩, st')

/-! ## The findings as a machine -/

inductive Op
  | ingest (args : IngestArgs) (findings : List (Option Entry))
  | decide (args : DecideArgs)
  | ruleQualityWatch (args : WatchArgs)

inductive Answer
  | ingested (result : Except FindingsError Tally)
  | decided (result : Except FindingsError Decided)
  | watched (result : Except FindingsError QualityReport)

/-- A call in the session it is made in. -/
def perform (sha256 : String → String) (st : Store) : Op → Answer × Store
  | .ingest a findings => (ingest sha256 a findings st).map .ingested id
  | .decide a => (Findings.decide a st).map .decided id
  | .ruleQualityWatch a => (ruleQualityWatch sha256 a st).map .watched id

/-- A call and what its caller does with the session afterwards: commit it (whatever was raised), or
roll it back. -/
structure Call where
  op : Op
  commit : Bool := true

/-- One call and the end of its transaction. -/
def step (sha256 : String → String) (st : Store) (c : Call) : Answer × Store :=
  let (answer, st') := perform sha256 st c.op
  (answer, if c.commit then st' else st)

/-- Empty findings over some runs and repositories, then any calls. -/
def findings (sha256 : String → String) (runs : Table ReviewRun) (repos : List Repo) : Machine Store Call Answer :=
  ⟨⟨Table.empty, Table.empty, [], runs, repos⟩, step sha256⟩

end OpenFish.Findings
