/-
`search` and `related_to_finding` of `services/repo_context.py`: rows are fetched kind by kind, ranked together and
fitted into the budget.
-/
import Mathlib.Algebra.Order.Ring.Int
import OpenFish.Context.Query

namespace OpenFish.Context

open Lib Lib.Like

/-! ## Limits -/

def defaultLimit : ℤ := 10

def maxLimit : ℤ := 50

def defaultBudget : ℤ := 8000

def minBudget : ℤ := 256

def maxBudget : ℤ := 40000

/-- An issue that is linked outranks any keyword hit. -/
def evidenceScore : ℤ := 10

/-- `_clamp_int`; a value that is no number is none. -/
def clampInt (value : Option ℤ) (default low high : ℤ) : ℤ :=
  match value with
  | none => default
  | some number => max low (min high number)

/-- How much of an answer is asked for. -/
structure Bounds where
  limit : Option ℤ := some defaultLimit
  offset : Option ℤ := some 0
  budget : Option ℤ := some defaultBudget
  deriving DecidableEq, Repr

namespace Bounds

def rows (b : Bounds) : ℕ := (clampInt b.limit defaultLimit 1 maxLimit).toNat

def skipped (b : Bounds) : ℕ := (max 0 (clampInt b.offset 0 0 1000000)).toNat

def chars (b : Bounds) : ℕ := (clampInt b.budget defaultBudget minBudget maxBudget).toNat

end Bounds

/-! ## Candidates -/

/-- A candidate with the date it is ranked by. -/
structure Ranked where
  candidate : Candidate
  moment : Option Moment
  deriving DecidableEq, Repr

/-- `_order_key`. -/
def Ranked.orderKey (r : Ranked) : List ℤ :=
  [if r.candidate.relation.any (· ≠ "") then 0 else 1, -r.candidate.score, -(r.moment.map (·.instant)).getD 0,
    -r.candidate.row.id]

/-- `candidates.sort(key=_order_key)`. -/
def ranked (candidates : List Ranked) : List Candidate :=
  (candidates.insertionSort fun a b => a.orderKey ≤ b.orderKey).map (·.candidate)

/-- A row that a statement found. -/
def keywordHit {α : Type} (stmt : Statement α) (view : α → Row) (row : α) : Ranked :=
  { candidate := { row := view row, score := stmt.score row, relation := none, origin := "keyword" },
    moment := stmt.newest row }

/-- `_fetch`. -/
def fetch {α : Type} (db : Dialect) (stmt : Statement α) (view : α → Row) (table : List α) (limit offset : ℕ) :
    List Ranked :=
  (stmt.page db table limit offset).map (keywordHit stmt view)

/-! ## `search` -/

inductive Kind
  | issue | commit | finding
  deriving DecidableEq, Repr

def Kind.name : Kind → String
  | .issue => "issue"
  | .commit => "commit"
  | .finding => "finding"

def kinds : List Kind := [.issue, .commit, .finding]

structure SearchArgs extends Bounds where
  repoId : ℤ
  filters : Filters := {}
  kind : Option String := some "all"
  source : String := "repo"
  deriving DecidableEq, Repr

/-- The kinds that are searched, unless the name is none. -/
def selected (kind : Option String) : Option (List Kind) :=
  if kind.getD "" ∈ ["", "all"] then some kinds else (kinds.find? (·.name = kind.getD "")).map ([·])

section search

variable (py : Casing) (db : Dialect) (m : Mirror)

/-- `_count` of the statement of one kind. -/
def countOf (args : SearchArgs) : Kind → ℕ
  | .issue => (buildIssueQuery py db args.repoId args.filters).count m.issues
  | .commit => (buildCommitQuery py db args.repoId args.filters).count m.commits
  | .finding => (buildFindingQuery py db args.repoId args.filters).count m.findings

def fetchOf (args : SearchArgs) : Kind → List Ranked
  | .issue =>
    fetch db (buildIssueQuery py db args.repoId args.filters) (fun r => .issue r.row) m.issues args.rows args.skipped
  | .commit =>
    fetch db (buildCommitQuery py db args.repoId args.filters) (fun r => .commit r.row) m.commits args.rows args.skipped
  | .finding =>
    fetch db (buildFindingQuery py db args.repoId args.filters) (fun r => .finding r.row) m.findings args.rows args.skipped

/-- What a search echoes; the terms have no white space, so they are written with blanks between. -/
def SearchArgs.echo (args : SearchArgs) : List (String × String) :=
  [("q", args.filters.q), ("terms", String.intercalate " " (termsOf args.filters.q)), ("kind", orNone args.kind),
    ("state", orNone args.filters.state), ("label", orNone args.filters.label), ("author", orNone args.filters.author),
    ("is_pull_request", orNone (args.filters.isPullRequest.map fun b => if b then "True" else "False")),
    ("since", orNone (args.filters.since.map (·.iso))), ("until", orNone (args.filters.until_.map (·.iso))),
    ("limit", toString args.rows), ("offset", toString args.skipped)]

def search (args : SearchArgs) : Except String Answer :=
  match selected args.kind with
  | none => .error ("kind 只支持 issue/commit/finding/all（收到 " ++ args.kind.getD "" ++ "）")
  | some chosen =>
    let matched := (chosen.map (countOf py db m args)).sum
    let candidates := ranked (chosen.flatMap (fetchOf py db m args))
    .ok (result args.repoId args.echo (assemble candidates args.source args.chars) matched args.chars args.source)

end search

/-! ## `related_to_finding` -/

/-- The parts of a text between dots and colons. -/
def anchorParts (text : String) : List String :=
  (text.toList.splitOnP fun c => c = '.' || c = ':').map String.ofList |>.filter (· ≠ "")

/-- The words of the anchors, and each without what stands behind its last dot. -/
def probeWords (filePath symbol ruleId : Option String) : List String :=
  let raw :=
    (match filePath.filter (· ≠ "") with
      | some text =>
        let path := Text.replaceChar '\\' '/' text
        ((Text.split '/' path).filter (· ≠ "")) ++ [path]
      | none => []) ++
    [symbol, ruleId].flatMap fun value => ((value.filter (· ≠ "")).map anchorParts).getD []
  raw.flatMap fun value => if '.' ∈ value.toList then [value, (Text.rpartition '.' value).1] else [value]

/-- `_probes`. -/
def probesOf (filePath symbol ruleId : Option String) : List String :=
  ((probeWords filePath symbol ruleId).foldl (fun probes word =>
    let candidate := Text.strip word
    if candidate.length < 3 || candidate.toList.any Text.isSpace then probes
    else if candidate ∈ probes then probes
    else probes ++ [candidate]) []).take maxTerms

structure RelatedArgs extends Bounds where
  repoId : ℤ
  findingId : Option ℤ := none
  filePath : Option String := none
  symbol : Option String := none
  ruleId : Option String := none
  source : String := "repo"
  deriving DecidableEq, Repr

/-- The issues that are linked to a finding, once for each link. -/
def linked (m : Mirror) (findingId repoId : ℤ) : List (IssueRow × String) :=
  (m.issues.filter (·.repoId = repoId)).flatMap fun issue =>
    (m.evidence.filter fun e => e.findingId = findingId ∧ e.repoIssueId = issue.row.id).map fun e => (issue, e.relation)

def linkKey (db : Dialect) (link : IssueRow × String) : List ℤ :=
  [if link.1.createdAt.isNone = db.nullsFirst then 0 else 1, -(link.1.createdAt.map (·.instant)).getD 0, -link.1.row.id]

def linkHit (link : IssueRow × String) : Ranked :=
  { candidate :=
      { row := .issue link.1.row, score := evidenceScore,
        relation := some (if link.2 = "" then "mentions" else link.2), origin := "evidence" },
    moment := link.1.createdAt }

/-- `_evidence_candidates`. -/
def evidenceCandidates (db : Dialect) (m : Mirror) (findingId repoId : ℤ) : List Ranked :=
  ((linked m findingId repoId).insertionSort fun a b => linkKey db a ≤ linkKey db b).map linkHit

/-- `value or anchor`. -/
def orAnchor (value : Option String) (anchor : String) : Option String := some (orElse value anchor)

/-- The arguments with the anchors of the stored finding where they give none. -/
def anchored (m : Mirror) (args : RelatedArgs) : Except String RelatedArgs :=
  match args.findingId with
  | none => .ok args
  | some id =>
    match m.findings.find? (·.row.id = id) with
    | none => .error s!"finding {id} 不存在于 repo {args.repoId}"
    | some finding =>
      if finding.repoId ≠ args.repoId then .error s!"finding {id} 不存在于 repo {args.repoId}"
      else .ok { args with
        filePath := orAnchor args.filePath finding.row.filePath
        symbol := orAnchor args.symbol finding.row.symbol
        ruleId := orAnchor args.ruleId finding.row.ruleId }

section related

variable (py : Casing) (db : Dialect) (m : Mirror)

/-- The issues that one of the probes recalls. -/
def recallQuery (repoId : ℤ) (probes : List String) : Statement IssueRow :=
  buildIssueQuery py db repoId { q := String.intercalate " " probes, anyTerm := true }

def RelatedArgs.echo (args : RelatedArgs) (probes : List String) : List (String × String) :=
  [("finding_id", orNone (args.findingId.map toString)), ("file_path", orNone args.filePath),
    ("symbol", orNone args.symbol), ("rule_id", orNone args.ruleId), ("probes", String.intercalate " " probes),
    ("limit", toString args.rows), ("offset", toString args.skipped)]

/-- The hits that are not among the candidates yet. -/
def addUnseen (candidates hits : List Ranked) : List Ranked :=
  hits.foldl (fun all hit =>
    if hit.candidate.row.id ∈ all.map (·.candidate.row.id) then all else all ++ [hit]) candidates

def relatedToFinding (args : RelatedArgs) : Except String Answer :=
  match anchored m args with
  | .error e => .error e
  | .ok args =>
    let probes := probesOf args.filePath args.symbol args.ruleId
    let evidence := (args.findingId.map fun id => evidenceCandidates db m id args.repoId).getD []
    let recalled := recallQuery py db args.repoId probes
    let matched := evidence.length + if probes = [] then 0 else recalled.count m.issues
    let candidates :=
      if probes = [] then evidence
      else addUnseen evidence (fetch db recalled (fun r => .issue r.row) m.issues args.rows args.skipped)
    .ok (result args.repoId (args.echo probes) (assemble (ranked candidates) args.source args.chars) matched args.chars
      args.source)

end related

end OpenFish.Context
