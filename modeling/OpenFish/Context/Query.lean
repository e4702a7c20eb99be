/-
The statements of `services/repo_context.py`: terms and filters become conditions on the rows of the mirror, with a
score and an order.
-/
import Mathlib.Data.Int.Order.Basic
import Mathlib.Data.List.Lex
import Mathlib.Data.List.Sort
import OpenFish.Context.Render
import OpenFish.Lib.Like

namespace OpenFish.Context

open Lib Lib.Like

/-! ## The tables -/

/-- A date of a row or of a filter: the instant it is compared by, and its ISO form. -/
structure Moment where
  instant : ℤ
  iso : String
  deriving DecidableEq, Repr

/-- A stored issue: the columns that conditions read beside those that are rendered. -/
structure IssueRow where
  repoId : ℤ
  row : RepoIssue
  /-- The JSON text of the labels; `label_list()` reads `row.labelList` from it. -/
  labels : Option String
  createdAt : Option Moment
  deriving DecidableEq, Repr

structure CommitRow where
  repoId : ℤ
  row : RepoCommit
  committedAt : Option Moment
  deriving DecidableEq, Repr

structure FindingRow where
  repoId : ℤ
  row : Finding
  createdAt : Option Moment
  deriving DecidableEq, Repr

/-- A row of `finding_evidence`. -/
structure FindingEvidence where
  findingId : ℤ
  repoIssueId : ℤ
  relation : String
  deriving DecidableEq, Repr

/-- The tables with their keys. -/
structure Mirror where
  issues : List IssueRow
  commits : List CommitRow
  findings : List FindingRow
  evidence : List FindingEvidence
  issueIds : (issues.map (·.row.id)).Nodup
  commitIds : (commits.map (·.row.id)).Nodup
  findingIds : (findings.map (·.row.id)).Nodup
  /-- `uq_finding_evidence_triple`. -/
  triples : evidence.Nodup

/-! ## Terms -/

def maxTerms : ℕ := 8

/-- `re.split(r"\s+", text)`, without the empty parts. -/
def words (text : String) : List String :=
  (text.toList.splitOnP Text.isSpace).map String.ofList |>.filter (· ≠ "")

/-- `_terms`. -/
def termsOf (query : String) : List String := (words (Text.strip query)).take maxTerms

/-- `text.replace(c, "\\" + c)`. -/
def backslashed (c : Char) (text : String) : String :=
  String.ofList (text.toList.flatMap fun d => if d = c then ['\\', d] else [d])

/-- `_escape_like`. -/
def escapeLike (term : String) : String := backslashed '_' (backslashed '%' (backslashed '\\' term))

section conditions

variable (py : Casing) (db : Dialect)

/-- `_contains`. -/
def contains (column : Option String) (term : String) : Bool :=
  like db.same (some '\\') ("%" ++ escapeLike (py.lower term) ++ "%") (db.lower (column.getD ""))

/-- `_contains_label`. -/
def containsLabel (column : Option String) (label : String) : Bool :=
  like db.same (some '\\') ("%\"" ++ escapeLike (py.lower (Text.strip label)) ++ "\"%") (db.lower (column.getD ""))

/-- `_require_terms`. -/
def requireTerms (columns : List (Option String)) (terms : List String) (anyTerm : Bool) : Bool :=
  if terms = [] then true
  else if anyTerm then terms.any fun term => columns.any fun column => contains py db column term
  else terms.all fun term => columns.any fun column => contains py db column term

/-- `_weighted_score`. -/
def weightedScore (weighted : List (Option String × ℤ)) (terms : List String) : ℤ :=
  weighted.foldl (fun total column =>
    terms.foldl (fun total term => total + if contains py db column.1 term then column.2 else 0) total) 0

/-- `func.lower(column) == value.strip().lower()`, if there is a value. -/
def lowerIs (column : Option String) (value : Option String) : Bool :=
  match value.filter (· ≠ "") with
  | none => true
  | some value => column.any fun text => db.lower text == py.lower (Text.strip value)

/-- `column >= since` and `column <= until`, of those that are given. -/
def within (column since until_ : Option Moment) : Bool :=
  (since.all fun low => column.any fun moment => low.instant ≤ moment.instant) &&
    (until_.all fun high => column.any fun moment => moment.instant ≤ high.instant)

end conditions

/-! ## Statements -/

def titleWeight : ℤ := 3

def bodyWeight : ℤ := 1

/-- A `select` of rows with their score, before it is paged. -/
structure Statement (α : Type) where
  keep : α → Bool
  score : α → ℤ
  newest : α → Option Moment
  id : α → ℤ

/-- The filters of a search; a date given as a text is the moment that the column compares it to. -/
structure Filters where
  q : String := ""
  state : Option String := none
  label : Option String := none
  author : Option String := none
  isPullRequest : Option Bool := none
  since : Option Moment := none
  until_ : Option Moment := none
  anyTerm : Bool := false
  deriving DecidableEq, Repr

section statements

variable (py : Casing) (db : Dialect)

def buildIssueQuery (repoId : ℤ) (f : Filters) : Statement IssueRow where
  keep issue :=
    issue.repoId == repoId && requireTerms py db [some issue.row.title, issue.row.body] (termsOf f.q) f.anyTerm &&
      lowerIs py db (some issue.row.state) f.state &&
      (f.label.filter (· ≠ "")).all (containsLabel py db issue.labels) &&
      lowerIs py db issue.row.author f.author && f.isPullRequest.all (issue.row.isPullRequest == ·) &&
      within issue.createdAt f.since f.until_
  score issue := weightedScore py db [(some issue.row.title, titleWeight), (issue.row.body, bodyWeight)] (termsOf f.q)
  newest issue := issue.createdAt
  id issue := issue.row.id

def buildCommitQuery (repoId : ℤ) (f : Filters) : Statement CommitRow where
  keep commit :=
    commit.repoId == repoId && requireTerms py db [commit.row.message, some commit.row.sha] (termsOf f.q) f.anyTerm &&
      lowerIs py db commit.row.author f.author && within commit.committedAt f.since f.until_
  score commit := weightedScore py db [(commit.row.message, titleWeight), (some commit.row.sha, bodyWeight)] (termsOf f.q)
  newest commit := commit.committedAt
  id commit := commit.row.id

/-- `build_finding_query`; no search gives it a status or a level. -/
def buildFindingQuery (repoId : ℤ) (f : Filters) : Statement FindingRow where
  keep finding :=
    finding.repoId == repoId &&
      requireTerms py db [some finding.row.title, finding.row.detail, some finding.row.filePath, some finding.row.symbol,
        some finding.row.ruleId] (termsOf f.q) f.anyTerm
  score finding :=
    weightedScore py db [(some finding.row.title, titleWeight), (finding.row.detail, bodyWeight),
      (some finding.row.filePath, bodyWeight), (some finding.row.symbol, bodyWeight),
      (some finding.row.ruleId, bodyWeight)] (termsOf f.q)
  newest finding := finding.createdAt
  id finding := finding.row.id

end statements

namespace Statement

variable {α : Type} (stmt : Statement α) (db : Dialect)

/-- `score DESC, newest DESC, id DESC`, as a key to compare. -/
def key (row : α) : List ℤ :=
  [-stmt.score row, if (stmt.newest row).isNone = db.nullsFirst then 0 else 1,
    -((stmt.newest row).map (·.instant)).getD 0, -stmt.id row]

/-- `count(*)`. -/
def count (table : List α) : ℕ := (table.filter stmt.keep).length

/-- The rows in their order, and a page of them. -/
def page (table : List α) (limit offset : ℕ) : List α :=
  (((table.filter stmt.keep).insertionSort fun a b => stmt.key db a ≤ stmt.key db b).drop offset).take limit

end Statement

end OpenFish.Context
