/-
The texts of a pull request: the commit message and title of a fix and its body with both suites (`_commit_message`,
`_pr_title` and `_pr_body` of `services/agent_runner.py`, `render_two_suites` of `services/check_trust.py`, `render_summary`
of `services/gates.py`), and those of a curator's proposal (`services/check_curator.py`), read from its report.
-/
import OpenFish.Agent.Document
import OpenFish.Gates.Assurance
import OpenFish.Lib.Integer
import OpenFish.Lib.Repr

namespace OpenFish.Agent

open Lib

open Gates (Assurance CheckSuite GateResult GateStatus GateSummary unverifiedSummary)

/-- What a call raises: the errors of the runner, those of the system, the others by their class, and the ones that
`except Exception` lets through. -/
inductive Raised
  | agent (message : String)
  | os (name message : String)
  | other (name message : String)
  | interrupt
  deriving DecidableEq, Repr

/-! ## A fix -/

def lines (parts : List String) : String := "\n".intercalate parts

def prTitle (result : Result) : String :=
  match result.findings with
  | [finding] => s!"fix: {finding.title}"
  | findings => s!"fix: 智能体修复 {findings.length} 项发现"

def commitMessage (result : Result) : String :=
  match result.findings with
  | [finding] => s!"fix: {finding.title}\n\nrule: {finding.ruleId}"
  | findings => s!"fix: 智能体修复 {findings.length} 项发现"

def mark : GateStatus → String
  | .passed => "✅ pass"
  | .failed => "❌ fail"
  | .unverified => "⚠️ unverified"

def renderRow (row : GateResult) : String :=
  let exitNote := if row.timedOut then s!"{row.exitCode} (timeout)" else s!"{row.exitCode}"
  s!"| `{row.gate}` | {mark row.status} | {exitNote} | {row.durationMs} ms |"

/-- `render_summary` of a summary. -/
def renderSummary (summary : GateSummary) (title : String) : String :=
  let counts := s!"{summary.passed}/{summary.total} passed"
  let verdict :=
    if summary.state = .unverified then
      (s!"**{title}: unverified — {counts}, {summary.failed} failed, {summary.unverified} unverified；" ++
          "没有可门控的校验，禁止据此自动 push/开 PR**") ::
        (if summary.reason = "" then [] else [s!"\n> {summary.reason}"])
    else if summary.failed ≠ 0 then [s!"**{title}: {counts} — {summary.failed} failed**"]
    else [s!"**{title}: {counts} — all green**"]
  lines ([s!"### {title}", "", "| gate | result | exit | time |", "| --- | --- | --- | --- |"] ++
    summary.gates.map renderRow ++ "" :: verdict)

def repositoryTitle : String := "Repository checks (authority)"

def aiTitle : String := "AI-maintained checks (advisory)"

def humanReviewNotice : String :=
  "> **不会自动合并。** 本 PR 由 agent 产出，必须经人工 review 后由人合并；agent 没有合并、批准或改分支保护的能力。"

/-- `_title`. -/
def suiteTitle (base : String) (suite : CheckSuite) : String :=
  if suite.checks.isEmpty then base else s!"{base} — source: {suite.source.value}, {suite.checks.length} check(s)"

def renderTwoSuites (userSummary aiSummary : GateSummary) (assurance : Assurance) (userSuite aiSuite : CheckSuite) : String :=
  let merge := if assurance.mayAutoMerge then "yes" else "never"
  lines ["## 校验与保证等级", "", s!"**Assurance: `{assurance.level.value}`** — {assurance.description}", "", assurance.reason, "",
    renderSummary userSummary (suiteTitle repositoryTitle userSuite), "", renderSummary aiSummary (suiteTitle aiTitle aiSuite),
    "", s!"**Label:** `{assurance.label}` · **auto-merge:** `{merge}`", "",
    humanReviewNotice]

/-- `_pr_body`, as `run` calls it. -/
def prBody (result : Result) (assurance : Assurance) (userSummary aiSummary : GateSummary) (userSuite aiSuite : CheckSuite) :
    String :=
  lines (["## 智能体发现", ""] ++ (if result.findings.isEmpty then ["本次 review 未产出 finding。"] else []) ++
    result.findings.map (fun f => s!"- [{f.level.value}/{f.severity.value}] `{f.filePath}` — {f.title}（`{f.ruleId}`）") ++
    ["", renderTwoSuites userSummary aiSummary assurance userSuite aiSuite])

/-! ## A proposal -/

/-- What Python makes of values that are neither texts nor lists: their text, the whole part of a float, and what is
printable in a text. -/
structure Conversions where
  render : Json → String
  truncate : BitVec 64 → Option Int
  printable : Repr.Printable

variable (c : Conversions)

/-- `int(value or 0)`. -/
def Conversions.integer (value : Json) : Except Raised Int :=
  if value.truthy then
    match value with
    | .int n => .ok n
    | .bool b => .ok (if b then 1 else 0)
    | .float bits =>
      match c.truncate bits with
      | some n => .ok n
      | none => .error (.other "ValueError" "cannot convert float to integer")
    | .str s =>
      match readInteger (Text.strip s) with
      | some n => .ok n
      | none => .error (.other "ValueError"
          ("invalid literal for int() with base 10: " ++ String.ofList (Repr.reprChars c.printable s.toList)))
    | _ => .error (.other "TypeError" "int() argument must be a string, a bytes-like object or a real number")
  else .ok 0

/-- `for item in value or ()`: a dictionary gives its keys, and a text its characters. -/
def elements (value : Json) : Except Raised (List Json) :=
  if value.truthy then
    match value with
    | .arr items => .ok items
    | .obj members => .ok (members.map fun m => .str m.1)
    | .str s => .ok (s.toList.map fun ch => .str (String.singleton ch))
    | _ => .error (.other "TypeError" "object is not iterable")
  else .ok []

/-- A validation of a report, as it is read back: what the proposal shows of it. -/
structure ReportedValidation where
  checkId : String
  status : String
  reason : String
  deriving DecidableEq, Repr

def ReportedValidation.validated (v : ReportedValidation) : Bool := v.status = "validated"

structure ReportedProposal where
  suiteHash : String
  total : Nat
  validations : List ReportedValidation
  manifest : Option String
  notes : List String
  deriving DecidableEq, Repr

/-- An entry of `validations`, with the conversions that may fail. -/
def Conversions.validation (members : List (String × Json)) : Except Raised ReportedValidation := do
  let _ ← c.integer (Json.get members "faults_attempted")
  let _ ← c.integer (Json.get members "faults_detected")
  let _ ← elements (Json.get members "detected_by")
  let status := (Json.get members "status").textOr c.render
  return { checkId := (Json.get members "check_id").textOr c.render, status := if status = "" then "unvalidated" else status,
           reason := (Json.get members "reason").textOr c.render }

/-- `CuratorReport.from_payload`. -/
def Conversions.fromPayload (payload : List (String × Json)) : Except Raised ReportedProposal := do
  let validations ← (← elements (Json.get payload "validations")).filterMap Json.entries? |>.mapM c.validation
  let checks ← elements (Json.get payload "checks")
  let notes ← elements (Json.get payload "notes")
  let manifest := Json.get payload "manifest_path"
  return { suiteHash := (Json.get payload "suite_hash").textOr c.render, total := (checks.filterMap Json.entries?).length,
           validations, manifest := if manifest.truthy then some (manifest.text c.render) else none,
           notes := notes.map (Json.text c.render) }

def proposalMarker : String := "[openfish-checks-proposal]"

def proposalTitle (count validated : Int) : String :=
  s!"{proposalMarker} AI 校验套件提案（{count} 个检查，{validated} 个已验证）"

def proposalBody (report : ReportedProposal) (baseSha : String) : String :=
  let row (v : ReportedValidation) : String :=
    let mark := if v.validated then "✅ validated" else "⚠️ unvalidated"
    s!"| `{v.checkId}` | {mark} | {v.reason} |"
  let base := if baseSha = "" then "（默认分支）" else baseSha
  let validated := report.validations.countP fun v => v.validated
  let manifest := report.manifest.getD "（无）"
  lines ([s!"## {proposalMarker}", "",
    "这是 **AI 策展人**（`checks` 任务）对 AI 校验套件 `.agent/checks/**` 的提案，与任何 fix PR 分离，需人工 review 后由人合并。", "",
    s!"- 基础修订：`{base}`", s!"- 套件指纹：`{Text.clip 16 report.suiteHash}`",
    s!"- 检查数：{report.total}（其中 **{validated}** 个通过证伪验证，可门控）",
    s!"- manifest：`{manifest}`", "", "### 检查与证伪结果", "", "| check | 结果 | 说明 |", "| --- | --- | --- |"] ++
    report.validations.map row ++
    (if report.notes.isEmpty then [] else ["", "### 备注", ""] ++ report.notes.map ("- " ++ ·)) ++
    ["", "> 未通过证伪验证的检查只能报告、不能门控。该 PR **不会自动合并**。"])

/-- The title and the body of a curator's pull request. -/
def Conversions.proposal (report : List (String × Json)) (baseSha : String) : Except Raised (String × String) := do
  let total ← c.integer (Json.get report "total")
  let validated ← c.integer (Json.get report "validated")
  let read ← c.fromPayload report
  return (proposalTitle total validated, proposalBody read baseSha)

end OpenFish.Agent
