/-
The result document of a run (`RunMeta`, `Evidence`, `Finding`, `GateEntry` and `Result` of `services/agent_runner.py`) and its
strict validation, which names everything that is wrong with a payload. What a document dumps is read back as it was.
-/
import OpenFish.Gates.Suite
import OpenFish.Lib.Json

namespace OpenFish.Agent

open Lib

open Gates (GateResult GateStatus GateSummary)

/-! ## Strict reading -/

/-- What a strict model finds wrong with a value. -/
inductive Issue
  | missing | stringType | intType | boolType | listType | dictType
  | modelType (model : String)
  | literal (expected : List String)
  deriving DecidableEq, Repr

structure Problem where
  loc : List String
  issue : Issue
  deriving DecidableEq, Repr

/-- A value, or everything that is wrong with it. -/
structure Checked (α : Type) where
  run : Except (List Problem) α

def Checked.problem {α : Type} (loc : List String) (issue : Issue) : Checked α := ⟨.error [⟨loc, issue⟩]⟩

instance : Applicative Checked where
  pure a := ⟨.ok a⟩
  seq f x :=
    match f.run, (x ()).run with
    | .ok f, .ok a => ⟨.ok (f a)⟩
    | .ok _, .error problems => ⟨.error problems⟩
    | .error problems, .ok _ => ⟨.error problems⟩
    | .error problems, .error more => ⟨.error (problems ++ more)⟩

abbrev Reader (α : Type) := List String → Json → Checked α

def readStr : Reader String
  | _, .str s => pure s
  | loc, _ => .problem loc .stringType

def readInt : Reader Int
  | _, .int n => pure n
  | loc, _ => .problem loc .intType

def readBool : Reader Bool
  | _, .bool b => pure b
  | loc, _ => .problem loc .boolType

/-- `X | None`. -/
def readOptional {α : Type} (read : Reader α) : Reader (Option α)
  | _, .null => pure none
  | loc, v => some <$> read loc v

def readLiteral {α : Type} (values : List (String × α)) : Reader α
  | loc, .str s =>
    match values.lookup s with
    | some a => pure a
    | none => .problem loc (.literal (values.map Prod.fst))
  | loc, _ => .problem loc (.literal (values.map Prod.fst))

def readItems {α : Type} (read : Reader α) (loc : List String) : Nat → List Json → Checked (List α)
  | _, [] => pure []
  | i, v :: vs => List.cons <$> read (loc ++ [toString i]) v <*> readItems read loc (i + 1) vs

def readList {α : Type} (read : Reader α) : Reader (List α)
  | loc, .arr items => readItems read loc 0 items
  | loc, _ => .problem loc .listType

def readDict : Reader (List (String × Json))
  | _, .obj members => pure members
  | loc, _ => .problem loc .dictType

def readModel {α : Type} (model : String) (fields : List String → List (String × Json) → Checked α) : Reader α
  | loc, .obj members => fields loc members
  | loc, _ => .problem loc (.modelType model)

/-- A field of a model: what is not named is filled in from the default, if there is one. -/
def field {α : Type} (read : Reader α) (fallback : Option α) (key : String) (loc : List String)
    (members : List (String × Json)) : Checked α :=
  match members.lookup key, fallback with
  | some v, _ => read (loc ++ [key]) v
  | none, some a => pure a
  | none, none => .problem (loc ++ [key]) .missing

/-! ## The document -/

structure RunMeta where
  commitSha : String
  policyHash : String
  startedAt : String
  finishedAt : Option String := none
  taskId : Option String := none
  repo : Option String := none
  policySource : String := "repo"
  mode : String := "review"
  suiteHash : String := ""
  suiteSource : String := ""
  suiteState : String := ""
  aiSuiteHash : String := ""
  aiSuiteSource : String := ""
  aiSuiteState : String := ""
  assuranceLevel : String := ""
  assuranceLabel : String := ""
  deriving DecidableEq, Repr

inductive EvidenceKind
  | issue | pr | commit
  deriving DecidableEq, Repr

inductive Relation
  | mentions | duplicateOf | fixedBy
  deriving DecidableEq, Repr

structure Evidence where
  kind : EvidenceKind := .issue
  number : Option Int := none
  relation : Relation := .mentions
  url : Option String := none
  title : Option String := none
  deriving DecidableEq, Repr

inductive Level
  | blocking | debt
  deriving DecidableEq, Repr

inductive Severity
  | critical | high | medium | low
  deriving DecidableEq, Repr

structure Finding where
  ruleId : String
  level : Level
  severity : Severity
  filePath : String
  symbol : String
  title : String
  detail : String := ""
  lineHint : Option Int := none
  contextKey : String := ""
  evidence : List Evidence := []
  autofix : Bool := false
  deriving DecidableEq, Repr

structure GateEntry where
  gate : String
  passed : Bool
  status : String := "passed"
  exitCode : Option Int := none
  stdoutTail : String := ""
  durationMs : Int := 0
  deriving DecidableEq, Repr

structure Result where
  run : RunMeta
  findings : List Finding := []
  gates : List GateEntry
  aiGates : List GateEntry := []
  curator : Option (List (String × Json)) := none

/-! ## Validation -/

def EvidenceKind.values : List (String × EvidenceKind) := [("issue", .issue), ("pr", .pr), ("commit", .commit)]

def Relation.values : List (String × Relation) :=
  [("mentions", .mentions), ("duplicate_of", .duplicateOf), ("fixed_by", .fixedBy)]

def Level.values : List (String × Level) := [("blocking", .blocking), ("debt", .debt)]

def Severity.values : List (String × Severity) := [("critical", .critical), ("high", .high), ("medium", .medium), ("low", .low)]

def readRunMeta : Reader RunMeta := readModel "RunMeta" fun loc ms =>
  RunMeta.mk <$> field readStr none "commit_sha" loc ms <*> field readStr none "policy_hash" loc ms <*>
    field readStr none "started_at" loc ms <*> field (readOptional readStr) (some none) "finished_at" loc ms <*>
    field (readOptional readStr) (some none) "task_id" loc ms <*> field (readOptional readStr) (some none) "repo" loc ms <*>
    field readStr (some "repo") "policy_source" loc ms <*> field readStr (some "review") "mode" loc ms <*>
    field readStr (some "") "suite_hash" loc ms <*> field readStr (some "") "suite_source" loc ms <*>
    field readStr (some "") "suite_state" loc ms <*> field readStr (some "") "ai_suite_hash" loc ms <*>
    field readStr (some "") "ai_suite_source" loc ms <*> field readStr (some "") "ai_suite_state" loc ms <*>
    field readStr (some "") "assurance_level" loc ms <*> field readStr (some "") "assurance_label" loc ms

def readEvidence : Reader Evidence := readModel "Evidence" fun loc ms =>
  Evidence.mk <$> field (readLiteral EvidenceKind.values) (some .issue) "kind" loc ms <*>
    field (readOptional readInt) (some none) "number" loc ms <*>
    field (readLiteral Relation.values) (some .mentions) "relation" loc ms <*>
    field (readOptional readStr) (some none) "url" loc ms <*> field (readOptional readStr) (some none) "title" loc ms

def readFinding : Reader Finding := readModel "Finding" fun loc ms =>
  Finding.mk <$> field readStr none "rule_id" loc ms <*> field (readLiteral Level.values) none "level" loc ms <*>
    field (readLiteral Severity.values) none "severity" loc ms <*> field readStr none "file_path" loc ms <*>
    field readStr none "symbol" loc ms <*> field readStr none "title" loc ms <*>
    field readStr (some "") "detail" loc ms <*> field (readOptional readInt) (some none) "line_hint" loc ms <*>
    field readStr (some "") "context_key" loc ms <*> field (readList readEvidence) (some []) "evidence" loc ms <*>
    field readBool (some false) "autofix" loc ms

def readGateEntry : Reader GateEntry := readModel "GateEntry" fun loc ms =>
  GateEntry.mk <$> field readStr none "gate" loc ms <*> field readBool none "passed" loc ms <*>
    field readStr (some "passed") "status" loc ms <*> field (readOptional readInt) (some none) "exit_code" loc ms <*>
    field readStr (some "") "stdout_tail" loc ms <*> field readInt (some 0) "duration_ms" loc ms

def readResult : Reader Result := readModel "Result" fun loc ms =>
  Result.mk <$> field readRunMeta none "run" loc ms <*> field (readList readFinding) (some []) "findings" loc ms <*>
    field (readList readGateEntry) none "gates" loc ms <*> field (readList readGateEntry) (some []) "ai_gates" loc ms <*>
    field (readOptional readDict) (some none) "curator" loc ms

/-- `_describe_validation`, with the text of each issue. -/
def describeValidation (describe : Issue → String) (problems : List Problem) : String :=
  let place (loc : List String) : String := if ".".intercalate loc = "" then "<root>" else ".".intercalate loc
  "result 校验失败：" ++ "; ".intercalate ((problems.take 8).map fun p => place p.loc ++ ": " ++ describe p.issue)

def validateResult (describe : Issue → String) : Json → Except String Result
  | .obj members =>
    match (readResult [] (.obj members)).run with
    | .ok result => .ok result
    | .error problems => .error (describeValidation describe problems)
  | _ => .error "result 必须是 JSON 对象"

/-! ## The dump -/

def orNull {α : Type} (dump : α → Json) (value : Option α) : Json := (value.map dump).getD .null

def RunMeta.modelDump (m : RunMeta) : Json :=
  .obj [("commit_sha", .str m.commitSha), ("policy_hash", .str m.policyHash), ("started_at", .str m.startedAt),
    ("finished_at", orNull .str m.finishedAt), ("task_id", orNull .str m.taskId), ("repo", orNull .str m.repo),
    ("policy_source", .str m.policySource), ("mode", .str m.mode), ("suite_hash", .str m.suiteHash),
    ("suite_source", .str m.suiteSource), ("suite_state", .str m.suiteState), ("ai_suite_hash", .str m.aiSuiteHash),
    ("ai_suite_source", .str m.aiSuiteSource), ("ai_suite_state", .str m.aiSuiteState),
    ("assurance_level", .str m.assuranceLevel), ("assurance_label", .str m.assuranceLabel)]

def EvidenceKind.value : EvidenceKind → String
  | .issue => "issue"
  | .pr => "pr"
  | .commit => "commit"

def Relation.value : Relation → String
  | .mentions => "mentions"
  | .duplicateOf => "duplicate_of"
  | .fixedBy => "fixed_by"

def Level.value : Level → String
  | .blocking => "blocking"
  | .debt => "debt"

def Severity.value : Severity → String
  | .critical => "critical"
  | .high => "high"
  | .medium => "medium"
  | .low => "low"

def Evidence.modelDump (e : Evidence) : Json :=
  .obj [("kind", .str e.kind.value), ("number", orNull .int e.number), ("relation", .str e.relation.value),
    ("url", orNull .str e.url), ("title", orNull .str e.title)]

def Finding.modelDump (f : Finding) : Json :=
  .obj [("rule_id", .str f.ruleId), ("level", .str f.level.value), ("severity", .str f.severity.value),
    ("file_path", .str f.filePath), ("symbol", .str f.symbol), ("title", .str f.title), ("detail", .str f.detail),
    ("line_hint", orNull .int f.lineHint), ("context_key", .str f.contextKey),
    ("evidence", .arr (f.evidence.map Evidence.modelDump)), ("autofix", .bool f.autofix)]

def GateEntry.modelDump (g : GateEntry) : Json :=
  .obj [("gate", .str g.gate), ("passed", .bool g.passed), ("status", .str g.status), ("exit_code", orNull .int g.exitCode),
    ("stdout_tail", .str g.stdoutTail), ("duration_ms", .int g.durationMs)]

def Result.modelDump (r : Result) : Json :=
  .obj [("run", r.run.modelDump), ("findings", .arr (r.findings.map Finding.modelDump)),
    ("gates", .arr (r.gates.map GateEntry.modelDump)), ("ai_gates", .arr (r.aiGates.map GateEntry.modelDump)),
    ("curator", orNull .obj r.curator)]

/-! ## Reading a dump back -/

theorem readItems_map {α : Type} {read : Reader α} {dump : α → Json} (h : ∀ loc a, read loc (dump a) = pure a)
    (loc : List String) : ∀ (i : Nat) (as : List α), readItems read loc i (as.map dump) = pure as
  | _, [] => rfl
  | i, a :: as => by
    rw [List.map_cons, readItems, h, readItems_map h loc (i + 1) as]
    rfl

theorem readList_map {α : Type} {read : Reader α} {dump : α → Json} (h : ∀ loc a, read loc (dump a) = pure a)
    (loc : List String) (as : List α) : readList read loc (.arr (as.map dump)) = pure as := by
  rw [readList, readItems_map h]

theorem readOptional_str (loc : List String) (value : Option String) :
    readOptional readStr loc (orNull .str value) = pure value := by
  cases value <;> rfl

theorem readOptional_int (loc : List String) (value : Option Int) :
    readOptional readInt loc (orNull .int value) = pure value := by
  cases value <;> rfl

theorem readOptional_obj (loc : List String) (value : Option (List (String × Json))) :
    readOptional readDict loc (orNull .obj value) = pure value := by
  cases value <;> rfl

theorem readRunMeta_modelDump (loc : List String) (m : RunMeta) : readRunMeta loc m.modelDump = pure m := by
  unfold readRunMeta RunMeta.modelDump readModel
  simp only [field, List.lookup_cons, String.reduceBEq, readStr, readOptional_str]
  rfl

theorem readEvidence_modelDump (loc : List String) (e : Evidence) : readEvidence loc e.modelDump = pure e := by
  have hkind : EvidenceKind.values.lookup e.kind.value = some e.kind := by cases e.kind <;> rfl
  have hrelation : Relation.values.lookup e.relation.value = some e.relation := by cases e.relation <;> rfl
  unfold readEvidence Evidence.modelDump readModel
  simp only [field, List.lookup_cons, String.reduceBEq, readLiteral, readOptional_str, readOptional_int, hkind, hrelation]
  rfl

theorem readFinding_modelDump (loc : List String) (f : Finding) : readFinding loc f.modelDump = pure f := by
  have hlevel : Level.values.lookup f.level.value = some f.level := by cases f.level <;> rfl
  have hseverity : Severity.values.lookup f.severity.value = some f.severity := by cases f.severity <;> rfl
  unfold readFinding Finding.modelDump readModel
  simp only [field, List.lookup_cons, String.reduceBEq, readStr, readBool, readLiteral, readOptional_int, hlevel, hseverity,
    readList_map readEvidence_modelDump]
  rfl

theorem readGateEntry_modelDump (loc : List String) (g : GateEntry) : readGateEntry loc g.modelDump = pure g := by
  unfold readGateEntry GateEntry.modelDump readModel
  simp only [field, List.lookup_cons, String.reduceBEq, readStr, readBool, readInt, readOptional_int]
  rfl

/-- What a document dumps is a valid payload, and reads back as the document. -/
theorem validateResult_modelDump (describe : Issue → String) (r : Result) :
    validateResult describe r.modelDump = .ok r := by
  have hread : readResult [] r.modelDump = pure r := by
    unfold readResult Result.modelDump readModel
    simp only [field, List.lookup_cons, String.reduceBEq, readRunMeta_modelDump, readList_map readFinding_modelDump,
      readList_map readGateEntry_modelDump, readOptional_obj]
    rfl
  show (match (readResult [] r.modelDump).run with
    | .ok result => Except.ok result
    | .error problems => .error (describeValidation describe problems)) = .ok r
  rw [hread]
  rfl

/-! ## Gates -/

/-- `gate_entry`. -/
def gateEntry (result : GateResult) : GateEntry where
  gate := result.gate
  passed := result.passed
  status := result.status.value
  exitCode := some result.exitCode
  stdoutTail := result.stdoutTail
  durationMs := result.durationMs

/-- `[gate_entry(item) for item in _gate_items(summary)]`. -/
def gateEntries (summary : GateSummary) : List GateEntry := summary.gates.map gateEntry

/-- `_failed_gate_names`. -/
def failedGateNames (gates : List GateEntry) : List String :=
  (gates.filter fun entry => !entry.passed && entry.status ≠ GateStatus.unverified.value).map (·.gate)

end OpenFish.Agent
