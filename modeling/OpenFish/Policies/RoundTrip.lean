/-
A policy that is written out (`dump`) is read back as it was.
-/
import OpenFish.Policies.Canonical

namespace OpenFish.Policies

open Lib
open Lib.Yaml (Coercions AtLeast Positive)

/-! ## Plain data in YAML -/

mutual

/-- Plain data as a YAML reader answers it. -/
def asYaml : Json → Yaml
  | .null => .null
  | .bool b => .bool b
  | .int n => .int n
  | .float x => .float x
  | .str s => .str s
  | .arr items => .list (asYamlItems items)
  | .obj members => .mapping (asYamlMembers members)

def asYamlItems : List Json → List Yaml
  | [] => []
  | v :: vs => asYaml v :: asYamlItems vs

def asYamlMembers : List (String × Json) → List (Yaml × Yaml)
  | [] => []
  | (k, v) :: ms => (.str k, asYaml v) :: asYamlMembers ms

end

theorem asYamlItems_eq : ∀ vs : List Json, asYamlItems vs = vs.map asYaml
  | [] => rfl
  | v :: vs => by rw [asYamlItems, asYamlItems_eq vs, List.map_cons]

theorem asYamlMembers_eq : ∀ ms : List (String × Json), asYamlMembers ms = Yaml.record (ms.map fun m => (m.1, asYaml m.2))
  | [] => rfl
  | (k, v) :: ms => by
    rw [asYamlMembers, asYamlMembers_eq ms]
    rfl

section Files

variable (safeDump : Json → String) (safeLoad : String → Option Yaml)

/-- `dump`. -/
def dump (p : Policy) : String := safeDump (.obj p.payload)

/-- `parse_yaml`. -/
def parseYaml (text : String) : Except PolicyError (List (Yaml × Yaml)) :=
  match safeLoad text with
  | none => .error .yaml
  | some .null => .ok []
  | some (.mapping entries) => .ok entries
  | some _ => .error .yaml

end Files

/-! ## Reading the parts back -/

section Lawful

variable {c : Coercions}

theorem PolicyDefaults.validate_dump (h : c.Lawful) (d : PolicyDefaults) :
    PolicyDefaults.validate c (asYaml d.modelDump) = some d := by
  simp [PolicyDefaults.validate, PolicyDefaults.modelDump, asYaml, asYamlMembers_eq, Yaml.entries?, Yaml.field,
    PolicyDefaults.fields, h.bool, h.atLeast, h.str]

theorem asYaml_option {α : Type} (dump : α → Json) (a : Option α) :
    asYaml ((a.map dump).getD .null) = (a.map fun a => asYaml (dump a)).getD .null := by
  cases a <;> rfl

theorem asYaml_list {α : Type} (dump : α → Json) (as : List α) :
    asYaml (.arr (as.map dump)) = .list (as.map fun a => asYaml (dump a)) := by
  rw [asYaml, asYamlItems_eq, List.map_map]
  rfl

theorem optional_int (h : c.Lawful) {bound : Int} (n : Option (AtLeast bound)) :
    Yaml.optional (c.atLeast bound) (asYaml ((n.map fun n => Json.int n.1).getD .null)) = some n := by
  rw [asYaml_option]
  exact Yaml.optional_dump (fun n => h.atLeast n) (fun n => by simp) n

theorem RulePolicy.validate_dump (h : c.Lawful) (r : RulePolicy) :
    RulePolicy.validate c (asYaml r.modelDump) = some r := by
  have hdays := optional_int h r.defaultDueDays
  have htext : ∀ s, c.str (asYaml (.str s)) = some s := h.str
  have hflag : ∀ b, c.bool (asYaml (.bool b)) = some b := h.bool
  rw [modelDump, asYaml, asYamlMembers_eq]
  simp only [List.map_cons, List.map_nil]
  generalize asYaml ((r.defaultDueDays.map fun n => Json.int n.1).getD .null) = days at hdays ⊢
  simp [RulePolicy.validate, Yaml.entries?, Yaml.field, Yaml.required, RulePolicy.fields, hflag, htext, hdays]

theorem PolicyException.validate_dump (h : c.Lawful) (e : PolicyException) :
    PolicyException.validate c (asYaml e.modelDump) = some e := by
  have hpaths : c.listOf c.str (asYaml (.arr (e.paths.map .str))) = some e.paths := by
    rw [asYaml_list]
    exact h.listOf h.str e.paths
  have hby : Yaml.optional c.str (asYaml ((e.decidedBy.map Json.str).getD .null)) = some e.decidedBy := by
    rw [asYaml_option]
    exact Yaml.optional_dump h.str (fun s => by simp) e.decidedBy
  have hdue : c.date (asYaml (.str e.due.isoformat)) = some e.due := h.date e.due
  have htext : ∀ s, c.str (asYaml (.str s)) = some s := h.str
  rw [modelDump, asYaml, asYamlMembers_eq]
  simp [PolicyException.validate, Yaml.entries?, Yaml.field, Yaml.required, PolicyException.fields, htext, hpaths,
    hby, hdue]

theorem PolicyEscalation.validate_dump (h : c.Lawful) (e : PolicyEscalation) :
    PolicyEscalation.validate c (asYaml e.modelDump) = some e := by
  simp [PolicyEscalation.validate, PolicyEscalation.modelDump, asYaml, asYamlMembers_eq, Yaml.entries?, Yaml.field,
    PolicyEscalation.fields, h.atLeast]

theorem PolicyCheck.validate_dump (h : c.Lawful) (k : PolicyCheck) :
    PolicyCheck.validate c (asYaml k.modelDump) = some k := by
  have htimeout : Yaml.optional c.positive (asYaml ((k.timeout.map fun x => Json.float x.1).getD .null)) = some k.timeout := by
    rw [asYaml_option]
    exact Yaml.optional_dump (fun x => h.positive x) (fun x => by simp) k.timeout
  have htext : ∀ s, c.str (asYaml (.str s)) = some s := h.str
  rw [modelDump, asYaml, asYamlMembers_eq]
  simp only [List.map_cons, List.map_nil]
  generalize asYaml ((k.timeout.map fun x => Json.float x.1).getD .null) = timeout at htimeout ⊢
  simp [PolicyCheck.validate, Yaml.entries?, Yaml.field, Yaml.required, PolicyCheck.fields, htext, htimeout]

/-- The whole policy is read back from its dump. -/
theorem Policy.validate_dump (h : c.Lawful) (p : Policy) : Policy.validate c (asYamlMembers p.payload) = some p := by
  have hrules : c.listOf (RulePolicy.validate c) (asYaml (.arr (p.rules.map (·.modelDump)))) = some p.rules := by
    rw [asYaml_list]
    exact h.listOf (RulePolicy.validate_dump h) p.rules
  have hexceptions : c.listOf (PolicyException.validate c) (asYaml (.arr (p.exceptions.map (·.modelDump)))) =
      some p.exceptions := by
    rw [asYaml_list]
    exact h.listOf (PolicyException.validate_dump h) p.exceptions
  have hchecks : c.listOf (PolicyCheck.validate c) (asYaml (.arr (p.checks.map (·.modelDump)))) = some p.checks := by
    rw [asYaml_list]
    exact h.listOf (PolicyCheck.validate_dump h) p.checks
  have hversion : c.int (asYaml (.int p.version)) = some p.version := h.int p.version
  rw [asYamlMembers_eq, payload]
  by_cases hempty : p.checks = []
  · rw [if_pos hempty]
    simp [Policy.validate, annotated, Policy.fields, Yaml.field, hversion, hrules, hexceptions,
      PolicyDefaults.validate_dump h, PolicyEscalation.validate_dump h]
    exact hempty ▸ rfl
  · rw [if_neg hempty]
    simp [Policy.validate, annotated, Policy.fields, Yaml.field, hversion, hrules, hexceptions, hchecks,
      PolicyDefaults.validate_dump h, PolicyEscalation.validate_dump h]

/-- A policy that is accepted, written out and read back on the same day is accepted again, with the same hash, the same
canonical text and the same text when it is written out once more. -/
theorem dump_survives (h : c.Lawful) {floatText : BitVec 64 → List Char} {sha256 : String → String}
    {safeDump : Json → String} {safeLoad : String → Option Yaml} {today : Date} {source : String} {path : Option String}
    {raw : List (Yaml × Yaml)} {d : PolicyDocument}
    (hparse : parseDocument c (policyHash floatText sha256) today source path raw = .ok d)
    (hyaml : safeLoad (safeDump (.obj d.payload)) = some (asYaml (.obj d.payload))) (source' : String) (path' : Option String) :
    ∃ raw' d', parseYaml safeLoad (dump safeDump d.toPolicy) = .ok raw' ∧
      parseDocument c (policyHash floatText sha256) today source' path' raw' = .ok d' ∧ d'.policyHash = d.policyHash ∧
      canonicalJson floatText d'.toPolicy = canonicalJson floatText d.toPolicy ∧
      dump safeDump d'.toPolicy = dump safeDump d.toPolicy := by
  obtain ⟨-, hvalid, -, hhash, -⟩ := parseDocument_ok.1 hparse
  have hread : parseYaml safeLoad (dump safeDump d.toPolicy) = .ok (asYamlMembers d.payload) := by
    rw [parseYaml, dump, hyaml, asYaml]
  refine ⟨_, { d with policySource := source', path := path' }, hread, ?_, rfl, rfl, rfl⟩
  exact parseDocument_ok.2 ⟨Policy.validate_dump h d.toPolicy, hvalid, rfl, hhash, rfl⟩

end Lawful

/-! ## A policy with a rule, an exception and a check -/

def firstOfMay : Date := ⟨2026, 5, 1, by decide⟩

def lastOfJune : Date := ⟨2026, 6, 30, by decide⟩

/-- What is read from the file of a team: the day is a date there, and 1.5 is its bits. -/
def teamFile : List (Yaml × Yaml) :=
  Yaml.record
    [("rules", .list [.mapping (Yaml.record [("id", .str "sql-injection"), ("level", .str "blocking"),
        ("default_due_days", .int 7)])]),
      ("exceptions", .list [.mapping (Yaml.record [("rule", .str "sql-injection"), ("paths", .list [.str "legacy/**"]),
        ("reason", .str "rewritten in summer"), ("decided_by", .str "alice"), ("due", .date lastOfJune)])]),
      ("checks", .list [.mapping (Yaml.record [("id", .str "lint"), ("command", .str "ruff check ."),
        ("timeout", .float 0x3ff8000000000000#64)])])]

/-- The policy of the team, which leaves the defaults and the escalation to the platform. -/
def teamPolicy (defaults : PolicyDefaults) (escalation : PolicyEscalation) : Policy where
  defaults
  escalation
  rules := [{ id := "sql-injection", level := "blocking", defaultDueDays := some ⟨7, by decide⟩ }]
  exceptions :=
    [{ rule := "sql-injection", paths := ["legacy/**"], reason := "rewritten in summer", decidedBy := some "alice",
       due := lastOfJune }]
  checks := [{ id := "lint", command := "ruff check .", timeout := some ⟨0x3ff8000000000000#64, by decide⟩ }]

/-- What is written for it: the day is a text now. -/
def teamText : String :=
  "version: 1\ndefaults:\n  auto_review: true\n  max_findings_per_run: 50\n  pr_policy: on_green\n  auto_fix: false\n" ++
    "  curator: bootstrap\n  curator_min_interval_seconds: 3600\nrules:\n- id: sql-injection\n  level: blocking\n" ++
    "  default_due_days: 7\n  autofix: false\nexceptions:\n- rule: sql-injection\n  paths:\n  - legacy/**\n" ++
    "  reason: rewritten in summer\n  decided_by: alice\n  due: '2026-06-30'\n  status: wontfix\nescalation:\n" ++
    "  rule_noise_threshold: 3\n  rule_count_threshold: 20\nchecks:\n- id: lint\n  command: ruff check .\n  cwd: .\n" ++
    "  timeout: 1.5\n"

/-- A YAML library that knows this one text, of a policy. -/
def teamLoad (policy : Policy) (text : String) : Option Yaml :=
  if text = teamText then some (asYaml (.obj policy.payload)) else none

def teamHash : Policy → String := policyHash (fun _ => "1.5".toList) id

theorem teamFile_validate : Policy.validate Coercions.plain teamFile = some (teamPolicy {} {}) := by decide +kernel

theorem dump_survives_team :
    ∃ raw' d', parseYaml (teamLoad (teamPolicy {} {})) (dump (fun _ => teamText) (teamPolicy {} {})) = .ok raw' ∧
      parseDocument Coercions.plain teamHash firstOfMay "file" none raw' = .ok d' ∧ d'.policyHash = teamHash (teamPolicy {} {}) ∧
      canonicalJson (fun _ => "1.5".toList) d'.toPolicy = canonicalJson (fun _ => "1.5".toList) (teamPolicy {} {}) ∧
      dump (fun _ => teamText) d'.toPolicy = dump (fun _ => teamText) (teamPolicy {} {}) := by
  have hparse : parseDocument Coercions.plain teamHash firstOfMay "file" (some ".agent/review-policy.yml") teamFile =
      .ok { teamPolicy {} {} with policySource := "file", policyHash := teamHash (teamPolicy {} {}), warnings := [],
                                  path := some ".agent/review-policy.yml" } :=
    parseDocument_ok.2 ⟨teamFile_validate, by decide +kernel, rfl, rfl, rfl⟩
  exact dump_survives Yaml.Coercions.plain_lawful hparse (if_pos rfl) "file" none

end OpenFish.Policies
