/-
Where a run's two suites come from (`services/check_suite.py`): the manifest in `.agent/checks`, the policy's checks and
the repository's own manifests. What the schemas accept is checked once more when the suite is built.
-/
import OpenFish.Gates.Fingerprint
import OpenFish.Lib.Words
import OpenFish.Policies.Document
import Mathlib.Data.List.Nodup

namespace OpenFish.Gates

open Lib
open Lib.Yaml (Coercions Positive)
open OpenFish.Policies (PolicyCheck PolicyDocument checkChecks)

/-! ## Building a suite -/

/-- `_check_command`. -/
def checkCommand (c : Check Positive) : Except String (Check Positive) :=
  if Text.blank c.id = true then .error "check id 不能为空"
  else if c.argv.head?.all Text.blank = true then .error ("check " ++ c.id ++ " 的 argv 为空")
  else .ok c

/-- `_check_source`. -/
def checkSource : List String → List (Check Positive) → Except String Unit
  | _, [] => .ok ()
  | ids, c :: cs =>
    if c.id ∈ ids then .error ("suite 里出现重复的 check id：" ++ c.id) else checkSource (ids ++ [c.id]) cs

/-- A suite of the commands, each built in turn. -/
def buildSuite (source : SuiteSource) (reason : List (Check Positive) → String) (commands : List (Check Positive)) :
    Except String (Suite Positive) :=
  match commands.mapM checkCommand with
  | .error e => .error e
  | .ok checks => (checkSource [] checks).map fun _ => { checks, source, reason := reason checks }

/-! ## The manifest -/

structure ManifestCheck where
  id : String
  command : String
  cwd : String := "."
  timeout : Option Positive := none
  validated : Bool := false
  deriving DecidableEq

structure CheckManifest where
  version : Int := 1
  checks : List ManifestCheck := []
  deriving DecidableEq

section Manifest

variable (c : Coercions)

def ManifestCheck.fields : List String := ["id", "command", "cwd", "timeout", "validated"]

def CheckManifest.fields : List String := ["version", "checks"]

def ManifestCheck.validate (v : Yaml) : Option ManifestCheck :=
  v.entries?.bind fun es =>
    if Yaml.known ManifestCheck.fields es then
      (Yaml.required es "id" c.str).bind fun id =>
      (Yaml.required es "command" c.str).bind fun command =>
      (Yaml.field es "cwd" c.str ".").bind fun cwd =>
      (Yaml.field es "timeout" (Yaml.optional c.positive) none).bind fun timeout =>
      (Yaml.field es "validated" c.bool false).map fun validated => ⟨id, command, cwd, timeout, validated⟩
    else none

/-- `CheckManifest.model_validate`. -/
def CheckManifest.validate (es : List (Yaml × Yaml)) : Option CheckManifest :=
  if Yaml.known CheckManifest.fields es then
    (Yaml.field es "version" c.int 1).bind fun version =>
    (Yaml.field es "checks" (c.listOf (ManifestCheck.validate c)) []).map fun checks => ⟨version, checks⟩
  else none

end Manifest

/-- What a file has: a text, or bytes that are no UTF-8. -/
inductive Content
  | text (s : String)
  | undecodable (bytes : List UInt8)
  deriving DecidableEq

/-- A reading of YAML: `safe_load`, the text of the exception where there is one, and the coercions of the schema with
the text of what it refuses. -/
structure Reader where
  safeLoad : String → Except String Yaml
  undecodable : String
  coercions : Coercions
  refusal : List (Yaml × Yaml) → String

/-- `parse_yaml`. -/
def Reader.parseYaml (r : Reader) (content : Content) : Except String (List (Yaml × Yaml)) :=
  match content with
  | .undecodable _ => .error r.undecodable
  | .text s =>
    match r.safeLoad s with
    | .error e => .error ("invalid YAML: " ++ e)
    | .ok .null => .ok []
    | .ok (.mapping entries) => .ok entries
    | .ok v => .error ("the policy document must be a mapping, got " ++ v.typeName)

/-- The manifest in a file, if it can be used. -/
def Reader.manifest (r : Reader) (content : Content) : Option CheckManifest :=
  match r.parseYaml content with
  | .error _ => none
  | .ok raw => CheckManifest.validate r.coercions raw

/-- The command of an entry, unless it has no words. -/
def ManifestCheck.command? (e : ManifestCheck) : Option (Check Positive) :=
  if Text.words e.command = [] then none
  else some
    { id := e.id, argv := Text.words e.command, cwd := e.cwd, timeout := e.timeout
      validation := if e.validated then .validated else .unvalidated }

/-- `_load_manifest`. -/
def loadManifest (r : Reader) (name : String) (content : Content) : Except String (Suite Positive) :=
  match r.parseYaml content with
  | .error e => .ok { checks := [], source := .agentChecks, reason := name ++ " 解析失败：" ++ e }
  | .ok raw =>
    match CheckManifest.validate r.coercions raw with
    | none => .ok { checks := [], source := .agentChecks, reason := name ++ " schema 不合法：" ++ r.refusal raw }
    | some manifest =>
      buildSuite .agentChecks (fun checks => name ++ " 声明了 " ++ toString checks.length ++ " 个检查")
        (manifest.checks.filterMap (·.command?))

/-- What is read of `.agent/checks`: the manifests by their names, and what stands for the star in the names that
`check_*.py` finds. -/
structure CheckDirectory where
  file : String → Option Content
  scripts : List String
  distinct : scripts.Nodup

/-- `CHECK_MANIFEST_NAMES`. -/
def checkManifestNames : List String := ["checks.yml", "checks.yaml"]

/-- The first manifest that is there. -/
def CheckDirectory.manifest? (d : CheckDirectory) : Option (String × Content) :=
  checkManifestNames.findSome? fun name => (d.file name).map fun content => (name, content)

/-- The check of a script. -/
def scriptCheck (script : String) : Check Positive where
  id := "check_" ++ script
  argv := ["python", ".agent/checks/check_" ++ script ++ ".py"]

/-- `load_agent_checks`. -/
def loadAgentChecks (r : Reader) : Option CheckDirectory → Except String (Suite Positive)
  | none => .ok { checks := [], source := .agentChecks, reason := "没有 .agent/checks/ 目录" }
  | some d =>
    match d.manifest? with
    | some (name, content) => loadManifest r name content
    | none =>
      buildSuite .agentChecks
        (fun checks => ".agent/checks/ 下的 " ++ toString checks.length ++ " 个 check_*.py") (d.scripts.map scriptCheck)

/-! ## The policy's checks -/

/-- `check_id` of the entry at an index. -/
def policyId (index : Nat) (k : PolicyCheck) : String :=
  Text.strip (if k.id = "" then "policy:" ++ toString index else k.id)

/-- The command of the entry at an index. -/
def policyCommand (index : Nat) (k : PolicyCheck) : Check Positive where
  id := policyId index k
  argv := Text.words (Text.strip k.command)
  cwd := if k.cwd = "" then "." else k.cwd
  timeout := k.timeout
  validation := .validated

/-- It is skipped if it has no words. -/
def policyCommand? (index : Nat) (k : PolicyCheck) : Option (Check Positive) :=
  if Text.words (Text.strip k.command) = [] then none else some (policyCommand index k)

def policyCommands : Nat → List PolicyCheck → List (Check Positive)
  | _, [] => []
  | index, k :: ks => (policyCommand? index k).toList ++ policyCommands (index + 1) ks

/-- `policy_checks` of the checks of a document. -/
def policyChecks (ks : List PolicyCheck) : Except String (Suite Positive) :=
  buildSuite .policy (fun _ => "") (policyCommands 0 ks)

/-! ## Discovery -/

/-- `_command` of `check_discovery.py`. -/
def discovered (id : String) (argv : List String) : Check Positive where
  id := id
  argv := argv
  validation := .validated

/-- A provider: its name and the commands that it may find a repository to declare. -/
structure Provider where
  name : String
  commands : List (Check Positive)

/-- `PROVIDERS`. -/
def providers : List Provider :=
  [⟨"package_json_checks", ["test", "lint", "build", "typecheck"].map fun name =>
      discovered ("npm:" ++ name) ["npm", "run", name]⟩,
    ⟨"python_checks",
      [discovered "pytest" ["python", "-m", "pytest", "-q"], discovered "ruff" ["python", "-m", "ruff", "check", "."],
        discovered "mypy" ["python", "-m", "mypy", "."]]⟩,
    ⟨"go_checks",
      [discovered "go:build" ["go", "build", "./..."], discovered "go:vet" ["go", "vet", "./..."],
        discovered "go:test" ["go", "test", "./..."]]⟩,
    ⟨"cargo_checks", [discovered "cargo:check" ["cargo", "check"], discovered "cargo:test" ["cargo", "test"]]⟩,
    ⟨"makefile_checks", ["test", "check", "lint"].map fun name => discovered ("make:" ++ name) ["make", name]⟩]

/-- What the providers find in a repository: which of them raise, and the ids of the commands it declares. -/
structure Manifests where
  broken : String → Bool
  declared : String → Bool

/-- A provider that raises or finds nothing does not match. -/
def Manifests.matched? (m : Manifests) (p : Provider) : Option (String × List (Check Positive)) :=
  if m.broken p.name = true then none
  else if p.commands.filter (fun c => m.declared c.id) = [] then none
  else some (p.name, p.commands.filter fun c => m.declared c.id)

/-- `discover_checks`, with the default providers and without `merge`. -/
def discoverChecks (m : Manifests) : Except String (Suite Positive) :=
  let broken := (providers.filter fun p => m.broken p.name).map (·.name)
  let brokenNote := if broken = [] then "" else "；" ++ "、".intercalate broken ++ " 解析失败，已跳过"
  match providers.filterMap m.matched? with
  | [] =>
    .ok
      { checks := [], source := .discovery
        reason := "没有可识别的 manifest（package.json / pyproject.toml / go.mod / " ++
          "Cargo.toml / Makefile 都没有给出可用命令）" ++ brokenNote }
  | (winner, checks) :: displaced =>
    let others :=
      if displaced = [] then ""
      else "；" ++ "、".intercalate (displaced.map Prod.fst) ++ " 也声明了命令，按优先级没有进套件" ++
        "（要一起跑就传 merge=True，或用 .agent/review-policy.yml 的 checks: 显式声明）"
    buildSuite .discovery (fun _ => "auto-discovered by " ++ winner ++ others ++ brokenNote) checks

/-! ## Both suites -/

/-- `resolve_user_suite`. -/
def resolveUserSuite (m : Manifests) (ks : List PolicyCheck) : Except String (Suite Positive) :=
  match policyChecks ks with
  | .error e => .error e
  | .ok fromPolicy =>
    if fromPolicy.checks ≠ [] then .ok fromPolicy
    else (discoverChecks m).map fun found =>
      if found.checks ≠ [] then found
      else { checks := [], source := .unverified
             reason := "仓库没有自带校验（policy checks: 与 manifest 自动发现都没有命中）" }

/-- `resolve_suites`: the user's suite and the suite of the agents. -/
def resolveSuites (r : Reader) (m : Manifests) (ks : List PolicyCheck) (directory : Option CheckDirectory) :
    Except String (Suite Positive × Suite Positive) :=
  match resolveUserSuite m ks with
  | .error e => .error e
  | .ok user => (loadAgentChecks r directory).map fun ai => (user, ai)

/-! ## When a suite is built -/

/-- What `_check_command` asks for. -/
def Check.Accepted (c : Check Positive) : Prop := Text.blank c.id = false ∧ c.argv.head?.all Text.blank = false

theorem checkCommand_ok {c c' : Check Positive} : checkCommand c = .ok c' ↔ c' = c ∧ c.Accepted := by
  unfold checkCommand Check.Accepted
  by_cases hid : Text.blank c.id = true
  · simp [hid]
  · by_cases hargv : c.argv.head?.all Text.blank = true
    · simp [hid, hargv]
    · simp [hid, hargv, eq_comm]

theorem mapM_checkCommand {cs checks : List (Check Positive)} :
    cs.mapM checkCommand = .ok checks ↔ checks = cs ∧ ∀ c ∈ cs, c.Accepted := by
  induction cs generalizing checks with
  | nil =>
    rw [List.mapM_nil]
    simp [pure, Except.pure, eq_comm]
  | cons c cs ih =>
    rw [List.mapM_cons, List.forall_mem_cons]
    constructor
    · intro h
      cases hc : checkCommand c with
      | error e =>
        rw [hc] at h
        cases h
      | ok c' =>
        cases hcs : cs.mapM checkCommand with
        | error e =>
          rw [hc, hcs] at h
          cases h
        | ok rest =>
          rw [hc, hcs] at h
          cases h
          obtain ⟨rfl, haccepted⟩ := checkCommand_ok.1 hc
          obtain ⟨rfl, hrest⟩ := ih.1 hcs
          exact ⟨rfl, haccepted, hrest⟩
    · rintro ⟨rfl, haccepted, hrest⟩
      rw [checkCommand_ok.2 ⟨rfl, haccepted⟩, ih.2 ⟨rfl, hrest⟩]
      rfl

theorem checkSource_ok {ids : List String} {cs : List (Check Positive)} :
    checkSource ids cs = .ok () ↔ (cs.map (·.id)).Nodup ∧ ∀ c ∈ cs, c.id ∉ ids := by
  induction cs generalizing ids with
  | nil => simp [checkSource]
  | cons c cs ih =>
    rw [checkSource, List.map_cons, List.nodup_cons, List.forall_mem_cons]
    by_cases h : c.id ∈ ids
    · simp [h]
    · rw [if_neg h, ih]
      simp only [List.mem_append, List.mem_singleton, not_or, List.mem_map, not_exists, not_and]
      constructor
      · rintro ⟨hnodup, hids⟩
        exact ⟨⟨fun c' hc' => (hids c' hc').2, hnodup⟩, h, fun c' hc' => (hids c' hc').1⟩
      · rintro ⟨⟨hne, hnodup⟩, -, hids⟩
        exact ⟨hnodup, fun c' hc' => ⟨hids c' hc', hne c' hc'⟩⟩

/-- Commands make a suite exactly when each is accepted and no two have the same id; the suite is theirs. -/
theorem buildSuite_ok {source : SuiteSource} {reason : List (Check Positive) → String} {cs : List (Check Positive)}
    {s : Suite Positive} :
    buildSuite source reason cs = .ok s ↔
      (∀ c ∈ cs, c.Accepted) ∧ (cs.map (·.id)).Nodup ∧ s = { checks := cs, source, reason := reason cs } := by
  unfold buildSuite
  constructor
  · intro h
    cases hcs : cs.mapM checkCommand with
    | error e =>
      rw [hcs] at h
      cases h
    | ok checks =>
      obtain ⟨rfl, haccepted⟩ := mapM_checkCommand.1 hcs
      rw [hcs] at h
      dsimp only at h
      cases hsource : checkSource [] checks with
      | error e =>
        rw [hsource] at h
        cases h
      | ok u =>
        rw [hsource] at h
        cases h
        exact ⟨haccepted, (checkSource_ok.1 hsource).1, rfl⟩
  · rintro ⟨haccepted, hnodup, rfl⟩
    rw [mapM_checkCommand.2 ⟨rfl, haccepted⟩]
    dsimp only
    rw [checkSource_ok.2 ⟨hnodup, fun _ _ => List.not_mem_nil⟩]
    rfl

/-- A suite is built. -/
def Built (result : Except String (Suite Positive)) : Prop := ∃ s, result = .ok s

theorem built_buildSuite {source : SuiteSource} {reason : List (Check Positive) → String} {cs : List (Check Positive)} :
    Built (buildSuite source reason cs) ↔ (∀ c ∈ cs, c.Accepted) ∧ (cs.map (·.id)).Nodup := by
  constructor
  · rintro ⟨suite, hsuite⟩
    exact ⟨(buildSuite_ok.1 hsuite).1, (buildSuite_ok.1 hsuite).2.1⟩
  · exact fun h => ⟨_, buildSuite_ok.2 ⟨h.1, h.2, rfl⟩⟩

/-! ## The manifest's checks -/

/-- The entry of a manifest makes a check. -/
def ManifestCheck.Runs (e : ManifestCheck) : Prop := Text.words e.command ≠ []

instance (e : ManifestCheck) : Decidable e.Runs := inferInstanceAs (Decidable (Text.words e.command ≠ []))

/-- The entries that make a check have ids, and no two the same. -/
def CheckManifest.Sound (m : CheckManifest) : Prop :=
  (∀ e ∈ m.checks, e.Runs → Text.blank e.id = false) ∧ ((m.checks.filter (·.Runs)).map (·.id)).Nodup

theorem ManifestCheck.command?_eq_some {e : ManifestCheck} {c : Check Positive} (h : e.command? = some c) :
    e.Runs ∧ c.id = e.id ∧ c.argv = Text.words e.command ∧ (c.validation = .validated ↔ e.validated = true) := by
  unfold command? at h
  by_cases hwords : Text.words e.command = []
  · rw [if_pos hwords] at h
    cases h
  · rw [if_neg hwords] at h
    cases h
    refine ⟨hwords, rfl, rfl, ?_⟩
    cases e.validated <;> simp

theorem ManifestCheck.command?_of_runs {e : ManifestCheck} (h : e.Runs) : ∃ c, e.command? = some c ∧ c.id = e.id := by
  rw [command?, if_neg h]
  exact ⟨_, rfl, rfl⟩

/-- The words of a command are not blank, so its first one is accepted. -/
theorem head_words (command : String) (h : Text.words command ≠ []) : (Text.words command).head?.all Text.blank = false := by
  obtain ⟨word, rest, hwords⟩ := List.exists_cons_of_ne_nil h
  have hmem : word ∈ Text.words command := by
    rw [hwords]
    exact List.mem_cons_self ..
  have hword := Text.not_blank_of_mem_words hmem
  rw [hwords, List.head?_cons, Option.all_some, hword]

theorem ids_commands (es : List ManifestCheck) :
    (es.filterMap (·.command?)).map (·.id) = (es.filter (·.Runs)).map (·.id) := by
  induction es with
  | nil => rfl
  | cons e es ih =>
    by_cases h : e.Runs
    · obtain ⟨c, hc, hid⟩ := ManifestCheck.command?_of_runs h
      rw [List.filterMap_cons_some hc, List.filter_cons_of_pos (by simpa using h), List.map_cons, List.map_cons, ih, hid]
    · have hnone : e.command? = none := if_pos (not_not.1 h)
      rw [List.filterMap_cons_none hnone, List.filter_cons_of_neg (by simpa using h), ih]

theorem accepted_commands {es : List ManifestCheck} :
    (∀ c ∈ es.filterMap (·.command?), c.Accepted) ↔ ∀ e ∈ es, e.Runs → Text.blank e.id = false := by
  constructor
  · intro h e he hruns
    obtain ⟨c, hc, hid⟩ := ManifestCheck.command?_of_runs hruns
    rw [← hid]
    exact (h c (List.mem_filterMap.2 ⟨e, he, hc⟩)).1
  · intro h c hc
    obtain ⟨e, he, hec⟩ := List.mem_filterMap.1 hc
    obtain ⟨hruns, hid, hargv, -⟩ := ManifestCheck.command?_eq_some hec
    refine ⟨by rw [hid]; exact h e he hruns, ?_⟩
    rw [hargv]
    exact head_words e.command hruns

/-- An unusable manifest makes an empty suite that says why. -/
theorem loadManifest_unusable {r : Reader} (name : String) {content : Content} (h : r.manifest content = none) :
    ∃ reason, loadManifest r name content = .ok { checks := [], source := .agentChecks, reason } ∧ reason ≠ "" := by
  unfold Reader.manifest at h
  unfold loadManifest
  cases hraw : r.parseYaml content with
  | error e =>
    refine ⟨_, rfl, fun heq => ?_⟩
    simpa using congrArg String.toList heq
  | ok raw =>
    rw [hraw] at h
    dsimp only at h ⊢
    rw [h]
    refine ⟨_, rfl, fun heq => ?_⟩
    simpa using congrArg String.toList heq

theorem loadManifest_usable {r : Reader} {name : String} {content : Content} {m : CheckManifest}
    (h : r.manifest content = some m) :
    loadManifest r name content =
      buildSuite .agentChecks (fun checks => name ++ " 声明了 " ++ toString checks.length ++ " 个检查")
        (m.checks.filterMap (·.command?)) := by
  unfold Reader.manifest at h
  unfold loadManifest
  cases hraw : r.parseYaml content with
  | error e =>
    rw [hraw] at h
    cases h
  | ok raw =>
    rw [hraw] at h
    dsimp only at h ⊢
    rw [h]

theorem built_loadManifest {r : Reader} {name : String} {content : Content} :
    Built (loadManifest r name content) ↔ ∀ m, r.manifest content = some m → m.Sound := by
  cases h : r.manifest content with
  | none =>
    obtain ⟨reason, hload, -⟩ := loadManifest_unusable name h
    exact iff_of_true ⟨_, hload⟩ fun m hm => by cases hm
  | some m =>
    rw [loadManifest_usable h, built_buildSuite, accepted_commands, ids_commands]
    simp [CheckManifest.Sound]

/-! ## The scripts -/

theorem scriptCheck_accepted (script : String) : (scriptCheck script).Accepted := by
  refine ⟨?_, rfl⟩
  rw [Bool.eq_false_iff, Ne, Text.blank_iff]
  intro h
  have hc := h 'c' (by simp [scriptCheck])
  exact absurd hc (by decide)

theorem built_scripts {reason : List (Check Positive) → String} {scripts : List String} (h : scripts.Nodup) :
    Built (buildSuite .agentChecks reason (scripts.map scriptCheck)) := by
  refine built_buildSuite.2 ⟨?_, ?_⟩
  · intro c hc
    obtain ⟨script, -, rfl⟩ := List.mem_map.1 hc
    exact scriptCheck_accepted script
  · rw [List.map_map]
    have hinj : Function.Injective ((fun c : Check Positive => c.id) ∘ scriptCheck) := fun a b hab =>
      (String.append_right_inj "check_").1 hab
    exact List.Nodup.map hinj h

/-! ## The policy's checks -/

theorem policyId_eq {k : PolicyCheck} (h : Text.blank k.id = false) (index : Nat) :
    policyId index k = Text.strip k.id := by
  have hne : k.id ≠ "" := fun heq => by
    rw [heq, Text.blank_empty] at h
    cases h
  rw [policyId, if_neg hne]

@[simp] theorem policyCommand_id (index : Nat) (k : PolicyCheck) : (policyCommand index k).id = policyId index k := by
  rw [policyCommand]

@[simp] theorem policyCommand_argv (index : Nat) (k : PolicyCheck) :
    (policyCommand index k).argv = Text.words (Text.strip k.command) := by
  rw [policyCommand]

theorem policyCommand_accepted {k : PolicyCheck} (hid : Text.blank k.id = false) (hcommand : Text.blank k.command = false)
    (index : Nat) : policyCommand? index k = some (policyCommand index k) ∧ (policyCommand index k).Accepted := by
  have hwords := Text.words_strip_ne_nil hcommand
  have hblank : Text.blank (policyId index k) = false := by rw [policyId_eq hid, Text.blank_strip, hid]
  have hhead := head_words (Text.strip k.command) hwords
  refine ⟨by rw [policyCommand?, if_neg hwords], ?_⟩
  rw [Check.Accepted, policyCommand_id, policyCommand_argv]
  exact ⟨hblank, hhead⟩

theorem policyCommands_accepted {ks : List PolicyCheck}
    (h : ∀ k ∈ ks, Text.blank k.id = false ∧ Text.blank k.command = false) (index : Nat) :
    (policyCommands index ks).map (·.id) = ks.map (fun k => Text.strip k.id) ∧
      ∀ c ∈ policyCommands index ks, c.Accepted := by
  induction ks generalizing index with
  | nil => exact ⟨rfl, by simp [policyCommands]⟩
  | cons k ks ih =>
    obtain ⟨⟨hid, hcommand⟩, hks⟩ := List.forall_mem_cons.1 h
    obtain ⟨hcommand, haccepted⟩ := policyCommand_accepted hid hcommand index
    obtain ⟨hids, hrest⟩ := ih hks (index + 1)
    have hcid : (policyCommand index k).id = Text.strip k.id := (policyCommand_id index k).trans (policyId_eq hid index)
    rw [policyCommands, hcommand, Option.toList_some, List.singleton_append]
    exact ⟨by rw [List.map_cons, List.map_cons, hids, hcid], List.forall_mem_cons.2 ⟨haccepted, hrest⟩⟩

/-- The ids of a policy's checks are still distinct without the blanks around them. -/
def DistinctStripped (ks : List PolicyCheck) : Prop := (ks.map fun k => Text.strip k.id).Nodup

theorem built_policyChecks {ks : List PolicyCheck}
    (h : ∀ k ∈ ks, Text.blank k.id = false ∧ Text.blank k.command = false) :
    Built (policyChecks ks) ↔ DistinctStripped ks := by
  obtain ⟨hids, haccepted⟩ := policyCommands_accepted h 0
  rw [policyChecks, built_buildSuite, hids]
  exact and_iff_right haccepted

/-! ## Discovery -/

theorem providers_sound :
    ∀ p ∈ providers, (∀ c ∈ p.commands, c.Accepted) ∧ (p.commands.map (·.id)).Nodup := by
  have hall : providers.all (fun p => p.commands.all (fun c =>
      !Text.blank c.id && !(c.argv.head?.all Text.blank)) && decide (p.commands.map (·.id)).Nodup) = true := by
    decide +kernel
  intro p hp
  have hp := List.all_eq_true.1 hall p hp
  rw [Bool.and_eq_true] at hp
  refine ⟨fun c hc => ?_, of_decide_eq_true hp.2⟩
  simpa [Check.Accepted] using List.all_eq_true.1 hp.1 c hc

/-- What providers find in a repository always makes a suite. -/
theorem built_discoverChecks (m : Manifests) : Built (discoverChecks m) := by
  unfold discoverChecks
  dsimp only
  cases hmatched : providers.filterMap m.matched? with
  | nil => exact ⟨_, rfl⟩
  | cons winner displaced =>
    obtain ⟨name, checks⟩ := winner
    have hmem : (name, checks) ∈ providers.filterMap m.matched? := by
      rw [hmatched]
      exact List.mem_cons_self ..
    obtain ⟨p, hp, hsome⟩ := List.mem_filterMap.1 hmem
    have hchecks : checks = p.commands.filter fun c => m.declared c.id := by
      unfold Manifests.matched? at hsome
      split at hsome
      · cases hsome
      · split at hsome
        · cases hsome
        · exact (Prod.mk.inj (Option.some.inj hsome)).2.symm
    obtain ⟨haccepted, hnodup⟩ := providers_sound p hp
    refine built_buildSuite.2 ⟨?_, ?_⟩
    · intro c hc
      rw [hchecks] at hc
      exact haccepted c (List.mem_filter.1 hc).1
    · rw [hchecks]
      exact hnodup.sublist (List.filter_sublist.map _)

/-! ## The documents that are accepted -/

theorem checkChecks_ok {index : Nat} {seen : List String} {ks : List PolicyCheck}
    (h : checkChecks index seen ks = .ok ()) :
    ∀ k ∈ ks, Text.blank k.id = false ∧ Text.blank k.command = false := by
  induction ks generalizing index seen with
  | nil => simp
  | cons k ks ih =>
    rw [checkChecks] at h
    by_cases hid : Text.blank k.id = true
    · rw [if_pos hid] at h
      cases h
    · by_cases hseen : k.id ∈ seen
      · rw [if_neg hid, if_pos hseen] at h
        cases h
      · by_cases hcommand : Text.blank k.command = true
        · rw [if_neg hid, if_neg hseen, if_pos hcommand] at h
          cases h
        · rw [if_neg hid, if_neg hseen, if_neg hcommand] at h
          exact List.forall_mem_cons.2 ⟨⟨Bool.eq_false_iff.2 hid, Bool.eq_false_iff.2 hcommand⟩, ih h⟩

theorem parseDocument_checks {c : Coercions} {hash : Policies.Policy → String} {today : Date} {source : String}
    {path : Option String} {raw : List (Yaml × Yaml)} {d : PolicyDocument}
    (h : Policies.parseDocument c hash today source path raw = .ok d) :
    ∀ k ∈ d.checks, Text.blank k.id = false ∧ Text.blank k.command = false := by
  obtain ⟨-, hvalid, -⟩ := Policies.parseDocument_ok.1 h
  unfold Policies.validateDocument at hvalid
  split at hvalid
  · cases hvalid
  · split at hvalid
    · cases hvalid
    · split at hvalid
      · cases hvalid
      · cases hchecks : checkChecks 0 [] d.checks with
        | error e =>
          rw [hchecks] at hvalid
          cases hvalid
        | ok u => exact checkChecks_ok hchecks

/-! ## Resolution -/

/-- The manifest that is read, if it can be used, names its checks apart. -/
def CheckDirectory.Sound (r : Reader) (d : CheckDirectory) : Prop :=
  ∀ name content m, d.manifest? = some (name, content) → r.manifest content = some m → m.Sound

theorem loadAgentChecks_manifest {r : Reader} {d : CheckDirectory} {name : String} {content : Content}
    (h : d.manifest? = some (name, content)) : loadAgentChecks r (some d) = loadManifest r name content := by
  rw [loadAgentChecks, h]

theorem built_loadAgentChecks_scripts {r : Reader} {d : CheckDirectory} (h : d.manifest? = none) :
    Built (loadAgentChecks r (some d)) := by
  rw [loadAgentChecks, h]
  exact built_scripts d.distinct

theorem built_loadAgentChecks {r : Reader} {directory : Option CheckDirectory} :
    Built (loadAgentChecks r directory) ↔ ∀ d ∈ directory, d.Sound r := by
  cases directory with
  | none => exact iff_of_true ⟨_, rfl⟩ (by simp)
  | some d =>
    simp only [Option.mem_def, Option.some.injEq, forall_eq']
    cases hmanifest : d.manifest? with
    | none =>
      refine iff_of_true (built_loadAgentChecks_scripts hmanifest) fun name content m hm => ?_
      rw [hmanifest] at hm
      cases hm
    | some found =>
      obtain ⟨name, content⟩ := found
      rw [loadAgentChecks_manifest hmanifest, built_loadManifest]
      constructor
      · intro h name' content' m hm
        rw [hmanifest] at hm
        cases hm
        exact h m
      · exact fun h m => h name content m hmanifest

theorem built_resolveUserSuite {m : Manifests} {ks : List PolicyCheck} :
    Built (resolveUserSuite m ks) ↔ Built (policyChecks ks) := by
  unfold resolveUserSuite
  cases h : policyChecks ks with
  | error e => exact iff_of_false (by simp [Built]) (by simp [Built])
  | ok fromPolicy =>
    refine iff_of_true ?_ ⟨_, rfl⟩
    dsimp only
    by_cases hchecks : fromPolicy.checks ≠ []
    · rw [if_pos hchecks]
      exact ⟨_, rfl⟩
    · obtain ⟨found, hfound⟩ := built_discoverChecks m
      rw [if_neg hchecks, hfound]
      exact ⟨_, rfl⟩

/-- Both suites are built exactly when each is. -/
theorem resolveSuites_ok {r : Reader} {m : Manifests} {ks : List PolicyCheck} {directory : Option CheckDirectory} :
    (∃ pair, resolveSuites r m ks directory = .ok pair) ↔
      Built (policyChecks ks) ∧ Built (loadAgentChecks r directory) := by
  rw [← built_resolveUserSuite (m := m)]
  unfold resolveSuites
  cases huser : resolveUserSuite m ks with
  | error e => exact iff_of_false (by simp) (by simp [Built])
  | ok user =>
    cases hai : loadAgentChecks r directory with
    | error e => exact iff_of_false (by simp [Except.map]) (by simp [Built])
    | ok ai => exact iff_of_true ⟨_, rfl⟩ ⟨⟨_, rfl⟩, _, rfl⟩

/-- The resolution is total: every suite is built, and an unusable manifest makes an empty one that says why. -/
def ResolvesSuites (r : Reader) (m : Manifests) (ks : List PolicyCheck) (directory : Option CheckDirectory) : Prop :=
  Built (loadAgentChecks r directory) ∧ Built (policyChecks ks) ∧ (∃ pair, resolveSuites r m ks directory = .ok pair) ∧
    ∀ d ∈ directory, ∀ name content, d.manifest? = some (name, content) → r.manifest content = none →
      ∃ s, loadAgentChecks r directory = .ok s ∧ s.checks = [] ∧ s.reason ≠ ""

/-- Of an accepted policy, both suites are resolved exactly when the manifest names the checks that it runs apart, and
when the policy's ids are still apart without the blanks around them. -/
theorem resolvesSuites_iff (r : Reader) (m : Manifests) (directory : Option CheckDirectory) (c : Coercions)
    (hash : Policies.Policy → String) (today : Date) (source : String) (path : Option String)
    (raw : List (Yaml × Yaml)) (d : PolicyDocument) (h : Policies.parseDocument c hash today source path raw = .ok d) :
    ResolvesSuites r m d.checks directory ↔ (∀ dir ∈ directory, dir.Sound r) ∧ DistinctStripped d.checks := by
  have hpolicy := built_policyChecks (parseDocument_checks h)
  rw [ResolvesSuites, resolveSuites_ok, built_loadAgentChecks, hpolicy]
  constructor
  · exact fun hall => ⟨hall.1, hall.2.1⟩
  · rintro ⟨hsound, hdistinct⟩
    refine ⟨hsound, hdistinct, ⟨hdistinct, hsound⟩, ?_⟩
    intro dir hdir name content hmanifest hnone
    obtain ⟨reason, hload, hne⟩ := loadManifest_unusable name hnone
    cases Option.mem_def.1 hdir
    exact ⟨_, (loadAgentChecks_manifest hmanifest).trans hload, rfl, hne⟩

/-! ## A crash of each kind -/

/-- A check of a manifest or of a policy, as YAML. -/
def checkEntry (id command : String) : Yaml := .mapping (Yaml.record [("id", .str id), ("command", .str command)])

/-- A document that declares checks. -/
def declaring (checks : List (String × String)) : List (Yaml × Yaml) :=
  Yaml.record [("checks", .list (checks.map fun k => checkEntry k.1 k.2))]

/-- A reader for which every file declares the same checks. -/
def reading (checks : List (String × String)) : Reader where
  safeLoad _ := .ok (.mapping (declaring checks))
  undecodable := "invalid start byte"
  coercions := .plain
  refusal _ := "validation error"

/-- A directory with a manifest and nothing else. -/
def manifestOnly : CheckDirectory where
  file name := if name = "checks.yml" then some (.text "") else none
  scripts := []
  distinct := List.nodup_nil

def nothingFound : Manifests where
  broken _ := false
  declared _ := false

/-- A policy with two checks, and a manifest with two others. -/
theorem resolvesSuites_pair :
    ResolvesSuites (reading [("links", "lychee ."), ("a11y", "pa11y dist")]) nothingFound
        [{ id := "lint", command := "ruff check ." }, { id := "types", command := "mypy src" }] (some manifestOnly) ↔
      (∀ dir ∈ some manifestOnly, dir.Sound (reading [("links", "lychee ."), ("a11y", "pa11y dist")])) ∧
        DistinctStripped [{ id := "lint", command := "ruff check ." }, { id := "types", command := "mypy src" }] :=
  resolvesSuites_iff _ nothingFound (some manifestOnly) .plain (fun _ => "") ⟨2026, 1, 1, by decide⟩ "file" none
    (declaring [("lint", "ruff check ."), ("types", "mypy src")])
    { checks := [{ id := "lint", command := "ruff check ." }, { id := "types", command := "mypy src" }]
      policySource := "file", policyHash := "", warnings := [], path := none } rfl

/-- A manifest that names a check twice, one that names it by a blank, and a policy whose ids a blank tells apart. -/
theorem suite_crashes :
    loadAgentChecks (reading [("lint", "ruff"), ("lint", "mypy")]) (some manifestOnly) =
        .error "suite 里出现重复的 check id：lint" ∧
      loadAgentChecks (reading [(" ", "ruff")]) (some manifestOnly) = .error "check id 不能为空" ∧
      ∃ d, Policies.parseDocument .plain (fun _ => "") ⟨2026, 1, 1, by decide⟩ "file" none
          (declaring [("lint", "ruff"), ("lint ", "mypy")]) = .ok d ∧
        policyChecks d.checks = .error "suite 里出现重复的 check id：lint" := by
  refine ⟨rfl, rfl, ?_⟩
  exact ⟨_, rfl, rfl⟩

end OpenFish.Gates
