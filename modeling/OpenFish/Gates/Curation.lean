/-
What a curator's run leaves of the flags that a model wrote (`services/check_curator.py`): the manifest is written back
with what the validator proved, and an entry that nothing was proved of is not validated.
-/
import OpenFish.Gates.Falsifiability

namespace OpenFish.Gates

open Lib
open Lib.Yaml (Coercions Positive)

/-! ## Writing a manifest -/

/-- `model_dump(mode="json")`. -/
def ManifestCheck.modelDump (e : ManifestCheck) : Yaml :=
  .mapping (Yaml.record
    [("id", .str e.id), ("command", .str e.command), ("cwd", .str e.cwd),
      ("timeout", (e.timeout.map fun x => Yaml.float x.1).getD .null), ("validated", .bool e.validated)])

def CheckManifest.modelDump (m : CheckManifest) : List (Yaml × Yaml) :=
  Yaml.record [("version", .int m.version), ("checks", .list (m.checks.map (·.modelDump)))]

/-- `write_text` of a file in the directory. -/
def CheckDirectory.write (d : CheckDirectory) (name : String) (content : Content) : CheckDirectory where
  file n := if n = name then some content else d.file n
  scripts := d.scripts
  distinct := d.distinct

/-- `proven.get(id, False)`, where the last validation of an id counts. -/
def proven (validations : List CheckValidation) (id : String) : Bool :=
  ((validations.reverse.find? fun v => v.checkId = id).map (·.validated)).getD false

/-- The entry with the flag that was proved. -/
def ManifestCheck.judged (validations : List CheckValidation) (e : ManifestCheck) : ManifestCheck :=
  { e with validated := proven validations e.id }

def CheckManifest.judged (validations : List CheckValidation) (m : CheckManifest) : CheckManifest :=
  { m with checks := m.checks.map (·.judged validations) }

section Curation

variable (r : Reader) (dumpYaml : List (Yaml × Yaml) → String)

/-- `apply_validations` to the manifest of a name: how many entries changed, and the directory after it. -/
def applyValidations (d : CheckDirectory) (name : String) (content : Content) (validations : List CheckValidation) :
    Nat × CheckDirectory :=
  match r.manifest content with
  | none => (0, d)
  | some manifest =>
    let changed := manifest.checks.countP fun e => e.validated ≠ proven validations e.id
    if changed = 0 then (0, d)
    else (changed, d.write name (.text (dumpYaml (manifest.judged validations).modelDump)))

/-- What validates a check. A run may write what it likes, also in the directory. -/
structure Validator where
  run : Check Positive → Option CheckDirectory → CheckValidation × Option CheckDirectory
  names : ∀ c d, (run c d).1.checkId = c.id

/-- `validate_check` in a tree, with what the runs of a check leave of the directory. -/
def treeValidator (reach : Tree → String → Option (List String)) (status : Check Positive → Tree → Option GateStatus)
    (seeders : List Seeder) (maxSeeds : Int) (T : Tree)
    (leaves : Check Positive → Option CheckDirectory → Option CheckDirectory) : Validator where
  run c d := (validateWith reach c.id (status c) seeders maxSeeds T, leaves c d)
  names c _ := checkId_validateWith reach c.id (status c) seeders maxSeeds T

/-- The checks are validated one after the other. -/
def Validator.runAll (V : Validator) : List (Check Positive) → Option CheckDirectory →
    List CheckValidation × Option CheckDirectory
  | [], d => ([], d)
  | c :: cs, d => ((V.run c d).1 :: (V.runAll cs (V.run c d).2).1, (V.runAll cs (V.run c d).2).2)

/-- The checks for which they return `validated`. -/
def Validator.proves (V : Validator) : List (Check Positive) → Option CheckDirectory → List (Check Positive)
  | [], _ => []
  | c :: cs, d => (if (V.run c d).1.validated then [c] else []) ++ V.proves cs (V.run c d).2

structure CuratorReport where
  suiteHash : String
  source : SuiteSource
  checks : List (Check Positive)
  validations : List CheckValidation
  manifest : Option String
  notes : List String

/-- `curate_workspace`: the report, unless a suite cannot be built, and the directory that is left. -/
def curateWorkspace (fingerprint : Suite Positive → String) (V : Validator) (maxChecks : Int)
    (directory : Option CheckDirectory) : Except String CuratorReport × Option CheckDirectory :=
  match loadAgentChecks r directory with
  | .error e => (.error e, directory)
  | .ok suite =>
    let runs := V.runAll (suite.checks.take maxChecks.toNat) directory
    let notes :=
      (if suite.checks = [] then ["提案里没有可解析的检查（模型可能没有写 .agent/checks/）；没有可验证的对象"] else []) ++
        if maxChecks < suite.checks.length then
          ["只验证了前 " ++ toString maxChecks ++ " 个检查（共 " ++ toString suite.checks.length ++ " 个）"]
        else []
    let report := fun (s : Suite Positive) (manifest : Option String) (more : List String) =>
      CuratorReport.mk (fingerprint s) s.source s.checks runs.1 manifest (notes ++ more)
    match runs.2.bind fun d => d.manifest?.map fun found => (d, found) with
    | none =>
      (.ok (report suite none
        (if runs.1 = [] then []
        else ["没有 checks.yml manifest：验证结果只进数据库，检查在树里仍是 unvalidated（不会门控），直到策展人补一个 manifest"])),
        runs.2)
    | some (d, name, content) =>
      if runs.1 = [] then (.ok (report suite (some name) []), runs.2)
      else
        let applied := applyValidations r dumpYaml d name content runs.1
        let changedNote :=
          if applied.1 = 0 then []
          else ["manifest 里 " ++ toString applied.1 ++ " 个检查的 validated 状态被证伪结果改写"]
        -- resolved once more, for the report
        ((loadAgentChecks r (some applied.2)).map fun again => report again (some name) changedNote, some applied.2)

/-! ## Reading a manifest back -/

theorem ManifestCheck.validate_modelDump {c : Coercions} (h : c.Lawful) (e : ManifestCheck) :
    ManifestCheck.validate c e.modelDump = some e := by
  have htimeout : Yaml.optional c.positive ((e.timeout.map fun x => Yaml.float x.1).getD .null) = some e.timeout :=
    Yaml.optional_dump (fun x => h.positive x) (fun x => by simp) e.timeout
  rw [modelDump]
  generalize (e.timeout.map fun x => Yaml.float x.1).getD .null = timeout at htimeout ⊢
  simp [validate, Yaml.entries?, Yaml.field, Yaml.required, fields, h.str, h.bool, htimeout]

theorem CheckManifest.validate_modelDump {c : Coercions} (h : c.Lawful) (m : CheckManifest) :
    CheckManifest.validate c m.modelDump = some m := by
  have hchecks := h.listOf (ManifestCheck.validate_modelDump h) m.checks
  simp [validate, modelDump, Yaml.field, fields, h.int, hchecks]

/-- A manifest that was read comes back with whatever flags are written into it. -/
def RoundTrips (r : Reader) (dumpYaml : List (Yaml × Yaml) → String) : Prop :=
  ∀ content m validations, r.manifest content = some m →
    r.manifest (.text (dumpYaml (m.judged validations).modelDump)) = some (m.judged validations)

/-- So it is where YAML comes back as it was dumped. -/
theorem roundTrips_of_yaml {r : Reader} {dumpYaml : List (Yaml × Yaml) → String} (h : r.coercions.Lawful)
    (hround : ∀ m : CheckManifest, r.safeLoad (dumpYaml m.modelDump) = .ok (.mapping m.modelDump)) :
    RoundTrips r dumpYaml := by
  intro content m validations _
  rw [Reader.manifest, Reader.parseYaml, hround]
  exact CheckManifest.validate_modelDump h _

/-! ## What is proved -/

theorem proven_true {validations : List CheckValidation} {id : String} (h : proven validations id = true) :
    ∃ v ∈ validations, v.checkId = id ∧ v.validated = true := by
  unfold proven at h
  cases hfind : validations.reverse.find? fun v => v.checkId = id with
  | none =>
    rw [hfind] at h
    cases h
  | some v =>
    rw [hfind] at h
    have hid := List.find?_some hfind
    exact ⟨v, List.mem_reverse.1 (List.mem_of_find?_eq_some hfind), of_decide_eq_true hid, h⟩

/-- Where no two validations are of one id. -/
theorem proven_iff {validations : List CheckValidation} (hdistinct : (validations.map (·.checkId)).Nodup) {id : String} :
    proven validations id = true ↔ ∃ v ∈ validations, v.checkId = id ∧ v.validated = true := by
  refine ⟨proven_true, fun ⟨v, hv, hid, hvalidated⟩ => ?_⟩
  unfold proven
  cases hfind : validations.reverse.find? fun v => v.checkId = id with
  | none => exact absurd hid (by simpa using List.find?_eq_none.1 hfind v (List.mem_reverse.2 hv))
  | some v' =>
    have hid' : v'.checkId = id := of_decide_eq_true (List.find?_some hfind :)
    have hv' := List.mem_reverse.1 (List.mem_of_find?_eq_some hfind)
    rw [List.inj_on_of_nodup_map hdistinct hv' hv (hid'.trans hid.symm)]
    exact hvalidated

theorem manifest?_write {d : CheckDirectory} {name : String} {content : Content} (h : d.manifest? = some (name, content))
    (content' : Content) : (d.write name content').manifest? = some (name, content') := by
  unfold CheckDirectory.manifest? checkManifestNames at h ⊢
  simp only [List.findSome?_cons, List.findSome?_nil, CheckDirectory.write] at h ⊢
  cases hyml : d.file "checks.yml" with
  | some c =>
    rw [hyml] at h
    cases h
    rfl
  | none =>
    cases hyaml : d.file "checks.yaml" with
    | some c =>
      rw [hyml, hyaml] at h
      cases h
      simp
    | none =>
      rw [hyml, hyaml] at h
      cases h

/-- Where no entry changes, the flags of the manifest are what was proved. -/
theorem judged_of_unchanged {m : CheckManifest} {validations : List CheckValidation}
    (h : (m.checks.countP fun e => e.validated ≠ proven validations e.id) = 0) : m.judged validations = m := by
  have hflags : m.checks.map (·.judged validations) = m.checks := by
    refine List.map_congr_left (fun e he => ?_) |>.trans (List.map_id _)
    have hsame : e.validated = proven validations e.id := by simpa using List.countP_eq_zero.1 h e he
    rw [ManifestCheck.judged, ← hsame]
    rfl
  rw [CheckManifest.judged, hflags]

/-- The manifest that is left is judged. -/
theorem applyValidations_manifest {r : Reader} {dumpYaml : List (Yaml × Yaml) → String} (hround : RoundTrips r dumpYaml)
    {d : CheckDirectory} {name : String} {content : Content} (h : d.manifest? = some (name, content)) {m : CheckManifest}
    (hm : r.manifest content = some m) (validations : List CheckValidation) :
    ∃ content', (applyValidations r dumpYaml d name content validations).2.manifest? = some (name, content') ∧
      r.manifest content' = some (m.judged validations) := by
  unfold applyValidations
  rw [hm]
  dsimp only
  by_cases hchanged : (m.checks.countP fun e => e.validated ≠ proven validations e.id) = 0
  · rw [if_pos hchanged]
    exact ⟨content, h, by rw [judged_of_unchanged hchanged, hm]⟩
  · rw [if_neg hchanged]
    exact ⟨_, manifest?_write h _, hround content m validations hm⟩

/-! ## The runs -/

section Runs

variable {V : Validator} {cs : List (Check Positive)} {d : Option CheckDirectory}

theorem checkIds_runAll : (V.runAll cs d).1.map (·.checkId) = cs.map (·.id) := by
  induction cs generalizing d with
  | nil => rfl
  | cons c cs ih => rw [Validator.runAll, List.map_cons, List.map_cons, ih, V.names]

theorem proves_sublist : (V.proves cs d).Sublist cs := by
  induction cs generalizing d with
  | nil => exact List.Sublist.slnil
  | cons c cs ih =>
    rw [Validator.proves]
    split
    · exact ih.cons_cons c
    · exact ih.cons c

theorem mem_runAll_iff {id : String} :
    (∃ v ∈ (V.runAll cs d).1, v.checkId = id ∧ v.validated = true) ↔ ∃ c ∈ V.proves cs d, c.id = id := by
  induction cs generalizing d with
  | nil => simp [Validator.runAll, Validator.proves]
  | cons c cs ih =>
    have hrest := @ih (V.run c d).2
    rw [Validator.runAll, Validator.proves]
    by_cases hvalidated : (V.run c d).1.validated = true
    · simp [hrest, hvalidated, V.names]
    · simp [hrest, hvalidated]

theorem proven_runAll (hdistinct : (cs.map (·.id)).Nodup) {id : String} :
    proven (V.runAll cs d).1 id = true ↔ ∃ c ∈ V.proves cs d, c.id = id := by
  rw [proven_iff (by rw [checkIds_runAll]; exact hdistinct), mem_runAll_iff]

/-- Runs that leave the directory alone. -/
def Validator.Undisturbing (V : Validator) : Prop := ∀ c d, (V.run c d).2 = d

theorem runAll_undisturbed (h : V.Undisturbing) : (V.runAll cs d).2 = d := by
  induction cs generalizing d with
  | nil => rfl
  | cons c cs ih => rw [Validator.runAll, ih, h c d]

end Runs

/-! ## What is left validated -/

theorem nodup_of_loaded {r : Reader} {directory : Option CheckDirectory} {s : Suite Positive}
    (h : loadAgentChecks r directory = .ok s) : (s.checks.map (·.id)).Nodup := by
  unfold loadAgentChecks at h
  split at h
  · cases h
    exact List.nodup_nil
  · split at h
    · rename_i name content _
      cases hm : r.manifest content with
      | none =>
        obtain ⟨reason, hload, -⟩ := loadManifest_unusable name hm
        rw [hload] at h
        cases h
        exact List.nodup_nil
      | some m =>
        rw [loadManifest_usable hm] at h
        obtain ⟨-, hnodup, rfl⟩ := buildSuite_ok.1 h
        exact hnodup
    · obtain ⟨-, hnodup, rfl⟩ := buildSuite_ok.1 h
      exact hnodup

/-- Without a manifest no check is validated. -/
theorem unvalidated_of_scripts {r : Reader} {d : CheckDirectory} {s : Suite Positive} (h : d.manifest? = none)
    (hs : loadAgentChecks r (some d) = .ok s) {c : Check Positive} (hc : c ∈ s.checks) : c.validation = .unvalidated := by
  rw [loadAgentChecks, h] at hs
  obtain ⟨-, -, rfl⟩ := buildSuite_ok.1 hs
  obtain ⟨script, -, rfl⟩ := List.mem_map.1 hc
  rfl

/-- The check with the flag that was proved. -/
def Check.judged (validations : List CheckValidation) (c : Check Positive) : Check Positive :=
  { c with validation := if proven validations c.id then .validated else .unvalidated }

theorem judged_validated {validations : List CheckValidation} {c : Check Positive} :
    (c.judged validations).validation = .validated ↔ proven validations c.id = true := by
  unfold Check.judged
  split <;> simp_all

/-- The check of a judged entry is the entry's check, but for the flag. -/
theorem command?_judged (validations : List CheckValidation) (e : ManifestCheck) :
    (e.judged validations).command? = e.command?.map (·.judged validations) := by
  unfold ManifestCheck.command?
  by_cases hwords : Text.words e.command = []
  · have hjudged : Text.words (e.judged validations).command = [] := hwords
    rw [if_pos hjudged, if_pos hwords]
    rfl
  · have hjudged : Text.words (e.judged validations).command ≠ [] := hwords
    rw [if_neg hjudged, if_neg hwords]
    rfl

theorem commands_judged (validations : List CheckValidation) (m : CheckManifest) :
    (m.judged validations).checks.filterMap (·.command?) =
      (m.checks.filterMap (·.command?)).map (·.judged validations) := by
  rw [CheckManifest.judged, List.filterMap_map, List.map_filterMap]
  exact congrArg (List.filterMap · m.checks) (funext fun e => command?_judged validations e)

section Left

variable {r : Reader} {dumpYaml : List (Yaml × Yaml) → String} {fingerprint : Suite Positive → String} {V : Validator}
  {maxChecks : Int} {directory : Option CheckDirectory} {suite : Suite Positive}

/-- What is resolved after the validations were written is what was resolved before, with the flags that were proved. -/
theorem loadAgentChecks_applied (hround : RoundTrips r dumpYaml) {d : CheckDirectory} {name : String} {content : Content}
    (h : d.manifest? = some (name, content)) (validations : List CheckValidation) (checks : List (Check Positive)) :
    (∃ s, loadAgentChecks r (some (applyValidations r dumpYaml d name content validations).2) = .ok s ∧ s.checks = checks) ↔
      ∃ s, loadAgentChecks r (some d) = .ok s ∧ checks = s.checks.map (·.judged validations) := by
  cases hm : r.manifest content with
  | none =>
    obtain ⟨reason, hload, -⟩ := loadManifest_unusable name hm
    have hsame : (applyValidations r dumpYaml d name content validations).2 = d := by rw [applyValidations, hm]
    rw [hsame, loadAgentChecks_manifest h, hload]
    simp [eq_comm]
  | some m =>
    obtain ⟨content', hcontent', hm'⟩ := applyValidations_manifest hround h hm validations
    rw [loadAgentChecks_manifest hcontent', loadManifest_usable hm', loadAgentChecks_manifest h, loadManifest_usable hm,
      commands_judged]
    simp only [buildSuite_ok]
    constructor
    · rintro ⟨s, ⟨haccepted, hnodup, rfl⟩, rfl⟩
      refine ⟨_, ⟨fun c hc => haccepted (c.judged validations) (List.mem_map_of_mem hc), ?_, rfl⟩, rfl⟩
      rw [List.map_map] at hnodup
      exact hnodup
    · rintro ⟨s, ⟨haccepted, hnodup, rfl⟩, rfl⟩
      refine ⟨_, ⟨fun c hc => ?_, ?_, rfl⟩, rfl⟩
      · obtain ⟨c₀, hc₀, rfl⟩ := List.mem_map.1 hc
        exact haccepted c₀ hc₀
      · rw [List.map_map]
        exact hnodup

/-- Where the runs leave no manifest, or where there was nothing to run, the directory is as they leave it. -/
theorem curateWorkspace_left (h : loadAgentChecks r directory = .ok suite)
    (hnone : (∀ d, (V.runAll (suite.checks.take maxChecks.toNat) directory).2 = some d → d.manifest? = none) ∨
      (V.runAll (suite.checks.take maxChecks.toNat) directory).1 = []) :
    (curateWorkspace r dumpYaml fingerprint V maxChecks directory).2 =
      (V.runAll (suite.checks.take maxChecks.toNat) directory).2 := by
  rw [curateWorkspace, h]
  dsimp only
  split
  · rfl
  · rename_i d name content hfound
    rcases hnone with hnone | hempty
    · obtain ⟨d', hd', hmap⟩ := Option.bind_eq_some_iff.1 hfound
      rw [hnone d' hd'] at hmap
      cases hmap
    · rw [if_pos hempty]

/-- Where they leave a manifest, what they proved is written into it. -/
theorem curateWorkspace_applied (h : loadAgentChecks r directory = .ok suite)
    (hruns : (V.runAll (suite.checks.take maxChecks.toNat) directory).1 ≠ []) {d : CheckDirectory} {name : String}
    {content : Content} (hd : (V.runAll (suite.checks.take maxChecks.toNat) directory).2 = some d)
    (hmanifest : d.manifest? = some (name, content)) :
    (curateWorkspace r dumpYaml fingerprint V maxChecks directory).2 =
      some (applyValidations r dumpYaml d name content
        (V.runAll (suite.checks.take maxChecks.toNat) directory).1).2 := by
  rw [curateWorkspace, h]
  dsimp only
  rw [hd, Option.bind_some, hmanifest, Option.map_some]
  dsimp only
  rw [if_neg hruns]

theorem runs_eq_nil (hmax : 1 ≤ maxChecks)
    (hruns : (V.runAll (suite.checks.take maxChecks.toNat) directory).1 = []) : suite.checks = [] := by
  cases hchecks : suite.checks with
  | nil => rfl
  | cons c cs =>
    obtain ⟨n, hn⟩ : ∃ n, maxChecks.toNat = n + 1 := ⟨maxChecks.toNat - 1, by omega⟩
    rw [hchecks, hn, List.take_succ_cons] at hruns
    cases hruns

variable (r dumpYaml fingerprint V maxChecks directory)

/-- After a curator's run every check that is resolved as validated is one that the run validated. -/
def PromotesProven : Prop :=
  ∀ suite s, loadAgentChecks r directory = .ok suite →
    loadAgentChecks r (curateWorkspace r dumpYaml fingerprint V maxChecks directory).2 = .ok s →
      ∀ c ∈ s.checks, c.validation = .validated →
        ∃ c₀ ∈ V.proves (suite.checks.take maxChecks.toNat) directory, c = { c₀ with validation := .validated }

/-- What the runs leave in a manifest under the id of a check that they validate is that check. -/
def LeavesEntries : Prop :=
  ∀ suite d s, loadAgentChecks r directory = .ok suite →
    (V.runAll (suite.checks.take maxChecks.toNat) directory).2 = some d → d.manifest?.isSome = true →
      loadAgentChecks r (some d) = .ok s →
        ∀ c ∈ V.proves (suite.checks.take maxChecks.toNat) directory, ∀ c' ∈ s.checks, c'.id = c.id →
          c' = { c with validation := c'.validation }

variable {r dumpYaml fingerprint V maxChecks directory}

theorem leavesEntries_of_undisturbing (h : V.Undisturbing) : LeavesEntries r V maxChecks directory := by
  intro suite d s hsuite hd _ hs c hc c' hc' hid
  rw [runAll_undisturbed h] at hd
  rw [hd, hs] at hsuite
  cases hsuite
  have hmem := List.mem_of_mem_take (proves_sublist.subset hc)
  rw [List.inj_on_of_nodup_map (nodup_of_loaded hs) hc' hmem hid]

/-- A check that is left validated was under the id of one that the runs validated. -/
theorem PromotesProven.of_leavesEntries (hround : RoundTrips r dumpYaml) (hmax : 1 ≤ maxChecks)
    (h : LeavesEntries r V maxChecks directory) : PromotesProven r dumpYaml fingerprint V maxChecks directory := by
  intro suite s hsuite hs c hmem hc
  by_cases hruns : (V.runAll (suite.checks.take maxChecks.toNat) directory).1 = []
  · -- nothing was to be run, so there was no check, and there is none
    have hnone := runs_eq_nil hmax hruns
    rw [curateWorkspace_left hsuite (.inr hruns), hnone, List.take_nil, Validator.runAll, hsuite] at hs
    cases hs
    rw [hnone] at hmem
    cases hmem
  · cases hd : (V.runAll (suite.checks.take maxChecks.toNat) directory).2 with
    | none =>
      rw [curateWorkspace_left hsuite (.inl fun d h => by rw [hd] at h; cases h), hd] at hs
      cases hs
      cases hmem
    | some d =>
      cases hmanifest : d.manifest? with
      | none =>
        rw [curateWorkspace_left hsuite (.inl fun d' h => by rw [hd] at h; cases h; exact hmanifest), hd] at hs
        rw [unvalidated_of_scripts hmanifest hs hmem] at hc
        cases hc
      | some found =>
        rw [curateWorkspace_applied hsuite hruns hd hmanifest] at hs
        obtain ⟨s₀, hs₀, hchecks⟩ := (loadAgentChecks_applied hround hmanifest _ _).1 ⟨s, hs, rfl⟩
        rw [hchecks] at hmem
        obtain ⟨c₁, hc₁, rfl⟩ := List.mem_map.1 hmem
        have hdistinct := (nodup_of_loaded hsuite).sublist ((List.take_sublist maxChecks.toNat _).map _)
        obtain ⟨c₀, hc₀, hid⟩ := (proven_runAll hdistinct).1 (judged_validated.1 hc)
        refine ⟨c₀, hc₀, ?_⟩
        have heq := h suite d s₀ hsuite hd (by rw [hmanifest]; rfl) hs₀ c₀ hc₀ c₁ hc₁ hid.symm
        rw [← hc, Check.judged, heq]

/-- Whatever is left under the id of a validated check is promoted. -/
theorem PromotesProven.leavesEntries (hround : RoundTrips r dumpYaml)
    (h : PromotesProven r dumpYaml fingerprint V maxChecks directory) : LeavesEntries r V maxChecks directory := by
  intro suite d s₀ hsuite hd hsome hs₀ c hc c' hc' hid
  obtain ⟨⟨name, content⟩, hmanifest⟩ := Option.isSome_iff_exists.1 hsome
  have hdistinct := (nodup_of_loaded hsuite).sublist ((List.take_sublist maxChecks.toNat _).map _)
  have hproven := (proven_runAll (V := V) (d := directory) hdistinct).2 ⟨c, hc, hid.symm⟩
  have hruns : (V.runAll (suite.checks.take maxChecks.toNat) directory).1 ≠ [] := fun hnil => by
    obtain ⟨v, hv, -⟩ := proven_true hproven
    rw [hnil] at hv
    cases hv
  obtain ⟨s, hs, hchecks⟩ := (loadAgentChecks_applied hround hmanifest
    (V.runAll (suite.checks.take maxChecks.toNat) directory).1 _).2 ⟨s₀, hs₀, rfl⟩
  have happlied : (curateWorkspace r dumpYaml fingerprint V maxChecks directory).2 = _ :=
    curateWorkspace_applied hsuite hruns hd hmanifest
  rw [← happlied] at hs
  obtain ⟨c₀, hc₀, heq⟩ := h suite s hsuite hs (c'.judged _) (hchecks ▸ List.mem_map_of_mem hc')
    (judged_validated.2 hproven)
  have hsame : c₀ = c := by
    refine List.inj_on_of_nodup_map hdistinct (proves_sublist.subset hc₀) (proves_sublist.subset hc) ?_
    exact (congrArg Check.id heq).symm.trans hid
  subst hsame
  obtain ⟨id, argv, cwd, timeout, validation⟩ := c'
  simp only [Check.judged, Check.mk.injEq] at heq ⊢
  exact ⟨heq.1, heq.2.1, heq.2.2.1, heq.2.2.2.1, trivial⟩

end Left

/-- A curator's run promotes only what it proved exactly when its runs leave, in the manifest, the entries of the checks that
they validate. -/
theorem promotesProven_iff (r : Reader) (dumpYaml : List (Yaml × Yaml) → String) (hround : RoundTrips r dumpYaml)
    (fingerprint : Suite Positive → String) (V : Validator) (maxChecks : Int) (hmax : 1 ≤ maxChecks)
    (directory : Option CheckDirectory) :
    PromotesProven r dumpYaml fingerprint V maxChecks directory ↔ LeavesEntries r V maxChecks directory :=
  ⟨PromotesProven.leavesEntries hround, PromotesProven.of_leavesEntries hround hmax⟩

/-! ## Two runs -/

/-- A manifest of two checks with their flags. A run may have put another command under the id of the first one. -/
def sampleManifest (swapped lint ok : Bool) : CheckManifest where
  checks :=
    [{ id := "lint", command := if swapped then "true" else "sh tools/lint.sh", validated := lint },
      { id := "ok", command := "true", validated := ok }]

def sampleText (swapped lint ok : Bool) : String :=
  "version: 1\nchecks:\n- id: lint\n  command: " ++ (if swapped then "'true'" else "sh tools/lint.sh") ++
    "\n  cwd: .\n  timeout: null\n  validated: " ++ toString lint ++
    "\n- id: ok\n  command: 'true'\n  cwd: .\n  timeout: null\n  validated: " ++ toString ok ++ "\n"

def samples : List (Bool × Bool × Bool) :=
  [true, false].flatMap fun a => [true, false].flatMap fun b => [true, false].map fun c => (a, b, c)

/-- YAML of these manifests. -/
def sampleReader : Reader where
  safeLoad text :=
    match samples.find? fun e => sampleText e.1 e.2.1 e.2.2 = text with
    | some e => .ok (.mapping (sampleManifest e.1 e.2.1 e.2.2).modelDump)
    | none => .error "no text"
  undecodable := ""
  coercions := .plain
  refusal _ := ""

def sampleDump (entries : List (Yaml × Yaml)) : String :=
  match samples.find? fun e => CheckManifest.validate .plain entries = some (sampleManifest e.1 e.2.1 e.2.2) with
  | some e => sampleText e.1 e.2.1 e.2.2
  | none => ""

theorem sampleReader_manifest {content : Content} {m : CheckManifest} (h : sampleReader.manifest content = some m) :
    ∃ swapped lint ok, m = sampleManifest swapped lint ok := by
  unfold Reader.manifest Reader.parseYaml sampleReader at h
  cases content with
  | undecodable bytes => cases h
  | text s =>
    dsimp only at h
    cases hfind : samples.find? fun e => sampleText e.1 e.2.1 e.2.2 = s with
    | none =>
      rw [hfind] at h
      cases h
    | some e =>
      rw [hfind] at h
      dsimp only at h
      rw [CheckManifest.validate_modelDump Yaml.Coercions.plain_lawful] at h
      exact ⟨_, _, _, (Option.some.inj h).symm⟩

theorem sampleReader_roundTrips : RoundTrips sampleReader sampleDump := by
  have hall : ∀ swapped lint ok, sampleReader.manifest (.text (sampleDump (sampleManifest swapped lint ok).modelDump)) =
      some (sampleManifest swapped lint ok) := by decide +kernel
  intro content m validations hm
  obtain ⟨swapped, lint, ok, rfl⟩ := sampleReader_manifest hm
  exact hall swapped (proven validations "lint") (proven validations "ok")

/-- The manifest that the model wrote: it claims that both of its checks are validated. -/
def sampleDirectory : CheckDirectory where
  file name := if name = "checks.yml" then some (.text (sampleText false true true)) else none
  scripts := []
  distinct := List.nodup_nil

/-- The first check passes as long as the source is as it was, the second one always. -/
def lintStatus (c : Check Positive) (T : Tree) : Option GateStatus :=
  if c.id = "lint" ∧ T.get? ["src", "app.js"] ≠ dependingTree.get? ["src", "app.js"] then some .failed else some .passed

/-- The validator finds out that the first one can fail. -/
def lintValidator (leaves : Check Positive → Option CheckDirectory → Option CheckDirectory) : Validator :=
  treeValidator plainReach lintStatus [flipSeeder] 6 dependingTree leaves

/-- The script of the first check puts another command under its id while its baseline runs in the checkout. -/
def swapping (c : Check Positive) (directory : Option CheckDirectory) : Option CheckDirectory :=
  if c.id = "lint" then directory.map (·.write "checks.yml" (.text (sampleText true false false))) else directory

/-- The checks that are resolved, with what they run and whether they are validated. -/
def resolvedChecks (directory : Option CheckDirectory) : Option (List (String × List String × Validation)) :=
  (loadAgentChecks sampleReader directory).toOption.map fun s => s.checks.map fun c => (c.id, c.argv, c.validation)

theorem resolvedChecks_eq {directory : Option CheckDirectory} {checks : List (String × List String × Validation)}
    (h : resolvedChecks directory = some checks) :
    ∃ s, loadAgentChecks sampleReader directory = .ok s ∧ (s.checks.map fun c => (c.id, c.argv, c.validation)) = checks := by
  obtain ⟨s, hs, hchecks⟩ := Option.map_eq_some_iff.1 h
  cases hload : loadAgentChecks sampleReader directory with
  | error e =>
    rw [hload] at hs
    cases hs
  | ok s' =>
    rw [hload] at hs
    cases hs
    exact ⟨_, rfl, hchecks⟩

/-- Where the scripts leave the manifest alone, the flag of the second check is taken back. -/
theorem lint_promoted :
    resolvedChecks
        (curateWorkspace sampleReader sampleDump (fun _ => "") (lintValidator fun _ d => d) 20 (some sampleDirectory)).2 =
      some [("lint", ["sh", "tools/lint.sh"], .validated), ("ok", ["true"], .unvalidated)] ∧
    PromotesProven sampleReader sampleDump (fun _ => "") (lintValidator fun _ d => d) 20 (some sampleDirectory) :=
  ⟨by decide +kernel,
    (promotesProven_iff sampleReader sampleDump sampleReader_roundTrips (fun _ => "") _ 20 (by decide) _).2
      (leavesEntries_of_undisturbing fun _ _ => rfl)⟩

/-- A command that was never run is left validated. -/
theorem swapped_promoted :
    RoundTrips sampleReader sampleDump ∧
      ¬ PromotesProven sampleReader sampleDump (fun _ => "") (lintValidator swapping) 20 (some sampleDirectory) := by
  refine ⟨sampleReader_roundTrips, fun h => ?_⟩
  have hbefore : resolvedChecks (some sampleDirectory) =
      some [("lint", ["sh", "tools/lint.sh"], .validated), ("ok", ["true"], .validated)] := by decide +kernel
  have hafter : resolvedChecks
      (curateWorkspace sampleReader sampleDump (fun _ => "") (lintValidator swapping) 20 (some sampleDirectory)).2 =
        some [("lint", ["true"], .validated), ("ok", ["true"], .unvalidated)] := by decide +kernel
  obtain ⟨suite, hsuite, hchecks⟩ := resolvedChecks_eq hbefore
  obtain ⟨s, hs, hleft⟩ := resolvedChecks_eq hafter
  obtain ⟨c, hc, heq⟩ := List.mem_map.1 (hleft.symm ▸ List.mem_cons_self ..)
  simp only [Prod.mk.injEq] at heq
  obtain ⟨c₀, hc₀, hproved⟩ := h suite s hsuite hs c hc heq.2.2
  have hrun := List.mem_map_of_mem (f := fun c => (c.id, c.argv, c.validation))
    (List.mem_of_mem_take (proves_sublist.subset hc₀))
  rw [hchecks] at hrun
  have hid : c₀.id = "lint" := by rw [← heq.1, hproved]
  have hargv : c₀.argv = ["true"] := by rw [← heq.2.1, hproved]
  simp [hid, hargv] at hrun

end Curation

end OpenFish.Gates
