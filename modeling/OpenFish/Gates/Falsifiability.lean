/-
The falsifiability validator (`services/check_validation.py`): a check is validated when it passes on the checkout and
fails on a copy of it with a seeded fault. The copy leaves directories out that the checkout has.
-/
import OpenFish.Gates.Resolution
import OpenFish.Gates.Suite
import OpenFish.Lib.Dict

namespace OpenFish.Gates

open Lib

/-! ## Trees -/

/-- `COPY_IGNORE`. -/
def copyIgnore : List String :=
  [".git", ".hg", ".svn", "__pycache__", ".venv", "venv", "node_modules", ".mypy_cache", ".pytest_cache", ".ruff_cache",
    "dist", "build", "target"]

/-- What a name stands for. A pipe or a socket is special: it cannot be copied. -/
inductive Entry
  | dir
  | file (content : Content)
  | link (target : String)
  | special
  deriving DecidableEq

/-- A checkout, by the names on the way from its root. -/
abbrev Tree := Dict (List String) Entry

/-- A path that the copy keeps: no name on it is one to ignore. -/
def kept (path : List String) : Bool := path.all fun name => decide (name ∉ copyIgnore)

/-- `_default_copier`, which fails on a special file. -/
def copyTree (T : Tree) : Option Tree :=
  let copy := T.keep fun path _ => kept path
  if copy.entries.any (fun e => decide (e.2 = .special)) = true then none else some copy

/-! ## Seeds -/

structure SeedEdit where
  path : String
  old : String
  new : String

structure FaultSeed where
  id : String
  language : String
  description : String
  edits : List SeedEdit := []

/-- The line breaks that `read_text` makes of a file's. -/
def universalNewlines : List Char → List Char
  | [] => []
  | '\r' :: '\n' :: text => '\n' :: universalNewlines text
  | '\r' :: text => '\n' :: universalNewlines text
  | c :: text => c :: universalNewlines text

section Validation

/- Where a path leads in a tree, its links followed. -/
variable (reach : Tree → String → Option (List String))

/-- One edit: the first occurrence of the anchor is replaced. -/
def applyEdit (T : Tree) (edit : SeedEdit) : Option Tree :=
  (reach T edit.path).bind fun path =>
    match T.get? path with
    | some (.file (.text s)) =>
      (Text.splitFirst edit.old.toList (universalNewlines s.toList)).bind fun around =>
        if edit.old = edit.new then none
        else some (T.set path (.file (.text (String.ofList (around.1 ++ edit.new.toList ++ around.2)))))
    | _ => none

/-- `_apply_edits`. -/
def applyEdits (T : Tree) (seed : FaultSeed) : Option Tree := seed.edits.foldlM (applyEdit reach) T

/-- A seeder may raise. -/
abbrev Seeder := Tree → Except String (List FaultSeed)

/-- The seeds of all seeders that do not raise. -/
def collectSeeds (seeders : List Seeder) (T : Tree) : List FaultSeed :=
  seeders.flatMap fun seeder =>
    match seeder T with
    | .ok seeds => seeds
    | .error _ => []

/-! ## The validator -/

structure CheckValidation where
  checkId : String
  status : Validation := .unvalidated
  baselinePassed : Bool := false
  faultsAttempted : Nat := 0
  faultsDetected : Nat := 0
  detectedBy : List String := []
  reason : String := ""

def CheckValidation.validated (v : CheckValidation) : Bool := v.status == .validated

/-- The seeded runs up to the first that fails: how many there are, and the seed of that one. -/
def seededRuns (status : Tree → Option GateStatus) (T : Tree) : List FaultSeed → Nat × Option String
  | [] => (0, none)
  | seed :: seeds =>
    match (copyTree T).bind fun copy => applyEdits reach copy seed with
    | none => seededRuns status T seeds
    | some seeded =>
      if status seeded = some .failed then (1, some seed.id)
      else ((seededRuns status T seeds).1 + 1, (seededRuns status T seeds).2)

/-- `validate_check` of a check whose status on a tree is given. -/
def validateWith (id : String) (status : Tree → Option GateStatus) (seeders : List Seeder) (maxSeeds : Int) (T : Tree) :
    CheckValidation :=
  if status T ≠ some .passed then
    { checkId := id, reason := "当前修订上基线未通过，无法证明它能区分好坏修订" }
  else
    let runs := seededRuns reach status T ((collectSeeds seeders T).take maxSeeds.toNat)
    match runs.2 with
    | some seed =>
      { checkId := id, status := .validated, baselinePassed := true, faultsAttempted := runs.1, faultsDetected := 1
        detectedBy := [seed], reason := "当前修订通过，且在已知坏修订 " ++ seed ++ " 上失败" }
    | none =>
      { checkId := id, baselinePassed := true, faultsAttempted := runs.1
        reason := "当前修订通过，但没有任何可播种的变异让它失败" ++
          (if runs.1 = 0 then "（没有可用变异）" else "（尝试了 " ++ toString runs.1 ++ " 个）") }

/-- An executor of commands whose outcome is a function of the tree it runs in. -/
abbrev TreeExecutor := CheckCommand → Tree → Rat → Except String ExecOutcome

/-- The suite of one check, which may gate for the sake of the probe. -/
def probeSuite (c : CheckCommand) : CheckSuite where
  checks := [{ c with validation := .validated }]
  source := .explicit
  distinct := List.nodup_singleton c.id

/-- The status of the probe in a tree. -/
def probeStatus (fingerprint : CheckSuite → String) (executor : TreeExecutor) (timeout : Rat) (c : CheckCommand)
    (T : Tree) : Option GateStatus :=
  (runSuite fingerprint (fun command _ budget => executor command T budget) "" timeout (probeSuite c)).gates.head?.map
    (·.status)

/-- `validate_check`, with the default copier. -/
def validateCheck (fingerprint : CheckSuite → String) (executor : TreeExecutor) (timeout : Rat) (c : CheckCommand)
    (seeders : List Seeder) (maxSeeds : Int) (T : Tree) : CheckValidation :=
  validateWith reach c.id (probeStatus fingerprint executor timeout c) seeders maxSeeds T

/-! ## The status of a probe -/

section Probe

variable {reach : Tree → String → Option (List String)} {fingerprint : CheckSuite → String} {executor : TreeExecutor}
  {timeout : Rat} {c : CheckCommand} {T : Tree}

/-- Exit code 0 in time, in a tree. -/
def cleanIn (executor : TreeExecutor) (timeout : Rat) (c : CheckCommand) (T : Tree) : Bool :=
  (outcome (fun command _ budget => executor command T budget) "" timeout { c with validation := .validated }).clean

/-- The probe passes or fails, and is never unverified. -/
theorem probeStatus_eq : probeStatus fingerprint executor timeout c T =
    some (if cleanIn executor timeout c T = true then .passed else .failed) := by
  have hresolved : (probeSuite c).resolved = true := rfl
  have hnonempty : (probeSuite c).checks.isEmpty = false := rfl
  unfold probeStatus runSuite
  rw [hnonempty, hresolved]
  show some (GateResult.status (gateResult _ _)) = _
  rw [gateResult_status, checkStatus]
  rfl

theorem probeStatus_passed : probeStatus fingerprint executor timeout c T = some .passed ↔
    cleanIn executor timeout c T = true := by
  rw [probeStatus_eq]
  cases cleanIn executor timeout c T <;> decide

theorem probeStatus_failed : probeStatus fingerprint executor timeout c T = some .failed ↔
    cleanIn executor timeout c T = false := by
  rw [probeStatus_eq]
  cases cleanIn executor timeout c T <;> decide

/-! ## Edits change files and nothing else -/

theorem keys_applyEdit {T' : Tree} {edit : SeedEdit} (h : applyEdit reach T edit = some T') :
    T'.entries.map Prod.fst = T.entries.map Prod.fst := by
  unfold applyEdit at h
  obtain ⟨path, -, h⟩ := Option.bind_eq_some_iff.1 h
  split at h
  · rename_i s hfile
    obtain ⟨around, -, h⟩ := Option.bind_eq_some_iff.1 h
    split at h
    · cases h
    · cases h
      have hmem : path ∈ T.entries.map Prod.fst := List.mem_map.2 ⟨_, Dict.get?_eq_some.1 hfile, rfl⟩
      rw [Dict.keys_set, if_pos hmem]
  · cases h

theorem keys_foldlM_applyEdit (edits : List SeedEdit) {T' : Tree} (h : edits.foldlM (applyEdit reach) T = some T') :
    T'.entries.map Prod.fst = T.entries.map Prod.fst := by
  induction edits generalizing T with
  | nil =>
    cases h
    rfl
  | cons edit edits ih =>
    rw [List.foldlM_cons] at h
    obtain ⟨between, hedit, hrest⟩ := Option.bind_eq_some_iff.1 h
    exact (ih hrest).trans (keys_applyEdit hedit)

theorem keys_applyEdits {T' : Tree} {seed : FaultSeed} (h : applyEdits reach T seed = some T') :
    T'.entries.map Prod.fst = T.entries.map Prod.fst := keys_foldlM_applyEdit seed.edits h

/-! ## The runs -/

/-- A detected fault is one of the seeds, and the seeded copy is a tree that fails. -/
theorem seededRuns_detected {status : Tree → Option GateStatus} {seeds : List FaultSeed} {id : String}
    (h : (seededRuns reach status T seeds).2 = some id) :
    ∃ seed ∈ seeds, ∃ copy seeded, copyTree T = some copy ∧ applyEdits reach copy seed = some seeded ∧
      status seeded = some .failed := by
  induction seeds with
  | nil => cases h
  | cons seed seeds ih =>
    have later := fun h => ih h
    rw [seededRuns] at h
    split at h
    · obtain ⟨seed', hmem, hrest⟩ := later h
      exact ⟨seed', List.mem_cons_of_mem _ hmem, hrest⟩
    · rename_i seeded hseeded
      split at h
      · rename_i hfailed
        obtain ⟨copy, hcopy, hedits⟩ := Option.bind_eq_some_iff.1 hseeded
        exact ⟨seed, List.mem_cons_self .., copy, seeded, hcopy, hedits, hfailed⟩
      · obtain ⟨seed', hmem, hrest⟩ := later h
        exact ⟨seed', List.mem_cons_of_mem _ hmem, hrest⟩

/-- If a seed applies to the copy and every tree with the copy's paths fails, a fault is detected. -/
theorem seededRuns_of_failing {status : Tree → Option GateStatus} {seeds : List FaultSeed} {copy : Tree}
    (hcopy : copyTree T = some copy)
    (hfail : ∀ T' : Tree, T'.entries.map Prod.fst = copy.entries.map Prod.fst → status T' = some .failed)
    (happlies : ∃ seed ∈ seeds, applyEdits reach copy seed ≠ none) :
    ∃ id, (seededRuns reach status T seeds).2 = some id := by
  induction seeds with
  | nil =>
    obtain ⟨seed, hmem, -⟩ := happlies
    cases hmem
  | cons seed seeds ih =>
    rw [seededRuns, hcopy, Option.bind_some]
    cases hseeded : applyEdits reach copy seed with
    | none =>
      obtain ⟨seed', hmem, hne⟩ := happlies
      rcases List.mem_cons.1 hmem with rfl | hmem
      · exact absurd hseeded hne
      · exact ih ⟨seed', hmem, hne⟩
    | some seeded =>
      dsimp only
      rw [if_pos (hfail seeded (keys_applyEdits hseeded))]
      exact ⟨seed.id, rfl⟩

theorem validateWith_validated {id : String} {status : Tree → Option GateStatus} {seeders : List Seeder} {maxSeeds : Int} :
    (validateWith reach id status seeders maxSeeds T).status = .validated ↔
      status T = some .passed ∧
        ∃ seed, (seededRuns reach status T ((collectSeeds seeders T).take maxSeeds.toNat)).2 = some seed := by
  unfold validateWith
  by_cases hbase : status T = some .passed
  · rw [if_neg (not_not.2 hbase)]
    dsimp only
    cases (seededRuns reach status T ((collectSeeds seeders T).take maxSeeds.toNat)).2 with
    | none => simp
    | some seed => simp [hbase]
  · rw [if_pos hbase]
    exact iff_of_false (fun h => by cases h) fun h => hbase h.1

theorem checkId_validateWith (reach : Tree → String → Option (List String)) (id : String)
    (status : Tree → Option GateStatus) (seeders : List Seeder) (maxSeeds : Int) (T : Tree) :
    (validateWith reach id status seeders maxSeeds T).checkId = id := by
  unfold validateWith
  split
  · rfl
  · dsimp only
    split <;> rfl

/-! ## What a validated check distinguishes -/

/-- There are two trees that differ in the edits of one seed, and the check passes in the first and fails in the second. -/
def Distinguishes (reach : Tree → String → Option (List String)) (executor : TreeExecutor) (timeout : Rat)
    (c : CheckCommand) (seeds : List FaultSeed) : Prop :=
  ∃ seed ∈ seeds, ∃ T₁ T₂, applyEdits reach T₁ seed = some T₂ ∧ cleanIn executor timeout c T₁ = true ∧
    cleanIn executor timeout c T₂ = false

variable {seeders : List Seeder} {maxSeeds : Int}

/-- It is enough that the check passes on the copy without a fault, which the validator does not ask. -/
theorem distinguishes_of_copy {copy : Tree} (hcopy : copyTree T = some copy)
    (hclean : cleanIn executor timeout c copy = true)
    (h : (validateCheck reach fingerprint executor timeout c seeders maxSeeds T).status = .validated) :
    Distinguishes reach executor timeout c (collectSeeds seeders T) := by
  obtain ⟨-, id, hruns⟩ := validateWith_validated.1 h
  obtain ⟨seed, hmem, copy', seeded, hcopy', hedits, hfailed⟩ := seededRuns_detected hruns
  rw [hcopy, Option.some.injEq] at hcopy'
  subst hcopy'
  exact ⟨seed, List.mem_of_mem_take hmem, copy, seeded, hedits, hclean, probeStatus_failed.1 hfailed⟩

/-- No entry of the tree is named as one to ignore. -/
def NothingIgnored (T : Tree) : Prop := ∀ path ∈ T.entries.map Prod.fst, kept path = true

instance (T : Tree) : Decidable (NothingIgnored T) := inferInstanceAs (Decidable (∀ path ∈ _, _))

theorem eq_of_copyTree {copy : Tree} (h : copyTree T = some copy) : copy = T.keep fun path _ => kept path := by
  unfold copyTree at h
  dsimp only at h
  split at h
  · cases h
  · cases h
    rfl

theorem copyTree_of_nothingIgnored {copy : Tree} (h : NothingIgnored T) (hcopy : copyTree T = some copy) : copy = T := by
  rw [eq_of_copyTree hcopy]
  refine Dict.keep_of_forall fun path entry hentry => ?_
  exact h path (List.mem_map.2 ⟨_, Dict.get?_eq_some.1 hentry, rfl⟩)

theorem nothingIgnored_copy {copy : Tree} (h : copyTree T = some copy) : NothingIgnored copy := by
  rw [eq_of_copyTree h]
  intro path hpath
  obtain ⟨e, he, rfl⟩ := List.mem_map.1 hpath
  exact (List.mem_filter.1 he).2

/-- An executor for which a check is clean where something is to be ignored: what needs a dependency directory. -/
def needsIgnored : TreeExecutor := fun _ T _ => .ok ⟨if NothingIgnored T then 1 else 0, "", false, 0⟩

theorem cleanIn_needsIgnored : cleanIn needsIgnored timeout c T = true ↔ ¬ NothingIgnored T := by
  unfold cleanIn outcome needsIgnored ExecOutcome.clean
  by_cases h : NothingIgnored T <;> simp [h]

theorem not_distinguishes_needsIgnored {seeds : List FaultSeed} : ¬ Distinguishes reach needsIgnored timeout c seeds := by
  rintro ⟨seed, -, T₁, T₂, hedits, hpass, hfail⟩
  have hignored := cleanIn_needsIgnored.1 hpass
  rw [NothingIgnored, ← keys_applyEdits hedits] at hignored
  rw [cleanIn_needsIgnored.2 hignored] at hfail
  cases hfail

/-- A fault is applied to the copy. -/
def SeedApplies (reach : Tree → String → Option (List String)) (T : Tree) (seeds : List FaultSeed) : Prop :=
  ∃ copy, copyTree T = some copy ∧ ∃ seed ∈ seeds, applyEdits reach copy seed ≠ none

/-- A check that runs something. -/
def probeCommand : CheckCommand where
  id := "test"
  argv := ["make"]
  named := by decide
  runnable := ⟨"make", rfl, by decide⟩

/-- What needs a directory that the copy leaves out is validated as soon as one fault is applied to the copy. -/
theorem validateCheck_needsIgnored (hignored : ¬ NothingIgnored T)
    (happlies : SeedApplies reach T ((collectSeeds seeders T).take maxSeeds.toNat)) :
    (validateCheck reach fingerprint needsIgnored timeout c seeders maxSeeds T).status = .validated := by
  obtain ⟨copy, hcopy, hseed⟩ := happlies
  refine validateWith_validated.2 ⟨probeStatus_passed.2 (cleanIn_needsIgnored.2 hignored), ?_⟩
  refine seededRuns_of_failing hcopy (fun T' hkeys => probeStatus_failed.2 ?_) hseed
  rw [Bool.eq_false_iff, Ne, cleanIn_needsIgnored, not_not, NothingIgnored, hkeys]
  exact nothingIgnored_copy hcopy

end Probe

/-- Of a tree and seeders, every check that is validated distinguishes a seeded fault, whatever executes it, exactly when
the copy leaves nothing out, or when no fault is ever applied to the copy. -/
theorem validated_distinguishes_iff (T : Tree) (seeders : List Seeder) (maxSeeds : Int) :
    (∀ (fingerprint : CheckSuite → String) (executor : TreeExecutor) (timeout : Rat) (c : CheckCommand),
        (validateCheck reach fingerprint executor timeout c seeders maxSeeds T).status = .validated →
        Distinguishes reach executor timeout c (collectSeeds seeders T)) ↔
      NothingIgnored T ∨ ¬ SeedApplies reach T ((collectSeeds seeders T).take maxSeeds.toNat) := by
  constructor
  · intro h
    rw [or_iff_not_and_not, not_not]
    rintro ⟨hignored, happlies⟩
    have hvalidated :
        (validateCheck reach (fun _ => "") needsIgnored 0 probeCommand seeders maxSeeds T).status = .validated :=
      validateCheck_needsIgnored hignored happlies
    exact not_distinguishes_needsIgnored (h _ _ _ _ hvalidated)
  · intro h fingerprint executor timeout c hvalidated
    obtain ⟨hbase, id, hruns⟩ := validateWith_validated.1 hvalidated
    obtain ⟨seed, hmem, copy, seeded, hcopy, hedits, hfailed⟩ := seededRuns_detected hruns
    have happlies : SeedApplies reach T ((collectSeeds seeders T).take maxSeeds.toNat) :=
      ⟨copy, hcopy, seed, hmem, by rw [hedits]; exact Option.some_ne_none _⟩
    rcases h with hnothing | hno
    · refine distinguishes_of_copy hcopy ?_ hvalidated
      rw [copyTree_of_nothingIgnored hnothing hcopy]
      exact probeStatus_passed.1 hbase
    · exact absurd happlies hno

end Validation

/-! ## A check that no fault makes fail -/

/-- Names between slashes, no links followed. -/
def plainReach (_ : Tree) (path : String) : Option (List String) := some (Text.split '/' path)

/-- A source and what it depends on. -/
def dependingTree : Tree where
  entries :=
    [(["src"], .dir), (["src", "app.js"], .file (.text "if (a === b) \x7b")), (["node_modules"], .dir)]
  nodup := by decide

/-- A seeder that turns the comparison of the source round. -/
def flipSeeder : Seeder := fun _ =>
  .ok [{ id := "src/app.js:flip-===", language := "javascript", description := ""
         edits := [⟨"src/app.js", "===", "!=="⟩] }]

theorem dependency_check_validated :
    (validateCheck plainReach (fun _ => "") needsIgnored 120 probeCommand [flipSeeder] 6 dependingTree).status =
        .validated ∧
      ¬ Distinguishes plainReach needsIgnored 120 probeCommand (collectSeeds [flipSeeder] dependingTree) := by
  refine ⟨?_, not_distinguishes_needsIgnored⟩
  rfl

end OpenFish.Gates
