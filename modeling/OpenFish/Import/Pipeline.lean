/-
The import pipeline of `services/repo_import.py`: `run` with its steps, against a source that does not
change and an environment in which calls raise and the worker dies.

One repository is imported: its row, its job, and its rows of `repo_issues` and `repo_commits`. Progress
figures, times of rows and the cached review policy are left out: nothing here depends on them.
-/
import OpenFish.Import.Mirror
import OpenFish.Lib.Effect

namespace OpenFish.Import

open Lib

/-! ## The source -/

/-- The knobs of the pipeline. -/
structure ImportConfig where
  owner : String
  maxIssues : ℕ
  maxCommits : ℕ
  pageSize : ℕ
  pollAttempts : ℕ
  deriving DecidableEq, Repr

/-- A row of `repo_commits`, and what a reader of commits hands out. -/
structure Commit where
  sha : String
  message : String
  author : String
  deriving DecidableEq, Repr

/-- A repository at its source: what the forge lists in the order of the request, the same commits as the API
and as `git log` tell them, newest first, and what the migration and the probe answer. -/
structure Source where
  issues : List SourceIssue
  apiCommits : List Commit
  gitCommits : List Commit
  migratedFullName : Option String := none
  migratedName : Option String := none
  probeReachable : Bool := true
  probeDetail : String := ""
  deriving DecidableEq, Repr

/-! ## A run against its environment -/

/-- Why a call ends before its time: the worker died, or an exception, of a type and with a text, reached
`run`. -/
inductive Stop
  | crashed
  | raised (type text : String)
  deriving DecidableEq, Repr

/-- What a step begins with. -/
structure Start where
  cursor : Cursor
  pollsLeft : ℕ
  turns : List Bool
  deriving DecidableEq, Repr

/-- The database and the memory of the worker. `pollsLeft` is how many polls the migration still answers
with "not finished"; `turns` says of the coming calls and commits which of them raises, or is followed by a
crash, and after its end nothing goes wrong any more; `begun` records what every step began with. -/
structure Session where
  repo : Repo
  job : ImportJob
  issues : List Issue := []
  commits : List Commit := []
  cursor : Cursor
  now : Time := 0
  pollsLeft : ℕ := 0
  turns : List Bool := []
  begun : List Start := []
  deriving DecidableEq, Repr

abbrev Act (α : Type) := EStateM Stop Session α

/-- Whether the next call or commit meets trouble. -/
def Session.trouble (s : Session) : Bool := s.turns.head?.getD false

def Session.rest (s : Session) : Session := { s with turns := s.turns.tail }

/-- `session.commit()`: everything set so far is kept; the worker may die right after it. -/
def commit : Act Unit := fun s => if s.trouble then .error .crashed s.rest else .ok () s.rest

/-- A call that leaves the process, which raises or works. -/
def external (type name : String) : Act Unit := fun s =>
  if s.trouble then .error (.raised type name) s.rest else .ok () s.rest

/-- `try: … except Exception`. -/
def attempt {α : Type} (x : Act α) : Act (Except String α) := fun s =>
  match x s with
  | .ok a s' => .ok (.ok a) s'
  | .error (.raised _ text) s' => .ok (.error text) s'
  | .error .crashed s' => .error .crashed s'

def modifyRepo (f : Repo → Repo) : Act Unit := modify fun s => { s with repo := f s.repo }

def modifyCursor (f : Cursor → Cursor) : Act Unit := modify fun s => { s with cursor := f s.cursor }

def setSyncState (state : String) : Act Unit :=
  modify fun s => { s with repo := { s.repo with syncState := state, updatedAt := s.now } }

/-- `_mirror_state`. -/
def mirrorState (total done : Option ℕ) : Act Unit := do
  modify fun s =>
    { s with
      job := { s.job with
        phase := s.cursor.phase
        cursor := s.cursor
        isPartial := s.cursor.isPartial
        status := "running"
        total := total.getD s.job.total
        done := done.getD s.job.done } }
  commit

/-- `_write`. -/
def write : Act Unit := mirrorState none none

/-! ## The steps -/

def forgejoOf (s : Session) : String :=
  match s.cursor.extras.forgejoRepo.filter (· ≠ "") with
  | some name => name
  | none => s.repo.forgejoRepo.getD ""

def parseOrRaise (url : String) : Act RepoSource :=
  match parseSource url with
  | .ok source => pure source
  | .error text => throw (.raised "SourceUrlError" text)

def stepValidate (src : Source) : Act Bool := do
  let s ← get
  let source ← parseOrRaise (s.repo.sourceUrl.getD "")
  -- a failing probe is recorded, not fatal
  let probe ← attempt (external "ForgejoError" "probe_source")
  let (reachable, detail) := match probe with
    | .ok () => (src.probeReachable, src.probeDetail)
    | .error message => (false, message)
  modifyRepo (setSource source.webUrl s.now)
  modifyCursor fun c =>
    { c with
      phase := .migrate
      extras := { c.extras with
        sourceUrl := some source.webUrl
        sourceKind := some source.kind
        probeReachable := some reachable
        probeDetail := some detail } }
  return true

/-- `document.get("full_name") or f"{owner}/{document.get('name') or name}"`. -/
def migratedRepo (cfg : ImportConfig) (src : Source) (name : String) : String :=
  match src.migratedFullName.filter (· ≠ "") with
  | some fullName => fullName
  | none => cfg.owner ++ "/" ++ (src.migratedName.filter (· ≠ "")).getD name

def stepMigrate (cfg : ImportConfig) (src : Source) : Act Bool := do
  let s ← get
  let source ← parseOrRaise (((s.repo.sourceUrl.filter (· ≠ "")).or s.cursor.extras.sourceUrl).getD "")
  -- `_assign` dropped `include_prs`, so it reads as `True` here
  let includeIssues := decide (s.job.mode ∈ ["code+issues", "issues"])
  setSyncState "cloning"
  let forgejoRepo ← match s.repo.forgejoRepo.filter (· ≠ "") with
    | some existing => pure existing
    | none => do
      external "ForgejoError" "trigger_migration"
      let forgejoRepo := migratedRepo cfg src (forgejoName source)
      modifyRepo fun r => { r with forgejoRepo := some forgejoRepo, updatedAt := s.now }
      pure forgejoRepo
  modifyCursor fun c =>
    { c with
      extras := { c.extras with
        forgejoRepo := some forgejoRepo, includeIssues := some includeIssues, includePrs := some includeIssues } }
  mirrorState none none
  modifyCursor fun c => { c with phase := .poll }
  return true

/-- `migration_state` with `migration_finished`. -/
def pollMigration : Act Bool := do
  external "ForgejoError" "migration_state"
  modifyGet fun s => (s.pollsLeft == 0, { s with pollsLeft := s.pollsLeft - 1 })

def stepPoll (cfg : ImportConfig) : Act Bool := do
  let s ← get
  if s.cursor.extras.forgejoRepo.getD "" = "" then throw (.raised "RepoImportError" "migrate 阶段没有落 forgejo_repo")
  else
    -- the count is raised before the call that may fail
    modifyCursor fun c => { c with migratePolls := c.migratePolls + 1 }
    let s ← get
    if cfg.pollAttempts < s.cursor.migratePolls then
      throw (.raised "ForgejoError" ("Forgejo migration 未在 " ++ toString cfg.pollAttempts ++ " 次轮询内完成：" ++
        s.cursor.extras.forgejoRepo.getD ""))
    else
      let finished ← pollMigration
      mirrorState none none
      if finished then
        modifyCursor fun c => { c with phase := .mirrorIssues }
        return true
      else return false

/-- `_upsert_issues`, which commits. -/
def upsertIssues (rows : List Issue) : Act Unit := do
  modify fun s => { s with issues := rows.foldl upsertIssue s.issues }
  commit

def stepMirrorIssues (cfg : ImportConfig) (src : Source) : Act Bool := do
  let s ← get
  if !s.cursor.extras.includeIssues.getD true then
    modifyCursor fun c => { c with phase := .indexCommits }
    return true
  else if forgejoOf s = "" then throw (.raised "ForgejoError" "仓库没有 Forgejo 侧全名，无法镜像 issue")
  else
    setSyncState "issues"
    external "ForgejoError" "stream_issues"
    let c := s.cursor
    let page := streamIssues src.issues c.issueNumber c.issuesSeen cfg.pageSize
    let taken := rowsTaken cfg.maxIssues c page
    -- the cursor is advanced after the rows are committed
    if taken ≠ [] then upsertIssues taken
    modifyCursor fun c => c.afterIssues cfg.maxIssues page
    let c' := (← get).cursor
    mirrorState (if c'.isPartial then some cfg.maxIssues else none) (some c'.stored)
    if truncates cfg.maxIssues c page || page.nextOffset.isNone then
      modifyCursor fun c => { c with phase := .indexCommits }
    return true

/-- `stream_commits`: a page of rows, and whether there may be another. -/
def streamCommits (listing : List Commit) (page perPage : ℕ) : List Commit × Bool :=
  let rows := servePage listing page (pageSize perPage)
  (rows, decide (pageSize perPage ≤ rows.length))

/-- `GitCommitReader.stream`. -/
def gitLog (listing : List Commit) (limit : ℕ) : List Commit := listing.take (max 1 limit)

/-- A row of `_upsert_commits`: one without a sha is skipped. -/
def upsertCommit (table : List Commit) (row : Commit) : List Commit :=
  let sha := Text.strip row.sha
  if sha = "" then table
  else
    match table.find? (·.sha = sha) with
    | some found => table.replace found { row with sha }
    | none => table ++ [{ row with sha }]

/-- How many rows `_upsert_commits` writes. -/
def writtenCommits (rows : List Commit) : ℕ := (rows.filter fun row => Text.strip row.sha ≠ "").length

/-- `_upsert_commits`, which commits. -/
def upsertCommits (rows : List Commit) : Act Unit := do
  modify fun s => { s with commits := rows.foldl upsertCommit s.commits }
  commit

/-- The rows of the local copy, asked for once: that it was asked is noted before it answers. -/
def gitFallback (src : Source) (forgejoRepo : String) (room : ℕ) : Act (List Commit) := do
  modifyCursor fun c => { c with extras := { c.extras with commitSource := some "git" } }
  let answer ← attempt (external "RepoImportError" "git log")
  match answer with
  | .ok () => return gitLog src.gitCommits (room + 1)
  | .error text =>
    throw (.raised "RepoImportError" ("commit API 与 git 回退都无法读取 " ++ forgejoRepo ++ "：" ++ text))

/-- The page that `_step_index_commits` reads: its rows, whether the API has another, and whether the rows are
those of the local copy. -/
def readCommits (cfg : ImportConfig) (src : Source) : Act (List Commit × Bool × Bool) := do
  let s ← get
  let room := cfg.maxCommits - s.cursor.commitsSeen
  let page := max 1 s.cursor.commitPage
  -- an exception of the API is swallowed
  let answer ← attempt (external "ForgejoError" "stream_commits")
  let (apiRows, nextPage) := match answer with
    | .ok () => streamCommits src.apiCommits page cfg.pageSize
    | .error _ => ([], false)
  if apiRows = [] ∧ s.cursor.extras.commitSource ≠ some "git" then
    let rows ← gitFallback src (forgejoOf s) room
    return (rows, nextPage, true)
  else return (apiRows, nextPage, false)

/-- What `_step_index_commits` does when the rows of a page are stored. -/
def movePast (cfg : ImportConfig) (page : ℕ) (nextPage truncated fellBack : Bool) : Act Bool := do
  modifyCursor fun c => { c with commitPage := page + 1 }
  let seen := (← get).cursor.commitsSeen
  let done := !nextPage || truncated || fellBack || decide (cfg.maxCommits ≤ seen)
  if done then
    -- another page exists: the ceiling, not the end of history, ended the walk
    modify fun s =>
      { s with
        cursor := { s.cursor with phase := .done, isPartial := s.cursor.isPartial || (nextPage && !truncated) }
        repo := { s.repo with commitCount := seen, updatedAt := s.now } }
  mirrorState none (some seen)
  return true

/-- What `_step_index_commits` does with a page. -/
def storeCommits (cfg : ImportConfig) (rows : List Commit) (nextPage fellBack : Bool) : Act Bool := do
  let s ← get
  let room := cfg.maxCommits - s.cursor.commitsSeen
  let page := max 1 s.cursor.commitPage
  let truncated := decide (room < rows.length)
  let rows := if truncated then rows.take room else rows
  modifyCursor fun c => { c with isPartial := c.isPartial || truncated }
  if rows ≠ [] then
    upsertCommits rows
    modifyCursor fun c => { c with commitsSeen := c.commitsSeen + writtenCommits rows }
  movePast cfg page nextPage truncated fellBack

def stepIndexCommits (cfg : ImportConfig) (src : Source) : Act Bool := do
  setSyncState "indexing"
  let s ← get
  if forgejoOf s ≠ "" then
    modifyCursor fun c => { c with extras := { c.extras with policyRead := true } }
  let read ← readCommits cfg src
  storeCommits cfg read.1 read.2.1 read.2.2

/-! ## The run -/

/-- `_finish`. -/
def finish : Act Unit := do
  modify fun s =>
    { s with
      cursor := { s.cursor with phase := .done }
      repo := { s.repo with
        syncState := "ready", updatedAt := s.now, issueCount := s.issues.length, commitCount := s.commits.length } }
  modify fun s =>
    { s with
      job := { s.job with
        phase := .done, status := "done", done := s.cursor.stored, cursor := s.cursor, isPartial := s.cursor.isPartial,
        finishedAt := some s.now } }
  commit

/-- `_fail`. -/
def fail (type text : String) : Act Unit := do
  setSyncState "error"
  modify fun s =>
    { s with
      job := { s.job with
        status := "failed", error := some (Text.clip 2000 (type ++ ": " ++ text)), cursor := s.cursor,
        isPartial := s.cursor.isPartial, finishedAt := some s.now } }
  commit

/-- The handler of the cursor's phase; what it begins with is recorded. -/
def step (cfg : ImportConfig) (src : Source) : Act Bool := do
  modify fun s => { s with begun := ⟨s.cursor, s.pollsLeft, s.turns⟩ :: s.begun }
  match (← get).cursor.phase with
  | .validate => stepValidate src
  | .migrate => stepMigrate cfg src
  | .poll => stepPoll cfg
  | .mirrorIssues => stepMirrorIssues cfg src
  | .indexCommits => stepIndexCommits cfg src
  | .done => return true

/-- Where the loop of `run` stands after some steps. -/
inductive Progress
  | finished | moved | idled
  deriving DecidableEq, Repr

/-- The turns of the loop up to the next one that moves, at most `idles` of them: a step that only waits
does not count as a step. -/
def advance (cfg : ImportConfig) (src : Source) : ℕ → Act Progress
  | 0 => return .idled
  | idles + 1 => do
    if (← get).cursor.phase = .done then
      finish
      return .finished
    else
      let moved ← step cfg src
      write
      if (← get).cursor.phase = .done then
        finish
        return .finished
      else if moved then return .moved
      else advance cfg src idles

/-- The loop of `run`. -/
def loop (cfg : ImportConfig) (src : Source) : ℕ → Act Unit
  | 0 => return ()
  | steps + 1 => do
    match ← advance cfg src (max 1 cfg.pollAttempts) with
    | .moved => loop cfg src steps
    | _ => return ()

/-- What `run` does before its loop. -/
def resume : Act Unit := do
  modify fun s =>
    { s with
      cursor := { s.job.cursor with isPartial := s.job.cursor.isPartial || s.job.isPartial }
      job := { s.job with status := "running", startedAt := s.job.startedAt.or (some s.now) } }
  commit

/-- One call of `run`: what it leaves, however it ends. -/
def run (cfg : ImportConfig) (src : Source) (maxSteps : ℕ) (s : Session) : Session :=
  match resume s with
  | .error _ s' => s'
  | .ok () s' =>
    match loop cfg src maxSteps s' with
    | .ok () s'' => s''
    | .error .crashed s'' => s''
    | .error (.raised type text) s'' =>
      match fail type text s'' with
      | .ok () s''' => s'''
      | .error _ s''' => s'''

/-- What `n` calls of `run` leave. -/
def runs (cfg : ImportConfig) (src : Source) (maxSteps : ℕ) : ℕ → Session → Session
  | 0, s => s
  | n + 1, s => run cfg src maxSteps (runs cfg src maxSteps n s)

/-! ## Rules -/

section rules

variable {α : Type} {Q : Unit → Session → Prop} {E : Stop → Session → Prop} {s : Session}

@[simp] theorem wp_commit :
    wp commit Q E s ↔ (s.trouble = true → E .crashed s.rest) ∧ (s.trouble = false → Q () s.rest) := by
  unfold wp commit
  cases s.trouble <;> simp

@[simp] theorem wp_external (type name : String) :
    wp (external type name) Q E s ↔
      (s.trouble = true → E (.raised type name) s.rest) ∧ (s.trouble = false → Q () s.rest) := by
  unfold wp external
  cases s.trouble <;> simp

@[simp] theorem wp_attempt (x : Act α) {Q : Except String α → Session → Prop} :
    wp (attempt x) Q E s ↔
      wp x (fun a => Q (.ok a)) (fun e s' => match e with
        | .raised _ text => Q (.error text) s'
        | .crashed => E .crashed s') s := by
  unfold wp attempt
  cases x s with
  | ok a s' => rfl
  | error e s' => cases e <;> rfl

@[simp] theorem wp_modifyRepo (f : Repo → Repo) : wp (modifyRepo f) Q E s ↔ Q () { s with repo := f s.repo } := Iff.rfl

@[simp] theorem wp_modifyCursor (f : Cursor → Cursor) :
    wp (modifyCursor f) Q E s ↔ Q () { s with cursor := f s.cursor } := Iff.rfl

@[simp] theorem wp_setSyncState (state : String) :
    wp (setSyncState state) Q E s ↔ Q () { s with repo := { s.repo with syncState := state, updatedAt := s.now } } :=
  Iff.rfl

end rules

end OpenFish.Import
