/-
Import jobs of `services/repo_import.py`: the rows of `repos`, the cursor a job resumes from, and
`create_job`.

`_assign` drops what the model has no column for, so a job keeps neither `include_prs` nor
`forgejo_repo`; the cursor is kept as the values its JSON text holds.
-/
import OpenFish.Import.Source
import OpenFish.Lib.Table
import OpenFish.Lib.Machine
import Mathlib.Algebra.Order.Ring.Int

namespace OpenFish.Import

open Lib

/-- An instant, in microseconds. -/
abbrev Time := Int

/-! ## Repositories -/

/-- A row of `repos`. -/
structure Repo where
  id : Nat
  slug : String
  source : String
  kind : String
  syncState : String
  sourceUrl : Option String := none
  defaultBranch : String := "main"
  forgejoRepo : Option String := none
  issueCount : Nat := 0
  commitCount : Nat := 0
  updatedAt : Time
  deriving DecidableEq, Repr

instance : Keyed Repo := ⟨Repo.id⟩

@[simp] theorem key_repo (r : Repo) : key r = r.id := rfl

/-- The table `repos`: `slug` is unique. -/
structure Repos where
  table : Table Repo
  uniq : (table.rows.map (·.slug)).Nodup

namespace Repos

def get? (q : Repos) (id : Nat) : Option Repo := q.table.get? id

/-- `repo_by_slug`. -/
def bySlug (q : Repos) (slug : String) : Option Repo := q.table.rows.find? (·.slug == slug)

/-- `INSERT` of a row whose slug is not taken. -/
def add (q : Repos) (slug : String) (mk : Nat → Repo) (hk : ∀ k, key (mk k) = k) (hs : ∀ k, (mk k).slug = slug)
    (hfree : q.bySlug slug = none) : Repos where
  table := q.table.insert mk hk
  uniq := by
    show ((q.table.rows ++ [mk q.table.next]).map (·.slug)).Nodup
    rw [List.map_append, List.nodup_append]
    refine ⟨q.uniq, List.nodup_singleton _, ?_⟩
    intro a ha b hb hab
    obtain ⟨r, hr, rfl⟩ := List.mem_map.1 ha
    rw [List.map_singleton, List.mem_singleton, hs] at hb
    exact absurd (hab.trans hb) (by simpa using List.find?_eq_none.1 hfree r hr)

/-- `UPDATE` of the row of a key that leaves its slug. -/
def assign (q : Repos) (id : Nat) (f : Repo → Repo) (hk : ∀ r, key (f r) = key r)
    (hs : ∀ r, (f r).slug = r.slug) : Repos where
  table := q.table.update (key · == id) f hk
  uniq := by
    have hmap : (q.table.update (key · == id) f hk).rows.map (·.slug) = q.table.rows.map (·.slug) := by
      show (q.table.rows.map fun r => if key r == id then f r else r).map (·.slug) = _
      rw [List.map_map]
      refine List.map_congr_left fun r _ => ?_
      dsimp only [Function.comp_apply]
      split
      · exact hs r
      · rfl
    rw [hmap]; exact q.uniq

theorem get?_eq_some {q : Repos} {id : Nat} {r : Repo} : q.get? id = some r ↔ r ∈ q.table.rows ∧ r.id = id :=
  Table.get?_eq_some

theorem bySlug_eq_some {q : Repos} {slug : String} {r : Repo} :
    q.bySlug slug = some r ↔ r ∈ q.table.rows ∧ r.slug = slug := by
  unfold bySlug
  constructor
  · intro h
    exact ⟨List.mem_of_find?_eq_some h, by simpa using List.find?_some h⟩
  · rintro ⟨hr, hs⟩
    cases hf : q.table.rows.find? (·.slug == slug) with
    | none => exact absurd hs (by simpa using List.find?_eq_none.1 hf r hr)
    | some r' =>
      have hs' : r'.slug = slug := by simpa using List.find?_some hf
      rw [List.inj_on_of_nodup_map q.uniq (List.mem_of_find?_eq_some hf) hr (hs'.trans hs.symm)]

/-- Rows of one slug are one row. -/
theorem eq_of_slug {q : Repos} {i j : Nat} {r s : Repo} (hr : q.get? i = some r) (hs : q.get? j = some s)
    (h : r.slug = s.slug) : i = j := by
  obtain ⟨hr', rfl⟩ := get?_eq_some.1 hr
  obtain ⟨hs', rfl⟩ := get?_eq_some.1 hs
  rw [List.inj_on_of_nodup_map q.uniq hr' hs' h]

theorem get?_add {q : Repos} {slug : String} {mk : Nat → Repo} {hk : ∀ k, key (mk k) = k}
    {hs : ∀ k, (mk k).slug = slug} {hfree : q.bySlug slug = none} (id : Nat) :
    (q.add slug mk hk hs hfree).get? id = if id = q.table.next then some (mk id) else q.get? id := by
  show (q.table.insert mk hk).get? id = _
  rw [Table.get?_insert]
  split
  · rename_i h; rw [h]
  · rfl

theorem get?_assign {q : Repos} {id : Nat} {f : Repo → Repo} {hk : ∀ r, key (f r) = key r}
    {hs : ∀ r, (f r).slug = r.slug} (i : Nat) :
    (q.assign id f hk hs).get? i = (q.get? i).map fun r => if key r == id then f r else r :=
  Table.get?_update hk i

/-- An `UPDATE` leaves every slug where it was. -/
theorem slug_assign {q : Repos} {id : Nat} {f : Repo → Repo} {hk : ∀ r, key (f r) = key r}
    {hs : ∀ r, (f r).slug = r.slug} (i : Nat) :
    ((q.assign id f hk hs).get? i).map (·.slug) = (q.get? i).map (·.slug) := by
  rw [get?_assign, Option.map_map]
  refine Option.map_congr fun r _ => ?_
  dsimp only [Function.comp_apply]
  split
  · exact hs r
  · rfl

end Repos

/-! ## Jobs -/

/-- `JOB_PHASES`. -/
inductive Phase
  | validate | migrate | poll | mirrorIssues | indexCommits | done
  deriving DecidableEq, Repr

def Phase.value : Phase → String
  | .validate => "validate"
  | .migrate => "migrate"
  | .poll => "poll"
  | .mirrorIssues => "mirror_issues"
  | .indexCommits => "index_commits"
  | .done => "done"

/-- `JOB_PHASES`, in order. -/
def jobPhases : List Phase := [.validate, .migrate, .poll, .mirrorIssues, .indexCommits, .done]

def Phase.ofString? (s : String) : Option Phase := jobPhases.find? (·.value == s)

/-- The keys of a cursor's `extras` that the pipeline reads or writes. -/
structure Extras where
  forgejoRepo : Option String := none
  includeIssues : Option Bool := none
  includePrs : Option Bool := none
  sourceUrl : Option String := none
  sourceKind : Option SourceKind := none
  probeReachable : Option Bool := none
  probeDetail : Option String := none
  issuesStored : Option Nat := none
  policyRead : Bool := false
  commitSource : Option String := none
  deriving DecidableEq, Repr

/-- The last committed position of a job. -/
structure Cursor where
  phase : Phase
  issueNumber : Nat := 0
  commitPage : Nat := 0
  issuesSeen : Nat := 0
  commitsSeen : Nat := 0
  isPartial : Bool := false
  migratePolls : Nat := 0
  extras : Extras := {}
  deriving DecidableEq, Repr

/-- A row of `import_jobs`. -/
structure ImportJob where
  repoId : Nat
  mode : String
  status : String
  phase : Phase
  cursor : Cursor
  progress : Nat := 0
  total : Nat := 0
  done : Nat := 0
  isPartial : Bool := false
  error : Option String := none
  startedAt : Option Time := none
  finishedAt : Option Time := none
  deriving DecidableEq, Repr

/-! ## Job creation -/

/-- The arguments of `create_job`, and when it runs. -/
structure CreateArgs where
  sourceUrl : String
  mode : String := "code+issues"
  repoId : Option Nat := none
  includePrs : Bool := true
  skipTo : Option String := none
  now : Time

/-- The checks at the head of `create_job`, on a version of Python. -/
def CreateArgs.checked (py : Urllib) (a : CreateArgs) : Except String (RepoSource × Option Phase) := do
  let source ← parseSourceBy py a.sourceUrl
  if a.mode ∉ ["code", "code+issues", "issues"] then .error s!"不支持的导入模式：{a.mode}"
  else
    match a.skipTo with
    | none => return (source, none)
    | some skipTo =>
      match Phase.ofString? skipTo with
      | some phase => return (source, some phase)
      | none => .error s!"不支持的起始阶段：{skipTo}"

/-- The row a fresh import inserts. -/
def newRepo (slug : String) (now : Time) (id : Nat) : Repo where
  id := id
  slug := slug
  source := "import"
  kind := "upstream"
  syncState := "pending"
  updatedAt := now

theorem key_newRepo (slug : String) (now : Time) (id : Nat) : key (newRepo slug now id) = id := rfl

theorem slug_newRepo (slug : String) (now : Time) (id : Nat) : (newRepo slug now id).slug = slug := rfl

/-- The row `create_job` attaches the job to: the one the caller names, else the one of the slug. -/
def findRepo (repoId : Option Nat) (slug : String) (q : Repos) : Option Repo :=
  match (repoId.filter (· ≠ 0)).bind q.get? with
  | some repo => some repo
  | none => q.bySlug slug

theorem bySlug_of_findRepo {repoId : Option Nat} {slug : String} {q : Repos} (h : findRepo repoId slug q = none) :
    q.bySlug slug = none := by
  unfold findRepo at h
  split at h
  · cases h
  · exact h

/-- The row found or inserted, and the table with it. -/
def attach (repoId : Option Nat) (slug : String) (now : Time) (q : Repos) : Repo × Repos :=
  match h : findRepo repoId slug q with
  | some repo => (repo, q)
  | none =>
    (newRepo slug now q.table.next,
      q.add slug (newRepo slug now) (key_newRepo slug now) (slug_newRepo slug now) (bySlug_of_findRepo h))

def setSource (webUrl : String) (now : Time) (r : Repo) : Repo :=
  { r with
    sourceUrl := some webUrl
    defaultBranch := if r.defaultBranch = "" then "main" else r.defaultBranch
    syncState := "pending"
    updatedAt := now }

theorem key_setSource (webUrl : String) (now : Time) (r : Repo) : key (setSource webUrl now r) = key r := rfl

theorem slug_setSource (webUrl : String) (now : Time) (r : Repo) : (setSource webUrl now r).slug = r.slug := rfl

/-- An incremental sync starts after the migration, where the repository has a mirror. -/
def startCursor (a : CreateArgs) (skipTo : Option Phase) (repo : Repo) : Cursor :=
  let forgejoRepo := repo.forgejoRepo.getD ""
  match skipTo with
  | some phase =>
    if phase ≠ .validate ∧ forgejoRepo ≠ "" then
      { phase
        extras :=
          { forgejoRepo := some forgejoRepo
            includeIssues := some (decide (a.mode ∈ ["code+issues", "issues"]))
            includePrs := some a.includePrs } }
    else { phase := .validate }
  | none => { phase := .validate }

/-- `create_job`; an error is the text of the exception. -/
def createJob (py : Urllib) (a : CreateArgs) (q : Repos) : Except String ImportJob × Repos :=
  match a.checked py with
  | .error e => (.error e, q)
  | .ok (source, skipTo) =>
    let (repo, q) := attach a.repoId source.slug a.now q
    let cursor := startCursor a skipTo repo
    (.ok { repoId := repo.id, mode := a.mode, status := "queued", phase := cursor.phase, cursor },
      q.assign repo.id (setSource source.webUrl a.now) (key_setSource _ _) (slug_setSource _ _))

/-- The table `repos` as it stands, then any calls of `create_job`. -/
def importJobs (py : Urllib) (repos : Repos) : Machine Repos CreateArgs (Except String ImportJob) :=
  ⟨repos, fun q a => createJob py a q⟩

end OpenFish.Import
