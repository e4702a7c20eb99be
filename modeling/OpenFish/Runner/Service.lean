/-
`services/repo_runner.py`: the logical runner of each repository, with its limits, its credential and the directory its
checkouts live in. A workspace path is checked to be relative and not to be another runner's path.
-/
import OpenFish.Lib.Table
import OpenFish.Lib.Text

namespace OpenFish.Runner

open Lib

abbrev Time := Nat

/-- A row of `repo_runners`. -/
structure RepoRunner where
  id : Nat
  repoId : Nat
  name : String
  enabled : Bool := true
  maxConcurrency : Nat := 0
  /-- `""` is `runners/<id>`. -/
  workspaceSubdir : String := ""
  egressPolicy : String := "inherit"
  egressAllowlist : Option String := none
  credentialKind : String := "shared"
  credentialUsername : Option String := none
  credentialCiphertext : Option String := none
  credentialExpiresAt : Option Time := none
  credentialRotatedAt : Option Time := none
  lastTaskAt : Option Time := none
  deriving DecidableEq, Repr

instance : Keyed RepoRunner := ⟨RepoRunner.id⟩

/-! ## Workspace paths -/

def defaultWorkspaceSubdir : String := "runners"

/-- A character of `_SEGMENT_RE`. -/
def segmentChar (c : Char) : Bool := c.isAlphanum || c ∈ ['.', '_', '-']

def controlChar (c : Char) : Bool := c.toNat < 0x20 || c.toNat = 0x7f

/-- `safe_workspace_subdir` of a row with an id. -/
def safeWorkspaceSubdir (value : String) (runnerId : Nat) : Except String String :=
  let raw := Text.strip value
  if raw = "" then .ok (defaultWorkspaceSubdir ++ "/" ++ toString runnerId)
  else if Text.startsWith "/" raw ∨ Text.startsWith "\\" raw then .error ("workspace_subdir 不能是绝对路径：" ++ value)
  else if '\\' ∈ raw.toList then .error ("workspace_subdir 不能包含反斜杠：" ++ value)
  else if raw.toList.any controlChar then .error ("workspace_subdir 不能包含控制字符：" ++ value)
  else
    match (Text.split '/' raw).find? fun segment => segment ∈ ["", ".", ".."] ∨ segment.toList.all segmentChar = false with
    | some segment =>
      if segment ∈ ["", ".", ".."] then .error ("workspace_subdir 含非法路径段：" ++ value)
      else .error ("workspace_subdir 含非法字符：" ++ value)
    | none => .ok raw

/-- `_effective_subdir`. -/
def effectiveSubdir (row : RepoRunner) : Except String String := safeWorkspaceSubdir row.workspaceSubdir row.id

/-! ## The service -/

/-- What the rows refer to, and the cipher of the runner key, where it is configured. -/
structure Deployment where
  /-- The slug of a repository that there is. -/
  slug : Nat → Option String
  encrypt : Option (String → Option String)

/-- `_find`. -/
def find (rows : Table RepoRunner) (repoId : Nat) : Option RepoRunner := rows.rows.find? fun row => row.repoId = repoId

/-- `_workspace_conflict`: an effective path that raises ends the search. -/
def workspaceConflict (rows : List RepoRunner) (repoId : Nat) (candidate : String) : Except String (Option RepoRunner) :=
  match rows with
  | [] => .ok none
  | row :: rest =>
    if row.repoId = repoId then workspaceConflict rest repoId candidate
    else
      match effectiveSubdir row with
      | .error why => .error why
      | .ok path => if path = candidate then .ok (some row) else workspaceConflict rest repoId candidate

/-- `_create`. -/
def create (deployment : Deployment) (rows : Table RepoRunner) (repoId : Nat) (name : String) :
    Except String RepoRunner × Table RepoRunner :=
  match deployment.slug repoId with
  | none => (.error "IntegrityError", rows)
  | some slug =>
    let given := if Text.strip name = "" then Text.strip slug else Text.strip name
    let resolved := if given = "" then "repo-" ++ toString repoId else given
    match safeWorkspaceSubdir "" rows.next with
    | .error why => (.error why, rows)
    | .ok effective =>
      match workspaceConflict rows.rows repoId effective with
      | .error why => (.error why, rows)
      | .ok (some conflict) =>
        (.error ("默认工作区 " ++ effective ++ " 已被仓库 " ++ toString conflict.repoId ++
          " 的 runner 占用：两个仓库不能共享同一个工作区根"), rows)
      | .ok none =>
        let row (id : Nat) : RepoRunner := { id, repoId, name := Text.clip 128 resolved }
        (.ok (row rows.next), rows.insert row fun _ => rfl)

/-- The row of a repository, created where there is none. -/
def findOrCreate (deployment : Deployment) (rows : Table RepoRunner) (repoId : Nat) (name : String) :
    Except String RepoRunner × Table RepoRunner :=
  match find rows repoId with
  | some row => (.ok row, rows)
  | none => create deployment rows repoId name

/-- `_persist`: the changes of one row. -/
def persist (rows : Table RepoRunner) (row : RepoRunner) (change : RepoRunner → RepoRunner)
    (h : ∀ r, (change r).id = r.id) : Except String RepoRunner × Table RepoRunner :=
  (.ok (change row), rows.update (key · == row.id) change h)

structure Settings where
  enabled : Option Bool := none
  maxConcurrency : Option Int := none
  egressPolicy : Option String := none
  egressAllowlist : Option String := none
  workspaceSubdir : Option String := none
  deriving DecidableEq, Repr

def egressPolicies : List String := ["inherit", "internal", "allowlist"]

/-- `_normalize_allowlist`. -/
def normalizeAllowlist (value : String) : Option String :=
  let hosts := ((Text.split ',' (Text.replaceChar ';' ',' value)).map Text.strip).filter fun host => host ≠ ""
  let once := hosts.foldl (fun kept host => if host ∈ kept then kept else kept ++ [host]) []
  if once = [] then none else some (String.intercalate "," once)

/-- The checks that `update` makes before it opens a session, and what it keeps of them: the requested path. -/
def checkSettings (settings : Settings) : Except String (Option String) :=
  match settings.maxConcurrency with
  | some (.negSucc n) => .error ("max_concurrency 不能为负数：" ++ toString (Int.negSucc n))
  | _ =>
    match settings.egressPolicy.map Text.strip with
    | some policy =>
      if policy ∈ egressPolicies then checkSubdir
      else .error ("未知的 egress_policy：" ++ settings.egressPolicy.getD "" ++
        "（可选 ('inherit', 'internal', 'allowlist')）")
    | none => checkSubdir
where
  checkSubdir : Except String (Option String) :=
    match settings.workspaceSubdir with
    | none => .ok none
    | some value => if Text.strip value = "" then .ok none else (safeWorkspaceSubdir value 0).map some

/-- The settings that are given, and the path. -/
def applySettings (settings : Settings) (path : Option String) (row : RepoRunner) : RepoRunner :=
  { row with
    enabled := settings.enabled.getD row.enabled
    maxConcurrency := (settings.maxConcurrency.map Int.toNat).getD row.maxConcurrency
    egressPolicy := (settings.egressPolicy.map Text.strip).getD row.egressPolicy
    egressAllowlist := (settings.egressAllowlist.map normalizeAllowlist).getD row.egressAllowlist
    workspaceSubdir := path.getD row.workspaceSubdir }

/-- The path to store: the one that was asked for, or the default of the row. -/
def pathToStore (subdir : Option String) (id : Nat) : Except String String :=
  match subdir with
  | some path => .ok path
  | none => safeWorkspaceSubdir "" id

/-- `update`. -/
def update (deployment : Deployment) (rows : Table RepoRunner) (repoId : Nat) (settings : Settings) :
    Except String RepoRunner × Table RepoRunner :=
  match checkSettings settings with
  | .error why => (.error why, rows)
  | .ok subdir =>
    match findOrCreate deployment rows repoId "" with
    | (.error why, rows') => (.error why, rows')
    | (.ok row, rows') =>
      match settings.workspaceSubdir with
      | none => persist rows' row (applySettings settings none) fun _ => rfl
      | some _ =>
        match pathToStore subdir row.id with
        | .error why => (.error why, rows')
        | .ok effective =>
          match workspaceConflict rows'.rows repoId effective with
          | .error why => (.error why, rows')
          | .ok (some conflict) =>
            (.error ("workspace_subdir " ++ effective ++ " 与仓库 " ++ toString conflict.repoId ++
              " 的 runner 工作区相同：两个仓库不能共享同一个工作区根"), rows')
          | .ok none => persist rows' row (applySettings settings (some effective)) fun _ => rfl

/-- `set_credential`. -/
def setCredential (deployment : Deployment) (rows : Table RepoRunner) (repoId : Nat) (token username : String)
    (expiresAt : Option Time) (now : Time) : Except String RepoRunner × Table RepoRunner :=
  if Text.strip token = "" then (.error "runner 凭据不能为空", rows)
  else
    match deployment.encrypt with
    | none =>
      (.error ("RUNNER_CREDENTIAL_KEY 未配置：runner 凭据必须用它加密存储；该密钥与 GIT_IDENTITY_KEY（用户身份主密钥）刻意分离，" ++
        "不会回退到身份主密钥，也不会以明文降级"), rows)
    | some encrypt =>
      match findOrCreate deployment rows repoId "" with
      | (.error why, rows') => (.error why, rows')
      | (.ok row, rows') =>
        match encrypt (Text.strip token) with
        | none => (.error "runner 凭据加密失败，未写入任何内容", rows')
        | some sealedToken =>
          persist rows' row (fun r => { r with
            credentialKind := "repo"
            credentialUsername := if Text.strip username = "" then none else some (Text.strip username)
            credentialCiphertext := some sealedToken
            credentialExpiresAt := expiresAt
            credentialRotatedAt := some now }) fun _ => rfl

/-- `workspace_root`, below the work root. -/
def workspaceRoot (deployment : Deployment) (rows : Table RepoRunner) (repoId : Nat) :
    Except String String × Table RepoRunner :=
  match findOrCreate deployment rows repoId "" with
  | (.error why, rows') => (.error why, rows')
  | (.ok row, rows') => (effectiveSubdir row, rows')

/-- `record_task`. -/
def recordTask (deployment : Deployment) (rows : Table RepoRunner) (repoId : Nat) (now : Time) :
    Except String RepoRunner × Table RepoRunner :=
  match findOrCreate deployment rows repoId "" with
  | (.error why, rows') => (.error why, rows')
  | (.ok row, rows') => persist rows' row (fun r => { r with lastTaskAt := some now }) fun _ => rfl

end OpenFish.Runner
