/-
When a refused `update` of a runner leaves a trace: the default row of a repository that had none is committed before the path
that was asked for is compared with those of the other runners.
-/
import OpenFish.Runner.Workspaces

namespace OpenFish.Runner

open Lib

/-! ## The call with its arguments -/

/-- What `int` makes of an argument. -/
inductive Arg
  | int (n : Int)
  /-- `TypeError` or `ValueError`. -/
  | invalid (shown : String)
  /-- Another exception, such as `OverflowError`. -/
  | raises (why : String)
  deriving DecidableEq, Repr

structure Arguments where
  repoId : Arg
  enabled : Option Bool := none
  maxConcurrency : Option Arg := none
  egressPolicy : Option String := none
  egressAllowlist : Option String := none
  workspaceSubdir : Option String := none
  deriving DecidableEq, Repr

/-- A call returns a row, refuses (`RepoRunnerError`) or raises something else. -/
inductive Outcome
  | done (row : RepoRunner)
  | refused (why : String)
  | raised (why : String)
  deriving DecidableEq, Repr

/-- The settings that are asked for, once `max_concurrency` is a number. -/
def Arguments.settings (a : Arguments) : Except Outcome Settings :=
  let given (maxConcurrency : Option Int) : Settings :=
    { enabled := a.enabled, maxConcurrency, egressPolicy := a.egressPolicy, egressAllowlist := a.egressAllowlist,
      workspaceSubdir := a.workspaceSubdir }
  match a.maxConcurrency with
  | none => .ok (given none)
  | some (.int n) => .ok (given (some n))
  | some (.invalid shown) => .error (.refused ("max_concurrency 必须是整数：" ++ shown))
  | some (.raises why) => .error (.raised why)

variable (deployment : Deployment) (fits : RepoRunner → Bool)

theorem applySettings_id (settings : Settings) (path : Option String) (row : RepoRunner) :
    (applySettings settings path row).id = row.id := rfl

/-- `_persist`, of a row that the columns hold once the settings are applied. -/
def store (rows : Table RepoRunner) (row : RepoRunner) (settings : Settings) (path : Option String) :
    Outcome × Table RepoRunner :=
  if fits (applySettings settings path row) then
    (.done (applySettings settings path row), (persist rows row (applySettings settings path) (applySettings_id settings path)).2)
  else (.raised "DataError", rows)

/-- What `update` does once it has the row. -/
def settle (rows : Table RepoRunner) (repoId : Nat) (row : RepoRunner) (settings : Settings) (subdir : Option String) :
    Outcome × Table RepoRunner :=
  match settings.workspaceSubdir with
  | none => store fits rows row settings none
  | some _ =>
    match pathToStore subdir row.id with
    | .error why => (.refused why, rows)
    | .ok effective =>
      -- the query for the other runners flushes what is changed so far
      if applySettings settings none row ≠ row ∧ fits (applySettings settings none row) = false then (.raised "DataError", rows)
      else
        match workspaceConflict rows.rows repoId effective with
        | .error why => (.refused why, rows)
        | .ok (some conflict) =>
          (.refused ("workspace_subdir " ++ effective ++ " 与仓库 " ++ toString conflict.repoId ++
            " 的 runner 工作区相同：两个仓库不能共享同一个工作区根"), rows)
        | .ok none => store fits rows row settings (some effective)

/-- `update`, of arguments as they come. -/
def updateCall (rows : Table RepoRunner) (a : Arguments) : Outcome × Table RepoRunner :=
  match a.repoId with
  | .invalid shown => (.refused ("repo_id 必须是整数：" ++ shown), rows)
  | .raises why => (.raised why, rows)
  | .int n =>
    match a.settings with
    | .error outcome => (outcome, rows)
    | .ok settings =>
      match checkSettings settings, n with
      | .error why, _ => (.refused why, rows)
      -- no repository has such an id
      | .ok _, .negSucc _ => (.raised "IntegrityError", rows)
      | .ok subdir, .ofNat repoId =>
        match findOrCreate deployment rows repoId "" with
        | (.error why, rows') => (if deployment.slug repoId = none then .raised why else .refused why, rows')
        | (.ok row, rows') => settle fits rows' repoId row settings subdir

/-! ## What the claim is about -/

/-- A refused call leaves the table as it was. -/
def Traceless (rows : Table RepoRunner) (a : Arguments) : Prop :=
  ∀ why, (updateCall deployment fits rows a).1 = .refused why → (updateCall deployment fits rows a).2 = rows

/-- The row that `_create` adds. -/
def defaultRow (repoId id : Nat) : RepoRunner :=
  let slug := Text.strip ((deployment.slug repoId).getD "")
  { id, repoId, name := Text.clip 128 (if slug = "" then "repo-" ++ toString repoId else slug) }

/-- The settings are valid and name a path of their own. -/
structure Names (a : Arguments) (repoId : Nat) (settings : Settings) (path : String) : Prop where
  repoId_eq : a.repoId = .int repoId
  settings_eq : a.settings = .ok settings
  valid : checkSettings settings = .ok (some path)

/-- The repository has no runner yet and may have one, but another runner has the path that is asked for. -/
structure Strands (rows : Table RepoRunner) (a : Arguments) (repoId : Nat) (settings : Settings) (path : String) : Prop
    extends Names a repoId settings path where
  slug : deployment.slug repoId ≠ none
  missing : find rows repoId = none
  vacant : workspaceConflict rows.rows repoId (defaultWorkspaceSubdir ++ "/" ++ toString rows.next) = .ok none
  taken : ∃ other ∈ rows.rows, other.repoId ≠ repoId ∧ effectiveSubdir other = .ok path
  stored : applySettings settings none (defaultRow deployment repoId rows.next) = defaultRow deployment repoId rows.next ∨
    fits (applySettings settings none (defaultRow deployment repoId rows.next)) = true

/-! ## Conflicts -/

theorem workspaceConflict_readable {repoId : Nat} {candidate : String} : ∀ {l : List RepoRunner},
    workspaceConflict l repoId candidate = .ok none → ∀ row ∈ l, row.repoId ≠ repoId → ∃ path, effectiveSubdir row = .ok path
  | [], _, _, hrow => absurd hrow List.not_mem_nil
  | first :: rest, h, row, hrow => by
    unfold workspaceConflict at h
    rcases List.mem_cons.1 hrow with rfl | hrow
    · intro hne
      rw [if_neg hne] at h
      cases hpath : effectiveSubdir row with
      | error why => rw [hpath] at h; cases h
      | ok path => exact ⟨path, rfl⟩
    · split at h
      · exact workspaceConflict_readable h row hrow
      · split at h
        · cases h
        · split at h
          · cases h
          · exact workspaceConflict_readable h row hrow

/-- Where every path can be read, the search finds a runner if and only if one has the path. -/
theorem workspaceConflict_ok {repoId : Nat} {candidate : String} : ∀ {l : List RepoRunner},
    (∀ row ∈ l, row.repoId ≠ repoId → ∃ path, effectiveSubdir row = .ok path) →
    ∃ found, workspaceConflict l repoId candidate = .ok found ∧
      (found.isSome = true ↔ ∃ other ∈ l, other.repoId ≠ repoId ∧ effectiveSubdir other = .ok candidate)
  | [], _ => ⟨none, rfl, by simp⟩
  | first :: rest, hall => by
    rw [List.forall_mem_cons] at hall
    obtain ⟨found, hfound, hiff⟩ := @workspaceConflict_ok repoId candidate rest hall.2
    rw [workspaceConflict]
    by_cases hsame : first.repoId = repoId
    · refine ⟨found, (if_pos hsame).trans hfound, ?_⟩
      rw [hiff, List.exists_mem_cons_iff]
      exact ⟨.inr, fun hor => hor.resolve_left fun hfirst => hfirst.1 hsame⟩
    · obtain ⟨path, hpath⟩ := hall.1 hsame
      rw [if_neg hsame, hpath]
      simp only
      by_cases heq : path = candidate
      · subst heq
        exact ⟨some first, if_pos rfl, ⟨fun _ => ⟨first, List.mem_cons_self .., hsame, hpath⟩, fun _ => rfl⟩⟩
      · refine ⟨found, (if_neg heq).trans hfound, ?_⟩
        rw [hiff, List.exists_mem_cons_iff]
        refine ⟨.inr, fun hor => hor.resolve_left fun hfirst => heq ?_⟩
        rw [hpath] at hfirst
        exact Except.ok.inj hfirst.2

/-- The runner of the repository itself does not count. -/
theorem workspaceConflict_append {row : RepoRunner} {candidate : String} : ∀ {l : List RepoRunner},
    workspaceConflict (l ++ [row]) row.repoId candidate = workspaceConflict l row.repoId candidate
  | [] => if_pos rfl
  | first :: rest => by
    rw [List.cons_append, workspaceConflict, workspaceConflict, workspaceConflict_append]

/-! ## The default row -/

variable {deployment fits}

/-- A creation adds the default row where its path is free, and leaves the table alone where it fails. -/
theorem findOrCreate_missing {rows : Table RepoRunner} {repoId : Nat} (hmissing : find rows repoId = none) :
    (findOrCreate deployment rows repoId "" = (.ok (defaultRow deployment repoId rows.next),
        rows.insert (defaultRow deployment repoId) fun _ => rfl) ∧ deployment.slug repoId ≠ none ∧
      workspaceConflict rows.rows repoId (defaultWorkspaceSubdir ++ "/" ++ toString rows.next) = .ok none) ∨
    ((∃ why, findOrCreate deployment rows repoId "" = (.error why, rows)) ∧ (deployment.slug repoId = none ∨
      workspaceConflict rows.rows repoId (defaultWorkspaceSubdir ++ "/" ++ toString rows.next) ≠ .ok none)) := by
  unfold findOrCreate
  rw [hmissing]
  unfold create
  cases hslug : deployment.slug repoId with
  | none => exact .inr ⟨⟨_, rfl⟩, .inl rfl⟩
  | some slug =>
    simp only [safeWorkspaceSubdir_empty]
    cases hconflict : workspaceConflict rows.rows repoId (defaultWorkspaceSubdir ++ "/" ++ toString rows.next) with
    | error why => exact .inr ⟨⟨_, rfl⟩, .inr fun heq => by cases heq⟩
    | ok conflict =>
      cases conflict with
      | some row => exact .inr ⟨⟨_, rfl⟩, .inr fun heq => by cases heq⟩
      | none =>
        have hrow : defaultRow deployment repoId = fun id =>
            { id, repoId, name := Text.clip 128 (if Text.strip slug = "" then "repo-" ++ toString repoId else Text.strip slug) } :=
          funext fun id => by
            unfold defaultRow
            rw [hslug, Option.getD_some]
        refine .inl ⟨?_, Option.some_ne_none slug, rfl⟩
        have hblank : Text.strip "" = "" := by rfl
        simp only [hblank, if_true, hrow]

/-! ## Refusals -/

theorem store_not_refused {rows : Table RepoRunner} {row : RepoRunner} {settings : Settings} {path : Option String}
    {why : String} : (store fits rows row settings path).1 ≠ .refused why := by
  unfold store
  split <;> simp

/-- Once it has the row, a call is refused for a path that cannot be read or that another runner has, and changes nothing. -/
theorem settle_refused {rows : Table RepoRunner} {repoId : Nat} {row : RepoRunner} {settings : Settings} {subdir : Option String}
    {why : String} (h : (settle fits rows repoId row settings subdir).1 = .refused why) :
    (settle fits rows repoId row settings subdir).2 = rows ∧ settings.workspaceSubdir ≠ none ∧
      ((∃ why, pathToStore subdir row.id = .error why) ∨ ∃ effective, pathToStore subdir row.id = .ok effective ∧
        (applySettings settings none row = row ∨ fits (applySettings settings none row) = true) ∧
        workspaceConflict rows.rows repoId effective ≠ .ok none) := by
  unfold settle at h ⊢
  cases hsubdir : settings.workspaceSubdir with
  | none =>
    rw [hsubdir] at h
    exact absurd h store_not_refused
  | some value =>
    rw [hsubdir] at h
    simp only at h ⊢
    cases hpath : pathToStore subdir row.id with
    | error why' => exact ⟨rfl, Option.some_ne_none _, .inl ⟨why', rfl⟩⟩
    | ok effective =>
      rw [hpath] at h
      simp only at h ⊢
      split at h
      · cases h
      · rename_i hflush
        rw [if_neg hflush]
        rw [not_and_or, not_not, Bool.not_eq_false] at hflush
        cases hconflict : workspaceConflict rows.rows repoId effective with
        | error why' => exact ⟨rfl, Option.some_ne_none _, .inr ⟨effective, rfl, hflush, by rw [hconflict]; exact fun heq => by cases heq⟩⟩
        | ok found =>
          cases found with
          | some other => exact ⟨rfl, Option.some_ne_none _, .inr ⟨effective, rfl, hflush, by rw [hconflict]; exact fun heq => by cases heq⟩⟩
          | none =>
            rw [hconflict] at h
            exact absurd h store_not_refused

/-- A path that is taken refuses the call. -/
theorem settle_taken {rows : Table RepoRunner} {repoId : Nat} {row other : RepoRunner} {settings : Settings} {path : String}
    (hgiven : settings.workspaceSubdir ≠ none)
    (hstored : applySettings settings none row = row ∨ fits (applySettings settings none row) = true)
    (hconflict : workspaceConflict rows.rows repoId path = .ok (some other)) :
    (∃ why, (settle fits rows repoId row settings (some path)).1 = .refused why) ∧
      (settle fits rows repoId row settings (some path)).2 = rows := by
  unfold settle
  cases hsubdir : settings.workspaceSubdir with
  | none => exact absurd hsubdir hgiven
  | some value =>
    simp only [pathToStore]
    rw [if_neg, hconflict]
    · exact ⟨⟨_, rfl⟩, rfl⟩
    · rintro ⟨hchanged, hnot⟩
      rcases hstored with heq | hfits
      · exact hchanged heq
      · rw [hfits] at hnot
        cases hnot

theorem checkSettings_given {settings : Settings} {path : String} (h : checkSettings settings = .ok (some path)) :
    settings.workspaceSubdir ≠ none := by
  have hsubdir : checkSettings.checkSubdir settings = .ok (some path) := by
    unfold checkSettings at h
    split at h
    · cases h
    · split at h
      · split at h
        · exact h
        · cases h
      · exact h
  unfold checkSettings.checkSubdir at hsubdir
  intro hnone
  rw [hnone] at hsubdir
  cases hsubdir

theorem updateCall_found {rows rows' : Table RepoRunner} {a : Arguments} {repoId : Nat} {settings : Settings}
    {subdir : Option String} {row : RepoRunner} (hrepo : a.repoId = .int repoId) (hsettings : a.settings = .ok settings)
    (hvalid : checkSettings settings = .ok subdir) (hfound : findOrCreate deployment rows repoId "" = (.ok row, rows')) :
    updateCall deployment fits rows a = settle fits rows' repoId row settings subdir := by
  unfold updateCall
  rw [hrepo, hsettings]
  simp only
  rw [hvalid]
  simp only [hfound]

theorem insert_ne {rows : Table RepoRunner} {mk : Nat → RepoRunner} {hmk : ∀ k, key (mk k) = k} : rows.insert mk hmk ≠ rows := by
  intro heq
  have hlength := congrArg (fun t : Table RepoRunner => t.rows.length) heq
  simp [Table.insert] at hlength

theorem stranded_traced {rows : Table RepoRunner} {a : Arguments} {repoId : Nat} {settings : Settings} {path : String}
    (h : Strands deployment fits rows a repoId settings path) : ¬ Traceless deployment fits rows a := by
  intro htraceless
  rcases findOrCreate_missing h.missing with ⟨hcreated, -, -⟩ | ⟨-, hslug | hvacant⟩
  · have hcall := @updateCall_found deployment fits _ _ _ _ _ _ _ h.repoId_eq h.settings_eq h.valid hcreated
    obtain ⟨found, hfound, hiff⟩ := @workspaceConflict_ok repoId path _ (workspaceConflict_readable h.vacant)
    obtain ⟨other, rfl⟩ := Option.isSome_iff_exists.1 (hiff.2 h.taken)
    have hconflict : workspaceConflict (rows.insert (defaultRow deployment repoId) fun _ => rfl).rows repoId path = .ok (some other) :=
      (@workspaceConflict_append (defaultRow deployment repoId rows.next) path rows.rows).trans hfound
    obtain ⟨⟨why, hrefused⟩, hkept⟩ := settle_taken (checkSettings_given h.valid) h.stored hconflict
    rw [← hcall] at hrefused hkept
    exact insert_ne (hkept.symm.trans (htraceless why hrefused))
  · exact h.slug hslug
  · exact hvacant h.vacant

/-- A refused call leaves no trace unless the repository had no runner, could have one, and asks for a path that another one
has. -/
theorem traceless_iff_not_stranded (deployment : Deployment) (fits : RepoRunner → Bool) (rows : Table RepoRunner)
    (a : Arguments) : Traceless deployment fits rows a ↔
      ∀ repoId settings path, ¬ Strands deployment fits rows a repoId settings path := by
  refine ⟨fun htraceless repoId settings path hstrands => stranded_traced hstrands htraceless, fun hnone why hrefused => ?_⟩
  cases hrepo : a.repoId with
  | invalid shown => rw [updateCall, hrepo]
  | raises why' => rw [updateCall, hrepo]
  | int n =>
    cases hsettings : a.settings with
    | error outcome => rw [updateCall, hrepo, hsettings]
    | ok settings =>
      cases hvalid : checkSettings settings with
      | error why' => rw [updateCall, hrepo, hsettings]; simp only [hvalid]
      | ok subdir =>
        cases n with
        | negSucc n => rw [updateCall, hrepo, hsettings]; simp only [hvalid]
        | ofNat repoId =>
          cases hfind : find rows repoId with
          | some row =>
            have hfound : findOrCreate deployment rows repoId "" = (.ok row, rows) := by rw [findOrCreate, hfind]
            have hcall := @updateCall_found deployment fits _ _ _ _ _ _ _ hrepo hsettings hvalid hfound
            rw [hcall] at hrefused ⊢
            exact (settle_refused hrefused).1
          | none =>
            rcases @findOrCreate_missing deployment rows repoId hfind with ⟨hcreated, hslug, hvacant⟩ | ⟨⟨why', hfailed⟩, -⟩
            · have hcall := @updateCall_found deployment fits _ _ _ _ _ _ _ hrepo hsettings hvalid hcreated
              rw [hcall] at hrefused
              obtain ⟨-, -, hor⟩ := settle_refused hrefused
              have hsame : ∀ path, workspaceConflict (rows.insert (defaultRow deployment repoId) fun _ => rfl).rows repoId path =
                  workspaceConflict rows.rows repoId path := fun path =>
                @workspaceConflict_append (defaultRow deployment repoId rows.next) path rows.rows
              cases subdir with
              | none =>
                -- the default path of the new row is free, or the row would not be there
                rcases hor with ⟨why', hpath⟩ | ⟨effective, hpath, -, hconflict⟩
                · cases hpath
                · cases hpath
                  rw [hsame] at hconflict
                  exact absurd hvacant hconflict
              | some path =>
                rcases hor with ⟨why', hpath⟩ | ⟨effective, hpath, hstored, hconflict⟩
                · cases hpath
                · cases hpath
                  rw [hsame] at hconflict
                  obtain ⟨found, hfound, hiff⟩ := @workspaceConflict_ok repoId path _ (workspaceConflict_readable hvacant)
                  rw [hfound] at hconflict
                  have hsome : found.isSome = true := by
                    cases found with
                    | none => exact absurd rfl hconflict
                    | some other => rfl
                  exact absurd ⟨⟨hrepo, hsettings, hvalid⟩, hslug, hfind, hvacant, hiff.1 hsome, hstored⟩ (hnone repoId settings path)
            · have hcall : (updateCall deployment fits rows a).2 = rows := by
                unfold updateCall
                rw [hrepo, hsettings]
                simp only
                rw [hvalid]
                simp only [hfailed]
              exact hcall

/-- Where the arguments are numbers and the columns hold every row, the call does what `update` does. -/
theorem updateCall_eq_update {rows : Table RepoRunner} {a : Arguments} {repoId : Nat} {settings : Settings}
    (hrepo : a.repoId = .int repoId) (hsettings : a.settings = .ok settings) (hfits : ∀ row, fits row = true) :
    (updateCall deployment fits rows a).2 = (update deployment rows repoId settings).2 := by
  have hstore : ∀ (rows : Table RepoRunner) row path, (store fits rows row settings path).2 =
      (persist rows row (applySettings settings path) (applySettings_id settings path)).2 := by
    intro rows row path
    unfold store
    rw [if_pos (hfits _)]
  cases hvalid : checkSettings settings with
  | error why =>
    unfold updateCall update
    rw [hrepo, hsettings, hvalid]
    simp only [hvalid]
  | ok subdir =>
    cases hfound : findOrCreate deployment rows repoId "" with
    | mk answer rows' =>
      cases answer with
      | error why =>
        unfold updateCall update
        rw [hrepo, hsettings]
        simp only
        rw [hvalid]
        simp only [hfound]
      | ok row =>
        rw [updateCall_found hrepo hsettings hvalid hfound, update, hvalid]
        simp only
        rw [hfound]
        simp only
        unfold settle
        cases settings.workspaceSubdir with
        | none => exact hstore ..
        | some value =>
          simp only
          cases pathToStore subdir row.id with
          | error why => rfl
          | ok effective =>
            simp only
            rw [if_neg fun hflush => Bool.noConfusion (hflush.2.symm.trans (hfits _))]
            cases workspaceConflict rows'.rows repoId effective with
            | error why => rfl
            | ok found =>
              cases found with
              | some other => rfl
              | none => exact hstore ..

/-! ## A path that another runner has -/

/-- The runner of the first repository has a path of its own. -/
def ownPath : Table RepoRunner :=
  Table.empty.insert (fun id => { id, repoId := 1, name := "app", workspaceSubdir := "team/app" }) fun _ => rfl

/-- The second repository, which has no runner, asks for the same path. -/
def samePath : Arguments := { repoId := .int 2, workspaceSubdir := some "team/app" }

/-- The call is refused, and the second repository has a runner. -/
theorem samePath_not_traceless : ¬ Traceless twoRepositories (fun _ => true) ownPath samePath :=
  @stranded_traced twoRepositories (fun _ => true) ownPath samePath 2 { workspaceSubdir := some "team/app" } "team/app"
    { repoId_eq := rfl
      settings_eq := rfl
      valid := by decide +kernel
      slug := by decide
      missing := by decide
      vacant := by decide +kernel
      taken := ⟨{ id := 1, repoId := 1, name := "app", workspaceSubdir := "team/app" }, List.mem_singleton_self _, by decide,
        by decide +kernel⟩
      stored := .inr rfl }

end OpenFish.Runner
