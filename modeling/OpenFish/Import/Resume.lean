/-
An import that is interrupted and called again ends as one that is not, when the poll budget lasts and no
commit is read from the wrong reader.

Every state that a step, a crash or `_fail` leaves behind is a checkpoint: its persisted cursor fits its rows.
-/
import OpenFish.Import.Checkpoint

namespace OpenFish.Import

open Lib

/-! ## Steps that are safe to interrupt -/

/-- A step that begins so does not reach what a failed call leaves in the cursor. A poll begins with a budget
for the unfinished answers still to come and one more. A walk over commits that has some to read fails if the
API raises, which takes a local copy that was not asked before and raises too; behind the last commit that
copy was not asked before. -/
def Start.Meets (cfg : ImportConfig) (src : Source) (b : Start) : Prop :=
  match b.cursor.phase with
  | .poll => b.cursor.migratePolls + b.pollsLeft < cfg.pollAttempts
  | .indexCommits =>
    src.apiCommits = [] ∨
      if b.cursor.commitsSeen < src.apiCommits.length then
        b.turns.head? = some true → b.cursor.extras.commitSource ≠ some "git" ∧ b.turns.tail.head? = some true
      else b.cursor.extras.commitSource ≠ some "git"
  | _ => True

/-! ## Checkpoints -/

section checkpoints

variable (old : Tables) (cfg : ImportConfig) (src : Source) (wants : Bool)

/-- No issue has been mirrored. -/
structure Untouched (c : Cursor) (issues : List Issue) : Prop where
  issueNumber : c.issueNumber = 0
  issuesSeen : c.issuesSeen = 0
  issuesStored : c.extras.issuesStored = none
  isPartial : c.isPartial = false
  issues : issues = old.issues

/-- No commit has been indexed. -/
structure NoCommits (c : Cursor) (commits : List Commit) : Prop where
  commitPage : c.commitPage = 0
  commitsSeen : c.commitsSeen = 0
  commitSource : c.extras.commitSource = none
  commits : commits = old.commits

/-- The migration has been asked for. -/
structure Migrated (c : Cursor) : Prop where
  forgejoRepo : c.extras.forgejoRepo.filter (· ≠ "") ≠ none
  includeIssues : c.extras.includeIssues = some wants
  includePrs : c.extras.includePrs = some wants

/-- The rows and the mark that the issue mirror ends with. -/
def IssuesDone (issues : List Issue) (marked : Bool) : Prop :=
  if wants then
    issues = issueTable old src (min cfg.maxIssues src.issues.length) ∧ marked = decide (cfg.maxIssues < src.issues.length)
  else issues = old.issues ∧ marked = false

/-- The cursor fits the rows: going on from it leads to the mirror of an uninterrupted import. -/
def Fits (c : Cursor) (issues : List Issue) (commits : List Commit) : Prop :=
  match c.phase with
  | .validate => Untouched old c issues ∧ NoCommits old c commits
  | .migrate => Untouched old c issues ∧ NoCommits old c commits
  | .poll => Untouched old c issues ∧ NoCommits old c commits ∧ Migrated wants c
  | .mirrorIssues =>
    NoCommits old c commits ∧ Migrated wants c ∧
      if wants then Reading old cfg src c issues ∨ Read old cfg src c issues else Untouched old c issues
  | .indexCommits => IssuesDone old cfg src wants issues c.isPartial ∧ ∃ k, Walking old cfg src k c commits
  | .done =>
    ∃ marked marked', IssuesDone old cfg src wants issues marked ∧ Walked old cfg src commits marked' ∧
      c.isPartial = (marked || marked')

/-- The web form of a URL, which `_step_validate` puts in its place. -/
def webForm (url : String) : String :=
  match parseSource url with
  | .ok source => source.webUrl
  | .error _ => url

/-- A URL that `parse_source` takes, and whose web form it takes again and again. -/
def ParsesThrough (url : String) : Prop := ∀ n, ∃ source, parseSource (webForm^[n] url) = .ok source

/-- What an import never changes, and the mark of the job, which is that of its cursor. -/
structure Kept (s : Session) : Prop where
  mode : decide (s.job.mode ∈ ["code+issues", "issues"]) = wants
  url : ∃ url, s.repo.sourceUrl = some url ∧ ParsesThrough url
  isPartial : s.job.isPartial = s.job.cursor.isPartial

/-- A checkpoint: what is persisted fits. -/
structure Safe (s : Session) : Prop extends Kept wants s where
  disk : Fits old cfg src wants s.job.cursor s.issues s.commits

/-- A checkpoint with a cursor in memory that fits too. -/
structure Live (s : Session) : Prop extends Safe old cfg src wants s where
  memory : Fits old cfg src wants s.cursor s.issues s.commits

/-- How much is left to do from a cursor. -/
def leftFrom (c : Cursor) (pollsLeft : ℕ) : ℕ :=
  match c.phase with
  | .validate => pollsLeft + src.issues.length + src.apiCommits.length + 6
  | .migrate => pollsLeft + src.issues.length + src.apiCommits.length + 5
  | .poll => pollsLeft + src.issues.length + src.apiCommits.length + 4
  | .mirrorIssues => (src.issues.length + 1 - c.issuesSeen) + src.apiCommits.length + 2
  | .indexCommits => src.apiCommits.length + 1 - c.commitsSeen
  | .done => 0

def Session.left (s : Session) : ℕ := leftFrom src s.cursor s.pollsLeft

/-- What a step leaves that is not stopped. -/
structure Stepping (s s' : Session) : Prop extends Live old cfg src wants s' where
  left : s'.left src < s.left src
  turns : s'.turns.length ≤ s.turns.length

/-- What a stop leaves: a checkpoint, and one trouble less to come. -/
structure Stopped (s : Session) (e : Stop) (s' : Session) : Prop extends Safe old cfg src wants s' where
  memory : e ≠ .crashed → Fits old cfg src wants s'.cursor s'.issues s'.commits
  turns : s'.turns.length < s.turns.length

end checkpoints

section steps

variable {old : Tables} {cfg : ImportConfig} {src : Source} {wants : Bool} {s : Session}

theorem rest_turns_le (s : Session) : s.rest.turns.length ≤ s.turns.length := by
  rw [Session.rest, List.length_tail]
  exact Nat.sub_le ..

theorem rest_turns_lt (h : s.trouble = true) : s.rest.turns.length < s.turns.length := by
  cases hturns : s.turns with
  | nil => rw [Session.trouble, hturns] at h; cases h
  | cons t ts => rw [Session.rest, hturns]; exact Nat.lt_succ_self _

theorem trouble_head (h : s.trouble = true) : s.turns.head? = some true := by
  cases hhead : s.turns.head? with
  | none => rw [Session.trouble, hhead] at h; cases h
  | some turn => rw [Session.trouble, hhead, Option.getD_some] at h; rw [h]

theorem webForm_of_ok {url : String} {source : RepoSource} (h : parseSource url = .ok source) :
    webForm url = source.webUrl := by
  unfold webForm
  simp only [h]

theorem parseOrRaise_of_ok {url : String} {source : RepoSource} (h : parseSource url = .ok source) :
    parseOrRaise url = pure source := by
  unfold parseOrRaise
  simp only [h]

theorem ParsesThrough.source {url : String} (h : ParsesThrough url) : ∃ source, parseSource url = .ok source := h 0

theorem ParsesThrough.webForm {url : String} (h : ParsesThrough url) : ParsesThrough (webForm url) := fun n => h (n + 1)

/-- A source that answers the same in every run, in the order it is asked for. -/
structure Orderly (src : Source) : Prop where
  issues : Ascending src.issues
  commits : OneHistory src

theorem stepValidate_spec (h : Live old cfg src wants s) (hphase : s.cursor.phase = .validate) :
    wp (stepValidate src) (fun _ s' => Stepping old cfg src wants s s') (Stopped old cfg src wants s) s := by
  have ⟨url, hurl, hparses⟩ := h.url
  have ⟨source, hsource⟩ := hparses.source
  have hform := webForm_of_ok hsource
  have hweb : ParsesThrough source.webUrl := hform ▸ hparses.webForm
  have hmemory := h.memory
  unfold Fits at hmemory
  rw [hphase] at hmemory
  have hleft : s.left src = s.pollsLeft + src.issues.length + src.apiCommits.length + 6 := by
    rw [Session.left, leftFrom, hphase]
  unfold stepValidate
  rw [wp_bind, wp_get, hurl, Option.getD_some, parseOrRaise_of_ok hsource]
  simp only [wp_bind, wp_pure, wp_attempt, wp_external, wp_modifyRepo, wp_modifyCursor]
  obtain ⟨hissues, hcommits⟩ := hmemory
  have hmemory' (c : Cursor) (hc : c.phase = .migrate) (hissues : Untouched old c s.issues) (hcommits : NoCommits old c s.commits) :
      Fits old cfg src wants c s.issues s.commits := by
    unfold Fits
    rw [hc]
    exact ⟨hissues, hcommits⟩
  constructor
  all_goals
    intro _
    refine ⟨⟨⟨⟨h.mode, ⟨_, rfl, hweb⟩, h.isPartial⟩, h.disk⟩, ?_⟩, ?_, rest_turns_le s⟩
    · exact hmemory' _ rfl ⟨hissues.1, hissues.2, hissues.3, hissues.4, hissues.5⟩
        ⟨hcommits.1, hcommits.2, hcommits.3, hcommits.4⟩
    · rw [hleft]
      exact Nat.lt_succ_self _

theorem ParsesThrough.ne_empty {url : String} (h : ParsesThrough url) : url ≠ "" := by
  rintro rfl
  have ⟨source, hsource⟩ := h.source
  have herror : parseSource "" = .error "source_url 不能为空" := by decide +kernel
  rw [herror] at hsource
  cases hsource

theorem migratedRepo_ne_empty (cfg : ImportConfig) (src : Source) (name : String) : migratedRepo cfg src name ≠ "" := by
  unfold migratedRepo
  cases hname : src.migratedFullName.filter (· ≠ "") with
  | some fullName => simpa using (Option.filter_eq_some_iff.1 hname).2
  | none =>
    intro h
    have := congrArg String.toList h
    simp at this

/-- Nothing but the rows, the job and the cursor matters to a checkpoint. -/
theorem Live.of_eq {s₁ : Session} (h : Live old cfg src wants s) (hurl : s₁.repo.sourceUrl = s.repo.sourceUrl)
    (hjob : s₁.job = s.job) (hissues : s₁.issues = s.issues) (hcommits : s₁.commits = s.commits)
    (hcursor : s₁.cursor = s.cursor) : Live old cfg src wants s₁ :=
  ⟨⟨⟨by rw [hjob]; exact h.mode, by rw [hurl]; exact h.url, by rw [hjob]; exact h.isPartial⟩,
    by rw [hjob, hissues, hcommits]; exact h.disk⟩, by rw [hcursor, hissues, hcommits]; exact h.memory⟩

theorem Live.stopped {s₁ : Session} {e : Stop} (h : Live old cfg src wants s₁) (hturns : s₁.turns.length < s.turns.length) :
    Stopped old cfg src wants s e s₁ :=
  ⟨h.toSafe, fun _ => h.memory, hturns⟩

variable (old cfg src wants) in
/-- What `_mirror_state` leaves when its commit goes through. -/
structure Mirrored (s s' : Session) : Prop extends Live old cfg src wants s' where
  job : s'.job.cursor = s'.cursor
  cursor : s'.cursor = s.cursor
  left : s'.left src = s.left src
  turns : s'.turns.length ≤ s.turns.length

theorem mirrorState_spec (hkept : Kept wants s) (hfits : Fits old cfg src wants s.cursor s.issues s.commits)
    (total done : Option ℕ) :
    wp (mirrorState total done) (fun _ s' => Mirrored old cfg src wants s s')
      (Stopped old cfg src wants s) s := by
  simp only [mirrorState, wp_bind, wp_modify, wp_commit]
  refine ⟨fun htrouble => ?_, fun _ => ?_⟩
  · exact ⟨⟨⟨hkept.mode, hkept.url, rfl⟩, hfits⟩, fun hne => absurd rfl hne,
      Nat.lt_of_lt_of_le (rest_turns_lt htrouble) (Nat.le_refl _)⟩
  · exact ⟨⟨⟨⟨hkept.mode, hkept.url, rfl⟩, hfits⟩, hfits⟩, rfl, rfl, rfl, rest_turns_le s⟩

theorem stepMigrate_spec (h : Live old cfg src wants s) (hphase : s.cursor.phase = .migrate) :
    wp (stepMigrate cfg src) (fun _ s' => Stepping old cfg src wants s s') (Stopped old cfg src wants s) s := by
  have ⟨url, hurl, hparses⟩ := h.url
  have ⟨source, hsource⟩ := hparses.source
  have hgiven : ((s.repo.sourceUrl.filter (· ≠ "")).or s.cursor.extras.sourceUrl).getD "" = url := by
    rw [hurl, Option.filter_some, decide_eq_true hparses.ne_empty]
    rfl
  have hleft : s.left src = s.pollsLeft + src.issues.length + src.apiCommits.length + 5 := by
    rw [Session.left, leftFrom, hphase]
  -- from the name of the mirror on, whether it is new or not
  have htail (name : String) (hname : name ≠ "") (s₁ : Session) (hlive : Live old cfg src wants s₁)
      (hphase₁ : s₁.cursor.phase = .migrate) (hpolls : s₁.pollsLeft = s.pollsLeft)
      (hturns : s₁.turns.length ≤ s.turns.length) :
      wp (do
          modifyCursor fun c =>
            { c with
              extras := { c.extras with
                forgejoRepo := some name, includeIssues := some (decide (s.job.mode ∈ ["code+issues", "issues"])),
                includePrs := some (decide (s.job.mode ∈ ["code+issues", "issues"])) } }
          mirrorState none none
          modifyCursor fun c => { c with phase := .poll }
          return true : Act Bool)
        (fun _ s' => Stepping old cfg src wants s s') (Stopped old cfg src wants s) s₁ := by
    have hmemory := hlive.memory
    unfold Fits at hmemory
    rw [hphase₁] at hmemory
    obtain ⟨hissues, hcommits⟩ := hmemory
    have hissues' : Untouched old { s₁.cursor with extras := { s₁.cursor.extras with
        forgejoRepo := some name, includeIssues := some wants, includePrs := some wants } } s₁.issues :=
      ⟨hissues.1, hissues.2, hissues.3, hissues.4, hissues.5⟩
    have hcommits' : NoCommits old { s₁.cursor with extras := { s₁.cursor.extras with
        forgejoRepo := some name, includeIssues := some wants, includePrs := some wants } } s₁.commits :=
      ⟨hcommits.1, hcommits.2, hcommits.3, hcommits.4⟩
    have hsafe : Fits old cfg src wants { s₁.cursor with extras := { s₁.cursor.extras with
        forgejoRepo := some name, includeIssues := some wants, includePrs := some wants } } s₁.issues s₁.commits := by
      unfold Fits
      rw [hphase₁]
      exact ⟨hissues', hcommits'⟩
    rw [h.mode]
    simp only [mirrorState, wp_bind, wp_pure, wp_modify, wp_modifyCursor, wp_commit]
    refine ⟨fun htrouble => ?_, fun _ => ?_⟩
    · refine ⟨⟨⟨hlive.mode, hlive.url, rfl⟩, hsafe⟩, fun hne => absurd rfl hne, ?_⟩
      exact Nat.lt_of_lt_of_le (rest_turns_lt htrouble) hturns
    · refine ⟨⟨⟨⟨hlive.mode, hlive.url, rfl⟩, hsafe⟩, ?_⟩, ?_, (rest_turns_le _).trans hturns⟩
      · refine ⟨⟨hissues'.1, hissues'.2, hissues'.3, hissues'.4, hissues'.5⟩,
          ⟨hcommits'.1, hcommits'.2, hcommits'.3, hcommits'.4⟩, ?_, rfl, rfl⟩
        simp [Session.rest, hname]
      · rw [hleft, ← hpolls]
        exact Nat.lt_succ_self _
  unfold stepMigrate
  rw [wp_bind, wp_get, hgiven, parseOrRaise_of_ok hsource]
  simp only [wp_bind, wp_pure, wp_setSyncState]
  cases hexisting : s.repo.forgejoRepo.filter (· ≠ "") with
  | some existing =>
    have hne : existing ≠ "" := by simpa using (Option.filter_eq_some_iff.1 hexisting).2
    rw [wp_bind, wp_pure]
    exact (htail existing hne _ (h.of_eq rfl rfl rfl rfl rfl) hphase rfl (Nat.le_refl _))
  | none =>
    simp only [wp_bind, wp_external, wp_modifyRepo, wp_pure]
    refine ⟨fun htrouble => ?_, fun _ => ?_⟩
    · have hlive : Live old cfg src wants (Session.rest { s with repo := { s.repo with syncState := "cloning", updatedAt := s.now } }) :=
        h.of_eq rfl rfl rfl rfl rfl
      exact hlive.stopped (rest_turns_lt htrouble)
    · exact (wp_bind _ _).1 (htail _ (migratedRepo_ne_empty cfg src (forgejoName source)) _
        (h.of_eq rfl rfl rfl rfl rfl) hphase rfl (rest_turns_le _))

theorem Untouched.reading {c : Cursor} {issues : List Issue} (h : Untouched old c issues) : Reading old cfg src c issues := by
  refine ⟨0, by rw [h.issuesSeen, Nat.zero_mul], by rw [Nat.zero_mul]; exact Nat.zero_le _,
    by rw [Nat.zero_mul]; exact Nat.zero_le _, ?_, ?_, h.isPartial, Or.inl ?_⟩
  · rw [Cursor.stored, h.issuesStored, h.issuesSeen, Nat.zero_mul]
    rfl
  · rw [h.issueNumber, Nat.zero_mul]
    rfl
  · rw [h.issues, Nat.zero_mul]
    rfl

theorem leftFrom_poll {c : Cursor} (h : c.phase = .poll) (pollsLeft : ℕ) :
    leftFrom src c pollsLeft = pollsLeft + src.issues.length + src.apiCommits.length + 4 := by
  rw [leftFrom, h]

theorem getD_ne_empty {name : Option String} (h : name.filter (· ≠ "") ≠ none) : name.getD "" ≠ "" := by
  cases name with
  | none => exact absurd rfl h
  | some name =>
    rintro rfl
    exact h rfl

theorem stepPoll_spec (h : Live old cfg src wants s) (hphase : s.cursor.phase = .poll)
    (hmeets : s.cursor.migratePolls + s.pollsLeft < cfg.pollAttempts) :
    wp (stepPoll cfg) (fun _ s' => Stepping old cfg src wants s s') (Stopped old cfg src wants s) s := by
  have hmemory := h.memory
  unfold Fits at hmemory
  rw [hphase] at hmemory
  obtain ⟨hissues, hcommits, hmigrated⟩ := hmemory
  have hleft : s.left src = s.pollsLeft + src.issues.length + src.apiCommits.length + 4 := by
    rw [Session.left, leftFrom, hphase]
  -- the cursor with its count raised
  have hissues' : Untouched old { s.cursor with migratePolls := s.cursor.migratePolls + 1 } s.issues :=
    ⟨hissues.1, hissues.2, hissues.3, hissues.4, hissues.5⟩
  have hcommits' : NoCommits old { s.cursor with migratePolls := s.cursor.migratePolls + 1 } s.commits :=
    ⟨hcommits.1, hcommits.2, hcommits.3, hcommits.4⟩
  have hmigrated' : Migrated wants { s.cursor with migratePolls := s.cursor.migratePolls + 1 } :=
    ⟨hmigrated.1, hmigrated.2, hmigrated.3⟩
  have hpolled : Fits old cfg src wants { s.cursor with migratePolls := s.cursor.migratePolls + 1 } s.issues s.commits := by
    unfold Fits
    rw [hphase]
    exact ⟨hissues', hcommits', hmigrated'⟩
  have hmoved : Fits old cfg src wants { s.cursor with migratePolls := s.cursor.migratePolls + 1, phase := .mirrorIssues }
      s.issues s.commits := by
    refine ⟨⟨hcommits.1, hcommits.2, hcommits.3, hcommits.4⟩, ⟨hmigrated.1, hmigrated.2, hmigrated.3⟩, ?_⟩
    have huntouched : Untouched old { s.cursor with migratePolls := s.cursor.migratePolls + 1, phase := .mirrorIssues }
      s.issues := ⟨hissues.1, hissues.2, hissues.3, hissues.4, hissues.5⟩
    split
    · exact Or.inl huntouched.reading
    · exact huntouched
  have hbudget : ¬ cfg.pollAttempts < s.cursor.migratePolls + 1 := by omega
  unfold stepPoll
  rw [wp_bind, wp_get, if_neg (getD_ne_empty hmigrated.forgejoRepo)]
  simp only [wp_bind, wp_modifyCursor, wp_get, if_neg hbudget, pollMigration, wp_external, wp_modifyGet, mirrorState,
    wp_modify, wp_commit]
  refine ⟨fun htrouble => ?_, fun _ => ⟨fun htrouble => ?_, fun _ => ?_⟩⟩
  · exact ⟨⟨⟨h.mode, h.url, h.isPartial⟩, h.disk⟩, fun _ => hpolled, rest_turns_lt htrouble⟩
  · refine ⟨⟨⟨h.mode, h.url, rfl⟩, hpolled⟩, fun hne => absurd rfl hne, ?_⟩
    exact Nat.lt_of_lt_of_le (rest_turns_lt htrouble) (rest_turns_le s)
  · have hturns : s.rest.rest.turns.length ≤ s.turns.length := (rest_turns_le _).trans (rest_turns_le _)
    rw [wp_ite]
    refine ⟨fun hfinished => ?_, fun hunfinished => ?_⟩
    · simp only [wp_bind, wp_modifyCursor, wp_pure]
      refine ⟨⟨⟨⟨h.mode, h.url, rfl⟩, hpolled⟩, hmoved⟩, ?_, hturns⟩
      rw [hleft]
      show src.issues.length + 1 - s.cursor.issuesSeen + src.apiCommits.length + 2 < _
      omega
    · rw [wp_pure]
      refine ⟨⟨⟨⟨h.mode, h.url, rfl⟩, hpolled⟩, hpolled⟩, ?_, hturns⟩
      have hpos : s.pollsLeft ≠ 0 := fun hzero => hunfinished (by
        show (s.pollsLeft == 0) = true
        rw [hzero]
        rfl)
      have hleft' := @leftFrom_poll src { s.cursor with migratePolls := s.cursor.migratePolls + 1 } hphase
        (s.pollsLeft - 1)
      rw [hleft]
      exact Nat.lt_of_le_of_lt (Nat.le_of_eq hleft') (by omega)

theorem NoCommits.walking {c : Cursor} {commits : List Commit} (h : NoCommits old c commits) :
    ∃ k, Walking old cfg src k c commits := by
  refine ⟨0, by rw [h.commitsSeen, Nat.zero_mul], by rw [h.commitPage]; rfl, fun j hj => absurd hj (Nat.not_lt_zero j),
    Or.inl ?_⟩
  rw [h.commits, Nat.zero_mul]
  rfl

theorem leftFrom_mirrorIssues {c : Cursor} (h : c.phase = .mirrorIssues) (pollsLeft : ℕ) :
    leftFrom src c pollsLeft = src.issues.length + 1 - c.issuesSeen + src.apiCommits.length + 2 := by
  rw [leftFrom, h]

theorem leftFrom_indexCommits {c : Cursor} (h : c.phase = .indexCommits) (pollsLeft : ℕ) :
    leftFrom src c pollsLeft = src.apiCommits.length + 1 - c.commitsSeen := by
  rw [leftFrom, h]

/-- The mirror phase when issues are wanted: a page is stored and the cursor moved, or the phase ends. -/
theorem stepMirrorIssues_page (hordered : Ascending src.issues) (h : Live old cfg src true s)
    (hsame : s.job.cursor = s.cursor) (hphase : s.cursor.phase = .mirrorIssues) :
    wp (stepMirrorIssues cfg src) (fun _ s' => Stepping old cfg src true s s') (Stopped old cfg src true s) s := by
  have hmemory := h.memory
  unfold Fits at hmemory
  rw [hphase] at hmemory
  obtain ⟨hcommits, hmigrated, hissues⟩ := hmemory
  have hincludes : s.cursor.includesPrs = true := by rw [Cursor.includesPrs, hmigrated.includePrs]; rfl
  have hpage : PageDone old cfg src s.cursor s.issues := hissues.elim (·.pageDone hordered hincludes) (·.pageDone hincludes)
  obtain ⟨page, hpageOf⟩ : ∃ page, page = pageOf cfg src s.cursor := ⟨_, rfl⟩
  obtain ⟨c', hc'⟩ : ∃ c', c' = s.cursor.afterIssues cfg.maxIssues page := ⟨_, rfl⟩
  obtain ⟨table, htable⟩ : ∃ table, table = (rowsTaken cfg.maxIssues s.cursor page).foldl upsertIssue s.issues :=
    ⟨_, rfl⟩
  have hbefore := hpage.before
  have hafter := hpage.after
  rw [← hpageOf, ← htable] at hbefore hafter
  rw [← hc'] at hafter
  have hleft := @leftFrom_mirrorIssues src _ hphase s.pollsLeft
  have hphase' : c'.phase = .mirrorIssues := by rw [hc']; exact hphase
  have hcommits' : NoCommits old c' s.commits := by
    rw [hc']; exact ⟨hcommits.1, hcommits.2, hcommits.3, hcommits.4⟩
  have hmigrated' : Migrated true c' := by rw [hc']; exact ⟨hmigrated.1, hmigrated.2, hmigrated.3⟩
  have hcurrent : Fits old cfg src true s.cursor table s.commits := by
    unfold Fits
    rw [hphase]
    exact ⟨hcommits, hmigrated, hbefore⟩
  have hmoved : Fits old cfg src true c' table s.commits := by
    unfold Fits
    rw [hphase']
    refine ⟨hcommits', hmigrated', ?_⟩
    split at hafter
    · exact Or.inr hafter
    · exact Or.inl hafter.1
  -- from the cursor's advance on, whether rows were stored or not
  have htail (s₁ : Session) (hkept : Kept true s₁) (hcursor : s₁.cursor = s.cursor) (hissues₁ : s₁.issues = table)
      (hcommits₁ : s₁.commits = s.commits) (hturns : s₁.turns.length ≤ s.turns.length) :
      wp (do
          modifyCursor fun c => c.afterIssues cfg.maxIssues page
          let c' := (← get).cursor
          mirrorState (if c'.isPartial then some cfg.maxIssues else none) (some c'.stored)
          if truncates cfg.maxIssues s.cursor page || page.nextOffset.isNone then
            modifyCursor fun c => { c with phase := .indexCommits }
          return true : Act Bool)
        (fun _ s' => Stepping old cfg src true s s') (Stopped old cfg src true s) s₁ := by
    simp only [wp_bind, wp_modifyCursor, wp_get, mirrorState, wp_modify, wp_commit]
    rw [hcursor, ← hc']
    have hmoved₁ : Fits old cfg src true c' s₁.issues s₁.commits := by rw [hissues₁, hcommits₁]; exact hmoved
    refine ⟨fun htrouble => ?_, fun _ => ?_⟩
    · refine ⟨⟨⟨hkept.mode, hkept.url, rfl⟩, hmoved₁⟩, fun hne => absurd rfl hne, ?_⟩
      exact Nat.lt_of_lt_of_le (rest_turns_lt htrouble) hturns
    · rw [wp_ite]
      refine ⟨fun hends => ?_, fun hgoes => ?_⟩
      · rw [if_pos hends] at hafter
        rw [wp_bind, wp_modifyCursor, wp_pure]
        refine ⟨⟨⟨⟨hkept.mode, hkept.url, rfl⟩, hmoved₁⟩, ?_⟩, ?_, (rest_turns_le _).trans hturns⟩
        · have hdone : IssuesDone old cfg src true s₁.issues c'.isPartial := by
            rw [hissues₁]; exact ⟨hafter.1, hafter.2.1⟩
          have hnone : NoCommits old { c' with phase := .indexCommits } s₁.commits := by
            rw [hcommits₁]; exact ⟨hcommits'.1, hcommits'.2, hcommits'.3, hcommits'.4⟩
          exact ⟨hdone, hnone.walking⟩
        · rw [Session.left, Session.left, hleft]
          refine Nat.lt_of_le_of_lt (Nat.le_of_eq (leftFrom_indexCommits rfl _)) ?_
          omega
      · rw [if_neg hgoes] at hafter
        rw [wp_pure]
        refine ⟨⟨⟨⟨hkept.mode, hkept.url, rfl⟩, hmoved₁⟩, hmoved₁⟩, ?_, (rest_turns_le _).trans hturns⟩
        obtain ⟨⟨k, hseen, hlength, -⟩, hlt⟩ := hafter
        rw [Session.left, Session.left, hleft]
        refine Nat.lt_of_le_of_lt (Nat.le_of_eq (leftFrom_mirrorIssues hphase' _)) ?_
        omega
  have hforgejo := forgejoOf_ne hmigrated.forgejoRepo
  unfold stepMirrorIssues
  rw [wp_bind, wp_get, hmigrated.includeIssues]
  simp only [Option.getD_some, Bool.not_true, Bool.false_eq_true, if_false, if_neg hforgejo]
  have hpageOf' : streamIssues src.issues s.cursor.issueNumber s.cursor.issuesSeen cfg.pageSize = page := hpageOf.symm
  rw [hpageOf']
  simp only [wp_bind, wp_setSyncState, wp_external]
  refine ⟨fun htrouble => ?_, fun _ => ?_⟩
  · have hlive : Live old cfg src true (Session.rest { s with repo := { s.repo with syncState := "issues", updatedAt := s.now } }) :=
      h.of_eq rfl rfl rfl rfl rfl
    exact hlive.stopped (rest_turns_lt htrouble)
  · rw [wp_ite]
    refine ⟨fun _ => ?_, fun hnone => ?_⟩
    · simp only [upsertIssues, wp_bind, wp_modify, wp_commit]
      refine ⟨fun htrouble => ?_, fun _ => ?_⟩
      · refine ⟨⟨⟨h.mode, h.url, h.isPartial⟩, ?_⟩, fun hne => absurd rfl hne, ?_⟩
        · show Fits old cfg src true s.job.cursor ((rowsTaken cfg.maxIssues s.cursor page).foldl upsertIssue s.issues) s.commits
          rw [hsame, ← htable]
          exact hcurrent
        · exact Nat.lt_of_lt_of_le (rest_turns_lt htrouble) (rest_turns_le s)
      · exact (wp_bind _ _).1 (htail _ ⟨h.mode, h.url, h.isPartial⟩ rfl htable.symm rfl
          ((rest_turns_le _).trans (rest_turns_le s)))
    · rw [not_not] at hnone
      rw [hnone] at htable
      refine (wp_bind _ _).1 (htail _ ?_ ?_ ?_ ?_ ?_)
      · exact ⟨h.mode, h.url, h.isPartial⟩
      · rfl
      · exact htable.symm
      · rfl
      · exact rest_turns_le s

theorem stepMirrorIssues_spec (hordered : Ascending src.issues) (h : Live old cfg src wants s)
    (hsame : s.job.cursor = s.cursor) (hphase : s.cursor.phase = .mirrorIssues) :
    wp (stepMirrorIssues cfg src) (fun _ s' => Stepping old cfg src wants s s') (Stopped old cfg src wants s) s := by
  cases wants with
  | true => exact stepMirrorIssues_page hordered h hsame hphase
  | false =>
    have hmemory := h.memory
    unfold Fits at hmemory
    rw [hphase] at hmemory
    obtain ⟨hcommits, hmigrated, hissues⟩ := hmemory
    rw [if_neg Bool.false_ne_true] at hissues
    unfold stepMirrorIssues
    rw [wp_bind, wp_get, hmigrated.includeIssues]
    simp only [Option.getD_some, Bool.not_false, if_true, wp_bind, wp_modifyCursor, wp_pure]
    have hnone : NoCommits old { s.cursor with phase := .indexCommits } s.commits :=
      ⟨hcommits.1, hcommits.2, hcommits.3, hcommits.4⟩
    refine ⟨⟨⟨⟨h.mode, h.url, h.isPartial⟩, h.disk⟩, ⟨⟨hissues.issues, hissues.isPartial⟩, hnone.walking⟩⟩, ?_, Nat.le_refl _⟩
    rw [Session.left, Session.left, leftFrom_mirrorIssues hphase]
    refine Nat.lt_of_le_of_lt (Nat.le_of_eq (leftFrom_indexCommits rfl _)) ?_
    omega

/-! ### Commits -/

/-- Another session whose walk over commits stands where it stood. -/
structure SameWalk (s s₁ : Session) : Prop where
  url : s₁.repo.sourceUrl = s.repo.sourceUrl
  job : s₁.job = s.job
  issues : s₁.issues = s.issues
  commits : s₁.commits = s.commits
  phase : s₁.cursor.phase = s.cursor.phase
  commitsSeen : s₁.cursor.commitsSeen = s.cursor.commitsSeen
  commitPage : s₁.cursor.commitPage = s.cursor.commitPage
  isPartial : s₁.cursor.isPartial = s.cursor.isPartial
  turns : s₁.turns.length ≤ s.turns.length

theorem SameWalk.trans {s₁ s₂ : Session} (h : SameWalk s s₁) (h' : SameWalk s₁ s₂) : SameWalk s s₂ :=
  ⟨h'.url.trans h.url, h'.job.trans h.job, h'.issues.trans h.issues, h'.commits.trans h.commits, h'.phase.trans h.phase,
    h'.commitsSeen.trans h.commitsSeen, h'.commitPage.trans h.commitPage, h'.isPartial.trans h.isPartial,
    h'.turns.trans h.turns⟩

theorem SameWalk.walking {s₁ : Session} (h : SameWalk s s₁) {k : ℕ} (hwalk : Walking old cfg src k s.cursor s.commits) :
    Walking old cfg src k s₁.cursor s₁.commits := by
  unfold Walking
  rw [h.commitsSeen, h.commitPage, h.commits]
  exact hwalk

theorem SameWalk.live {s₁ : Session} (h : SameWalk s s₁) (hlive : Live old cfg src wants s)
    (hphase : s.cursor.phase = .indexCommits) : Live old cfg src wants s₁ := by
  refine ⟨⟨⟨by rw [h.job]; exact hlive.mode, by rw [h.url]; exact hlive.url, by rw [h.job]; exact hlive.isPartial⟩,
    by rw [h.job, h.issues, h.commits]; exact hlive.disk⟩, ?_⟩
  have hmemory := hlive.memory
  unfold Fits at hmemory ⊢
  rw [hphase] at hmemory
  rw [h.phase, hphase]
  obtain ⟨hissues, k, hwalk⟩ := hmemory
  exact ⟨by rw [h.issues, h.isPartial]; exact hissues, k, h.walking hwalk⟩

/-- The local copy behind the last commit. -/
theorem gitFallback_spec (hlive : Live old cfg src wants s) (hphase : s.cursor.phase = .indexCommits) (name : String) (room : ℕ) :
    wp (gitFallback src name room)
      (fun rows s' => s.trouble = false ∧ rows = gitLog src.gitCommits (room + 1) ∧ SameWalk s s')
      (Stopped old cfg src wants s) s := by
  have hsame : SameWalk s (Session.rest { s with
      cursor := { s.cursor with extras := { s.cursor.extras with commitSource := some "git" } } }) :=
    ⟨rfl, rfl, rfl, rfl, rfl, rfl, rfl, rfl, rest_turns_le s⟩
  unfold gitFallback
  simp only [wp_bind, wp_modifyCursor, wp_attempt, wp_external]
  refine ⟨fun htrouble => ?_, fun hcalm => ?_⟩
  · exact (hsame.live hlive hphase).stopped (rest_turns_lt htrouble)
  · exact ⟨hcalm, rfl, hsame⟩

/-- A step that meets the condition reads what an undisturbed one does, or fails. -/
theorem readCommits_spec (hone : OneHistory src) (hlive : Live old cfg src wants s) (hphase : s.cursor.phase = .indexCommits)
    {k : ℕ} (hwalk : Walking old cfg src k s.cursor s.commits)
    (hmeets : src.apiCommits = [] ∨
      if s.cursor.commitsSeen < src.apiCommits.length then
        s.turns.head? = some true → s.cursor.extras.commitSource ≠ some "git" ∧ s.turns.tail.head? = some true
      else s.cursor.extras.commitSource ≠ some "git") :
    wp (readCommits cfg src)
      (fun read s' => read.1 = readAt cfg src k ∧ read.2.1 = nextAt cfg src k ∧
        (read.2.2 = true → nextAt cfg src k = false) ∧ SameWalk s s')
      (Stopped old cfg src wants s) s := by
  have hrest : SameWalk s s.rest := ⟨rfl, rfl, rfl, rfl, rfl, rfl, rfl, rfl, rest_turns_le s⟩
  have hlive' : Live old cfg src wants s.rest := hrest.live hlive hphase
  obtain ⟨hseen, hpage, hbefore, -⟩ := hwalk
  have hlength := le_length_of_walking hbefore
  have hnothing (h : src.apiCommits = []) : src.gitCommits = [] := by
    have := hone.shas
    rw [h] at this
    exact List.map_eq_nil_iff.1 this
  -- from the rows of the API on, when the local copy is asked
  have hgit (hnil : src.apiCommits.length ≤ k * cfg.size) :
      wp (gitFallback src (forgejoOf s) (cfg.maxCommits - k * cfg.size))
        (fun rows s' => rows = readAt cfg src k ∧ SameWalk s s') (Stopped old cfg src wants s) s.rest := by
    refine wp_mono (gitFallback_spec hlive' hphase _ _) (fun rows s' h => ?_) fun e s' h => ?_
    · obtain ⟨-, rfl, hsame⟩ := h
      exact ⟨(readAt_nil hnil).symm, hrest.trans hsame⟩
    · exact ⟨h.toSafe, h.memory, Nat.lt_of_lt_of_le h.turns (rest_turns_le s)⟩
  have hpageNil (hnil : src.apiCommits.length ≤ k * cfg.size) := @commitPageRows_nil cfg _ _ hnil
  rw [hseen] at hmeets
  unfold readCommits
  simp only [wp_bind, wp_get, wp_attempt, wp_external, hseen, hpage]
  refine ⟨fun htrouble => ?_, fun _ => ?_⟩
  · rw [wp_ite]
    refine ⟨fun _ => ?_, fun hasked => ?_⟩
    · rw [wp_bind]
      by_cases hmore : k * cfg.size < src.apiCommits.length
      · -- there are commits to read, and the local copy raises too
        have hne : src.apiCommits ≠ [] := List.ne_nil_of_length_pos (by omega)
        have hboth := (hmeets.resolve_left hne)
        rw [if_pos hmore] at hboth
        have htrouble' : s.rest.trouble = true := by
          rw [Session.trouble, Session.rest, (hboth (trouble_head htrouble)).2]
          rfl
        refine wp_mono (gitFallback_spec hlive' hphase _ _) (fun rows s' h => ?_) fun e s' h => ?_
        · rw [h.1] at htrouble'
          cases htrouble'
        · exact ⟨h.toSafe, h.memory, Nat.lt_of_lt_of_le h.turns (rest_turns_le s)⟩
      · have hnil := Nat.not_lt.1 hmore
        refine wp_mono (hgit hnil) (fun rows s' h => ?_) fun e s' h => h
        exact ⟨h.1, (nextAt_nil (hpageNil hnil)).symm, fun _ => nextAt_nil (hpageNil hnil), h.2⟩
    · rw [wp_pure]
      have hsource : s.cursor.extras.commitSource = some "git" := by
        by_contra hne
        exact hasked ⟨trivial, hne⟩
      have hempty : src.apiCommits = [] := by
        by_contra hne
        have hboth := hmeets.resolve_left hne
        split at hboth
        · exact (hboth (trouble_head htrouble)).1 hsource
        · exact hboth hsource
      have hnil : src.apiCommits.length ≤ k * cfg.size := by rw [hempty]; exact Nat.zero_le _
      refine ⟨?_, (nextAt_nil (hpageNil hnil)).symm, fun _ => nextAt_nil (hpageNil hnil), hrest⟩
      rw [readAt_nil hnil, hnothing hempty, gitLog, List.take_nil]
  · have hanswer : streamCommits src.apiCommits (k + 1) cfg.pageSize = (commitPageRows cfg src k, nextAt cfg src k) := rfl
    rw [hanswer, wp_ite]
    refine ⟨fun hasked => ?_, fun hasked => ?_⟩
    · rw [wp_bind]
      have hnil : src.apiCommits.length ≤ k * cfg.size := by
        by_contra hmore
        exact commitPageRows_ne_nil (Nat.not_le.1 hmore) hasked.1
      refine wp_mono (hgit hnil) (fun rows s' h => ?_) fun e s' h => h
      exact ⟨h.1, rfl, fun _ => nextAt_nil (hpageNil hnil), h.2⟩
    · rw [wp_pure]
      refine ⟨?_, rfl, fun h => Bool.noConfusion h, hrest⟩
      by_cases hmore : k * cfg.size < src.apiCommits.length
      · rw [readAt, if_pos hmore]
      · have hnil := Nat.not_lt.1 hmore
        have hsource : s.cursor.extras.commitSource = some "git" := by
          by_contra hne
          exact hasked ⟨hpageNil hnil, hne⟩
        have hempty : src.apiCommits = [] := by
          by_contra hne
          have hboth := hmeets.resolve_left hne
          rw [if_neg hmore] at hboth
          exact hboth hsource
        rw [readAt_nil hnil, hnothing hempty, gitLog, List.take_nil, hpageNil hnil]

/-- With the rows of an undisturbed page stored, the cursor moves behind it, or the walk ends. -/
theorem movePast_spec {k : ℕ} (hbefore : ∀ j < k, endsAt cfg src j = false) {marked : Bool}
    (hkept : Kept wants s) (hphase : s.cursor.phase = .indexCommits) (hissues : IssuesDone old cfg src wants s.issues marked)
    (hcommits : s.commits = commitsAfter old cfg src k) (hcut : s.cursor.isPartial = (marked || truncatedAt cfg src k))
    (hseen : s.cursor.commitsSeen = k * cfg.size + (takenAt cfg src k).length) {fellBack : Bool}
    (hfell : fellBack = true → nextAt cfg src k = false) :
    wp (movePast cfg (k + 1) (nextAt cfg src k) (truncatedAt cfg src k) fellBack)
      (fun _ s' => Live old cfg src wants s' ∧ s'.left src < src.apiCommits.length + 1 - k * cfg.size ∧
        s'.turns.length ≤ s.turns.length)
      (Stopped old cfg src wants s) s := by
  have hlength := le_length_of_walking hbefore
  have hsize := size_pos cfg
  -- with the cursor moved to where the rows fit it
  have hleaves (s₂ : Session) (hkept₂ : Kept wants s₂) (hturns₂ : s₂.turns = s.turns)
      (hfits : Fits old cfg src wants s₂.cursor s₂.issues s₂.commits)
      (hlt : s₂.left src < src.apiCommits.length + 1 - k * cfg.size) (seen : ℕ) :
      wp (do mirrorState none (some seen); return true : Act Bool)
        (fun _ s' => Live old cfg src wants s' ∧ s'.left src < src.apiCommits.length + 1 - k * cfg.size ∧
          s'.turns.length ≤ s.turns.length)
        (Stopped old cfg src wants s) s₂ := by
    rw [wp_bind, ← hturns₂]
    refine wp_mono (mirrorState_spec hkept₂ hfits none (some seen)) (fun _ s' h => ?_) fun e s' h => ?_
    · exact ⟨h.toLive, Nat.lt_of_le_of_lt (Nat.le_of_eq h.left) hlt, h.turns⟩
    · exact ⟨h.toSafe, h.memory, hturns₂ ▸ h.turns⟩
  unfold movePast
  simp only [wp_bind, wp_modifyCursor, wp_get]
  rw [wp_ite]
  refine ⟨fun hends => ?_, fun hgoes => ?_⟩
  · have hends' : endsAt cfg src k = true := by
      rw [hseen] at hends
      rw [endsAt]
      cases hnext : nextAt cfg src k with
      | false => rfl
      | true =>
        cases fellBack with
        | true => exact absurd (hfell rfl) (by rw [hnext]; exact Bool.noConfusion)
        | false => rw [hnext, Bool.or_false] at hends; exact hends
    rw [wp_bind, wp_modify]
    refine hleaves _ ?_ ?_ ?_ ?_ _
    · exact ⟨hkept.mode, hkept.url, hkept.isPartial⟩
    · rfl
    · refine ⟨marked, markAt cfg src k, hissues, ⟨k, hends', hbefore, hcommits, rfl⟩, ?_⟩
      show (s.cursor.isPartial || (nextAt cfg src k && !truncatedAt cfg src k)) = _
      rw [hcut, markAt, Bool.or_assoc]
      cases truncatedAt cfg src k <;> simp
    · show 0 < _
      omega
  · have hends' : endsAt cfg src k = false := by
      rw [Bool.not_eq_true, hseen] at hgoes
      simp only [Bool.or_eq_false_iff] at hgoes
      rw [endsAt, hgoes.1.1.1, hgoes.1.1.2, hgoes.2]
      rfl
    obtain ⟨hfull, htable⟩ := @commitsAfter_of_next old _ _ _ hends'
    have huncut : truncatedAt cfg src k = false := by
      rw [endsAt, Bool.or_eq_false_iff, Bool.or_eq_false_iff] at hends'
      exact hends'.1.2
    refine hleaves _ ?_ ?_ ?_ ?_ _
    · exact ⟨hkept.mode, hkept.url, hkept.isPartial⟩
    · rfl
    · unfold Fits
      rw [show ({ s.cursor with commitPage := k + 1 + 1 } : Cursor).phase = .indexCommits from hphase]
      refine ⟨?_, k + 1, ?_, ?_, ?_, Or.inl ?_⟩
      · show IssuesDone old cfg src wants s.issues s.cursor.isPartial
        rw [hcut, huncut, Bool.or_false]
        exact hissues
      · show s.cursor.commitsSeen = _
        rw [hseen, hfull, Nat.succ_mul]
      · exact Nat.max_eq_right (Nat.le_add_left ..)
      · intro j hj
        rcases Nat.lt_succ_iff_lt_or_eq.1 hj with hj | rfl
        · exact hbefore j hj
        · exact hends'
      · exact hcommits.trans htable
    · rw [Session.left]
      refine Nat.lt_of_le_of_lt (Nat.le_of_eq (leftFrom_indexCommits (show s.cursor.phase = _ from hphase) _)) ?_
      show src.apiCommits.length + 1 - s.cursor.commitsSeen < _
      rw [hseen, hfull]
      omega

/-- What an undisturbed page leaves is a checkpoint, before the cursor is moved and after it. -/
theorem storeCommits_spec (hone : OneHistory src) (hlive : Live old cfg src wants s)
    (hphase : s.cursor.phase = .indexCommits) {k : ℕ} (hwalk : Walking old cfg src k s.cursor s.commits)
    (hdisk : s.job.cursor.phase = .indexCommits ∧ Walking old cfg src k s.job.cursor s.commits) {fellBack : Bool}
    (hfell : fellBack = true → nextAt cfg src k = false) :
    wp (storeCommits cfg (readAt cfg src k) (nextAt cfg src k) fellBack)
      (fun _ s' => Stepping old cfg src wants s s') (Stopped old cfg src wants s) s := by
  have hmemory := hlive.memory
  unfold Fits at hmemory
  rw [hphase] at hmemory
  obtain ⟨hissues, -⟩ := hmemory
  have hstored := hwalk.stored hone
  have hwritten := writtenCommits_named (@named_takenAt cfg _ hone k)
  obtain ⟨hseen, hpage, hbefore, -⟩ := hwalk
  have hleft : s.left src = src.apiCommits.length + 1 - k * cfg.size := by
    rw [Session.left, leftFrom_indexCommits hphase, hseen]
  -- from the move of the cursor on, whether there was a row to store or not
  have htail (s₁ : Session) (hkept : Kept wants s₁) (hissues₁ : s₁.issues = s.issues)
      (hcommits₁ : s₁.commits = commitsAfter old cfg src k) (hturns : s₁.turns.length ≤ s.turns.length)
      (hphase₁ : s₁.cursor.phase = .indexCommits)
      (hcut₁ : s₁.cursor.isPartial = (s.cursor.isPartial || truncatedAt cfg src k))
      (hseen₁ : s₁.cursor.commitsSeen = k * cfg.size + (takenAt cfg src k).length) :
      wp (movePast cfg (k + 1) (nextAt cfg src k) (truncatedAt cfg src k) fellBack)
        (fun _ s' => Stepping old cfg src wants s s') (Stopped old cfg src wants s) s₁ := by
    refine wp_mono (movePast_spec hbefore hkept hphase₁ (hissues₁.symm ▸ hissues) hcommits₁ hcut₁ hseen₁ hfell)
      (fun _ s' h => ?_) fun e s' h => ?_
    · exact ⟨h.1, hleft.symm ▸ h.2.1, h.2.2.trans hturns⟩
    · exact ⟨h.toSafe, h.memory, Nat.lt_of_lt_of_le h.turns hturns⟩
  have hcut : (if decide (cfg.maxCommits - k * cfg.size < (readAt cfg src k).length) = true
      then (readAt cfg src k).take (cfg.maxCommits - k * cfg.size) else readAt cfg src k) = takenAt cfg src k := by
    rw [takenAt, cutTo]
    exact ite_congr (propext decide_eq_true_iff) (fun _ => rfl) fun _ => rfl
  unfold storeCommits
  simp only [wp_bind, wp_get, wp_modifyCursor, hseen, hpage]
  rw [hcut, wp_ite]
  refine ⟨fun _ => ?_, fun hnone => ?_⟩
  · simp only [upsertCommits, wp_bind, wp_modify, wp_commit, wp_modifyCursor]
    refine ⟨fun htrouble => ?_, fun _ => htail _ ?_ ?_ ?_ ?_ ?_ ?_ ?_⟩
    · refine ⟨⟨⟨hlive.mode, hlive.url, hlive.isPartial⟩, ?_⟩, fun hne => absurd rfl hne, ?_⟩
      · have hjob := hlive.disk
        show Fits old cfg src wants s.job.cursor s.issues ((takenAt cfg src k).foldl upsertCommit s.commits)
        unfold Fits at hjob ⊢
        rw [hdisk.1] at hjob ⊢
        rw [hstored]
        obtain ⟨hseen', hpage', hbefore', -⟩ := hdisk.2
        exact ⟨hjob.1, k, hseen', hpage', hbefore', Or.inr rfl⟩
      · exact Nat.lt_of_lt_of_le (rest_turns_lt htrouble) (Nat.le_refl _)
    · exact ⟨hlive.mode, hlive.url, hlive.isPartial⟩
    · rfl
    · exact hstored
    · exact rest_turns_le s
    · exact hphase
    · rfl
    · show k * cfg.size + writtenCommits (takenAt cfg src k) = _
      rw [hwritten]
  · rw [not_not] at hnone
    rw [hnone] at hstored
    refine htail _ ?_ ?_ ?_ ?_ ?_ ?_ ?_
    · exact ⟨hlive.mode, hlive.url, hlive.isPartial⟩
    · rfl
    · exact hstored
    · exact Nat.le_refl _
    · exact hphase
    · rfl
    · rw [hnone]
      rfl

theorem stepIndexCommits_spec (hone : OneHistory src) (hlive : Live old cfg src wants s) (hsame : s.job.cursor = s.cursor)
    (hphase : s.cursor.phase = .indexCommits)
    (hmeets : src.apiCommits = [] ∨
      if s.cursor.commitsSeen < src.apiCommits.length then
        s.turns.head? = some true → s.cursor.extras.commitSource ≠ some "git" ∧ s.turns.tail.head? = some true
      else s.cursor.extras.commitSource ≠ some "git") :
    wp (stepIndexCommits cfg src) (fun _ s' => Stepping old cfg src wants s s') (Stopped old cfg src wants s) s := by
  have hmemory := hlive.memory
  unfold Fits at hmemory
  rw [hphase] at hmemory
  obtain ⟨-, k, hwalk⟩ := hmemory
  -- from the read of the page on, whether the policy was read or not
  have htail (s₁ : Session) (h₁ : SameWalk s s₁)
      (hsource : s₁.cursor.extras.commitSource = s.cursor.extras.commitSource) (hturns : s₁.turns = s.turns)
      (hpolls : s₁.pollsLeft = s.pollsLeft) :
      wp (do
          let read ← readCommits cfg src
          storeCommits cfg read.1 read.2.1 read.2.2 : Act Bool)
        (fun _ s' => Stepping old cfg src wants s s') (Stopped old cfg src wants s) s₁ := by
    have hlive₁ := h₁.live hlive hphase
    have hphase₁ := h₁.phase.trans hphase
    rw [wp_bind]
    refine wp_mono (readCommits_spec hone hlive₁ hphase₁ (h₁.walking hwalk) ?_) (fun read s' h => ?_) fun e s' h => ?_
    · rw [h₁.commitsSeen, hsource, hturns]
      exact hmeets
    · obtain ⟨rows, nextPage, fellBack⟩ := read
      obtain ⟨rfl, rfl, hfell, h₂⟩ := h
      have h₁₂ := h₁.trans h₂
      have hlive₂ := h₁₂.live hlive hphase
      have hdisk : s'.job.cursor.phase = .indexCommits ∧ Walking old cfg src k s'.job.cursor s'.commits := by
        rw [h₁₂.job, hsame, h₁₂.commits]
        exact ⟨hphase, hwalk⟩
      refine wp_mono (storeCommits_spec hone hlive₂ (h₁₂.phase.trans hphase) (h₁₂.walking hwalk) hdisk hfell)
        (fun _ s'' h => ?_) fun e s'' h => ?_
      · refine ⟨h.toLive, Nat.lt_of_lt_of_le h.left (Nat.le_of_eq ?_), h.turns.trans h₁₂.turns⟩
        rw [Session.left, Session.left, leftFrom_indexCommits hphase, leftFrom_indexCommits (h₁₂.phase.trans hphase),
          h₁₂.commitsSeen]
      · exact ⟨h.toSafe, h.memory, Nat.lt_of_lt_of_le h.turns h₁₂.turns⟩
    · exact ⟨h.toSafe, h.memory, Nat.lt_of_lt_of_le h.turns h₁.turns⟩
  unfold stepIndexCommits
  simp only [wp_bind, wp_setSyncState, wp_get]
  rw [wp_ite]
  refine ⟨fun _ => ?_, fun _ => ?_⟩
  · rw [wp_bind, wp_modifyCursor]
    refine htail _ ⟨?_, ?_, ?_, ?_, ?_, ?_, ?_, ?_, ?_⟩ ?_ ?_ ?_
    all_goals rfl
  · refine htail _ ⟨?_, ?_, ?_, ?_, ?_, ?_, ?_, ?_, ?_⟩ ?_ ?_ ?_
    all_goals rfl

end steps

end OpenFish.Import
