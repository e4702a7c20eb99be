/-
No repository's workspace is another's, and none lies inside another's as long as no path is stored that lies inside
another runner's or around it: the service compares whole paths only.
-/
import OpenFish.Lib.Machine
import OpenFish.Runner.Service

namespace OpenFish.Runner

open Lib

/-! ## Paths -/

def segments (path : String) : List String := Text.split '/' path

/-- Neither the same directory nor one above the other. -/
def Apart (p q : String) : Prop := ¬ segments p <+: segments q ∧ ¬ segments q <+: segments p

/-- One directory lies inside the other. -/
def Nested (p q : String) : Prop := p ≠ q ∧ (segments p <+: segments q ∨ segments q <+: segments p)

instance (p q : String) : Decidable (Nested p q) :=
  inferInstanceAs (Decidable (_ ∧ _))

theorem Apart.symm {p q : String} (h : Apart p q) : Apart q p := ⟨h.2, h.1⟩

theorem apart_of_not_nested {p q : String} (hne : p ≠ q) (h : ¬ Nested p q) : Apart p q :=
  ⟨fun hpq => h ⟨hne, .inl hpq⟩, fun hqp => h ⟨hne, .inr hqp⟩⟩

/-- The path of a row without one of its own is accepted as it is. -/
theorem safeWorkspaceSubdir_default (id id' : Nat) :
    safeWorkspaceSubdir (defaultWorkspaceSubdir ++ "/" ++ toString id) id' =
      .ok (defaultWorkspaceSubdir ++ "/" ++ toString id) := by
  have hlist : (defaultWorkspaceSubdir ++ "/" ++ toString id).toList = "runners".toList ++ '/' :: (toString id).toList := by
    rw [String.toList_append, String.toList_append, List.append_assoc]
    rfl
  have hdigit : ∀ c ∈ (toString id).toList, c.isDigit = true := fun c hc => Text.isDigit_of_mem_toString hc
  have hplain : ∀ c ∈ (toString id).toList, c ≠ '/' ∧ c ≠ '\\' ∧ controlChar c = false ∧ segmentChar c = true := by
    intro c hc
    have hrange := hdigit c hc
    refine ⟨?_, ?_, ?_, ?_⟩
    · rintro rfl
      exact absurd hrange (by decide)
    · rintro rfl
      exact absurd hrange (by decide)
    · have := Text.range_of_isDigit hrange
      simp [controlChar]
      omega
    · simp [segmentChar, Char.isAlphanum, hrange]
  have hspace : Text.strip (defaultWorkspaceSubdir ++ "/" ++ toString id) = defaultWorkspaceSubdir ++ "/" ++ toString id := by
    apply Text.strip_of_forall
    intro c hc
    rw [hlist, List.mem_append, List.mem_cons] at hc
    rcases hc with hc | rfl | hc
    · have hlead : "runners".toList.all (fun c => Text.isSpace c = false) = true := by decide
      exact of_decide_eq_true (List.all_eq_true.1 hlead c hc)
    · decide
    · exact Text.isSpace_of_isDigit (hdigit c hc)
  have hnotSlash : '/' ∉ (toString id).toList := fun h => (hplain _ h).1 rfl
  have hsplit : Text.split '/' (defaultWorkspaceSubdir ++ "/" ++ toString id) = ["runners", toString id] := by
    rw [Text.split, hlist, List.splitOn_append_cons_self_of_not_mem (by decide), List.splitOn_eq_singleton hnotSlash,
      List.map_cons, List.map_cons, List.map_nil, String.ofList_toList, String.ofList_toList]
  have hmem {c : Char} (hc : c ∈ (defaultWorkspaceSubdir ++ "/" ++ toString id).toList) :
      c ∈ "runners/".toList ∨ c ∈ (toString id).toList := by
    rw [hlist, List.mem_append, List.mem_cons] at hc
    rcases hc with hc | rfl | hc
    · exact .inl (List.mem_append_left ['/'] hc)
    · exact .inl (by decide)
    · exact .inr hc
  have hbackslash : '\\' ∉ (defaultWorkspaceSubdir ++ "/" ++ toString id).toList := by
    intro h
    rcases hmem h with h | h
    · exact absurd h (by decide)
    · exact (hplain _ h).2.1 rfl
  have hcontrol : (defaultWorkspaceSubdir ++ "/" ++ toString id).toList.any controlChar = false := by
    rw [List.any_eq_false]
    intro c hc
    rcases hmem hc with hc | hc
    · have hlead : "runners/".toList.all (fun c => ¬ controlChar c = true) = true := by decide
      exact of_decide_eq_true (List.all_eq_true.1 hlead c hc)
    · rw [(hplain c hc).2.2.1]
      decide
  have hdots : toString id ∉ ["", ".", ".."] := by
    intro h
    simp only [List.mem_cons, List.not_mem_nil, or_false] at h
    rcases h with h | h | h
    · exact Nat.repr_ne_empty h
    · exact absurd (hdigit '.' (by rw [h]; decide)) (by decide)
    · exact absurd (hdigit '.' (by rw [h]; decide)) (by decide)
  have hsegments : (Text.split '/' (defaultWorkspaceSubdir ++ "/" ++ toString id)).find?
      (fun segment => segment ∈ ["", ".", ".."] ∨ segment.toList.all segmentChar = false) = none := by
    have hall : (toString id).toList.all segmentChar = true := List.all_eq_true.2 fun c hc => (hplain c hc).2.2.2
    rw [hsplit, List.find?_eq_none]
    intro segment hsegment
    rw [List.mem_cons, List.mem_singleton] at hsegment
    rcases hsegment with rfl | rfl
    · decide
    · simp only [hdots, hall, decide_eq_true_eq, false_or]
      decide
  have hempty : defaultWorkspaceSubdir ++ "/" ++ toString id ≠ "" := by
    intro h
    rw [h] at hlist
    cases hlist
  have habsolute : ¬ (Text.startsWith "/" (defaultWorkspaceSubdir ++ "/" ++ toString id) = true ∨
      Text.startsWith "\\" (defaultWorkspaceSubdir ++ "/" ++ toString id) = true) := by
    simp only [Text.startsWith, hlist]
    rintro (h | h)
    · cases h
    · cases h
  unfold safeWorkspaceSubdir
  simp only [hspace, if_neg hempty, if_neg habsolute, if_neg hbackslash, hcontrol, hsegments]
  rfl

/-- What was accepted is accepted again, as it is. -/
theorem safeWorkspaceSubdir_accepted {value path : String} {id : Nat} (h : safeWorkspaceSubdir value id = .ok path)
    (id' : Nat) : safeWorkspaceSubdir path id' = .ok path := by
  unfold safeWorkspaceSubdir at h
  simp only at h
  split at h
  · cases h
    exact safeWorkspaceSubdir_default id id'
  · rename_i hempty
    split at h
    · cases h
    · rename_i habsolute
      split at h
      · cases h
      · rename_i hbackslash
        split at h
        · cases h
        · rename_i hcontrol
          split at h
          · split at h <;> cases h
          · rename_i hsegments
            cases h
            unfold safeWorkspaceSubdir
            simp only [Text.strip_strip, if_neg hempty, if_neg habsolute, if_neg hbackslash, hsegments, hcontrol]
            rfl

/-! ## Calls -/

inductive Call
  | ensure (repoId : Nat) (name : String)
  | update (repoId : Nat) (settings : Settings)
  | setCredential (repoId : Nat) (token username : String) (expiresAt : Option Time) (now : Time)
  | recordTask (repoId : Nat) (now : Time)
  | workspaceRoot (repoId : Nat)
  /-- An id is lost with a transaction that was rolled back. -/
  | idLost
  deriving DecidableEq, Repr

def Call.repoId : Call → Option Nat
  | .ensure repoId _ | .update repoId _ | .setCredential repoId .. | .recordTask repoId _ | .workspaceRoot repoId => some repoId
  | .idLost => none

def perform (deployment : Deployment) (rows : Table RepoRunner) : Call → Table RepoRunner
  | .ensure repoId name => (findOrCreate deployment rows repoId name).2
  | .update repoId settings => (update deployment rows repoId settings).2
  | .setCredential repoId token username expiresAt now =>
    (setCredential deployment rows repoId token username expiresAt now).2
  | .recordTask repoId now => (recordTask deployment rows repoId now).2
  | .workspaceRoot repoId => (workspaceRoot deployment rows repoId).2
  | .idLost => rows.skip

/-- The service from an empty table on. -/
def service (deployment : Deployment) : Machine (Table RepoRunner) Call Unit :=
  ⟨.empty, fun rows call => ((), perform deployment rows call)⟩

/-- The workspaces of any two repositories are apart. -/
def Disjoint (rows : Table RepoRunner) : Prop :=
  ∀ row ∈ rows.rows, ∀ other ∈ rows.rows, row.repoId ≠ other.repoId →
    ∃ p q, effectiveSubdir row = .ok p ∧ effectiveSubdir other = .ok q ∧ Apart p q

/-- A path that lies neither inside the workspace of another repository nor around it. -/
def Clear (rows : Table RepoRunner) (repoId : Nat) (path : String) : Prop :=
  ∀ other ∈ rows.rows, other.repoId ≠ repoId → ∀ q, effectiveSubdir other = .ok q → ¬ Nested path q

/-- No other repository has exactly this path: the service refuses one that another has. -/
def Vacant (rows : Table RepoRunner) (repoId : Nat) (path : String) : Prop :=
  ∀ other ∈ rows.rows, other.repoId ≠ repoId → effectiveSubdir other ≠ .ok path

/-- The checks before the session is opened. -/
def Call.admitted (deployment : Deployment) : Call → Bool
  | .update _ settings => (checkSettings settings).isOk
  | .setCredential _ token .. => Text.strip token ≠ "" ∧ deployment.encrypt.isSome
  | _ => true

/-- A runner with this path is created for the repository. -/
def Creates (deployment : Deployment) (rows : Table RepoRunner) (repoId : Nat) (path : String) : Prop :=
  find rows repoId = none ∧ deployment.slug repoId ≠ none ∧
    path = defaultWorkspaceSubdir ++ "/" ++ toString rows.next ∧ Vacant rows repoId path

/-- The path is asked for. -/
def Asks (rows : Table RepoRunner) (call : Call) (repoId : Nat) (path : String) : Prop :=
  (∃ settings value, call = .update repoId settings ∧ settings.workspaceSubdir = some value ∧
    safeWorkspaceSubdir value (((find rows repoId).map RepoRunner.id).getD rows.next) = .ok path) ∧
  Vacant rows repoId path

/-- The paths that a call stores are clear: the default of the row that it creates, and the one that it asks for. -/
def StoresClear (deployment : Deployment) (_ : List (Call × Unit)) (rows : Table RepoRunner) (call : Call) : Prop :=
  ∀ repoId, call.repoId = some repoId → call.admitted deployment → ∀ path,
    Creates deployment rows repoId path ∨ Asks rows call repoId path → Clear rows repoId path

/-! ## What a call leaves -/

/-- Every row has a path, and those of different repositories are apart. -/
structure Sound (rows : Table RepoRunner) : Prop where
  effective : ∀ row ∈ rows.rows, ∃ p, effectiveSubdir row = .ok p
  apart : ∀ row ∈ rows.rows, ∀ other ∈ rows.rows, row.repoId ≠ other.repoId →
    ∀ p q, effectiveSubdir row = .ok p → effectiveSubdir other = .ok q → Apart p q

theorem Sound.disjoint {rows : Table RepoRunner} (h : Sound rows) : Disjoint rows := by
  intro row hrow other hother hne
  obtain ⟨p, hp⟩ := h.effective row hrow
  obtain ⟨q, hq⟩ := h.effective other hother
  exact ⟨p, q, hp, hq, h.apart row hrow other hother hne p q hp hq⟩

/-- No other repository's runner has the path. -/
theorem workspaceConflict_none {rows : List RepoRunner} {repoId : Nat} {candidate : String}
    (h : workspaceConflict rows repoId candidate = .ok none) {other : RepoRunner} (hother : other ∈ rows)
    (hne : other.repoId ≠ repoId) {q : String} (hq : effectiveSubdir other = .ok q) : candidate ≠ q := by
  induction rows with
  | nil => exact absurd hother List.not_mem_nil
  | cons row rest ih =>
    unfold workspaceConflict at h
    split at h
    · rename_i hsame
      rcases List.mem_cons.1 hother with rfl | hother
      · exact absurd hsame hne
      · exact ih h hother
    · split at h
      · cases h
      · rename_i path hpath
        split at h
        · cases h
        · rename_i hdiff
          rcases List.mem_cons.1 hother with rfl | hother
          · rw [hq] at hpath
            cases hpath
            exact fun heq => hdiff heq.symm
          · exact ih h hother

theorem vacant_of_workspaceConflict {rows : Table RepoRunner} {repoId : Nat} {path : String}
    (h : workspaceConflict rows.rows repoId path = .ok none) : Vacant rows repoId path :=
  fun _ hother hne hq => workspaceConflict_none h hother hne hq rfl

/-- A path that is clear and that no other runner has is apart from the others. -/
theorem apart_of_clear {rows : Table RepoRunner} {repoId : Nat} {path : String} (hclear : Clear rows repoId path)
    (hvacant : Vacant rows repoId path) :
    ∀ other ∈ rows.rows, other.repoId ≠ repoId → ∀ q, effectiveSubdir other = .ok q → Apart path q := by
  intro other hother hne q hq
  refine apart_of_not_nested ?_ (hclear other hother hne q hq)
  rintro rfl
  exact hvacant other hother hne hq

theorem Sound.insert {rows : Table RepoRunner} (h : Sound rows) {mk : Nat → RepoRunner} {hmk : ∀ k, key (mk k) = k}
    {p : String} (hp : effectiveSubdir (mk rows.next) = .ok p)
    (hapart : ∀ other ∈ rows.rows, other.repoId ≠ (mk rows.next).repoId → ∀ q, effectiveSubdir other = .ok q → Apart p q) :
    Sound (rows.insert mk hmk) := by
  constructor
  · intro row hrow
    rcases Table.mem_insert.1 hrow with hrow | rfl
    · exact h.effective row hrow
    · exact ⟨p, hp⟩
  · intro row hrow other hother hne p' q' hp' hq'
    rcases Table.mem_insert.1 hrow with hrow | rfl <;> rcases Table.mem_insert.1 hother with hother | rfl
    · exact h.apart row hrow other hother hne p' q' hp' hq'
    · rw [hp] at hq'
      cases hq'
      exact (hapart row hrow hne p' hp').symm
    · rw [hp] at hp'
      cases hp'
      exact hapart other hother (Ne.symm hne) q' hq'
    · exact absurd rfl hne

theorem Sound.update {rows : Table RepoRunner} (h : Sound rows) {row : RepoRunner} (hrow : row ∈ rows.rows)
    {change : RepoRunner → RepoRunner} {hf : ∀ r, key (change r) = key r} (hrepo : (change row).repoId = row.repoId)
    {p : String} (hp : effectiveSubdir (change row) = .ok p)
    (hapart : ∀ other ∈ rows.rows, other.repoId ≠ row.repoId → ∀ q, effectiveSubdir other = .ok q → Apart p q) :
    Sound (rows.update (key · == row.id) change hf) := by
  -- a row of the new table is the changed row, or an old one
  have hmem {r : RepoRunner} (hr : r ∈ (rows.update (key · == row.id) change hf).rows) :
      r = change row ∨ r ∈ rows.rows := by
    obtain ⟨old, hold, rfl⟩ := (Table.mem_update hf).1 hr
    split
    · rename_i hkey
      have hsame : key old = key row := eq_of_beq hkey
      exact .inl (congrArg change (Table.eq_of_key hold hrow hsame))
    · exact .inr hold
  constructor
  · intro r hr
    rcases hmem hr with rfl | hr
    · exact ⟨p, hp⟩
    · exact h.effective r hr
  · intro r hr other hother hne p' q' hp' hq'
    rcases hmem hr with rfl | hr <;> rcases hmem hother with rfl | hother
    · exact absurd rfl hne
    · rw [hp] at hp'
      cases hp'
      exact hapart other hother (fun heq => hne (hrepo.trans heq.symm)) q' hq'
    · rw [hp] at hq'
      cases hq'
      exact (hapart r hr (fun heq => hne (heq.trans hrepo.symm)) p' hp').symm
    · exact h.apart r hr other hother hne p' q' hp' hq'

/-- A change that leaves the repository and the path of a row leaves the workspaces as they are. -/
theorem Sound.touch {rows : Table RepoRunner} (h : Sound rows) {row : RepoRunner} (hrow : row ∈ rows.rows)
    {change : RepoRunner → RepoRunner} {hf : ∀ r, key (change r) = key r} (hrepo : (change row).repoId = row.repoId)
    (hpath : effectiveSubdir (change row) = effectiveSubdir row) : Sound (rows.update (key · == row.id) change hf) := by
  obtain ⟨p, hp⟩ := h.effective row hrow
  exact h.update hrow hrepo (hpath.trans hp) fun other hother hne q hq =>
    h.apart row hrow other hother (Ne.symm hne) p q hp hq

theorem safeWorkspaceSubdir_empty (id : Nat) :
    safeWorkspaceSubdir "" id = .ok (defaultWorkspaceSubdir ++ "/" ++ toString id) := rfl

/-- A creation adds a row with the default path, which no other runner has, or it raises. -/
theorem create_cases (deployment : Deployment) (rows : Table RepoRunner) (repoId : Nat) (name : String) :
    (∃ why, create deployment rows repoId name = (.error why, rows)) ∨
      ∃ (mk : Nat → RepoRunner) (hmk : ∀ k, key (mk k) = k), create deployment rows repoId name =
          (.ok (mk rows.next), rows.insert mk hmk) ∧ deployment.slug repoId ≠ none ∧
        (∀ id, (mk id).repoId = repoId ∧ (mk id).workspaceSubdir = "") ∧
        workspaceConflict rows.rows repoId (defaultWorkspaceSubdir ++ "/" ++ toString rows.next) = .ok none := by
  unfold create
  cases hslug : deployment.slug repoId with
  | none => exact .inl ⟨_, rfl⟩
  | some slug =>
    simp only [safeWorkspaceSubdir_empty]
    cases hconflict : workspaceConflict rows.rows repoId (defaultWorkspaceSubdir ++ "/" ++ toString rows.next) with
    | error why => exact .inl ⟨_, rfl⟩
    | ok conflict =>
      cases conflict with
      | some row => exact .inl ⟨_, rfl⟩
      | none =>
        exact .inr ⟨fun id => { id, repoId, name := Text.clip 128 _ }, fun _ => rfl, rfl, Option.some_ne_none slug,
          fun _ => ⟨rfl, rfl⟩, rfl⟩

/-- What `findOrCreate` does for the workspaces: they stay sound, and the row it answers is one of them. -/
structure Found (rows : Table RepoRunner) (repoId : Nat) (row : RepoRunner) (rows' : Table RepoRunner) : Prop where
  sound : Sound rows'
  mem : row ∈ rows'.rows
  repo : row.repoId = repoId
  kept : ∀ other ∈ rows.rows, other ∈ rows'.rows
  others : ∀ other ∈ rows'.rows, other.repoId ≠ repoId → other ∈ rows.rows
  id : row.id = ((find rows repoId).map RepoRunner.id).getD rows.next

theorem findOrCreate_cases (deployment : Deployment) {rows : Table RepoRunner} (h : Sound rows) {repoId : Nat}
    (name : String) (hclear : ∀ path, Creates deployment rows repoId path → Clear rows repoId path) :
    (∃ why, findOrCreate deployment rows repoId name = (.error why, rows)) ∨
      ∃ row rows', findOrCreate deployment rows repoId name = (.ok row, rows') ∧ Found rows repoId row rows' := by
  unfold findOrCreate
  cases hfind : find rows repoId with
  | some row =>
    refine .inr ⟨row, rows, rfl, h, List.mem_of_find?_eq_some hfind, ?_, fun _ hother => hother, fun _ hother _ => hother, ?_⟩
    · simpa using List.find?_some hfind
    · rw [hfind]
      rfl
  | none =>
    rcases create_cases deployment rows repoId name with ⟨why, heq⟩ | ⟨mk, hmk, heq, hslug, hmade, hconflict⟩
    · exact .inl ⟨why, heq⟩
    · have hpath : effectiveSubdir (mk rows.next) = .ok (defaultWorkspaceSubdir ++ "/" ++ toString rows.next) := by
        have hid : (mk rows.next).id = rows.next := hmk rows.next
        rw [effectiveSubdir, (hmade _).2, hid, safeWorkspaceSubdir_empty]
      have hvacant := vacant_of_workspaceConflict hconflict
      refine .inr ⟨_, _, heq, h.insert hpath ?_, Table.mem_insert.2 (.inr rfl), (hmade _).1,
        fun _ hother => Table.mem_insert.2 (.inl hother), ?_, ?_⟩
      · rw [(hmade _).1]
        exact apart_of_clear (hclear _ ⟨hfind, hslug, rfl, hvacant⟩) hvacant
      · intro other hother hne
        rcases Table.mem_insert.1 hother with hother | rfl
        · exact hother
        · exact absurd (hmade _).1 hne
      · rw [hfind]
        exact hmk rows.next

/-- A call that only touches the row that it finds or creates keeps the workspaces sound. -/
theorem Found.touch {rows rows' : Table RepoRunner} {repoId : Nat} {row : RepoRunner} (h : Found rows repoId row rows')
    {change : RepoRunner → RepoRunner} (hf : ∀ r, (change r).id = r.id) (hrepo : (change row).repoId = row.repoId)
    (hpath : (change row).workspaceSubdir = row.workspaceSubdir) : Sound (persist rows' row change hf).2 := by
  have hsame : effectiveSubdir (change row) = effectiveSubdir row := by
    rw [effectiveSubdir, effectiveSubdir, hpath, hf]
  show Sound (rows'.update (key · == row.id) change hf)
  exact h.sound.touch h.mem hrepo hsame

theorem safeWorkspaceSubdir_id {value : String} (h : Text.strip value ≠ "") (id id' : Nat) :
    safeWorkspaceSubdir value id = safeWorkspaceSubdir value id' := by
  unfold safeWorkspaceSubdir
  simp only [if_neg h]

/-- The path that `update` checks is the one that is asked for, or the default. -/
theorem checkSettings_path {settings : Settings} {subdir : Option String} (h : checkSettings settings = .ok subdir)
    {value : String} (hvalue : settings.workspaceSubdir = some value) (id : Nat) :
    pathToStore subdir id = safeWorkspaceSubdir value id := by
  have hsubdir : checkSettings.checkSubdir settings = .ok subdir := by
    unfold checkSettings at h
    split at h
    · cases h
    · split at h
      · split at h
        · exact h
        · cases h
      · exact h
  unfold checkSettings.checkSubdir at hsubdir
  rw [hvalue] at hsubdir
  simp only at hsubdir
  split at hsubdir
  · rename_i hblank
    cases hsubdir
    rw [pathToStore, safeWorkspaceSubdir_empty]
    unfold safeWorkspaceSubdir
    simp only [if_pos hblank]
  · rename_i hgiven
    rw [safeWorkspaceSubdir_id hgiven id 0]
    cases hsafe : safeWorkspaceSubdir value 0 with
    | error why =>
      rw [hsafe] at hsubdir
      cases hsubdir
    | ok path =>
      rw [hsafe] at hsubdir
      cases hsubdir
      rfl

theorem update_sound {deployment : Deployment} {rows : Table RepoRunner} (h : Sound rows) {repoId : Nat}
    {settings : Settings} {log : List (Call × Unit)} (hclear : StoresClear deployment log rows (.update repoId settings)) :
    Sound (update deployment rows repoId settings).2 := by
  unfold update
  cases hcheck : checkSettings settings with
  | error why => exact h
  | ok subdir =>
    have hstores := hclear repoId rfl (by rw [Call.admitted, hcheck]; rfl)
    simp only
    rcases findOrCreate_cases deployment h "" fun path hpath => hstores path (.inl hpath) with ⟨why, heq⟩ | ⟨row, rows', heq, hfound⟩
    · rw [heq]
      exact h
    · rw [heq]
      simp only
      cases hvalue : settings.workspaceSubdir with
      | none => exact hfound.touch _ rfl rfl
      | some value =>
        simp only [checkSettings_path hcheck hvalue]
        cases hpath : safeWorkspaceSubdir value row.id with
        | error why => exact hfound.sound
        | ok effective =>
          simp only
          cases hconflict : workspaceConflict rows'.rows repoId effective with
          | error why => exact hfound.sound
          | ok conflict =>
            cases conflict with
            | some other => exact hfound.sound
            | none =>
              have hvacant' : Vacant rows' repoId effective := vacant_of_workspaceConflict hconflict
              have hvacant : Vacant rows repoId effective := fun other hother hne =>
                hvacant' other (hfound.kept other hother) hne
              have hclear' : Clear rows' repoId effective := fun other hother hne =>
                hstores effective (.inr ⟨⟨settings, value, rfl, hvalue, hfound.id ▸ hpath⟩, hvacant⟩) other
                  (hfound.others other hother hne) hne
              have heffective : effectiveSubdir (applySettings settings (some effective) row) = .ok effective :=
                safeWorkspaceSubdir_accepted hpath _
              show Sound (rows'.update (key · == row.id) (applySettings settings (some effective)) fun _ => rfl)
              refine hfound.sound.update hfound.mem rfl heffective ?_
              rw [hfound.repo]
              exact apart_of_clear hclear' hvacant'

theorem Sound.skip {rows : Table RepoRunner} (h : Sound rows) : Sound rows.skip := ⟨h.effective, h.apart⟩

/-- A call whose paths are clear keeps the workspaces sound. -/
theorem perform_sound {deployment : Deployment} {log : List (Call × Unit)} {rows : Table RepoRunner} (h : Sound rows)
    {call : Call} (hclear : StoresClear deployment log rows call) : Sound (perform deployment rows call) := by
  cases call with
  | ensure repoId name =>
    rcases findOrCreate_cases deployment h name fun path hpath => hclear repoId rfl rfl path (.inl hpath) with
      ⟨why, heq⟩ | ⟨row, rows', heq, hfound⟩
    · rw [perform, heq]
      exact h
    · rw [perform, heq]
      exact hfound.sound
  | update repoId settings => exact update_sound h hclear
  | setCredential repoId token username expiresAt now =>
    show Sound (Runner.setCredential deployment rows repoId token username expiresAt now).2
    unfold Runner.setCredential
    split
    · exact h
    · rename_i hgiven
      split
      · exact h
      · rename_i encrypt hkey
        have hadmitted : (Call.setCredential repoId token username expiresAt now).admitted deployment = true := by
          simp [Call.admitted, hgiven, hkey]
        rcases findOrCreate_cases deployment h "" fun path hpath => hclear repoId rfl hadmitted path (.inl hpath) with
          ⟨why, heq⟩ | ⟨row, rows', heq, hfound⟩
        · rw [heq]
          exact h
        · rw [heq]
          simp only
          split
          · exact hfound.sound
          · exact hfound.touch _ rfl rfl
  | recordTask repoId now =>
    show Sound (Runner.recordTask deployment rows repoId now).2
    unfold Runner.recordTask
    rcases findOrCreate_cases deployment h "" fun path hpath => hclear repoId rfl rfl path (.inl hpath) with
      ⟨why, heq⟩ | ⟨row, rows', heq, hfound⟩
    · rw [heq]
      exact h
    · rw [heq]
      exact hfound.touch _ rfl rfl
  | workspaceRoot repoId =>
    show Sound (Runner.workspaceRoot deployment rows repoId).2
    unfold Runner.workspaceRoot
    rcases findOrCreate_cases deployment h "" fun path hpath => hclear repoId rfl rfl path (.inl hpath) with
      ⟨why, heq⟩ | ⟨row, rows', heq, hfound⟩
    · rw [heq]
      exact h
    · rw [heq]
      exact hfound.sound
  | idLost => exact h.skip

/-- Where every path that is stored is clear, the workspaces of different repositories are apart throughout. -/
theorem disjoint_of_storesClear (deployment : Deployment) {calls : List Call}
    (h : (service deployment).AllSteps (StoresClear deployment) calls) : (service deployment).AllStates (fun _ => Disjoint) calls := by
  have hempty : Sound (Table.empty : Table RepoRunner) :=
    ⟨fun row hrow => absurd hrow List.not_mem_nil, fun row hrow => absurd hrow List.not_mem_nil⟩
  refine Machine.AllSteps.allStates (fun calls hcalls => ?_) h
  exact (Machine.AllSteps.invariant (M := service deployment) (P := fun _ rows => Sound rows) hempty
    (fun _ _ _ hsound hclear => perform_sound hsound hclear) hcalls).disjoint

/-- Two repositories, and no key for credentials. -/
def twoRepositories : Deployment := ⟨fun repoId => if repoId ≤ 2 then some "app" else none, none⟩

def settledApart : List Call := [.update 2 { workspaceSubdir := some "team/app" }, .ensure 1 ""]

theorem disjoint_of_storesClear_settledApart : (service twoRepositories).AllStates (fun _ => Disjoint) settledApart := by
  refine disjoint_of_storesClear twoRepositories ⟨?_, ?_, trivial⟩
  · intro repoId hrepo _ path hpath other hother _ q hq
    have hrow : other = { id := 1, repoId := 1, name := "app" } := List.mem_singleton.1 hother
    cases hrepo
    cases hrow
    cases hq
    have hstored : path = "runners/2" ∨ path = "team/app" := by
      rcases hpath with ⟨-, -, rfl, -⟩ | ⟨⟨settings, value, hcall, hvalue, hpath⟩, -⟩
      · exact .inl rfl
      · cases hcall
        cases hvalue
        cases hpath
        exact .inr rfl
    rcases hstored with rfl | rfl <;> decide
  · intro repoId _ _ path _ other hother
    cases hother

/-- The second repository is given a workspace inside the default one of the first. -/
def settledInside : List Call := [.update 2 { workspaceSubdir := some "runners/1/app" }, .ensure 1 ""]

theorem settledInside_not_disjoint : ¬ (service twoRepositories).AllStates (fun _ => Disjoint) settledInside := by
  intro h
  obtain ⟨p, q, hp, hq, hapart, -⟩ := h.now { id := 1, repoId := 1, name := "app" } (by decide)
    { id := 2, repoId := 2, name := "app", workspaceSubdir := "runners/1/app" } (by decide) (by decide)
  cases hp
  cases hq
  exact hapart (by decide)

end OpenFish.Runner
