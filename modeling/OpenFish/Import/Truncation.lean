/-
When an undisturbed walk over a history of commits tells a truncated one from a whole one: `_step_index_commits` from a
fresh cursor to its end, with an API that pages exactly and a local copy that holds the same commits.
-/
import OpenFish.Import.Checkpoint

namespace OpenFish.Import

open Lib

/-! ## The walk -/

/-- A history of distinct commits, newest first, as the API and as the local copy tell it. -/
structure History where
  api : List Commit
  git : List Commit
  named : Named api
  shas : git.map (·.sha) = api.map (·.sha)

def History.source (h : History) : Source := { issues := [], apiCommits := h.api, gitCommits := h.git }

/-- A session before the first step of the phase: no commit is stored, and nothing will go wrong. -/
def freshIndex (repo : Repo) (job : ImportJob) (issues : List Issue) (now : Time) : Session :=
  { repo, job, issues, now, cursor := { phase := .indexCommits } }

/-- `_step_index_commits`, until the phase is done or the steps run out. -/
def indexCommits (cfg : ImportConfig) (src : Source) : ℕ → Act Unit
  | 0 => return ()
  | steps + 1 => do
    if (← get).cursor.phase = .done then return ()
    else
      let _ ← stepIndexCommits cfg src
      indexCommits cfg src steps

/-- The newest commits up to the ceiling are stored and counted, and the mark says whether there are more. -/
structure ToldApart (cfg : ImportConfig) (h : History) (s : Session) : Prop where
  stored : s.commits.map (·.sha) = (h.api.take cfg.maxCommits).map (·.sha)
  counted : s.repo.commitCount = min h.api.length cfg.maxCommits
  marked : s.cursor.isPartial = true ↔ cfg.maxCommits < h.api.length

variable {cfg : ImportConfig} {src : Source} {s : Session}

/-! ## Steps in which nothing goes wrong -/

/-- Whatever happens without a stop. -/
def Leads {α : Type} (x : Act α) (s : Session) (Q : α → Session → Prop) : Prop := wp x Q (fun _ _ => False) s

theorem rest_of_calm (hcalm : s.turns = []) : s.rest = s := by
  rw [Session.rest, hcalm, List.tail_nil, ← hcalm]

theorem trouble_of_calm (hcalm : s.turns = []) : s.trouble = false := by
  rw [Session.trouble, hcalm]
  rfl

theorem commit_calm {Q : Unit → Session → Prop} {E : Stop → Session → Prop} (hcalm : s.turns = []) :
    wp commit Q E s ↔ Q () s := by
  rw [wp_commit, trouble_of_calm hcalm, rest_of_calm hcalm]
  simp

theorem external_calm {Q : Unit → Session → Prop} {E : Stop → Session → Prop} (hcalm : s.turns = []) (type name : String) :
    wp (external type name) Q E s ↔ Q () s := by
  rw [wp_external, trouble_of_calm hcalm, rest_of_calm hcalm]
  simp

theorem gitFallback_calm (hcalm : s.turns = []) (name : String) (room : ℕ) :
    Leads (gitFallback src name room) s fun rows s' =>
      rows = gitLog src.gitCommits (room + 1) ∧
        s' = { s with cursor := { s.cursor with extras := { s.cursor.extras with commitSource := some "git" } } } := by
  unfold Leads gitFallback
  simp only [wp_bind, wp_modifyCursor, wp_attempt]
  refine (external_calm ?_ _ _).2 ⟨rfl, rfl⟩
  exact hcalm

/-- A page is read from the API, and behind the last commit from the local copy. -/
theorem readCommits_calm (hcalm : s.turns = []) {k : ℕ} (hseen : s.cursor.commitsSeen = k * cfg.size)
    (hpage : max 1 s.cursor.commitPage = k + 1) (hsource : s.cursor.extras.commitSource ≠ some "git") :
    Leads (readCommits cfg src) s fun read s' =>
      read.1 = readAt cfg src k ∧ read.2.1 = nextAt cfg src k ∧
        (read.2.2 = true → nextAt cfg src k = false) ∧
        ∃ extras, s' = { s with cursor := { s.cursor with extras } } ∧
          (k * cfg.size < src.apiCommits.length → extras = s.cursor.extras) := by
  have hanswer : streamCommits src.apiCommits (k + 1) cfg.pageSize = (commitPageRows cfg src k, nextAt cfg src k) := rfl
  unfold Leads readCommits
  simp only [wp_bind, wp_get, wp_attempt, external_calm hcalm]
  rw [hpage, hanswer, wp_ite]
  refine ⟨fun hasked => ?_, fun hasked => ?_⟩
  · have hnil : src.apiCommits.length ≤ k * cfg.size := by
      by_contra hmore
      exact commitPageRows_ne_nil (Nat.not_le.1 hmore) hasked.1
    rw [wp_bind]
    refine wp_mono (gitFallback_calm hcalm _ _) (fun rows s' h => ?_) fun _ _ h => h
    obtain ⟨rfl, rfl⟩ := h
    rw [wp_pure]
    exact ⟨by rw [hseen]; exact (readAt_nil hnil).symm, rfl, fun _ => nextAt_nil hasked.1,
      ⟨_, rfl, fun hmore => absurd hmore (Nat.not_lt.2 hnil)⟩⟩
  · have hmore : k * cfg.size < src.apiCommits.length := by
      by_contra hnil
      exact hasked ⟨commitPageRows_nil (Nat.not_lt.1 hnil), hsource⟩
    rw [wp_pure]
    exact ⟨by rw [readAt, if_pos hmore], rfl, fun h => Bool.noConfusion h, ⟨_, rfl, fun _ => rfl⟩⟩

/-- What the step leaves that reads the `k`-th page. -/
structure PagePast (cfg : ImportConfig) (src : Source) (k : ℕ) (s s' : Session) : Prop where
  commits : s'.commits = (takenAt cfg src k).foldl upsertCommit s.commits
  seen : s'.cursor.commitsSeen = k * cfg.size + (takenAt cfg src k).length
  page : s'.cursor.commitPage = k + 2
  phase : s'.cursor.phase = if endsAt cfg src k then .done else s.cursor.phase
  marked : s'.cursor.isPartial = (s.cursor.isPartial || truncatedAt cfg src k || (endsAt cfg src k && nextAt cfg src k))
  counted : endsAt cfg src k = true → s'.repo.commitCount = s'.cursor.commitsSeen
  source : k * cfg.size < src.apiCommits.length → s'.cursor.extras.commitSource = s.cursor.extras.commitSource
  calm : s'.turns = []

/-- Only where the walk stood matters. -/
theorem PagePast.congr {k : ℕ} {s₀ s s' : Session} (h : PagePast cfg src k s₀ s') (hcommits : s₀.commits = s.commits)
    (hphase : s₀.cursor.phase = s.cursor.phase) (hmarked : s₀.cursor.isPartial = s.cursor.isPartial)
    (hsource : k * cfg.size < src.apiCommits.length → s₀.cursor.extras.commitSource = s.cursor.extras.commitSource) :
    PagePast cfg src k s s' where
  commits := hcommits ▸ h.commits
  seen := h.seen
  page := h.page
  phase := hphase ▸ h.phase
  marked := hmarked ▸ h.marked
  counted := h.counted
  source hmore := (h.source hmore).trans (hsource hmore)
  calm := h.calm

theorem mirrorState_calm (hcalm : s.turns = []) (total done : Option ℕ) {Q : Unit → Session → Prop}
    {E : Stop → Session → Prop} (h : ∀ job, Q () { s with job }) : wp (mirrorState total done) Q E s := by
  unfold mirrorState
  rw [wp_bind, wp_modify]
  refine (commit_calm ?_).2 (h _)
  exact hcalm

theorem movePast_calm (hcalm : s.turns = []) {k : ℕ} {fellBack : Bool} (hfell : fellBack = true → nextAt cfg src k = false)
    (hseen : s.cursor.commitsSeen = k * cfg.size + (takenAt cfg src k).length) {s₀ : Session}
    (hcommits : s.commits = (takenAt cfg src k).foldl upsertCommit s₀.commits) (hphase : s.cursor.phase = s₀.cursor.phase)
    (hmarked : s.cursor.isPartial = (s₀.cursor.isPartial || truncatedAt cfg src k))
    (hsource : s.cursor.extras.commitSource = s₀.cursor.extras.commitSource) :
    Leads (movePast cfg (k + 1) (nextAt cfg src k) (truncatedAt cfg src k) fellBack) s fun _ s' =>
      PagePast cfg src k s₀ s' := by
  have hends : (!nextAt cfg src k || truncatedAt cfg src k || fellBack || decide (cfg.maxCommits ≤ s.cursor.commitsSeen)) =
      endsAt cfg src k := by
    rw [endsAt, hseen]
    cases hnext : nextAt cfg src k with
    | false => rfl
    | true =>
      cases fellBack with
      | true => rw [hfell rfl] at hnext; cases hnext
      | false => rw [Bool.or_false]
  unfold Leads movePast
  simp only [wp_bind, wp_modifyCursor, wp_get]
  rw [hends, wp_ite]
  refine ⟨fun hend => ?_, fun hend => ?_⟩
  · rw [wp_bind, wp_modify, wp_bind]
    refine mirrorState_calm ?_ _ _ fun job => ?_
    · exact hcalm
    refine ⟨hcommits, hseen, rfl, (if_pos hend).symm, ?_, fun _ => rfl, fun _ => hsource, hcalm⟩
    show (s.cursor.isPartial || (nextAt cfg src k && !truncatedAt cfg src k)) = _
    rw [hmarked, hend]
    cases truncatedAt cfg src k <;> simp
  · rw [wp_bind]
    refine mirrorState_calm ?_ _ _ fun job => ?_
    · exact hcalm
    refine ⟨hcommits, hseen, rfl, hphase.trans (if_neg hend).symm, ?_, fun h => absurd h hend, fun _ => hsource, hcalm⟩
    show s.cursor.isPartial = _
    rw [hmarked, Bool.eq_false_iff.2 hend]
    simp

theorem storeCommits_calm (hcalm : s.turns = []) {k : ℕ} {fellBack : Bool}
    (hfell : fellBack = true → nextAt cfg src k = false) (hseen : s.cursor.commitsSeen = k * cfg.size)
    (hpage : max 1 s.cursor.commitPage = k + 1) (hnamed : Named (takenAt cfg src k)) :
    Leads (storeCommits cfg (readAt cfg src k) (nextAt cfg src k) fellBack) s fun _ s' => PagePast cfg src k s s' := by
  have htruncated : decide (cfg.maxCommits - s.cursor.commitsSeen < (readAt cfg src k).length) = truncatedAt cfg src k := by
    rw [hseen, truncatedAt]
  have htaken : (if truncatedAt cfg src k then (readAt cfg src k).take (cfg.maxCommits - s.cursor.commitsSeen)
      else readAt cfg src k) = takenAt cfg src k := by
    simp only [hseen, truncatedAt, takenAt, cutTo, decide_eq_true_eq]
  unfold Leads storeCommits
  simp only [wp_bind, wp_get, wp_modifyCursor]
  rw [htruncated, htaken, hpage, wp_ite]
  refine ⟨fun _ => ?_, fun hnone => ?_⟩
  · simp only [upsertCommits, wp_bind, wp_modify]
    refine (commit_calm ?_).2 (movePast_calm ?_ hfell ?_ rfl rfl rfl rfl)
    · exact hcalm
    · exact hcalm
    show s.cursor.commitsSeen + writtenCommits (takenAt cfg src k) = _
    rw [hseen, writtenCommits_named hnamed]
  · rw [not_not] at hnone
    refine movePast_calm ?_ hfell ?_ ?_ rfl rfl rfl
    · exact hcalm
    · rw [hnone]; exact hseen
    · rw [hnone]; rfl

theorem stepIndexCommits_calm (hcalm : s.turns = []) {k : ℕ} (hseen : s.cursor.commitsSeen = k * cfg.size)
    (hpage : max 1 s.cursor.commitPage = k + 1) (hsource : s.cursor.extras.commitSource ≠ some "git")
    (hnamed : Named (takenAt cfg src k)) :
    Leads (stepIndexCommits cfg src) s fun _ s' => PagePast cfg src k s s' := by
  have hread (s₁ : Session) (hcalm₁ : s₁.turns = []) (hcommits₁ : s₁.commits = s.commits) (extras : Extras)
      (hcursor₁ : s₁.cursor = { s.cursor with extras }) (hsource₁ : extras.commitSource = s.cursor.extras.commitSource) :
      wp (readCommits cfg src) (fun read => wp (storeCommits cfg read.1 read.2.1 read.2.2)
        (fun _ s' => PagePast cfg src k s s') fun _ _ => False) (fun _ _ => False) s₁ := by
    refine wp_mono (readCommits_calm (k := k) hcalm₁ ?_ ?_ ?_) (fun read s₂ h => ?_) fun _ _ h => h
    · rw [hcursor₁]; exact hseen
    · rw [hcursor₁]; exact hpage
    · rw [hcursor₁]; exact hsource₁ ▸ hsource
    · obtain ⟨hrows, hnext, hfell, extras', rfl, hextras⟩ := h
      rw [hrows, hnext]
      refine wp_mono (storeCommits_calm (k := k) ?_ hfell ?_ ?_ hnamed) (fun _ s' h => ?_) fun _ _ h => h
      · exact hcalm₁
      · show s₁.cursor.commitsSeen = _
        rw [hcursor₁]; exact hseen
      · show max 1 s₁.cursor.commitPage = _
        rw [hcursor₁]; exact hpage
      · refine h.congr hcommits₁ ?_ ?_ fun hmore => ?_
        · show s₁.cursor.phase = _
          rw [hcursor₁]
        · show s₁.cursor.isPartial = _
          rw [hcursor₁]
        · show extras'.commitSource = _
          rw [hextras hmore, hcursor₁]
          exact hsource₁
  unfold Leads stepIndexCommits
  simp only [wp_bind, wp_setSyncState, wp_get]
  rw [wp_ite]
  refine ⟨fun _ => ?_, fun _ => ?_⟩
  · simp only [wp_bind, wp_modifyCursor]
    refine hread _ ?_ ?_ { s.cursor.extras with policyRead := true } ?_ ?_
    · exact hcalm
    · rfl
    · rfl
    · rfl
  · simp only [wp_bind]
    refine hread _ ?_ ?_ s.cursor.extras ?_ ?_
    · exact hcalm
    · rfl
    · rfl
    · rfl

/-! ## From the first page to the last -/

theorem History.one (h : History) : OneHistory h.source := ⟨h.shas, h.named⟩

/-- Rows that are new are added one after the other. -/
theorem foldl_upsertCommit_new {table rows : List Commit} (h : Named (table ++ rows)) :
    rows.foldl upsertCommit table = table ++ rows := by
  induction rows generalizing table with
  | nil => rw [List.foldl_nil, List.append_nil]
  | cons r rows ih =>
    have hclean := h.clean r (List.mem_append_right _ (List.mem_cons_self ..))
    have hnew : r.sha ∉ table.map (·.sha) := by
      have hnodup := h.nodup
      rw [List.map_append, List.map_cons, List.nodup_middle, List.nodup_cons, List.mem_append, not_or] at hnodup
      exact hnodup.1.1
    rw [List.foldl_cons]
    rcases upsertCommit_cases hclean with ⟨found, hfound, hsha, -⟩ | ⟨-, heq⟩
    · exact absurd (List.mem_map.2 ⟨found, hfound, hsha⟩) hnew
    · rw [heq, ih (by rwa [List.append_assoc, List.singleton_append]), List.append_assoc, List.singleton_append]

/-- The walk stands before the `k`-th page. -/
structure Before (cfg : ImportConfig) (h : History) (k : ℕ) (s : Session) : Prop where
  commits : s.commits = h.api.take (k * cfg.size)
  seen : s.cursor.commitsSeen = k * cfg.size
  page : max 1 s.cursor.commitPage = k + 1
  phase : s.cursor.phase = .indexCommits
  unmarked : s.cursor.isPartial = false
  source : s.cursor.extras.commitSource ≠ some "git"
  calm : s.turns = []
  before : ∀ j < k, endsAt cfg h.source j = false

variable {h : History} {k : ℕ}

/-- The length of a page that the API serves. -/
theorem length_commitPageRows : (commitPageRows cfg src k).length = min cfg.size (src.apiCommits.length - k * cfg.size) := by
  rw [commitPageRows_eq, List.length_take, List.length_drop]

theorem length_cutTo (room : ℕ) (rows : List Commit) : (cutTo room rows).length = min room rows.length := by
  unfold cutTo
  split
  · rw [List.length_take]
  · omega

theorem length_takenAt :
    (takenAt cfg src k).length = min (cfg.maxCommits - k * cfg.size) (readAt cfg src k).length := length_cutTo ..

/-- A page that the API serves is stored as far as there is room. -/
theorem takenAt_of_lt (hmore : k * cfg.size < src.apiCommits.length) :
    takenAt cfg src k = (src.apiCommits.drop (k * cfg.size)).take (min (cfg.maxCommits - k * cfg.size) cfg.size) := by
  rw [takenAt, readAt, if_pos hmore, commitPageRows_eq, cutTo]
  split
  · rw [List.take_take]
  · rename_i hroom
    rw [List.length_take] at hroom
    rw [List.take_eq_take_iff, List.length_drop]
    rw [List.length_drop] at hroom
    omega

theorem Before.stored (hs : Before cfg h k s) (hmore : k * cfg.size < h.api.length) :
    (takenAt cfg h.source k).foldl upsertCommit s.commits =
      h.api.take (k * cfg.size + min (cfg.maxCommits - k * cfg.size) cfg.size) := by
  have hsplit : h.api.take (k * cfg.size) ++ takenAt cfg h.source k =
      h.api.take (k * cfg.size + min (cfg.maxCommits - k * cfg.size) cfg.size) := by
    rw [takenAt_of_lt hmore]
    exact List.take_add.symm
  rw [hs.commits, foldl_upsertCommit_new, hsplit]
  rw [hsplit]
  exact h.named.sublist (List.take_sublist ..)

/-- Before a page is past, the ceiling has not been reached. -/
theorem Before.below (hs : Before cfg h k s) (hk : k ≠ 0) : k * cfg.size < cfg.maxCommits := by
  obtain ⟨j, rfl⟩ := Nat.exists_eq_succ_of_ne_zero hk
  have hopen := hs.before j (Nat.lt_succ_self j)
  have hfull := (takenAt_of_next hopen).2
  rw [endsAt, Bool.or_eq_false_iff, decide_eq_false_iff_not, hfull] at hopen
  rw [Nat.succ_mul]
  omega

theorem Before.le_length (hs : Before cfg h k s) : k * cfg.size ≤ h.api.length := le_length_of_walking hs.before

theorem Before.step (hs : Before cfg h k s) :
    Leads (stepIndexCommits cfg h.source) s fun _ s' => PagePast cfg h.source k s s' :=
  stepIndexCommits_calm hs.calm hs.seen hs.page hs.source (named_takenAt h.one k)

/-- Behind a page that does not end the walk stands the next one. -/
theorem Before.advance (hs : Before cfg h k s) (hopen : endsAt cfg h.source k = false) {s' : Session}
    (hpast : PagePast cfg h.source k s s') : Before cfg h (k + 1) s' := by
  have hsize := size_pos cfg
  have hfull := (takenAt_of_next hopen).2
  have hread := @length_takenAt cfg h.source k
  rw [endsAt, Bool.or_eq_false_iff, Bool.or_eq_false_iff, Bool.not_eq_false'] at hopen
  obtain ⟨⟨hnext, htruncated⟩, -⟩ := id hopen
  have hmore : k * cfg.size < h.api.length := by
    rw [nextAt, decide_eq_true_eq, length_commitPageRows] at hnext
    have : h.source.apiCommits.length = h.api.length := rfl
    omega
  refine ⟨?_, ?_, ?_, ?_, ?_, ?_, hpast.calm, fun j hj => ?_⟩
  · rw [hpast.commits, hs.stored hmore, Nat.succ_mul]
    have : min (cfg.maxCommits - k * cfg.size) cfg.size = cfg.size := by
      rw [hfull] at hread
      omega
    rw [this]
  · rw [hpast.seen, hfull, Nat.succ_mul]
  · rw [hpast.page]
    omega
  · rw [hpast.phase, endsAt, hopen.1.1, hopen.1.2, hopen.2, hs.phase]
    rfl
  · rw [hpast.marked, hs.unmarked, htruncated, endsAt, hopen.1.1, hopen.1.2, hopen.2]
    rfl
  · rw [hpast.source hmore]
    exact hs.source
  · rcases Nat.lt_succ_iff_lt_or_eq.1 hj with hj | rfl
    · exact hs.before j hj
    · rw [endsAt, hopen.1.1, hopen.1.2, hopen.2]
      rfl

/-- Where the last page is one of the API, the walk has told a truncated history from a whole one, unless the page was
full and the last of all. -/
theorem Before.toldApart_page (hs : Before cfg h k s) (hmore : k * cfg.size < h.api.length)
    (hends : endsAt cfg h.source k = true) {s' : Session} (hpast : PagePast cfg h.source k s s') :
    ToldApart cfg h s' ↔ ¬ cfg.size ∣ h.api.length ∨ cfg.maxCommits < h.api.length := by
  have hsize := size_pos cfg
  have hlength : (readAt cfg h.source k).length = min cfg.size (h.api.length - k * cfg.size) := by
    rw [readAt, if_pos (show k * cfg.size < h.source.apiCommits.length from hmore), length_commitPageRows]
    rfl
  have htaken := @length_takenAt cfg h.source k
  have hbelow : k * cfg.size ≤ cfg.maxCommits := by
    by_cases hk : k = 0
    · rw [hk, Nat.zero_mul]; exact Nat.zero_le _
    · exact Nat.le_of_lt (hs.below hk)
  have hnext : nextAt cfg h.source k = decide (k * cfg.size + cfg.size ≤ h.api.length) := by
    rw [nextAt, length_commitPageRows]
    refine decide_eq_decide.2 ?_
    have : h.source.apiCommits.length = h.api.length := rfl
    omega
  have htruncated : truncatedAt cfg h.source k = decide (cfg.maxCommits - k * cfg.size < (readAt cfg h.source k).length) := rfl
  have hmarked : s'.cursor.isPartial = true ↔
      k * cfg.size + cfg.size ≤ h.api.length ∨ cfg.maxCommits < h.api.length := by
    rw [hpast.marked, hs.unmarked, hends, hnext, htruncated, hlength]
    simp only [Bool.false_or, Bool.true_and, Bool.or_eq_true, decide_eq_true_eq]
    omega
  have hcount : s'.repo.commitCount = min h.api.length cfg.maxCommits := by
    rw [hpast.counted hends, hpast.seen, htaken, hlength]
    rw [endsAt, hnext, htruncated, htaken, hlength] at hends
    simp only [Bool.or_eq_true, Bool.not_eq_true', decide_eq_false_iff_not, decide_eq_true_eq] at hends
    omega
  have hlast : h.api.length < k * cfg.size + cfg.size ∨ cfg.maxCommits ≤ k * cfg.size + cfg.size := by
    rw [endsAt, hnext, htruncated, htaken, hlength] at hends
    simp only [Bool.or_eq_true, Bool.not_eq_true', decide_eq_false_iff_not, decide_eq_true_eq] at hends
    omega
  have hstored : s'.commits.map (·.sha) = (h.api.take cfg.maxCommits).map (·.sha) := by
    have htake : h.api.take (k * cfg.size + min (cfg.maxCommits - k * cfg.size) cfg.size) = h.api.take cfg.maxCommits :=
      List.take_eq_take_iff.2 (by omega)
    rw [hpast.commits, hs.stored hmore, htake]
  -- a last page that is full ends where the listing does
  have hwhole : cfg.size ∣ h.api.length → k * cfg.size + cfg.size ≤ h.api.length := by
    rintro ⟨m, hm⟩
    rw [hm, Nat.mul_comm cfg.size m] at hmore ⊢
    rw [← Nat.succ_mul]
    exact Nat.mul_le_mul_right _ (Nat.lt_of_mul_lt_mul_right hmore)
  constructor
  · intro htold
    by_contra hnot
    push Not at hnot
    have := htold.marked.1 (hmarked.2 (.inl (hwhole hnot.1)))
    omega
  · intro hcond
    refine ⟨hstored, hcount, hmarked.trans ⟨?_, .inr⟩⟩
    rintro (hfull | hcut)
    · by_contra hcut
      have hexact : h.api.length = (k + 1) * cfg.size := by
        rw [Nat.succ_mul]
        omega
      exact (hcond.resolve_right hcut) ⟨k + 1, by rw [hexact, Nat.mul_comm]⟩
    · exact hcut

/-- Behind the last page, the local copy is asked and counted once more. -/
theorem Before.toldApart_behind (hs : Before cfg h k s) (hnone : h.api.length = k * cfg.size) {s' : Session}
    (hends : endsAt cfg h.source k = true) (hpast : PagePast cfg h.source k s s') :
    ToldApart cfg h s' ↔ h.api = [] := by
  have hread : readAt cfg h.source k = gitLog h.git (cfg.maxCommits - k * cfg.size + 1) :=
    readAt_nil (Nat.le_of_eq hnone)
  have hgit : h.git.length = h.api.length := by
    rw [← List.length_map (·.sha), h.shas, List.length_map]
  have hlength : (readAt cfg h.source k).length = min (cfg.maxCommits - k * cfg.size + 1) h.api.length := by
    rw [hread, gitLog, List.length_take, hgit]
    omega
  have htaken := @length_takenAt cfg h.source k
  constructor
  · intro htold
    have hcount := htold.counted
    rw [hpast.counted hends, hpast.seen, htaken, hlength, ← hnone] at hcount
    by_contra hne
    have hpos := List.length_pos_iff.2 hne
    have hk : k ≠ 0 := by
      rintro rfl
      rw [hnone, Nat.zero_mul] at hpos
      exact Nat.lt_irrefl 0 hpos
    have := hs.below hk
    omega
  · intro hempty
    have hzero : (takenAt cfg h.source k).length = 0 := by
      rw [htaken, hlength, hempty, List.length_nil, Nat.min_zero, Nat.min_zero]
    have hseen : k * cfg.size = 0 := by rw [← hnone, hempty, List.length_nil]
    refine ⟨?_, ?_, ?_⟩
    · rw [hpast.commits, hs.commits, List.length_eq_zero_iff.1 hzero, hempty, List.take_nil, List.take_nil, List.foldl_nil]
    · rw [hpast.counted hends, hpast.seen, hzero, hseen, hempty]
      simp
    · have hnext : nextAt cfg h.source k = false := nextAt_nil (commitPageRows_nil (Nat.le_of_eq hnone))
      have hcut : truncatedAt cfg h.source k = false := by
        rw [truncatedAt, hlength, hempty]
        simp
      rw [hpast.marked, hs.unmarked, hcut, hnext, hempty]
      simp

/-! ## The whole walk -/

theorem Leads.exists {α : Type} {x : Act α} {Q : α → Session → Prop} (hx : Leads x s Q) :
    ∃ a s', x s = .ok a s' ∧ Q a s' := by
  unfold Leads wp at hx
  cases hanswer : x s with
  | ok a s' => rw [hanswer] at hx; exact ⟨a, s', rfl, hx⟩
  | error e s' => rw [hanswer] at hx; cases hx

theorem indexCommits_done (hdone : s.cursor.phase = .done) (steps : ℕ) : indexCommits cfg src steps s = .ok () s := by
  cases steps with
  | zero => rfl
  | succ steps =>
    rw [indexCommits, get_bind, if_pos hdone]
    rfl

theorem indexCommits_succ (hphase : s.cursor.phase = .indexCommits) {moved : Bool} {s' : Session}
    (hstep : stepIndexCommits cfg src s = .ok moved s') (steps : ℕ) :
    indexCommits cfg src (steps + 1) s = indexCommits cfg src steps s' := by
  have hnot : s.cursor.phase ≠ .done := by rw [hphase]; exact fun h => Phase.noConfusion h
  rw [indexCommits, get_bind, if_neg hnot, bind_ok hstep]

/-- What the walk tells apart at its end: the history is empty, or its last page is not full, or it is above the
ceiling. -/
theorem Before.toldApart_iff (hs : Before cfg h k s) (hends : endsAt cfg h.source k = true) {s' : Session}
    (hpast : PagePast cfg h.source k s s') :
    ToldApart cfg h s' ↔ h.api = [] ∨ ¬ cfg.size ∣ h.api.length ∨ cfg.maxCommits < h.api.length := by
  have hsize := size_pos cfg
  rcases Nat.lt_or_eq_of_le hs.le_length with hmore | hnone
  · refine (hs.toldApart_page hmore hends hpast).trans (or_iff_right ?_).symm
    intro hempty
    rw [hempty] at hmore
    exact Nat.not_lt_zero _ hmore
  · rw [hs.toldApart_behind hnone.symm hends hpast]
    refine ⟨.inl, ?_⟩
    rintro (hempty | hwhole | hcut)
    · exact hempty
    · exact absurd ⟨k, by rw [← hnone, Nat.mul_comm]⟩ hwhole
    · by_contra hne
      have hk : k ≠ 0 := by
        rintro rfl
        rw [Nat.zero_mul] at hnone
        exact hne (List.length_eq_zero_iff.1 hnone.symm)
      have := hs.below hk
      omega

theorem Before.reaches (hs : Before cfg h k s) :
    ∃ s' steps, (∀ more, indexCommits cfg h.source (steps + more) s = .ok () s') ∧ s'.cursor.phase = .done ∧
      (ToldApart cfg h s' ↔ h.api = [] ∨ ¬ cfg.size ∣ h.api.length ∨ cfg.maxCommits < h.api.length) := by
  -- the pages that are left are counted by the commits that are left
  induction hleft : h.api.length - k * cfg.size using Nat.strong_induction_on generalizing k s with
  | _ left ih =>
    obtain ⟨moved, s', hstep, hpast⟩ := hs.step.exists
    cases hends : endsAt cfg h.source k with
    | true =>
      have hdone : s'.cursor.phase = .done := by rw [hpast.phase, hends]; rfl
      refine ⟨s', 1, fun more => ?_, hdone, hs.toldApart_iff hends hpast⟩
      rw [Nat.add_comm, indexCommits_succ hs.phase hstep, indexCommits_done hdone]
    | false =>
      have hs' := hs.advance hends hpast
      have hsize := size_pos cfg
      have hlength := hs'.le_length
      rw [Nat.succ_mul] at hlength
      obtain ⟨s'', steps, hrun, hdone, htold⟩ := ih _ (by rw [Nat.succ_mul]; omega) hs' rfl
      refine ⟨s'', steps + 1, fun more => ?_, hdone, htold⟩
      rw [Nat.add_right_comm, indexCommits_succ hs.phase hstep, hrun]

/-- From a fresh cursor the walk comes to its end, and has told a truncated history from a whole one there exactly if
the history is empty, does not fill its last page, or is above the ceiling. -/
theorem commitWalk_exact_iff (cfg : ImportConfig) (h : History) (repo : Repo) (job : ImportJob) (issues : List Issue)
    (now : Time) :
    ∃ s' steps, (∀ more, indexCommits cfg h.source (steps + more) (freshIndex repo job issues now) = .ok () s') ∧
      s'.cursor.phase = .done ∧
      (ToldApart cfg h s' ↔ h.api = [] ∨ ¬ cfg.size ∣ h.api.length ∨ cfg.maxCommits < h.api.length) := by
  refine Before.reaches (k := 0) ⟨?_, ?_, rfl, rfl, rfl, fun h => ?_, rfl, fun j hj => ?_⟩
  · rw [Nat.zero_mul]; rfl
  · rw [Nat.zero_mul]; rfl
  · cases h
  · cases hj

/-- Pages of one commit, and room for two. -/
def pagesOfOne : ImportConfig where
  owner := "openfish"
  maxIssues := 1
  maxCommits := 2
  pageSize := 1
  pollAttempts := 1

/-- A history of one commit. -/
def oneEver : History where
  api := [⟨"c0", "first", "a"⟩]
  git := [⟨"c0", "first", "a"⟩]
  named := ⟨List.nodup_singleton _, by decide⟩
  shas := rfl

def newRepository : Repo := { id := 1, slug := "o/n", source := "import", kind := "upstream", syncState := "issues", updatedAt := 0 }

def newJob : ImportJob := { repoId := 1, mode := "code", status := "running", phase := .indexCommits, cursor := { phase := .indexCommits } }

/-- The one commit is counted twice. -/
theorem oneEver_not_toldApart :
    ∃ s', indexCommits pagesOfOne oneEver.source 2 (freshIndex newRepository newJob [] 0) = .ok () s' ∧
      s'.cursor.phase = .done ∧ ¬ ToldApart pagesOfOne oneEver s' := by
  refine ⟨_, rfl, rfl, fun htold => ?_⟩
  exact absurd htold.counted (by decide +kernel)

end OpenFish.Import
