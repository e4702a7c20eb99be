/-
Whether the issue mirror is complete and ends: exactly when every full page that holds a number at or below
what came before it ends above it, and no such number belongs to a row of the mirror.

The pages of a listing are followed one after the other. A page whose rows all stand above the largest number
stored so far is read at once. Of any other page the rows below are dropped, so the next offset falls into the
page again, and it is left only if its last row stands above.
-/
import OpenFish.Import.Pipeline

namespace OpenFish.Import

open Lib

/-! ## What a page is worth -/

section pages

variable (rows : List SourceIssue) (size : ℕ) (includePrs : Bool)

/-- The rows of the `k`-th page, from 0. -/
def pageRows (k : ℕ) : List SourceIssue := servePage rows (k + 1) size

/-- A row that belongs into the mirror. -/
def wanted (r : SourceIssue) : Bool := includePrs || !r.isPullRequest

/-- A row that the filter by the last number lets through. -/
def passes (number : ℕ) (r : SourceIssue) : Bool := number = 0 || decide (number < r.number)

def topNumber (l : List SourceIssue) : ℕ := (l.map (·.number)).foldr max 0

/-- The largest number of the mirror on the pages before the `k`-th. -/
def numberBefore (k : ℕ) : ℕ := topNumber ((rows.take (k * size)).filter (wanted includePrs))

/-- The rows of the `k`-th page that go into the mirror when it is reached. -/
def kept (k : ℕ) : List SourceIssue :=
  ((pageRows rows size k).filter (passes (numberBefore rows size includePrs k))).filter (wanted includePrs)

/-- What the pages before the `k`-th put into the mirror. -/
def keptBefore : ℕ → List SourceIssue
  | 0 => []
  | k + 1 => keptBefore k ++ kept rows size includePrs k

/-- The rows kept up to the `k`-th page are more than the ceiling allows. -/
def Overflows (maxIssues k : ℕ) : Prop := maxIssues < (keptBefore rows size includePrs (k + 1)).length

/-- The walk gets past the `k`-th page: it is the last one, or none of its rows is dropped, or its last row
stands above every number of the mirror up to it. -/
def Passable (k : ℕ) : Prop :=
  (pageRows rows size k).length < size ∨
    (∀ r ∈ pageRows rows size k, passes (numberBefore rows size includePrs k) r = true) ∨
    ∃ r ∈ (pageRows rows size k).getLast?, numberBefore rows size includePrs (k + 1) < r.number

/-- No row of the mirror is dropped from the `k`-th page. -/
def Lossless (k : ℕ) : Prop :=
  ∀ r ∈ pageRows rows size k, wanted includePrs r = true → passes (numberBefore rows size includePrs k) r = true

/-- The pages bring the mirror to its ceiling, or to the end of the listing without loss. -/
def Readable (maxIssues : ℕ) : Prop :=
  (∃ k, Overflows rows size includePrs maxIssues k ∧ ∀ j < k, Passable rows size includePrs j) ∨
    ∀ k, Passable rows size includePrs k ∧ Lossless rows size includePrs k

end pages

/-! ### Pages and what they keep -/

section pages

variable {rows : List SourceIssue} {size : ℕ} {includePrs : Bool}

theorem take_succ_page (rows : List SourceIssue) (size k : ℕ) :
    rows.take ((k + 1) * size) = rows.take (k * size) ++ pageRows rows size k := by
  rw [pageRows, servePage, Nat.add_sub_cancel, ← List.take_add, Nat.succ_mul]

theorem kept_sublist (k : ℕ) :
    (kept rows size includePrs k).Sublist ((pageRows rows size k).filter (wanted includePrs)) :=
  List.filter_sublist.filter _

theorem keptBefore_sublist (k : ℕ) :
    (keptBefore rows size includePrs k).Sublist ((rows.take (k * size)).filter (wanted includePrs)) := by
  induction k with
  | zero => exact List.nil_sublist _
  | succ k ih =>
    rw [take_succ_page, List.filter_append]
    exact ih.append (kept_sublist k)

theorem keptBefore_sublist_rows (k : ℕ) :
    (keptBefore rows size includePrs k).Sublist (rows.filter (wanted includePrs)) :=
  (keptBefore_sublist k).trans ((List.take_sublist ..).filter _)

theorem topNumber_append (l l' : List SourceIssue) : topNumber (l ++ l') = max (topNumber l) (topNumber l') := by
  induction l with
  | nil => simp [topNumber]
  | cons r l ih =>
    have hcons (x : List SourceIssue) : topNumber (r :: x) = max r.number (topNumber x) := rfl
    rw [List.cons_append, hcons, hcons, ih, Nat.max_assoc]

theorem le_topNumber {l : List SourceIssue} {r : SourceIssue} (h : r ∈ l) : r.number ≤ topNumber l := by
  obtain ⟨a, b, rfl⟩ := List.append_of_mem h
  have hcons : topNumber (r :: b) = max r.number (topNumber b) := rfl
  rw [topNumber_append, hcons]
  omega

/-- The rows that are dropped do not raise the number that is filtered by. -/
theorem max_topNumber_passes (n : ℕ) (l : List SourceIssue) :
    max n (topNumber (l.filter (passes n))) = max n (topNumber l) := by
  induction l with
  | nil => rfl
  | cons r l ih =>
    have hcons (x : List SourceIssue) : topNumber (r :: x) = max r.number (topNumber x) := rfl
    rw [List.filter_cons, hcons]
    split
    next => rw [hcons]; omega
    next h =>
      have : r.number ≤ n := by
        simp only [passes, Bool.or_eq_true, decide_eq_true_eq, not_or] at h
        omega
      omega

theorem numberBefore_succ (k : ℕ) :
    numberBefore rows size includePrs (k + 1) =
      max (numberBefore rows size includePrs k) (topNumber (kept rows size includePrs k)) := by
  have hkept : kept rows size includePrs k = ((pageRows rows size k).filter (wanted includePrs)).filter
      (passes (numberBefore rows size includePrs k)) := by
    rw [kept, List.filter_filter, List.filter_filter]
    exact List.filter_congr fun r _ => Bool.and_comm ..
  rw [hkept, max_topNumber_passes, numberBefore, take_succ_page, List.filter_append, topNumber_append]
  rfl

theorem mem_keptBefore {n : ℕ} {r : SourceIssue} :
    r ∈ keptBefore rows size includePrs n ↔ ∃ k < n, r ∈ kept rows size includePrs k := by
  induction n with
  | zero => simp [keptBefore]
  | succ n ih =>
    rw [keptBefore, List.mem_append, ih]
    constructor
    · rintro (⟨k, hk, hr⟩ | hr)
      · exact ⟨k, by omega, hr⟩
      · exact ⟨n, by omega, hr⟩
    · rintro ⟨k, hk, hr⟩
      rcases Nat.lt_succ_iff_lt_or_eq.1 hk with hlt | rfl
      · exact Or.inl ⟨k, hlt, hr⟩
      · exact Or.inr hr

/-- A row stands on one page. -/
theorem page_unique (hnodup : rows.Nodup) {j k : ℕ} {r : SourceIssue} (hj : r ∈ pageRows rows size j)
    (hk : r ∈ pageRows rows size k) : j = k := by
  have hlt {i l : ℕ} (hi : r ∈ pageRows rows size i) (hl : r ∈ pageRows rows size l) : ¬ i < l := by
    intro hil
    have htake : r ∈ rows.take ((i + 1) * size) := by
      rw [take_succ_page]; exact List.mem_append_right _ hi
    have hdrop : r ∈ rows.drop (l * size) := by
      rw [pageRows, servePage, Nat.add_sub_cancel] at hl
      exact List.mem_of_mem_take hl
    exact List.disjoint_take_drop hnodup (Nat.mul_le_mul_right size hil) htake hdrop
  have h₁ := hlt hj hk
  have h₂ := hlt hk hj
  omega

/-- Without loss, the rows kept are those of the mirror. -/
theorem keptBefore_of_lossless {n : ℕ} (h : ∀ k < n, Lossless rows size includePrs k) :
    keptBefore rows size includePrs n = (rows.take (n * size)).filter (wanted includePrs) := by
  induction n with
  | zero => simp [keptBefore]
  | succ n ih =>
    have hkept : kept rows size includePrs n = (pageRows rows size n).filter (wanted includePrs) := by
      rw [kept, List.filter_filter]
      refine List.filter_congr fun r hr => ?_
      cases hw : wanted includePrs r with
      | false => rfl
      | true => exact h n (Nat.lt_succ_self n) r hr hw
    rw [keptBefore, ih fun k hk => h k (Nat.lt_succ_of_lt hk), hkept, take_succ_page, List.filter_append]

/-- If all rows of the mirror are kept, none is dropped. -/
theorem lossless_of_subset (hnodup : rows.Nodup) {n : ℕ}
    (h : ∀ r ∈ rows, wanted includePrs r = true → r ∈ keptBefore rows size includePrs n) (k : ℕ) :
    Lossless rows size includePrs k := by
  intro r hr hw
  have hmem : r ∈ rows := by
    rw [pageRows, servePage] at hr
    exact List.mem_of_mem_drop (List.mem_of_mem_take hr)
  obtain ⟨j, -, hj⟩ := mem_keptBefore.1 (h r hmem hw)
  have hpage := (List.mem_filter.1 hj).1
  obtain rfl := page_unique hnodup hr (List.mem_filter.1 hpage).1
  exact (List.mem_filter.1 hpage).2

end pages

/-! ## The phase -/

/-- A job that is about to mirror the issues of a repository that has nothing stored. -/
def freshMirror (repo : Repo) (job : ImportJob) (forgejoRepo : { name : String // name ≠ "" }) (includePrs : Bool) :
    Session where
  repo := repo
  job := job
  cursor :=
    { phase := .mirrorIssues
      extras := { forgejoRepo := some forgejoRepo.1, includeIssues := some true, includePrs := some includePrs } }

/-- What one `_step_mirror_issues` leaves. -/
def mirrorStep (cfg : ImportConfig) (src : Source) (s : Session) : Session :=
  match stepMirrorIssues cfg src s with
  | .ok _ s' => s'
  | .error _ s' => s'

/-- `_step_mirror_issues`, up to `n` times, until it leaves its phase. -/
def mirrorSteps (cfg : ImportConfig) (src : Source) : ℕ → Session → Session
  | 0, s => s
  | n + 1, s => if s.cursor.phase = .mirrorIssues then mirrorSteps cfg src n (mirrorStep cfg src s) else s

/-- The mirror holds each row once and is not marked, or as many as the ceiling allows, and is marked. -/
def MirroredUpTo (maxIssues : ℕ) (rows : List SourceIssue) (s : Session) : Prop :=
  if rows.length ≤ maxIssues then
    (∀ r ∈ rows, s.issues.count (normalizeIssue r) = 1) ∧ s.job.isPartial = false
  else s.issues.length = maxIssues ∧ s.job.isPartial = true

/-- The phase ends, with a complete mirror. -/
def MirrorsAll (cfg : ImportConfig) (src : Source) (includePrs : Bool) (s : Session) : Prop :=
  ∃ n, (mirrorSteps cfg src n s).cursor.phase ≠ .mirrorIssues ∧
    MirroredUpTo cfg.maxIssues (src.issues.filter (wanted includePrs)) (mirrorSteps cfg src n s)

/-! ## One step -/

section steps

variable {cfg : ImportConfig} {src : Source} {includePrs : Bool}

def Session.page (cfg : ImportConfig) (src : Source) (s : Session) : IssuePage :=
  streamIssues src.issues s.cursor.issueNumber s.cursor.issuesSeen cfg.pageSize

/-- Whether the page ends the phase. -/
def Session.ends (cfg : ImportConfig) (src : Source) (s : Session) : Bool :=
  truncates cfg.maxIssues s.cursor (s.page cfg src) || (s.page cfg src).nextOffset.isNone

/-- A job of the phase that nothing goes wrong for. -/
structure Mirrors (includePrs : Bool) (s : Session) : Prop where
  turns : s.turns = []
  includeIssues : s.cursor.extras.includeIssues.getD true = true
  includePrs : s.cursor.includesPrs = includePrs
  forgejoRepo : s.cursor.extras.forgejoRepo.filter (· ≠ "") ≠ none

/-- What one step does to the cursor and the rows. -/
structure Stepped (cfg : ImportConfig) (src : Source) (s s' : Session) : Prop where
  cursor : s'.cursor = { s.cursor.afterIssues cfg.maxIssues (s.page cfg src) with
    phase := if s.ends cfg src then .indexCommits else s.cursor.phase }
  issues : s'.issues = (rowsTaken cfg.maxIssues s.cursor (s.page cfg src)).foldl upsertIssue s.issues
  isPartial : s'.job.isPartial = s'.cursor.isPartial
  turns : s'.turns = []

theorem forgejoOf_ne {s : Session} (h : s.cursor.extras.forgejoRepo.filter (· ≠ "") ≠ none) : forgejoOf s ≠ "" := by
  unfold forgejoOf
  cases hname : s.cursor.extras.forgejoRepo.filter (· ≠ "") with
  | none => exact absurd hname h
  | some name =>
    have := (Option.filter_eq_some_iff.1 hname).2
    simpa using this

theorem stepped_mirrorStep {s : Session} (h : Mirrors includePrs s) : Stepped cfg src s (mirrorStep cfg src s) := by
  have htrouble : s.trouble = false := by rw [Session.trouble, h.turns]; rfl
  have hrest : s.turns.tail = [] := by rw [h.turns]; rfl
  have hstep : wp (stepMirrorIssues cfg src) (fun _ s' => Stepped cfg src s s') (fun _ _ => False) s := by
    unfold stepMirrorIssues
    rw [wp_bind, wp_get, h.includeIssues]
    simp only [Bool.not_true, Bool.false_eq_true, if_false, if_neg (forgejoOf_ne h.forgejoRepo)]
    have hpage : streamIssues src.issues s.cursor.issueNumber s.cursor.issuesSeen cfg.pageSize = s.page cfg src := rfl
    rw [hpage]
    cases hends : s.ends cfg src <;> by_cases htaken : rowsTaken cfg.maxIssues s.cursor (s.page cfg src) = []
    all_goals
      unfold Session.ends at hends
      simp only [mirrorState, upsertIssues, Session.trouble, Session.rest, h.turns, hends, htaken, wp_bind, wp_setSyncState,
        wp_external, wp_modify, wp_modifyCursor, wp_get, wp_commit, wp_pure, ne_eq, not_true, not_false_eq_true, if_true,
        if_false, Bool.false_eq_true, List.head?_nil, Option.getD_none, false_imp_iff, true_and, forall_true_left,
        List.tail_nil]
    all_goals
      constructor
      · rw [Session.ends, hends]; rfl
      · simp [htaken]
      · rfl
      · rfl
  unfold wp at hstep
  unfold mirrorStep
  cases hs : stepMirrorIssues cfg src s with
  | ok moved s' => rw [hs] at hstep; exact hstep
  | error e s' => rw [hs] at hstep; exact hstep.elim

/-! ### The page in terms of the listing -/

/-- How many rows a page has. -/
def ImportConfig.size (cfg : ImportConfig) : ℕ := OpenFish.Import.pageSize cfg.pageSize

theorem size_pos (cfg : ImportConfig) : 0 < cfg.size := Nat.lt_of_lt_of_le Nat.one_pos (Nat.le_max_left ..)

/-- The rows that a page at an offset hands out. -/
def rowsAt (src : Source) (size k d number : ℕ) : List SourceIssue :=
  ((pageRows src.issues size k).drop d).filter (passes number)

theorem streamIssues_at (src : Source) (perPage k d number : ℕ) (hd : d < pageSize perPage) :
    streamIssues src.issues number (k * pageSize perPage + d) perPage =
      { items := (rowsAt src (pageSize perPage) k d number).map normalizeIssue
        nextOffset :=
          if pageSize perPage ≤ (pageRows src.issues (pageSize perPage) k).length then
            some (k * pageSize perPage + d + (rowsAt src (pageSize perPage) k d number).length)
          else none } := by
  have hpos : 0 < pageSize perPage := Nat.zero_lt_of_lt hd
  have hdiv : (k * pageSize perPage + d) / pageSize perPage = k := by
    rw [Nat.mul_comm, Nat.mul_add_div hpos, Nat.div_eq_of_lt hd, Nat.add_zero]
  have hmod : (k * pageSize perPage + d) % pageSize perPage = d := by
    rw [Nat.mul_comm, Nat.mul_add_mod, Nat.mod_eq_of_lt hd]
  have hitems : (if number = 0 then ((pageRows src.issues (pageSize perPage) k).map normalizeIssue).drop d
      else (((pageRows src.issues (pageSize perPage) k).map normalizeIssue).drop d).filter (number < ·.number)) =
      (rowsAt src (pageSize perPage) k d number).map normalizeIssue := by
    rw [rowsAt, List.map_drop.symm]
    split
    next h =>
      have hall : ∀ r ∈ (pageRows src.issues (pageSize perPage) k).drop d, passes number r = true := fun r _ => by
        simp [passes, h]
      rw [List.filter_eq_self.2 hall]
    next h =>
      rw [List.filter_map]
      exact congrArg _ (List.filter_congr fun r _ => by simp [passes, h, normalizeIssue])
  have hrows : servePage src.issues (k + 1) (pageSize perPage) = pageRows src.issues (pageSize perPage) k := rfl
  unfold streamIssues
  dsimp only
  rw [hdiv, hmod, hrows, hitems, List.length_map]

theorem maxNumber_normalize (l : List SourceIssue) : maxNumber (l.map normalizeIssue) = topNumber l := by
  rw [maxNumber, topNumber, List.map_map]
  rfl

/-- A phase at an offset, with the number it filters by and the rows it has stored. -/
structure At (cfg : ImportConfig) (includePrs : Bool) (offset number : ℕ) (stored : List SourceIssue) (s : Session) :
    Prop extends Mirrors includePrs s where
  phase : s.cursor.phase = .mirrorIssues
  seen : s.cursor.issuesSeen = offset
  issueNumber : s.cursor.issueNumber = number
  stored_length : s.cursor.stored = stored.length
  room : stored.length ≤ cfg.maxIssues
  isPartial : s.cursor.isPartial = false
  issues : s.issues = stored.map normalizeIssue

/-- A phase that has ended, with its rows and its mark. -/
structure Ended (marked : Bool) (stored : List SourceIssue) (s : Session) : Prop where
  phase : s.cursor.phase ≠ .mirrorIssues
  isPartial : s.job.isPartial = marked
  issues : s.issues = stored.map normalizeIssue

theorem includedRows_at {page : IssuePage} {l : List SourceIssue} {c : Cursor} (h : c.includesPrs = includePrs)
    (hitems : page.items = l.map normalizeIssue) :
    includedRows c page = (l.filter (wanted includePrs)).map normalizeIssue := by
  rw [includedRows, hitems, h, List.filter_map]
  rfl

/-- What a step at an offset leads to: the ceiling, the end of the listing, or the offset behind the rows it
was handed. -/
theorem At.step {k d number : ℕ} {stored : List SourceIssue} {s : Session} (hd : d < cfg.size)
    (h : At cfg includePrs (k * cfg.size + d) number stored s)
    (hdistinct : DistinctRows (stored ++ (rowsAt src cfg.size k d number).filter (wanted includePrs))) :
    let read := rowsAt src cfg.size k d number
    let mirrored := read.filter (wanted includePrs)
    if cfg.maxIssues < (stored ++ mirrored).length then
      Ended true (stored ++ mirrored.take (cfg.maxIssues - stored.length)) (mirrorStep cfg src s)
    else if (pageRows src.issues cfg.size k).length < cfg.size then
      Ended false (stored ++ mirrored) (mirrorStep cfg src s)
    else
      At cfg includePrs (k * cfg.size + d + read.length) (max number (topNumber mirrored)) (stored ++ mirrored)
        (mirrorStep cfg src s) := by
  intro read mirrored
  have hstep := @stepped_mirrorStep cfg src _ _ h.toMirrors
  have hpage := streamIssues_at src cfg.pageSize k d number hd
  have hitems : (s.page cfg src).items = read.map normalizeIssue := by
    rw [Session.page, h.seen, h.issueNumber]; exact congrArg IssuePage.items hpage
  have hnext : (s.page cfg src).nextOffset = if cfg.size ≤ (pageRows src.issues cfg.size k).length then
      some (k * cfg.size + d + read.length) else none := by
    rw [Session.page, h.seen, h.issueNumber]; exact congrArg IssuePage.nextOffset hpage
  have hincluded : includedRows s.cursor (s.page cfg src) = mirrored.map normalizeIssue :=
    includedRows_at h.includePrs hitems
  have hroom : s.cursor.room cfg.maxIssues = cfg.maxIssues - stored.length := by
    rw [Cursor.room, h.stored_length]
  have htruncates : truncates cfg.maxIssues s.cursor (s.page cfg src) =
      decide (cfg.maxIssues < (stored ++ mirrored).length) := by
    have := h.room
    rw [truncates, hincluded, hroom, List.length_map, List.length_append]
    exact decide_eq_decide.2 ⟨fun h => by omega, fun h => by omega⟩
  -- the rows that a step takes are new, so they go behind those that are stored
  have hissues (m : List SourceIssue) (hsub : m.Sublist mirrored)
      (htaken : rowsTaken cfg.maxIssues s.cursor (s.page cfg src) = m.map normalizeIssue) :
      (mirrorStep cfg src s).issues = (stored ++ m).map normalizeIssue := by
    rw [hstep.issues, htaken, h.issues]
    exact upsert_new (hdistinct.sublist (List.Sublist.append_left hsub stored))
  have hmark : (mirrorStep cfg src s).job.isPartial = decide (cfg.maxIssues < (stored ++ mirrored).length) := by
    rw [hstep.isPartial, hstep.cursor, Cursor.afterIssues]
    dsimp only
    rw [h.isPartial, htruncates, Bool.false_or]
  by_cases hover : cfg.maxIssues < (stored ++ mirrored).length
  · rw [if_pos hover]
    -- the ceiling cuts the page
    rw [decide_eq_true hover] at htruncates hmark
    refine ⟨?_, hmark, ?_⟩
    · rw [hstep.cursor, Session.ends, htruncates]
      exact Phase.noConfusion
    · apply hissues _ (List.take_sublist ..)
      rw [rowsTaken, htruncates, if_pos rfl, hincluded, hroom, List.map_take]
  · rw [if_neg hover]
    rw [decide_eq_false hover] at htruncates hmark
    have htaken : rowsTaken cfg.maxIssues s.cursor (s.page cfg src) = mirrored.map normalizeIssue := by
      rw [rowsTaken, htruncates, if_neg Bool.false_ne_true, hincluded]
    by_cases hshort : (pageRows src.issues cfg.size k).length < cfg.size
    · -- the page is the last one
      rw [if_pos hshort]
      rw [if_neg (by omega)] at hnext
      refine ⟨?_, hmark, hissues _ (List.Sublist.refl _) htaken⟩
      rw [hstep.cursor, Session.ends, htruncates, hnext]
      exact Phase.noConfusion
    · -- there is a page behind this one: all rows are taken, and the cursor moves past them
      rw [if_neg hshort]
      rw [if_pos (by omega)] at hnext
      have hends : s.ends cfg src = false := by rw [Session.ends, htruncates, hnext]; rfl
      have hcursor := hstep.cursor
      rw [hends, if_neg Bool.false_ne_true, Cursor.afterIssues, htruncates, htaken, hitems, hnext] at hcursor
      dsimp only at hcursor
      have hlen : (List.map normalizeIssue mirrored).length = mirrored.length := List.length_map _
      refine ⟨⟨hstep.turns, ?_, ?_, ?_⟩, ?_, ?_, ?_, ?_, by omega, ?_, hissues _ (List.Sublist.refl _) htaken⟩
      · rw [hcursor]; exact h.includeIssues
      · rw [hcursor]; exact h.includePrs
      · rw [hcursor]; exact h.forgejoRepo
      · rw [hcursor]; exact h.phase
      · rw [hcursor]
        simp only [Bool.false_eq_true, if_false, Option.getD_some, List.length_map]
        have := h.seen
        split <;> omega
      · rw [hcursor]
        dsimp only
        rw [h.issueNumber, maxNumber_normalize]
      · rw [hcursor]
        show s.cursor.stored + _ = _
        rw [hlen, h.stored_length, List.length_append]
      · rw [hcursor]
        dsimp only
        rw [h.isPartial]
        rfl

/-! ## Walking the pages -/

/-- The phase ends in a state of `P`. -/
def EndsWith (cfg : ImportConfig) (src : Source) (P : Session → Prop) (s : Session) : Prop :=
  ∃ n, (mirrorSteps cfg src n s).cursor.phase ≠ .mirrorIssues ∧ P (mirrorSteps cfg src n s)

theorem mirrorSteps_left {s : Session} (h : s.cursor.phase ≠ .mirrorIssues) (n : ℕ) : mirrorSteps cfg src n s = s := by
  cases n with
  | zero => rfl
  | succ n => rw [mirrorSteps, if_neg h]

theorem endsWith_left {P : Session → Prop} {s : Session} (h : s.cursor.phase ≠ .mirrorIssues) :
    EndsWith cfg src P s ↔ P s := by
  constructor
  · rintro ⟨n, -, hP⟩
    rwa [mirrorSteps_left h] at hP
  · intro hP
    exact ⟨0, h, hP⟩

theorem endsWith_step {P : Session → Prop} {s : Session} (h : s.cursor.phase = .mirrorIssues) :
    EndsWith cfg src P s ↔ EndsWith cfg src P (mirrorStep cfg src s) := by
  constructor
  · rintro ⟨n, hleft, hP⟩
    cases n with
    | zero => exact absurd h hleft
    | succ n =>
      rw [mirrorSteps, if_pos h] at hleft hP
      exact ⟨n, hleft, hP⟩
  · rintro ⟨n, hleft, hP⟩
    refine ⟨n + 1, ?_⟩
    rw [mirrorSteps, if_pos h]
    exact ⟨hleft, hP⟩

/-- A phase that comes back to a state of `Q` is never left. -/
theorem not_endsWith {P Q : Session → Prop} (hphase : ∀ s, Q s → s.cursor.phase = .mirrorIssues)
    (hstep : ∀ s, Q s → Q (mirrorStep cfg src s)) {s : Session} (h : Q s) : ¬ EndsWith cfg src P s := by
  rintro ⟨n, hleft, -⟩
  induction n generalizing s with
  | zero => exact hleft (hphase s h)
  | succ n ih =>
    rw [mirrorSteps, if_pos (hphase s h)] at hleft
    exact ih (hstep s h) hleft

/-- The phase at the start of a page. -/
def AtPage (cfg : ImportConfig) (src : Source) (includePrs : Bool) (k : ℕ) : Session → Prop :=
  At cfg includePrs (k * cfg.size) (numberBefore src.issues cfg.size includePrs k)
    (keptBefore src.issues cfg.size includePrs k)

/-- The phase within a full page of which rows were dropped, `d` rows into it. -/
def Within (cfg : ImportConfig) (src : Source) (includePrs : Bool) (k d : ℕ) : Session → Prop :=
  At cfg includePrs (k * cfg.size + d) (numberBefore src.issues cfg.size includePrs (k + 1))
    (keptBefore src.issues cfg.size includePrs (k + 1))

theorem rowsAt_start (k : ℕ) :
    (rowsAt src cfg.size k 0 (numberBefore src.issues cfg.size includePrs k)).filter (wanted includePrs) =
      kept src.issues cfg.size includePrs k := by
  rw [rowsAt, List.drop_zero]
  rfl

theorem AtPage.step {k : ℕ} {s : Session} (hdistinct : DistinctRows src.issues) (h : AtPage cfg src includePrs k s) :
    if cfg.maxIssues < (keptBefore src.issues cfg.size includePrs (k + 1)).length then
      ∃ stored, stored.length = cfg.maxIssues ∧ Ended true stored (mirrorStep cfg src s)
    else if (pageRows src.issues cfg.size k).length < cfg.size then
      Ended false (keptBefore src.issues cfg.size includePrs (k + 1)) (mirrorStep cfg src s)
    else
      Within cfg src includePrs k (rowsAt src cfg.size k 0 (numberBefore src.issues cfg.size includePrs k)).length
        (mirrorStep cfg src s) := by
  have hsub := @keptBefore_sublist_rows src.issues cfg.size includePrs (k + 1)
  have hstep := @At.step _ src _ k 0 _ _ _ (size_pos cfg) h
    (by rw [rowsAt_start]; exact hdistinct.sublist (hsub.trans List.filter_sublist))
  dsimp only at hstep
  rw [rowsAt_start, Nat.add_zero, ← numberBefore_succ, ← keptBefore] at hstep
  split_ifs at hstep ⊢ with hover hshort
  · refine ⟨_, ?_, hstep⟩
    have := h.room
    rw [keptBefore, List.length_append] at hover
    rw [List.length_append, List.length_take]
    omega
  · exact hstep
  · exact hstep

/-- A page of which no row is dropped is read at once. -/
theorem Within.next {k d : ℕ} {s : Session} (h : Within cfg src includePrs k d s) (hd : d = cfg.size) :
    AtPage cfg src includePrs (k + 1) s := by
  subst hd
  unfold AtPage
  rw [Nat.succ_mul]
  exact h

/-- Within a page only rows above the number are handed out, and none of them is of the mirror. -/
theorem Within.step {k d : ℕ} {s : Session} (hdistinct : DistinctRows src.issues)
    (h : Within cfg src includePrs k d s) (hd : d < cfg.size) (hfull : cfg.size ≤ (pageRows src.issues cfg.size k).length)
    (hnumber : 0 < numberBefore src.issues cfg.size includePrs (k + 1)) :
    Within cfg src includePrs k
      (d + (rowsAt src cfg.size k d (numberBefore src.issues cfg.size includePrs (k + 1))).length)
      (mirrorStep cfg src s) := by
  have hnone : (rowsAt src cfg.size k d (numberBefore src.issues cfg.size includePrs (k + 1))).filter
      (wanted includePrs) = [] := by
    rw [List.filter_eq_nil_iff]
    intro r hr hw
    obtain ⟨hpage, hpass⟩ := List.mem_filter.1 hr
    have hle : r.number ≤ numberBefore src.issues cfg.size includePrs (k + 1) := by
      apply le_topNumber
      rw [take_succ_page, List.filter_append]
      exact List.mem_append_right _ (List.mem_filter.2 ⟨List.mem_of_mem_drop hpage, hw⟩)
    simp only [passes, Bool.or_eq_true, decide_eq_true_eq] at hpass
    omega
  have hsub := @keptBefore_sublist_rows src.issues cfg.size includePrs (k + 1)
  have hstep := @At.step _ src _ _ _ _ _ _ hd h
    (by rw [hnone, List.append_nil]; exact hdistinct.sublist (hsub.trans List.filter_sublist))
  have hroom := h.room
  dsimp only at hstep
  rw [hnone, List.append_nil, if_neg (by omega), if_neg (by omega)] at hstep
  have htop : topNumber [] = 0 := rfl
  rw [htop, Nat.max_zero, Nat.add_assoc] at hstep
  exact hstep

theorem rowsAt_length_le (k d number : ℕ) :
    (rowsAt src cfg.size k d number).length ≤ (pageRows src.issues cfg.size k).length - d := by
  rw [← List.length_drop]
  exact List.length_filter_le ..

theorem pageRows_length_le (k : ℕ) : (pageRows src.issues cfg.size k).length ≤ cfg.size := List.length_take_le ..

/-- With a last row above the number, every rest of the page hands out a row; without, none hands out all. -/
theorem rowsAt_length {k d number : ℕ} (hd : d < (pageRows src.issues cfg.size k).length) :
    if ∃ r ∈ (pageRows src.issues cfg.size k).getLast?, passes number r = true then
      0 < (rowsAt src cfg.size k d number).length
    else (rowsAt src cfg.size k d number).length < (pageRows src.issues cfg.size k).length - d := by
  obtain ⟨init, last, hpage⟩ := List.eq_nil_or_concat (pageRows src.issues cfg.size k) |>.resolve_left
    (List.ne_nil_of_length_pos (Nat.zero_lt_of_lt hd))
  rw [List.concat_eq_append] at hpage
  have hlen : (pageRows src.issues cfg.size k).length = init.length + 1 := by rw [hpage, List.length_append]; rfl
  have hdrop : (pageRows src.issues cfg.size k).drop d = init.drop d ++ [last] := by
    rw [hpage, List.drop_append_of_le_length (by omega)]
  have hlast : (pageRows src.issues cfg.size k).getLast? = some last := by
    rw [hpage, List.getLast?_append]; rfl
  have hinit : ((init.drop d).filter (passes number)).length ≤ init.length - d := by
    rw [← List.length_drop]
    exact List.length_filter_le ..
  rw [hlast, rowsAt, hdrop, List.filter_append, List.length_append]
  split
  next h =>
    obtain ⟨r, hr, hpass⟩ := h
    cases hr
    rw [List.filter_cons_of_pos hpass, List.length_cons]
    omega
  next h =>
    have hpass : ¬ passes number last = true := fun hpass => h ⟨last, rfl, hpass⟩
    rw [List.filter_cons_of_neg hpass, List.filter_nil, List.length_nil]
    omega

/-- A page of which rows are dropped is left exactly if its last row stands above the number. -/
theorem Within.endsWith {P : Session → Prop} {k d : ℕ} {s : Session} (hdistinct : DistinctRows src.issues)
    (h : Within cfg src includePrs k d s) (hd : d ≤ cfg.size)
    (hfull : (pageRows src.issues cfg.size k).length = cfg.size)
    (hnumber : 0 < numberBefore src.issues cfg.size includePrs (k + 1)) :
    if ∃ r ∈ (pageRows src.issues cfg.size k).getLast?,
        passes (numberBefore src.issues cfg.size includePrs (k + 1)) r = true then
      ∃ s', AtPage cfg src includePrs (k + 1) s' ∧ (EndsWith cfg src P s ↔ EndsWith cfg src P s')
    else d < cfg.size → ¬ EndsWith cfg src P s := by
  have hlen (e : ℕ) (he : e < cfg.size) :=
    @rowsAt_length cfg src k e (numberBefore src.issues cfg.size includePrs (k + 1)) (by omega)
  have hle (e : ℕ) := @rowsAt_length_le cfg src k e
    (numberBefore src.issues cfg.size includePrs (k + 1))
  split
  next hlast =>
    -- each step comes nearer to the end of the page
    obtain ⟨left, hleft⟩ : ∃ left, left = cfg.size - d := ⟨_, rfl⟩
    induction left using Nat.strong_induction_on generalizing d s with
    | _ left ih =>
      rcases Nat.lt_or_ge d cfg.size with hlt | hge
      · have hstep := h.step hdistinct hlt (by omega) hnumber
        have hpos := hlen d hlt
        rw [if_pos hlast] at hpos
        have hbound := hle d
        obtain ⟨s', hat, hiff⟩ := ih _ (by omega) hstep (by omega) rfl
        exact ⟨s', hat, (endsWith_step h.phase).trans hiff⟩
      · exact ⟨s, h.next (by omega), Iff.rfl⟩
  next hlast =>
    intro hlt
    refine not_endsWith (Q := fun s => ∃ e < cfg.size, Within cfg src includePrs k e s) (fun s hs => ?_)
      (fun s hs => ?_) ⟨d, hlt, h⟩
    · obtain ⟨e, -, hs⟩ := hs
      exact hs.phase
    · obtain ⟨e, he, hs⟩ := hs
      have hshort := hlen e he
      rw [if_neg hlast] at hshort
      exact ⟨_, by omega, hs.step hdistinct he (by omega) hnumber⟩

/-- The pages from the `k`-th on bring the mirror to its ceiling, or to the end without loss. -/
def ReadableFrom (cfg : ImportConfig) (src : Source) (includePrs : Bool) (k : ℕ) : Prop :=
  (∃ j, k ≤ j ∧ Overflows src.issues cfg.size includePrs cfg.maxIssues j ∧
      ∀ i, k ≤ i → i < j → Passable src.issues cfg.size includePrs i) ∨
    (∀ j, k ≤ j → Passable src.issues cfg.size includePrs j) ∧ ∀ j, Lossless src.issues cfg.size includePrs j

theorem readableFrom_succ {k : ℕ} (hroom : ¬ Overflows src.issues cfg.size includePrs cfg.maxIssues k)
    (hpass : Passable src.issues cfg.size includePrs k) :
    ReadableFrom cfg src includePrs k ↔ ReadableFrom cfg src includePrs (k + 1) := by
  unfold ReadableFrom
  constructor
  · rintro (⟨j, hj, hover, hpre⟩ | ⟨hall, hlossless⟩)
    · rcases Nat.eq_or_lt_of_le hj with rfl | hlt
      · exact absurd hover hroom
      · exact Or.inl ⟨j, hlt, hover, fun i hi => hpre i (by omega)⟩
    · exact Or.inr ⟨fun j hj => hall j (by omega), hlossless⟩
  · rintro (⟨j, hj, hover, hpre⟩ | ⟨hall, hlossless⟩)
    · refine Or.inl ⟨j, by omega, hover, fun i hi hij => ?_⟩
      rcases Nat.eq_or_lt_of_le hi with rfl | hlt
      · exact hpass
      · exact hpre i hlt hij
    · refine Or.inr ⟨fun j hj => ?_, hlossless⟩
      rcases Nat.eq_or_lt_of_le hj with rfl | hlt
      · exact hpass
      · exact hall j hlt

/-- After a short page the listing is over. -/
theorem pageRows_after {j k : ℕ} (hshort : (pageRows src.issues cfg.size k).length < cfg.size) (h : k < j) :
    pageRows src.issues cfg.size j = [] := by
  have hk : src.issues.length < (k + 1) * cfg.size := by
    rw [pageRows, servePage, List.length_take, List.length_drop, Nat.add_sub_cancel] at hshort
    rw [Nat.succ_mul]
    omega
  have hj : (k + 1) * cfg.size ≤ j * cfg.size := Nat.mul_le_mul_right _ h
  rw [pageRows, servePage, Nat.add_sub_cancel, List.drop_eq_nil_of_le (by omega), List.take_nil]

theorem keptBefore_after {j k : ℕ} (hshort : (pageRows src.issues cfg.size k).length < cfg.size) (h : k ≤ j) :
    keptBefore src.issues cfg.size includePrs (j + 1) = keptBefore src.issues cfg.size includePrs (k + 1) := by
  induction j, h using Nat.le_induction with
  | base => rfl
  | succ j hj ih =>
    have hnil : kept src.issues cfg.size includePrs (j + 1) = [] := by
      rw [kept, pageRows_after hshort (by omega)]
      rfl
    rw [keptBefore, hnil, List.append_nil, ih]

/-- At the last page the phase ends as it should exactly if nothing was dropped. -/
theorem mirroredUpTo_last {k : ℕ} {s : Session} (hdistinct : DistinctRows src.issues)
    (hroom : ¬ Overflows src.issues cfg.size includePrs cfg.maxIssues k)
    (hshort : (pageRows src.issues cfg.size k).length < cfg.size)
    (h : Ended false (keptBefore src.issues cfg.size includePrs (k + 1)) s) :
    MirroredUpTo cfg.maxIssues (src.issues.filter (wanted includePrs)) s ↔ ReadableFrom cfg src includePrs k := by
  have hpassable (j : ℕ) (hj : k ≤ j) : Passable src.issues cfg.size includePrs j := by
    rcases Nat.eq_or_lt_of_le hj with rfl | hlt
    · exact Or.inl hshort
    · refine Or.inl ?_
      rw [pageRows_after hshort hlt]
      exact size_pos cfg
  have hreadable : ReadableFrom cfg src includePrs k ↔ ∀ j, Lossless src.issues cfg.size includePrs j := by
    constructor
    · rintro (⟨j, hj, hover, -⟩ | ⟨-, hlossless⟩)
      · rw [Overflows, keptBefore_after hshort hj] at hover
        exact absurd hover hroom
      · exact hlossless
    · exact fun hlossless => Or.inr ⟨hpassable, hlossless⟩
  have htake : src.issues.take ((k + 1) * cfg.size) = src.issues := by
    rw [pageRows, servePage, List.length_take, List.length_drop, Nat.add_sub_cancel] at hshort
    rw [List.take_of_length_le]
    rw [Nat.succ_mul]
    omega
  rw [hreadable, MirroredUpTo, h.isPartial, h.issues]
  constructor
  · intro hmirrored
    split_ifs at hmirrored with hle
    · refine lossless_of_subset hdistinct.nodup (n := k + 1) fun r hr hw => ?_
      have hcount := hmirrored.1 r (List.mem_filter.2 ⟨hr, hw⟩)
      have hmem := List.count_pos_iff.1 (Nat.lt_of_lt_of_eq Nat.one_pos hcount.symm)
      obtain ⟨r', hr', heq⟩ := List.mem_map.1 hmem
      exact normalizeIssue_injective heq ▸ hr'
    · cases hmirrored.2
  · intro hlossless
    have hkept := keptBefore_of_lossless (n := k + 1) fun j _ => hlossless j
    rw [htake] at hkept
    rw [Overflows, hkept] at hroom
    rw [if_pos (by omega), hkept]
    refine ⟨fun r hr => ?_, rfl⟩
    have hnodup := (hdistinct.nodup.filter (wanted includePrs)).map normalizeIssue_injective
    exact List.count_eq_one_of_mem hnodup (List.mem_map_of_mem hr)

/-- At the ceiling the phase ends as it should. -/
theorem mirroredUpTo_ceiling {k : ℕ} {stored : List SourceIssue} {s : Session}
    (hover : Overflows src.issues cfg.size includePrs cfg.maxIssues k) (hlen : stored.length = cfg.maxIssues)
    (h : Ended true stored s) : MirroredUpTo cfg.maxIssues (src.issues.filter (wanted includePrs)) s := by
  have hle := (@keptBefore_sublist_rows src.issues cfg.size includePrs (k + 1)).length_le
  unfold Overflows at hover
  rw [MirroredUpTo, if_neg (by omega), h.issues, List.length_map]
  exact ⟨hlen, h.isPartial⟩

theorem AtPage.endsWith {k : ℕ} {s : Session} (hdistinct : DistinctRows src.issues)
    (h : AtPage cfg src includePrs k s) :
    EndsWith cfg src (MirroredUpTo cfg.maxIssues (src.issues.filter (wanted includePrs))) s ↔
      ReadableFrom cfg src includePrs k := by
  obtain ⟨left, hleft⟩ : ∃ left, left = src.issues.length - k * cfg.size := ⟨_, rfl⟩
  induction left using Nat.strong_induction_on generalizing k s with
  | _ left ih =>
    have hstep := h.step hdistinct
    rw [endsWith_step h.phase]
    by_cases hover : Overflows src.issues cfg.size includePrs cfg.maxIssues k
    · rw [if_pos (show _ < _ from hover)] at hstep
      obtain ⟨stored, hlen, hended⟩ := hstep
      rw [endsWith_left hended.phase]
      exact iff_of_true (mirroredUpTo_ceiling hover hlen hended)
        (Or.inl ⟨k, Nat.le_refl k, hover, fun i hi hij => absurd hij (by omega)⟩)
    · rw [if_neg (show ¬ _ < _ from hover)] at hstep
      by_cases hshort : (pageRows src.issues cfg.size k).length < cfg.size
      · rw [if_pos hshort] at hstep
        rw [endsWith_left hstep.phase]
        exact mirroredUpTo_last hdistinct hover hshort hstep
      · rw [if_neg hshort] at hstep
        have hfull : (pageRows src.issues cfg.size k).length = cfg.size := by
          have := @pageRows_length_le cfg src k
          omega
        have hsize := size_pos cfg
        -- the listing goes on behind a full page, so the induction does
        have hnext (s' : Session) (hat : AtPage cfg src includePrs (k + 1) s') :=
          ih (src.issues.length - (k + 1) * cfg.size) (by
            rw [pageRows, servePage, List.length_take, List.length_drop, Nat.add_sub_cancel] at hfull
            rw [Nat.succ_mul]
            omega) hat rfl
        by_cases hall : ∀ r ∈ pageRows src.issues cfg.size k,
            passes (numberBefore src.issues cfg.size includePrs k) r = true
        · rw [rowsAt, List.drop_zero, List.filter_eq_self.2 hall] at hstep
          rw [hnext _ (hstep.next hfull), readableFrom_succ hover (Or.inr (Or.inl hall))]
        · obtain ⟨r, hr, hdropped⟩ : ∃ r ∈ pageRows src.issues cfg.size k,
              ¬ passes (numberBefore src.issues cfg.size includePrs k) r = true := by
            simpa using hall
          have hnumber : 0 < numberBefore src.issues cfg.size includePrs (k + 1) := by
            simp only [passes, Bool.or_eq_true, decide_eq_true_eq, not_or] at hdropped
            rw [numberBefore_succ]
            omega
          have hpassing (r : SourceIssue) : passes (numberBefore src.issues cfg.size includePrs (k + 1)) r = true ↔
              numberBefore src.issues cfg.size includePrs (k + 1) < r.number := by
            simp only [passes, Bool.or_eq_true, decide_eq_true_eq]
            omega
          have hread : (rowsAt src cfg.size k 0 (numberBefore src.issues cfg.size includePrs k)).length < cfg.size := by
            refine Nat.lt_of_lt_of_eq ?_ hfull
            rw [rowsAt, List.drop_zero]
            exact List.length_filter_lt_length_iff_exists.2 ⟨r, hr, hdropped⟩
          have hwithin := hstep.endsWith (P := MirroredUpTo cfg.maxIssues (src.issues.filter (wanted includePrs)))
            hdistinct (Nat.le_of_lt hread) hfull hnumber
          split at hwithin
          next hlast =>
            obtain ⟨s', hat, hiff⟩ := hwithin
            obtain ⟨r, hr, hpass⟩ := hlast
            rw [hiff, hnext s' hat, readableFrom_succ hover (Or.inr (Or.inr ⟨r, hr, (hpassing r).1 hpass⟩))]
          next hlast =>
            have hpassable : ¬ Passable src.issues cfg.size includePrs k := by
              rintro (hp | hp | ⟨r, hr, hp⟩)
              · exact hshort hp
              · exact hall hp
              · exact hlast ⟨r, hr, (hpassing r).2 hp⟩
            refine iff_of_false (hwithin hread) ?_
            rintro (⟨j, hj, hoverj, hpre⟩ | ⟨hpass, -⟩)
            · rcases Nat.eq_or_lt_of_le hj with rfl | hlt
              · exact hover hoverj
              · exact hpassable (hpre k (Nat.le_refl k) hlt)
            · exact hpassable (hpass k (Nat.le_refl k))

end steps

/-! ## Completeness -/

theorem atPage_fresh (cfg : ImportConfig) (src : Source) (repo : Repo) (job : ImportJob)
    (forgejoRepo : { name : String // name ≠ "" }) (includePrs : Bool) :
    AtPage cfg src includePrs 0 (freshMirror repo job forgejoRepo includePrs) := by
  have hname : (some forgejoRepo.1).filter (· ≠ "") ≠ none := by
    simp [forgejoRepo.2]
  have hzero : numberBefore src.issues cfg.size includePrs 0 = 0 := by
    rw [numberBefore, Nat.zero_mul]
    rfl
  exact ⟨⟨rfl, rfl, rfl, hname⟩, rfl, (Nat.zero_mul _).symm, hzero.symm, rfl, Nat.zero_le _, rfl, rfl⟩

/-- From a fresh cursor the issue mirror ends with every row of the mirror stored once and no mark, or at the
ceiling with the mark, exactly if the pages of the listing are readable. -/
theorem mirrorsAll_iff_readable (cfg : ImportConfig) (src : Source) (repo : Repo) (job : ImportJob)
    (forgejoRepo : { name : String // name ≠ "" }) (includePrs : Bool) (hdistinct : DistinctRows src.issues) :
    MirrorsAll cfg src includePrs (freshMirror repo job forgejoRepo includePrs) ↔
      Readable src.issues cfg.size includePrs cfg.maxIssues := by
  have hiff := (atPage_fresh cfg src repo job forgejoRepo includePrs).endsWith hdistinct
  refine hiff.trans ⟨?_, ?_⟩
  · rintro (⟨j, -, hover, hpre⟩ | ⟨hall, hlossless⟩)
    · exact Or.inl ⟨j, hover, fun i hi => hpre i (Nat.zero_le i) hi⟩
    · exact Or.inr fun k => ⟨hall k (Nat.zero_le k), hlossless k⟩
  · rintro (⟨j, hover, hpre⟩ | hall)
    · exact Or.inl ⟨j, Nat.zero_le j, hover, fun i _ hi => hpre i hi⟩
    · exact Or.inr ⟨fun k _ => (hall k).1, fun k => (hall k).2⟩

def plainText : IssueText :=
  { title := "", body := "", state := "open", author := "", labels := [], milestone := none, url := none }

/-- Two issues of which the one created first has the larger number. -/
def unordered : List SourceIssue :=
  [{ id := 1, number := 2, isPullRequest := false, text := plainText },
    { id := 2, number := 1, isPullRequest := false, text := plainText }]

def oneRowPages : ImportConfig :=
  { owner := "openfish", maxIssues := 5, maxCommits := 5, pageSize := 1, pollAttempts := 3 }

theorem distinct_unordered : DistinctRows unordered := ⟨by decide, by decide⟩

def issuesOnly (rows : List SourceIssue) : Source := { issues := rows, apiCommits := [], gitCommits := [] }

def syncJob : ImportJob :=
  { repoId := 1, mode := "issues", status := "queued", phase := .mirrorIssues, cursor := { phase := .mirrorIssues } }

/-- With pages of one row the second issue is dropped from its page, which is then read for ever. -/
theorem unordered_not_mirrored : DistinctRows unordered ∧
    ¬ MirrorsAll oneRowPages (issuesOnly unordered) true
      (freshMirror (newRepo "o/n" 0 1) syncJob ⟨"openfish/o__n", by decide⟩ true) := by
  refine ⟨distinct_unordered, fun h => ?_⟩
  have hreadable := ((atPage_fresh oneRowPages (issuesOnly unordered) (newRepo "o/n" 0 1) syncJob
    ⟨"openfish/o__n", by decide⟩ true).endsWith distinct_unordered).1 h
  rcases hreadable with ⟨j, -, hover, -⟩ | ⟨hall, -⟩
  · have hle := (@keptBefore_sublist_rows unordered oneRowPages.size true (j + 1)).length_le
    have htwo : (unordered.filter (wanted true)).length = 2 := by decide
    have hover' : 5 < (keptBefore unordered oneRowPages.size true (j + 1)).length := hover
    omega
  · rcases hall 1 (Nat.zero_le 1) with hp | hp | hp
    · revert hp; decide
    · revert hp; decide
    · revert hp; decide

/-- Two issues in the order of their numbers, which are mirrored. -/
theorem mirrorsAll_iff_readable_ordered :
    MirrorsAll oneRowPages (issuesOnly unordered.reverse) true
        (freshMirror (newRepo "o/n" 0 1) syncJob ⟨"openfish/o__n", by decide⟩ true) ↔
      Readable unordered.reverse oneRowPages.size true oneRowPages.maxIssues :=
  mirrorsAll_iff_readable oneRowPages (issuesOnly unordered.reverse) (newRepo "o/n" 0 1) syncJob
    ⟨"openfish/o__n", by decide⟩ true ⟨by decide, by decide⟩

end OpenFish.Import
