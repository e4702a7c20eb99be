/-
Checkpoints of an import: which cursors fit which rows, so that reading on from them leads to the mirror that
an uninterrupted import ends with, and what one page does to them.

A checkpoint may be older than the rows: the rows of a page are committed before the cursor moves behind it.
-/
import OpenFish.Import.Mirroring

namespace OpenFish.Import

open Lib

/-- The rows of a repository before an import. Their keys are distinct, as the database has them. -/
structure Tables where
  issues : List Issue
  commits : List Commit
  distinctIssues : DistinctKeys issues
  distinctCommits : (commits.map (·.sha)).Nodup

variable {old : Tables} {cfg : ImportConfig} {src : Source}

/-! ## Issues -/

/-- A listing in the order of its numbers. -/
structure Ascending (rows : List SourceIssue) : Prop where
  ids : (rows.map (·.id)).Nodup
  numbers : (rows.map (·.number)).Pairwise (· < ·)

theorem Ascending.distinct {rows : List SourceIssue} (h : Ascending rows) : DistinctRows rows :=
  ⟨h.ids, h.numbers.imp Nat.ne_of_lt⟩

theorem Ascending.apart {rows : List SourceIssue} (h : Ascending rows) :
    rows.Pairwise fun r r' => r.id ≠ r'.id ∧ r.number ≠ r'.number :=
  (List.pairwise_map.1 h.ids).and ((List.pairwise_map.1 h.numbers).imp Nat.ne_of_lt)

/-- Rows further on have larger numbers. -/
theorem Ascending.lt_drop {rows : List SourceIssue} (h : Ascending rows) {n : ℕ} {r r' : SourceIssue}
    (hr : r ∈ rows.take n) (hr' : r' ∈ rows.drop n) : r.number < r'.number := by
  have hsplit := h.numbers
  rw [← List.take_append_drop n rows, List.map_append, List.pairwise_append] at hsplit
  exact hsplit.2.2 _ (List.mem_map_of_mem hr) _ (List.mem_map_of_mem hr')

theorem topNumber_lt {l : List SourceIssue} {r : SourceIssue} (hne : l ≠ []) (h : ∀ r' ∈ l, r'.number < r.number) :
    topNumber l < r.number := by
  induction l with
  | nil => exact absurd rfl hne
  | cons a l ih =>
    have hcons : topNumber (a :: l) = max a.number (topNumber l) := rfl
    have ha := h a (List.mem_cons_self ..)
    rw [hcons]
    by_cases hl : l = []
    · subst hl
      have : topNumber [] = 0 := rfl
      omega
    · have := ih hl fun r' hr' => h r' (List.mem_cons_of_mem _ hr')
      omega

theorem Ascending.passes_drop {rows : List SourceIssue} (h : Ascending rows) {n m : ℕ} (hmn : m ≤ n) {r : SourceIssue}
    (hr : r ∈ rows.drop n) : passes (topNumber (rows.take m)) r = true := by
  simp only [passes, Bool.or_eq_true, decide_eq_true_eq]
  by_cases htake : rows.take m = []
  · rw [htake]
    exact Or.inl rfl
  · refine Or.inr (topNumber_lt htake fun r' hr' => h.lt_drop (List.take_subset_take_left _ hmn hr') hr)

/-- The rows with the first `n` issues stored. -/
def issueTable (old : Tables) (src : Source) (n : ℕ) : List Issue :=
  (src.issues.take n).foldl (fun table r => upsertIssue table (normalizeIssue r)) old.issues

/-- The cursor stands before a page; the rows of that page may be there already. -/
def Reading (old : Tables) (cfg : ImportConfig) (src : Source) (c : Cursor) (table : List Issue) : Prop :=
  ∃ k, c.issuesSeen = k * cfg.size ∧ k * cfg.size ≤ src.issues.length ∧ k * cfg.size ≤ cfg.maxIssues ∧
    c.stored = k * cfg.size ∧ c.issueNumber = topNumber (src.issues.take (k * cfg.size)) ∧ c.isPartial = false ∧
    (table = issueTable old src (k * cfg.size) ∨
      table = issueTable old src (min (min ((k + 1) * cfg.size) src.issues.length) cfg.maxIssues))

/-- All rows are there, and the page at the cursor ends the phase. -/
def Read (old : Tables) (cfg : ImportConfig) (src : Source) (c : Cursor) (table : List Issue) : Prop :=
  table = issueTable old src (min cfg.maxIssues src.issues.length) ∧
    c.isPartial = decide (cfg.maxIssues < src.issues.length) ∧
    ∃ k d, c.issuesSeen = k * cfg.size + d ∧ d < cfg.size ∧
      if cfg.maxIssues < src.issues.length then
        c.stored = cfg.maxIssues ∧
          ((pageRows src.issues cfg.size k).length < cfg.size ∨
            rowsAt src cfg.size k d c.issueNumber ≠ [] ∧ cfg.size ≤ k * cfg.size + d)
      else (pageRows src.issues cfg.size k).length < cfg.size ∧ rowsAt src cfg.size k d c.issueNumber = []

/-- The page at a cursor. -/
def pageOf (cfg : ImportConfig) (src : Source) (c : Cursor) : IssuePage :=
  streamIssues src.issues c.issueNumber c.issuesSeen cfg.pageSize

/-- What the page at a cursor does: the rows with the old cursor, and with the new one, are a checkpoint; if
the page ends the phase all rows are there, else the cursor has moved. -/
structure PageDone (old : Tables) (cfg : ImportConfig) (src : Source) (c : Cursor) (table : List Issue) : Prop where
  before : Reading old cfg src c ((rowsTaken cfg.maxIssues c (pageOf cfg src c)).foldl upsertIssue table) ∨
    Read old cfg src c ((rowsTaken cfg.maxIssues c (pageOf cfg src c)).foldl upsertIssue table)
  after : if truncates cfg.maxIssues c (pageOf cfg src c) || (pageOf cfg src c).nextOffset.isNone then
      Read old cfg src (c.afterIssues cfg.maxIssues (pageOf cfg src c))
        ((rowsTaken cfg.maxIssues c (pageOf cfg src c)).foldl upsertIssue table)
    else
      Reading old cfg src (c.afterIssues cfg.maxIssues (pageOf cfg src c))
          ((rowsTaken cfg.maxIssues c (pageOf cfg src c)).foldl upsertIssue table) ∧
        c.issuesSeen < (c.afterIssues cfg.maxIssues (pageOf cfg src c)).issuesSeen

section pages

variable {c : Cursor} {table : List Issue}

/-- The page at an offset in terms of its rows, when pull requests are mirrored too. -/
theorem page_of_offset {k d : ℕ} (hincludes : c.includesPrs = true) (hseen : c.issuesSeen = k * cfg.size + d)
    (hd : d < cfg.size) :
    (pageOf cfg src c).items = (rowsAt src cfg.size k d c.issueNumber).map normalizeIssue ∧
      (pageOf cfg src c).nextOffset = (if cfg.size ≤ (pageRows src.issues cfg.size k).length then
        some (k * cfg.size + d + (rowsAt src cfg.size k d c.issueNumber).length) else none) ∧
      includedRows c (pageOf cfg src c) = (rowsAt src cfg.size k d c.issueNumber).map normalizeIssue := by
  have hpage := streamIssues_at src cfg.pageSize k d c.issueNumber hd
  have hitems : (pageOf cfg src c).items = (rowsAt src cfg.size k d c.issueNumber).map normalizeIssue := by
    rw [pageOf, hseen]; exact congrArg IssuePage.items hpage
  refine ⟨hitems, ?_, ?_⟩
  · rw [pageOf, hseen]; exact congrArg IssuePage.nextOffset hpage
  · rw [includedRows_at hincludes hitems]
    refine congrArg _ (List.filter_eq_self.2 fun r _ => ?_)
    rfl

theorem size_le_mul {k : ℕ} (hk : k ≠ 0) : cfg.size ≤ k * cfg.size :=
  Nat.le_mul_of_pos_left _ (Nat.pos_of_ne_zero hk)

/-- Going on from a short page leads to a short page: only on the first page the offset can still grow. -/
theorem short_after {k d n : ℕ} (hd : d < cfg.size) (hshort : (pageRows src.issues cfg.size k).length < cfg.size)
    (hn : n ≤ (pageRows src.issues cfg.size k).length) :
    ∃ k' d', max (k * cfg.size + d) n = k' * cfg.size + d' ∧ d' < cfg.size ∧
      (pageRows src.issues cfg.size k').length < cfg.size := by
  by_cases hk : k = 0
  · subst hk
    exact ⟨0, max d n, by omega, by omega, hshort⟩
  · have := @size_le_mul cfg _ hk
    exact ⟨k, d, by omega, hd, hshort⟩

theorem rowsAt_length_le_page (k d number : ℕ) :
    (rowsAt src cfg.size k d number).length ≤ (pageRows src.issues cfg.size k).length :=
  (rowsAt_length_le k d number).trans (Nat.sub_le ..)

/-- Where everything is read, the page adds nothing and ends the phase. -/
theorem Read.pageDone (hincludes : c.includesPrs = true) (h : Read old cfg src c table) : PageDone old cfg src c table := by
  obtain ⟨htable, hcut, k, d, hseen, hd, hrest⟩ := h
  obtain ⟨hitems, hnext, hincluded⟩ := @page_of_offset _ src _ _ _ hincludes hseen hd
  have hlen := @rowsAt_length_le_page cfg src k d c.issueNumber
  have hlenItems : (pageOf cfg src c).items.length = (rowsAt src cfg.size k d c.issueNumber).length := by
    rw [hitems, List.length_map]
  by_cases hover : cfg.maxIssues < src.issues.length
  · rw [if_pos hover] at hrest
    obtain ⟨hstored, hrest⟩ := hrest
    have hroom : c.room cfg.maxIssues = 0 := by rw [Cursor.room, hstored, Nat.sub_self]
    have htruncates : truncates cfg.maxIssues c (pageOf cfg src c) =
        decide (0 < (rowsAt src cfg.size k d c.issueNumber).length) := by
      rw [truncates, hroom, hincluded, List.length_map]
    have htaken : rowsTaken cfg.maxIssues c (pageOf cfg src c) = [] := by
      rw [rowsTaken, htruncates, hroom, hincluded]
      split
      next => rfl
      next hnot =>
        rw [decide_eq_true_eq, Nat.pos_iff_ne_zero, Ne, List.length_eq_zero_iff, not_not] at hnot
        rw [hnot]
        rfl
    have hends : (truncates cfg.maxIssues c (pageOf cfg src c) || (pageOf cfg src c).nextOffset.isNone) = true := by
      rw [htruncates, hnext]
      rcases hrest with hshort | ⟨hrows, -⟩
      · rw [if_neg (by omega), Option.isNone_none, Bool.or_true]
      · rw [decide_eq_true (List.length_pos_iff.2 hrows), Bool.true_or]
    -- the offset is raised to the number of rows handed out
    have hseen' : (c.afterIssues cfg.maxIssues (pageOf cfg src c)).issuesSeen =
        max (k * cfg.size + d) (rowsAt src cfg.size k d c.issueNumber).length := by
      simp only [Cursor.afterIssues, hseen, htruncates, hlenItems]
      rcases Nat.eq_zero_or_pos (rowsAt src cfg.size k d c.issueNumber).length with hzero | hpos
      · have hshort : ¬ cfg.size ≤ (pageRows src.issues cfg.size k).length := by
          rcases hrest with hshort | ⟨hrows, -⟩
          · omega
          · exact absurd (List.length_eq_zero_iff.1 hzero) hrows
        rw [hnext, if_neg hshort, hzero]
        simp
      · rw [decide_eq_true hpos, if_pos rfl, if_neg (by omega)]
    have hnumber : (c.afterIssues cfg.maxIssues (pageOf cfg src c)).issueNumber = c.issueNumber := by
      simp [Cursor.afterIssues, htaken, maxNumber]
    have hcut' : (c.afterIssues cfg.maxIssues (pageOf cfg src c)).isPartial = decide (cfg.maxIssues < src.issues.length) := by
      simp [Cursor.afterIssues, hcut, hover]
    have hstored' : (c.afterIssues cfg.maxIssues (pageOf cfg src c)).stored = cfg.maxIssues := by
      simp [Cursor.afterIssues, Cursor.stored, htaken] at hstored ⊢
      exact hstored
    refine ⟨Or.inr ⟨by rw [htaken]; exact htable, hcut, k, d, hseen, hd, by rw [if_pos hover]; exact ⟨hstored, hrest⟩⟩, ?_⟩
    rw [hends, if_pos rfl, htaken]
    refine ⟨htable, hcut', ?_⟩
    simp only [if_pos hover, hstored', hnumber, hseen', true_and]
    rcases hrest with hshort | ⟨hrows, hsize⟩
    · obtain ⟨k', d', heq, hd', hshort'⟩ := short_after hd hshort hlen
      exact ⟨k', d', heq, hd', Or.inl hshort'⟩
    · have := @pageRows_length_le cfg src k
      exact ⟨k, d, by omega, hd, Or.inr ⟨hrows, hsize⟩⟩
  · rw [if_neg hover] at hrest
    obtain ⟨hshort, hrows⟩ := hrest
    rw [hrows] at hincluded hlenItems
    rw [List.map_nil] at hincluded
    have htruncates : truncates cfg.maxIssues c (pageOf cfg src c) = false := by
      rw [truncates, hincluded]
      exact decide_eq_false (Nat.not_lt_zero _)
    have htaken : rowsTaken cfg.maxIssues c (pageOf cfg src c) = [] := by
      rw [rowsTaken, htruncates, hincluded]
      rfl
    rw [if_neg (by omega)] at hnext
    have hsame : (c.afterIssues cfg.maxIssues (pageOf cfg src c)).issuesSeen = c.issuesSeen ∧
        (c.afterIssues cfg.maxIssues (pageOf cfg src c)).issueNumber = c.issueNumber ∧
        (c.afterIssues cfg.maxIssues (pageOf cfg src c)).isPartial = c.isPartial := by
      simp [Cursor.afterIssues, htruncates, htaken, hnext, hlenItems, maxNumber]
    refine ⟨Or.inr ⟨by rw [htaken]; exact htable, hcut, k, d, hseen, hd, by rw [if_neg hover]; exact ⟨hshort, hrows⟩⟩, ?_⟩
    rw [hnext, Option.isNone_none, Bool.or_true, if_pos rfl, htaken]
    refine ⟨htable, hsame.2.2.trans hcut, k, d, hsame.1.trans hseen, hd, ?_⟩
    rw [if_neg hover, hsame.2.1]
    exact ⟨hshort, hrows⟩

theorem pageRows_eq (k : ℕ) : pageRows src.issues cfg.size k = (src.issues.drop (k * cfg.size)).take cfg.size := by
  rw [pageRows, servePage, Nat.add_sub_cancel]

/-- On a listing in order the number filters nothing out of the next page. -/
theorem rowsAt_ascending (hasc : Ascending src.issues) (k : ℕ) :
    rowsAt src cfg.size k 0 (topNumber (src.issues.take (k * cfg.size))) = pageRows src.issues cfg.size k := by
  rw [rowsAt, List.drop_zero, List.filter_eq_self]
  intro r hr
  rw [pageRows_eq] at hr
  exact hasc.passes_drop (Nat.le_refl _) (List.mem_of_mem_take hr)

/-- The last page, read again, holds nothing above the largest number. -/
theorem rowsAt_last (hasc : Ascending src.issues) {k : ℕ} (hk : k ≠ 0) (hseen : k * cfg.size ≤ src.issues.length) :
    rowsAt src cfg.size k 0 (topNumber src.issues) = [] := by
  rw [rowsAt, List.drop_zero, List.filter_eq_nil_iff]
  intro r hr hpass
  rw [pageRows_eq] at hr
  have hdrop := List.mem_of_mem_take hr
  have hsize := size_pos cfg
  have hmul := @size_le_mul cfg _ hk
  obtain ⟨r₀, rest, hlist⟩ : ∃ r₀ rest, src.issues.take (k * cfg.size) = r₀ :: rest :=
    List.exists_cons_of_length_pos (by rw [List.length_take]; omega)
  have hlt : r₀.number < r.number := hasc.lt_drop (by rw [hlist]; exact List.mem_cons_self ..) hdrop
  have hle := le_topNumber (List.mem_of_mem_drop hdrop)
  simp only [passes, Bool.or_eq_true, decide_eq_true_eq] at hpass
  omega

/-- Reading the next page of a listing in order stores its rows, as far as there is room. -/
theorem Reading.pageDone (hasc : Ascending src.issues) (hincludes : c.includesPrs = true)
    (h : Reading old cfg src c table) : PageDone old cfg src c table := by
  obtain ⟨k, hseen, hlength, hmax, hstored, hnumber, hcut, htable⟩ := h
  have hsize := size_pos cfg
  obtain ⟨hitems, hnext, hincluded⟩ := @page_of_offset _ src _ _ 0 hincludes hseen hsize
  rw [hnumber, rowsAt_ascending hasc] at hitems hnext hincluded
  obtain ⟨page, hpage⟩ : ∃ page, page = pageRows src.issues cfg.size k := ⟨_, rfl⟩
  rw [← hpage] at hitems hnext hincluded
  have hlen : page.length = min cfg.size (src.issues.length - k * cfg.size) := by
    rw [hpage, pageRows_eq, List.length_take, List.length_drop]
  have hroom : c.room cfg.maxIssues = cfg.maxIssues - k * cfg.size := by rw [Cursor.room, hstored]
  have htruncates : truncates cfg.maxIssues c (pageOf cfg src c) =
      decide (cfg.maxIssues - k * cfg.size < page.length) := by
    rw [truncates, hroom, hincluded, List.length_map]
  have htaken : rowsTaken cfg.maxIssues c (pageOf cfg src c) =
      (page.take (cfg.maxIssues - k * cfg.size)).map normalizeIssue := by
    rw [rowsTaken, htruncates, hroom, hincluded]
    split
    next => exact List.map_take.symm
    next hnot =>
      rw [decide_eq_true_eq] at hnot
      rw [List.take_of_length_le (by omega)]
  -- `ready` is how far the rows reach with this page
  obtain ⟨ready, hready⟩ : ∃ n, n = min (min ((k + 1) * cfg.size) src.issues.length) cfg.maxIssues := ⟨_, rfl⟩
  rw [Nat.succ_mul] at hready
  have hsplit : src.issues.take ready = src.issues.take (k * cfg.size) ++ page.take (cfg.maxIssues - k * cfg.size) := by
    have hready' : ready = k * cfg.size + min (min cfg.size (src.issues.length - k * cfg.size))
        (cfg.maxIssues - k * cfg.size) := by omega
    rw [hready', List.take_add, hpage, pageRows_eq, List.take_take]
    congr 1
    rw [List.take_eq_take_iff, List.length_drop]
    omega
  have hrows : (rowsTaken cfg.maxIssues c (pageOf cfg src c)).foldl upsertIssue table = issueTable old src ready := by
    rw [htaken, List.foldl_map, issueTable, hsplit, List.foldl_append]
    rcases htable with rfl | rfl
    · rfl
    · rw [Nat.succ_mul, ← hready, issueTable, hsplit, List.foldl_append]
      have hpart : (page.take (cfg.maxIssues - k * cfg.size)).Sublist src.issues := by
        rw [hpage, pageRows_eq]
        exact ((List.take_sublist ..).trans (List.take_sublist ..)).trans (List.drop_sublist ..)
      exact upserts_issue.foldl_twice (fun _ _ => trivial) (hasc.apart.sublist hpart)
        (upserts_issue.foldl_good (fun _ _ => trivial) old.distinctIssues)
  have hnumber' : (c.afterIssues cfg.maxIssues (pageOf cfg src c)).issueNumber = topNumber (src.issues.take ready) := by
    rw [Cursor.afterIssues, htaken, hsplit, topNumber_append, ← maxNumber_normalize (page.take _), ← hnumber]
  have hstored' : (c.afterIssues cfg.maxIssues (pageOf cfg src c)).stored = ready := by
    have hfit : (page.take (cfg.maxIssues - k * cfg.size)).length = ready - k * cfg.size := by
      rw [List.length_take]; omega
    have : (c.afterIssues cfg.maxIssues (pageOf cfg src c)).stored =
        c.stored + (rowsTaken cfg.maxIssues c (pageOf cfg src c)).length := rfl
    rw [this, htaken, List.length_map, hfit, hstored]
    omega
  have hcut' : (c.afterIssues cfg.maxIssues (pageOf cfg src c)).isPartial =
      decide (cfg.maxIssues - k * cfg.size < page.length) := by
    rw [Cursor.afterIssues]
    dsimp only
    rw [hcut, htruncates, Bool.false_or]
  have hseen' : (c.afterIssues cfg.maxIssues (pageOf cfg src c)).issuesSeen =
      if cfg.maxIssues - k * cfg.size < page.length ∨ page.length < cfg.size then max (k * cfg.size) page.length
      else (k + 1) * cfg.size := by
    have hlenItems : (pageOf cfg src c).items.length = page.length := by rw [hitems, List.length_map]
    rw [Cursor.afterIssues]
    dsimp only
    rw [htruncates, hseen, hlenItems, Nat.succ_mul]
    by_cases hover : cfg.maxIssues - k * cfg.size < page.length
    · rw [decide_eq_true hover, if_pos rfl, if_neg (by omega), if_pos (Or.inl hover)]
    · rw [decide_eq_false hover, if_neg Bool.false_ne_true]
      by_cases hshort : page.length < cfg.size
      · rw [if_neg (by omega)] at hnext
        rw [hnext, if_pos (Or.inr hshort)]
        rfl
      · rw [if_pos (by omega)] at hnext
        rw [hnext, if_neg (not_or.2 ⟨hover, hshort⟩), Option.getD_some, if_neg (by omega)]
        omega
  refine ⟨?_, ?_⟩
  · rw [hrows]
    refine Or.inl ⟨k, hseen, hlength, hmax, hstored, hnumber, hcut, Or.inr ?_⟩
    rw [hready, Nat.succ_mul]
  rw [hrows, htruncates]
  by_cases hover : cfg.maxIssues - k * cfg.size < page.length
  · -- the ceiling: at the new offset there still are rows above the number, or no more rows
    have hmore : cfg.maxIssues < src.issues.length := by omega
    have hfull : ready = cfg.maxIssues := by omega
    rw [decide_eq_true hover, Bool.true_or, if_pos rfl]
    refine ⟨by rw [hfull, Nat.min_eq_left (Nat.le_of_lt hmore)], by rw [hcut', decide_eq_true hover, decide_eq_true hmore], ?_⟩
    rw [if_pos (Or.inl hover)] at hseen'
    simp only [if_pos hmore, hstored', hnumber', hseen', hfull, true_and]
    by_cases hk : k = 0
    · subst hk
      rcases Nat.lt_or_ge page.length cfg.size with hshort | hge
      · exact ⟨0, page.length, by omega, hshort, Or.inl (hpage ▸ hshort)⟩
      · refine ⟨1, 0, by omega, hsize, ?_⟩
        rcases Nat.lt_or_ge (pageRows src.issues cfg.size 1).length cfg.size with hnext1 | hnext1
        · exact Or.inl hnext1
        · obtain ⟨r, hr⟩ := List.exists_mem_of_length_pos (Nat.lt_of_lt_of_le hsize hnext1)
          have hdrop : r ∈ src.issues.drop (1 * cfg.size) := by
            rw [pageRows_eq] at hr; exact List.mem_of_mem_take hr
          refine Or.inr ⟨List.ne_nil_of_mem (List.mem_filter.2 ⟨by rw [List.drop_zero]; exact hr, ?_⟩), by omega⟩
          exact hasc.passes_drop (by omega) hdrop
    · have hmul := @size_le_mul cfg _ hk
      refine ⟨k, 0, by omega, hsize, Or.inr ⟨?_, hmul⟩⟩
      -- the first row that there was no room for
      obtain ⟨r, hr⟩ := List.exists_mem_of_length_pos (l := page.drop (cfg.maxIssues - k * cfg.size))
        (by rw [List.length_drop]; omega)
      have hdrop : r ∈ src.issues.drop cfg.maxIssues := by
        rw [hpage, pageRows_eq, List.drop_take, List.drop_drop] at hr
        have := List.mem_of_mem_take hr
        rwa [show k * cfg.size + (cfg.maxIssues - k * cfg.size) = cfg.maxIssues by omega] at this
      refine List.ne_nil_of_mem (List.mem_filter.2 ⟨?_, hasc.passes_drop (Nat.le_refl _) hdrop⟩)
      rw [List.drop_zero, ← hpage]
      exact List.mem_of_mem_drop hr
  · rw [decide_eq_false hover, Bool.false_or]
    rw [decide_eq_false hover] at hcut'
    by_cases hshort : page.length < cfg.size
    · -- the end of the listing: read again, its last page holds nothing new
      have hall : ready = src.issues.length := by omega
      have hfit : ¬ cfg.maxIssues < src.issues.length := by omega
      rw [if_neg (by omega)] at hnext
      rw [hnext, Option.isNone_none, if_pos rfl]
      refine ⟨by rw [hall, Nat.min_eq_right (by omega)], by rw [hcut', decide_eq_false hfit], ?_⟩
      rw [if_pos (Or.inr hshort)] at hseen'
      rw [hall, List.take_length] at hnumber'
      simp only [if_neg hfit, hseen', hnumber']
      by_cases hk : k = 0
      · subst hk
        refine ⟨0, page.length, by omega, hshort, hpage ▸ hshort, ?_⟩
        rw [rowsAt, ← hpage, List.drop_length]
        rfl
      · have hmul := @size_le_mul cfg _ hk
        exact ⟨k, 0, by omega, hsize, hpage ▸ hshort, rowsAt_last hasc hk hlength⟩
    · rw [if_pos (by omega)] at hnext
      rw [hnext, Option.isNone_some, if_neg Bool.false_ne_true]
      rw [if_neg (not_or.2 ⟨hover, hshort⟩)] at hseen'
      have hnextk : ready = (k + 1) * cfg.size := by rw [Nat.succ_mul]; omega
      refine ⟨⟨k + 1, hseen', ?_, ?_, ?_, ?_, hcut', Or.inl (by rw [hnextk])⟩, ?_⟩
      · rw [Nat.succ_mul]; omega
      · rw [Nat.succ_mul]; omega
      · rw [hstored', hnextk]
      · rw [hnumber', hnextk]
      · rw [hseen', hseen, Nat.succ_mul]; omega

end pages

/-! ## Commits -/

/-- Commits that no two share a name, and whose names are stored as they come. -/
structure Named (rows : List Commit) : Prop where
  nodup : (rows.map (·.sha)).Nodup
  clean : ∀ r ∈ rows, Text.strip r.sha = r.sha ∧ r.sha ≠ ""

theorem Named.sublist {rows rows' : List Commit} (h : Named rows) (hsub : rows'.Sublist rows) : Named rows' :=
  ⟨h.nodup.sublist (hsub.map _), fun r hr => h.clean r (hsub.subset hr)⟩

theorem upsertCommit_clean {r : Commit} (h : Text.strip r.sha = r.sha ∧ r.sha ≠ "") (table : List Commit) :
    upsertCommit table r =
      match table.find? (·.sha = r.sha) with
      | some found => table.replace found r
      | none => table ++ [r] := by
  cases hfound : table.find? (·.sha = r.sha) <;> simp only [upsertCommit, h.1, if_neg h.2, hfound]

theorem upsertCommit_cases {table : List Commit} {r : Commit} (hclean : Text.strip r.sha = r.sha ∧ r.sha ≠ "") :
    (∃ found ∈ table, found.sha = r.sha ∧ upsertCommit table r = table.replace found r) ∨
      (r.sha ∉ table.map (·.sha) ∧ upsertCommit table r = table ++ [r]) := by
  rw [upsertCommit_clean hclean]
  cases hfound : table.find? (·.sha = r.sha) with
  | some found =>
    have hsome := List.find?_some hfound
    exact Or.inl ⟨found, List.mem_of_find?_eq_some hfound, of_decide_eq_true hsome, rfl⟩
  | none =>
    refine Or.inr ⟨fun hmem => ?_, rfl⟩
    obtain ⟨x, hx, hsha⟩ := List.mem_map.1 hmem
    exact List.find?_eq_none.1 hfound x hx (decide_eq_true hsha)

/-- The upsert of commits: a commit stays until one of its name comes. -/
theorem upserts_commit :
    Upserts upsertCommit (fun table => (table.map (·.sha)).Nodup)
      (fun r => Text.strip r.sha = r.sha ∧ r.sha ≠ "") (fun table r => r ∈ table) fun r r' => r.sha ≠ r'.sha where
  stays := by
    intro table r hclean h
    rcases @upsertCommit_cases table _ hclean with ⟨found, hfound, hsha, heq⟩ | ⟨hnew, heq⟩
    · rw [heq]
      exact nodup_replace hfound h (Or.inl hsha.symm)
    · rw [heq, List.map_append, List.nodup_append]
      refine ⟨h, List.nodup_singleton _, fun a ha b hb => ?_⟩
      rw [List.map_singleton, List.mem_singleton] at hb
      rintro rfl
      rw [hb] at ha
      exact hnew ha
  stores := by
    intro table r hclean h
    rcases @upsertCommit_cases table _ hclean with ⟨found, hfound, -, heq⟩ | ⟨-, heq⟩
    · rw [heq]
      exact mem_replace hfound
    · rw [heq]
      exact List.mem_append_right _ (List.mem_singleton_self _)
  keeps := by
    intro table r r' hclean h hr hne
    rcases @upsertCommit_cases table _ hclean with ⟨found, hfound, hsha, heq⟩ | ⟨-, heq⟩
    · rw [heq]
      exact mem_replace_of_ne hfound hr fun hsame => hne (by rw [hsame, hsha])
    · rw [heq]
      exact List.mem_append_left _ hr
  same := by
    intro table r hclean h hr
    rcases @upsertCommit_cases table _ hclean with ⟨found, hfound, hsha, heq⟩ | ⟨hnew, -⟩
    · rw [heq, List.inj_on_of_nodup_map h hfound hr hsha]
      exact replace_self table _
    · exact absurd (List.mem_map_of_mem hr) hnew

theorem writtenCommits_named {rows : List Commit} (h : Named rows) : writtenCommits rows = rows.length := by
  rw [writtenCommits, List.filter_eq_self.2 fun r hr => ?_]
  rw [(h.clean r hr).1]
  simpa using (h.clean r hr).2

/-- The same history from both readers. -/
structure OneHistory (src : Source) : Prop where
  shas : src.gitCommits.map (·.sha) = src.apiCommits.map (·.sha)
  named : Named src.apiCommits

theorem OneHistory.named_git {src : Source} (h : OneHistory src) : Named src.gitCommits := by
  refine ⟨by rw [h.shas]; exact h.named.nodup, fun r hr => ?_⟩
  have hmem : r.sha ∈ src.apiCommits.map (·.sha) := by
    rw [← h.shas]; exact List.mem_map_of_mem hr
  obtain ⟨r', hr', hsha⟩ := List.mem_map.1 hmem
  have := h.named.clean r' hr'
  rwa [show r'.sha = r.sha from hsha] at this

/-- The rows of a page as far as there is room. -/
def cutTo (room : ℕ) (rows : List Commit) : List Commit := if room < rows.length then rows.take room else rows

/-- The rows of the `k`-th page of commits, from 0. -/
def commitPageRows (cfg : ImportConfig) (src : Source) (k : ℕ) : List Commit :=
  servePage src.apiCommits (k + 1) cfg.size

/-- What an undisturbed step reads at the `k`-th page: its rows, or behind the last of them the local copy. -/
def readAt (cfg : ImportConfig) (src : Source) (k : ℕ) : List Commit :=
  if k * cfg.size < src.apiCommits.length then commitPageRows cfg src k
  else gitLog src.gitCommits (cfg.maxCommits - k * cfg.size + 1)

def takenAt (cfg : ImportConfig) (src : Source) (k : ℕ) : List Commit :=
  cutTo (cfg.maxCommits - k * cfg.size) (readAt cfg src k)

def truncatedAt (cfg : ImportConfig) (src : Source) (k : ℕ) : Bool :=
  decide (cfg.maxCommits - k * cfg.size < (readAt cfg src k).length)

/-- Whether the forge says that there is a page after the `k`-th. -/
def nextAt (cfg : ImportConfig) (src : Source) (k : ℕ) : Bool := decide (cfg.size ≤ (commitPageRows cfg src k).length)

/-- Whether the walk ends at the `k`-th page. -/
def endsAt (cfg : ImportConfig) (src : Source) (k : ℕ) : Bool :=
  !nextAt cfg src k || truncatedAt cfg src k ||
    decide (cfg.maxCommits ≤ k * cfg.size + (takenAt cfg src k).length)

/-- Whether the walk that ends at the `k`-th page marks the mirror as cut. -/
def markAt (cfg : ImportConfig) (src : Source) (k : ℕ) : Bool := truncatedAt cfg src k || nextAt cfg src k

/-- The rows with the first `n` commits stored. -/
def commitTable (old : Tables) (src : Source) (n : ℕ) : List Commit :=
  (src.apiCommits.take n).foldl upsertCommit old.commits

/-- The rows that an undisturbed walk has after the `k`-th page. -/
def commitsAfter (old : Tables) (cfg : ImportConfig) (src : Source) (k : ℕ) : List Commit :=
  (takenAt cfg src k).foldl upsertCommit (commitTable old src (k * cfg.size))

/-- The cursor stands before a page that an undisturbed walk reaches; its rows may be there already. -/
def Walking (old : Tables) (cfg : ImportConfig) (src : Source) (k : ℕ) (c : Cursor) (table : List Commit) : Prop :=
  c.commitsSeen = k * cfg.size ∧ max 1 c.commitPage = k + 1 ∧ (∀ j < k, endsAt cfg src j = false) ∧
    (table = commitTable old src (k * cfg.size) ∨ table = commitsAfter old cfg src k)

/-- The commits and the mark that an undisturbed walk ends with. -/
def Walked (old : Tables) (cfg : ImportConfig) (src : Source) (table : List Commit) (marked : Bool) : Prop :=
  ∃ k, endsAt cfg src k = true ∧ (∀ j < k, endsAt cfg src j = false) ∧ table = commitsAfter old cfg src k ∧
    marked = markAt cfg src k

theorem Walked.unique {table table' : List Commit} {marked marked' : Bool} (h : Walked old cfg src table marked)
    (h' : Walked old cfg src table' marked') : table = table' ∧ marked = marked' := by
  obtain ⟨k, hends, hbefore, rfl, rfl⟩ := h
  obtain ⟨k', hends', hbefore', rfl, rfl⟩ := h'
  rcases Nat.lt_trichotomy k k' with hlt | rfl | hlt
  · rw [hbefore' k hlt] at hends; cases hends
  · exact ⟨rfl, rfl⟩
  · rw [hbefore k' hlt] at hends'; cases hends'

section walk

variable {k : ℕ}

theorem commitPageRows_eq (k : ℕ) :
    commitPageRows cfg src k = (src.apiCommits.drop (k * cfg.size)).take cfg.size := by
  rw [commitPageRows, servePage, Nat.add_sub_cancel]

theorem commitPageRows_nil (h : src.apiCommits.length ≤ k * cfg.size) : commitPageRows cfg src k = [] := by
  rw [commitPageRows_eq, List.drop_eq_nil_of_le h, List.take_nil]

theorem commitPageRows_ne_nil (h : k * cfg.size < src.apiCommits.length) : commitPageRows cfg src k ≠ [] := by
  have hsize := size_pos cfg
  have hlength : (commitPageRows cfg src k).length ≠ 0 := by
    rw [commitPageRows_eq, List.length_take, List.length_drop]
    omega
  exact fun hnil => hlength (by rw [hnil]; rfl)

theorem nextAt_nil (h : commitPageRows cfg src k = []) : nextAt cfg src k = false := by
  have hsize := size_pos cfg
  rw [nextAt, h, decide_eq_false_iff_not, List.length_nil]
  omega

theorem readAt_nil (h : src.apiCommits.length ≤ k * cfg.size) :
    readAt cfg src k = gitLog src.gitCommits (cfg.maxCommits - k * cfg.size + 1) := by
  rw [readAt, if_neg (Nat.not_lt.2 h)]

theorem readAt_full (h : nextAt cfg src k = true) : readAt cfg src k = commitPageRows cfg src k := by
  have hsize := size_pos cfg
  rw [nextAt, decide_eq_true_eq, commitPageRows_eq, List.length_take, List.length_drop] at h
  rw [readAt, if_pos (by omega)]

theorem named_takenAt (h : OneHistory src) (k : ℕ) : Named (takenAt cfg src k) := by
  have hread : Named (readAt cfg src k) := by
    unfold readAt
    split
    · rw [commitPageRows_eq]
      exact h.named.sublist ((List.take_sublist ..).trans (List.drop_sublist ..))
    · exact h.named_git.sublist (List.take_sublist ..)
  rw [takenAt, cutTo]
  split
  · exact hread.sublist (List.take_sublist ..)
  · exact hread

/-- With the rows there already or not, a page leaves the same rows. -/
theorem Walking.stored {c : Cursor} {table : List Commit} (hone : OneHistory src) (h : Walking old cfg src k c table) :
    (takenAt cfg src k).foldl upsertCommit table = commitsAfter old cfg src k := by
  obtain ⟨-, -, -, rfl | rfl⟩ := h
  · rfl
  · refine upserts_commit.foldl_twice (named_takenAt hone k).clean (List.pairwise_map.1 (named_takenAt hone k).nodup) ?_
    exact upserts_commit.foldl_good (hone.named.sublist (List.take_sublist ..)).clean old.distinctCommits

/-- A page that does not end the walk is full and taken whole. -/
theorem takenAt_of_next (h : endsAt cfg src k = false) :
    takenAt cfg src k = commitPageRows cfg src k ∧ (takenAt cfg src k).length = cfg.size := by
  simp only [endsAt, Bool.or_eq_false_iff, Bool.not_eq_false'] at h
  obtain ⟨⟨hnext, htruncated⟩, -⟩ := h
  have htaken : takenAt cfg src k = commitPageRows cfg src k := by
    rw [truncatedAt, decide_eq_false_iff_not] at htruncated
    rw [takenAt, cutTo, if_neg htruncated, readAt_full hnext]
  rw [nextAt, decide_eq_true_eq] at hnext
  have : (commitPageRows cfg src k).length ≤ cfg.size := List.length_take_le ..
  refine ⟨htaken, ?_⟩
  rw [htaken]
  omega

/-- A page that does not end the walk is stored whole. -/
theorem commitsAfter_of_next (h : endsAt cfg src k = false) :
    (takenAt cfg src k).length = cfg.size ∧ commitsAfter old cfg src k = commitTable old src ((k + 1) * cfg.size) := by
  obtain ⟨htaken, hlength⟩ := takenAt_of_next h
  have hsplit : src.apiCommits.take ((k + 1) * cfg.size) =
      src.apiCommits.take (k * cfg.size) ++ commitPageRows cfg src k := by
    rw [commitPageRows_eq, Nat.succ_mul, List.take_add]
  refine ⟨hlength, ?_⟩
  rw [commitsAfter, htaken, commitTable, commitTable, hsplit, List.foldl_append]

/-- Before the end of the walk the pages are full. -/
theorem le_length_of_walking (hbefore : ∀ j < k, endsAt cfg src j = false) :
    k * cfg.size ≤ src.apiCommits.length := by
  cases k with
  | zero => rw [Nat.zero_mul]; exact Nat.zero_le _
  | succ k =>
    have h := hbefore k (Nat.lt_succ_self k)
    simp only [endsAt, Bool.or_eq_false_iff, Bool.not_eq_false'] at h
    have hnext := h.1.1
    have hsize := size_pos cfg
    rw [nextAt, decide_eq_true_eq, commitPageRows_eq, List.length_take, List.length_drop] at hnext
    rw [Nat.succ_mul]
    omega

end walk

end OpenFish.Import
