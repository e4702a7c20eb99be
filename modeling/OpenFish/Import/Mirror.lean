/-
Issues in `services/repo_import.py`: a page of the forge's listing as `stream_issues` hands it out, the
upsert into `repo_issues`, and what one page does to a job's cursor.
-/
import OpenFish.Import.Jobs
import OpenFish.Lib.Upsert

namespace OpenFish.Import

open Lib

/-! ## Issues -/

/-- The texts of an issue, which are stored as they come. -/
structure IssueText where
  title : String
  body : String
  state : String
  author : String
  labels : List String
  milestone : Option String
  url : Option String
  deriving DecidableEq, Repr

/-- An issue or pull request as the forge lists it. -/
structure SourceIssue where
  id : ℕ
  number : ℕ
  isPullRequest : Bool
  text : IssueText
  deriving DecidableEq, Repr

/-- What `normalize_issue` makes of a listed row, and a row of `repo_issues`. -/
structure Issue where
  number : ℕ
  isPullRequest : Bool
  text : IssueText
  sourceId : String
  deriving DecidableEq, Repr

def normalizeIssue (row : SourceIssue) : Issue where
  number := row.number
  isPullRequest := row.isPullRequest
  text := row.text
  sourceId := toString row.id

/-- One page of issues and pull requests. -/
structure IssuePage where
  items : List Issue
  nextOffset : Option ℕ
  deriving DecidableEq, Repr

/-- The page of a listing that the forge serves; pages count from 1. -/
def servePage {α : Type} (listing : List α) (page perPage : ℕ) : List α :=
  (listing.drop ((page - 1) * perPage)).take perPage

def pageSize (perPage : ℕ) : ℕ := max 1 (min perPage 100)

def streamIssues (listing : List SourceIssue) (afterNumber offset perPage : ℕ) : IssuePage :=
  let size := pageSize perPage
  let rows := servePage listing (offset / size + 1) size
  -- the rows of the page that stand before a mid-page offset are dropped
  let items := (rows.map normalizeIssue).drop (offset % size)
  let items := if afterNumber = 0 then items else items.filter (afterNumber < ·.number)
  { items, nextOffset := if size ≤ rows.length then some (offset + items.length) else none }

/-! ## The upsert -/

/-- The key of a row: its source id, or its number where it has none. -/
def issueKey (row : Issue) : String :=
  Text.strip (if row.sourceId = "" then (if row.number = 0 then "" else toString row.number) else row.sourceId)

/-- A row as it is stored. -/
def storedIssue (row : Issue) : Issue :=
  { row with sourceId := if issueKey row = "" then toString row.number else issueKey row }

/-- The row that an upsert updates: the one of the key, else the one of the number. -/
def existingIssue (table : List Issue) (row : Issue) : Option Issue :=
  match if issueKey row = "" then none else table.find? (·.sourceId = issueKey row) with
  | some found => some found
  | none => if row.number = 0 then none else table.find? (·.number = row.number)

/-- The body of `_upsert_issues`: a row that is there is updated, never added again. -/
def upsertIssue (table : List Issue) (row : Issue) : List Issue :=
  match existingIssue table row with
  | some found => table.replace found (storedIssue row)
  | none => table ++ [storedIssue row]

/-! ### Rows of a listing -/

theorem toString_ne_empty (n : ℕ) : toString n ≠ "" := Nat.repr_ne_empty

theorem toString_inj {m n : ℕ} (h : toString m = toString n) : m = n := by
  have h' := congrArg String.toList h
  rw [Nat.toString_eq_repr, Nat.toString_eq_repr, Nat.toList_repr, Nat.toList_repr] at h'
  rw [← Nat.ofDigitChars_toDigits (b := 10) (n := m) (by omega) (by omega), h',
    Nat.ofDigitChars_toDigits (by omega) (by omega)]

@[simp] theorem issueKey_normalizeIssue (r : SourceIssue) : issueKey (normalizeIssue r) = toString r.id := by
  have hne : (normalizeIssue r).sourceId ≠ "" := toString_ne_empty r.id
  rw [issueKey, if_neg hne]
  exact Text.strip_toString r.id

@[simp] theorem storedIssue_normalizeIssue (r : SourceIssue) : storedIssue (normalizeIssue r) = normalizeIssue r := by
  rw [storedIssue, issueKey_normalizeIssue, if_neg (toString_ne_empty r.id)]
  rfl

theorem normalizeIssue_injective : Function.Injective normalizeIssue := by
  intro r r' h
  obtain ⟨id, number, isPullRequest, text⟩ := r
  obtain ⟨id', number', isPullRequest', text'⟩ := r'
  simp only [normalizeIssue, Issue.mk.injEq] at h
  obtain ⟨rfl, rfl, rfl, hid⟩ := h
  rw [toString_inj hid]

/-- A listing in which no two rows share an id or a number. -/
structure DistinctRows (rows : List SourceIssue) : Prop where
  ids : (rows.map (·.id)).Nodup
  numbers : (rows.map (·.number)).Nodup

theorem DistinctRows.sublist {rows rows' : List SourceIssue} (h : DistinctRows rows) (hsub : rows'.Sublist rows) :
    DistinctRows rows' :=
  ⟨h.ids.sublist (hsub.map _), h.numbers.sublist (hsub.map _)⟩

theorem DistinctRows.nodup {rows : List SourceIssue} (h : DistinctRows rows) : rows.Nodup := h.ids.of_map _

/-- A row that is new is added. -/
theorem upsertIssue_new {rows : List SourceIssue} {r : SourceIssue} (h : DistinctRows (rows ++ [r])) :
    upsertIssue (rows.map normalizeIssue) (normalizeIssue r) = (rows ++ [r]).map normalizeIssue := by
  have hid : ∀ r' ∈ rows, r'.id ≠ r.id := fun r' hr' heq =>
    (List.nodup_append.1 (List.map_append .. ▸ h.ids)).2.2 r'.id (List.mem_map_of_mem hr') r.id (by simp) heq
  have hnumber : ∀ r' ∈ rows, r'.number ≠ r.number := fun r' hr' heq =>
    (List.nodup_append.1 (List.map_append .. ▸ h.numbers)).2.2 r'.number (List.mem_map_of_mem hr') r.number (by simp) heq
  have hkey : (rows.map normalizeIssue).find? (·.sourceId = toString r.id) = none := by
    rw [List.find?_eq_none]
    intro x hx
    obtain ⟨r', hr', rfl⟩ := List.mem_map.1 hx
    simpa [normalizeIssue] using fun heq => hid r' hr' (toString_inj heq)
  have hnum : (rows.map normalizeIssue).find? (·.number = r.number) = none := by
    rw [List.find?_eq_none]
    intro x hx
    obtain ⟨r', hr', rfl⟩ := List.mem_map.1 hx
    simpa [normalizeIssue] using hnumber r' hr'
  have hexisting : existingIssue (rows.map normalizeIssue) (normalizeIssue r) = none := by
    have hnum' : (rows.map normalizeIssue).find? (·.number = (normalizeIssue r).number) = none := hnum
    rw [existingIssue, issueKey_normalizeIssue, if_neg (toString_ne_empty r.id), hkey]
    dsimp only
    rw [hnum', ite_self]
  rw [upsertIssue, hexisting, storedIssue_normalizeIssue, List.map_append]
  rfl

/-- Rows that are new are added in order. -/
theorem upsert_new {rows more : List SourceIssue} (h : DistinctRows (rows ++ more)) :
    (more.map normalizeIssue).foldl upsertIssue (rows.map normalizeIssue) = (rows ++ more).map normalizeIssue := by
  induction more generalizing rows with
  | nil => rw [List.append_nil]; rfl
  | cons r more ih =>
    rw [List.append_cons] at h ⊢
    rw [List.map_cons, List.foldl_cons, upsertIssue_new (h.sublist (List.sublist_append_left ..)), ih h]

/-- Keys of the table are distinct: `uq_repo_issues_repo_source`. -/
def DistinctKeys (table : List Issue) : Prop := (table.map (·.sourceId)).Nodup

/-- A listed row takes the place of the row of its id, else of one of its number, else is added. -/
theorem upsertIssue_cases (table : List Issue) (r : SourceIssue) :
    (∃ found ∈ table, (found.sourceId = toString r.id ∨ found.number = r.number ∧ toString r.id ∉ table.map (·.sourceId)) ∧
        upsertIssue table (normalizeIssue r) = table.replace found (normalizeIssue r)) ∨
      (toString r.id ∉ table.map (·.sourceId) ∧ upsertIssue table (normalizeIssue r) = table ++ [normalizeIssue r]) := by
  have hunfold : upsertIssue table (normalizeIssue r) =
      match existingIssue table (normalizeIssue r) with
      | some found => table.replace found (normalizeIssue r)
      | none => table ++ [normalizeIssue r] := by
    rw [upsertIssue, storedIssue_normalizeIssue]
  rw [hunfold, existingIssue, issueKey_normalizeIssue, if_neg (toString_ne_empty r.id)]
  cases hfound : table.find? (·.sourceId = toString r.id) with
  | some found =>
    have hsome := List.find?_some hfound
    exact Or.inl ⟨found, List.mem_of_find?_eq_some hfound, Or.inl (of_decide_eq_true hsome), rfl⟩
  | none =>
    have hnew : toString r.id ∉ table.map (·.sourceId) := by
      intro hmem
      obtain ⟨x, hx, hid⟩ := List.mem_map.1 hmem
      exact List.find?_eq_none.1 hfound x hx (decide_eq_true hid)
    dsimp only
    split
    next hnumber =>
      split at hnumber
      · cases hnumber
      · rename_i found _
        have hsome := List.find?_some hnumber
        exact Or.inl ⟨found, List.mem_of_find?_eq_some hnumber, Or.inr ⟨of_decide_eq_true hsome, hnew⟩, rfl⟩
    next => exact Or.inr ⟨hnew, rfl⟩

/-- The upsert of listed rows into a table that may hold other rows: a row stays until one of its id or of its
number comes. -/
theorem upserts_issue :
    Upserts (fun table r => upsertIssue table (normalizeIssue r)) DistinctKeys (fun _ => True)
      (fun table r => normalizeIssue r ∈ table) fun r r' => r.id ≠ r'.id ∧ r.number ≠ r'.number where
  stays := by
    intro table r _ h
    rcases upsertIssue_cases table r with ⟨found, hfound, hkey, heq⟩ | ⟨hnew, heq⟩
    · rw [heq]
      exact nodup_replace hfound h (hkey.imp Eq.symm (·.2))
    · rw [heq, DistinctKeys, List.map_append, List.nodup_append]
      refine ⟨h, List.nodup_singleton _, fun a ha b hb => ?_⟩
      rw [List.map_singleton, List.mem_singleton] at hb
      rintro rfl
      rw [hb] at ha
      exact hnew ha
  stores := by
    intro table r _ h
    rcases upsertIssue_cases table r with ⟨found, hfound, -, heq⟩ | ⟨-, heq⟩
    · rw [heq]
      exact mem_replace hfound
    · rw [heq]
      exact List.mem_append_right _ (List.mem_singleton_self _)
  keeps := by
    intro table r r' _ h hr hne
    rcases upsertIssue_cases table r' with ⟨found, hfound, hkey, heq⟩ | ⟨-, heq⟩
    · rw [heq]
      refine mem_replace_of_ne hfound hr fun hsame => ?_
      rw [← hsame] at hkey
      rcases hkey with hid | ⟨hnumber, -⟩
      · exact hne.1 (toString_inj hid)
      · exact hne.2 hnumber
    · rw [heq]
      exact List.mem_append_left _ hr
  same := by
    intro table r _ h hr
    rcases upsertIssue_cases table r with ⟨found, hfound, hkey, heq⟩ | ⟨hnew, -⟩
    · have hid : found.sourceId = (normalizeIssue r).sourceId := by
        rcases hkey with hid | ⟨-, hnew⟩
        · exact hid
        · exact absurd (List.mem_map_of_mem hr) hnew
      rw [heq, List.inj_on_of_nodup_map h hfound hr hid]
      exact replace_self table _
    · exact absurd (List.mem_map_of_mem hr) hnew

/-! ## One page and the cursor -/

def Cursor.includesPrs (c : Cursor) : Bool := c.extras.includePrs.getD true

/-- The rows stored so far, as far as the ceiling counts them. -/
def Cursor.stored (c : Cursor) : ℕ := c.extras.issuesStored.getD c.issuesSeen

/-- The rows of a page that belong into the mirror. -/
def includedRows (c : Cursor) (page : IssuePage) : List Issue :=
  page.items.filter fun row => c.includesPrs || !row.isPullRequest

def Cursor.room (maxIssues : ℕ) (c : Cursor) : ℕ := maxIssues - c.stored

/-- Whether the page holds more rows than the ceiling leaves room for. -/
def truncates (maxIssues : ℕ) (c : Cursor) (page : IssuePage) : Bool :=
  c.room maxIssues < (includedRows c page).length

/-- The rows of the page that are stored. -/
def rowsTaken (maxIssues : ℕ) (c : Cursor) (page : IssuePage) : List Issue :=
  if truncates maxIssues c page then (includedRows c page).take (c.room maxIssues) else includedRows c page

/-- The largest number among rows. -/
def maxNumber (rows : List Issue) : ℕ := (rows.map (·.number)).foldr max 0

/-- The cursor after a page, still in its phase. -/
def Cursor.afterIssues (maxIssues : ℕ) (c : Cursor) (page : IssuePage) : Cursor :=
  let taken := rowsTaken maxIssues c page
  let consumed := if truncates maxIssues c page then page.items.length else page.nextOffset.getD 0
  { c with
    isPartial := c.isPartial || truncates maxIssues c page
    issuesSeen := max c.issuesSeen (if consumed = 0 then page.items.length else consumed)
    extras := { c.extras with issuesStored := some (c.stored + taken.length) }
    issueNumber := max c.issueNumber (maxNumber taken) }

end OpenFish.Import
