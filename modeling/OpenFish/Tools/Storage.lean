/-
What the object store holds and what the rows name. Whatever the operations, every row has its bytes; the store holds
nothing else exactly as long as no upload overwrites a path and no import is refused the row of bytes it has stored.
-/
import OpenFish.Tools.Catalog

namespace OpenFish.Tools

open Lib

/-! ## What the claim is about -/

/-- A row names this object. -/
def Names (c : Catalog) (key : Nat) : Prop := ∃ path row, c.rows.get? path = some row ∧ row.storageKey = key

/-- The object of a row has the size and the digest that the row records. -/
structure Describes (h : Host) (row : CatalogEntry) (data : Bytes) : Prop where
  size : row.size = data.length
  sha256 : row.sha256 = some (h.sha256 data)

/-- The store holds the objects that the rows name, no others, and each is as its row records. -/
structure Exact (h : Host) (c : Catalog) : Prop where
  keys : ∀ key, (c.objects.get? key).isSome = true ↔ Names c key
  bytes : ∀ path row data, c.rows.get? path = some row → c.objects.get? row.storageKey = some data → Describes h row data

/-- An upload that is accepted over what is there. -/
def Overwrites (s : Settings) (u : Upload) (c : Catalog) : Prop :=
  s.allowsOverwrite = true ∧ u.body ≠ [] ∧ u.body.length ≤ s.maxContentLength ∧
    ∃ filename path, u.filename = some filename ∧ filename ≠ "" ∧
      toolsPath filename (Text.strip (u.category.getD "")) = .ok path ∧ (find c path).isSome = true

/-- A file that an import stores and whose row the database then refuses. -/
def Refused (h : Host) (overlay : Json) (file : SourceFile) (c : Catalog) : Prop :=
  ∃ data fields modified, file.content = .ok data ∧ metadataOf h overlay file.path = .ok fields ∧
    file.mtime = .ok modified ∧ (find c file.path).any (isUnchanged h file.path data fields) = false ∧
      (h.refuses fields).isSome = true

/-- A file that ends an import: it is read, and its overlay is not what it should be. -/
def ends (h : Host) (overlay : Json) (file : SourceFile) : Bool :=
  file.content.isOk && !(metadataOf h overlay file.path).isOk

/-- The files that an import comes to. -/
def reached (h : Host) (tree : SourceTree) : List SourceFile :=
  if ((tree.directories.filter visible).mapM (categoryMeta tree.overlay)).isOk then
    tree.seen.takeWhile fun file => !ends h tree.overlay file
  else []

/-- No upload overwrites a path, and no import is refused a row. -/
def LeavesNothing (h : Host) (s : Settings) (c : Catalog) : Op → Prop
  | .upload u => ¬ Overwrites s u c
  | .importTree a => a.dryRun = false → ∀ tree, a.source = some tree → ∀ file ∈ reached h tree, ¬ Refused h tree.overlay file c
  | .delete _ => True

/-! ## What holds in every run -/

/-- Every row has an object of its own, which is as the row records; keys to come are new. -/
structure Backed (h : Host) (c : Catalog) : Prop where
  bytes : ∀ path row, c.rows.get? path = some row → ∃ data, c.objects.get? row.storageKey = some data ∧ Describes h row data
  apart : ∀ path path' row row', c.rows.get? path = some row → c.rows.get? path' = some row' →
    row.storageKey = row'.storageKey → path = path'
  fresh : ∀ key data, c.objects.get? key = some data → key < c.next

/-- Every object is named by a row. -/
def Named (c : Catalog) : Prop := ∀ key data, c.objects.get? key = some data → Names c key

theorem exact_iff_named {h : Host} {c : Catalog} (hb : Backed h c) : Exact h c ↔ Named c := by
  constructor
  · exact fun he key data hkey => (he.keys key).1 (Option.isSome_iff_exists.2 ⟨data, hkey⟩)
  · intro hn
    refine ⟨fun key => ⟨fun hkey => ?_, ?_⟩, fun path row data hrow hdata => ?_⟩
    · obtain ⟨data, hdata⟩ := Option.isSome_iff_exists.1 hkey
      exact hn key data hdata
    · rintro ⟨path, row, hrow, rfl⟩
      obtain ⟨data, hdata, -⟩ := hb.bytes path row hrow
      exact Option.isSome_iff_exists.2 ⟨data, hdata⟩
    · obtain ⟨data', hdata', hdesc⟩ := hb.bytes path row hrow
      rw [hdata] at hdata'
      cases hdata'
      exact hdesc

/-- A key to come is named by no row. -/
theorem Backed.lt_next {h : Host} {c : Catalog} (hb : Backed h c) {path : String} {row : CatalogEntry}
    (hrow : c.rows.get? path = some row) : row.storageKey < c.next := by
  obtain ⟨data, hdata, -⟩ := hb.bytes path row hrow
  exact hb.fresh _ _ hdata

/-! ## The steps they are made of -/

/-- An object that gets no row. -/
theorem Backed.put {h : Host} {c : Catalog} (hb : Backed h c) (data : Bytes) : Backed h (put c data) := by
  refine ⟨fun path row hrow => ?_, hb.apart, fun key data' hkey => ?_⟩
  · obtain ⟨data', hdata', hdesc⟩ := hb.bytes path row hrow
    refine ⟨data', ?_, hdesc⟩
    show (c.objects.set c.next data).get? row.storageKey = _
    rw [Dict.get?_set, if_neg (Nat.ne_of_lt (hb.lt_next hrow))]
    exact hdata'
  · show key < c.next + 1
    have hset : (c.objects.set c.next data).get? key = some data' := hkey
    rw [Dict.get?_set] at hset
    split at hset
    · omega
    · have := hb.fresh key data' hset
      omega

theorem Backed.not_named_put {h : Host} {c : Catalog} (hb : Backed h c) (data : Bytes) : ¬ Named (Tools.put c data) := by
  intro hn
  have hset : (c.objects.set c.next data).get? c.next = some data := by rw [Dict.get?_set, if_pos rfl]
  obtain ⟨path, row, hrow, hkey⟩ := hn c.next data hset
  exact absurd hkey (Nat.ne_of_lt (hb.lt_next hrow))

/-- An object and the row that names it, over whatever row was there. -/
def record (c : Catalog) (data : Bytes) (path : String) (row : CatalogEntry) : Catalog :=
  { put c data with rows := c.rows.set path row }

/-- An object goes. -/
def drop (c : Catalog) (key : Nat) : Catalog := { c with objects := c.objects.erase key }

theorem Backed.record {h : Host} {c : Catalog} (hb : Backed h c) {data : Bytes} {path : String} {row : CatalogEntry}
    (hkey : row.storageKey = c.next) (hdesc : Describes h row data) : Backed h (record c data path row) := by
  have hput := hb.put data
  refine ⟨fun path' row' hrow' => ?_, fun path₁ path₂ row₁ row₂ h₁ h₂ heq => ?_, hput.fresh⟩
  · have hset : (c.rows.set path row).get? path' = some row' := hrow'
    rw [Dict.get?_set] at hset
    split at hset
    · cases hset
      refine ⟨data, ?_, hdesc⟩
      show (c.objects.set c.next data).get? row.storageKey = _
      rw [Dict.get?_set, if_pos hkey]
    · exact hput.bytes path' row' hset
  · have hset₁ : (c.rows.set path row).get? path₁ = some row₁ := h₁
    have hset₂ : (c.rows.set path row).get? path₂ = some row₂ := h₂
    rw [Dict.get?_set] at hset₁ hset₂
    split at hset₁ <;> split at hset₂
    · rename_i h₁ h₂
      exact h₁.trans h₂.symm
    · cases hset₁
      have := hb.lt_next hset₂
      omega
    · cases hset₂
      have := hb.lt_next hset₁
      omega
    · exact hb.apart path₁ path₂ row₁ row₂ hset₁ hset₂ heq

/-- What a recorded row names: the new object, or what another row named. -/
theorem names_record {c : Catalog} (data : Bytes) (path : String) {row : CatalogEntry} (hkey : row.storageKey = c.next)
    {key : Nat} : Names (record c data path row) key ↔
      key = c.next ∨ ∃ path' row', path' ≠ path ∧ c.rows.get? path' = some row' ∧ row'.storageKey = key := by
  constructor
  · rintro ⟨path', row', hrow', rfl⟩
    have hset : (c.rows.set path row).get? path' = some row' := hrow'
    rw [Dict.get?_set] at hset
    split at hset
    · cases hset
      exact .inl hkey
    · rename_i hne
      exact .inr ⟨path', row', hne, hset, rfl⟩
  · rintro (rfl | ⟨path', row', hne, hrow', rfl⟩)
    · refine ⟨path, row, ?_, hkey⟩
      show (c.rows.set path row).get? path = _
      rw [Dict.get?_set, if_pos rfl]
    · refine ⟨path', row', ?_, rfl⟩
      show (c.rows.set path row).get? path' = _
      rw [Dict.get?_set, if_neg hne]
      exact hrow'

/-- A recorded row over another leaves the other's object behind. -/
theorem Backed.named_record {h : Host} {c : Catalog} (hb : Backed h c) {data : Bytes} {path : String} {row : CatalogEntry}
    (hkey : row.storageKey = c.next) : Named (Tools.record c data path row) ↔ Named c ∧ c.rows.get? path = none := by
  have hold {key : Nat} {data' : Bytes} (hdata' : c.objects.get? key = some data') :
      (c.objects.set c.next data).get? key = some data' := by
    rw [Dict.get?_set, if_neg (Nat.ne_of_lt (hb.fresh key data' hdata'))]
    exact hdata'
  constructor
  · intro hn
    have hother {key : Nat} {data' : Bytes} (hdata' : c.objects.get? key = some data') :
        ∃ path' row', path' ≠ path ∧ c.rows.get? path' = some row' ∧ row'.storageKey = key := by
      rcases (names_record data path hkey).1 (hn key data' (hold hdata')) with rfl | hother
      · exact absurd (hb.fresh _ _ hdata') (Nat.lt_irrefl _)
      · exact hother
    refine ⟨fun key data' hdata' => ?_, ?_⟩
    · obtain ⟨path', row', -, hrow', heq⟩ := hother hdata'
      exact ⟨path', row', hrow', heq⟩
    · cases hrow : c.rows.get? path with
      | none => rfl
      | some old =>
        -- its object would be another row's
        obtain ⟨data', hdata', -⟩ := hb.bytes path old hrow
        obtain ⟨path', row', hne, hrow', heq⟩ := hother hdata'
        exact absurd (hb.apart path' path row' old hrow' hrow heq) hne
  · rintro ⟨hn, hnone⟩ key data' hdata'
    refine (names_record data path hkey).2 ?_
    have hset : (c.objects.set c.next data).get? key = some data' := hdata'
    rw [Dict.get?_set] at hset
    split at hset
    · exact .inl (by assumption)
    · obtain ⟨path', row', hrow', heq⟩ := hn key data' hset
      refine .inr ⟨path', row', fun hpath => ?_, hrow', heq⟩
      rw [hpath, hnone] at hrow'
      cases hrow'

theorem Backed.drop {h : Host} {c : Catalog} (hb : Backed h c) {key : Nat} (hkey : ¬ Names c key) :
    Backed h (drop c key) := by
  refine ⟨fun path row hrow => ?_, hb.apart, fun key' data hdata => ?_⟩
  · obtain ⟨data, hdata, hdesc⟩ := hb.bytes path row hrow
    refine ⟨data, ?_, hdesc⟩
    show (c.objects.erase key).get? row.storageKey = _
    rw [Dict.get?_erase, if_neg fun heq => hkey ⟨path, row, hrow, heq⟩]
    exact hdata
  · have herase : (c.objects.erase key).get? key' = some data := hdata
    rw [Dict.get?_erase] at herase
    split at herase
    · cases herase
    · exact hb.fresh key' data herase

/-- Once another row is recorded in its place, a row's object is named no more. -/
theorem Backed.not_names_record {h : Host} {c : Catalog} (hb : Backed h c) {data : Bytes} {path : String}
    {row old : CatalogEntry} (hkey : row.storageKey = c.next) (hold : c.rows.get? path = some old) :
    ¬ Names (Tools.record c data path row) old.storageKey := by
  intro hn
  rcases (names_record data path hkey).1 hn with heq | ⟨path', row', hne, hrow', heq⟩
  · exact absurd heq (Nat.ne_of_lt (hb.lt_next hold))
  · exact hne (hb.apart path' path row' old hrow' hold heq)

/-- A row recorded over another, whose object goes, leaves nothing behind. -/
theorem Backed.named_replace {h : Host} {c : Catalog} (hb : Backed h c) {data : Bytes} {path : String}
    {row old : CatalogEntry} (hkey : row.storageKey = c.next) (hold : c.rows.get? path = some old) :
    Named (Tools.drop (Tools.record c data path row) old.storageKey) ↔ Named c := by
  have hget (key : Nat) : (Tools.drop (Tools.record c data path row) old.storageKey).objects.get? key =
      if key = old.storageKey then none else if key = c.next then some data else c.objects.get? key := by
    show ((c.objects.set c.next data).erase old.storageKey).get? key = _
    rw [Dict.get?_erase, Dict.get?_set]
  constructor
  · intro hn key data' hdata'
    by_cases heq : key = old.storageKey
    · exact ⟨path, old, hold, heq.symm⟩
    · have hlt := hb.fresh key data' hdata'
      have hstill : (Tools.drop (Tools.record c data path row) old.storageKey).objects.get? key = some data' := by
        rw [hget, if_neg heq, if_neg (Nat.ne_of_lt hlt)]
        exact hdata'
      rcases (names_record data path hkey).1 (hn key data' hstill) with hnext | ⟨path', row', -, hrow', hkey'⟩
      · omega
      · exact ⟨path', row', hrow', hkey'⟩
  · intro hn key data' hdata'
    rw [hget] at hdata'
    refine (names_record data path hkey).2 ?_
    split at hdata'
    · cases hdata'
    · rename_i hne
      split at hdata'
      · exact .inl (by assumption)
      · obtain ⟨path', row', hrow', hkey'⟩ := hn key data' hdata'
        refine .inr ⟨path', row', fun hpath => hne ?_, hrow', hkey'⟩
        rw [hpath, hold] at hrow'
        cases hrow'
        exact hkey'.symm

/-! ## Deletions -/

theorem deleteEntry_spec {h : Host} {c : Catalog} (hb : Backed h c) (path : String) :
    Backed h (deleteEntry path c).2 ∧ (Named (deleteEntry path c).2 ↔ Named c) := by
  unfold deleteEntry
  cases hrow : find c path with
  | none => exact ⟨hb, Iff.rfl⟩
  | some old =>
    -- the rows that are left
    have hleft {path' : String} {row : CatalogEntry} (hrow' : (c.rows.erase (stripSlashes path)).get? path' = some row) :
        path' ≠ stripSlashes path ∧ c.rows.get? path' = some row := by
      rw [Dict.get?_erase] at hrow'
      split at hrow'
      · cases hrow'
      · exact ⟨by assumption, hrow'⟩
    -- none of them has the object that goes
    have hother {path' : String} {row : CatalogEntry} (hrow' : (c.rows.erase (stripSlashes path)).get? path' = some row) :
        row.storageKey ≠ old.storageKey :=
      fun heq => (hleft hrow').1 (hb.apart path' (stripSlashes path) row old (hleft hrow').2 hrow heq)
    constructor
    · refine ⟨fun path' row hrow' => ?_, fun path₁ path₂ row₁ row₂ h₁ h₂ => ?_, fun key data hdata => ?_⟩
      · obtain ⟨data, hdata, hdesc⟩ := hb.bytes path' row (hleft hrow').2
        refine ⟨data, ?_, hdesc⟩
        show (c.objects.erase old.storageKey).get? row.storageKey = _
        rw [Dict.get?_erase, if_neg (hother hrow')]
        exact hdata
      · exact hb.apart path₁ path₂ row₁ row₂ (hleft h₁).2 (hleft h₂).2
      · have herase : (c.objects.erase old.storageKey).get? key = some data := hdata
        rw [Dict.get?_erase] at herase
        split at herase
        · cases herase
        · exact hb.fresh key data herase
    · constructor
      · intro hn key data hdata
        by_cases heq : key = old.storageKey
        · exact ⟨stripSlashes path, old, hrow, heq.symm⟩
        · have hstill : (c.objects.erase old.storageKey).get? key = some data := by
            rw [Dict.get?_erase, if_neg heq]
            exact hdata
          obtain ⟨path', row, hrow', hkey⟩ := hn key data hstill
          exact ⟨path', row, (hleft hrow').2, hkey⟩
      · intro hn key data hdata
        have herase : (c.objects.erase old.storageKey).get? key = some data := hdata
        rw [Dict.get?_erase] at herase
        split at herase
        · cases herase
        · rename_i hne
          obtain ⟨path', row, hrow', hkey⟩ := hn key data herase
          refine ⟨path', row, ?_, hkey⟩
          show (c.rows.erase (stripSlashes path)).get? path' = _
          rw [Dict.get?_erase, if_neg]
          · exact hrow'
          · rintro rfl
            have hsame : c.rows.get? (stripSlashes path) = some old := hrow
            rw [hrow'] at hsame
            cases hsame
            exact hne hkey.symm

theorem foldl_deleteEntry_spec {h : Host} (paths : List String) {c : Catalog} (hb : Backed h c) :
    Backed h (paths.foldl (fun c path => (deleteEntry path c).2) c) ∧
      (Named (paths.foldl (fun c path => (deleteEntry path c).2) c) ↔ Named c) := by
  induction paths generalizing c with
  | nil => exact ⟨hb, Iff.rfl⟩
  | cons path paths ih =>
    obtain ⟨hb', hn'⟩ := deleteEntry_spec hb path
    obtain ⟨hb'', hn''⟩ := ih hb'
    exact ⟨hb'', hn''.trans hn'⟩

/-! ## Uploads -/

theorem saveEntry_put (a : EntryArgs) (c : Catalog) (data : Bytes) :
    saveEntry a (put c data) = record c data (stripSlashes a.path) (savedRow a (put c data)) := rfl

theorem find_saveEntry (a : EntryArgs) (c : Catalog) : find (saveEntry a c) a.path = some (savedRow a c) := by
  show (c.rows.set (stripSlashes a.path) (savedRow a c)).get? (stripSlashes a.path) = _
  rw [Dict.get?_set, if_pos rfl]

theorem capped_ok {h : Host} {s : Settings} {key : Nat} {body : Bytes} :
    capped h s key body = .ok () ↔ body ≠ [] ∧ body.length ≤ s.maxContentLength := by
  unfold capped
  split
  · exact iff_of_false (fun h => by cases h) fun h => by omega
  · split
    · exact iff_of_false (fun h => by cases h) fun h => h.1 (by assumption)
    · exact iff_of_true rfl ⟨by assumption, by omega⟩

/-- An upload leaves an object behind exactly where it is accepted over a row: the row it would take the old key from
shows the new one by then. -/
theorem uploadTool_spec {h : Host} {c : Catalog} (hb : Backed h c) (s : Settings) (u : Upload) :
    Backed h (uploadTool h s u c).2 ∧ (Named (uploadTool h s u c).2 ↔ Named c ∧ ¬ Overwrites s u c) := by
  have hsame {c' : Catalog} (hc' : Backed h c') (hn : Named c' ↔ Named c) (hno : ¬ Overwrites s u c) :
      Backed h c' ∧ (Named c' ↔ Named c ∧ ¬ Overwrites s u c) := ⟨hc', hn.trans (and_iff_left hno).symm⟩
  unfold uploadTool
  split
  · -- there is no file name
    rename_i hnone
    refine hsame hb Iff.rfl ?_
    rintro ⟨-, -, -, filename, path, hname, hne, -⟩
    simp [hname, hne] at hnone
  · rename_i filename hname
    have hfile : u.filename = some filename ∧ filename ≠ "" := by
      simpa [Option.filter_eq_some_iff] using hname
    split
    · -- the path is refused
      rename_i e hpath
      refine hsame hb Iff.rfl ?_
      rintro ⟨-, -, -, filename', path, hname', -, hok, -⟩
      rw [hfile.1] at hname'
      cases hname'
      rw [hpath] at hok
      cases hok
    · rename_i path hpath
      dsimp only
      split
      · -- the path has a row, and overwriting is off
        rename_i hrefused
        refine hsame hb Iff.rfl fun hover => ?_
        rw [hover.1] at hrefused
        exact absurd hrefused.2 (by decide)
      · rename_i hallowed
        split
        · -- the body is empty or over the limit: only the number of the key is spent
          rename_i e hcap
          have hskip : Backed h { c with next := c.next + 1 } :=
            ⟨hb.bytes, hb.apart, fun key data hdata => Nat.lt_succ_of_lt (hb.fresh key data hdata)⟩
          refine hsame hskip Iff.rfl fun hover => ?_
          rw [capped_ok.2 ⟨hover.2.1, hover.2.2.1⟩] at hcap
          cases hcap
        · rename_i hcap
          have hbody := capped_ok.1 hcap
          split
          · -- the path has no row
            rename_i hfree
            refine ⟨hb.record rfl ⟨rfl, rfl⟩, (hb.named_record rfl).trans (and_congr_right fun _ => ?_)⟩
            refine iff_of_true hfree ?_
            rintro ⟨-, -, -, filename', path', hname', -, hok, hfound⟩
            rw [hfile.1] at hname'
            cases hname'
            rw [hpath] at hok
            cases hok
            rw [hfree] at hfound
            cases hfound
          · -- the row shows the new key by now, so the object of the old one stays
            rename_i old hold
            rw [find_saveEntry]
            have hshown {a : EntryArgs} (hkey : a.storageKey = c.next) :
                ¬ ((some (savedRow a (put c u.body))).map (·.storageKey)).getD c.next ≠ c.next := not_not.2 hkey
            rw [if_neg (hshown rfl)]
            refine ⟨hb.record rfl ⟨rfl, rfl⟩, (hb.named_record rfl).trans (and_congr_right fun _ => ?_)⟩
            refine iff_of_false (fun hfree => ?_) (not_not.2 ?_)
            · have hfound : c.rows.get? (stripSlashes path) = some old := hold
              rw [hfound] at hfree
              cases hfree
            · refine ⟨?_, hbody.1, hbody.2, filename, path, hfile.1, hfile.2, hpath, by rw [hold]; rfl⟩
              simpa [hold] using hallowed

/-! ## Imports -/

/-- What an import makes of a file. -/
inductive Handled (h : Host) (overlay : Json) (dryRun : Bool) (file : SourceFile) (c : Catalog) : Fared × Catalog → Prop
  | left (fared : Fared) (leaves : ¬ (dryRun = false ∧ Refused h overlay file c))
      (goesOn : (∃ why, fared = .raised why) ↔ ends h overlay file = true) : Handled h overlay dryRun file c (fared, c)
  | refused (why : String) (data : Bytes) (real : dryRun = false) (because : Refused h overlay file c)
      (goesOn : ends h overlay file = false) : Handled h overlay dryRun file c (.caught why, put c data)
  | created (data : Bytes) (row : CatalogEntry) (taken : ¬ Refused h overlay file c) (goesOn : ends h overlay file = false)
      (key : row.storageKey = c.next) (describes : Describes h row data) (free : find c file.path = none) :
      Handled h overlay dryRun file c (.created, record c data (stripSlashes file.path) row)
  | updated (data : Bytes) (row old : CatalogEntry) (taken : ¬ Refused h overlay file c)
      (goesOn : ends h overlay file = false) (key : row.storageKey = c.next) (describes : Describes h row data)
      (found : find c file.path = some old) :
      Handled h overlay dryRun file c (.updated, drop (record c data (stripSlashes file.path) row) old.storageKey)

theorem importEntry_handled {h : Host} {c : Catalog} (hb : Backed h c) (overlay : Json) (actor : Option String)
    (dryRun : Bool) (file : SourceFile) :
    Handled h overlay dryRun file c (importEntry h overlay actor dryRun file c) := by
  unfold importEntry
  cases hcontent : file.content with
  | error why =>
    refine .left _ ?_ (iff_of_false (fun ⟨_, h⟩ => by cases h) ?_)
    · rintro ⟨-, data, fields, modified, hok, -⟩
      rw [hcontent] at hok
      cases hok
    · simp [ends, hcontent, Except.isOk, Except.toBool]
  | ok data =>
    dsimp only
    cases hfields : metadataOf h overlay file.path with
    | error why =>
      refine .left _ ?_ (iff_of_true ⟨why, rfl⟩ ?_)
      · rintro ⟨-, data, fields, modified, -, hok, -⟩
        rw [hfields] at hok
        cases hok
      · simp [ends, hcontent, hfields, Except.isOk, Except.toBool]
    | ok fields =>
      have hgoes : ends h overlay file = false := by simp [ends, hcontent, hfields, Except.isOk, Except.toBool]
      have hstays {fared : Fared} (hne : ∀ why, fared ≠ .raised why) :
          (∃ why, fared = .raised why) ↔ ends h overlay file = true :=
        iff_of_false (fun ⟨why, heq⟩ => hne why heq) (by rw [hgoes]; exact Bool.false_ne_true)
      dsimp only
      cases hmtime : file.mtime with
      | error why =>
        refine .left _ ?_ (hstays fun _ h => by cases h)
        rintro ⟨-, data, fields, modified, -, -, hok, -⟩
        rw [hmtime] at hok
        cases hok
      | ok modified =>
        dsimp only
        -- from here on the row and the fields alone decide whether the entry is refused
        have hrefused : Refused h overlay file c ↔
            (find c file.path).any (isUnchanged h file.path data fields) = false ∧ (h.refuses fields).isSome = true := by
          constructor
          · rintro ⟨data', fields', modified', hdata', hfields', -, hchanged, hsome⟩
            rw [hcontent] at hdata'
            rw [hfields] at hfields'
            cases hdata'
            cases hfields'
            exact ⟨hchanged, hsome⟩
          · rintro ⟨hchanged, hsome⟩
            exact ⟨data, fields, modified, hcontent, hfields, hmtime, hchanged, hsome⟩
        by_cases hunchanged : (find c file.path).any (isUnchanged h file.path data fields) = true
        · rw [if_pos hunchanged]
          refine .left _ ?_ (hstays fun _ h => by cases h)
          rw [hrefused, hunchanged]
          rintro ⟨-, hfalse, -⟩
          cases hfalse
        · rw [if_neg hunchanged]
          by_cases hdry : dryRun = true
          · rw [if_pos hdry]
            refine .left _ ?_ (hstays fun _ h => by split at h <;> cases h)
            rintro ⟨hreal, -⟩
            rw [hdry] at hreal
            cases hreal
          · rw [if_neg hdry]
            cases hwhy : h.refuses fields with
            | some why =>
              refine .refused why data (Bool.eq_false_iff.2 hdry) (hrefused.2 ⟨Bool.eq_false_iff.2 hunchanged, ?_⟩) hgoes
              rw [hwhy]
              rfl
            | none =>
              have htaken : ¬ Refused h overlay file c := by
                intro hr
                have hsome := (hrefused.1 hr).2
                rw [hwhy] at hsome
                cases hsome
              dsimp only
              cases hrow : find c file.path with
              | none => exact .created data _ htaken hgoes rfl ⟨rfl, rfl⟩ hrow
              | some old =>
                have hne : old.storageKey ≠ c.next := Nat.ne_of_lt (hb.lt_next hrow)
                simp only [Option.map_some, if_pos hne]
                exact .updated data _ old htaken hgoes rfl ⟨rfl, rfl⟩ hrow

section handled

variable {h : Host} {overlay : Json} {dryRun : Bool} {file : SourceFile} {c : Catalog} {result : Fared × Catalog}

/-- A file leaves an object behind exactly where its row is refused. -/
theorem Handled.spec (hr : Handled h overlay dryRun file c result) (hb : Backed h c) :
    Backed h result.2 ∧ (Named result.2 ↔ Named c ∧ (dryRun = false → ¬ Refused h overlay file c)) := by
  cases hr with
  | left _ leaves => exact ⟨hb, (and_iff_left (not_and.1 leaves)).symm⟩
  | refused _ data real because =>
    exact ⟨hb.put data, iff_of_false (hb.not_named_put data) fun hn => hn.2 real because⟩
  | created data row taken _ key describes free =>
    refine ⟨hb.record key describes, (hb.named_record key).trans (and_congr_right fun _ => ?_)⟩
    exact iff_of_true free fun _ => taken
  | updated data row old taken _ key describes found =>
    refine ⟨(hb.record key describes).drop (hb.not_names_record key found), ?_⟩
    exact (hb.named_replace key found).trans (and_iff_left fun _ => taken).symm

/-- The rows of the other paths stay. -/
theorem Handled.find (hr : Handled h overlay dryRun file c result) {path : String}
    (hne : stripSlashes path ≠ stripSlashes file.path) : Tools.find result.2 path = Tools.find c path := by
  have hset (row : CatalogEntry) :
      (c.rows.set (stripSlashes file.path) row).get? (stripSlashes path) = c.rows.get? (stripSlashes path) := by
    rw [Dict.get?_set, if_neg hne]
  cases hr with
  | left | refused => rfl
  | created _ row | updated _ row => exact hset row

theorem Handled.raised (hr : Handled h overlay dryRun file c result) :
    (∃ why, result.1 = .raised why) ↔ ends h overlay file = true := by
  have hno (hgoes : ends h overlay file = false) : ¬ ends h overlay file = true := by
    rw [hgoes]
    exact Bool.false_ne_true
  cases hr with
  | left _ _ goesOn => exact goesOn
  | refused _ _ _ _ goesOn => exact iff_of_false (fun ⟨_, h⟩ => by cases h) (hno goesOn)
  | created _ _ _ goesOn => exact iff_of_false (fun ⟨_, h⟩ => by cases h) (hno goesOn)
  | updated _ _ _ _ goesOn => exact iff_of_false (fun ⟨_, h⟩ => by cases h) (hno goesOn)

end handled

theorem Refused.congr {h : Host} {overlay : Json} {file : SourceFile} {c c' : Catalog}
    (hfind : find c' file.path = find c file.path) : Refused h overlay file c' ↔ Refused h overlay file c := by
  unfold Refused
  rw [hfind]

theorem not_refused_of_ends {h : Host} {overlay : Json} {file : SourceFile} {c : Catalog}
    (hends : ends h overlay file = true) : ¬ Refused h overlay file c := by
  rintro ⟨data, fields, modified, hdata, hfields, -⟩
  simp [ends, hdata, hfields, Except.isOk, Except.toBool] at hends

/-- The loop over files with paths of their own. -/
theorem importFiles_spec {h : Host} (overlay : Json) (actor : Option String) (dryRun : Bool) (files : List SourceFile)
    (report : ImportReport) {c : Catalog} (hb : Backed h c)
    (hdistinct : (files.map fun file => stripSlashes file.path).Nodup) :
    Backed h (importFiles h overlay actor dryRun files report c).2 ∧
      (Named (importFiles h overlay actor dryRun files report c).2 ↔
        Named c ∧ (dryRun = false →
          ∀ file ∈ files.takeWhile (fun file => !ends h overlay file), ¬ Refused h overlay file c)) := by
  induction files generalizing report c with
  | nil => exact ⟨hb, (and_iff_left fun _ _ hfile => by cases hfile).symm⟩
  | cons file files ih =>
    rw [List.map_cons, List.nodup_cons] at hdistinct
    have hhandled := importEntry_handled hb overlay actor dryRun file
    obtain ⟨hb', hn'⟩ := hhandled.spec hb
    have hraised := hhandled.raised
    have hothers {other : SourceFile} (hother : other ∈ files) :
        Refused h overlay other (importEntry h overlay actor dryRun file c).2 ↔ Refused h overlay other c :=
      Refused.congr (hhandled.find fun heq => hdistinct.1 (List.mem_map.2 ⟨other, hother, heq⟩))
    unfold importFiles
    split
    · rename_i why c' heq
      rw [heq] at hb' hn' hraised
      have hends := hraised.1 ⟨why, rfl⟩
      refine ⟨hb', hn'.trans (and_congr_right fun _ => ?_)⟩
      rw [List.takeWhile_cons, hends]
      exact iff_of_true (fun _ => not_refused_of_ends hends) fun _ _ hfile => by cases hfile
    · rename_i fared c' hgoes heq
      rw [heq] at hb' hn' hraised hothers
      have hends : ends h overlay file = false :=
        Bool.eq_false_iff.2 fun hends => by
          obtain ⟨why, hwhy⟩ := hraised.2 hends
          exact hgoes why hwhy
      obtain ⟨hb'', hn''⟩ := ih (report.add file.path fared) hb' hdistinct.2
      refine ⟨hb'', hn''.trans ?_⟩
      rw [hn', and_assoc, List.takeWhile_cons, hends]
      refine and_congr_right fun _ => ?_
      rw [Bool.not_false, if_pos rfl]
      constructor
      · rintro ⟨hfirst, hrest⟩ hreal
        refine List.forall_mem_cons.2 ⟨hfirst hreal, fun other hother => ?_⟩
        rw [← hothers ((List.takeWhile_sublist _).subset hother)]
        exact hrest hreal other hother
      · intro hall
        refine ⟨fun hreal => (List.forall_mem_cons.1 (hall hreal)).1, fun hreal other hother => ?_⟩
        rw [hothers ((List.takeWhile_sublist _).subset hother)]
        exact (List.forall_mem_cons.1 (hall hreal)).2 other hother

theorem seen_distinct (tree : SourceTree) : (tree.seen.map fun file => stripSlashes file.path).Nodup := by
  have hplain : tree.seen.map (fun file => stripSlashes file.path) = tree.seen.map (·.path) :=
    List.map_congr_left fun file hfile => tree.relative file (List.mem_of_mem_filter hfile)
  rw [hplain]
  exact tree.distinct.sublist (List.filter_sublist.map _)

theorem importTree_spec {h : Host} {c : Catalog} (hb : Backed h c) (s : Settings) (a : ImportArgs) :
    Backed h (importTree h a c).2 ∧
      (Named (importTree h a c).2 ↔ Named c ∧ LeavesNothing h s c (.importTree a)) := by
  obtain ⟨source, actor, dryRun, prune⟩ := a
  cases source with
  | none => exact ⟨hb, (and_iff_left fun _ _ htree => by cases htree).symm⟩
  | some tree =>
    have htree : LeavesNothing h s c (.importTree ⟨some tree, actor, dryRun, prune⟩) ↔
        (dryRun = false → ∀ file ∈ reached h tree, ¬ Refused h tree.overlay file c) :=
      ⟨fun hall hreal => hall hreal tree rfl, fun hall hreal tree' heq => by cases heq; exact hall hreal⟩
    rw [htree]
    unfold importTree
    cases hdirs : (tree.directories.filter visible).mapM (categoryMeta tree.overlay) with
    | error why =>
      simp only [hdirs]
      refine ⟨hb, (and_iff_left fun _ _ hfile => ?_).symm⟩
      simp [reached, hdirs, Except.isOk, Except.toBool] at hfile
    | ok metas =>
      simp only [hdirs]
      have hreached : reached h tree = tree.seen.takeWhile fun file => !ends h tree.overlay file := by
        unfold reached
        rw [hdirs]
        exact if_pos rfl
      obtain ⟨hb', hn'⟩ := importFiles_spec tree.overlay actor dryRun tree.seen
        { categories := (tree.directories.filter visible).length } hb (seen_distinct tree)
      rw [hreached]
      split
      · rename_i why c' heq
        rw [heq] at hb' hn'
        exact ⟨hb', hn'⟩
      · rename_i report c' heq
        rw [heq] at hb' hn'
        by_cases hprune : prune = true
        · rw [if_pos hprune]
          by_cases hdry : dryRun = true
          · simp only [if_pos hdry]
            exact ⟨hb', hn'⟩
          · simp only [if_neg hdry]
            obtain ⟨hb'', hn''⟩ := foldl_deleteEntry_spec (gone tree c') hb'
            exact ⟨hb'', hn''.trans hn'⟩
        · rw [if_neg hprune]
          exact ⟨hb', hn'⟩

/-! ## Every run -/

theorem step_spec {h : Host} {c : Catalog} (hb : Backed h c) (s : Settings) (op : Op) :
    Backed h (step h s c op).2 ∧ (Named (step h s c op).2 ↔ Named c ∧ LeavesNothing h s c op) := by
  cases op with
  | upload u => exact uploadTool_spec hb s u
  | importTree a => exact importTree_spec hb s a
  | delete path =>
    obtain ⟨hb', hn'⟩ := deleteEntry_spec hb path
    exact ⟨hb', hn'.trans (and_iff_left trivial).symm⟩

theorem backed_run (h : Host) (s : Settings) (ops : List Op) : Backed h ((catalog h s).state ops) := by
  refine Machine.invariant (M := catalog h s) (P := fun _ c => Backed h c) ?_ ?_ ops
  · exact ⟨fun _ _ hrow => (by cases hrow), fun _ _ _ _ hrow => (by cases hrow), fun _ _ hdata => (by cases hdata)⟩
  · exact fun _ c op hb => (step_spec hb s op).1

/-- A deployment whose digest of bytes is their number. -/
def countingHost : Host where
  sha256 data := toString data.length
  guessType _ := none
  render _ := ""
  humanSize n := toString n
  keyText key := toString key
  refuses _ := none

/-- A script is uploaded, and uploaded again over itself (read from the last operation to the first). -/
def uploadedTwice : List Op :=
  [.upload ⟨some "check.sh", some "ops", [1, 2], none, 20⟩, .upload ⟨some "check.sh", some "ops", [1], none, 10⟩]

end OpenFish.Tools
