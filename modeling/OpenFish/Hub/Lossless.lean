/-
What a listing of a mirror loses: every file has its entry, but npm looks its rows up by the name of the package and the
flat mirrors by the name of the file, and where two share it the last one stays.
-/
import OpenFish.Hub.Scan

namespace OpenFish.Hub

open Lib Mirrors

/-! ## What the listings are to do -/

/-- The row names one of the files. -/
def Item.naming (files : List File) (row : Item) : Bool := row.filename.any fun n => n ∈ files.map (·.name)

/-- The row names one of the files, and another one than this. -/
def Item.elsewhere (files : List File) (filename : String) (row : Item) : Bool :=
  row.naming files && row.filename ≠ some filename

/-- The entries of files. -/
def served (packages : List Entry) : List Entry := packages.filter fun e => e.downloadUrl.isSome

/-- The entries of rows alone. -/
def metadataOnly (packages : List Entry) : List Entry := packages.filter fun e => e.downloadUrl = none

/-- What is told of a file. -/
def told (filename : String) (packages : List Entry) : List (Option String × List String) :=
  ((served packages).filter fun e => e.filename = some filename).map fun e => (e.description, e.tags)

/-- The row with nothing to tell, where it names another file than this. -/
def Item.silenced (files : List File) (filename : String) (row : Item) : Item :=
  if row.elsewhere files filename then { row with description := none, tags := [] } else row

/-- The rows with nothing to tell of other files than this. -/
def tellingOf (files : List File) (filename : String) (rows : List Item) : List Item :=
  rows.map (Item.silenced files filename)

/-- The row names no file, and no package that has one. -/
def Item.unclaimed (files : List File) (packages : List String) (row : Item) : Bool :=
  !row.naming files && row.name.all fun n => n ∉ packages

/-- `scan_npm` and `npm_all_index` lose nothing of these files and rows. -/
structure NpmLossless (s : Site) (files : List File) (rows : List Item) : Prop where
  entry : ((served (scanNpm s (some files) rows)).map fun e => (e.filename, e.size, e.modified)).Perm
    ((tarballs files).map fun f => (some f.name, some f.size, some f.modified))
  supplied : ∀ row ∈ rows, row.naming (tarballs files) = true → ∀ e ∈ served (scanNpm s (some files) rows),
    e.filename = row.filename →
      (∀ text, row.description = some text → e.description = some text) ∧ (row.tags ≠ [] → e.tags = row.tags)
  others : ∀ f ∈ tarballs files, told f.name (scanNpm s (some files) (tellingOf (tarballs files) f.name rows)) =
    told f.name (scanNpm s (some files) rows)
  metadata : ∀ row ∈ rows, row.unclaimed (tarballs files) ((served (scanNpm s (some files) rows)).map (·.name)) = true →
    (metadataOnly (scanNpm s (some files) rows)).count (npmMetadataEntry row) =
      ((rows.filter (Item.unclaimed (tarballs files) ((served (scanNpm s (some files) rows)).map (·.name)))).map
        npmMetadataEntry).count (npmMetadataEntry row)
  indexed : ∀ now, ∀ e ∈ served (scanNpm s (some files) rows), ∃ listing,
    (npmAllIndex now (scanNpm s (some files) rows)).get? e.name = some (.package listing) ∧
      e.version ∈ listing.versions.map Prod.fst

/-- What a row says stands in the entry. -/
structure Item.Supplies (row : Item) (e : FlatEntry) : Prop where
  name : ∀ text, row.name = some text → e.name = text
  version : ∀ text, row.version = some text → e.version = text
  arch : ∀ text, row.arch = some text → e.arch = text
  kind : ∀ text, row.kind = some text → e.kind = text
  description : ∀ text, row.description = some text → e.description = some text
  tags : row.tags ≠ [] → e.tags = row.tags

/-- The entries of files. -/
def servedFlat (artifacts : List FlatEntry) : List FlatEntry := artifacts.filter fun e => e.downloadUrl.isSome

/-- The row with nothing but its file name, where that is the name of another file than this. -/
def Item.namingOnly (files : List File) (filename : String) (row : Item) : Item :=
  if row.elsewhere files filename then ⟨row.filename, none, none, none, none, none, []⟩ else row

/-- The rows with nothing to tell of other files than this. -/
def namingOf (files : List File) (filename : String) (rows : List Item) : List Item :=
  rows.map (Item.namingOnly files filename)

/-- `scan_flat` loses nothing of these files and rows. -/
structure FlatLossless (s : Site) (parse : String → Info) (files : List File) (rows : List Item) : Prop where
  entry : ((servedFlat (scanFlat s parse (some files) rows)).map fun e => (e.filename, e.size, e.modified)).Perm
    ((artifactFiles files).map fun f => (some f.name, some f.size, some f.modified))
  supplied : ∀ row ∈ rows, row.naming (artifactFiles files) = true → ∀ e ∈ servedFlat (scanFlat s parse (some files) rows),
    e.filename = row.filename → row.Supplies e
  others : ∀ f ∈ artifactFiles files,
    (servedFlat (scanFlat s parse (some files) (namingOf (artifactFiles files) f.name rows))).filter
        (fun e => e.filename = some f.name) =
      (servedFlat (scanFlat s parse (some files) rows)).filter fun e => e.filename = some f.name
  metadata : ∀ row ∈ rows, row.naming (artifactFiles files) = false →
    ((scanFlat s parse (some files) rows).filter fun e => e.downloadUrl = none).count (flatMetadataEntry row) =
      ((rows.filter fun row => !row.naming (artifactFiles files)).map flatMetadataEntry).count (flatMetadataEntry row)

/-! ## When they do -/

/-- The last row of a name. -/
def lastNamed (rows : List Item) (name : String) : Option Item := rows.reverse.find? fun row => row.name = some name

/-- The last row of a file name. -/
def lastFiled (rows : List Item) (filename : String) : Option Item :=
  rows.reverse.find? fun row => row.filename = some filename

/-- The package of a tarball: its file name, where that is the name of a row. -/
def packageOf (rows : List Item) (f : File) : String :=
  if (lastNamed rows f.name).isSome then f.name else (parseStem f.name).1

def versionOf (rows : List Item) (f : File) : String :=
  (((lastNamed rows f.name).bind (·.version)).or (orNone (parseStem f.name).2)).getD "latest"

/-- The rows of an npm mirror do not get into each other's way, nor do the versions of a package. -/
structure NpmClear (files : List File) (rows : List Item) : Prop where
  description : ∀ row ∈ rows, ∀ f ∈ tarballs files, row.filename = some f.name → ∀ text, row.description = some text →
    (lastNamed rows (packageOf rows f)).bind (·.description) = some text
  tags : ∀ row ∈ rows, ∀ f ∈ tarballs files, row.filename = some f.name → row.tags ≠ [] →
    (lastNamed rows f.name).map (·.tags) = some row.tags
  others : ∀ f ∈ tarballs files, (∀ row, lastNamed rows (packageOf rows f) = some row →
      row.elsewhere (tarballs files) f.name = true → row.description = none) ∧
    ∀ row, lastNamed rows f.name = some row → row.elsewhere (tarballs files) f.name = true → row.tags = []
  named : ∀ row ∈ rows, row.unclaimed (tarballs files) ((tarballs files).map (packageOf rows)) = true → row.name ≠ none
  last : rows.Pairwise fun row later => row.unclaimed (tarballs files) ((tarballs files).map (packageOf rows)) = true →
    later.name ≠ row.name
  versions : ∀ f ∈ tarballs files, ∀ g ∈ tarballs files, packageOf rows f = packageOf rows g → versionOf rows f = versionOf rows g

/-- A text is the field, or what stands in for it where it is missing. -/
def Stands (field : Option String) (part text : String) : Prop := field = some text ∨ field = none ∧ part = text

/-- The last row of a file name says what the row says, or leaves it to the parts of the file name. -/
structure Item.Repeats (filename : String) (parts : Info) (last row : Item) : Prop where
  name : ∀ text, row.name = some text → Stands last.name ((orNone parts.name).getD filename) text
  version : ∀ text, row.version = some text → Stands last.version parts.version text
  arch : ∀ text, row.arch = some text → Stands last.arch parts.arch text
  kind : ∀ text, row.kind = some text → Stands last.kind ((orNone parts.kind).getD "file") text
  description : ∀ text, row.description = some text → last.description = some text
  tags : row.tags ≠ [] → last.tags = row.tags

/-- Nor do those of a flat one. -/
structure FlatClear (parse : String → Info) (files : List File) (rows : List Item) : Prop where
  supplied : ∀ row ∈ rows, ∀ f ∈ artifactFiles files, row.filename = some f.name → ∀ last, lastFiled rows f.name = some last →
    last.Repeats f.name (parse f.name) row
  last : rows.Pairwise fun row later => row.naming (artifactFiles files) = false → row.filename ≠ none →
    later.filename ≠ row.filename

/-! ## npm -/

section npm

variable {s : Site} {files : List File} {rows : List Item}

theorem listed_get? (hname : ∀ row ∈ rows, row.name ≠ some "") (name : String) :
    (listed rows).get? name = lastNamed rows name :=
  Dict.get?_keyed_getD "" hname name

theorem lastNamed_name {name : String} {row : Item} (h : lastNamed rows name = some row) : row.name = some name := by
  simpa using List.find?_some h

theorem mem_of_lastNamed {name : String} {row : Item} (h : lastNamed rows name = some row) : row ∈ rows :=
  List.mem_reverse.1 (List.mem_of_find?_eq_some h)

/-- What the entry of a tarball shows. -/
theorem npmEntry_eq (hname : ∀ row ∈ rows, row.name ≠ some "") (f : File) :
    npmEntry s rows f =
      { name := packageOf rows f
        version := versionOf rows f
        filename := some f.name
        size := some f.size
        sizeHuman := f.sizeHuman
        modified := some f.modified
        downloadUrl := some (s.url f.name)
        description := (lastNamed rows (packageOf rows f)).bind (·.description)
        tags := ((lastNamed rows f.name).map (·.tags)).getD [] } := by
  have hpackage : (npmTarballEntry s (lastNamed rows f.name) f).name = packageOf rows f := by
    unfold npmTarballEntry packageOf
    cases hlast : lastNamed rows f.name with
    | none => simp only [Option.bind_none, Option.getD_none, Option.isSome_none, Bool.false_eq_true, if_false]
    | some row => simp only [Option.bind_some, lastNamed_name hlast, Option.getD_some, Option.isSome_some, if_true]
  have hdescription : ((lastNamed rows f.name).bind (·.description)).or
      ((lastNamed rows (packageOf rows f)).bind (·.description)) = (lastNamed rows (packageOf rows f)).bind (·.description) := by
    cases hlast : lastNamed rows f.name with
    | none => rfl
    | some row =>
      have hself : packageOf rows f = f.name := by
        unfold packageOf
        rw [hlast]
        exact if_pos rfl
      rw [hself, hlast, Option.or_self]
  unfold npmEntry
  simp only [listed_get? hname]
  rw [hpackage]
  unfold npmTarballEntry
  simp only
  rw [hdescription]
  rfl

theorem served_scanNpm (hname : ∀ row ∈ rows, row.name ≠ some "") :
    served (scanNpm s (some files) rows) = (tarballs files).map (npmEntry s rows) := by
  unfold served scanNpm
  rw [List.filter_append, List.filter_eq_self.2, List.filter_eq_nil_iff.2, List.append_nil]
  · intro e he
    obtain ⟨row, -, rfl⟩ := List.mem_map.1 he
    simp [npmMetadataEntry]
  · intro e he
    obtain ⟨f, -, rfl⟩ := List.mem_map.1 he
    rw [npmEntry_eq hname]
    rfl

theorem metadataOnly_scanNpm (hname : ∀ row ∈ rows, row.name ≠ some "") :
    metadataOnly (scanNpm s (some files) rows) =
      ((listed rows).entries.filter fun e => e.1 ∉ (tarballs files).map (packageOf rows)).map fun e => npmMetadataEntry e.2 := by
  have hnames : ((tarballs files).map (npmEntry s rows)).map (·.name) = (tarballs files).map (packageOf rows) := by
    rw [List.map_map]
    refine List.map_congr_left fun f _ => ?_
    rw [Function.comp_apply, npmEntry_eq hname]
  unfold metadataOnly scanNpm
  rw [List.filter_append, List.filter_eq_nil_iff.2, List.nil_append, List.filter_eq_self.2, hnames]
  · intro e he
    obtain ⟨row, -, rfl⟩ := List.mem_map.1 he
    rfl
  · intro e he
    obtain ⟨f, -, rfl⟩ := List.mem_map.1 he
    rw [npmEntry_eq hname]
    simp

theorem npm_entry (hname : ∀ row ∈ rows, row.name ≠ some "") :
    (served (scanNpm s (some files) rows)).map (fun e => (e.filename, e.size, e.modified)) =
      (tarballs files).map fun f => (some f.name, some f.size, some f.modified) := by
  rw [served_scanNpm hname, List.map_map]
  refine List.map_congr_left fun f _ => ?_
  rw [Function.comp_apply, npmEntry_eq hname]

theorem naming_eq_true {row : Item} : row.naming files = true ↔ ∃ f ∈ files, row.filename = some f.name := by
  unfold Item.naming
  cases row.filename with
  | none => simp
  | some filename => simp [eq_comm]

theorem npm_supplied (hname : ∀ row ∈ rows, row.name ≠ some "") :
    (∀ row ∈ rows, row.naming (tarballs files) = true → ∀ e ∈ served (scanNpm s (some files) rows), e.filename = row.filename →
        (∀ text, row.description = some text → e.description = some text) ∧ (row.tags ≠ [] → e.tags = row.tags)) ↔
      (∀ row ∈ rows, ∀ f ∈ tarballs files, row.filename = some f.name → ∀ text, row.description = some text →
        (lastNamed rows (packageOf rows f)).bind (·.description) = some text) ∧
      (∀ row ∈ rows, ∀ f ∈ tarballs files, row.filename = some f.name → row.tags ≠ [] →
        (lastNamed rows f.name).map (·.tags) = some row.tags) := by
  have htags {f : File} {row : Item} (hne : row.tags ≠ []) : ((lastNamed rows f.name).map (·.tags)).getD [] = row.tags ↔
      (lastNamed rows f.name).map (·.tags) = some row.tags := by
    cases lastNamed rows f.name with
    | none => simp [Ne.symm hne]
    | some last => simp
  rw [served_scanNpm hname]
  constructor
  · intro h
    have hat : ∀ row ∈ rows, ∀ f ∈ tarballs files, row.filename = some f.name → _ := fun row hrow f hf hfile =>
      h row hrow (naming_eq_true.2 ⟨f, hf, hfile⟩) _ (List.mem_map.2 ⟨f, hf, rfl⟩) (by rw [npmEntry_eq hname, hfile])
    refine ⟨fun row hrow f hf hfile text htext => ?_, fun row hrow f hf hfile hne => ?_⟩
    · have := (hat row hrow f hf hfile).1 text htext
      rwa [npmEntry_eq hname] at this
    · have := (hat row hrow f hf hfile).2 hne
      rw [npmEntry_eq hname] at this
      exact (htags hne).1 this
  · rintro ⟨hdescription, htold⟩ row hrow - e he hfile
    obtain ⟨f, hf, rfl⟩ := List.mem_map.1 he
    rw [npmEntry_eq hname] at hfile ⊢
    exact ⟨fun text htext => hdescription row hrow f hf hfile.symm text htext,
      fun hne => (htags hne).2 (htold row hrow f hf hfile.symm hne)⟩

theorem told_scanNpm (hname : ∀ row ∈ rows, row.name ≠ some "") (filename : String) :
    told filename (scanNpm s (some files) rows) = ((tarballs files).filter fun f => f.name = filename).map fun f =>
      ((lastNamed rows (packageOf rows f)).bind (·.description), ((lastNamed rows f.name).map (·.tags)).getD []) := by
  unfold told
  rw [served_scanNpm hname, List.filter_map, List.map_map]
  have hfilter : ∀ f, ((fun e : Entry => decide (e.filename = some filename)) ∘ npmEntry s rows) f =
      decide (f.name = filename) := fun f => by
    rw [Function.comp_apply, npmEntry_eq hname]
    simp
  rw [List.filter_congr fun f _ => hfilter f]
  refine List.map_congr_left fun f _ => ?_
  rw [Function.comp_apply, npmEntry_eq hname]

theorem lastNamed_map {g : Item → Item} (hg : ∀ row, (g row).name = row.name) (rows : List Item) (name : String) :
    lastNamed (rows.map g) name = (lastNamed rows name).map g := by
  unfold lastNamed
  rw [← List.map_reverse, List.find?_map]
  congr 2
  funext row
  rw [Function.comp_apply, hg]

theorem packageOf_map {g : Item → Item} (hg : ∀ row, (g row).name = row.name) (rows : List Item) (f : File) :
    packageOf (rows.map g) f = packageOf rows f := by
  unfold packageOf
  rw [lastNamed_map hg, Option.isSome_map]

theorem packageOf_congr {f g : File} (h : f.name = g.name) : packageOf rows f = packageOf rows g := by
  unfold packageOf
  rw [h]

theorem Item.silenced_name (filename : String) (row : Item) : (row.silenced files filename).name = row.name := by
  unfold Item.silenced
  split <;> rfl

/-- To silence a row changes nothing just where there is nothing to silence. -/
theorem described_silenced (filename : String) (found : Option Item) :
    (found.map (Item.silenced files filename)).bind (·.description) = found.bind (·.description) ↔
      ∀ row, found = some row → row.elsewhere files filename = true → row.description = none := by
  cases found with
  | none => simp
  | some row =>
    simp only [Option.map_some, Option.bind_some, Option.some.injEq, forall_eq']
    unfold Item.silenced
    split
    · rename_i h
      simp [h, eq_comm]
    · rename_i h
      simp [h]

theorem tagged_silenced (filename : String) (found : Option Item) :
    ((found.map (Item.silenced files filename)).map (·.tags)).getD [] = (found.map (·.tags)).getD [] ↔
      ∀ row, found = some row → row.elsewhere files filename = true → row.tags = [] := by
  cases found with
  | none => simp
  | some row =>
    simp only [Option.map_some, Option.getD_some, Option.some.injEq, forall_eq']
    unfold Item.silenced
    split
    · rename_i h
      simp [h, eq_comm]
    · rename_i h
      simp [h]

theorem npm_others (hname : ∀ row ∈ rows, row.name ≠ some "") :
    (∀ f ∈ tarballs files, told f.name (scanNpm s (some files) (tellingOf (tarballs files) f.name rows)) =
        told f.name (scanNpm s (some files) rows)) ↔
      ∀ f ∈ tarballs files, (∀ row, lastNamed rows (packageOf rows f) = some row →
          row.elsewhere (tarballs files) f.name = true → row.description = none) ∧
        ∀ row, lastNamed rows f.name = some row → row.elsewhere (tarballs files) f.name = true → row.tags = [] := by
  refine forall₂_congr fun f hf => ?_
  have hname' : ∀ row ∈ tellingOf (tarballs files) f.name rows, row.name ≠ some "" := fun row hrow => by
    obtain ⟨row, hin, rfl⟩ := List.mem_map.1 hrow
    rw [Item.silenced_name]
    exact hname row hin
  rw [told_scanNpm hname, told_scanNpm hname', List.map_inj_left, ← described_silenced, ← tagged_silenced, ← Prod.mk.injEq]
  unfold tellingOf
  rw [← lastNamed_map (Item.silenced_name f.name), ← lastNamed_map (Item.silenced_name f.name)]
  constructor
  · intro h
    have hself := h f (List.mem_filter.2 ⟨hf, by simp⟩)
    rwa [packageOf_map (Item.silenced_name f.name)] at hself
  · intro h g hg
    have heq : g.name = f.name := by simpa using (List.mem_filter.1 hg).2
    rw [packageOf_map (Item.silenced_name f.name), packageOf_congr heq, heq]
    exact h

theorem names_served (hname : ∀ row ∈ rows, row.name ≠ some "") :
    (served (scanNpm s (some files) rows)).map (·.name) = (tarballs files).map (packageOf rows) := by
  rw [served_scanNpm hname, List.map_map]
  refine List.map_congr_left fun f _ => ?_
  rw [Function.comp_apply, npmEntry_eq hname]

theorem npm_metadata (hname : ∀ row ∈ rows, row.name ≠ some "") :
    (∀ row ∈ rows, row.unclaimed (tarballs files) ((served (scanNpm s (some files) rows)).map (·.name)) = true →
        (metadataOnly (scanNpm s (some files) rows)).count (npmMetadataEntry row) =
          ((rows.filter (Item.unclaimed (tarballs files) ((served (scanNpm s (some files) rows)).map (·.name)))).map
            npmMetadataEntry).count (npmMetadataEntry row)) ↔
      (∀ row ∈ rows, row.unclaimed (tarballs files) ((tarballs files).map (packageOf rows)) = true → row.name ≠ none) ∧
        rows.Pairwise fun row later => row.unclaimed (tarballs files) ((tarballs files).map (packageOf rows)) = true →
          later.name ≠ row.name := by
  rw [names_served hname, metadataOnly_scanNpm hname]
  have hkey : ∀ row ∈ rows, ∀ name, row.name.getD "" = name → name ≠ "" → row.name = some name := by
    intro row hrow name hget hne
    cases hn : row.name with
    | none => rw [hn] at hget; exact absurd hget.symm hne
    | some text => rw [hn] at hget; exact congrArg some hget
  have hsame : ∀ a ∈ rows, ∀ b ∈ rows, npmMetadataEntry a = npmMetadataEntry b → a.name = b.name := by
    intro a ha b hb heq
    have hget : a.name.getD "" = b.name.getD "" := congrArg Entry.name heq
    cases han : a.name with
    | none =>
      cases hbn : b.name with
      | none => rfl
      | some text =>
        rw [han, hbn] at hget
        exact absurd (hbn.trans (congrArg some hget.symm)) (hname b hb)
    | some text =>
      rw [han] at hget
      exact (hkey b hb text hget.symm fun h => hname a ha (by rw [han, h])).symm
  -- the entries are keyed by name: a row keeps its own unless a later one has the name too
  have hiff := Dict.count_keyed_iff (fun row : Item => row.name.getD "") "" (l := rows)
    (q := fun n => decide (n ∉ (tarballs files).map (packageOf rows)))
    (p := Item.unclaimed (tarballs files) ((tarballs files).map (packageOf rows))) (f := npmMetadataEntry)
    (fun row hrow hrow' hne => by
      unfold Item.unclaimed at hrow'
      rw [hkey row hrow _ rfl hne] at hrow'
      simpa using (Bool.and_eq_true_iff.1 hrow').2)
    (fun a b heq => congrArg Entry.name heq)
    (fun a ha b hb heq => by
      unfold Item.unclaimed Item.naming
      rw [show a.filename = b.filename from congrArg Entry.filename heq, hsame a ha b hb heq])
  constructor
  · intro h
    -- the entry of a row without a name has no key
    have hnamed : ∀ row ∈ rows, row.unclaimed (tarballs files) ((tarballs files).map (packageOf rows)) = true →
        row.name ≠ none := by
      intro row hrow hun hnone
      have hcount := h row hrow hun
      have hpos : 0 < ((rows.filter (Item.unclaimed (tarballs files) ((tarballs files).map (packageOf rows)))).map
          npmMetadataEntry).count (npmMetadataEntry row) :=
        List.count_pos_iff.2 (List.mem_map.2 ⟨row, List.mem_filter.2 ⟨hrow, hun⟩, rfl⟩)
      rw [← hcount] at hpos
      obtain ⟨e, he, heq⟩ := List.mem_map.1 (List.count_pos_iff.1 hpos)
      obtain ⟨hne, hat, -⟩ := Dict.mem_keyed _ _ (List.mem_filter.1 he).1
      have hget : e.2.name.getD "" = row.name.getD "" := congrArg Entry.name heq
      rw [hnone, hat] at hget
      exact hne hget
    refine ⟨hnamed, (List.Pairwise.and_mem.1 (hiff.1 fun row hrow hun _ => h row hrow hun)).imp ?_⟩
    rintro row later ⟨hrow, -, hpair⟩ hun heq
    obtain ⟨name, hsome⟩ := Option.ne_none_iff_exists'.1 (hnamed row hrow hun)
    refine hpair hun ?_ (by rw [heq])
    rw [hsome]
    intro hempty
    exact hname row hrow (by rw [hsome]; exact congrArg some hempty)
  · rintro ⟨hnamed, hlast⟩ row hrow hun
    refine hiff.2 ((List.Pairwise.and_mem.1 hlast).imp ?_) row hrow hun ?_
    · rintro a b ⟨ha, hb, hpair⟩ hun hne heq
      exact hpair hun ((hkey b hb _ heq hne).trans (hkey a ha _ rfl hne).symm)
    · intro hempty
      obtain ⟨name, hsome⟩ := Option.ne_none_iff_exists'.1 (hnamed row hrow hun)
      rw [hsome] at hempty
      exact hname row hrow (by rw [hsome]; exact congrArg some hempty)

/-- What an index holds of a package is what its last entry says. -/
theorem npmAllIndex_get? (now : Int) (packages : List Entry) {name : String} {e : Entry} (he : e ∈ packages) (hat : e.name = name) :
    ∃ last, packages.reverse.find? (fun e => e.name = name) = some last ∧
      (npmAllIndex now packages).get? name = some (.package (listingOf last)) := by
  unfold npmAllIndex
  rw [Dict.get?_foldl_assign]
  cases hfind : packages.reverse.find? fun e => e.name = name with
  | none => exact absurd hat (by simpa using List.find?_eq_none.1 hfind e (List.mem_reverse.2 he))
  | some last => exact ⟨last, rfl, rfl⟩

theorem or_orNone_ne {version : Option String} (h : version ≠ some "") (parsed : String) :
    (version.or (orNone parsed)).getD "latest" ≠ "" := by
  cases version with
  | some text => exact fun hempty => h (congrArg some hempty)
  | none =>
    rw [Option.none_or, orNone]
    split
    · decide
    · assumption

theorem versionOf_ne (hversion : ∀ row ∈ rows, row.version ≠ some "") (f : File) : versionOf rows f ≠ "" := by
  refine or_orNone_ne ?_ _
  cases hlast : lastNamed rows f.name with
  | none => simp
  | some row => exact hversion row (mem_of_lastNamed hlast)

theorem versions_listingOf (hname : ∀ row ∈ rows, row.name ≠ some "") (hversion : ∀ row ∈ rows, row.version ≠ some "") (f : File) :
    (listingOf (npmEntry s rows f)).versions = [(versionOf rows f, s.url f.name)] := by
  rw [npmEntry_eq hname]
  unfold listingOf orNone
  simp only [Option.map_some, Option.toList_some, if_neg (versionOf_ne hversion f), Option.getD_some]

/-- A package with a tarball is listed as the last of its tarballs. -/
theorem npmAllIndex_scanNpm (hname : ∀ row ∈ rows, row.name ≠ some "") {f : File} (hf : f ∈ tarballs files) :
    ∃ g ∈ tarballs files, packageOf rows g = packageOf rows f ∧ ∀ now,
      (npmAllIndex now (scanNpm s (some files) rows)).get? (packageOf rows f) = some (.package (listingOf (npmEntry s rows g))) := by
  have hentry : npmEntry s rows f ∈ served (scanNpm s (some files) rows) := by
    rw [served_scanNpm hname]
    exact List.mem_map.2 ⟨f, hf, rfl⟩
  have hat : (npmEntry s rows f).name = packageOf rows f := by rw [npmEntry_eq hname]
  obtain ⟨last, hlast, -⟩ := npmAllIndex_get? 0 _ (List.mem_filter.1 hentry).1 hat
  have hlastName : last.name = packageOf rows f := by simpa using List.find?_some hlast
  have hserved : last ∈ (tarballs files).map (npmEntry s rows) := by
    have hin := List.mem_reverse.1 (List.mem_of_find?_eq_some hlast)
    unfold scanNpm at hin
    rcases List.mem_append.1 hin with hin | hin
    · exact hin
    · obtain ⟨e, he, rfl⟩ := List.mem_map.1 hin
      obtain ⟨hentries, hother⟩ := List.mem_filter.1 he
      have hkey : (npmMetadataEntry e.2).name = e.1 := (Dict.mem_keyed _ _ hentries).2.1
      rw [hkey] at hlastName
      refine absurd (List.mem_map.2 ⟨_, List.mem_map.2 ⟨f, hf, rfl⟩, ?_⟩) (by simpa using hother)
      rw [hat, hlastName]
  obtain ⟨g, hg, rfl⟩ := List.mem_map.1 hserved
  refine ⟨g, hg, by rwa [npmEntry_eq hname] at hlastName, fun now => ?_⟩
  obtain ⟨again, hagain, hget⟩ := npmAllIndex_get? now _ (List.mem_filter.1 hentry).1 hat
  rw [hlast] at hagain
  rw [hget, Option.some.inj hagain]

theorem npm_indexed (hname : ∀ row ∈ rows, row.name ≠ some "") (hversion : ∀ row ∈ rows, row.version ≠ some "") :
    (∀ now, ∀ e ∈ served (scanNpm s (some files) rows), ∃ listing,
        (npmAllIndex now (scanNpm s (some files) rows)).get? e.name = some (.package listing) ∧
          e.version ∈ listing.versions.map Prod.fst) ↔
      ∀ f ∈ tarballs files, ∀ g ∈ tarballs files, packageOf rows f = packageOf rows g → versionOf rows f = versionOf rows g := by
  rw [served_scanNpm hname]
  constructor
  · intro h f hf g hg heq
    obtain ⟨last, -, -, hindex⟩ := npmAllIndex_scanNpm (s := s) hname hf
    have hin : ∀ f' ∈ tarballs files, packageOf rows f' = packageOf rows f → versionOf rows f' = versionOf rows last := by
      intro f' hf' hsame
      obtain ⟨listing, hget, hlisted⟩ := h 0 _ (List.mem_map.2 ⟨f', hf', rfl⟩)
      rw [npmEntry_eq hname] at hget hlisted
      rw [hsame, hindex] at hget
      cases IndexValue.package.inj (Option.some.inj hget)
      rw [versions_listingOf hname hversion] at hlisted
      simpa using hlisted
    rw [hin f hf rfl, hin g hg heq.symm]
  · intro h now e he
    obtain ⟨f, hf, rfl⟩ := List.mem_map.1 he
    obtain ⟨last, hlast, hsame, hindex⟩ := npmAllIndex_scanNpm (s := s) hname hf
    refine ⟨listingOf (npmEntry s rows last), ?_, ?_⟩
    · rw [← hindex now, npmEntry_eq hname]
    · rw [versions_listingOf hname hversion, npmEntry_eq hname]
      simpa using h f hf last hlast hsame.symm

theorem npmLossless_iff (hname : ∀ row ∈ rows, row.name ≠ some "") (hversion : ∀ row ∈ rows, row.version ≠ some "") :
    NpmLossless s files rows ↔ NpmClear files rows := by
  constructor
  · intro h
    obtain ⟨hdescription, htags⟩ := (npm_supplied hname).1 h.supplied
    obtain ⟨hnamed, hlast⟩ := (npm_metadata hname).1 h.metadata
    exact ⟨hdescription, htags, (npm_others hname).1 h.others, hnamed, hlast, (npm_indexed hname hversion).1 h.indexed⟩
  · intro h
    exact ⟨List.Perm.of_eq (npm_entry hname), (npm_supplied hname).2 ⟨h.description, h.tags⟩, (npm_others hname).2 h.others,
      (npm_metadata hname).2 ⟨h.named, h.last⟩, (npm_indexed hname hversion).2 h.versions⟩

end npm

/-! ## Flat mirrors -/

section flat

variable {s : Site} {parse : String → Info} {files : List File} {rows : List Item}

theorem byFilename_get? (hfile : ∀ row ∈ rows, row.filename ≠ some "") (filename : String) :
    (byFilename rows).get? filename = lastFiled rows filename :=
  Dict.get?_keyed_getD "" hfile filename

theorem lastFiled_filename {filename : String} {row : Item} (h : lastFiled rows filename = some row) :
    row.filename = some filename := by
  simpa using List.find?_some h

theorem served_flatMetadata {β : Type} (l : List β) (g : β → Item) :
    (l.map fun b => flatMetadataEntry (g b)).filter (fun e => e.downloadUrl.isSome) = [] := by
  rw [List.filter_eq_nil_iff]
  intro e he
  obtain ⟨b, -, rfl⟩ := List.mem_map.1 he
  simp [flatMetadataEntry]

theorem metadataOnly_flatMetadata {β : Type} (l : List β) (g : β → Item) :
    (l.map fun b => flatMetadataEntry (g b)).filter (fun e => e.downloadUrl = none) =
      l.map fun b => flatMetadataEntry (g b) := by
  rw [List.filter_eq_self]
  intro e he
  obtain ⟨b, -, rfl⟩ := List.mem_map.1 he
  simp [flatMetadataEntry]

/-- The entries with a file are those of the files. -/
theorem served_scanFlat (s : Site) (parse : String → Info) (files : List File) (rows : List Item) :
    (scanFlat s parse (some files) rows).filter (fun e => e.downloadUrl.isSome) =
      (artifactFiles files).map fun f => flatEntry s parse ((byFilename rows).get? f.name) f := by
  unfold scanFlat
  simp only
  rw [List.filter_append, List.filter_append, served_flatMetadata, served_flatMetadata (g := fun row => row), List.append_nil,
    List.append_nil, List.filter_eq_self]
  intro e he
  obtain ⟨f, -, rfl⟩ := List.mem_map.1 he
  rfl

theorem servedFlat_scanFlat (hfile : ∀ row ∈ rows, row.filename ≠ some "") :
    servedFlat (scanFlat s parse (some files) rows) =
      (artifactFiles files).map fun f => flatEntry s parse (lastFiled rows f.name) f := by
  rw [servedFlat, served_scanFlat]
  simp only [byFilename_get? hfile]

theorem metadataOnly_scanFlat (s : Site) (parse : String → Info) (files : List File) (rows : List Item) :
    (scanFlat s parse (some files) rows).filter (fun e => e.downloadUrl = none) =
      (((byFilename rows).entries.filter fun e => e.1 ∉ (artifactFiles files).map (·.name)).map fun e => flatMetadataEntry e.2) ++
        (rows.filter fun row => row.filename = none).map flatMetadataEntry := by
  unfold scanFlat
  simp only
  rw [List.filter_append, List.filter_append, metadataOnly_flatMetadata, metadataOnly_flatMetadata (g := fun row => row),
    List.filter_eq_nil_iff.2, List.nil_append]
  intro e he
  obtain ⟨f, -, rfl⟩ := List.mem_map.1 he
  simp [flatEntry]

theorem lastFiled_of_mem {filename : String} {row : Item} (hrow : row ∈ rows) (h : row.filename = some filename) :
    ∃ last, lastFiled rows filename = some last := by
  cases hlast : lastFiled rows filename with
  | some last => exact ⟨last, rfl⟩
  | none => exact absurd h (by simpa using List.find?_eq_none.1 hlast row (List.mem_reverse.2 hrow))

theorem getD_or_iff {field part : Option String} {d text : String} :
    (field.or part).getD d = text ↔ Stands field (part.getD d) text := by
  cases field with
  | none => simp [Stands]
  | some value => simp [Stands]

theorem orNone_getD (text : String) : (orNone text).getD "" = text := by
  unfold orNone
  split
  · rename_i hempty
    exact hempty.symm
  · rfl

/-- The entry of a file shows what a row says just where the last row of the file repeats it. -/
theorem supplies_flatEntry_iff {row last : Item} {f : File} :
    row.Supplies (flatEntry s parse (some last) f) ↔ last.Repeats f.name (parse f.name) row := by
  constructor
  · intro h
    refine ⟨fun text hrow => getD_or_iff.1 (h.name text hrow), fun text hrow => ?_, fun text hrow => ?_,
      fun text hrow => getD_or_iff.1 (h.kind text hrow), h.description, h.tags⟩
    · have hversion := getD_or_iff.1 (h.version text hrow)
      rwa [orNone_getD] at hversion
    · have harch := getD_or_iff.1 (h.arch text hrow)
      rwa [orNone_getD] at harch
  · intro h
    refine ⟨fun text hrow => getD_or_iff.2 (h.name text hrow), fun text hrow => getD_or_iff.2 ?_,
      fun text hrow => getD_or_iff.2 ?_, fun text hrow => getD_or_iff.2 (h.kind text hrow), h.description, h.tags⟩
    · rw [orNone_getD]
      exact h.version text hrow
    · rw [orNone_getD]
      exact h.arch text hrow

theorem flat_supplied (hfile : ∀ row ∈ rows, row.filename ≠ some "") :
    (∀ row ∈ rows, row.naming (artifactFiles files) = true → ∀ e ∈ servedFlat (scanFlat s parse (some files) rows),
        e.filename = row.filename → row.Supplies e) ↔
      ∀ row ∈ rows, ∀ f ∈ artifactFiles files, row.filename = some f.name → ∀ last, lastFiled rows f.name = some last →
        last.Repeats f.name (parse f.name) row := by
  rw [servedFlat_scanFlat hfile]
  constructor
  · intro h row hrow f hf hat last hlast
    rw [← supplies_flatEntry_iff (s := s), ← hlast]
    exact h row hrow (naming_eq_true.2 ⟨f, hf, hat⟩) _ (List.mem_map.2 ⟨f, hf, rfl⟩) hat.symm
  · rintro h row hrow - e he hat
    obtain ⟨f, hf, rfl⟩ := List.mem_map.1 he
    obtain ⟨last, hlast⟩ := lastFiled_of_mem hrow hat.symm
    rw [hlast]
    exact supplies_flatEntry_iff.2 (h row hrow f hf hat.symm last hlast)

/-- A flat mirror looks at no row of another file. -/
theorem flat_others (hfile : ∀ row ∈ rows, row.filename ≠ some "") (f : File) :
    (servedFlat (scanFlat s parse (some files) (namingOf (artifactFiles files) f.name rows))).filter
        (fun e => e.filename = some f.name) =
      (servedFlat (scanFlat s parse (some files) rows)).filter fun e => e.filename = some f.name := by
  have hkeep : ∀ row : Item, (row.namingOnly (artifactFiles files) f.name).filename = row.filename := fun row => by
    unfold Item.namingOnly
    split <;> rfl
  have hlast : lastFiled (namingOf (artifactFiles files) f.name rows) f.name = lastFiled rows f.name := by
    have hmap : lastFiled (namingOf (artifactFiles files) f.name rows) f.name =
        (lastFiled rows f.name).map (Item.namingOnly (artifactFiles files) f.name) := by
      unfold lastFiled namingOf
      rw [← List.map_reverse, List.find?_map]
      congr 2
      funext row
      rw [Function.comp_apply, hkeep]
    rw [hmap]
    cases hfound : lastFiled rows f.name with
    | none => rfl
    | some row =>
      rw [Option.map_some, Item.namingOnly, if_neg]
      simp [Item.elsewhere, lastFiled_filename hfound]
  have hfile' : ∀ row ∈ namingOf (artifactFiles files) f.name rows, row.filename ≠ some "" := fun row hrow => by
    obtain ⟨row, hin, rfl⟩ := List.mem_map.1 hrow
    rw [hkeep]
    exact hfile row hin
  rw [servedFlat_scanFlat hfile, servedFlat_scanFlat hfile', List.filter_map, List.filter_map]
  refine List.map_congr_left fun g hg => ?_
  have heq : g.name = f.name := by simpa [flatEntry] using (List.mem_filter.1 hg).2
  rw [heq, hlast]

theorem count_filter_congr {α β : Type} [DecidableEq β] {f : α → β} {x : β} {p q : α → Bool} {l : List α}
    (h : ∀ a ∈ l, f a = x → p a = q a) : ((l.filter p).map f).count x = ((l.filter q).map f).count x := by
  rw [List.count_eq_countP, List.count_eq_countP, List.countP_map, List.countP_map, List.countP_filter, List.countP_filter]
  refine List.countP_congr fun a ha => ?_
  by_cases heq : f a = x
  · rw [h a ha heq]
  · simp [heq]

theorem flat_metadata (hfile : ∀ row ∈ rows, row.filename ≠ some "") :
    (∀ row ∈ rows, row.naming (artifactFiles files) = false →
        ((scanFlat s parse (some files) rows).filter fun e => e.downloadUrl = none).count (flatMetadataEntry row) =
          ((rows.filter fun row => !row.naming (artifactFiles files)).map flatMetadataEntry).count (flatMetadataEntry row)) ↔
      rows.Pairwise fun row later => row.naming (artifactFiles files) = false → row.filename ≠ none →
        later.filename ≠ row.filename := by
  have hfilename : ∀ a b : Item, flatMetadataEntry a = flatMetadataEntry b → a.filename = b.filename := fun a b heq =>
    congrArg (fun e => e.filename) heq
  have hnaming : ∀ row : Item, row.filename = none → row.naming (artifactFiles files) = false := fun row hnone => by
    rw [Item.naming, hnone]
    rfl
  have hiff := Dict.count_keyed_iff (fun row : Item => row.filename.getD "") "" (l := rows)
    (q := fun n => decide (n ∉ (artifactFiles files).map (·.name))) (p := fun row => !row.naming (artifactFiles files))
    (f := flatMetadataEntry)
    (fun row hrow hrow' hne => by
      rw [Item.naming] at hrow'
      cases hat : row.filename with
      | none => rw [hat] at hne; exact absurd rfl hne
      | some n =>
        rw [hat] at hrow'
        simpa using hrow')
    (fun a b heq => by rw [hfilename a b heq])
    (fun a ha b hb heq => by rw [Item.naming, Item.naming, hfilename a b heq])
  have hsome : ∀ row ∈ rows, row.filename ≠ none ↔ row.filename.getD "" ≠ "" := fun row hrow => by
    cases hat : row.filename with
    | none => simp
    | some n =>
      have hne := hfile row hrow
      rw [hat] at hne
      simpa using hne
  -- the entries of the rows without a file do not count for a row with one
  have hrest : ∀ row : Item, row.filename ≠ none →
      ((rows.filter fun row => row.filename = none).map flatMetadataEntry).count (flatMetadataEntry row) = 0 := fun row hne => by
    rw [List.count_eq_zero]
    intro hmem
    obtain ⟨other, hother, heq⟩ := List.mem_map.1 hmem
    have hother : other.filename = none := by simpa using (List.mem_filter.1 hother).2
    exact hne ((hfilename _ _ heq).symm.trans hother)
  constructor
  · intro h
    refine (List.Pairwise.and_mem.1 (hiff.1 fun row hrow hp hne => ?_)).imp ?_
    · have hcount := h row hrow (by simpa using hp)
      rw [metadataOnly_scanFlat, List.count_append, hrest row ((hsome row hrow).2 hne), Nat.add_zero] at hcount
      exact hcount
    · rintro row later ⟨hrow, hlater, hpair⟩ hn hne heq
      exact hpair (by rw [hn]; rfl) ((hsome row hrow).1 hne) (by rw [heq])
  · intro h row hrow hn
    rw [metadataOnly_scanFlat, List.count_append]
    -- an entry under a file name is not that of a row without one
    by_cases hnone : row.filename = none
    · rw [List.count_eq_zero.2, Nat.zero_add]
      · refine count_filter_congr fun other _ heq => ?_
        have hother := (hfilename _ _ heq).trans hnone
        simp [hother, hnaming other hother]
      · intro hmem
        obtain ⟨e, he, heq⟩ := List.mem_map.1 hmem
        obtain ⟨hne, hat, -⟩ := Dict.mem_keyed _ _ (List.mem_filter.1 he).1
        rw [(hfilename _ _ heq).trans hnone] at hat
        exact hne hat.symm
    · rw [hrest row hnone, Nat.add_zero]
      refine hiff.2 ((List.Pairwise.and_mem.1 h).imp ?_) row hrow (by rw [hn]; rfl) ((hsome row hrow).1 hnone)
      rintro a b ⟨ha, hb, hpair⟩ hp hne heq
      refine hpair (by simpa using hp) ((hsome a ha).2 hne) ?_
      cases hat : a.filename with
      | none => rw [hat] at hne; exact absurd rfl hne
      | some n =>
        cases hbt : b.filename with
        | none =>
          rw [hat, hbt] at heq
          rw [hat] at hne
          exact absurd heq.symm hne
        | some m =>
          rw [hat, hbt] at heq
          exact congrArg some heq

theorem flatLossless_iff (hfile : ∀ row ∈ rows, row.filename ≠ some "") :
    FlatLossless s parse files rows ↔ FlatClear parse files rows := by
  constructor
  · intro h
    exact ⟨(flat_supplied hfile).1 h.supplied, (flat_metadata hfile).1 h.metadata⟩
  · intro h
    refine ⟨List.Perm.of_eq ?_, (flat_supplied hfile).2 h.supplied, fun f _ => flat_others hfile f, (flat_metadata hfile).2 h.last⟩
    rw [servedFlat_scanFlat hfile, List.map_map]
    rfl

end flat

/-! ## The rows of the database -/

theorem orNone_ne (text : String) : orNone text ≠ some "" := by
  unfold orNone
  split
  · simp
  · rename_i h
    exact fun heq => h (Option.some.inj heq)

theorem present_ne (value : Option String) : present value ≠ some "" := by
  cases value with
  | none => simp [present]
  | some text => exact orNone_ne text

theorem overlay_ne {h : Host} {m : Mirror} {t : Table} {row : Item} (hrow : row ∈ overlay h m t) :
    row.name ≠ some "" ∧ row.version ≠ some "" ∧ row.filename ≠ some "" := by
  obtain ⟨e, -, rfl⟩ := List.mem_map.1 hrow
  exact ⟨present_ne _, present_ne _, orNone_ne _⟩

/-- A listing of a mirror loses nothing. -/
def Lossless (s : Site) (parse : String → Info) (files : List File) (rows : List Item) : Mirror → Prop
  | .npm => NpmLossless s files rows
  | .debian | .dockerImages => FlatLossless s parse files rows

/-- Its rows and files do not get into each other's way. -/
def Clear (parse : String → Info) (files : List File) (rows : List Item) : Mirror → Prop
  | .npm => NpmClear files rows
  | .debian | .dockerImages => FlatClear parse files rows

def plainSite : Site := ⟨"/npm/files", id⟩

def twoVersions : List File :=
  [⟨["a-1.0.0.tgz"], 1024, "1.0 KB", "2026-01-01T00:00:00Z", none⟩, ⟨["a-2.0.0.tgz"], 1024, "1.0 KB", "2026-01-02T00:00:00Z", none⟩]

end OpenFish.Hub
