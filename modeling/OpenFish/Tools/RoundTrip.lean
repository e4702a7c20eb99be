/-
Export and import of the tools catalog are inverse exactly on catalogs that a folder tree and a `catalog.json` can tell:
an entry without metadata must not share its file name with a described entry of the root, and every category must be one
that a directory stands for.
-/
import OpenFish.Tools.Soundness

namespace OpenFish.Tools

open Lib

/-- What an import is to bring back of the entry under a path: its bytes and what the overlay says of it. -/
def entryAt (c : Catalog) (path : String) : Option (Option Bytes × ToolMeta) :=
  (c.rows.get? path).map fun row => (c.objects.get? row.storageKey, fieldsOf row)

/-- The same entries and the same categories. -/
structure Same (s s' : Shelf) : Prop where
  entries : ∀ path, entryAt s'.catalog path = entryAt s.catalog path
  categories : ∀ slug, s'.categories.get? slug = s.categories.get? slug

/-- The catalog can be exported, and whatever tree shows what was written, its import into an empty catalog gives the same
entries and categories. -/
def RoundTrips (h : ShelfHost) (s : Shelf) : Prop :=
  ∃ x, exportTree h s = .ok x ∧ (∃ t, x.Shows t) ∧
    ∀ t actor, x.Shows t → ∃ report s', importShelf h ⟨some t, actor, false, false⟩ .empty = (.ok report, s') ∧ Same s s'

/-- No metadata at all. -/
def blankMeta : ToolMeta := ⟨none, none, []⟩

/-- A directory stands for the category, or it is the root one and an entry lies in the root. -/
def Implied (c : Catalog) (slug : String) : Prop :=
  (visible slug = true ∧ ∃ path row, c.rows.get? path = some row ∧ topOf path = some slug) ∨
    (slug = rootCategory ∧ ∃ path row, c.rows.get? path = some row ∧ inRoot path = true)

/-- Some entry or category has something that `catalog.json` has to say. -/
def Described (s : Shelf) : Prop :=
  (∃ path row, s.catalog.rows.get? path = some row ∧ fieldsOf row ≠ blankMeta) ∨
    ∃ slug row, s.categories.get? slug = some row ∧ row ≠ {}

/-- What a folder tree with a `catalog.json` can tell. -/
structure Restorable (s : Shelf) : Prop where
  /-- No entry lies below another one. -/
  apart : ∀ path row path' row', s.catalog.rows.get? path = some row → s.catalog.rows.get? path' = some row' →
    below path path' = false
  /-- None lies where `catalog.json` is to be written. -/
  overlay : Described s → ∀ path row, s.catalog.rows.get? path = some row → below "catalog.json" path = false
  /-- No text is empty. -/
  texts : ∀ path row, s.catalog.rows.get? path = some row → row.displayName ≠ some "" ∧ row.description ≠ some ""
  /-- An entry without metadata does not share its name with a described one in the root. -/
  names : ∀ path row row', s.catalog.rows.get? path = some row → fieldsOf row = blankMeta →
    s.catalog.rows.get? (baseName path) = some row' → fieldsOf row' = blankMeta
  /-- The categories are those that the entries imply. -/
  implied : ∀ slug, (∃ row, s.categories.get? slug = some row) ↔ Implied s.catalog slug
  categories : ∀ slug row, s.categories.get? slug = some row →
    row.name ≠ some "" ∧ row.description ≠ some "" ∧ row.icon ≠ some "" ∧ (slug = rootCategory → row = {})

/-! ## What an overlay says -/

/-- A text that an overlay shows. -/
def said (value : Option String) : Option String := value.filter (· ≠ "")

theorem said_some {s : String} (hs : s ≠ "") : said (some s) = some s := by
  simp [said, hs]

theorem said_eq_self {value : Option String} : said value = value ↔ value ≠ some "" := by
  cases value with
  | none => simp [said]
  | some s => by_cases hs : s = "" <;> simp [said, hs]

theorem said_ne_empty (value : Option String) : said value ≠ some "" := by
  cases value with
  | none => simp [said]
  | some s => by_cases hs : s = "" <;> simp [said, hs]

theorem lookup_field (key key' : String) (value : Option String) :
    (field key value).lookup key' = if key' = key then (said value).map .str else none := by
  cases value with
  | none => simp [field, said]
  | some s =>
    by_cases hs : s = ""
    · simp [field, said, hs]
    · by_cases hkey : key' = key
      · simp [field, said, hs, hkey]
      · simp [field, hs, hkey, List.lookup_cons, beq_false_of_ne hkey]

theorem field_eq_nil {key : String} {value : Option String} : field key value = [] ↔ said value = none := by
  cases value with
  | none => simp [field, said]
  | some s => by_cases hs : s = "" <;> simp [field, said, hs]

/-- The value of a field as it is read again. -/
def shownText (value : Option String) : Json := ((said value).map Json.str).getD .null

/-- What an overlay has of a category. -/
def saidCategory (row : Category) : Category := ⟨said row.name, said row.description, said row.icon⟩

theorem get_categoryItem (row : Category) : Json.get (categoryItem row) "name" = shownText row.name ∧
    Json.get (categoryItem row) "description" = shownText row.description ∧
      Json.get (categoryItem row) "icon" = shownText row.icon := by
  simp only [Json.get, categoryItem, List.lookup_append, lookup_field, shownText]
  refine ⟨?_, ?_, ?_⟩ <;> simp

theorem categoryItem_eq_nil {row : Category} : categoryItem row = [] ↔ saidCategory row = {} := by
  simp only [categoryItem, List.append_eq_nil_iff, field_eq_nil, saidCategory, Category.mk.injEq, and_assoc]

/-- What an overlay has of an entry. -/
def saidFields (row : CatalogEntry) : ToolMeta := ⟨said row.displayName, said row.description, row.tags⟩

theorem get_toolItem (row : CatalogEntry) : Json.get (toolItem row) "name" = shownText row.displayName ∧
    Json.get (toolItem row) "description" = shownText row.description ∧
      Json.get (toolItem row) "tags" = if row.tags = [] then .null else .arr (row.tags.map .str) := by
  simp only [Json.get, toolItem, List.lookup_append, lookup_field, shownText]
  by_cases htags : row.tags = []
  · simp [htags]
  · simp [htags, List.lookup_cons]

theorem toolItem_eq_nil {row : CatalogEntry} : toolItem row = [] ↔ saidFields row = blankMeta := by
  simp only [toolItem, List.append_eq_nil_iff, field_eq_nil, saidFields, blankMeta, ToolMeta.mk.injEq, and_assoc]
  refine and_congr_right fun _ => and_congr_right fun _ => ?_
  split <;> simp_all

/-! ## What an import reads of it -/

section reading

variable {h : ShelfHost} {s : Shelf}

/-- The overlay of an exported tree, as an import has it. -/
structure Tells (h : ShelfHost) (s : Shelf) (overlay : Json) : Prop where
  categories : overlaySection overlay "categories" = .obj (overlayCategories h s)
  tools : overlaySection overlay "tools" = .obj (overlayTools h s)

theorem orEmpty_obj (entries : List (String × Json)) : orEmpty (.obj entries) = .obj entries := by
  cases entries <;> rfl

theorem get_overlayTools (path : String) : (overlayTools h s).lookup path =
    (s.catalog.rows.get? path).bind fun row => if toolItem row = [] then none else some (.obj (toolItem row)) := by
  have hform : overlayTools h s = (h.ordered s.catalog.rows.entries).filterMap fun e =>
      (if toolItem e.2 = [] then none else some (Json.obj (toolItem e.2))).map (Prod.mk e.1) := by
    unfold overlayTools
    congr 1
    funext e
    split <;> rfl
  rw [hform]
  exact Dict.lookup_filterMap (h.ordered_perm _) (fun _ row => if toolItem row = [] then none else some (Json.obj (toolItem row)))
    path

theorem get_overlayCategories (slug : String) : (overlayCategories h s).lookup slug =
    (s.categories.get? slug).bind fun row =>
      if slug = rootCategory ∨ categoryItem row = [] then none else some (.obj (categoryItem row)) := by
  have hform : overlayCategories h s = (h.ordered s.categories.entries).filterMap fun e =>
      (if e.1 = rootCategory ∨ categoryItem e.2 = [] then none else some (Json.obj (categoryItem e.2))).map
        (Prod.mk e.1) := by
    unfold overlayCategories
    congr 1
    funext e
    split <;> rfl
  rw [hform]
  exact Dict.lookup_filterMap (h.ordered_perm _)
    (fun slug row => if slug = rootCategory ∨ categoryItem row = [] then none else some (Json.obj (categoryItem row))) slug

/-- A text is read as it was written. -/
theorem stripped?_shownText {value : Option String} (hstripped : ∀ s, value = some s → Text.strip s = s) :
    stripped? h.toHost (shownText value) = said value := by
  cases value with
  | none => rfl
  | some s =>
    by_cases hs : s = ""
    · rw [hs]
      rfl
    · have htruthy : (Json.str s).truthy = true := by simp [Json.truthy, hs]
      rw [shownText, said_some hs, Option.map_some, Option.getD_some, stripped?, if_pos htruthy]
      exact congrArg some (hstripped s rfl)

theorem iterated_tags (tags : List String) :
    iterated h.toHost (if (if tags = [] then Json.null else .arr (tags.map .str)).truthy then
      if tags = [] then .null else .arr (tags.map .str) else .arr []) = .ok tags := by
  by_cases htags : tags = []
  · simp [htags, iterated, Json.truthy]
  · have htexts : (tags.map Json.str).map (·.text h.render) = tags := by
      rw [List.map_map]
      exact List.map_id'' (fun _ => rfl) tags
    simp [htags, iterated, Json.truthy, htexts]

theorem overlayMetadata_toolItem {row : CatalogEntry} (hstripped : Stripped (fieldsOf row)) :
    overlayMetadata h.toHost (.obj (toolItem row)) = .ok (saidFields row) := by
  obtain ⟨hname, hdescription, htags⟩ := get_toolItem row
  simp only [overlayMetadata, member, hname, hdescription, htags, bind, Except.bind, pure, Except.pure]
  have hread : stripped? h.toHost (shownText row.displayName) = said row.displayName :=
    stripped?_shownText hstripped.displayName
  have hread' : stripped? h.toHost (shownText row.description) = said row.description :=
    stripped?_shownText hstripped.description
  rw [iterated_tags, hread, hread']
  rfl

/-- What is read of an entry: what is said under its path, else what is said under its name. -/
def rereadFields (c : Catalog) (path : String) (row : CatalogEntry) : ToolMeta :=
  if toolItem row = [] then ((c.rows.get? (baseName path)).map saidFields).getD blankMeta else saidFields row

theorem metadataOf_told (hs : Sound h s) {overlay : Json} (ht : Tells h s overlay) {path : String} {row : CatalogEntry}
    (hrow : s.catalog.rows.get? path = some row) :
    metadataOf h.toHost overlay path = .ok (rereadFields s.catalog path row) := by
  simp only [metadataOf, ht.tools, member, Json.get, get_overlayTools, hrow, bind, Except.bind, Option.bind_some]
  by_cases hitem : toolItem row = []
  · rw [rereadFields, if_pos hitem, if_pos hitem]
    cases hbase : s.catalog.rows.get? (baseName path) with
    | none => rfl
    | some row' =>
      by_cases hitem' : toolItem row' = []
      · have hblank := toolItem_eq_nil.1 hitem'
        simp only [Option.bind_some, if_pos hitem', Option.map_some, Option.getD_some, hblank]
        rfl
      · simp only [Option.bind_some, if_neg hitem', Option.map_some, Option.getD_some, orEmpty_obj]
        exact overlayMetadata_toolItem (hs.kept.imported _ _ hbase).stripped
  · rw [rereadFields, if_neg hitem, if_neg hitem]
    have htruthy : (Json.obj (toolItem row)).truthy = true := by simp [Json.truthy, hitem]
    simp only [Option.getD_some, htruthy, if_true]
    exact overlayMetadata_toolItem (hs.kept.imported _ _ hrow).stripped

theorem stored_shown {row : Category} (hrow : Storable h row) :
    stored h ⟨shownText row.name, shownText row.description, shownText row.icon⟩ = .ok (saidCategory row) := by
  have hcolumn (most : Nat) (value : Option String) (hvalue : ∀ s, value = some s → h.column most (.str s) = .ok (some s)) :
      h.column most (shownText value) = .ok (said value) := by
    cases value with
    | none => exact h.column_null most
    | some s =>
      by_cases hs : s = ""
      · rw [hs]
        exact h.column_null most
      · rw [shownText, said_some hs]
        exact hvalue s rfl
  simp only [stored, hcolumn nameMax row.name hrow.name, hcolumn descriptionMax row.description hrow.description,
    hcolumn iconMax row.icon hrow.icon]
  rfl

theorem stored_null (h : ShelfHost) : stored h ⟨.null, .null, .null⟩ = .ok {} := by
  simp only [stored, h.column_null]
  rfl

/-- What is read of a category. -/
def rereadCategory (categories : Dict String Category) (slug : String) : Category :=
  if slug = rootCategory then {} else ((categories.get? slug).map saidCategory).getD {}

theorem stored_told (hs : Sound h s) {overlay : Json} (ht : Tells h s overlay) (slug : String) :
    ∃ m, categoryMeta overlay slug = .ok m ∧ stored h m = .ok (rereadCategory s.categories slug) := by
  have habsent (hnone : (overlayCategories h s).lookup slug = none) : categoryMeta overlay slug = .ok ⟨.null, .null, .null⟩ := by
    simp only [categoryMeta, ht.categories, member, Json.get, hnone]
    rfl
  have hlookup := get_overlayCategories (h := h) (s := s) slug
  unfold rereadCategory
  by_cases hroot : slug = rootCategory
  · rw [if_pos hroot]
    refine ⟨_, habsent (hlookup.trans ?_), stored_null h⟩
    simp [hroot]
  · rw [if_neg hroot]
    cases hrow : s.categories.get? slug with
    | none =>
      refine ⟨_, habsent (hlookup.trans ?_), stored_null h⟩
      rw [hrow]
      rfl
    | some row =>
      by_cases hitem : categoryItem row = []
      · refine ⟨_, habsent (hlookup.trans ?_), ?_⟩
        · simp [hrow, hitem]
        · rw [Option.map_some, Option.getD_some, categoryItem_eq_nil.1 hitem]
          exact stored_null h
      · have htold : (overlayCategories h s).lookup slug = some (.obj (categoryItem row)) := by
          rw [hlookup, hrow]
          simp [hroot, hitem]
        obtain ⟨hname, hdescription, hicon⟩ := get_categoryItem row
        have htruthy : orEmpty (.obj (categoryItem row)) = .obj (categoryItem row) := orEmpty_obj _
        refine ⟨⟨shownText row.name, shownText row.description, shownText row.icon⟩, ?_, stored_shown (hs.storable _ _ hrow)⟩
        simp only [categoryMeta, ht.categories, member, Json.get, htold, Option.getD_some, bind, Except.bind, htruthy]
        rw [← hname, ← hdescription, ← hicon]
        rfl

end reading

/-! ## What an export writes -/

section exporting

variable {h : ShelfHost} {s : Shelf}

/-- The file of an entry. -/
def fileOf (c : Catalog) (e : String × CatalogEntry) : String × Bytes := (e.1, (c.objects.get? e.2.storageKey).getD [])

/-- None of the paths lies below another. -/
def Apart (paths : List String) : Prop := ∀ p ∈ paths, ∀ q ∈ paths, below p q = false

theorem not_below_self (path : String) : below path path = false := by
  rw [below, Text.startsWith, Bool.eq_false_iff, ne_eq, List.isPrefixOf_iff_prefix]
  intro hpre
  have hlength := hpre.length_le
  simp only [String.toList_append, List.length_append] at hlength
  have : "/".toList.length = 1 := rfl
  omega

theorem contained_of_visible {path : String} (hvisible : visible path = true) : contained path = true := by
  rw [contained, decide_eq_true_iff]
  intro hmem
  simp only [visible, Bool.and_eq_true, Bool.not_eq_true', List.any_eq_false] at hvisible
  exact hvisible.1.1 ".." hmem (by decide)

/-- The files are written exactly if none lies below another. -/
theorem exportFiles_spec {c : Catalog} : ∀ (rows : List (String × CatalogEntry)) (files : List (String × Bytes)),
    (∀ e ∈ rows, contained e.1 = true ∧ ∃ data, c.objects.get? e.2.storageKey = some data) →
    (files.map Prod.fst ++ rows.map Prod.fst).Nodup → Apart (files.map Prod.fst) →
      (Apart (files.map Prod.fst ++ rows.map Prod.fst) ∧ exportFiles c rows files = .ok (files ++ rows.map (fileOf c))) ∨
        (¬ Apart (files.map Prod.fst ++ rows.map Prod.fst) ∧ ∃ why, exportFiles c rows files = .error why)
  | [], files, _, _, hapart => by
    refine .inl ⟨?_, ?_⟩
    · simpa using hapart
    · simp [exportFiles]
  | (path, row) :: rows, files, hrows, hnodup, hapart => by
    obtain ⟨⟨hcontained, data, hdata⟩, hrest⟩ := List.forall_mem_cons.1 hrows
    have hnew : path ∉ files.map Prod.fst := by
      rw [List.map_cons, List.nodup_append] at hnodup
      exact fun hmem => hnodup.2.2 _ hmem _ (List.mem_cons_self ..) rfl
    have hkeep : files.filter (fun f => f.1 ≠ path) = files :=
      List.filter_eq_self.2 fun f hf => decide_eq_true fun heq => hnew (List.mem_map.2 ⟨f, hf, heq⟩)
    have hmaps : (files ++ [(path, data)]).map Prod.fst ++ rows.map Prod.fst =
        files.map Prod.fst ++ ((path, row) :: rows).map Prod.fst := by simp
    have hstep : exportFiles c ((path, row) :: rows) files =
        writeFile files path data >>= fun files => exportFiles c rows files := by
      rw [exportFiles, if_neg (by rw [hcontained]; decide), hdata]
    by_cases hclash : files.any (fun f => below path f.1 || below f.1 path) = true
    · -- one file would have to be a directory of the other
      refine .inr ⟨fun hall => ?_, path, ?_⟩
      · obtain ⟨f, hf, hbelow⟩ := List.any_eq_true.1 hclash
        have hmem : f.1 ∈ files.map Prod.fst ++ ((path, row) :: rows).map Prod.fst :=
          List.mem_append_left _ (List.mem_map.2 ⟨f, hf, rfl⟩)
        have hpath : path ∈ files.map Prod.fst ++ ((path, row) :: rows).map Prod.fst :=
          List.mem_append_right _ (List.mem_cons_self ..)
        rw [hall _ hpath _ hmem, hall _ hmem _ hpath] at hbelow
        cases hbelow
      · rw [hstep, writeFile, if_pos hclash]
        rfl
    · have hwrite : writeFile files path data = .ok (files ++ [(path, data)]) := by rw [writeFile, if_neg hclash, hkeep]
      -- it is written, and everything written is apart still
      have hapart' : Apart ((files ++ [(path, data)]).map Prod.fst) := by
        have hclear (f : String × Bytes) (hf : f ∈ files) : below path f.1 = false ∧ below f.1 path = false := by
          simpa using (List.any_eq_false.1 (Bool.eq_false_iff.2 hclash)) f hf
        intro p hp q hq
        simp only [List.map_append, List.map_cons, List.map_nil, List.mem_append, List.mem_singleton] at hp hq
        rcases hp with hp | rfl
        · rcases hq with hq | rfl
          · exact hapart p hp q hq
          · obtain ⟨f, hf, rfl⟩ := List.mem_map.1 hp
            exact (hclear f hf).2
        · rcases hq with hq | rfl
          · obtain ⟨f, hf, rfl⟩ := List.mem_map.1 hq
            exact (hclear f hf).1
          · exact not_below_self _
      have hfile : fileOf c (path, row) = (path, data) := by rw [fileOf, hdata]; rfl
      have hmore := exportFiles_spec rows (files ++ [(path, data)]) hrest (by rw [hmaps]; exact hnodup) hapart'
      rw [hmaps] at hmore
      rw [hstep, hwrite]
      have hlist : files ++ [(path, data)] ++ rows.map (fileOf c) = files ++ ((path, row) :: rows).map (fileOf c) := by
        simp [hfile]
      rw [hlist] at hmore
      exact hmore

theorem mem_orderedPaths {path : String} : path ∈ (h.ordered s.catalog.rows.entries).map Prod.fst ↔
    ∃ row, s.catalog.rows.get? path = some row := by
  rw [List.mem_map]
  constructor
  · rintro ⟨e, he, rfl⟩
    exact ⟨e.2, Dict.get?_eq_some.2 ((h.ordered_perm _).mem_iff.1 he)⟩
  · rintro ⟨row, hrow⟩
    exact ⟨(path, row), (h.ordered_perm _).mem_iff.2 (Dict.get?_eq_some.1 hrow), rfl⟩

/-- Nothing is in the way of what an export writes. -/
structure Clear (h : ShelfHost) (s : Shelf) : Prop where
  apart : ∀ path row path' row', s.catalog.rows.get? path = some row → s.catalog.rows.get? path' = some row' →
    below path path' = false
  overlay : ¬ (overlayCategories h s = [] ∧ overlayTools h s = []) → ∀ path row, s.catalog.rows.get? path = some row →
    below "catalog.json" path = false

/-- The tree holds the files of the entries, and an overlay that tells the rest. -/
structure Wrote (h : ShelfHost) (s : Shelf) (x : Exported) : Prop where
  files : x.files = (h.ordered s.catalog.rows.entries).map (fileOf s.catalog)
  told : Tells h s (x.overlay.getD (.obj []))

theorem exportTree_spec (hs : Sound h s) :
    (Clear h s ∧ ∃ x, exportTree h s = .ok x ∧ Wrote h s x) ∨ (¬ Clear h s ∧ ∃ why, exportTree h s = .error why) := by
  have hready : ∀ e ∈ h.ordered s.catalog.rows.entries,
      contained e.1 = true ∧ ∃ data, s.catalog.objects.get? e.2.storageKey = some data := by
    intro e he
    have hrow : s.catalog.rows.get? e.1 = some e.2 := Dict.get?_eq_some.2 ((h.ordered_perm _).mem_iff.1 he)
    obtain ⟨data, hdata, -⟩ := hs.kept.backed.bytes _ _ hrow
    exact ⟨contained_of_visible (hs.kept.imported _ _ hrow).visible, data, hdata⟩
  have hnodup : ((h.ordered s.catalog.rows.entries).map Prod.fst).Nodup := by
    rw [((h.ordered_perm _).map _).nodup_iff]
    exact s.catalog.rows.nodup
  have hwritten := exportFiles_spec (h.ordered s.catalog.rows.entries) [] hready (by simpa using hnodup)
    (fun p hp => absurd hp List.not_mem_nil)
  rw [List.map_nil, List.nil_append, List.nil_append] at hwritten
  unfold exportTree
  rcases hwritten with ⟨hapart, hok⟩ | ⟨hnot, why, herror⟩
  · have hclear {path path' : String} {row row' : CatalogEntry} (hrow : s.catalog.rows.get? path = some row)
        (hrow' : s.catalog.rows.get? path' = some row') : below path path' = false :=
      hapart _ (mem_orderedPaths.2 ⟨row, hrow⟩) _ (mem_orderedPaths.2 ⟨row', hrow'⟩)
    rw [hok]
    dsimp only
    -- with nothing to overlay no catalog.json is written
    by_cases hempty : overlayCategories h s = [] ∧ overlayTools h s = []
    · rw [if_pos hempty]
      refine .inl ⟨⟨fun _ _ _ _ => hclear, fun hne => absurd hempty hne⟩, _, rfl, rfl, ?_, ?_⟩
      · rw [hempty.1]
        rfl
      · rw [hempty.2]
        rfl
    · rw [if_neg hempty]
      have hfiles (name : String) : ((h.ordered s.catalog.rows.entries).map (fileOf s.catalog)).any (fun f => below name f.1) =
          true ↔ ∃ path row, s.catalog.rows.get? path = some row ∧ below name path = true := by
        rw [List.any_map, List.any_eq_true]
        constructor
        · rintro ⟨e, he, hbelow⟩
          exact ⟨e.1, e.2, Dict.get?_eq_some.2 ((h.ordered_perm _).mem_iff.1 he), hbelow⟩
        · rintro ⟨path, row, hrow, hbelow⟩
          exact ⟨(path, row), (h.ordered_perm _).mem_iff.2 (Dict.get?_eq_some.1 hrow), hbelow⟩
      by_cases hblocked : ((h.ordered s.catalog.rows.entries).map (fileOf s.catalog)).any (fun f => below "catalog.json" f.1) = true
      · rw [if_pos hblocked]
        obtain ⟨path, row, hrow, hbelow⟩ := (hfiles _).1 hblocked
        refine .inr ⟨fun hc => ?_, _, rfl⟩
        rw [hc.overlay hempty path row hrow] at hbelow
        cases hbelow
      · rw [if_neg hblocked]
        refine .inl ⟨⟨fun _ _ _ _ => hclear, fun _ path row hrow => ?_⟩, _, rfl, rfl, ?_, ?_⟩
        · exact Bool.eq_false_iff.2 fun hbelow => hblocked ((hfiles _).2 ⟨path, row, hrow, hbelow⟩)
        · exact orEmpty_obj _
        · exact orEmpty_obj _
  · rw [herror]
    refine .inr ⟨fun hc => hnot fun p hp q hq => ?_, _, rfl⟩
    obtain ⟨row, hrow⟩ := mem_orderedPaths.1 hp
    obtain ⟨row', hrow'⟩ := mem_orderedPaths.1 hq
    exact hc.apart p row q row' hrow hrow'

theorem mem_files {x : Exported} (hs : Sound h s) (hw : Wrote h s x) {path : String} {data : Bytes} :
    (path, data) ∈ x.files ↔
      ∃ row, s.catalog.rows.get? path = some row ∧ s.catalog.objects.get? row.storageKey = some data := by
  rw [hw.files, List.mem_map]
  constructor
  · rintro ⟨e, he, heq⟩
    obtain ⟨rfl, rfl⟩ := Prod.mk.inj heq
    have hrow : s.catalog.rows.get? e.1 = some e.2 := Dict.get?_eq_some.2 ((h.ordered_perm _).mem_iff.1 he)
    obtain ⟨data, hdata, -⟩ := hs.kept.backed.bytes _ _ hrow
    exact ⟨e.2, hrow, by rw [hdata]; rfl⟩
  · rintro ⟨row, hrow, hdata⟩
    refine ⟨(path, row), (h.ordered_perm _).mem_iff.2 (Dict.get?_eq_some.1 hrow), ?_⟩
    rw [fileOf, hdata]
    rfl

/-- A tree that an import can find. -/
theorem exists_shows {x : Exported} (hs : Sound h s) (hw : Wrote h s x) : ∃ t, x.Shows t := by
  have hpaths : x.files.map Prod.fst = (h.ordered s.catalog.rows.entries).map Prod.fst := by
    rw [hw.files, List.map_map]
    rfl
  refine ⟨{
    overlay := x.overlay.getD (.obj [])
    directories := x.files.filterMap fun f => topOf f.1
    files := x.files.map fun f => ⟨f.1, .ok f.2, .ok 0⟩
    distinct := ?_
    relative := ?_ }, rfl, fun slug => ?_, fun f hf => ?_, fun file hfile => ?_⟩
  · rw [List.map_map]
    show (x.files.map Prod.fst).Nodup
    rw [hpaths, ((h.ordered_perm _).map _).nodup_iff]
    exact s.catalog.rows.nodup
  · intro file hfile
    obtain ⟨f, hf, rfl⟩ := List.mem_map.1 hfile
    obtain ⟨row, hrow, -⟩ := (mem_files hs hw).1 hf
    exact (hs.kept.imported _ _ hrow).relative
  · exact List.mem_filterMap
  · exact ⟨⟨f.1, .ok f.2, .ok 0⟩, List.mem_map.2 ⟨f, hf, rfl⟩, rfl⟩
  · obtain ⟨f, hf, rfl⟩ := List.mem_map.1 (List.mem_of_mem_filter hfile)
    exact ⟨rfl, f.2, rfl, hf⟩

end exporting

/-! ## What an import makes of it -/

section importing

variable {h : ShelfHost}

/-- The next query leaves these categories. -/
def Ready (h : ShelfHost) (categories : Dict String Category) (s : Session) : Prop :=
  flush h s = .ok { s with current := categories, pending := none }

variable {categories : Dict String Category} {s : Session}

theorem Ready.upsertCategory (hr : Ready h categories s) (slug : String) {m : CategoryMeta} {row : Category}
    (hrow : stored h m = .ok row) :
    ∃ s', upsertCategory h slug m s = .ok s' ∧ Ready h (categories.set slug row) s' ∧ s'.catalog = s.catalog := by
  refine ⟨{ s with current := categories, pending := some (slug, m) }, ?_, ?_, rfl⟩
  · rw [Tools.upsertCategory, hr]
    rfl
  · simp only [Ready, flush, hrow]
    rfl

theorem Ready.importDirectories {overlay : Json} {f : String → Category} : ∀ {slugs : List String}
    {categories : Dict String Category} {s : Session}, Ready h categories s →
    (∀ slug ∈ slugs, ∃ m, categoryMeta overlay slug = .ok m ∧ stored h m = .ok (f slug)) →
    ∃ s', importDirectories h overlay false slugs s = .ok s' ∧
      Ready h (slugs.foldl (fun d slug => d.set slug (f slug)) categories) s' ∧ s'.catalog = s.catalog
  | [], _, s, hr, _ => ⟨s, rfl, hr, rfl⟩
  | slug :: slugs, categories, s, hr, hall => by
    obtain ⟨⟨m, hmeta, hstored⟩, hrest⟩ := List.forall_mem_cons.1 hall
    obtain ⟨s₁, hupsert, hr₁, hcatalog₁⟩ := hr.upsertCategory slug hstored
    obtain ⟨s₂, hloop, hr₂, hcatalog₂⟩ := Ready.importDirectories hr₁ hrest
    refine ⟨s₂, ?_, hr₂, hcatalog₂.trans hcatalog₁⟩
    rw [Tools.importDirectories, if_neg Bool.false_ne_true, hmeta]
    show (Tools.upsertCategory h slug m s >>= _) = _
    rw [hupsert]
    exact hloop

/-- A file that can be read, and whose row the database takes. -/
structure Readable (h : ShelfHost) (overlay : Json) (file : SourceFile) (data : Bytes) (fields : ToolMeta) : Prop where
  relative : stripSlashes file.path = file.path
  content : file.content = .ok data
  told : metadataOf h.toHost overlay file.path = .ok fields
  mtime : file.mtime.isOk = true
  taken : h.refuses fields = none

theorem importEntry_new {overlay : Json} {file : SourceFile} {data : Bytes} {fields : ToolMeta} {c : Catalog}
    (hf : Readable h overlay file data fields) (actor : Option String) (hnone : c.rows.get? file.path = none) :
    ∃ row, importEntry h.toHost overlay actor false file c = (.created, record c data file.path row) ∧
      row.storageKey = c.next ∧ fieldsOf row = fields ∧ Describes h.toHost row data := by
  have hfind : find c file.path = none := by rw [find, hf.relative, hnone]
  cases hmtime : file.mtime with
  | error why =>
    have := hf.mtime
    rw [hmtime] at this
    cases this
  | ok modified =>
    refine ⟨savedRow (entryArgs h.toHost actor file.path data fields modified c.next) (put c data), ?_, rfl, rfl, rfl, rfl⟩
    simp only [importEntry, hf.content, hf.told, hmtime, hfind, hf.taken, Option.any_none, Bool.false_eq_true, if_false,
      Option.map_none, saveEntry_put]
    rw [show (entryArgs h.toHost actor file.path data fields modified c.next).path = file.path from rfl, hf.relative]

theorem entryAt_record {c : Catalog} (hb : Backed h.toHost c) {data : Bytes} {path : String} {row : CatalogEntry}
    (hkey : row.storageKey = c.next) (path' : String) : entryAt (record c data path row) path' =
      if path' = path then some (some data, fieldsOf row) else entryAt c path' := by
  show ((c.rows.set path row).get? path').map (fun row => ((c.objects.set c.next data).get? row.storageKey, fieldsOf row)) = _
  rw [Dict.get?_set]
  by_cases heq : path' = path
  · rw [if_pos heq, if_pos heq, Option.map_some, Dict.get?_set, if_pos hkey]
  · rw [if_neg heq, if_neg heq]
    cases hrow : c.rows.get? path' with
    | none => simp [entryAt, hrow]
    | some old =>
      have hne : old.storageKey ≠ c.next := Nat.ne_of_lt (hb.lt_next hrow)
      rw [Option.map_some, Dict.get?_set, if_neg hne, entryAt, hrow, Option.map_some]

theorem entryAt_eq_none {c : Catalog} {path : String} : entryAt c path = none ↔ c.rows.get? path = none :=
  Option.map_eq_none_iff

theorem Ready.importOne {overlay : Json} {file : SourceFile} {data : Bytes} {fields : ToolMeta}
    {p : ImportReport × Session} (hr : Ready h categories p.2) (hb : Backed h.toHost p.2.catalog)
    (hf : Readable h overlay file data fields) (actor : Option String) (hnone : entryAt p.2.catalog file.path = none) :
    ∃ p', importOne h overlay actor false file p = (none, p') ∧ Ready h categories p'.2 ∧ Backed h.toHost p'.2.catalog ∧
      ∀ path, entryAt p'.2.catalog path = if path = file.path then some (some data, fields) else entryAt p.2.catalog path := by
  obtain ⟨row, himport, hkey, rfl, hdescribes⟩ := importEntry_new hf actor (entryAt_eq_none.1 hnone)
  have hlooks : (file.content.isOk && (metadataOf h.toHost overlay file.path).isOk && file.mtime.isOk) = true := by
    rw [hf.content, hf.told, hf.mtime]
    rfl
  refine ⟨(p.1.add file.path .created,
    { catalog := record p.2.catalog data file.path row, saved := categories, current := categories, pending := none }),
    ?_, rfl, hb.record hkey hdescribes, entryAt_record hb hkey⟩
  have hflush : flush h p.2 = .ok { p.2 with current := categories, pending := none } := hr
  simp only [Tools.importOne, importFile, hlooks, if_true, hflush, himport, settle, Bool.false_eq_true, if_false]

/-- The loop over files that are all new. -/
theorem loop_importOne {overlay : Json} (actor : Option String) (want : String → Option (Option Bytes × ToolMeta)) :
    ∀ {files : List SourceFile} {p : ImportReport × Session}, Ready h categories p.2 → Backed h.toHost p.2.catalog →
    (files.map (·.path)).Nodup → (∀ file ∈ files, entryAt p.2.catalog file.path = none) →
    (∀ file ∈ files, ∃ data fields, Readable h overlay file data fields ∧ want file.path = some (some data, fields)) →
    ∃ p', loop (importOne h overlay actor false) files p = (none, p') ∧ Ready h categories p'.2 ∧
      ∀ path, entryAt p'.2.catalog path = if path ∈ files.map (·.path) then want path else entryAt p.2.catalog path
  | [], p, hr, _, _, _, _ => ⟨p, rfl, hr, fun _ => (if_neg List.not_mem_nil).symm⟩
  | file :: files, p, hr, hb, hnodup, hnew, hall => by
    obtain ⟨hother, hnodup⟩ := List.nodup_cons.1 hnodup
    obtain ⟨hnone, hnew⟩ := List.forall_mem_cons.1 hnew
    obtain ⟨⟨data, fields, hf, hwant⟩, hall⟩ := List.forall_mem_cons.1 hall
    obtain ⟨p₁, hone, hr₁, hb₁, hentries₁⟩ := hr.importOne hb hf actor hnone
    have hnew₁ : ∀ other ∈ files, entryAt p₁.2.catalog other.path = none := by
      intro other hmem
      have hne : other.path ≠ file.path := fun heq => hother (List.mem_map.2 ⟨other, hmem, heq⟩)
      rw [hentries₁, if_neg hne]
      exact hnew other hmem
    obtain ⟨p₂, hloop, hr₂, hentries₂⟩ := loop_importOne actor want hr₁ hb₁ hnodup hnew₁ hall
    refine ⟨p₂, (loop_cons hone files).trans hloop, hr₂, fun path => ?_⟩
    rw [hentries₂, hentries₁, List.map_cons]
    by_cases hmem : path ∈ files.map (·.path)
    · rw [if_pos hmem, if_pos (List.mem_cons_of_mem _ hmem)]
    · rw [if_neg hmem]
      by_cases heq : path = file.path
      · rw [if_pos heq, heq, if_pos (List.mem_cons_self ..), hwant]
      · rw [if_neg heq, if_neg fun hcons => (List.mem_cons.1 hcons).elim heq hmem]

theorem Ready.finish (hr : Ready h categories s) (tree : SourceTree) :
    ∃ s', finish h false tree s = .ok s' ∧ s'.catalog = s.catalog ∧
      s'.saved = if tree.seen.any (fun file => inRoot file.path) then categories.set rootCategory {} else categories := by
  have hcommit {s : Session} {categories : Dict String Category} (hr : Ready h categories s) :
      commit h s = .ok { s with saved := categories, current := categories, pending := none } := by
    rw [commit, hr]
    rfl
  unfold Tools.finish upsertRoot
  rw [if_neg Bool.false_ne_true]
  by_cases hroot : tree.seen.any (fun file => inRoot file.path) = true
  · rw [if_pos hroot, if_pos hroot]
    obtain ⟨s₁, hupsert, hr₁, hcatalog₁⟩ := hr.upsertCategory rootCategory (stored_null h)
    rw [hupsert]
    exact ⟨_, hcommit hr₁, hcatalog₁, rfl⟩
  · rw [if_neg hroot, if_neg hroot]
    exact ⟨_, hcommit hr, rfl, rfl⟩

/-! ## What the two come to -/

theorem taken_saidFields {row : CatalogEntry} (htaken : h.refuses (fieldsOf row) = none) :
    h.refuses (saidFields row) = none := by
  have hsub {value : Option String} {s : String} (hs : said value = some s) : value = some s := (Option.filter_eq_some_iff.1 hs).1
  obtain ⟨hname, hdescription, htags⟩ := (h.refuses_none _).1 htaken
  exact (h.refuses_none _).2 ⟨fun s hs => hname s (hsub hs), fun s hs => hdescription s (hsub hs), htags⟩

theorem taken_blankMeta (h : ShelfHost) : h.refuses blankMeta = none :=
  (h.refuses_none _).2 ⟨fun _ hs => (by cases hs), fun _ hs => (by cases hs), fun _ hs => absurd hs List.not_mem_nil⟩

theorem taken_rereadFields {shelf : Shelf} (hs : Sound h shelf) {path : String} {row : CatalogEntry}
    (hrow : shelf.catalog.rows.get? path = some row) : h.refuses (rereadFields shelf.catalog path row) = none := by
  unfold rereadFields
  split
  · cases hbase : shelf.catalog.rows.get? (baseName path) with
    | none => exact taken_blankMeta h
    | some row' => exact taken_saidFields (hs.kept.imported _ _ hbase).taken
  · exact taken_saidFields (hs.kept.imported _ _ hrow).taken

variable {shelf : Shelf} {x : Exported} {t : SourceTree}

theorem seen_shows (hs : Sound h shelf) (hw : Wrote h shelf x) (ht : x.Shows t) {path : String} :
    path ∈ t.seen.map (·.path) ↔ ∃ row, shelf.catalog.rows.get? path = some row := by
  rw [List.mem_map]
  constructor
  · rintro ⟨file, hfile, rfl⟩
    obtain ⟨-, data, -, hmem⟩ := ht.content file hfile
    obtain ⟨row, hrow, -⟩ := (mem_files hs hw).1 hmem
    exact ⟨row, hrow⟩
  · rintro ⟨row, hrow⟩
    obtain ⟨data, hdata, -⟩ := hs.kept.backed.bytes _ _ hrow
    obtain ⟨file, hfile, rfl⟩ := ht.file _ ((mem_files hs hw).2 ⟨row, hrow, hdata⟩)
    exact ⟨file, List.mem_filter.2 ⟨hfile, (hs.kept.imported _ _ hrow).visible⟩, rfl⟩

theorem directories_shows (hs : Sound h shelf) (hw : Wrote h shelf x) (ht : x.Shows t) {slug : String} :
    slug ∈ t.directories ↔ ∃ path row, shelf.catalog.rows.get? path = some row ∧ topOf path = some slug := by
  rw [ht.directories]
  constructor
  · rintro ⟨f, hf, htop⟩
    obtain ⟨row, hrow, -⟩ := (mem_files hs hw).1 hf
    exact ⟨f.1, row, hrow, htop⟩
  · rintro ⟨path, row, hrow, htop⟩
    obtain ⟨data, hdata, -⟩ := hs.kept.backed.bytes _ _ hrow
    exact ⟨(path, data), (mem_files hs hw).2 ⟨row, hrow, hdata⟩, htop⟩

/-- The categories that an import of this tree makes: one for each directory, and that of the root. -/
def importedCategories (categories : Dict String Category) (t : SourceTree) : Dict String Category :=
  let listed := (t.directories.filter visible).foldl (fun d slug => d.set slug (rereadCategory categories slug)) Dict.empty
  if t.seen.any fun file => inRoot file.path then listed.set rootCategory {} else listed

theorem get?_importedCategories (categories : Dict String Category) (t : SourceTree) (slug : String) :
    (importedCategories categories t).get? slug =
      if slug ∈ t.directories.filter visible ∨ slug = rootCategory ∧ t.seen.any (fun file => inRoot file.path) = true then
        some (rereadCategory categories slug)
      else none := by
  have hlisted := Dict.get?_foldl_set (rereadCategory categories) (t.directories.filter visible) Dict.empty slug
  rw [Dict.get?_empty] at hlisted
  unfold importedCategories
  dsimp only
  by_cases hany : t.seen.any (fun file => inRoot file.path) = true
  · rw [if_pos hany, Dict.get?_set, hlisted]
    by_cases hslug : slug = rootCategory
    · rw [if_pos hslug, if_pos (.inr ⟨hslug, hany⟩), rereadCategory, if_pos hslug]
    · simp only [hslug, false_and, or_false, if_false]
  · simp only [hany, Bool.false_eq_true, and_false, or_false, if_false]
    exact hlisted

theorem implied_iff (hs : Sound h shelf) (hw : Wrote h shelf x) (ht : x.Shows t) (slug : String) :
    (slug ∈ t.directories.filter visible ∨ slug = rootCategory ∧ t.seen.any (fun file => inRoot file.path) = true) ↔
      Implied shelf.catalog slug := by
  have hroot : t.seen.any (fun file => inRoot file.path) = true ↔
      ∃ path row, shelf.catalog.rows.get? path = some row ∧ inRoot path = true := by
    rw [List.any_eq_true]
    constructor
    · rintro ⟨file, hfile, hin⟩
      obtain ⟨row, hrow⟩ := (seen_shows hs hw ht).1 (List.mem_map.2 ⟨file, hfile, rfl⟩)
      exact ⟨file.path, row, hrow, hin⟩
    · rintro ⟨path, row, hrow, hin⟩
      obtain ⟨file, hfile, rfl⟩ := List.mem_map.1 ((seen_shows hs hw ht).2 ⟨row, hrow⟩)
      exact ⟨file, hfile, hin⟩
  rw [Implied, hroot, List.mem_filter, directories_shows hs hw ht, and_comm]

/-- An import of the tree that was written: each entry with what is read of it, and the categories that they imply. -/
theorem importShelf_wrote (hs : Sound h shelf) (hw : Wrote h shelf x) (ht : x.Shows t) (actor : Option String) :
    ∃ report s', importShelf h ⟨some t, actor, false, false⟩ .empty = (.ok report, s') ∧
      (∀ path, entryAt s'.catalog path = (shelf.catalog.rows.get? path).map fun row =>
        (shelf.catalog.objects.get? row.storageKey, rereadFields shelf.catalog path row)) ∧
      s'.categories = importedCategories shelf.categories t := by
  have htold : Tells h shelf t.overlay := by
    rw [ht.overlay]
    exact hw.told
  have hopened : Ready h Dict.empty (.opened .empty) := rfl
  have hstored : ∀ slug ∈ t.directories.filter visible, ∃ m, categoryMeta t.overlay slug = .ok m ∧
      stored h m = .ok (rereadCategory shelf.categories slug) := fun slug _ => stored_told hs htold slug
  obtain ⟨s₁, hdirectories, hr₁, hcatalog₁⟩ := hopened.importDirectories hstored
  have hb₁ : Backed h.toHost s₁.catalog := by
    rw [hcatalog₁]
    exact (kept_empty h).backed
  have hempty (path : String) : entryAt s₁.catalog path = none := by
    rw [hcatalog₁]
    rfl
  have hnodup : (t.seen.map (·.path)).Nodup := t.distinct.sublist (List.filter_sublist.map _)
  have hreadable : ∀ file ∈ t.seen, ∃ data fields, Readable h t.overlay file data fields ∧
      (shelf.catalog.rows.get? file.path).map (fun row =>
        (shelf.catalog.objects.get? row.storageKey, rereadFields shelf.catalog file.path row)) = some (some data, fields) := by
    intro file hfile
    obtain ⟨hmtime, data, hcontent, hmem⟩ := ht.content file hfile
    obtain ⟨row, hrow, hdata⟩ := (mem_files hs hw).1 hmem
    refine ⟨data, rereadFields shelf.catalog file.path row, ⟨t.relative file (List.mem_of_mem_filter hfile), hcontent,
      metadataOf_told hs htold hrow, hmtime, taken_rereadFields hs hrow⟩, ?_⟩
    rw [hrow, Option.map_some, hdata]
  obtain ⟨p₂, hloop, hr₂, hentries⟩ := loop_importOne actor
    (fun path => (shelf.catalog.rows.get? path).map fun row =>
      (shelf.catalog.objects.get? row.storageKey, rereadFields shelf.catalog path row))
    (p := ({ categories := (t.directories.filter visible).length }, s₁)) hr₁ hb₁ hnodup (fun file _ => hempty _) hreadable
  obtain ⟨s₃, hfinish, hcatalog₃, hsaved⟩ := hr₂.finish t
  refine ⟨p₂.1, s₃.closed, ?_, fun path => ?_, hsaved⟩
  · unfold importShelf
    dsimp only
    rw [hdirectories]
    dsimp only
    rw [hloop]
    dsimp only
    rw [hfinish]
    exact if_neg Bool.false_ne_true
  · show entryAt s₃.catalog path = _
    rw [hcatalog₃, hentries]
    by_cases hmem : path ∈ t.seen.map (·.path)
    · rw [if_pos hmem]
    · rw [if_neg hmem, hempty]
      cases hrow : shelf.catalog.rows.get? path with
      | none => rfl
      | some row => exact absurd ((seen_shows hs hw ht).2 ⟨row, hrow⟩) hmem

end importing

/-! ## When it is the same -/

section same

variable {h : ShelfHost} {s : Shelf}

theorem saidFields_eq {row : CatalogEntry} : saidFields row = fieldsOf row ↔
    row.displayName ≠ some "" ∧ row.description ≠ some "" := by
  simp only [saidFields, fieldsOf, ToolMeta.mk.injEq, said_eq_self, and_true]

theorem saidCategory_eq {row : Category} :
    saidCategory row = row ↔ row.name ≠ some "" ∧ row.description ≠ some "" ∧ row.icon ≠ some "" := by
  rw [saidCategory, Category.ext_iff]
  simp only [said_eq_self]

/-- Every entry is read as it is. -/
theorem rereadFields_eq : (∀ path row, s.catalog.rows.get? path = some row → rereadFields s.catalog path row = fieldsOf row) ↔
    (∀ path row, s.catalog.rows.get? path = some row → row.displayName ≠ some "" ∧ row.description ≠ some "") ∧
      ∀ path row row', s.catalog.rows.get? path = some row → fieldsOf row = blankMeta →
        s.catalog.rows.get? (baseName path) = some row' → fieldsOf row' = blankMeta := by
  constructor
  · intro hall
    have htexts : ∀ path row, s.catalog.rows.get? path = some row → saidFields row = fieldsOf row := by
      intro path row hrow
      have heq := hall path row hrow
      unfold rereadFields at heq
      split at heq
      · -- what is read under another name has no empty text either
        refine saidFields_eq.2 ?_
        have hname := congrArg ToolMeta.displayName heq
        have hdescription := congrArg ToolMeta.description heq
        rw [show (fieldsOf row).displayName = row.displayName from rfl] at hname
        rw [show (fieldsOf row).description = row.description from rfl] at hdescription
        rw [← hname, ← hdescription]
        cases s.catalog.rows.get? (baseName path) with
        | none => exact ⟨(Option.some_ne_none _).symm, (Option.some_ne_none _).symm⟩
        | some row' => exact ⟨said_ne_empty _, said_ne_empty _⟩
      · exact heq
    refine ⟨fun path row hrow => saidFields_eq.1 (htexts path row hrow), fun path row row' hrow hblank hbase => ?_⟩
    have heq := hall path row hrow
    have hitem : toolItem row = [] := toolItem_eq_nil.2 ((htexts path row hrow).trans hblank)
    rw [rereadFields, if_pos hitem, hbase, Option.map_some, Option.getD_some, htexts _ row' hbase, hblank] at heq
    exact heq
  · rintro ⟨htexts, hnames⟩ path row hrow
    have hsaid := saidFields_eq.2 (htexts path row hrow)
    unfold rereadFields
    split
    · rename_i hitem
      have hblank : fieldsOf row = blankMeta := hsaid.symm.trans (toolItem_eq_nil.1 hitem)
      rw [hblank]
      cases hbase : s.catalog.rows.get? (baseName path) with
      | none => rfl
      | some row' =>
        rw [Option.map_some, Option.getD_some, saidFields_eq.2 (htexts _ row' hbase)]
        exact hnames path row row' hrow hblank hbase
    · exact hsaid

/-- Every category is made, and read as it is, and no other. -/
theorem importedCategories_eq {t : SourceTree} (himplied : ∀ slug,
    (slug ∈ t.directories.filter visible ∨ slug = rootCategory ∧ t.seen.any (fun file => inRoot file.path) = true) ↔
      Implied s.catalog slug) :
    (∀ slug, (importedCategories s.categories t).get? slug = s.categories.get? slug) ↔
      (∀ slug, (∃ row, s.categories.get? slug = some row) ↔ Implied s.catalog slug) ∧
        ∀ slug row, s.categories.get? slug = some row →
          row.name ≠ some "" ∧ row.description ≠ some "" ∧ row.icon ≠ some "" ∧ (slug = rootCategory → row = {}) := by
  have hget := get?_importedCategories s.categories t
  constructor
  · intro hall
    refine ⟨fun slug => ?_, fun slug row hrow => ?_⟩
    · rw [← himplied, ← hall, hget]
      split
      · exact iff_of_true ⟨_, rfl⟩ (by assumption)
      · exact iff_of_false (fun ⟨_, h⟩ => by cases h) (by assumption)
    · have heq := (hall slug).trans hrow
      rw [hget] at heq
      split at heq
      · have hreread := Option.some.inj heq
        unfold rereadCategory at hreread
        split at hreread
        · subst hreread
          have hnone : (none : Option String) ≠ some "" := (Option.some_ne_none _).symm
          exact ⟨hnone, hnone, hnone, fun _ => rfl⟩
        · rw [hrow, Option.map_some, Option.getD_some] at hreread
          obtain ⟨hname, hdescription, hicon⟩ := saidCategory_eq.1 hreread
          exact ⟨hname, hdescription, hicon, fun hroot => absurd hroot (by assumption)⟩
      · cases heq
  · rintro ⟨hexists, hrows⟩ slug
    rw [hget]
    split
    · rename_i hin
      obtain ⟨row, hrow⟩ := (hexists slug).2 ((himplied slug).1 hin)
      obtain ⟨hname, hdescription, hicon, hroot⟩ := hrows slug row hrow
      rw [hrow, rereadCategory]
      split
      · rw [hroot (by assumption)]
      · rw [hrow, Option.map_some, Option.getD_some, saidCategory_eq.2 ⟨hname, hdescription, hicon⟩]
    · rename_i hout
      cases hrow : s.categories.get? slug with
      | none => rfl
      | some row => exact absurd ((himplied slug).2 ((hexists slug).1 ⟨row, hrow⟩)) hout

theorem overlayTools_eq_nil :
    overlayTools h s = [] ↔ ∀ path row, s.catalog.rows.get? path = some row → toolItem row = [] := by
  rw [overlayTools, List.filterMap_eq_nil_iff]
  constructor
  · intro hall path row hrow
    have hnone := hall _ ((h.ordered_perm _).mem_iff.2 (Dict.get?_eq_some.1 hrow))
    by_contra hitem
    rw [if_neg hitem] at hnone
    cases hnone
  · intro hall e he
    exact if_pos (hall e.1 e.2 (Dict.get?_eq_some.2 ((h.ordered_perm _).mem_iff.1 he)))

theorem overlayCategories_eq_nil : overlayCategories h s = [] ↔
    ∀ slug row, s.categories.get? slug = some row → slug = rootCategory ∨ categoryItem row = [] := by
  rw [overlayCategories, List.filterMap_eq_nil_iff]
  constructor
  · intro hall slug row hrow
    have hnone := hall _ ((h.ordered_perm _).mem_iff.2 (Dict.get?_eq_some.1 hrow))
    by_contra hitem
    rw [if_neg hitem] at hnone
    cases hnone
  · intro hall e he
    exact if_pos (hall e.1 e.2 (Dict.get?_eq_some.2 ((h.ordered_perm _).mem_iff.1 he)))

/-- There is a `catalog.json` to write exactly if something is described. -/
theorem overlay_nonempty_iff
    (htexts : ∀ path row, s.catalog.rows.get? path = some row → row.displayName ≠ some "" ∧ row.description ≠ some "")
    (hrows : ∀ slug row, s.categories.get? slug = some row →
      row.name ≠ some "" ∧ row.description ≠ some "" ∧ row.icon ≠ some "" ∧ (slug = rootCategory → row = {})) :
    ¬ (overlayCategories h s = [] ∧ overlayTools h s = []) ↔ Described s := by
  have htools : overlayTools h s = [] ↔ ∀ path row, s.catalog.rows.get? path = some row → fieldsOf row = blankMeta := by
    rw [overlayTools_eq_nil]
    refine forall₃_congr fun path row hrow => ?_
    rw [toolItem_eq_nil, saidFields_eq.2 (htexts path row hrow)]
  have hcategories : overlayCategories h s = [] ↔ ∀ slug row, s.categories.get? slug = some row → row = {} := by
    rw [overlayCategories_eq_nil]
    refine forall₃_congr fun slug row hrow => ?_
    obtain ⟨hname, hdescription, hicon, hroot⟩ := hrows slug row hrow
    rw [categoryItem_eq_nil, saidCategory_eq.2 ⟨hname, hdescription, hicon⟩]
    exact or_iff_right_of_imp hroot
  rw [htools, hcategories, Described, not_and_or, or_comm]
  simp only [not_forall, exists_prop, ne_eq]

theorem roundTrips_of_sound (hs : Sound h s) : RoundTrips h s ↔ Restorable s := by
  constructor
  · rintro ⟨x, hexport, ⟨t, ht⟩, himport⟩
    rcases exportTree_spec hs with ⟨hclear, x', hexport', hw⟩ | ⟨-, why, herror⟩
    · obtain rfl : x = x' := Except.ok.inj (hexport.symm.trans hexport')
      obtain ⟨report, s', hrun, hsame⟩ := himport t none ht
      obtain ⟨report', s'', hrun', hentries, hcategories⟩ := importShelf_wrote hs hw ht none
      obtain rfl : s' = s'' := congrArg Prod.snd (hrun.symm.trans hrun')
      have hfields : ∀ path row, s.catalog.rows.get? path = some row → rereadFields s.catalog path row = fieldsOf row := by
        intro path row hrow
        have heq := (hentries path).symm.trans (hsame.entries path)
        rw [entryAt, hrow] at heq
        exact congrArg Prod.snd (Option.some.inj heq)
      obtain ⟨htexts, hnames⟩ := rereadFields_eq.1 hfields
      have hall := hsame.categories
      rw [hcategories] at hall
      obtain ⟨himplied, hrows⟩ := (importedCategories_eq (implied_iff hs hw ht)).1 hall
      exact ⟨hclear.apart, fun hd => hclear.overlay ((overlay_nonempty_iff htexts hrows).2 hd), htexts, hnames, himplied, hrows⟩
    · rw [hexport] at herror
      cases herror
  · intro hr
    have hclear : Clear h s := ⟨hr.apart, fun hne => hr.overlay ((overlay_nonempty_iff hr.texts hr.categories).1 hne)⟩
    rcases exportTree_spec hs with ⟨-, x, hexport, hw⟩ | ⟨hnot, -⟩
    · refine ⟨x, hexport, exists_shows hs hw, fun t actor ht => ?_⟩
      obtain ⟨report, s', hrun, hentries, hcategories⟩ := importShelf_wrote hs hw ht actor
      refine ⟨report, s', hrun, fun path => ?_, fun slug => ?_⟩
      · rw [hentries, entryAt]
        cases hrow : s.catalog.rows.get? path with
        | none => rfl
        | some row =>
          have hfields := rereadFields_eq.2 ⟨hr.texts, hr.names⟩ path row hrow
          rw [Option.map_some, Option.map_some, hfields]
      · rw [hcategories]
        exact (importedCategories_eq (implied_iff hs hw ht)).2 ⟨hr.implied, hr.categories⟩ slug
    · exact absurd hclear hnot

end same

/-- Whatever trees are imported one after the other, an export can be imported again exactly if a folder tree with a
`catalog.json` can tell what the catalog has come to. -/
theorem shelf_roundTrips_iff (h : ShelfHost) (imports : List ImportArgs) :
    RoundTrips h ((shelf h).state imports) ↔ Restorable ((shelf h).state imports) :=
  roundTrips_of_sound (sound_run h imports)

/-- A deployment whose database takes texts alone, and answers rows as they came. -/
def plainHost : ShelfHost where
  toHost := countingHost
  column _ value :=
    match value with
    | .null => .ok none
    | .str s => .ok (some s)
    | _ => .error "type is not supported"
  valueError _ := false
  column_null _ := rfl
  column_str _ := rfl
  ordered rows := rows
  ordered_perm rows := List.Perm.refl rows
  fits _ := true
  refuses_none _ := iff_of_true rfl ⟨fun _ _ => rfl, fun _ _ => rfl, fun _ _ => rfl⟩

/-- Two files of one name: `catalog.json` describes the one in the root, and gives the other no tags. -/
def namesakes : SourceTree where
  overlay := .obj [("tools", .obj [("x.sh", .obj [("description", .str "Checks")]), ("ops/x.sh", .obj [("tags", .arr [])])])]
  directories := ["ops"]
  files := [⟨"ops/x.sh", .ok [1], .ok 10⟩, ⟨"x.sh", .ok [2], .ok 10⟩]
  distinct := by decide
  relative := by decide +kernel

/-- Once they are exported, the one without metadata is described like the other. -/
theorem namesakes_not_roundTrips :
    ¬ RoundTrips plainHost ((shelf plainHost).state [⟨some namesakes, none, false, false⟩]) := by
  intro hrt
  have hr := (roundTrips_of_sound (sound_run plainHost _)).1 hrt
  have hblank : ((((shelf plainHost).state [⟨some namesakes, none, false, false⟩]).catalog.rows.get? "ops/x.sh").map
      fieldsOf) = some blankMeta := by decide +kernel
  have hdescribed : ((((shelf plainHost).state [⟨some namesakes, none, false, false⟩]).catalog.rows.get?
      (baseName "ops/x.sh")).map fieldsOf) = some ⟨none, some "Checks", []⟩ := by decide +kernel
  obtain ⟨row, hrow, hfields⟩ := Option.map_eq_some_iff.1 hblank
  obtain ⟨row', hrow', hfields'⟩ := Option.map_eq_some_iff.1 hdescribed
  have heq := hfields'.symm.trans (hr.names _ row row' hrow hfields hrow')
  exact absurd heq (by decide)

end OpenFish.Tools
