/-
The tools catalog with its categories, and the folder tree it is exported to (`import_tree` and `export_tree` of
`services/tool_catalog.py`). Entries are committed one by one; a category waits in the session for the next commit, and is
lost if a file fails before it.
-/
import OpenFish.Lib.Effect
import OpenFish.Tools.Catalog

namespace OpenFish.Tools

open Lib

/-! ## Categories -/

def nameMax : Nat := 160
def descriptionMax : Nat := 512
def iconMax : Nat := 64

def rootCategory : String := "root"

/-- What the deployment supplies besides. -/
structure ShelfHost extends Host where
  /-- What the database stores of a value in a text column of this length, or why it refuses it. -/
  column : Nat → Json → Except String (Option String)
  /-- The refusal is a `ValueError`. -/
  valueError : String → Bool
  column_null : ∀ most, column most .null = .ok none
  column_str : ∀ {most value s}, column most value = .ok (some s) → column most (.str s) = .ok (some s)
  /-- The order in which the database answers rows, by a collation of its own. -/
  ordered : ∀ {α : Type}, List α → List α
  ordered_perm : ∀ {α : Type} (rows : List α), (ordered rows).Perm rows
  /-- The database takes a text as such; it takes a row exactly if it takes each of its texts. -/
  fits : String → Bool
  refuses_none : ∀ m, refuses m = none ↔ (∀ s, m.displayName = some s → fits s = true) ∧
    (∀ s, m.description = some s → fits s = true) ∧ ∀ s ∈ m.tags, fits s = true

/-- A row of `catalog_categories`, which is found under its slug. -/
@[ext] structure Category where
  name : Option String := none
  description : Option String := none
  icon : Option String := none
  deriving DecidableEq, Repr

/-- The entries with their objects, and the categories. -/
structure Shelf where
  catalog : Catalog
  categories : Dict String Category

def Shelf.empty : Shelf := ⟨⟨Dict.empty, Dict.empty, 1⟩, Dict.empty⟩

/-- What an import has come to: the categories as committed, as the open transaction has them, and the one that is not yet
sent to the database. -/
structure Session where
  catalog : Catalog
  saved : Dict String Category
  current : Dict String Category
  pending : Option (String × CategoryMeta)

def Session.opened (s : Shelf) : Session := ⟨s.catalog, s.categories, s.categories, none⟩

/-- What is left once the session is closed. -/
def Session.closed (s : Session) : Shelf := ⟨s.catalog, s.saved⟩

/-- The columns of a category. -/
def stored (h : ShelfHost) (m : CategoryMeta) : Except String Category := do
  let name ← h.column nameMax m.name
  let description ← h.column descriptionMax m.description
  let icon ← h.column iconMax m.icon
  return { name, description, icon }

/-- Every query sends what waits. -/
def flush (h : ShelfHost) (s : Session) : Except String Session :=
  match s.pending with
  | none => .ok s
  | some (slug, m) => do
    let row ← stored h m
    return { s with current := s.current.set slug row, pending := none }

/-- `upsert_category`. -/
def upsertCategory (h : ShelfHost) (slug : String) (m : CategoryMeta) (s : Session) : Except String Session := do
  let s ← flush h s
  return { s with pending := some (slug, m) }

def commit (h : ShelfHost) (s : Session) : Except String Session := do
  let s ← flush h s
  return { s with saved := s.current }

def rollback (s : Session) : Session := { s with current := s.saved, pending := none }

/-! ## Import -/

/-- The loop over the immediate directories; a dry run only looks the metadata up. -/
def importDirectories (h : ShelfHost) (overlay : Json) (dryRun : Bool) : List String → Session → Except String Session
  | [], s => .ok s
  | slug :: slugs, s =>
    if dryRun then do
      let _ ← member (overlaySection overlay "categories") slug
      importDirectories h overlay dryRun slugs s
    else do
      let m ← categoryMeta overlay slug
      let s ← upsertCategory h slug m s
      importDirectories h overlay dryRun slugs s

/-- The transaction after a file: `save_entry` commits, the handler of `import_tree` rolls back. -/
def settle (dryRun : Bool) (s : Session) (fared : Fared) : Session :=
  match fared with
  | .created | .updated => if dryRun then s else { s with saved := s.current }
  | .caught _ => rollback s
  | .unchanged | .raised _ => s

/-- `_import_entry` with the handler. A file that is read, described and dated is looked up, which sends what waits. -/
def importFile (h : ShelfHost) (overlay : Json) (actor : Option String) (dryRun : Bool) (file : SourceFile) (s : Session) :
    Fared × Session :=
  let looksUp := file.content.isOk && (metadataOf h.toHost overlay file.path).isOk && file.mtime.isOk
  match if looksUp then flush h s else .ok s with
  | .error why => if h.valueError why then (.caught why, rollback s) else (.raised why, s)
  | .ok s =>
    let (fared, catalog) := importEntry h.toHost overlay actor dryRun file s.catalog
    (fared, settle dryRun { s with catalog } fared)

/-- The same in the loop of `import_tree`, which what is not caught ends. -/
def importOne (h : ShelfHost) (overlay : Json) (actor : Option String) (dryRun : Bool) (file : SourceFile)
    (p : ImportReport × Session) : Option String × (ImportReport × Session) :=
  match importFile h overlay actor dryRun file p.2 with
  | (.raised why, s) => (some why, (p.1, s))
  | (fared, s) => (none, (p.1.add file.path fared, s))

def inRoot (path : String) : Bool := '/' ∉ path.toList

/-- The synthetic root category, where something lies in the root. -/
def upsertRoot (h : ShelfHost) (tree : SourceTree) (s : Session) : Except String Session :=
  if tree.seen.any fun file => inRoot file.path then upsertCategory h rootCategory ⟨.null, .null, .null⟩ s else .ok s

/-- What follows the files. -/
def finish (h : ShelfHost) (dryRun : Bool) (tree : SourceTree) (s : Session) : Except String Session :=
  if dryRun then .ok s
  else do
    let s ← upsertRoot h tree s
    commit h s

/-- `import_tree`. -/
def importShelf (h : ShelfHost) (a : ImportArgs) (shelf : Shelf) : Except String ImportReport × Shelf :=
  match a.source with
  | none => (.error "目录不存在", shelf)
  | some tree =>
    let directories := tree.directories.filter visible
    match importDirectories h tree.overlay a.dryRun directories (.opened shelf) with
    | .error why => (.error why, shelf)
    | .ok s =>
      match loop (importOne h tree.overlay a.actor a.dryRun) tree.seen ({ categories := directories.length }, s) with
      | (some why, (_, s)) => (.error why, s.closed)
      | (none, (report, s)) =>
        match finish h a.dryRun tree s with
        | .error why => (.error why, s.closed)
        | .ok s =>
          if a.prune then
            let paths := gone tree s.catalog
            (.ok { report with removed := paths.length },
              if a.dryRun then s.closed
              else { s.closed with catalog := paths.foldl (fun c path => (deleteEntry path c).2) s.catalog })
          else (.ok report, s.closed)

/-- The catalog as imports make it, nothing at first. -/
def shelf (h : ShelfHost) : Machine Shelf ImportArgs (Except String ImportReport) := ⟨.empty, fun s a => importShelf h a s⟩

/-! ## Export -/

/-- A field of an item, left out where it is empty. -/
def field (key : String) (value : Option String) : List (String × Json) :=
  match value with
  | none => []
  | some s => if s ≠ "" then [(key, .str s)] else []

/-- What `catalog.json` says of a category. -/
def categoryItem (row : Category) : List (String × Json) :=
  field "name" row.name ++ field "description" row.description ++ field "icon" row.icon

/-- What it says of an entry. -/
def toolItem (row : CatalogEntry) : List (String × Json) :=
  field "name" row.displayName ++ field "description" row.description ++
    if row.tags = [] then [] else [("tags", .arr (row.tags.map .str))]

def overlayCategories (h : ShelfHost) (s : Shelf) : List (String × Json) :=
  (h.ordered s.categories.entries).filterMap fun e =>
    if e.1 = rootCategory ∨ categoryItem e.2 = [] then none else some (e.1, .obj (categoryItem e.2))

def overlayTools (h : ShelfHost) (s : Shelf) : List (String × Json) :=
  (h.ordered s.catalog.rows.entries).filterMap fun e =>
    if toolItem e.2 = [] then none else some (e.1, .obj (toolItem e.2))

/-- The path lies below the directory. -/
def below (directory path : String) : Bool := Text.startsWith (directory ++ "/") path

/-- `destination.parent.mkdir(parents=True)` and `write_bytes`, in a tree of the files written so far: no directory on
the way may be a file, and the file no directory. -/
def writeFile (files : List (String × Bytes)) (path : String) (data : Bytes) : Except String (List (String × Bytes)) :=
  if files.any fun f => below path f.1 || below f.1 path then .error path
  else .ok (files.filter (fun f => f.1 ≠ path) ++ [(path, data)])

/-- `contained`: no segment climbs out. -/
def contained (path : String) : Bool := ".." ∉ Text.split '/' path

/-- The files of the entries. -/
def exportFiles (c : Catalog) : List (String × CatalogEntry) → List (String × Bytes) →
    Except String (List (String × Bytes))
  | [], files => .ok files
  | (path, row) :: rows, files =>
    if contained path = false then .error path
    else
      match c.objects.get? row.storageKey with
      | none => .error path
      | some data => do
        let files ← writeFile files path data
        exportFiles c rows files

/-- A tree that was written into an empty directory: `catalog.json`, where there is one, and the other files. -/
structure Exported where
  overlay : Option Json
  files : List (String × Bytes)

/-- `export_tree`. -/
def exportTree (h : ShelfHost) (s : Shelf) : Except String Exported :=
  match exportFiles s.catalog (h.ordered s.catalog.rows.entries) [] with
  | .error why => .error why
  | .ok files =>
    if overlayCategories h s = [] ∧ overlayTools h s = [] then .ok { overlay := none, files }
    else if files.any fun f => below "catalog.json" f.1 then .error "catalog.json"
    else
      .ok { overlay := some (.obj [("categories", .obj (overlayCategories h s)), ("tools", .obj (overlayTools h s))]), files }

/-- The immediate directory that a file lies in, if any. -/
def topOf (path : String) : Option String := if inRoot path then none else some (Text.partition '/' path).1

/-- An import finds the tree that was written, in whatever order and with whatever dates. -/
structure Exported.Shows (x : Exported) (t : SourceTree) : Prop where
  overlay : t.overlay = x.overlay.getD (.obj [])
  directories : ∀ slug, slug ∈ t.directories ↔ ∃ f ∈ x.files, topOf f.1 = some slug
  file : ∀ f ∈ x.files, ∃ file ∈ t.files, file.path = f.1
  content : ∀ file ∈ t.seen, file.mtime.isOk = true ∧ ∃ data, file.content = .ok data ∧ (file.path, data) ∈ x.files

end OpenFish.Tools
