/-
The tools catalog: rows in the database, bytes in the object store (`services/tool_catalog.py`, `services/hub_upload.py`
and `upload_tool` of `routes/hub.py`). An upload, an import and a deletion each write both.
-/
import OpenFish.Lib.Dict
import OpenFish.Lib.Json
import OpenFish.Lib.Machine
import OpenFish.Queue.Isolation

namespace OpenFish.Tools

open Lib
open Queue (singleSegment)

abbrev Bytes := List UInt8

/-- An instant, in seconds. -/
abbrev Time := Int

/-! ## Rows and objects -/

/-- A row of `catalog_entries` in the tools namespace; its `path` is the key it is found under. -/
structure CatalogEntry where
  filename : String
  displayName : Option String
  description : Option String
  tags : List String
  contentType : String
  size : Nat
  sha256 : Option String
  storageKey : Nat
  createdBy : Option String
  modifiedAt : Time
  modifiedBy : Option String
  deriving DecidableEq, Repr

/-- What the overlay of an import says about a file. -/
structure ToolMeta where
  displayName : Option String
  description : Option String
  tags : List String
  deriving DecidableEq, Repr

/-- The rows by their path, the objects by their key. A key is a uuid, and so a new one each time: `next` is the one that
`new_key` makes up next. -/
structure Catalog where
  rows : Dict String CatalogEntry
  objects : Dict Nat Bytes
  next : Nat

/-- What the deployment supplies. -/
structure Host where
  /-- The hexadecimal SHA-256. -/
  sha256 : Bytes → String
  /-- `mimetypes.guess_type`, its first part. -/
  guessType : String → Option String
  /-- `str` of a value that is no string. -/
  render : Json → String
  /-- `human_size`. -/
  humanSize : Nat → String
  /-- The text of a key. -/
  keyText : Nat → String
  /-- The `ValueError` of a database that cannot take a row with these texts, one of them with a lone surrogate. -/
  refuses : ToolMeta → Option String

def stripSlashes (path : String) : String := Text.rstrip '/' (Text.lstrip ['/'] path)

/-- `find`. -/
def find (c : Catalog) (path : String) : Option CatalogEntry := c.rows.get? (stripSlashes path)

/-- `store.put` under a new key. -/
def put (c : Catalog) (data : Bytes) : Catalog := { c with objects := c.objects.set c.next data, next := c.next + 1 }

/-- The arguments of `save_entry`. -/
structure EntryArgs where
  path : String
  filename : String
  contentType : String
  size : Nat
  sha256 : Option String
  storageKey : Nat
  modifiedAt : Time
  displayName : Option String := none
  description : Option String := none
  tags : List String := []
  actor : Option String

/-- The row that `save_entry` writes. -/
def savedRow (a : EntryArgs) (c : Catalog) : CatalogEntry where
  filename := a.filename
  displayName := a.displayName
  description := a.description
  tags := a.tags
  contentType := a.contentType
  size := a.size
  sha256 := a.sha256
  storageKey := a.storageKey
  createdBy :=
    match find c a.path with
    | some row => row.createdBy
    | none => a.actor
  modifiedAt := a.modifiedAt
  modifiedBy := a.actor

/-- `save_entry`: the superseded object is left to the caller. -/
def saveEntry (a : EntryArgs) (c : Catalog) : Catalog :=
  { c with rows := c.rows.set (stripSlashes a.path) (savedRow a c) }

/-- `delete_entry`: the row, then its object. -/
def deleteEntry (path : String) (c : Catalog) : Except String CatalogEntry × Catalog :=
  match find c path with
  | none => (.error path, c)
  | some row => (.ok row, { c with rows := c.rows.erase (stripSlashes path), objects := c.objects.erase row.storageKey })

/-! ## Uploads -/

structure Settings where
  /-- `STORAGE__ON_DUPLICATE=overwrite`. -/
  allowsOverwrite : Bool
  maxContentLength : Nat

structure HttpError where
  status : Nat
  description : String
  deriving DecidableEq, Repr

def toolSuffixes : List String :=
  [".sh", ".bash", ".zsh", ".fish", ".ps1", ".bat", ".cmd", ".py", ".rb", ".pl", ".js", ".mjs", ".cjs", ".ts", ".exe",
    ".bin", ".run", ".appimage", ".tar", ".tar.gz", ".tgz", ".tar.xz", ".tar.bz2", ".zip", ".gz", ".xz", ".bz2", ".7z",
    ".jar", ".whl", ".deb", ".rpm", ".apk", ".json", ".yaml", ".yml", ".toml", ".ini", ".conf", ".cfg", ".repo",
    ".service"]

def hiddenPrefixes : List String := ["readme", "license", "changelog"]

/-- `_single_segment`. -/
def segment (value what : String) : Except HttpError String :=
  match singleSegment value what with
  | .ok name => .ok name
  | .error why => .error ⟨400, s!"{what}不合法：{why}"⟩

/-- `_check_listed`. -/
def checkListed (name what : String) : Except HttpError Unit :=
  if Text.lower name = "catalog.json" ∨ hiddenPrefixes.any (Text.startsWith · (Text.lower name)) then
    .error ⟨400, s!"{what} {name} 会被目录扫描忽略（catalog.json 与 README/LICENSE/CHANGELOG 属于说明文件），请改用其它名称"⟩
  else .ok ()

/-- `_check_suffix`. -/
def checkSuffix (name : String) (suffixes : List String) : Except HttpError Unit :=
  if suffixes.any (Text.endsWith · (Text.lower name)) then .ok ()
  else .error ⟨400, s!"不支持的文件类型 {name}；允许的扩展名：" ++ ", ".intercalate suffixes⟩

/-- `tools_path`. -/
def toolsPath (filename category : String) : Except HttpError String := do
  let name ← segment filename "文件名"
  checkListed name "文件名"
  checkSuffix name toolSuffixes
  if category = "" then return name
  let folder ← segment category "分类名"
  checkListed folder "分类名"
  return folder ++ "/" ++ name

structure Upload where
  /-- The name of the `file` part, `none` without one. -/
  filename : Option String
  category : Option String
  body : Bytes
  actor : Option String
  now : Time

/-- `_capped`: what refuses a body. -/
def capped (h : Host) (s : Settings) (key : Nat) (body : Bytes) : Except HttpError Unit :=
  if s.maxContentLength < body.length then
    .error ⟨413, s!"{h.keyText key} 超过上传上限 {h.humanSize s.maxContentLength}"⟩
  else if body = [] then .error ⟨400, s!"{h.keyText key} 是空文件"⟩
  else .ok ()

def defaultContentType : String := "application/octet-stream"

/-- `upload_tool`. The session holds one object for a row: after `save_entry` the row that was found before it shows what
was saved. -/
def uploadTool (h : Host) (s : Settings) (u : Upload) (c : Catalog) : Except HttpError CatalogEntry × Catalog :=
  match u.filename.filter (· ≠ "") with
  | none => (.error ⟨400, "multipart/form-data 需要一个 file 字段"⟩, c)
  | some filename =>
    match toolsPath filename (Text.strip (u.category.getD "")) with
    | .error e => (.error e, c)
    | .ok path =>
      let existing := find c path
      if existing.isSome ∧ s.allowsOverwrite = false then
        (.error ⟨409, s!"{filename} 已存在；如需覆盖请设置 STORAGE__ON_DUPLICATE=overwrite"⟩, c)
      else
        let key := c.next
        match capped h s key u.body with
        | .error e => (.error e, { c with next := c.next + 1 })
        | .ok () =>
          let args : EntryArgs :=
            { path, filename, contentType := (h.guessType filename).getD defaultContentType, size := u.body.length,
              sha256 := some (h.sha256 u.body), storageKey := key, modifiedAt := u.now, actor := u.actor }
          let saved := saveEntry args (put c u.body)
          let row := savedRow args (put c u.body)
          match existing with
          | none => (.ok row, saved)
          | some _ =>
            let shown := ((find saved path).map (·.storageKey)).getD key
            (.ok row, if shown ≠ key then { saved with objects := saved.objects.erase shown } else saved)

/-! ## Imports -/

/-- A file of the tree, by its path below the root: what reading it and its modification time answers. -/
structure SourceFile where
  path : String
  content : Except String Bytes
  mtime : Except String Time

/-- A tree that is imported: its immediate directories by name, its files by path, and what `catalog.json` holds. -/
structure SourceTree where
  overlay : Json
  directories : List String
  files : List SourceFile
  distinct : (files.map (·.path)).Nodup
  relative : ∀ file ∈ files, stripSlashes file.path = file.path

/-- The last segment of a path. -/
def baseName (path : String) : String := Text.afterLast '/' path

/-- `_visible`. -/
def visible (relative : String) : Bool :=
  !((Text.split '/' relative).any fun part => Text.startsWith "." part ∨ part = "objects") &&
    baseName relative ≠ "catalog.json" && !(hiddenPrefixes.any (Text.startsWith · (Text.lower (baseName relative))))

/-- `value.get(key)`, which only a dictionary has. -/
def member (value : Json) (key : String) : Except String Json :=
  match value with
  | .obj entries => .ok (Json.get entries key)
  | _ => .error "object has no attribute 'get'"

/-- `value or {}`. -/
def orEmpty (value : Json) : Json := if value.truthy then value else .obj []

/-- `_overlay`, and one of its sections. -/
def overlaySection (overlay : Json) (key : String) : Json := orEmpty (Json.get (overlay.entries?.getD []) key)

structure CategoryMeta where
  name : Json
  description : Json
  icon : Json

/-- What an import reads of a category; its row is not followed here. -/
def categoryMeta (overlay : Json) (slug : String) : Except String CategoryMeta := do
  let entry := orEmpty (← member (overlaySection overlay "categories") slug)
  return { name := ← member entry "name", description := ← member entry "description", icon := ← member entry "icon" }

/-- What a loop over a value yields, as texts. -/
def iterated (h : Host) : Json → Except String (List String)
  | .arr items => .ok (items.map (·.text h.render))
  | .obj entries => .ok (entries.map Prod.fst)
  | .str s => .ok (s.toList.map String.singleton)
  | _ => .error "object is not iterable"

/-- `str(value).strip() if value else None`. -/
def stripped? (h : Host) (value : Json) : Option String :=
  if value.truthy then some (Text.strip (value.text h.render)) else none

/-- `overlay_metadata`. -/
def overlayMetadata (h : Host) (entry : Json) : Except String ToolMeta := do
  let name ← member entry "name"
  let description ← member entry "description"
  let tags ← member entry "tags"
  return { displayName := stripped? h name, description := stripped? h description,
           tags := ← iterated h (if tags.truthy then tags else .arr []) }

/-- The overlay's fields for one file: under its path, else under its name. -/
def metadataOf (h : Host) (overlay : Json) (path : String) : Except String ToolMeta := do
  let tools := overlaySection overlay "tools"
  let byPath ← member tools path
  let byName ← member tools (baseName path)
  overlayMetadata h (if byPath.truthy then byPath else orEmpty byName)

/-- How one file fared: an `OSError` or a `ValueError` is caught, anything else ends the import. -/
inductive Fared
  | created
  | updated
  | unchanged
  | caught (why : String)
  | raised (why : String)
  deriving DecidableEq, Repr

/-- The row says already what the file and the overlay say. -/
def isUnchanged (h : Host) (path : String) (data : Bytes) (overlay : ToolMeta) (row : CatalogEntry) : Bool :=
  row.sha256 = some (h.sha256 data) ∧ row.size = data.length ∧ row.filename = baseName path ∧
    row.displayName = overlay.displayName ∧ row.description = overlay.description ∧ row.tags = overlay.tags

structure ImportArgs where
  /-- `none` where the source is no directory. -/
  source : Option SourceTree
  actor : Option String
  dryRun : Bool
  prune : Bool

/-- The entry of a file. -/
def entryArgs (h : Host) (actor : Option String) (path : String) (data : Bytes) (overlay : ToolMeta) (modified : Time)
    (key : Nat) : EntryArgs where
  path
  filename := baseName path
  contentType := (h.guessType (baseName path)).getD defaultContentType
  size := data.length
  sha256 := some (h.sha256 data)
  storageKey := key
  modifiedAt := modified
  displayName := overlay.displayName
  description := overlay.description
  tags := overlay.tags
  actor

/-- `_import_entry`, with the handler of `import_tree`. -/
def importEntry (h : Host) (overlay : Json) (actor : Option String) (dryRun : Bool) (file : SourceFile) (c : Catalog) :
    Fared × Catalog :=
  match file.content with
  | .error why => (.caught why, c)
  | .ok data =>
    match metadataOf h overlay file.path with
    | .error why => (.raised why, c)
    | .ok fields =>
      match file.mtime with
      | .error why => (.caught why, c)
      | .ok modified =>
        let row := find c file.path
        if row.any (isUnchanged h file.path data fields) then (.unchanged, c)
        else if dryRun then (if row.isNone then .created else .updated, c)
        else
          let key := c.next
          let superseded := row.map (·.storageKey)
          let args := entryArgs h actor file.path data fields modified key
          match h.refuses fields with
          | some why => (.caught why, put c data)
          | none =>
            let saved := saveEntry args (put c data)
            match superseded with
            | none => (.created, saved)
            | some old => (.updated, if old ≠ key then { saved with objects := saved.objects.erase old } else saved)

structure ImportReport where
  created : Nat := 0
  updated : Nat := 0
  unchanged : Nat := 0
  categories : Nat := 0
  removed : Nat := 0
  errors : List String := []
  deriving DecidableEq, Repr

def ImportReport.add (report : ImportReport) (path : String) : Fared → ImportReport
  | .created => { report with created := report.created + 1 }
  | .updated => { report with updated := report.updated + 1 }
  | .unchanged => { report with unchanged := report.unchanged + 1 }
  | .caught why => { report with errors := report.errors ++ [path ++ ": " ++ why] }
  | .raised _ => report

/-- The loop over the files. -/
def importFiles (h : Host) (overlay : Json) (actor : Option String) (dryRun : Bool) :
    List SourceFile → ImportReport → Catalog → Except String ImportReport × Catalog
  | [], report, c => (.ok report, c)
  | file :: files, report, c =>
    match importEntry h overlay actor dryRun file c with
    | (.raised why, c') => (.error why, c')
    | (fared, c') => importFiles h overlay actor dryRun files (report.add file.path fared) c'

/-- The files that an import looks at. -/
def SourceTree.seen (tree : SourceTree) : List SourceFile := tree.files.filter fun file => visible file.path

/-- The paths that a pruning import removes. -/
def gone (tree : SourceTree) (c : Catalog) : List String :=
  (c.rows.entries.map Prod.fst).filter fun path => path ∉ tree.seen.map (·.path)

/-- `import_tree`. -/
def importTree (h : Host) (a : ImportArgs) (c : Catalog) : Except String ImportReport × Catalog :=
  match a.source with
  | none => (.error "目录不存在", c)
  | some tree =>
    let directories := tree.directories.filter visible
    match directories.mapM (categoryMeta tree.overlay) with
    | .error why => (.error why, c)
    | .ok _ =>
      match importFiles h tree.overlay a.actor a.dryRun tree.seen { categories := directories.length } c with
      | (.error why, c') => (.error why, c')
      | (.ok report, c') =>
        if a.prune then
          let paths := gone tree c'
          (.ok { report with removed := paths.length },
            if a.dryRun then c' else paths.foldl (fun c path => (deleteEntry path c).2) c')
        else (.ok report, c')

/-! ## The catalog as a machine -/

inductive Op
  | upload (upload : Upload)
  | importTree (args : ImportArgs)
  | delete (path : String)

inductive Answer
  | uploaded (result : Except HttpError CatalogEntry)
  | imported (result : Except String ImportReport)
  | deleted (result : Except String CatalogEntry)

def step (h : Host) (s : Settings) (c : Catalog) : Op → Answer × Catalog
  | .upload u => (uploadTool h s u c).map .uploaded id
  | .importTree a => (importTree h a c).map .imported id
  | .delete path => (deleteEntry path c).map .deleted id

/-- The tools catalog: nothing at first, then any operations one after the other. -/
def catalog (h : Host) (s : Settings) : Machine Catalog Op Answer := ⟨⟨Dict.empty, Dict.empty, 1⟩, step h s⟩

end OpenFish.Tools
