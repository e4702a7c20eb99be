/-
Documents as folders of a directory tree (`export_tree` and `import_tree` of `services/docs.py`): what an export writes,
and what an import makes of whatever tree it finds.
-/
import Mathlib.Data.List.Sort
import OpenFish.Docs.Store
import OpenFish.Lib.Effect
import OpenFish.Lib.Json

namespace OpenFish.Docs

open Lib

/-- What the deployment supplies where trees are written and read. -/
structure TreeHost (τ : Type) extends Host τ where
  /-- `_iso`: the ISO-8601 text of an instant, in UTC. -/
  iso : τ → String
  /-- `datetime.fromisoformat`; a text without an offset is taken as UTC. -/
  fromIso : String → Option τ
  fromIso_iso : ∀ t, fromIso (iso t) = some t
  iso_ne_empty : ∀ t, iso t ≠ ""
  strip_iso : ∀ t, Text.strip (iso t) = iso t
  /-- The file system takes a name: most take none of more than 255 bytes. -/
  takes : String → Bool
  /-- The order in which the database answers rows, by a collation of its own. -/
  ordered : ∀ {α : Type}, List α → List α
  ordered_perm : ∀ {α : Type} (rows : List α), (ordered rows).Perm rows
  /-- The order in which a directory is listed. -/
  iterdir : ∀ {α : Type}, List α → List α
  iterdir_perm : ∀ {α : Type} (entries : List α), (iterdir entries).Perm entries
  /-- `str` of a value that is no string. -/
  render : Json → String
  /-- What `bytes.decode` says of bytes that are not UTF-8. -/
  decodeError : ByteArray → String

variable {τ : Type}

/-- A document's directory: `document.md`, what `meta.json` parses to, and the files of `assets`. -/
structure Folder where
  document : Option ByteArray := none
  metaFile : Option Json := none
  assets : Dict String ByteArray := .empty

/-- A tree, by ecosystem and directory name. -/
abbrev Tree := Dict Place Folder

/-! ## Export -/

/-- `store.open`, read to its end. -/
def openObject (c : Store τ) (key : Option Nat) : Except Error ByteArray :=
  match key.bind c.objects.get? with
  | none => .error (.missing "")
  | some data => .ok data

/-- What is written as `meta.json`. -/
def metaOf (h : TreeHost τ) (row : Document τ) : Json :=
  .obj [("title", .str row.title), ("created", .str (h.iso row.createdAt)), ("modified", .str (h.iso row.modifiedAt)),
    ("revision", .int row.revision)]

def exportAsset (h : TreeHost τ) (c : Store τ) (name : String) (key : Nat) (_ : Option ByteArray) :
    Except Error ByteArray := do
  let data ← openObject c (some key)
  if h.takes name then .ok data else .error (.os name)

/-- `_assets`. -/
def assetRows (h : TreeHost τ) (c : Store τ) (id : Nat) : List (String × Nat) :=
  h.ordered ((c.assets.entries.filter fun e => e.1.1 = id).map fun e => (e.1.2, e.2))

def exportDocument (h : TreeHost τ) (c : Store τ) (place : Place) (row : Document τ) (there : Option Folder) :
    Except Error Folder := do
  let body ← openObject c row.storageKey
  if h.takes place.2 then
    let assets ← Dict.writeAll (exportAsset h c) (assetRows h c row.id) (there.getD {}).assets
    return { document := some body, metaFile := some (metaOf h row), assets }
  else .error (.os place.2)

/-- `export_tree`, with what it counts. -/
def exportTree (h : TreeHost τ) (c : Store τ) (target : Tree) : Except Error (Tree × Nat) := do
  let tree ← Dict.writeAll (exportDocument h c) (h.ordered c.documents.entries) target
  return (tree, c.documents.entries.length)

/-! ## Import -/

structure ImportReport where
  documents : Nat := 0
  replaced : Nat := 0
  unchanged : Nat := 0
  assets : Nat := 0
  errors : List String := []
  deriving DecidableEq, Repr

/-- How far an import has come. -/
structure Progress (τ : Type) where
  report : ImportReport := {}
  docs : Store τ

def Progress.fail (p : Progress τ) (error : String) : Progress τ :=
  { p with report := { p.report with errors := p.report.errors ++ [error] } }

/-- The text of an error that an import catches: an `OSError` or a `ValueError`. -/
def Error.caught : Error → Option String
  | .value why => some why
  | .missing name => some name
  | .os name => some name
  | .key _ => none
  | .revisionConflict _ _ _ => none

/-- A directory in the order of the lower-cased names. -/
def listing {α : Type} (h : TreeHost τ) (name : α → String) (entries : List α) : List α :=
  (h.iterdir entries).insertionSort fun a b => h.letters.lower (name a) ≤ h.letters.lower (name b)

/-- `_read_tree_meta`. -/
def treeMeta (folder : Folder) : List (String × Json) := (folder.metaFile.bind Json.entries?).getD []

/-- `_tree_title`. -/
def treeTitle (h : TreeHost τ) (folder : Folder) (slug content : String) : String :=
  let title := Text.strip (Json.textOr h.render (Json.get (treeMeta folder) "title"))
  if title ≠ "" then title
  else if headingInText content ≠ "" then headingInText content
  else slug

/-- `_tree_timestamp`. -/
def treeTimestamp (h : TreeHost τ) (folder : Folder) (key : String) : Option τ :=
  let raw := Text.strip (Json.textOr h.render (Json.get (treeMeta folder) key))
  if raw = "" then none else h.fromIso raw

/-- A directory that an import comes to, with the bytes of its `document.md`. -/
structure DocDir where
  ecosystem : String
  name : String
  raw : ByteArray
  folder : Folder

/-- What is read of it before anything is written. -/
structure Source where
  slug : String
  content : String
  title : String

def decode (h : TreeHost τ) (raw : ByteArray) : Except Error String :=
  match String.fromUTF8? raw with
  | none => .error (.value (h.decodeError raw))
  | some content => .ok content

def readSource (h : TreeHost τ) (d : DocDir) : Except Error Source := do
  let slug ← normalizeDocId d.name
  checkDocBytes d.raw
  let content ← decode h d.raw
  let title ← normalizeTitle (treeTitle h d.folder slug content)
  return { slug, content, title }

/-- The content and the title are stored already. -/
def isStored (h : TreeHost τ) (source : Source) (row : Document τ) : Bool :=
  row.sha256 = some (h.sha256 source.content.toUTF8) ∧ row.title = source.title

/-- The row with the stamps of the tree, where it has any. -/
def restamp (place : Place) (created modified : Option τ) (c : Store τ) : Store τ :=
  match c.documents.get? place with
  | none => c
  | some row =>
    { c with
      documents := c.documents.set place
        { row with createdAt := created.getD row.createdAt, modifiedAt := modified.getD row.modifiedAt } }

/-- The first half of `_import_document`: the row and its Markdown. -/
def importBody (h : TreeHost τ) (dryRun : Bool) (d : DocDir) (source : Source) (p : Progress τ) :
    Except Error (Progress τ) :=
  let place := (d.ecosystem, source.slug)
  let row := p.docs.documents.get? place
  if row.any (isStored h source) then .ok { p with report := { p.report with unchanged := p.report.unchanged + 1 } }
  else
    let report :=
      if row.isNone then { p.report with documents := p.report.documents + 1 }
      else { p.report with replaced := p.report.replaced + 1 }
    if dryRun then .ok { p with report }
    else do
      let (row, c) := rowFor h.toHost place source.title p.docs
      let c ← storeRevision h.toHost place row source.content source.title c
      return { report, docs := restamp place (treeTimestamp h d.folder "created") (treeTimestamp h d.folder "modified") c }

def importAsset (dryRun : Bool) (ecosystem slug : String) (file : String × ByteArray) (p : Progress τ) :
    Option Error × Progress τ :=
  match normalizeAssetName file.1 with
  | .error e =>
    let why := e.caught.getD ""
    (none, p.fail s!"{ecosystem}/{slug}/{file.1}: {why}")
  | .ok name =>
    let counted := { p.report with assets := p.report.assets + 1 }
    if dryRun then (none, { p with report := counted })
    else if maxAssetBytes < file.2.size then (none, p.fail s!"{ecosystem}/{slug}/{name}: 资源超过上限，已跳过")
    else
      match saveAsset ecosystem slug name file.2 p.docs with
      | .error e => (some e, p)
      | .ok c => (none, { report := counted, docs := c })

/-- `_import_document`. -/
def importDocument (h : TreeHost τ) (dryRun : Bool) (d : DocDir) (p : Progress τ) : Option Error × Progress τ :=
  match readSource h d with
  | .error e => (some e, p)
  | .ok source =>
    match importBody h dryRun d source p with
    | .error e => (some e, p)
    | .ok p =>
      loop (importAsset dryRun d.ecosystem source.slug) (listing h Prod.fst d.folder.assets.entries) p

/-- What the loop of `import_tree` makes of a document: a failure is recorded, and the rest goes on. -/
def importDir (h : TreeHost τ) (dryRun : Bool) (d : DocDir) (p : Progress τ) : Option Error × Progress τ :=
  match importDocument h dryRun d p with
  | (none, p) => (none, p)
  | (some e, p) =>
    match e.caught with
    | none => (some e, p)
    | some why => (none, p.fail s!"{d.ecosystem}/{d.name}: {why}")

/-- The directories of a tree that hold a document, one ecosystem after the other. -/
def docDirs (h : TreeHost τ) (tree : Tree) : List DocDir :=
  ecosystems.flatMap fun ecosystem =>
    (listing h (fun e => e.1.2) (tree.entries.filter fun e => e.1.1 = ecosystem)).filterMap fun e =>
      e.2.document.map fun raw => ⟨ecosystem, e.1.2, raw, e.2⟩

/-- `import_tree`; the source is `none` where it is no directory. -/
def importTree (h : TreeHost τ) (dryRun : Bool) (source : Option Tree) (c : Store τ) : Option Error × Progress τ :=
  match source with
  | none => (some (.value "目录不存在"), { docs := c })
  | some tree => loop (importDir h dryRun) (docDirs h tree) { docs := c }

end OpenFish.Docs
