/-
The metadata of the mirrors as rows (`services/mirror_catalog.py`): a `catalog.json` is imported in one transaction, and
the rows are written out as one again.
-/
import OpenFish.Lib.Dict
import OpenFish.Lib.Effect
import OpenFish.Lib.Json
import OpenFish.Lib.Machine
import OpenFish.Lib.Text

namespace OpenFish.Mirrors

open Lib

/-! ## Namespaces and rows -/

/-- `MIRRORS`. -/
inductive Mirror
  | npm
  | debian
  | dockerImages
  deriving DecidableEq, Repr

def mirrors : List Mirror := [.npm, .debian, .dockerImages]

def Mirror.name : Mirror → String
  | .npm => "npm"
  | .debian => "debian"
  | .dockerImages => "docker-images"

/-- `top_key`. -/
def topKey : Mirror → String
  | .npm => "packages"
  | .debian | .dockerImages => "artifacts"

/-- What a row of `catalog_entries` describes; it is found under its namespace and its path. -/
structure Row where
  filename : String := ""
  displayName : Option String := none
  description : Option String := none
  version : Option String := none
  tags : String := "[]"
  arch : Option String := none
  kind : Option String := none
  deriving DecidableEq, Repr

/-- The rows of all namespaces, in the order of their ids. -/
abbrev Table := Dict (String × String) Row

/-- What the deployment supplies. -/
structure Host where
  /-- `str` of a value that is no string. -/
  render : Json → String
  /-- `repr` of a text. -/
  repr : String → String
  /-- `json.dumps` of texts. -/
  dumps : List String → String
  /-- What `tag_list` reads of it. -/
  tagList : String → List String
  tagList_dumps : ∀ tags, tagList (dumps tags) = tags
  tagList_empty : tagList "[]" = []
  /-- Why the database refuses a row under its key, if it does. -/
  refuses : String × String → Row → Option String

/-- An entry of an overlay. -/
abbrev OverlayItem := List (String × Json)

/-- `check_namespace`. -/
def checkNamespace (h : Host) (namespaceName : String) : Except String Mirror :=
  match mirrors.find? fun m => m.name = namespaceName with
  | some m => .ok m
  | none => .error ("unknown mirror namespace " ++ h.repr namespaceName ++ " (expected one of: npm, debian, docker-images)")

/-- `entries`. -/
def entries (m : Mirror) (t : Table) : List (String × Row) :=
  (t.entries.filter fun e => e.1.1 = m.name).map fun e => (e.1.2, e.2)

/-! ## An entry of the overlay -/

/-- The identity that these texts make. -/
def identity (m : Mirror) (filename name version arch : String) : String :=
  if Text.strip filename ≠ "" then Text.strip filename
  else if m = .npm then Text.strip name
  else if Text.strip arch ≠ "" then
    if Text.strip version ≠ "" then Text.strip name ++ "_" ++ Text.strip version ++ "_" ++ Text.strip arch
    else Text.strip name ++ "_" ++ Text.strip arch
  else if Text.strip version ≠ "" then Text.strip name ++ ":" ++ Text.strip version
  else Text.strip name

/-- `str(item.get(key) or "")`. -/
def textOf (h : Host) (item : OverlayItem) (key : String) : String := (Json.get item key).textOr h.render

/-- `path_for`. -/
def pathFor (h : Host) (m : Mirror) (item : OverlayItem) : String :=
  identity m (textOf h item "filename") (textOf h item "name") (textOf h item "version") (textOf h item "arch")

/-- The columns that an entry sets. -/
structure Fields where
  filename : String
  displayName : Option String
  description : Option String
  version : Option String
  tags : String
  /-- The architecture and the kind, which npm does not set. -/
  flat : Option (Option String × Option String)
  deriving DecidableEq, Repr

/-- `text or None`. -/
def orNone (text : String) : Option String := if text = "" then none else some text

/-- The tags as they are stored. -/
def tagsOf (h : Host) (value : Json) : String :=
  match value with
  | .arr items => if items.isEmpty then "[]" else h.dumps (items.map (·.text h.render))
  | _ => "[]"

/-- `entry_fields`. -/
def entryFields (h : Host) (m : Mirror) (item : OverlayItem) : Fields where
  filename := textOf h item "filename"
  displayName := orNone (textOf h item "name")
  description := orNone (textOf h item "description")
  version := orNone (textOf h item "version")
  tags := tagsOf h (Json.get item "tags")
  flat := if m = .npm then none else some (orNone (textOf h item "arch"), orNone (textOf h item "kind"))

/-- The row with these columns. -/
def setFields (f : Fields) (row : Row) : Row :=
  let row := { row with filename := f.filename, displayName := f.displayName, description := f.description,
                        version := f.version, tags := f.tags }
  match f.flat with
  | none => row
  | some (arch, kind) => { row with arch, kind }

/-- The row has them already. -/
def holds (f : Fields) (row : Row) : Bool :=
  row.filename = f.filename ∧ row.displayName = f.displayName ∧ row.description = f.description ∧ row.version = f.version ∧
    row.tags = f.tags ∧ f.flat.all fun flat => row.arch = flat.1 ∧ row.kind = flat.2

/-! ## Import -/

structure ImportArgs where
  namespaceName : String
  /-- The path of the file, and the document in it or why it cannot be read. -/
  source : String
  content : Except String Json
  prune : Bool := false
  dryRun : Bool := false
  /-- What fails the commit besides a row that is refused. -/
  outage : Option String := none

structure OverlayReport where
  namespaceName : String
  path : String
  created : Nat := 0
  updated : Nat := 0
  unchanged : Nat := 0
  pruned : Nat := 0
  exported : Nat := 0
  deriving DecidableEq, Repr

/-- `_read_overlay`. -/
def readOverlay (a : ImportArgs) : Except String (List (String × Json)) :=
  match a.content with
  | .error why => .error why
  | .ok (.obj payload) => .ok payload
  | .ok _ => .error ("overlay file is not a JSON object: " ++ a.source)

/-- The dictionaries of `payload.get(key) or []`, which a loop goes through. -/
def itemsOf (value : Json) : Except String (List OverlayItem) :=
  if value.truthy then
    match value with
    | .arr items => .ok (items.filterMap Json.entries?)
    | .obj _ | .str _ => .ok []
    | _ => .error "object is not iterable"
  else .ok []

def overlayItems (m : Mirror) (a : ImportArgs) : Except String (List OverlayItem) := do
  let payload ← readOverlay a
  itemsOf (Json.get payload (topKey m))

/-- One entry for each identity: the last one, where the first one stood. -/
def byPath (h : Host) (m : Mirror) (items : List OverlayItem) : Dict String OverlayItem :=
  Dict.keyed (pathFor h m) "" items Dict.empty

/-- One turn of the loop. -/
def importItem (h : Host) (m : Mirror) (dryRun : Bool) (existing : Table) (p : OverlayReport × Table)
    (e : String × OverlayItem) : OverlayReport × Table :=
  let fields := entryFields h m e.2
  match existing.get? (m.name, e.1) with
  | none => ({ p.1 with created := p.1.created + 1 }, if dryRun then p.2 else p.2.set (m.name, e.1) (setFields fields {}))
  | some row =>
    if holds fields row then ({ p.1 with unchanged := p.1.unchanged + 1 }, p.2)
    else ({ p.1 with updated := p.1.updated + 1 }, if dryRun then p.2 else p.2.set (m.name, e.1) (setFields fields row))

/-- The rows that the overlay does not name. -/
def unnamed (m : Mirror) (named : Dict String OverlayItem) (t : Table) : List String :=
  ((entries m t).map Prod.fst).filter fun path => (named.get? path).isNone

/-- What fails the commit of `t'` over `t`. -/
def commitFails (h : Host) (outage : Option String) (t t' : Table) : Option String :=
  match outage with
  | some why => some why
  | none => t'.entries.findSome? fun e => if t.get? e.1 = some e.2 then none else h.refuses e.1 e.2

/-- `import_file`. -/
def importFile (h : Host) (a : ImportArgs) (t : Table) : Except String OverlayReport × Table :=
  match checkNamespace h a.namespaceName with
  | .error why => (.error why, t)
  | .ok m =>
    match overlayItems m a with
    | .error why => (.error why, t)
    | .ok items =>
      let named := byPath h m items
      let p := named.entries.foldl (importItem h m a.dryRun t) ({ namespaceName := a.namespaceName, path := a.source }, t)
      let gone := if a.prune then unnamed m named t else []
      let report := { p.1 with pruned := gone.length }
      if a.dryRun then (.ok report, p.2)
      else
        let t' := gone.foldl (fun t path => t.erase (m.name, path)) p.2
        match commitFails h a.outage t t' with
        | some why => (.error why, t)
        | none => (.ok report, t')

/-- The mirrors' rows as imports make them, none at first. -/
def overlays (h : Host) : Machine Table ImportArgs (Except String OverlayReport) := ⟨Dict.empty, fun t a => importFile h a t⟩

/-! ## Export -/

/-- A value that an exported entry does without: none, an empty text, an empty list. -/
def isEmpty : Json → Bool
  | .null => true
  | .str s => s = ""
  | .arr items => items.isEmpty
  | _ => false

def ofOption (value : Option String) : Json := (value.map Json.str).getD .null

/-- A row as an entry, its empty values included. -/
def fullItem (h : Host) (m : Mirror) (row : Row) : OverlayItem :=
  [("filename", .str row.filename), ("name", ofOption row.displayName), ("version", ofOption row.version),
    ("description", ofOption row.description), ("tags", .arr ((h.tagList row.tags).map .str))] ++
    if m = .npm then [] else [("arch", ofOption row.arch), ("kind", ofOption row.kind)]

def exportItem (h : Host) (m : Mirror) (row : Row) : OverlayItem := (fullItem h m row).filter fun e => !isEmpty e.2

/-- `export_file`: what is written, and the report. -/
def exportFile (h : Host) (namespaceName path : String) (t : Table) : Except String (Json × OverlayReport) := do
  let m ← checkNamespace h namespaceName
  let items := (entries m t).map fun e => Json.obj (exportItem h m e.2)
  return (.obj [(topKey m, .arr items)], { namespaceName, path, exported := items.length })

end OpenFish.Mirrors
