/-
The mirrors as they are listed (`services/hub.py`): the files of a directory are the catalog, and the rows of an overlay
describe them.
-/
import Mathlib.Data.List.Lex
import Mathlib.Data.List.Sort
import Mathlib.Data.String.Basic
import OpenFish.Mirrors.Overlay

namespace OpenFish.Hub

open Lib Mirrors

/-! ## The overlay -/

/-- `OverlayItem`, in which a text that would be empty is missing. -/
structure Item where
  filename : Option String
  name : Option String
  version : Option String
  arch : Option String
  kind : Option String
  description : Option String
  tags : List String
  deriving DecidableEq, Repr

/-- The text, unless it is `None` or `NO_FILE`. -/
def present (value : Option String) : Option String := value.bind orNone

/-- `mirror_catalog.overlay`. -/
def overlay (h : Host) (m : Mirror) (t : Table) : List Item :=
  (entries m t).map fun e =>
    { filename := orNone e.2.filename
      name := present e.2.displayName
      version := present e.2.version
      arch := if m = .npm then none else present e.2.arch
      kind := if m = .npm then none else present e.2.kind
      description := present e.2.description
      tags := h.tagList e.2.tags }

/-! ## Files -/

/-- A file below the directory that is scanned, with what is shown of it. -/
structure File where
  /-- The path, below the directory. -/
  parts : List String
  size : Nat
  sizeHuman : String
  modified : String
  sha256 : Option String
  deriving DecidableEq, Repr

def File.name (f : File) : String := f.parts.getLast?.getD ""

/-- `_visible`. -/
def File.visible (f : File) : Bool :=
  f.parts ≠ [] && f.parts.all (fun part => !Text.startsWith "." part) && f.name ≠ "catalog.json" &&
    !(["readme", "license", "changelog"].any fun head => Text.startsWith head (Text.lower f.name))

/-- The tarballs of an npm directory, in order. -/
def tarballs (files : List File) : List File :=
  (files.filter fun f => Text.endsWith ".tgz" f.name && f.visible).insertionSort fun a b => a.parts ≤ b.parts

/-- The artifacts of a flat directory, in order: what lies in a directory below it is none. -/
def artifactFiles (files : List File) : List File :=
  (files.filter fun f => f.parts.length = 1 && f.visible).insertionSort fun a b => a.parts ≤ b.parts

/-! ## Entries -/

structure Entry where
  name : String
  version : String
  filename : Option String
  size : Option Nat
  sizeHuman : String
  modified : Option String
  downloadUrl : Option String
  description : Option String
  tags : List String
  deriving DecidableEq, Repr

/-- An entry of a flat mirror. -/
structure FlatEntry extends Entry where
  arch : String
  kind : String
  sha256 : Option String
  deriving DecidableEq, Repr

/-- How the files are served. -/
structure Site where
  urlPrefix : String
  quote : String → String

def Site.url (s : Site) (path : String) : String := Text.rstrip '/' s.urlPrefix ++ "/" ++ s.quote path

/-! ## npm -/

/-- The name and the version in the name of a tarball; without a dash it is all name. -/
def parseStem (filename : String) : String × String :=
  let stem := String.ofList (filename.toList.rdrop 4)
  let parts := Text.rpartition '-' stem
  if parts.1 = "" then (stem, "") else parts

/-- `_npm_tarball_entry`. -/
def npmTarballEntry (s : Site) (row : Option Item) (f : File) : Entry where
  name := (row.bind (·.name)).getD (parseStem f.name).1
  version := ((row.bind (·.version)).or (orNone (parseStem f.name).2)).getD "latest"
  filename := some f.name
  size := some f.size
  sizeHuman := f.sizeHuman
  modified := some f.modified
  downloadUrl := some (s.url f.name)
  description := row.bind (·.description)
  tags := (row.map (·.tags)).getD []

/-- `listed`: the last row of each name. -/
def listed (rows : List Item) : Dict String Item := Dict.keyed (fun row => row.name.getD "") "" rows .empty

/-- The entry of a tarball: it is described by the row that has its file name for a name, or else its package. -/
def npmEntry (s : Site) (rows : List Item) (f : File) : Entry :=
  let entry := npmTarballEntry s ((listed rows).get? f.name) f
  { entry with description := entry.description.or (((listed rows).get? entry.name).bind (·.description)) }

/-- A row without a tarball. -/
def npmMetadataEntry (row : Item) : Entry where
  name := row.name.getD ""
  version := row.version.getD "latest"
  filename := row.filename
  size := none
  sizeHuman := ""
  modified := none
  downloadUrl := none
  description := row.description
  tags := row.tags

/-- The `packages` of `scan_npm`; without a directory there are none. -/
def scanNpm (s : Site) (dir : Option (List File)) (rows : List Item) : List Entry :=
  match dir with
  | none => []
  | some files =>
    let packages := (tarballs files).map (npmEntry s rows)
    packages ++ ((listed rows).entries.filter fun e => e.1 ∉ packages.map (·.name)).map fun e => npmMetadataEntry e.2

/-- A package of the index. -/
structure Listing where
  name : String
  description : String
  /-- The one dist-tag. -/
  latest : String
  modified : Option String
  /-- The versions, with the URL of the tarball. -/
  versions : List (String × String)
  deriving DecidableEq, Repr

inductive IndexValue
  | updated (at' : Int)
  | package (listing : Listing)
  deriving DecidableEq, Repr

/-- The value of an entry. -/
def listingOf (e : Entry) : Listing :=
  let version := (orNone e.version).getD "latest"
  { name := e.name
    description := e.description.getD ""
    latest := version
    modified := e.modified
    versions := (e.downloadUrl.map fun url => (version, url)).toList }

/-- `npm_all_index`. -/
def npmAllIndex (now : Int) (packages : List Entry) : Dict String IndexValue :=
  packages.foldl (fun document e => document.set e.name (.package (listingOf e)))
    (Dict.empty.set "_updated" (.updated now))

/-! ## Flat mirrors -/

/-- What a file name says; nothing, where a text is empty. -/
structure Info where
  name : String
  version : String
  arch : String
  kind : String
  deriving DecidableEq, Repr

/-- `_flat_entry`. -/
def flatEntry (s : Site) (parse : String → Info) (row : Option Item) (f : File) : FlatEntry where
  name := ((row.bind (·.name)).or (orNone (parse f.name).name)).getD f.name
  version := ((row.bind (·.version)).or (orNone (parse f.name).version)).getD ""
  arch := ((row.bind (·.arch)).or (orNone (parse f.name).arch)).getD ""
  kind := ((row.bind (·.kind)).or (orNone (parse f.name).kind)).getD "file"
  filename := some f.name
  size := some f.size
  sizeHuman := f.sizeHuman
  sha256 := f.sha256
  modified := some f.modified
  downloadUrl := some (s.url f.name)
  description := row.bind (·.description)
  tags := (row.map (·.tags)).getD []

/-- `_flat_metadata_entry`. -/
def flatMetadataEntry (row : Item) : FlatEntry where
  name := (row.name.or row.filename).getD "unnamed"
  version := row.version.getD ""
  arch := row.arch.getD ""
  kind := row.kind.getD "file"
  filename := row.filename
  size := none
  sizeHuman := ""
  sha256 := none
  modified := none
  downloadUrl := none
  description := row.description
  tags := row.tags

/-- `by_filename`: the last row of each file name. -/
def byFilename (rows : List Item) : Dict String Item := Dict.keyed (fun row => row.filename.getD "") "" rows .empty

/-- The `artifacts` of `scan_flat`. -/
def scanFlat (s : Site) (parse : String → Info) (dir : Option (List File)) (rows : List Item) : List FlatEntry :=
  match dir with
  | none => []
  | some files =>
    let paths := artifactFiles files
    paths.map (fun f => flatEntry s parse ((byFilename rows).get? f.name) f) ++
      (((byFilename rows).entries.filter fun e => e.1 ∉ paths.map (·.name)).map fun e => flatMetadataEntry e.2) ++
      (rows.filter fun row => row.filename = none).map flatMetadataEntry

end OpenFish.Hub
