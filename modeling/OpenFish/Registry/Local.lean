/-
The registry over a local directory: the index of its tarballs, of the rows without one and of what was published, and the
packuments it gives, alone or over those of an upstream.
-/
import OpenFish.Hub.Scan
import OpenFish.Registry.Manifest

namespace OpenFish.Registry

open Lib

/-! ## The index -/

/-- A tarball below the directory. -/
structure Tarball extends Hub.File where
  /-- `_read_tarball_manifest`. -/
  manifest : Option Object
  mtime : BitVec 64
  /-- `_digests`. -/
  sha1 : String
  integrity : String

structure LocalVersion where
  manifest : Object
  /-- The name of the file and its digests, unless there is only a row. -/
  file : Option (String × String × String)

structure Record where
  versions : Dict String LocalVersion
  times : Dict String (BitVec 64)
  description : Json
  tags : List Json
  modified : BitVec 64
  latest : String
  distTags : Object

def Record.empty : Record := ⟨.empty, .empty, .null, [], 0, "", []⟩

abbrev Index := Dict String Record

/-- `list(value)`. -/
def listOf : Json → Except String (List Json)
  | .arr items => .ok items
  | .str s => .ok (s.toList.map fun c => .str (String.singleton c))
  | .obj entries => .ok (entries.map fun e => .str e.1)
  | _ => .error "object is not iterable"

variable (h : Host)

/-- The name and version that a tarball is listed under: what its manifest says, or else its file name. -/
def identity (t : Tarball) : String × String :=
  let said (key : String) : String := Text.strip ((t.manifest.map fun m => (Json.get m key).textOr h.render).getD "")
  let fallback := Npm.parseFilename t.name
  (if said "name" = "" then fallback.1 else said "name", if said "version" = "" then fallback.2 else said "version")

/-- The keywords as the tags, if there are any. -/
def tagsOr (keywords : Json) (tags : List Json) : Except String (List Json) :=
  if keywords.truthy then listOf keywords else .ok tags

/-- One turn of the loop over the tarballs. -/
def addTarball (index : Index) (t : Tarball) : Except String Index := do
  let name := (identity h t).1
  let version := (identity h t).2
  if name = "" ∨ version = "" then return index
  else
    let record := (index.get? name).getD .empty
    let record := { record with
      times := record.times.set version t.mtime
      modified := if h.earlier record.modified t.mtime then t.mtime else record.modified }
    let file := some (t.name, t.sha1, t.integrity)
    match t.manifest with
    | some manifest =>
      let source := Json.assign (update manifest (coreManifest name version manifest)) "dist" (.obj [])
      let description := orElse (Json.get source "description") record.description
      let tags ← tagsOr (Json.get source "keywords") record.tags
      return index.set name { record with versions := record.versions.set version ⟨source, file⟩, description, tags }
    | none =>
      let source := coreManifest name version [] ++ [("dist", .obj [])]
      return index.set name { record with versions := record.versions.set version ⟨source, file⟩ }

/-- One turn of the loop over the listed entries: of a row without a tarball, and only of a package that has none. -/
def addEntry (index : Index) (e : Hub.Entry) : Index :=
  if e.name = "" ∨ index.has e.name = true ∨ e.downloadUrl.isSome = true then index
  else
    let version := (Mirrors.orNone e.version).getD Npm.latestTag
    let source := coreManifest e.name version [] ++ [("description", .str (e.description.getD "")), ("dist", .obj [])]
    index.set e.name
      { versions := Dict.empty.set version ⟨source, none⟩
        times := .empty
        description := (e.description.map Json.str).getD .null
        tags := e.tags.map Json.str
        modified := h.now
        latest := ""
        distTags := [] }

/-- The record with its highest version. -/
def withLatest (record : Record) : Except String Record :=
  (highest h (record.versions.entries.map Prod.fst)).map fun latest => { record with latest }

def allLatest : List (String × Record) → Except String (List (String × Record))
  | [] => .ok []
  | (name, record) :: rest => do
    let record ← withLatest h record
    let more ← allLatest rest
    return (name, record) :: more

/-- `times.setdefault(version, float(stamp))` of a stamp that is a number, for a version there is. -/
def setStamp (versions : Dict String LocalVersion) (times : Dict String (BitVec 64)) (e : String × Json) :
    Except String (Dict String (BitVec 64)) :=
  let put (stamp : BitVec 64) := if times.has e.1 then times else times.set e.1 stamp
  if versions.has e.1 then
    match e.2 with
    | .float bits => .ok (put bits)
    | .int n => (h.ofInt n).map put
    | .bool b => (h.ofInt (if b then 1 else 0)).map put
    | _ => .ok times
  else .ok times

/-- What was published of a package, over its record. -/
def applyPublished (record : Record) (published : Object) : Except String Record := do
  let items ← Json.itemsOrNone (Json.get published "dist-tags")
  let tags := items.filter fun e => e.2 matches .str _
  let description := orElse record.description (orElse (Json.get published "description") record.description)
  let stamps ← Json.itemsOrNone (Json.get published "time")
  let times ← stamps.foldlM (setStamp h record.versions) record.times
  return { record with distTags := if tags = [] then record.distTags else tags, description, times }

/-- One turn of the loop over `publish.json`. -/
def addPublished (index : Index) (e : String × Json) : Except String Index :=
  match index.get? e.1, e.2 with
  | some record, .obj published => (applyPublished h record published).map fun record => index.set e.1 record
  | _, _ => .ok index

/-- The visible tarballs, in order. -/
def visible (files : List Tarball) : List Tarball :=
  (files.filter fun t => Text.endsWith ".tgz" t.name && t.toFile.visible).insertionSort fun a b => a.parts ≤ b.parts

/-- `local_index`, of the files of the directory, if it is one, the rows of the overlay and the packages of
`publish.json`. -/
def localIndex (files : Option (List Tarball)) (rows : List Hub.Item) (published : Object) : Except String Index := do
  let index ← (visible (files.getD [])).foldlM (addTarball h) Dict.empty
  let listed := Hub.scanNpm ⟨"", h.quote⟩ (files.map fun found => found.map Tarball.toFile) rows
  let entries ← allLatest h (listed.foldl (addEntry h) index).entries
  published.foldlM (addPublished h) (Dict.empty.update entries)

/-! ## Packuments -/

/-- `_local_manifest`. -/
def localManifest (name : String) (v : LocalVersion) : Object :=
  Json.assign v.manifest "dist" (.obj
    [("tarball", .str (v.file.elim "" fun file => h.tarballUrl name file.1)),
      ("shasum", .str (v.file.elim "" fun file => file.2.1)),
      ("integrity", .str (v.file.elim "" fun file => file.2.2))])

/-- The manifest as a packument of the kind has it. -/
def shaped (abbreviated : Bool) (manifest : Object) : Object := if abbreviated then abbreviatedManifest manifest else manifest

/-- The recorded tags of a version there is, and `latest` in any case. -/
def localTags (record : Record) : Dict String Json :=
  let tags := Dict.empty.update (record.distTags.filter fun tag =>
    match tag.2 with
    | .str version => record.versions.has version
    | _ => false)
  if tags.has Npm.latestTag then tags
  else tags.set Npm.latestTag (.str ((Mirrors.orNone record.latest).getD Npm.latestTag))

/-- `local_packument`. -/
def localPackument (name : String) (abbreviated : Bool) (record : Record) : Packument :=
  let modified := h.iso (if record.modified = 0 then h.now else record.modified)
  let times := record.times.entries.map fun e => (e.1, Json.str (h.iso e.2))
  { name
    distTags := localTags record
    versions := record.versions.image fun _ v => shaped abbreviated (localManifest h name v)
    modified
    others :=
      if abbreviated then []
      else [("time", Json.obj (Json.assign times "modified" (.str modified)))] ++
        (if record.description.truthy then [("description", record.description)] else []) ++
        if record.tags = [] then [] else [("keywords", .arr record.tags)] }

/-- What is asked for, and what the registry has and hears. -/
structure Query where
  name : String
  abbreviated : Bool
  files : Option (List Tarball)
  rows : List Hub.Item
  published : Object
  proxying : Bool
  /-- `_upstream_packument`: a document that is an object, or an error. -/
  answer : Option Object × Option String

/-- The local packument, the upstream's or both of them. -/
def answered (q : Query) (own : Option Packument) : Except String (Option Packument × Option String) :=
  match q.proxying, q.answer, own with
  | false, _, some own => .ok (some own, none)
  | false, _, none => .ok (none, some "proxy-disabled")
  | true, (none, _), some own => .ok (some own, none)
  | true, (none, error), none => .ok (none, error)
  | true, (some document, _), own =>
    match rewritePackument h document q.name q.abbreviated, own with
    | .error why, _ => .error why
    | .ok none, some own => .ok (some own, none)
    | .ok none, none => .ok (none, some "notfound")
    | .ok (some rewritten), none => .ok (some rewritten, none)
    | .ok (some rewritten), some own => (mergePackuments h rewritten own).map fun merged => (some merged, none)

/-- `packument`. -/
def packument (q : Query) : Except String (Option Packument × Option String) := do
  let index ← localIndex h q.files q.rows q.published
  answered h q ((index.get? q.name).map (localPackument h q.name q.abbreviated))

end OpenFish.Registry
