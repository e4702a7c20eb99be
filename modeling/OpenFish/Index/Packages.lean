/-
`PackageIndex` of `index/packages.py`: the patterns of distribution file names, the entries they give, and how the
index scans the packages directory and follows its changes.
-/
import Mathlib.Data.String.Basic
import OpenFish.Lib.Catalog
import OpenFish.Lib.Regex
import OpenFish.Lib.Text
import OpenFish.Lib.Unicode
import OpenFish.Index.Watchdog

namespace OpenFish.Index

open Lib

/-! ## Names -/

section Names
variable (u : Unicode)

/-- A sequence of expressions. -/
def inOrder : List Regex → Regex
  | [] => .empty
  | r :: rs => .seq r (inOrder rs)

/-- `^(.+?)-([\w!<>.+]+?)(?:-[^-]+)?-(.+?)-(.+?)-(.+)\.whl$` -/
def wheelPattern : Regex := inOrder
  [.group "1" (.some true .dot), .lit ['-'],
    .group "2" (.some true (.char fun c => u.word c || c ∈ ['!', '<', '>', '.', '+'])),
    .opt (.seq (.lit ['-']) (.some false (.char (· ≠ '-')))), .lit ['-'],
    .group "3" (.some true .dot), .lit ['-'], .group "4" (.some true .dot), .lit ['-'],
    .group "5" (.some false .dot), .lit ".whl".toList, .dollar]

/-- `^(.+?)-([\d!<>.]+?)\.(tar\.gz|tar\.bz2|tar\.xz|zip)$` -/
def sdistPattern : Regex := inOrder
  [.group "1" (.some true .dot), .lit ['-'],
    .group "2" (.some true (.char fun c => u.decimal c || c ∈ ['!', '<', '>', '.'])), .lit ['.'],
    .group "3" (.oneOf ["tar.gz".toList, "tar.bz2".toList, "tar.xz".toList, "zip".toList]), .dollar]

def packageExtensions : List String := [".whl", ".tar.gz", ".tar.bz2", ".tar.xz", ".zip", ".egg"]

/-- `[-_.]+` becomes `-`. -/
def collapseRuns : List Char → List Char
  | [] => []
  | c :: cs =>
    if c ∈ ['-', '_', '.'] then
      match collapseRuns cs with
      | '-' :: rest => '-' :: rest
      | rest => '-' :: rest
    else c :: collapseRuns cs

/-- PEP 503. -/
def normalizePackageName (name : String) : String := String.ofList (collapseRuns (u.lower name).toList)

/-- `m.group(n)`. -/
def groupOf (groups : List (String × String)) (n : String) : String := (groups.lookup n).getD ""

/-- `_parse_name`. -/
def parseName (filename : String) : Option String :=
  match (wheelPattern u).capture filename with
  | some groups => some (normalizePackageName u (groupOf groups "1"))
  | none => ((sdistPattern u).capture filename).map fun groups => normalizePackageName u (groupOf groups "1")

/-- `_extract_version`; what follows the patterns is for names of neither kind. -/
def extractVersion (filename normName : String) : String :=
  match (wheelPattern u).capture filename with
  | some groups => groupOf groups "2"
  | none =>
    match (sdistPattern u).capture filename with
    | some groups => groupOf groups "2"
    | none =>
      let rest := Text.lstrip ['-', '_', '.', ' '] (String.ofList (filename.toList.drop normName.length))
      -- the longest extension first
      match [".tar.bz2", ".tar.gz", ".tar.xz", ".whl", ".zip", ".egg"].find? (Text.endsWith · rest) with
      | some ext => String.ofList (rest.toList.take (rest.length - ext.length))
      | none => rest

end Names

/-! ## Entries -/

structure PackageFile where
  filename : String
  path : Path
  url : String
  packageName : String
  version : String
  packagetype : String
  pythonVersion : String
  size : Nat
  sha256Digest : Option String
  deriving DecidableEq, Repr

/-- The order of `sort(key=lambda f: f.filename, reverse=True)`. -/
def PackageFile.rank (f : PackageFile) : OrderDual String := OrderDual.toDual f.filename

/-- `Path.name`. -/
def baseName (path : Path) : String := path.getLast?.getD ""

/-- `st_size` of a file. -/
def statSize (T : FileTree) (path : Path) : Nat := ((T.file? path).map List.length).getD 0

section Entries
variable (u : Unicode)

def buildPackageFile (T : FileTree) (fullPath : Path) (wantSize : Bool) : Option PackageFile :=
  let filename := baseName fullPath
  match parseName u filename with
  | none => none
  | some pkgName =>
    if pkgName = "" then none
    else
      some
        { filename
          path := fullPath
          url := filename
          packageName := pkgName
          version := extractVersion u filename pkgName
          packagetype := if Text.endsWith ".whl" filename then "bdist_wheel" else "sdist"
          pythonVersion := if Text.endsWith ".whl" filename then "py3" else "source"
          size := if wantSize then statSize T fullPath else 0
          sha256Digest := none }

def hasPackageExtension (filename : String) : Bool := packageExtensions.any (Text.endsWith · filename)

/-! ## The index -/

/-- The entries of the directory, with the packages they are for. -/
def packageEntries (T : FileTree) : List (String × PackageFile) :=
  (T.children []).filterMap fun name =>
    if hasPackageExtension name then (buildPackageFile u T [name] false).map fun pf => (pf.packageName, pf) else none

def packageScan (T : FileTree) : Catalog String PackageFile := Catalog.group PackageFile.rank (packageEntries u T)

def packageAddOrUpdate (T : FileTree) (path : Path) (packages : Catalog String PackageFile) : Catalog String PackageFile :=
  if T.file? path = none then packages
  else if hasPackageExtension (baseName path) then
    match buildPackageFile u T path true with
    | none => packages
    | some pf => Catalog.put PackageFile.rank packages pf.packageName pf
  else packages

def packageRemove (path : Path) (packages : Catalog String PackageFile) : Catalog String PackageFile :=
  match parseName u (baseName path) with
  | none => packages
  | some pkgName => Catalog.drop PackageFile.rank packages pkgName (OrderDual.toDual (baseName path))

def packageIndex : WatchdogIndex (Catalog String PackageFile) where
  recursive := false
  fullScan := packageScan u
  addOrUpdate := packageAddOrUpdate u
  remove := packageRemove u

/-- `get_files`. -/
def getFiles (packages : Catalog String PackageFile) (name : String) : Option (List PackageFile) :=
  (packages.get? (normalizePackageName u name)).filter fun files => !files.isEmpty

end Entries

end OpenFish.Index
