/-
`services/npm_registry.py` over the npm directory alone, with no upstream: the index of the tarballs by the names and
versions that their manifests, or else their file names, say; packuments, version manifests and tarballs; the caches.
-/
import OpenFish.Npm.Publish

namespace OpenFish.Npm

open Lib

variable (formats : Formats)

/-! ## What a tarball is listed as -/

/-- `_visible`, of a file right under the directory. -/
def visible (filename : String) : Bool :=
  !Text.startsWith "." filename && filename ≠ "catalog.json" &&
    !(["readme", "license", "changelog"].any fun head => Text.startsWith head (Text.lower filename))

/-- `_parse_filename`, of a name that ends in `.tgz`, as those of the index do. -/
def parseFilename (filename : String) : String × String :=
  let stem := String.ofList (filename.toList.rdrop 4)
  let parts := Text.rpartition '-' stem
  if parts.1 = "" then (stem, "") else parts

/-- What a tarball is read as that cannot be read; not every exception is caught. -/
def unreadable : Damage → Except String (Option Manifest)
  | .tar _ => .ok none
  | .value _ => .ok none
  | .truncated why => .error why
  | .other why => .error why

/-- `_read_tarball_manifest`, which has no limit on the size. -/
def readTarballManifest (data : Bytes) : Except String (Option Manifest) :=
  let archive := formats.archive data
  let picked := pickMember archive.members none
  match (if picked.2 then none else archive.broken), picked.1 with
  | some damage, _ => unreadable damage
  | none, none => .ok none
  | none, some member =>
    match member.content with
    | .error damage => unreadable damage
    | .ok content =>
      match formats.parse content with
      | .object manifest => .ok (some manifest)
      | .tooDeep why => .error why
      | .invalid _ => .ok none
      | .notObject => .ok none

/-- The name and version of a tarball: what its manifest says, or else its file name. -/
def nameAndVersion (filename : String) (manifest : Option Manifest) : Option (String × String) :=
  let name := Text.strip ((manifest.map fun m => m.name.shown).getD "")
  let version := Text.strip ((manifest.map fun m => m.version.shown).getD "")
  let fallback := parseFilename filename
  let name := if name = "" then fallback.1 else name
  let version := if version = "" then fallback.2 else version
  if name = "" ∨ version = "" then none else some (name, version)

/-- The name and version under which `local_index` lists a tarball that it sees. -/
def identity (filename : String) (data : Bytes) : Except String (Option (String × String)) :=
  (readTarballManifest formats data).map (nameAndVersion filename)

/-- The name and version under which it lists a file. -/
def located (file : String × Stored) : Except String (Option (String × String)) :=
  if visible file.1 = false then .ok none else identity formats file.1 file.2.bytes

/-! ## The order of versions -/

inductive Piece
  | number (n : Nat)
  | word (text : String)
  deriving DecidableEq, Repr

def Piece.precedes : Piece → Piece → Bool
  | .number a, .number b => a < b
  | .number _, .word _ => true
  | .word _, .number _ => false
  | .word a, .word b => a < b

/-- `int(piece)` of digits; it raises where one of them is not decimal, or where they are too many. -/
def readInt (piece : List Char) : Option Nat :=
  if 4300 < piece.length then none
  else (piece.mapM formats.decimal).map fun digits => digits.foldl (fun n digit => 10 * n + digit) 0

def readPiece (piece : List Char) : Option Piece :=
  if piece.all formats.isDigit then (readInt formats piece).map .number else some (.word (String.ofList piece))

/-- `_version_key`, unless it raises. -/
def versionKey (version : String) : Option (List Piece) :=
  let pieces := (version.toList.splitOnP fun c => c ∈ ['.', '-', '+']).filter fun piece => piece ≠ []
  (pieces.mapM (readPiece formats)).map fun parts => if parts = [] then [.word version] else parts

/-- `<` of two keys. -/
def keyPrecedes : List Piece → List Piece → Bool
  | _, [] => false
  | [], _ :: _ => true
  | a :: as, b :: bs => if a = b then keyPrecedes as bs else a.precedes b

def latestTag : String := "latest"

/-- The later of two versions, and the first of two that are alike. -/
def later (best item : String × List Piece) : String × List Piece := if keyPrecedes best.2 item.2 then item else best

/-- `max(versions, key=_version_key) if versions else LATEST_TAG`. -/
def latestOf (versions : List String) : Option String :=
  (versions.mapM fun version => (versionKey formats version).map fun key => (version, key)).map fun
    | [] => latestTag
    | first :: rest => (rest.foldl later first).1

/-! ## The index -/

structure Record where
  /-- `filenames`, and with them `paths` and the keys of `versions`. -/
  filenames : Dict String String
  latest : Option String
  distTags : Dict String String

def Record.empty : Record := ⟨.empty, none, .empty⟩

abbrev Index := Dict String Record

/-- The index with a file under its name and version. -/
def Index.add (index : Index) (filename : String) : Option (String × String) → Index
  | none => index
  | some (name, version) =>
    let record := (index.get? name).getD .empty
    index.set name { record with filenames := record.filenames.set version filename }

/-- One turn of the loop of `local_index`. -/
def addTarball (index : Index) (file : String × Stored) : Except String Index := (located formats file).map (index.add file.1)

/-- The files that the loop goes through. -/
def tarballs (d : Directory) : List (String × Stored) :=
  (d.files.entries.filter fun file => Text.endsWith ".tgz" file.1).insertionSort fun a b => a.1 ≤ b.1

/-- The tarballs by name and version. -/
def scan (d : Directory) : Except String Index := (tarballs d).foldlM (addTarball formats) .empty

def Record.versions (record : Record) : List String := record.filenames.entries.map Prod.fst

/-- `local_index` without its cache: an exception where a tarball cannot be read or a version has no key. -/
def buildIndex (d : Directory) : Except String Index := do
  let index ← scan formats d
  if index.entries.all fun entry => (latestOf formats entry.2.versions).isSome then
    .ok (index.mapVals fun name record =>
      ⟨record.filenames, latestOf formats record.versions, (d.tags.get? name).getD .empty⟩)
  else .error "invalid literal for int()"

/-- `_signature`. -/
def signature (d : Directory) : Stat × Option Stat := (d.stat, d.tagsStat)

structure Registry where
  /-- `_index` and `_index_key`. -/
  index : Option ((Stat × Option Stat) × Index)
  /-- `_digest_cache`, by the file, its mtime and its size. -/
  digests : Dict (String × Nat × Nat) (String × String)

def Registry.empty : Registry := ⟨none, .empty⟩

/-- `local_index`. -/
def localIndex (d : Directory) (r : Registry) : Except String Index × Registry :=
  match r.index with
  | some (key, index) => if signature d = key then (.ok index, r) else rebuild
  | none => rebuild
where
  rebuild : Except String Index × Registry :=
    match buildIndex formats d with
    | .error why => (.error why, r)
    | .ok index => (.ok index, { r with index := some (signature d, index) })

/-! ## Digests -/

def digestCacheMax : Nat := 512

/-- `_digests`. -/
def digests (cache : Dict (String × Nat × Nat) (String × String)) (filename : String) (stored : Stored) :
    (String × String) × Dict (String × Nat × Nat) (String × String) :=
  let key := (filename, stored.mtime, stored.bytes.length)
  match cache.get? key with
  | some value => (value, cache)
  | none =>
    let value := (formats.sha1 stored.bytes, formats.sha512 stored.bytes)
    (value, (if digestCacheMax ≤ cache.entries.length then .empty else cache).set key value)

/-! ## Packuments -/

structure Dist where
  /-- What the tarball's URL is made of: the package and the file name. -/
  tarball : String × String
  shasum : String
  integrity : String
  deriving DecidableEq, Repr

structure Packument where
  name : String
  distTags : Dict String String
  versions : List (String × Dist)

/-- `_local_manifest`. -/
def localManifest (d : Directory) (cache : Dict (String × Nat × Nat) (String × String)) (name filename : String) :
    Dist × Dict (String × Nat × Nat) (String × String) :=
  match d.files.get? filename with
  | none => (⟨(name, filename), "", ""⟩, cache)
  | some stored =>
    let found := digests formats cache filename stored
    (⟨(name, filename), found.1.1, found.1.2⟩, found.2)

def localManifests (d : Directory) (name : String) :
    List (String × String) → Dict (String × Nat × Nat) (String × String) →
      List (String × Dist) × Dict (String × Nat × Nat) (String × String)
  | [], cache => ([], cache)
  | (version, filename) :: rest, cache =>
    let manifest := localManifest formats d cache name filename
    let more := localManifests d name rest manifest.2
    ((version, manifest.1) :: more.1, more.2)

/-- The dist-tags that stand for a version there is, and `latest` in any case. -/
def distTagsOf (record : Record) : Dict String String :=
  let tags := record.distTags.keep fun _ version => (record.filenames.get? version).isSome
  if (tags.get? latestTag).isNone then tags.set latestTag (record.latest.getD latestTag) else tags

/-- `local_packument`. -/
def localPackument (d : Directory) (r : Registry) (name : String) : Except String (Option Packument) × Registry :=
  match localIndex formats d r with
  | (.error why, r') => (.error why, r')
  | (.ok index, r') =>
    match index.get? name with
    | none => (.ok none, r')
    | some record =>
      let manifests := localManifests formats d name record.filenames.entries r'.digests
      (.ok (some ⟨name, distTagsOf record, manifests.1⟩), { r' with digests := manifests.2 })

/-- `version_manifest`. -/
def versionManifest (d : Directory) (r : Registry) (name version : String) : Except String (Option Dist) × Registry :=
  let found := localPackument formats d r name
  (found.1.map fun document => document.bind fun document =>
    (document.versions.lookup ((document.distTags.get? version).getD version)).orElse fun _ =>
      document.versions.lookup version, found.2)

/-- `local_tarball`: the bytes of the file. -/
def localTarball (d : Directory) (r : Registry) (package filename : String) : Except String (Option Bytes) × Registry :=
  let found := localIndex formats d r
  (found.1.map fun index => (index.get? package).bind fun record =>
    if record.filenames.entries.any fun entry => entry.2 = filename then (d.files.get? filename).map Stored.bytes
    else none, found.2)

end OpenFish.Npm
