/-
The documents of the npm registry (`services/npm_registry.py`): manifests and packuments as they are put together from an
upstream's and merged with those of the local tarballs.
-/
import OpenFish.Lib.Json
import OpenFish.Npm.Registry

namespace OpenFish.Registry

open Lib

abbrev Object := List (String × Json)

/-! ## What the deployment supplies -/

structure Host where
  formats : Npm.Formats
  /-- `str` of a value that is no string. -/
  render : Json → String
  /-- What `dict` makes of a list. -/
  pairs : List Json → Except String Object
  /-- `iso_from_timestamp`, of the bits of a float. -/
  iso : BitVec 64 → String
  /-- `time.time()` and `utc_now_iso()`. -/
  now : BitVec 64
  utcNow : String
  /-- `<` of two floats. -/
  earlier : BitVec 64 → BitVec 64 → Bool
  /-- `float` of an integer; it raises where that is too large. -/
  ofInt : Int → Except String (BitVec 64)
  /-- `urllib.parse.quote`. -/
  quote : String → String
  /-- `tarball_url`, which builds a URL of this server. -/
  tarballUrl : String → String → String
  tarballUrl_ne : ∀ name filename, tarballUrl name filename ≠ ""

variable (h : Host)

/-- `value or other`. -/
def orElse (value other : Json) : Json := if value.truthy then value else other

/-! ## Manifests -/

/-- `_ABBREVIATED_EXTRA_KEYS`. -/
def abbreviatedExtraKeys : List String :=
  ["devDependencies", "bundleDependencies", "bundledDependencies", "engines", "directories", "os", "cpu", "deprecated",
    "hasInstallScript", "_hasShrinkwrap"]

/-- `_REQUIRED_MANIFEST_KEYS`. -/
def requiredManifestKeys : List String :=
  ["name", "version", "dependencies", "optionalDependencies", "peerDependencies", "bin", "dist"]

/-- The entries at these keys. -/
def pick (keys : List String) (entries : Object) : Object := keys.filterMap fun key => (entries.lookup key).map fun v => (key, v)

/-- `entries.update(others)`. -/
def update (entries others : Object) : Object := others.foldl (fun found e => Json.assign found e.1 e.2) entries

/-- `_core_manifest`. -/
def coreManifest (name version : String) (source : Object) : Object :=
  [("name", orElse (Json.get source "name") (.str name)),
    ("version", orElse (Json.get source "version") (.str version)),
    ("dependencies", orElse (Json.get source "dependencies") (.obj [])),
    ("optionalDependencies", orElse (Json.get source "optionalDependencies") (.obj [])),
    ("peerDependencies", orElse (Json.get source "peerDependencies") (.obj [])),
    ("bin", orElse (Json.get source "bin") (.obj []))]

/-- `_abbreviated_manifest`. -/
def abbreviatedManifest (manifest : Object) : Object :=
  update (pick requiredManifestKeys manifest) (pick abbreviatedExtraKeys manifest)

/-- The `dist.tarball` of a manifest. -/
def tarballOf (manifest : Object) : Json := Json.get (Json.dictOrEmpty (Json.get manifest "dist")) "tarball"

/-- `_tarball_basename`. -/
def tarballBasename : Json → Except String String
  | .str url => if url = "" then .ok "" else h.formats.urlBasename url
  | _ => .ok ""

/-- `_rewrite_manifest`. -/
def rewriteManifest (manifest : Object) (name version : String) (abbreviated : Bool) : Except String Object := do
  let distIn := Json.dictOrEmpty (Json.get manifest "dist")
  let found ← tarballBasename h (Json.get distIn "tarball")
  let basename := if found = "" then Npm.shortName name ++ "-" ++ version ++ ".tgz" else found
  let dist := update distIn
    [("tarball", .str (h.tarballUrl name basename)),
      ("shasum", orElse (Json.get distIn "shasum") (.str "")),
      ("integrity", orElse (Json.get distIn "integrity") (.str ""))]
  let core := coreManifest name version manifest ++ [("dist", .obj dist)]
  return if abbreviated then update core (pick abbreviatedExtraKeys manifest) else update manifest core

/-! ## Packuments -/

structure Packument where
  name : String
  distTags : Dict String Json
  versions : Dict String Object
  modified : String
  /-- The other fields, which an abbreviated one lacks. -/
  others : Object

/-- `max(versions, key=_version_key)`. -/
def highest (versions : List String) : Except String String :=
  match Npm.latestOf h.formats versions with
  | some version => .ok version
  | none => .error "invalid literal for int() with base 10"

/-- `_modified_of`. -/
def modifiedOf (document : Object) : String :=
  let text (value : Json) : Option String := match value with
    | .str s => if s = "" then none else some s
    | _ => none
  let stamp := Json.dictOrEmpty (Json.get document "time")
  (((text (Json.get document "modified")).or (text (Json.get stamp "modified"))).or (text (Json.get stamp "created"))).getD h.utcNow

/-- The fields of a full packument that are kept. -/
def keptKeys : List String :=
  ["description", "keywords", "license", "homepage", "repository", "author", "bugs", "maintainers", "readme", "time", "users"]

/-- The versions whose manifest is an object. -/
def objectVersions (document : Object) : List (String × Object) :=
  (Json.dictOrEmpty (Json.get document "versions")).filterMap fun e => e.2.entries?.map fun manifest => (e.1, manifest)

def rewriteAll (name : String) (abbreviated : Bool) : List (String × Object) → Except String (List (String × Object))
  | [] => .ok []
  | (version, manifest) :: rest => do
    let rewritten ← rewriteManifest h manifest name version abbreviated
    let more ← rewriteAll name abbreviated rest
    return (version, rewritten) :: more

/-- The dist-tags, or where there are none, the highest version as the latest. -/
def tagsOrLatest (tags : Dict String Json) (versions : List String) : Except String (Dict String Json) :=
  if tags.entries = [] then (highest h versions).map fun version => Dict.empty.set Npm.latestTag (.str version) else .ok tags

/-- `_rewrite_packument` of a document that is an object. -/
def rewritePackument (document : Object) (name : String) (abbreviated : Bool) : Except String (Option Packument) := do
  let realName := (orElse (Json.get document "name") (.str name)).text h.render
  let versions ← rewriteAll h realName abbreviated (objectVersions document)
  if versions = [] then return none
  else
    let distTags ← tagsOrLatest h (Dict.empty.update (Json.dictOrEmpty (Json.get document "dist-tags"))) (versions.map Prod.fst)
    return some
      { name := realName
        distTags
        versions := Dict.empty.update versions
        modified := modifiedOf h document
        others := if abbreviated then [] else pick keptKeys document }

/-- `version in versions`: a value that is no text is none of them, and one that has no hash raises. -/
def among (versions : Dict String Object) : Json → Except String Bool
  | .str version => .ok (versions.has version)
  | .arr _ => .error "unhashable type: list"
  | .obj _ => .error "unhashable type: dict"
  | _ => .ok false

/-- The tags of a version there is. -/
def standing (versions : Dict String Object) : Object → Except String Object
  | [] => .ok []
  | tag :: rest => do
    let found ← among versions tag.2
    let more ← standing versions rest
    return if found then tag :: more else more

/-- One turn of the loop over the local versions: a tarball wins, an entry without one only fills a gap. -/
def mergeVersion (versions : Dict String Object) (e : String × Object) : Dict String Object :=
  if versions.has e.1 = false ∨ (tarballOf e.2).truthy = true then versions.set e.1 e.2 else versions

/-- The dist-tags with `latest`, the highest version where they have none. -/
def withLatestTag (tags : Dict String Json) (versions : List String) : Except String (Dict String Json) :=
  if tags.has Npm.latestTag = true ∨ versions = [] then .ok tags
  else (highest h versions).map fun version => tags.set Npm.latestTag (.str version)

/-- `_merge_packuments`. -/
def mergePackuments (upstream own : Packument) : Except String Packument := do
  let versions := own.versions.entries.foldl mergeVersion upstream.versions
  let upstreamTags ← standing versions upstream.distTags.entries
  let distTags := Dict.empty.update upstreamTags
  let ownTags ← standing versions (own.distTags.entries.filter fun tag => !distTags.has tag.1)
  let distTags ← withLatestTag h (distTags.update ownTags) (versions.entries.map Prod.fst)
  let ownTimes ← Json.dictOf h.pairs (Json.get own.others "time")
  let upstreamTimes ← Json.dictOf h.pairs (Json.get upstream.others "time")
  let times := update ownTimes upstreamTimes
  let others := update own.others upstream.others
  pure
    { name := if upstream.name = "" then own.name else upstream.name
      distTags
      versions
      modified := upstream.modified
      others := if times = [] then others else Json.assign others "time" (.obj times) }

end OpenFish.Registry
