/-
`get_manifest` and `open_blob` of `services/docker_registry.py` step by step: any number of requests over one cache,
with whatever the upstream answers.
-/
import OpenFish.Docker.Cache
import OpenFish.Lib.Interleave

namespace OpenFish.Docker

open Lib

/-- `TAG_TTL`. -/
def tagTtl : Time := 300000000

/-- The proxy's settings, SHA-256 as hexadecimal digits, and `json.loads`. -/
structure Site where
  configured : Bool
  maxBytes : Nat
  hexdigest : Bytes → String
  loads : Bytes → Option Json

/-- A request: `get_manifest` or `open_blob`. -/
inductive Call
  | manifest (name reference : String) (accept : Option String)
  | blob (name digest : String) (rangeHeader : Option String) (head : Bool)
  deriving DecidableEq, Repr

/-- The repository and the digest that `open_blob` is asked for. -/
def Call.blob? : Call → Option (String × String)
  | .manifest .. => none
  | .blob name digest _ _ => some (name, digest)

/-- What the upstream does next: it fails, it answers with a document, or it begins an answer that is streamed, sends the
next bytes of it, ends it or is cut off. A client that disconnects cuts the answer off too. -/
inductive Reply
  | failed (status : Nat) (code : String)
  | document (contentType : String) (body : Bytes)
  | accepted
  | chunk (data : Bytes)
  | finished
  | cut
  deriving DecidableEq, Repr

/-- What a step meets: the time, the order of a directory walk, and the upstream. -/
structure World where
  now : Time
  order : List Path
  reply : Reply

/-- What a request ends with. -/
inductive Outcome
  | refused (status : Nat) (code : String)
  | manifest (body : Bytes) (contentType : Json) (digest : String)
  /-- The blob from the cache, whole or the range of it. -/
  | cachedBlob (content : Bytes) (rangeHeader : Option String)
  /-- The upstream's answer to `HEAD` or to a range. -/
  | passed
  /-- The bytes that were sent on, all of them or those before the cut. -/
  | streamed (body : Bytes) (whole : Bool)
  /-- A `TypeError`. -/
  | raised

/-- What is left to be written. -/
inductive Write
  | replace (key : String) (content : Content)
  | enforceLimit
  | recordManifest (name reference digest : String) (blobs : List String)
  | recordBlob (name digest : String)

/-- Where a request stands. -/
inductive Stage
  | asked
  /-- The manifest has an entry. -/
  | found
  /-- The entry is read, its content type is next. -/
  | read (body : Bytes)
  | typed (body : Bytes)
  /-- The blob was looked up. -/
  | looked (cached : Bool)
  /-- The blob has an entry and belongs to the repository. -/
  | linked
  | fetching
  | streaming (written : Bytes)
  | writing (todo : List Write) (outcome : Outcome)
  | done (outcome : Outcome)

/-- The request is past the upstream's answer, and writes. -/
def Stage.writes : Stage → Bool
  | .writing .. => true
  | _ => false

/-- The next step enforces the budget. -/
def Stage.enforces : Stage → Bool
  | .writing (.enforceLimit :: _) _ => true
  | _ => false

structure Request where
  call : Call
  stage : Stage

/-- What the upstream has served in full, under the names that the clients asked for. -/
inductive Served
  | manifest (name : String) (body : Bytes)
  | blob (name digest : String) (body : Bytes)
  deriving DecidableEq, Repr

/-- The files, with what was served and which blobs were linked to which repositories so far. -/
structure Shared where
  files : Files
  served : List Served
  links : List (String × String)

/-! ## Manifests -/

def defaultManifestType : String := "application/vnd.docker.distribution.manifest.v2+json"

/-- `_infer_manifest_type`. -/
def inferManifestType (site : Site) (body : Bytes) : String :=
  match site.loads body with
  | some (.obj document) =>
    match Json.get document "mediaType" with
    | .str mediaType => if mediaType = "" then defaultManifestType else mediaType
    | _ => defaultManifestType
  | _ => defaultManifestType

/-- The digest of a config or a layer, where it has one. A digest that is no text raises. -/
def digestOf : Json → Option (List String)
  | .obj entries =>
    match Json.get entries "digest" with
    | .str digest => some (if isDigest digest then [digest] else [])
    | value => if value.truthy then none else some []
  | _ => some []

/-- The items of an iterable: those that are no dictionaries do not matter. -/
def layersOf (value : Json) : Option (List Json) :=
  if value.truthy then
    match value with
    | .arr items => some items
    | .str _ | .obj _ => some []
    | _ => none
  else some []

/-- `_manifest_blob_digests`. -/
def manifestBlobDigests (site : Site) (body : Bytes) : Option (List String) :=
  match site.loads body with
  | some (.obj document) => do
    let config ← digestOf (Json.get document "config")
    let layers ← (← layersOf (Json.get document "layers")).mapM digestOf
    return config ++ layers.flatten
  | _ => some []

def manifestKey (name reference : String) : String := name ++ "@" ++ reference

def metaKey (key : String) : String := key ++ "#meta"

/-- `sha256_digest`. -/
def sha256Digest (site : Site) (body : Bytes) : String := "sha256:" ++ site.hexdigest body

/-- `_read_meta(…).get("content_type")`. -/
def metaType (site : Site) : Content → Json
  | .metadata contentType => .str contentType
  | .bytes data =>
    if data = [] then .null
    else
      match site.loads data with
      | some (.obj entries) => Json.get entries "content_type"
      | _ => .null
  -- the index has no key
  | .repositories _ => .null

/-- The answer from the cache. -/
def cachedManifest (site : Site) (reference : String) (body : Bytes) (contentType : Json) : Outcome :=
  .manifest body (if contentType.truthy then contentType else .str (inferManifestType site body))
    (if isDigest reference then reference else sha256Digest site body)

/-- Without an upstream there is only the cache. -/
def fetch (site : Site) (code : String) : Stage := if site.configured then .fetching else .done (.refused 404 code)

theorem writes_fetch (site : Site) (code : String) : (fetch site code).writes = false := by
  unfold fetch
  split
  · rfl
  · rfl

/-- What becomes of a document: it is answered, and kept with its content type, and its blobs are linked. -/
def storeManifest (site : Site) (name reference contentType : String) (body : Bytes) : Stage :=
  if isDigest reference ∧ Text.lower (sha256Digest site body) ≠ Text.lower reference then .done (.refused 502 "DIGEST_INVALID")
  else
    let key := manifestKey name reference
    let contentType := if contentType = "" then inferManifestType site body else contentType
    let digest := if isDigest reference then reference else sha256Digest site body
    let puts := [.replace key (.bytes body), .enforceLimit, .replace (metaKey key) (.metadata contentType), .enforceLimit]
    match manifestBlobDigests site body with
    | some blobs => .writing (puts ++ [.recordManifest name reference digest blobs]) (.manifest body (.str contentType) digest)
    | none => .writing puts .raised

/-- `get_manifest`, the next step. -/
def manifestStep (site : Site) (name reference : String) (w : World) (s : Shared) : Stage → Shared × Stage
  | .asked =>
    let key := manifestKey name reference
    let (hit, files) := lookUp key (if isDigest reference then none else some tagTtl) w.now s.files
    ({ s with files }, if hit then .found else fetch site "MANIFEST_UNKNOWN")
  | .found =>
    match readBytes (.entry (manifestKey name reference)) s.files with
    | some body => (s, .read body)
    | none => (s, fetch site "MANIFEST_UNKNOWN")
  | .read body =>
    let (hit, files) := lookUp (metaKey (manifestKey name reference)) none w.now s.files
    ({ s with files }, if hit then .typed body else .done (cachedManifest site reference body .null))
  | .typed body =>
    let metadata := contentAt (.entry (metaKey (manifestKey name reference))) s.files
    (s, .done (cachedManifest site reference body ((metadata.map (metaType site)).getD .null)))
  | .fetching =>
    match w.reply with
    | .document contentType body =>
      ({ s with served := .manifest name body :: s.served }, storeManifest site name reference contentType body)
    | .failed status code => (s, .done (.refused status code))
    | _ => (s, .done (.refused 502 "UNAVAILABLE"))
  | stage => (s, stage)

/-! ## Blobs -/

/-- The bytes are those that the digest names, as far as it is checked: digests of other algorithms are not. -/
def matchesDigest (site : Site) (digest : String) (body : Bytes) : Bool :=
  isSha256 digest → Text.lower (sha256Digest site body) = Text.lower digest

/-- `open_blob`, and the generator of `_stream_and_cache`: the next step. -/
def blobStep (site : Site) (name digest : String) (rangeHeader : Option String) (head : Bool) (w : World) (s : Shared) :
    Stage → Shared × Stage
  | .asked =>
    if isDigest digest then
      let (hit, files) := lookUp digest none w.now s.files
      ({ s with files }, .looked hit)
    else (s, .done (.refused 400 "DIGEST_INVALID"))
  | .looked cached => (s, if cached ∧ hasBlob name digest s.files then .linked else fetch site "BLOB_UNKNOWN")
  | .linked =>
    match readBytes (.entry digest) s.files with
    | some content => (s, .done (.cachedBlob content rangeHeader))
    | none => (s, .done (.refused 404 "BLOB_UNKNOWN"))
  | .fetching =>
    match w.reply with
    | .accepted => (s, if head ∨ rangeHeader.any (· ≠ "") then .done .passed else .streaming [])
    | .failed status code => (s, .done (.refused status code))
    | _ => (s, .done (.refused 502 "UNAVAILABLE"))
  | .streaming written =>
    match w.reply with
    | .chunk data => (s, .streaming (written ++ data))
    | .finished =>
      ({ s with served := .blob name digest written :: s.served },
        if matchesDigest site digest written then
          .writing [.replace digest (.bytes written), .recordBlob name digest, .enforceLimit] (.streamed written true)
        else .done (.streamed written true))
    | _ => (s, .done (.streamed written false))
  | stage => (s, stage)

/-! ## Requests side by side -/

/-- One of the writes. -/
def perform (site : Site) (w : World) (s : Shared) : Write → Shared
  | .replace key content => { s with files := replace key content w.now s.files }
  | .enforceLimit => { s with files := enforceLimit site.maxBytes w.order s.files }
  | .recordManifest name reference digest blobs =>
    { s with files := recordManifest name reference digest blobs w.now s.files, links := blobs.map (name, ·) ++ s.links }
  | .recordBlob name digest =>
    { s with files := recordBlob name digest w.now s.files, links := (name, digest) :: s.links }

section perform

variable (site : Site) (w : World) (s : Shared)

@[simp] theorem files_replace (key : String) (content : Content) :
    (perform site w s (.replace key content)).files = replace key content w.now s.files := rfl

@[simp] theorem files_enforceLimit :
    (perform site w s .enforceLimit).files = enforceLimit site.maxBytes w.order s.files := rfl

@[simp] theorem files_recordManifest (name reference digest : String) (blobs : List String) :
    (perform site w s (.recordManifest name reference digest blobs)).files =
      recordManifest name reference digest blobs w.now s.files := rfl

@[simp] theorem files_recordBlob (name digest : String) :
    (perform site w s (.recordBlob name digest)).files = recordBlob name digest w.now s.files := rfl

@[simp] theorem served_perform (write : Write) : (perform site w s write).served = s.served := by
  cases write <;> rfl

end perform

/-- The next step of a request. -/
def requestStep (site : Site) (s : Shared) (r : Request) (w : World) : Shared × Request :=
  match r.stage with
  | .writing [] outcome => (s, { r with stage := .done outcome })
  | .writing (write :: todo) outcome => (perform site w s write, { r with stage := .writing todo outcome })
  | stage =>
    let (s', stage') :=
      match r.call with
      | .manifest name reference _ => manifestStep site name reference w s stage
      | .blob name digest rangeHeader head => blobStep site name digest rangeHeader head w s stage
    (s', { r with stage := stage' })

/-- The first steps of one request while no other makes any. -/
def alone (site : Site) (worlds : ℕ → World) : ℕ → Shared × Request → Shared × Request
  | 0, x => x
  | n + 1, x => requestStep site (alone site worlds n x).1 (alone site worlds n x).2 (worlds n)

/-- Any number of requests, in any order of their steps, and `enforce_limit` at any time with the order of its walk. -/
def registry (site : Site) : Program Shared Request Call World (List Path) where
  start := ⟨Dict.empty, [], []⟩
  enter _ call := ⟨call, .asked⟩
  step := requestStep site
  other s order := { s with files := enforceLimit site.maxBytes order s.files }

@[simp] theorem registry_start (site : Site) : (registry site).start = ⟨Dict.empty, [], []⟩ := rfl

@[simp] theorem registry_enter (site : Site) (s : Shared) (call : Call) : (registry site).enter s call = ⟨call, .asked⟩ := rfl

@[simp] theorem registry_step (site : Site) : (registry site).step = requestStep site := rfl

theorem call_requestStep (site : Site) (s : Shared) (r : Request) (w : World) : (requestStep site s r w).2.call = r.call := by
  unfold requestStep
  split <;> rfl

/-! ## Steps that write nothing -/

section quiet

variable {site : Site} {s : Shared}

theorem contentAt_manifestStep (name reference : String) (stage : Stage) (w : World) (path : Path) :
    contentAt path (manifestStep site name reference w s stage).1.files = contentAt path s.files := by
  cases stage with
  | asked | read => exact contentAt_lookUp
  | found | fetching =>
    simp only [manifestStep]
    split <;> rfl
  | _ => rfl

theorem contentAt_blobStep (name digest : String) (rangeHeader : Option String) (head : Bool) (stage : Stage) (w : World)
    (path : Path) : contentAt path (blobStep site name digest rangeHeader head w s stage).1.files = contentAt path s.files := by
  cases stage with
  | asked =>
    simp only [blobStep]
    split
    · exact contentAt_lookUp
    · rfl
  | linked | fetching | streaming =>
    simp only [blobStep]
    split <;> rfl
  | _ => rfl

theorem links_manifestStep (name reference : String) (stage : Stage) (w : World) :
    (manifestStep site name reference w s stage).1.links = s.links := by
  cases stage with
  | found | fetching =>
    simp only [manifestStep]
    split <;> rfl
  | _ => rfl

theorem links_blobStep (name digest : String) (rangeHeader : Option String) (head : Bool) (stage : Stage) (w : World) :
    (blobStep site name digest rangeHeader head w s stage).1.links = s.links := by
  cases stage with
  | asked | linked | fetching | streaming =>
    simp only [blobStep]
    split <;> rfl
  | _ => rfl

theorem contentAt_requestStep {r : Request} (h : r.stage.writes = false) (w : World) (path : Path) :
    contentAt path (requestStep site s r w).1.files = contentAt path s.files := by
  obtain ⟨call, stage⟩ := r
  unfold requestStep
  split
  · rfl
  · rename_i hwriting
    cases hwriting
    cases h
  · cases call with
    | manifest name reference accept => exact contentAt_manifestStep name reference stage w path
    | blob name digest rangeHeader head => exact contentAt_blobStep name digest rangeHeader head stage w path

theorem links_requestStep {r : Request} (h : r.stage.writes = false) (w : World) :
    (requestStep site s r w).1.links = s.links := by
  obtain ⟨call, stage⟩ := r
  unfold requestStep
  split
  · rfl
  · rename_i hwriting
    cases hwriting
    cases h
  · cases call with
    | manifest name reference accept => exact links_manifestStep name reference stage w
    | blob name digest rangeHeader head => exact links_blobStep name digest rangeHeader head stage w

end quiet

/-! ## A mirror -/

def firstDigest : String := "sha256:4bf5122f344554c53bde2ebb8cd2b7e3d1600ad631c385a5d7cce23c7785459a"

/-- A mirror with a budget, for bodies that are one byte: 1 or 2. -/
def mirror (maxBytes : Nat) : Site where
  configured := true
  maxBytes
  hexdigest body :=
    if body = [1] then "4bf5122f344554c53bde2ebb8cd2b7e3d1600ad631c385a5d7cce23c7785459a"
    else "dbc1b4c900ffe48d575b5da5c638040125f65db0fe3e24494b76ea986457d986"
  loads _ := none

end OpenFish.Docker
