/-
`services/npm_publish.py`: a publish document is checked, every tarball it carries is checked against its own manifest,
and stored under a file name that has no scope; the dist-tags go into `publish.json`.
-/
import Mathlib.Data.List.Sort
import Mathlib.Data.String.Basic
import OpenFish.Lib.Dict
import OpenFish.Lib.Regex
import OpenFish.Lib.Text

namespace OpenFish.Npm

open Lib

abbrev Bytes := List UInt8

/-! ## Documents -/

/-- A value of a manifest. -/
structure Field where
  isText : Bool
  /-- `str(value or "")`. -/
  shown : String
  deriving DecidableEq, Repr

/-- What the code reads of a `package.json`. -/
structure Manifest where
  name : Field
  version : Field
  deriving DecidableEq, Repr

inductive Parsed
  | invalid (why : String)
  /-- `RecursionError`. -/
  | tooDeep (why : String)
  | notObject
  | object (manifest : Manifest)

/-- What reading an archive raises. -/
inductive Damage
  /-- `TarError` or `OSError`. -/
  | tar (why : String)
  /-- `EOFError`. -/
  | truncated (why : String)
  /-- `ValueError`. -/
  | value (why : String)
  /-- Another exception, such as `zlib.error`. -/
  | other (why : String)

/-- A member of a tar archive. -/
structure Member where
  name : String
  isFile : Bool
  size : Nat
  content : Except Damage Bytes

/-- The members of an archive, as far as it can be read, and what then comes in the way. -/
structure Archive where
  members : List Member
  broken : Option Damage

/-- One of the `versions` of a publish document: the texts of its `dist`. -/
inductive VersionEntry
  | notObject
  | object (tarball shasum integrity : Option String)

inductive Attachment
  | notObject
  | object (data : Option String)

/-- The body of a publish, where it is an object. -/
structure Document where
  /-- `name`, or else `_id`, if that is a text. -/
  rawName : Option String
  versions : List (String × VersionEntry)
  attachments : List (String × Attachment)
  distTags : List (String × String)

structure Request where
  body : Option Document
  /-- The package of the request path, unquoted. -/
  requested : String
  overwrite : Bool

/-- What the standard library makes of URLs, archives, texts and digits. -/
structure Formats where
  /-- `unquote(urlparse(url).path.rsplit("/", 1)[-1])`, unless it raises. -/
  urlBasename : String → Except String String
  decode64 : String → Except String Bytes
  archive : Bytes → Archive
  /-- `json.loads`, of UTF-8. -/
  parse : Bytes → Parsed
  sha1 : Bytes → String
  sha512 : Bytes → String
  /-- `str.isdigit` of one character. -/
  isDigit : Char → Bool
  /-- The digit that `int` takes a character for. -/
  decimal : Char → Option Nat

inductive Fault
  | badRequest (message : String)
  | conflict (name version : String)
  /-- An exception that is not one of the service's. -/
  | internal (message : String)
  deriving DecidableEq, Repr

/-! ## Names -/

def maxTarballBytes : Nat := 64 * 1024 * 1024

def maxAttachments : Nat := 16

def maxManifestBytes : Nat := 1024 * 1024

def nameHead (c : Char) : Bool := ('a' ≤ c ∧ c ≤ 'z') ∨ ('0' ≤ c ∧ c ≤ '9')

def nameChar (c : Char) : Bool := nameHead c || c ∈ ['.', '_', '~', '-']

/-- `_NAME_RE`. -/
def namePattern : Regex :=
  let part : Regex := .seq (.char nameHead) (.many false (.char nameChar))
  .seq (.opt (.seq (.lit ['@']) (.seq part (.lit ['/'])))) (.seq part .dollar)

/-- `_VERSION_RE`. -/
def versionPattern : Regex :=
  .seq (.char Char.isAlphanum) (.seq (.many false (.char fun c => c.isAlphanum || c ∈ ['.', '_', '+', '-'])) .dollar)

/-- `_TARBALL_STEM_RE`. -/
def tarballStemPattern : Regex :=
  .seq (.some false (.char fun c => c.isAlphanum || c ∈ ['.', '_', '~', '@', '+', '-'])) .dollar

/-- `name.split("/")[-1]`. -/
def shortName (name : String) : String := Text.afterLast '/' name

/-- The file of a version. -/
def fileName (name version : String) : String := shortName name ++ "-" ++ version ++ ".tgz"

/-- `_stored_filename`. -/
def storedFilename (name version : String) : Except Fault String :=
  let short := shortName name
  if short = "" ∨ Text.startsWith "." short ∨ (tarballStemPattern.capture short).isNone then
    .error (.badRequest ("package name " ++ name ++ " cannot be stored as a filename"))
  else if '/' ∈ (fileName name version).toList then
    .error (.badRequest ("refusing unsafe tarball name " ++ fileName name version))
  else .ok (fileName name version)

/-! ## The document -/

/-- `_validate`: the name and the document. -/
def validate (request : Request) : Except Fault (String × Document) :=
  match request.body with
  | none => .error (.badRequest "Request body must be a JSON npm publish document")
  | some document =>
    match document.rawName with
    | none => .error (.badRequest "Publish document has no \'name\'")
    | some rawName =>
      let name := Text.strip rawName
      if name = "" then .error (.badRequest "Publish document has no \'name\'")
      else if (namePattern.capture name).isNone then
        .error (.badRequest ("invalid package name " ++ name ++
          " — npm names are lowercase, optionally scoped as @scope/name"))
      else if request.requested ≠ "" ∧ request.requested ≠ name then
        .error (.badRequest ("body name " ++ name ++ " does not match the request path " ++ request.requested))
      else if document.versions = [] then .error (.badRequest "Publish document has no \'versions\'")
      else if document.versions.any fun v => (versionPattern.capture v.1).isNone then
        .error (.badRequest "Publish document declares an unusable version string")
      else if document.attachments = [] then .error (.badRequest "Publish document has no \'_attachments\' tarball")
      else if maxAttachments < document.attachments.length then
        .error (.badRequest ("too many attachments (" ++ toString document.attachments.length ++
          "); one publish carries one tarball"))
      else .ok (name, document)

variable (formats : Formats)

/-- `_attachment_basename` of the `dist.tarball` of a version. -/
def attachmentBasename : VersionEntry → Except Fault String
  | .object (some url) _ _ =>
    match formats.urlBasename url with
    | .ok basename => .ok basename
    | .error why => .error (.internal why)
  | _ => .ok ""

/-- The first version whose tarball, or whose conventional file name, is the attachment's key. -/
def matchVersion (key name : String) : List (String × VersionEntry) → Except Fault (Option String)
  | [] => .ok none
  | (version, entry) :: rest =>
    match attachmentBasename formats entry with
    | .error fault => .error fault
    | .ok basename =>
      if (basename ≠ "" ∧ (basename = key ∨ Text.endsWith ("/" ++ basename) key)) ∨ key = name ++ "-" ++ version ++ ".tgz" ∨
          key = fileName name version then .ok (some version)
      else matchVersion key name rest

/-- `_version_for_attachment`. -/
def versionForAttachment (key name : String) (versions : List (String × VersionEntry)) : Except Fault (Option String) :=
  match matchVersion formats key name versions with
  | .error fault => .error fault
  | .ok (some version) => .ok (some version)
  | .ok none =>
    .ok (((versions.map Prod.fst).insertionSort fun a b => b.length ≤ a.length).find? fun version =>
      Text.endsWith ("-" ++ version ++ ".tgz") key)

/-! ## Tarballs -/

/-- The member that is the manifest, and whether the search ended with it. -/
def pickMember : List Member → Option Member → Option Member × Bool
  | [], found => (found, false)
  | m :: rest, found =>
    if m.isFile = false ∨ Text.endsWith "package.json" m.name = false then pickMember rest found
    else if m.name = "package/package.json" then (some m, true)
    else pickMember rest (if found.isNone ∧ m.name.toList.count '/' = 1 then some m else found)

/-- The refusal of a tarball that cannot be read; not every exception is caught. -/
def readFault (version : String) : Damage → Fault
  | .tar why => .badRequest ("tarball for " ++ version ++ " is not a readable .tgz: " ++ why)
  | .truncated why => .badRequest ("tarball for " ++ version ++ " is not a readable .tgz: " ++ why)
  | .value why => .internal why
  | .other why => .internal why

/-- `_read_manifest`. -/
def readManifest (data : Bytes) (version : String) : Except Fault Manifest :=
  let archive := formats.archive data
  let picked := pickMember archive.members none
  match (if picked.2 then none else archive.broken), picked.1 with
  | some damage, _ => .error (readFault version damage)
  | none, none => .error (.badRequest ("tarball for " ++ version ++ " does not contain package/package.json"))
  | none, some member =>
    if maxManifestBytes < member.size then
      .error (.badRequest ("package.json inside the tarball for " ++ version ++ " is too large"))
    else
      match member.content with
      | .error damage => .error (readFault version damage)
      | .ok content =>
        match formats.parse content with
        | .invalid why => .error (.badRequest ("package.json inside " ++ version ++ " is not valid JSON: " ++ why))
        | .tooDeep why => .error (.internal why)
        | .notObject => .error (.badRequest ("package.json inside " ++ version ++ " is not a JSON object"))
        | .object manifest => .ok manifest

/-! ## The directory -/

/-- `st_mtime` and `st_size`. -/
structure Stat where
  mtime : Nat
  size : Nat
  deriving DecidableEq, Repr

/-- The time stamp that a file gets as it is written, and what `stat` then says of its directory. -/
structure Stamp where
  mtime : Nat
  directory : Stat

/-- What the file system notes of the writes of a publish: of its attachments, by their keys, and of `publish.json`. -/
structure Stamps where
  attachment : String → Stamp
  index : Stamp
  indexSize : Nat

structure Stored where
  bytes : Bytes
  mtime : Nat
  deriving DecidableEq, Repr

/-- The npm directory: its tarballs, and the dist-tags of `publish.json`. -/
structure Directory where
  files : Dict String Stored
  stat : Stat
  tags : Dict String (Dict String String)
  tagsStat : Option Stat
  /-- The latest time stamp so far, which the code does not know. -/
  clock : Nat

def Directory.empty : Directory := ⟨.empty, ⟨0, 0⟩, .empty, none, 0⟩

/-- The latest time stamp after a write. -/
def Directory.after (d : Directory) (stamp : Stamp) : Nat := max d.clock (max stamp.mtime stamp.directory.mtime)

/-- `atomic_write_bytes`. -/
def Directory.write (d : Directory) (filename : String) (data : Bytes) (stamp : Stamp) : Directory :=
  { d with files := d.files.set filename ⟨data, stamp.mtime⟩, stat := stamp.directory, clock := d.after stamp }

/-- `_record_metadata`, of which only the dist-tags are kept. -/
def Directory.recordTags (d : Directory) (name : String) (tags : List (String × String)) (stamps : Stamps) : Directory :=
  let merged := tags.foldl (fun record tag => record.set tag.1 tag.2) ((d.tags.get? name).getD .empty)
  { d with
    tags := d.tags.set name merged
    tagsStat := some ⟨stamps.index.mtime, stamps.indexSize⟩
    stat := stamps.index.directory
    clock := d.after stamps.index }

/-- `_existing_package_name`, which handles no exception but a refusal. -/
def existingPackageName (stored : Stored) (version : String) : Except Fault (Option String) :=
  if maxTarballBytes < stored.bytes.length then .ok none
  else
    match readManifest formats stored.bytes version with
    | .error (.badRequest _) => .ok none
    | .error fault => .error fault
    | .ok manifest => .ok (if manifest.name.isText ∧ manifest.name.shown ≠ "" then some manifest.name.shown else none)

/-! ## Publishing -/

structure PublishedVersion where
  name : String
  version : String
  filename : String
  size : Nat
  shasum : String
  integrity : String
  deriving DecidableEq, Repr

/-- What an inner manifest says must be what is published. -/
def declares (field : String) (inner : Field) (expected : String) : Except Fault Unit :=
  if inner.isText ∧ inner.shown ≠ "" ∧ inner.shown ≠ expected then
    .error (.badRequest ("tarball declares " ++ field ++ " " ++ inner.shown ++ " but is being published as " ++ expected))
  else .ok ()

/-- What a document states of a tarball must be what its bytes hash to. -/
def states (stated : Option String) (actual message : String) : Except Fault Unit :=
  match stated with
  | none => .ok ()
  | some text => if text = actual then .ok () else .error (.badRequest message)

/-- The bytes of an attachment. -/
def decodeAttachment (name version : String) (data : Option String) : Except Fault Bytes :=
  match data with
  | none => .error (.badRequest ("attachment for " ++ name ++ "@" ++ version ++ " has no base64 \'data\'"))
  | some encoded =>
    match formats.decode64 encoded with
    | .error why => .error (.badRequest ("attachment for " ++ name ++ "@" ++ version ++ " is not valid base64: " ++ why))
    | .ok bytes =>
      if bytes = [] then .error (.badRequest ("attachment for " ++ name ++ "@" ++ version ++ " is empty"))
      else if maxTarballBytes < bytes.length then
        .error (.badRequest ("tarball for " ++ name ++ "@" ++ version ++ " is " ++ toString bytes.length ++
          " bytes, above the " ++ toString maxTarballBytes ++ " byte limit"))
      else .ok bytes

/-- A different package must not silently take over a file name; a tarball that does not say its name is replaced. -/
def mayTake (d : Directory) (name version filename : String) (overwrite : Bool) : Except Fault Unit :=
  match d.files.get? filename with
  | none => .ok ()
  | some stored =>
    if overwrite = false then .error (.conflict name version)
    else
      match existingPackageName formats stored version with
      | .error fault => .error fault
      | .ok none => .ok ()
      | .ok (some existing) => if existing = name then .ok () else .error (.conflict existing version)

/-- `_store_attachment` as far as its checks: the file name and the bytes to store. -/
def checkAttachment (d : Directory) (name version : String) (shasum integrity data : Option String) (overwrite : Bool) :
    Except Fault (String × Bytes) := do
  let bytes ← decodeAttachment formats name version data
  let inner ← readManifest formats bytes version
  declares "name" inner.name name
  declares "version" inner.version version
  states shasum (formats.sha1 bytes) ("shasum mismatch for " ++ name ++ "@" ++ version ++ ": document says " ++
    shasum.getD "" ++ ", uploaded bytes hash to " ++ formats.sha1 bytes)
  states integrity (formats.sha512 bytes) ("integrity mismatch for " ++ name ++ "@" ++ version ++
    ": the uploaded bytes do not match the declared sha512")
  let filename ← storedFilename name version
  mayTake formats d name version filename overwrite
  return (filename, bytes)

/-- One turn of the loop of `publish`, with `_store_attachment` in it. -/
def storeAttachment (d : Directory) (name : String) (versions : List (String × VersionEntry)) (overwrite : Bool)
    (stamps : Stamps) (key : String) (attachment : Attachment) : Except Fault (Directory × PublishedVersion) :=
  match attachment with
  | .notObject => .error (.badRequest ("attachment " ++ key ++ " is not an object"))
  | .object data =>
    match versionForAttachment formats key name versions with
    | .error fault => .error fault
    | .ok none => .error (.badRequest ("attachment " ++ key ++ " does not match any version of " ++ name))
    | .ok (some version) =>
      match versions.lookup version with
      | some (.object _ shasum integrity) =>
        (checkAttachment formats d name version shasum integrity data overwrite).map fun checked =>
          (d.write checked.1 checked.2 (stamps.attachment key),
            ⟨name, version, checked.1, checked.2.length, formats.sha1 checked.2, formats.sha512 checked.2⟩)
      | _ => .error (.badRequest ("version " ++ version ++ " of " ++ name ++ " is not an object"))

/-- The loop: what is stored stays stored when a later attachment is refused. -/
def storeAll (name : String) (versions : List (String × VersionEntry)) (overwrite : Bool) (stamps : Stamps) :
    Directory → List (String × Attachment) → Directory × List PublishedVersion × Option Fault
  | d, [] => (d, [], none)
  | d, (key, attachment) :: rest =>
    match storeAttachment formats d name versions overwrite stamps key attachment with
    | .error fault => (d, [], some fault)
    | .ok (d', item) =>
      let more := storeAll name versions overwrite stamps d' rest
      (more.1, item :: more.2.1, more.2.2)

/-- `publish`. -/
def publish (d : Directory) (stamps : Stamps) (request : Request) : Except Fault (List PublishedVersion) × Directory :=
  match validate request with
  | .error fault => (.error fault, d)
  | .ok (name, document) =>
    match storeAll formats name document.versions request.overwrite stamps d document.attachments with
    | (d', _, some fault) => (.error fault, d')
    | (d', published, none) => (.ok published, d'.recordTags name document.distTags stamps)

end OpenFish.Npm
