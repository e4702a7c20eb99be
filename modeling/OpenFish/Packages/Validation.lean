/-
`validate_file` of `services/validation.py`, and an upload that it lets through. What the libraries find in a file is a
parameter: libmagic, `packaging`, `wheel`, `tarfile`, GuardDog and ClamAV.
-/
import Mathlib.Data.List.Sort
import Mathlib.Data.Rat.Defs
import OpenFish.Lib.FileTree
import OpenFish.Lib.Text
import OpenFish.Lib.Unicode
import OpenFish.Packages.Upload

namespace OpenFish.Packages

open Lib

/-! ## Safe names -/

/-- What `secure_filename` keeps. -/
def safeChar (c : Char) : Bool := c.isAlphanum || c = '_' || c = '.' || c = '-'

/-- `"_".join(filename.split())`. -/
def joinWords (cs : List Char) : List Char :=
  ['_'].intercalate ((cs.splitOnP Text.isSpace).filter fun word => !word.isEmpty)

/-- `secure_filename` on POSIX. -/
def secureFilename (folding : Folding) (filename : String) : String :=
  let words := joinWords ((filename.toList.flatMap folding.ascii).map fun c => if c = '/' then ' ' else c)
  String.ofList (((words.filter safeChar).dropWhile (· ∈ ['.', '_'])).rdropWhile (· ∈ ['.', '_']))

/-! ## Configuration and libraries -/

structure StorageConfig where
  onDuplicate : DuplicatePolicy
  maxContentLength : Nat
  allowExtensions : List String

structure SecurityConfig where
  guarddogRequired : Bool
  guarddogMinRiskScore : ℚ
  clamavRequired : Bool

/-- What `WheelFile` says of an archive. -/
inductive WheelArchive
  /-- `WheelError`. -/
  | malformed (why : String)
  /-- `BadZipFile`, `OSError` or `ValueError`. -/
  | unreadable (why : String)
  /-- Every member has the bytes that the `RECORD` says. -/
  | intact (distInfoPath : String) (names : List String)

structure Risk where
  score : ℚ
  label : String
  threatRules : List String

inductive GuardDog
  | disabled
  /-- It does not start, and this is the first attempt. -/
  | broken (why : String)
  /-- `safe_extract` gives what it objects to, and `scan_local` what it raises or finds. -/
  | ready (safeExtract : String → Bytes → Option String) (scanLocal : String → Bytes → Except String Risk)

inductive ClamAV
  | disabled
  /-- It does not answer at the first attempt: where it was looked for, and the exception. -/
  | unreachable (why : String)
  /-- `instream` gives what it raises, or the status and the name of what it found. -/
  | ready (instream : Bytes → Except String (String × Option String))

structure Libraries where
  unicode : Unicode
  folding : Folding
  /-- `magic.from_buffer`, unless it raises. -/
  detect : Bytes → Option String
  /-- What `parse_wheel_filename` objects to. -/
  parseWheelFilename : String → Option String
  /-- What `parse_sdist_filename` objects to. -/
  parseSdistFilename : String → Option String
  wheelFile : String → Bytes → WheelArchive
  isTarfile : Bytes → Bool
  guarddog : GuardDog
  clamav : ClamAV

/-- Why an upload is not accepted. -/
inductive Fault
  | badRequest (message : String)
  /-- An exception that the route does not catch. -/
  | internal (message : String)
  deriving DecidableEq, Repr

/-! ## Texts -/

/-- The nearest whole number, and the even one of two. -/
def halfEven (q : ℚ) : Nat :=
  let whole := q.num.toNat / q.den
  let rest := q.num.toNat % q.den
  if 2 * rest < q.den ∨ (2 * rest = q.den ∧ whole % 2 = 0) then whole else whole + 1

/-- `f"{q:.1f}"`. -/
def oneDecimal (q : ℚ) : String := toString (halfEven (q * 10) / 10) ++ "." ++ toString (halfEven (q * 10) % 10)

/-- `str` of a list of texts without quotes. -/
def listRepr (texts : List String) : String := "[" ++ ", ".intercalate (texts.map fun t => "'" ++ t ++ "'") ++ "]"

/-! ## The steps -/

def mimeMap : List (String × List String) :=
  [("whl", ["application/zip", "application/x-zip-compressed", "application/x-zip", "application/octet-stream"]),
    ("zip", ["application/zip", "application/x-zip-compressed", "application/x-zip", "application/octet-stream"]),
    ("tar.gz", ["application/gzip", "application/x-gzip", "application/gzip-compressed", "application/x-tar",
      "application/octet-stream"]),
    ("tar", ["application/x-tar", "application/octet-stream"])]

def checkMime (libs : Libraries) (content : Bytes) (ext : String) : Except Fault Unit :=
  match libs.detect content with
  | none => .ok ()
  | some detected =>
    match mimeMap.lookup ext with
    | none => .error (.badRequest ("Unknown extension ." ++ ext ++ " (MIME: " ++ detected ++ ")"))
    | some allowed =>
      if detected ∈ allowed then .ok ()
      else .error (.badRequest
        ("MIME mismatch: '" ++ detected ++ "' for ." ++ ext ++ " (expected " ++ listRepr allowed ++ ")"))

def wheelRequiredMembers : List String := ["WHEEL", "METADATA"]

def validateWheel (libs : Libraries) (filename : String) (content : Bytes) : Except Fault Unit :=
  match libs.parseWheelFilename filename with
  | some why => .error (.badRequest (filename ++ ": " ++ why))
  | none =>
    match libs.wheelFile filename content with
    | .malformed why => .error (.badRequest (filename ++ ": " ++ why))
    | .unreadable why => .error (.badRequest (filename ++ ": unreadable wheel (" ++ why ++ ")"))
    | .intact distInfo names =>
      match wheelRequiredMembers.filter fun name => distInfo ++ "/" ++ name ∉ names with
      | [] => .ok ()
      | missing => .error (.badRequest (filename ++ ": missing " ++ "/".intercalate missing ++ " in " ++ distInfo))

def validateSdist (libs : Libraries) (filename ext : String) (content : Bytes) : Except Fault Unit :=
  if ext = "tar.gz" ∨ ext = "zip" then
    match libs.parseSdistFilename filename with
    | some why => .error (.badRequest (filename ++ ": " ++ why))
    | none => .ok ()
  else if libs.isTarfile content then .ok ()
  else .error (.badRequest ("Not a valid tar archive: " ++ filename))

/-- `_scan_guarddog`, with `_get_guarddog` in it. -/
def scanGuarddog (libs : Libraries) (security : SecurityConfig) (filename : String) (content : Bytes) : Except Fault Unit :=
  match libs.guarddog with
  | .disabled => .ok ()
  | .broken why => if security.guarddogRequired then .error (.internal ("GuardDog unavailable (" ++ why ++ ")")) else .ok ()
  | .ready safeExtract scanLocal =>
    match safeExtract filename content with
    | some why => .error (.badRequest ("Unsafe archive: " ++ why))
    | none =>
      match scanLocal filename content with
      | .error why => if security.guarddogRequired then .error (.internal ("GuardDog scan failed: " ++ why)) else .ok ()
      | .ok risk =>
        if security.guarddogMinRiskScore ≤ risk.score then
          let rules := ", ".intercalate ((risk.threatRules.dedup.insertionSort (· ≤ ·)).take 4)
          .error (.badRequest ("Malicious package indicators (risk " ++ oneDecimal risk.score ++ "/10): " ++
            (if rules = "" then risk.label else rules)))
        else .ok ()

/-- `_scan_clamav`, with `_get_clamd` in it. -/
def scanClamav (libs : Libraries) (security : SecurityConfig) (content : Bytes) : Except Fault Unit :=
  match libs.clamav with
  | .disabled => .ok ()
  | .unreachable why => if security.clamavRequired then .error (.internal ("ClamAV unreachable " ++ why)) else .ok ()
  | .ready instream =>
    match instream content with
    | .error why => if security.clamavRequired then .error (.internal ("ClamAV scan failed: " ++ why)) else .ok ()
    | .ok (status, virus) =>
      if status = "OK" then .ok () else .error (.badRequest ("Virus detected: " ++ virus.getD "Unknown"))

/-! ## The pipeline -/

section Pipeline
variable (libs : Libraries) (storage : StorageConfig) (security : SecurityConfig)

def fileTooLarge (size : Nat) : String :=
  "File too large (max " ++ toString (halfEven (storage.maxContentLength / 1024 / 1024 : ℚ)) ++ " MB, got " ++
    oneDecimal (size / 1024 / 1024 : ℚ) ++ " MB)"

/-- The longest allowed extension that the name has. -/
def matchedExtension (safe : String) : Option String :=
  (storage.allowExtensions.insertionSort fun a b => b.length ≤ a.length).find? fun ext =>
    Text.endsWith ("." ++ ext) (libs.unicode.lower safe)

/-- What `validate_file` checks under the safe name. -/
def inspect (safe : String) (content : Bytes) : Except Fault Unit := do
  if storage.maxContentLength < content.length then
    throw (.badRequest (fileTooLarge storage content.length))
  if content.length = 0 then
    throw (.badRequest "Empty file")
  match matchedExtension libs storage safe with
  | none =>
    throw (.badRequest ("Extension not allowed: '" ++ safe ++ "' (allowed: " ++
      ", ".intercalate storage.allowExtensions ++ ")"))
  | some ext =>
    checkMime libs content ext
    if ext = "whl" then
      validateWheel libs safe content
    else if ext = "tar.gz" ∨ ext = "tar" ∨ ext = "zip" then
      validateSdist libs safe ext content
    scanGuarddog libs security safe content
    scanClamav libs security content

/-- The safe name, if all checks pass. It is one path segment, so `contained` does not refuse it. -/
def validateFile (filename : String) (content : Bytes) : Except Fault String :=
  match safeName (secureFilename libs.folding) filename with
  | none => .error (.badRequest "Invalid filename")
  | some safe => (inspect libs storage security safe content).map fun _ => safe

inductive Uploaded
  /-- The name was taken. -/
  | existing (answer : Answer)
  | stored (name : String) (T : FileTree)

/-- The upload route: `before` is the packages directory when the request comes in, `T` when the file is renamed. -/
def upload (before T : FileTree) (filename : String) (content : Bytes) : Except Fault Uploaded :=
  if filename = "" then .error (.badRequest "No file selected")
  else
    match safeName (secureFilename libs.folding) filename with
    | none => .error (.badRequest "Invalid filename")
    | some existingName =>
      if before.at? [existingName] ≠ none ∧ storage.onDuplicate.allowsOverwrite = false then
        .ok (.existing (existingUploadResponse storage.onDuplicate))
      else
        match validateFile libs storage security filename content with
        | .error fault => .error fault
        | .ok safe =>
          if T.at? [safe] ≠ none ∧ storage.onDuplicate.allowsOverwrite = false then
            .ok (.existing (existingUploadResponse storage.onDuplicate))
          else
            match T.write [] safe content with
            | none => .error (.internal ("Is a directory: " ++ safe))
            | some T' => .ok (.stored safe T')

end Pipeline

end OpenFish.Packages
