/-
The two backends of the object store (`services/objectstore.py`): a directory, and a bucket of an S3-compatible server
that lists its keys in pages. Both are given as what their calls do to the files or the objects.
-/
import OpenFish.Lib.FileTree
import OpenFish.Lib.Text
import OpenFish.Queue.Isolation
import Mathlib.Data.List.Sort

namespace OpenFish.Objects

open Lib

abbrev Bytes := List UInt8

/-- `ObjectInfo`, but for the time of the last modification. -/
structure ObjectInfo where
  key : String
  isDir : Bool
  size : Nat
  deriving DecidableEq, Repr

/-- How a call fails: the key is refused, nothing is there, or the system refuses. -/
inductive StoreError
  | value | notFound | os
  deriving DecidableEq, Repr

/-- `key.strip("/")`. -/
def stripSlashes (key : String) : String := Text.rstrip '/' (Text.lstrip ['/'] key)

/-! ## Paths -/

/-- The names of a `Path` of a text: neither empty names nor single dots. -/
def pathParts (text : String) : List String := (Text.split '/' text).filter fun name => name ≠ "" ∧ name ≠ "."

/-- `as_posix()` of a relative path. -/
def asPosix (parts : List String) : String := if parts = [] then "." else "/".intercalate parts

/-- `safe_join`: what it puts after the directory, unless it refuses a part. -/
abbrev SafeJoin := List String → Option String

/-- A segment. -/
def Segment (name : String) : Prop := Queue.singleSegment name "key" = .ok name

/-- A segment is put after the directory as it is. -/
def SafeJoin.Lawful (join : SafeJoin) : Prop := ∀ name, Segment name → join [name] = some name

/-- `contained`: the names below the directory. -/
def contained (join : SafeJoin) (parts : List String) : Option (List String) := (join parts).map pathParts

/-! ## The directory -/

section Directory

variable (join : SafeJoin) (T : FileTree)

/-- `LocalStore._path`, from the root on. -/
def localPath (key : String) : Option Path := if key = "" then some [] else contained join (Text.split '/' key)

/-- A name on the way is a file's. -/
def passesFile (p : Path) : Bool := p.inits.dropLast.any fun q => (T.file? q).isSome

/-- `mkdir(parents=True, exist_ok=True)` of what is still to come below a directory. -/
def makeDirs (T : FileTree) : Path → Path → Option FileTree
  | _, [] => some T
  | here, name :: rest =>
    match T.at? (here ++ [name]) with
    | some .dir => makeDirs T (here ++ [name]) rest
    | some (.file _) => none
    | none => (T.mkdir here name).bind fun T' => makeDirs T' (here ++ [name]) rest

/-- `LocalStore.put` of the chunks' bytes. -/
def localPut (key : String) (data : Bytes) : Except StoreError FileTree :=
  match localPath join key with
  | none => .error .value
  | some p =>
    match p.getLast? with
    | none => .error .os
    | some name =>
      match (makeDirs T [] p.dropLast).bind fun T' => T'.write p.dropLast name data with
      | none => .error .os
      | some T' => .ok T'

/-- `LocalStore.open`, read to its end. -/
def localOpen (key : String) : Except StoreError Bytes :=
  match localPath join key with
  | none => .error .value
  | some p =>
    if passesFile T p = true then .error .os
    else
      match T.at? p with
      | none => .error .notFound
      | some .dir => .error .os
      | some (.file data) => .ok data

/-- `LocalStore.stat`. -/
def localStat (key : String) : Except StoreError (Option ObjectInfo) :=
  match localPath join key with
  | none => .error .value
  | some p =>
    if passesFile T p = true then .error .os
    else
      match T.at? p with
      | none => .ok none
      | some .dir => .ok (some ⟨stripSlashes key, true, 0⟩)
      | some (.file data) => .ok (some ⟨stripSlashes key, false, data.length⟩)

/-- `LocalStore.exists`. -/
def localExists (key : String) : Except StoreError Bool :=
  match localPath join key with
  | none => .error .value
  | some p => .ok (T.at? p).isSome

/-- `path.unlink()`, where nothing may be. -/
def unlinkPath (p : Path) : Except StoreError FileTree :=
  if passesFile T p = true then .error .os
  else
    match T.at? p, p.getLast? with
    | none, _ => .ok T
    | some .dir, _ | some (.file _), none => .error .os
    | some (.file _), some name => .ok ((T.unlink p.dropLast name).getD T)

/-- `LocalStore.delete`. -/
def localDelete (key : String) : Except StoreError FileTree :=
  match localPath join key with
  | none => .error .value
  | some p => unlinkPath T p

/-- `shutil.rmtree`. -/
def removeTree (p : Path) : FileTree :=
  match p.getLast? with
  | none => FileTree.empty
  | some name => (T.takeDir p.dropLast name).getD T

/-- `LocalStore.delete_many`: what is left, and the error that ends it. -/
def localDeleteMany (T : FileTree) : List String → FileTree × Option StoreError
  | [] => (T, none)
  | key :: keys =>
    match localPath join key with
    | none => (T, some .value)
    | some p =>
      if T.at? p = some .dir then localDeleteMany (removeTree T p) keys
      else
        match unlinkPath T p with
        | .error e => (T, some e)
        | .ok T' => localDeleteMany T' keys

/-- `os.walk` from a directory on, its names sorted: the directories, the files, and what is in the directories. -/
def walkDir : Nat → Path → List ObjectInfo
  | 0, _ => []
  | depth + 1, p =>
    let names := (T.children p).insertionSort (· ≤ ·)
    let dirs := names.filter fun name => T.at? (p ++ [name]) = some .dir
    let files := names.filterMap fun name => (T.file? (p ++ [name])).map fun data => (name, data.length)
    dirs.map (fun name => ⟨asPosix (p ++ [name]), true, 0⟩) ++
      files.map (fun file => ⟨asPosix (p ++ [file.1]), false, file.2⟩) ++
      dirs.flatMap fun name => walkDir depth (p ++ [name])

/-- `LocalStore.walk`. -/
def localWalk (key : String) : Except StoreError (List ObjectInfo) :=
  match localPath join key with
  | none => .error .value
  | some p => if T.at? p = some .dir then .ok (walkDir T (T.nodes.entries.length + 1) p) else .ok []

end Directory

/-! ## The bucket -/

/-- The objects of a bucket, by their keys. -/
abbrev Bucket := Dict String Bytes

/-- `_normalized_prefix`. -/
def normalizedPrefix (base catalog : String) : String :=
  "/".intercalate ((Text.split '/' (stripSlashes base)).filter (· ≠ "") ++ [catalog]) ++ "/"

/-- A page of `list_objects_v2` with the delimiter: the common prefixes, the keys with their sizes, and the token of the
next page where it is truncated. -/
structure Page where
  prefixes : List String
  contents : List (String × Nat)
  next : Option String := none

/-- What a server answers to a prefix and a token. -/
abbrev Listing := String → Option String → Page

/-- The directories and the keys that a walk has reported. -/
structure Seen where
  dirs : List String := []
  keys : List String := []

/-- `key[len(self.prefix):]`. -/
def dropFirst (n : Nat) (s : String) : String := String.ofList (s.toList.drop n)

section Bucket

variable (join : SafeJoin) (pre : String) (objects : Bucket)

/-- `S3Store._full`. -/
def fullKey (key : String) : Option String :=
  let stripped := stripSlashes key
  if stripped = "" then some pre
  else (contained join (Text.split '/' stripped)).map fun parts => pre ++ Text.lstrip ['/'] (asPosix parts)

/-- `S3Store.put` of the chunks' bytes. -/
def s3Put (key : String) (data : Bytes) : Except StoreError Bucket :=
  match fullKey join pre key with
  | none => .error .value
  | some full => .ok (objects.set full data)

/-- `S3Store.open`, read to its end. -/
def s3Open (key : String) : Except StoreError Bytes :=
  match fullKey join pre key with
  | none => .error .value
  | some full =>
    match objects.get? full with
    | none => .error .notFound
    | some data => .ok data

/-- `S3Store.stat`. -/
def s3Stat (key : String) : Except StoreError (Option ObjectInfo) :=
  if stripSlashes key ≠ "" ∧ Text.endsWith "/" key = true then .ok (some ⟨stripSlashes key, true, 0⟩)
  else
    match fullKey join pre key with
    | none => .error .value
    | some full => .ok ((objects.get? full).map fun data => ⟨stripSlashes key, false, data.length⟩)

/-- `S3Store._has_prefix`. -/
def hasPrefix (start : String) : Bool := objects.entries.any fun e => Text.startsWith start e.1

/-- `S3Store.exists`. -/
def s3Exists (key : String) : Except StoreError Bool :=
  if stripSlashes key ≠ "" ∧ hasPrefix objects (pre ++ stripSlashes key ++ "/") = true then .ok true
  else if stripSlashes key = "" ∧ hasPrefix objects pre = true then .ok true
  else (s3Stat join pre objects key).map Option.isSome

/-- `S3Store.delete`. -/
def s3Delete (key : String) : Except StoreError Bucket :=
  match fullKey join pre key with
  | none => .error .value
  | some full => .ok (objects.erase full)

/-- `_DELETE_BATCH`. -/
def deleteBatch : Nat := 1000

/-- `delete_objects` of a batch. -/
def deleteObjects (objects : Bucket) (names : List String) : Bucket := names.foldl Dict.erase objects

/-- The batches of a list, one request each. -/
def deleteBatches (objects : Bucket) : Nat → List String → Bucket
  | 0, _ => objects
  | requests + 1, names =>
    if names = [] then objects
    else deleteBatches (deleteObjects objects (names.take deleteBatch)) requests (names.drop deleteBatch)

/-- `S3Store.delete_many`. -/
def s3DeleteMany (keys : List String) : Except StoreError Bucket :=
  match keys.mapM (fullKey join pre) with
  | none => .error .value
  | some names => .ok (deleteBatches objects names.length names)

end Bucket

/-! ## Walking the bucket -/

section Walk

variable (list : Listing) (base : Nat)

/-- The keys of a page that are new. -/
def reportKeys : List (String × Nat) → Seen → List ObjectInfo × Seen
  | [], seen => ([], seen)
  | item :: items, seen =>
    let key := dropFirst base item.1
    if key = "" ∨ key ∈ seen.keys then reportKeys items seen
    else
      let more := reportKeys items { seen with keys := seen.keys ++ [key] }
      (⟨key, false, item.2⟩ :: more.1, more.2)

/-- The common prefixes of a page that are new, each with what is below it. -/
def reportDirs (descend : String → Seen → Option (List ObjectInfo × Seen)) :
    List String → Seen → Option (List ObjectInfo × Seen)
  | [], seen => some ([], seen)
  | common :: rest, seen =>
    let child := Text.rstrip '/' (dropFirst base common)
    if child ∈ seen.dirs then reportDirs descend rest seen
    else
      (descend common { seen with dirs := seen.dirs ++ [child] }).bind fun below =>
      (reportDirs descend rest below.2).map fun more => (⟨child, true, 0⟩ :: below.1 ++ more.1, more.2)

/-- `S3Store._walk_prefix`, from the page of a token on; out of fuel it has no result. -/
def walkPrefix : Nat → String → Option String → Seen → Option (List ObjectInfo × Seen)
  | 0, _, _, _ => none
  | fuel + 1, start, token, seen =>
    let page := list start token
    (reportDirs base (fun common seen => walkPrefix fuel common none seen) page.prefixes seen).bind fun dirs =>
      let keys := reportKeys base page.contents dirs.2
      match page.next with
      | none => some (dirs.1 ++ keys.1, keys.2)
      | some token =>
        (walkPrefix fuel start (if token = "" then none else some token) keys.2).map fun more =>
          (dirs.1 ++ keys.1 ++ more.1, more.2)

end Walk

/-- The prefix that a walk lists: it ends with a slash. -/
def walkBase (join : SafeJoin) (pre key : String) : Option String :=
  (if stripSlashes key = "" then some pre else fullKey join pre key).map fun start =>
    if start ≠ "" ∧ Text.endsWith "/" start = false then start ++ "/" else start

/-- `S3Store.walk`. -/
def s3Walk (join : SafeJoin) (pre : String) (list : Listing) (fuel : Nat) (key : String) :
    Option (Except StoreError (List ObjectInfo)) :=
  match walkBase join pre key with
  | none => some (.error .value)
  | some start => (walkPrefix list pre.length fuel start none {}).map fun result => .ok result.1

end OpenFish.Objects
