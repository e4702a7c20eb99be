/-
`DiskCache` of `services/upstream.py`: files under the digests of their keys, one modification time
for both freshness and the order of eviction. A read renews the time it is judged by; metadata
expires throughout a run exactly when no read meets an entry that an earlier read kept fresh.
-/
import OpenFish.Lib.Machine
import OpenFish.Lib.Dict
import Mathlib.Data.List.Sort
import Mathlib.Algebra.Order.Ring.Int

namespace OpenFish.Upstream

open Lib

/-- An instant or a duration, in microseconds. -/
abbrev Time := Int

abbrev Bytes := List UInt8

/-! ## The cache -/

/-- A cached file: what is in it, and its modification time. -/
structure CacheFile where
  content : Bytes
  mtime : Time
  deriving DecidableEq, Repr

/-- The files under the cache's root, by path. -/
abbrev Disk := Dict String CacheFile

section
variable (sha256 : String → String) (maxBytes : Nat)

/-- `path_for`, below the root. -/
def pathFor (key : String) : String :=
  String.ofList ((sha256 key).toList.take 2) ++ "/" ++ String.ofList ((sha256 key).toList.drop 2)

/-- `get`: the path of the cached file, its time renewed. -/
def get (key : String) (maxAge : Option Time) (now : Time) (disk : Disk) : Option String × Disk :=
  let path := pathFor sha256 key
  match disk.get? path with
  | none => (none, disk)
  | some file =>
    if maxAge.any (· < now - file.mtime) then (none, disk)
    -- reading counts as use for the eviction policy
    else (some path, disk.set path { file with mtime := now })

def openBytes (key : String) (maxAge : Option Time) (now : Time) (disk : Disk) : Option Bytes × Disk :=
  let (path, disk') := get sha256 key maxAge now disk
  (path.bind fun p => (disk'.get? p).map (·.content), disk')

def totalBytes (disk : Disk) : Nat := (disk.entries.map fun e => e.2.content.length).sum

/-- The loop of `enforce_limit`, with the bytes that are left. -/
def evict : List (String × CacheFile) → Nat → Disk → Disk
  | [], _, disk => disk
  | e :: es, left, disk =>
    if left ≤ maxBytes then disk else evict es (left - e.2.content.length) (disk.erase e.1)

/-- `enforce_limit`: the oldest files go first; `order` is the order in which the directory walk
happens to list the paths. -/
def enforceLimit (order : List String) (disk : Disk) : Disk :=
  if maxBytes = 0 ∨ totalBytes disk ≤ maxBytes then disk
  else
    let listed := disk.entries.insertionSort fun e f => order.idxOf e.1 ≤ order.idxOf f.1
    evict maxBytes (listed.insertionSort fun e f => e.2.mtime ≤ f.2.mtime) (totalBytes disk) disk

/-- `os.replace` onto the path of a key, then the budget. -/
def store (key : String) (content : Bytes) (mtime : Time) (order : List String) (disk : Disk) : String × Disk :=
  let path := pathFor sha256 key
  (path, enforceLimit maxBytes order (disk.set path ⟨content, mtime⟩))

def putStream (key : String) (chunks : List Bytes) (now : Time) (order : List String) (disk : Disk) : String × Disk :=
  store sha256 maxBytes key chunks.flatten now order disk

def putBytes (key : String) (data : Bytes) (now : Time) (order : List String) (disk : Disk) : String × Disk :=
  putStream sha256 maxBytes key [data] now order disk

/-- `put_response`: the chunks are those of the response's body. -/
def putResponse (key : String) (body : List Bytes) (now : Time) (order : List String) (disk : Disk) : String × Disk :=
  store sha256 maxBytes key body.flatten now order disk

/-- `adopt`: the file moved in was last written `age` ago, and keeps its time. -/
def adopt (key : String) (source : Bytes) (age : Nat) (now : Time) (order : List String) (disk : Disk) :
    String × Disk :=
  store sha256 maxBytes key source (now - age) order disk

end

/-! ## The cache as a machine -/

inductive Op
  | putBytes (key : String) (data : Bytes)
  | putStream (key : String) (chunks : List Bytes)
  | putResponse (key : String) (body : List Bytes)
  | adopt (key : String) (source : Bytes) (age : Nat)
  | get (key : String) (maxAge : Option Time)
  | openBytes (key : String) (maxAge : Option Time)

/-- A call, when it is made, and the order of the directory walk it meets. -/
structure Call where
  op : Op
  now : Time
  order : List String := []

inductive Answer
  | stored (path : String)
  | path (path : Option String)
  | bytes (content : Option Bytes)
  deriving DecidableEq, Repr

/-- One call. -/
def step (sha256 : String → String) (maxBytes : Nat) (disk : Disk) (c : Call) : Answer × Disk :=
  match c.op with
  | .putBytes k data => (putBytes sha256 maxBytes k data c.now c.order disk).map .stored id
  | .putStream k chunks => (putStream sha256 maxBytes k chunks c.now c.order disk).map .stored id
  | .putResponse k body => (putResponse sha256 maxBytes k body c.now c.order disk).map .stored id
  | .adopt k source age => (adopt sha256 maxBytes k source age c.now c.order disk).map .stored id
  | .get k maxAge => (get sha256 k maxAge c.now disk).map .path id
  | .openBytes k maxAge => (openBytes sha256 k maxAge c.now disk).map .bytes id

/-- A cache under an empty root, then any calls. -/
def diskCache (sha256 : String → String) (maxBytes : Nat) : Machine Disk Call Answer :=
  ⟨Dict.empty, step sha256 maxBytes⟩

abbrev Event := Call × Answer

end OpenFish.Upstream
