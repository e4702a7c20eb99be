/-
The cache of the Docker registry proxy: `DiskCache` of `services/upstream.py` under the keys of
`services/docker_registry.py`, and `_RepositoryIndex`, whose one file lies among the files that the cache evicts.
-/
import Mathlib.Algebra.Order.Ring.Int
import Mathlib.Data.List.Sort
import OpenFish.Lib.Dict
import OpenFish.Lib.Json
import OpenFish.Lib.Regex
import OpenFish.Lib.Text

namespace OpenFish.Docker

open Lib

/-- An instant or a duration, in microseconds. -/
abbrev Time := Int

abbrev Bytes := List UInt8

/-! ## Digests -/

def isLowerAlnum (c : Char) : Bool := c.isDigit ∨ ('a' ≤ c ∧ c ≤ 'z')

def isHex (c : Char) : Bool := c.isDigit ∨ ('a' ≤ c ∧ c ≤ 'f') ∨ ('A' ≤ c ∧ c ≤ 'F')

def isSeparator (c : Char) : Bool := c ∈ ['.', '+', '_', '-']

/-- `_DIGEST_RE`. -/
def digestPattern : Regex :=
  let word := Regex.some false (.char isLowerAlnum)
  .seq word (.seq (.many false (.seq (.char isSeparator) word)) (.seq (.char (· = ':'))
    (.seq (.atLeast 32 (.char isHex)) .dollar)))

/-- `is_digest`. -/
def isDigest (reference : String) : Bool := (Regex.capture digestPattern reference).isSome

/-- The digest names its bytes by SHA-256. -/
def isSha256 (digest : String) : Bool := Text.startsWith "sha256:" (Text.lower digest)

/-! ## Files -/

/-- The path of a file: `path_for` of a key, which hashes it and is taken as injective, or `repositories.json`. -/
inductive Path
  | entry (key : String)
  | index
  deriving DecidableEq, Repr

/-- What the index says of a repository: its "tags", "digests" and "blobs". -/
abbrev RepositoryEntry := Dict String (List String)

abbrev Index := Dict String RepositoryEntry

/-- What a file holds. JSON that the proxy writes itself is kept as the value that is read from it. -/
inductive Content
  | bytes (data : Bytes)
  /-- What `_write_meta` writes. -/
  | metadata (contentType : String)
  /-- What `_save` writes. -/
  | repositories (index : Index)

structure File where
  content : Content
  mtime : Time

abbrev Files := Dict Path File

/-! ## JSON -/

def hexDigit (n : Nat) : Char := if n < 10 then Char.ofNat (48 + n) else Char.ofNat (87 + n)

def unicodeEscape (unit : Nat) : List Char :=
  ['\\', 'u', hexDigit (unit / 4096 % 16), hexDigit (unit / 256 % 16), hexDigit (unit / 16 % 16), hexDigit (unit % 16)]

/-- How `json.dumps` writes a character of a string: in ASCII. -/
def escape (c : Char) : List Char :=
  if c = '"' ∨ c = '\\' then ['\\', c]
  else if c = '\n' then ['\\', 'n']
  else if c = '\r' then ['\\', 'r']
  else if c = '\t' then ['\\', 't']
  else if c.toNat = 8 then ['\\', 'b']
  else if c.toNat = 12 then ['\\', 'f']
  else if 32 ≤ c.toNat ∧ c.toNat < 127 then [c]
  else if c.toNat < 65536 then unicodeEscape c.toNat
  else unicodeEscape (55296 + (c.toNat - 65536) / 1024) ++ unicodeEscape (56320 + (c.toNat - 65536) % 1024)

def quoted (s : String) : List Char := '"' :: (s.toList.flatMap escape ++ ['"'])

def listText (items : List (List Char)) : List Char := '[' :: ((", ".toList).intercalate items ++ [']'])

def objectText (members : List (String × List Char)) : List Char :=
  '{' :: ((", ".toList).intercalate (members.map fun m => quoted m.1 ++ (": ".toList ++ m.2)) ++ ['}'])

/-- The members of an object under `sort_keys`. -/
def sortedMembers {α : Type} (d : Dict String α) : List (String × α) := d.entries.insertionSort fun a b => a.1 ≤ b.1

def repositoryText (entry : RepositoryEntry) : List Char :=
  objectText ((sortedMembers entry).map fun m => (m.1, listText (m.2.map quoted)))

def indexText (index : Index) : List Char := objectText ((sortedMembers index).map fun m => (m.1, repositoryText m.2))

def metaText (contentType : String) : List Char := objectText [("content_type", quoted contentType)]

/-- The bytes of a file. -/
def Content.read : Content → Bytes
  | .bytes data => data
  | .metadata contentType => (metaText contentType).map Char.toUInt8
  | .repositories index => (indexText index).map Char.toUInt8

/-! ## The cache -/

/-- What the file under a path holds. -/
def contentAt (path : Path) (files : Files) : Option Content := (files.get? path).map (·.content)

def readBytes (path : Path) (files : Files) : Option Bytes := (contentAt path files).map Content.read

/-- Reading counts as use for the eviction policy. -/
def touch (path : Path) (now : Time) (files : Files) : Files :=
  match files.get? path with
  | none => files
  | some file => files.set path { file with mtime := now }

/-- `DiskCache.get`: whether there is an entry that has not expired. -/
def lookUp (key : String) (maxAge : Option Time) (now : Time) (files : Files) : Bool × Files :=
  match files.get? (.entry key) with
  | none => (false, files)
  | some file =>
    if maxAge.any (· < now - file.mtime) then (false, files) else (true, touch (.entry key) now files)

/-- `os.replace` onto the path of a key. -/
def replace (key : String) (content : Content) (now : Time) (files : Files) : Files := files.set (.entry key) ⟨content, now⟩

def File.size (file : File) : Nat := file.content.read.length

def totalBytes (files : Files) : Nat := (files.entries.map fun e => e.2.size).sum

/-- The files in the order of eviction: the oldest first, those of one time as the directory walk lists them. -/
def oldestFirst (order : List Path) (files : Files) : List (Path × File) :=
  (files.entries.insertionSort fun e f => order.idxOf e.1 ≤ order.idxOf f.1).insertionSort fun e f => e.2.mtime ≤ f.2.mtime

/-- The loop of `enforce_limit`, with the bytes that are left. -/
def evict (maxBytes : Nat) : List (Path × File) → Nat → Files → Files
  | [], _, files => files
  | e :: es, left, files =>
    if left ≤ maxBytes then files else evict maxBytes es (left - e.2.size) (files.erase e.1)

/-- `enforce_limit`: `order` is the order in which the directory walk lists the paths. -/
def enforceLimit (maxBytes : Nat) (order : List Path) (files : Files) : Files :=
  if maxBytes = 0 ∨ totalBytes files ≤ maxBytes then files
  else evict maxBytes (oldestFirst order files) (totalBytes files) files

/-! ## The index -/

/-- `_load`. -/
def loadIndex (files : Files) : Index :=
  match contentAt .index files with
  | some (.repositories index) => index
  | _ => Dict.empty

/-- `_save`. -/
def saveIndex (index : Index) (now : Time) (files : Files) : Files := files.set .index ⟨.repositories index, now⟩

/-- The values of an entry under a key. -/
def RepositoryEntry.values (entry : RepositoryEntry) (key : String) : List String := (entry.get? key).getD []

def RepositoryEntry.setDefault (entry : RepositoryEntry) (key : String) : RepositoryEntry := entry.set key (entry.values key)

/-- The value is put at the end, unless it is there. -/
def RepositoryEntry.append (entry : RepositoryEntry) (key value : String) : RepositoryEntry :=
  if value ∈ entry.values key then entry else entry.set key (entry.values key ++ [value])

/-- `record_manifest`. -/
def recordManifest (name reference digest : String) (blobs : List String) (now : Time) (files : Files) : Files :=
  let data := loadIndex files
  let entry := ((((data.get? name).getD Dict.empty).setDefault "tags").setDefault "digests").setDefault "blobs"
  let entry := if isDigest reference then entry.append "digests" digest else entry.append "tags" reference
  saveIndex (data.set name (blobs.foldl (fun entry blob => entry.append "blobs" blob) entry)) now files

/-- `record_blob`. -/
def recordBlob (name digest : String) (now : Time) (files : Files) : Files :=
  let data := loadIndex files
  let entry := (data.get? name).getD Dict.empty
  if digest ∈ entry.values "blobs" then files
  else saveIndex (data.set name (entry.set "blobs" (entry.values "blobs" ++ [digest]))) now files

/-- `has_blob`. -/
def hasBlob (name digest : String) (files : Files) : Bool :=
  ((loadIndex files).get? name).any fun entry => digest ∈ entry.values "blobs"

/-! ## What the operations do to a file -/

section contents

variable {files : Files} {path : Path} {key : String} {content : Content} {now : Time}

@[simp] theorem contentAt_touch : contentAt path (touch (.entry key) now files) = contentAt path files := by
  unfold touch contentAt
  cases hfile : files.get? (.entry key) with
  | none => rfl
  | some file =>
    simp only
    rw [Dict.get?_set]
    split
    · rename_i heq
      rw [heq, hfile]
      rfl
    · rfl

@[simp] theorem contentAt_lookUp {maxAge : Option Time} : contentAt path (lookUp key maxAge now files).2 = contentAt path files := by
  unfold lookUp
  split
  · rfl
  · split
    · rfl
    · exact contentAt_touch

theorem lookUp_hit {maxAge : Option Time} (h : (lookUp key maxAge now files).1 = true) : ∃ content, contentAt (.entry key) files = some content := by
  unfold lookUp at h
  split at h
  · cases h
  · rename_i file hfile
    exact ⟨file.content, by rw [contentAt, hfile, Option.map_some]⟩

theorem lookUp_ageless (h : contentAt (.entry key) files = some content) : (lookUp key none now files).1 = true := by
  obtain ⟨file, hfile, -⟩ := Option.map_eq_some_iff.1 h
  simp only [lookUp, hfile, Option.any_none, Bool.false_eq_true, if_false]

theorem lookUp_missing {maxAge : Option Time} (h : contentAt (.entry key) files = none) : lookUp key maxAge now files = (false, files) := by
  have hfile : files.get? (.entry key) = none := Option.map_eq_none_iff.1 h
  simp only [lookUp, hfile]

theorem contentAt_replace :
    contentAt path (replace key content now files) = if path = .entry key then some content else contentAt path files := by
  rw [contentAt, replace, Dict.get?_set]
  split
  · rfl
  · rfl

theorem contentAt_saveIndex {index : Index} : contentAt path (saveIndex index now files) =
    if path = .index then some (.repositories index) else contentAt path files := by
  rw [contentAt, saveIndex, Dict.get?_set]
  split
  · rfl
  · rfl

theorem contentAt_erase {path' : Path} :
    contentAt path (files.erase path') = if path = path' then none else contentAt path files := by
  rw [contentAt, Dict.get?_erase]
  split
  · rfl
  · rfl

theorem contentAt_evict {maxBytes : Nat} {es : List (Path × File)} {left : Nat}
    (h : contentAt path (evict maxBytes es left files) = some content) : contentAt path files = some content := by
  induction es generalizing left files with
  | nil => exact h
  | cons e es ih =>
    rw [evict] at h
    split at h
    · exact h
    · have herase := ih h
      rw [contentAt_erase] at herase
      split at herase
      · cases herase
      · exact herase

/-- What the budget leaves is as it was. -/
theorem contentAt_enforceLimit {maxBytes : Nat} {order : List Path}
    (h : contentAt path (enforceLimit maxBytes order files) = some content) : contentAt path files = some content := by
  unfold enforceLimit at h
  split at h
  · exact h
  · exact contentAt_evict h

/-- A file outlives the budget when the older ones are enough for it. -/
theorem contentAt_evict_of_spared {maxBytes : Nat} {es : List (Path × File)} {left : Nat}
    (h : left ≤ maxBytes + ((es.takeWhile fun e => e.1 ≠ path).map fun e => e.2.size).sum) :
    contentAt path (evict maxBytes es left files) = contentAt path files := by
  induction es generalizing left files with
  | nil => rfl
  | cons e es ih =>
    rw [evict]
    split
    · rfl
    · rename_i hleft
      by_cases hpath : e.1 = path
      · rw [List.takeWhile_cons_of_neg (by simpa using hpath)] at h
        exact absurd h hleft
      · rw [List.takeWhile_cons_of_pos (by simpa using hpath), List.map_cons, List.sum_cons] at h
        rw [ih (by omega), contentAt_erase, if_neg (Ne.symm hpath)]

end contents

/-! ## What the index says -/

section index

variable {files : Files} {name digest : String} {now : Time} {n d : String}

theorem hasBlob_iff : hasBlob n d files = true ↔ d ∈ (((loadIndex files).get? n).getD Dict.empty).values "blobs" := by
  unfold hasBlob
  cases (loadIndex files).get? n with
  | none => simp [RepositoryEntry.values]
  | some entry => simp

theorem loadIndex_saveIndex {index : Index} : loadIndex (saveIndex index now files) = index := by
  rw [loadIndex, contentAt_saveIndex, if_pos rfl]

/-- The index is a file of its own. -/
theorem hasBlob_congr {files' : Files} (h : contentAt .index files' = contentAt .index files) : hasBlob n d files' = hasBlob n d files := by
  rw [hasBlob, hasBlob, loadIndex, loadIndex, h]

/-- What the index says after some files are gone, it said before. -/
theorem hasBlob_of_fewer {files' : Files} (h : ∀ content, contentAt .index files' = some content → contentAt .index files = some content)
    (hblob : hasBlob n d files' = true) : hasBlob n d files = true := by
  cases hindex : contentAt .index files' with
  | none =>
    rw [hasBlob, loadIndex, hindex] at hblob
    cases hblob
  | some content =>
    rw [hasBlob_congr (hindex.trans (h content hindex).symm)] at hblob
    exact hblob

theorem values_set {entry : RepositoryEntry} {key key' : String} {values : List String} :
    RepositoryEntry.values (entry.set key values) key' = if key' = key then values else entry.values key' := by
  rw [RepositoryEntry.values, Dict.get?_set]
  split
  · rfl
  · rfl

theorem values_setDefault {entry : RepositoryEntry} {key key' : String} : (entry.setDefault key).values key' = entry.values key' := by
  rw [RepositoryEntry.setDefault, values_set]
  split
  · rename_i heq
    rw [heq]
  · rfl

theorem mem_values_append {entry : RepositoryEntry} {key key' value x : String} :
    x ∈ (entry.append key value).values key' ↔ x ∈ entry.values key' ∨ key' = key ∧ x = value := by
  unfold RepositoryEntry.append
  split
  · rename_i hmem
    refine ⟨.inl, fun h => ?_⟩
    rcases h with h | ⟨rfl, rfl⟩
    · exact h
    · exact hmem
  · rw [values_set]
    split
    · rename_i heq
      rw [List.mem_append, List.mem_singleton, heq]
      simp
    · rename_i hne
      simp [hne]

theorem mem_values_foldl {blobs : List String} {entry : RepositoryEntry} {x : String} :
    x ∈ (blobs.foldl (fun entry blob => entry.append "blobs" blob) entry).values "blobs" ↔
      x ∈ entry.values "blobs" ∨ x ∈ blobs := by
  induction blobs generalizing entry with
  | nil => simp
  | cons blob blobs ih =>
    rw [List.foldl_cons, ih, mem_values_append, List.mem_cons]
    simp only [true_and, or_assoc]

/-- `record_manifest` links the blobs to the repository, and keeps every link. -/
theorem hasBlob_recordManifest {reference : String} {blobs : List String} :
    hasBlob n d (recordManifest name reference digest blobs now files) = true ↔
      hasBlob n d files = true ∨ n = name ∧ d ∈ blobs := by
  rw [hasBlob_iff, hasBlob_iff, recordManifest, loadIndex_saveIndex, Dict.get?_set]
  split
  · rename_i heq
    rw [heq, Option.getD_some, mem_values_foldl]
    have hreference (entry : RepositoryEntry) :
        d ∈ (if isDigest reference then entry.append "digests" digest else entry.append "tags" reference).values "blobs" ↔
          d ∈ entry.values "blobs" := by
      split
      · rw [mem_values_append]
        simp
      · rw [mem_values_append]
        simp
    rw [hreference, values_setDefault, values_setDefault, values_setDefault]
    simp
  · rename_i hne
    simp [hne]

/-- `record_blob` links the blob to the repository, and keeps every link. -/
theorem hasBlob_recordBlob : hasBlob n d (recordBlob name digest now files) = true ↔
    hasBlob n d files = true ∨ n = name ∧ d = digest := by
  unfold recordBlob
  simp only
  split
  · rename_i hmem
    refine ⟨.inl, fun h => ?_⟩
    rcases h with h | ⟨rfl, rfl⟩
    · exact h
    · exact hasBlob_iff.2 hmem
  · rw [hasBlob_iff, hasBlob_iff, loadIndex_saveIndex, Dict.get?_set]
    split
    · rename_i heq
      rw [heq, Option.getD_some, values_set, if_pos rfl, List.mem_append, List.mem_singleton]
      simp
    · rename_i hne
      simp [hne]

theorem contentAt_recordManifest {reference : String} {blobs : List String} {key : String} :
    contentAt (.entry key) (recordManifest name reference digest blobs now files) = contentAt (.entry key) files := by
  rw [recordManifest, contentAt_saveIndex, if_neg (by simp)]

theorem contentAt_recordBlob {key : String} :
    contentAt (.entry key) (recordBlob name digest now files) = contentAt (.entry key) files := by
  unfold recordBlob
  simp only
  split
  · rfl
  · rw [contentAt_saveIndex, if_neg (by simp)]

end index

/-! ## Which texts are digests -/

/-- What the pattern reads, and the newline that its end allows. -/
def isDigestChar (c : Char) : Prop :=
  isLowerAlnum c = true ∨ isHex c = true ∨ isSeparator c = true ∨ c = ':' ∨ c = '\n'

theorem isDigest_chars {digest : String} (h : isDigest digest = true) : ∀ c ∈ digest.toList, isDigestChar c := by
  obtain ⟨groups, hcapture⟩ := Option.isSome_iff_exists.1 h
  obtain ⟨t, ht, -⟩ := Regex.exists_of_capture hcapture
  have hwithin : digestPattern.Within isDigestChar := by
    have hword : (Regex.some false (.char isLowerAlnum)).Within isDigestChar := ⟨fun c hc => .inl hc, fun c hc => .inl hc⟩
    have hhex : (Regex.char isHex).Within isDigestChar := fun c hc => .inr (.inl hc)
    refine ⟨hword, ⟨fun c hc => .inr (.inr (.inl hc)), hword⟩, fun c hc => ?_, Regex.within_atLeast hhex 32, trivial⟩
    exact .inr (.inr (.inr (.inl (of_decide_eq_true hc))))
  obtain ⟨pre, hpre, hrest⟩ := Regex.reads_of_within hwithin ht
  have hend : t.rest = [] ∨ t.rest = ['\n'] := by
    obtain ⟨_, -, h₁⟩ := Regex.mem_runs_seq.1 ht
    obtain ⟨_, -, h₂⟩ := Regex.mem_runs_seq.1 h₁
    obtain ⟨_, -, h₃⟩ := Regex.mem_runs_seq.1 h₂
    obtain ⟨_, -, h₄⟩ := Regex.mem_runs_seq.1 h₃
    obtain ⟨rfl, hend⟩ := Regex.mem_runs_dollar.1 h₄
    exact hend
  intro c hc
  rw [show digest.toList = pre ++ t.rest from hrest, List.mem_append] at hc
  rcases hc with hc | hc
  · exact hpre c hc
  · rcases hend with hend | hend
    · rw [hend] at hc
      exact absurd hc List.not_mem_nil
    · rw [hend, List.mem_singleton] at hc
      exact .inr (.inr (.inr (.inr hc)))

theorem not_isDigest_of_at {key : String} (h : '@' ∈ key.toList) : isDigest key = false := by
  by_contra hdigest
  rw [Bool.not_eq_false] at hdigest
  exact absurd (isDigest_chars hdigest '@' h) (by unfold isDigestChar; decide)

end OpenFish.Docker
