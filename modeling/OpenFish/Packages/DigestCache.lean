/-
The digest cache of `services/digest.py` for one file of the package tree, step by step: uploads that replace the
file and record its digest, `compute_sha256`, and the watchdog's invalidation.
-/
import OpenFish.Lib.Interleave
import OpenFish.Lib.Text

namespace OpenFish.Packages

open Lib

/-! ## Sidecars -/

/-- The stat a digest is valid for. -/
structure Stamp where
  mtimeNs : Nat
  size : Nat
  deriving DecidableEq, Repr

def hexLen : Nat := 64

def hexDigits : List Char := "0123456789abcdef".toList

def isDigest (text : String) : Bool := text.toList.length = hexLen ∧ text.toList.all (· ∈ hexDigits)

/-- `_stamp`. -/
def stampText (st : Stamp) : String := toString st.mtimeNs ++ ":" ++ toString st.size

/-- What `_write_sidecar` writes. -/
def sidecarText (st : Stamp) (digest : String) : String := stampText st ++ ":" ++ digest

/-- `_read_sidecar`: the stamp, absent in the legacy form, and the digest. -/
def readSidecar (text : String) : Option (Option String × String) :=
  let text := Text.strip text
  if isDigest text then some (none, text)
  else
    match Text.partition ':' text with
    | (stamp, some digest) => if isDigest digest then some (some stamp, digest) else none
    | (_, none) => none

theorem not_isDigest {text : String} (h : 0 < text.toList.count ':') : isDigest text = false := by
  rw [isDigest, decide_eq_false_iff_not]
  rintro ⟨-, hall⟩
  have := List.all_eq_true.1 hall ':' (List.count_pos_iff.1 h)
  exact absurd this (by decide)

theorem count_partition {text stamp rest : String} (h : Text.partition ':' text = (stamp, some rest)) :
    stamp.toList.count ':' = 0 ∧ text.toList.count ':' = rest.toList.count ':' + 1 := by
  unfold Text.partition at h
  split at h
  · cases h
  · rename_i c tail htail
    cases h
    have hzero : (text.toList.takeWhile (· ≠ ':')).count ':' = 0 := List.count_eq_zero.2 fun hmem => by
      simpa using List.mem_takeWhile_imp hmem
    have hc : c = ':' := by
      have := List.head?_dropWhile_not (· ≠ ':') text.toList
      rw [htail] at this
      simpa using this
    refine ⟨by rw [String.toList_ofList]; exact hzero, ?_⟩
    conv_lhs => rw [← List.takeWhile_append_dropWhile (p := (· ≠ ':')) (l := text.toList), List.count_append, hzero,
      htail, hc, List.count_cons_self]
    rw [String.toList_ofList, Nat.zero_add]

/-- A sidecar that the code has written is never read back: a stamp has a colon of its own, so what stands after
the first colon of the text is no digest. -/
theorem readSidecar_sidecarText (st : Stamp) (digest : String) : readSidecar (sidecarText st digest) = none := by
  have hcolons : 2 ≤ (Text.strip (sidecarText st digest)).toList.count ':' := by
    rw [Text.count_strip (by decide), sidecarText, stampText]
    simp only [String.toList_append, List.count_append]
    have hcolon : (":" : String).toList.count ':' = 1 := by decide
    omega
  unfold readSidecar
  dsimp only
  rw [not_isDigest (by omega), if_neg Bool.false_ne_true]
  split
  · rename_i stamp rest hpartition
    have := (count_partition hpartition).2
    rw [not_isDigest (by omega), if_neg Bool.false_ne_true]
  · rfl

/-- The stamp of a sidecar that can be read is no stamp of a stat. -/
theorem readSidecar_stamp {text stamp digest : String} (h : readSidecar text = some (some stamp, digest)) (st : Stamp) :
    stamp ≠ stampText st := by
  unfold readSidecar at h
  dsimp only at h
  split at h
  · cases h
  · split at h
    · rename_i hpartition
      split at h
      · cases h
        rintro rfl
        have hzero := (count_partition hpartition).1
        have hcolon : (":" : String).toList.count ':' = 1 := by decide
        rw [stampText] at hzero
        simp only [String.toList_append, List.count_append] at hzero
        omega
      · cases h
    · cases h

/-! ## Uploads, reads and invalidations -/

/-- The file, its sidecar, and the cached digests of its stamps. -/
structure Shelf where
  file : Option Stamp
  sidecar : Option String
  cache : Stamp → Option String

/-- Where a call stands: an upload of the bytes with a stamp, a `compute_sha256`, or an invalidation. -/
inductive DigestCall
  | arriving (st : Stamp)
  /-- In `store_digest`, before its stat. -/
  | renamed (st : Stamp)
  | recording (st cur : Stamp)
  | noting (st cur : Stamp)
  | stored
  | statting
  | looking (cur : Stamp)
  | peeking (cur : Stamp)
  /-- The sidecar is in the legacy form. -/
  | adopting (cur : Stamp) (digest : String)
  | trusting (cur : Stamp) (digest : String)
  | opening (cur : Stamp)
  /-- In `sha256_of`: the open file keeps the bytes it had. -/
  | hashing (cur opened : Stamp)
  | keeping (cur opened : Stamp)
  | writing (cur : Stamp) (digest : String)
  | returned (digest : String)
  | failed
  | forgetting
  | unlinking
  | forgotten
  deriving DecidableEq, Repr

inductive DigestRequest
  | upload (st : Stamp)
  | computeSha256
  | invalidate
  deriving DecidableEq, Repr

def DigestRequest.enter : DigestRequest → DigestCall
  | .upload st => .arriving st
  | .computeSha256 => .statting
  | .invalidate => .forgetting

/-- `_remember`. -/
def Shelf.remember (s : Shelf) (st : Stamp) (digest : String) : Shelf :=
  { s with cache := fun t => if t = st then some digest else s.cache t }

/-- `_write_sidecar`, which passes over a disk that refuses. -/
def Shelf.writeSidecar (s : Shelf) (st : Stamp) (digest : String) (accepted : Bool) : Shelf :=
  if accepted then { s with sidecar := some (sidecarText st digest) } else s

variable (contentOf : Stamp → List UInt8) (sha256 : List UInt8 → String)

/-- One step; `accepted` says whether the disk takes a write or an unlink. -/
def digestStep (s : Shelf) (k : DigestCall) (accepted : Bool) : Shelf × DigestCall :=
  match k with
  | .arriving st => ({ s with file := some st }, .renamed st)
  | .renamed st =>
    match s.file with
    | none => (s, .stored)
    | some cur => (s, .recording st cur)
  | .recording st cur => (s.remember cur (sha256 (contentOf st)), .noting st cur)
  | .noting st cur => (s.writeSidecar cur (sha256 (contentOf st)) accepted, .stored)
  | .statting =>
    match s.file with
    | none => (s, .failed)
    | some cur => (s, .looking cur)
  | .looking cur =>
    match s.cache cur with
    | some digest => (s, .returned digest)
    | none => (s, .peeking cur)
  | .peeking cur =>
    match s.sidecar.bind readSidecar with
    | some (none, digest) => (s, .adopting cur digest)
    | some (some stamp, digest) => (s, if stamp = stampText cur then .trusting cur digest else .opening cur)
    | none => (s, .opening cur)
  | .adopting cur digest => (s.remember cur digest, .writing cur digest)
  | .trusting cur digest => (s.remember cur digest, .returned digest)
  | .opening cur =>
    match s.file with
    | none => (s, .failed)
    | some opened => (s, .hashing cur opened)
  | .hashing cur opened =>
    match s.cache cur with
    | some digest => (s, .writing cur digest)
    | none => (s, .keeping cur opened)
  | .keeping cur opened => (s.remember cur (sha256 (contentOf opened)), .writing cur (sha256 (contentOf opened)))
  | .writing cur digest => (s.writeSidecar cur digest accepted, .returned digest)
  | .forgetting => ({ s with cache := fun _ => none }, .unlinking)
  | .unlinking => (if accepted then { s with sidecar := none } else s, .forgotten)
  | .stored | .returned _ | .failed | .forgotten => (s, k)

/-- The file as the server finds it: a sidecar in the legacy form is that of the stored bytes. -/
structure Tree where
  file : Option Stamp
  sidecar : Option String
  legacy : ∀ digest, sidecar.bind readSidecar = some (none, digest) → ∀ st ∈ file, digest = sha256 (contentOf st)

variable {contentOf sha256} in
/-- Any number of calls about one file. Other files' digests may push out any of its own. -/
def digests (tree : Tree contentOf sha256) : Program Shelf DigestCall DigestRequest Bool Stamp where
  start := ⟨tree.file, tree.sidecar, fun _ => none⟩
  enter _ := DigestRequest.enter
  step := digestStep contentOf sha256
  other s st := { s with cache := fun t => if t = st then none else s.cache t }

end OpenFish.Packages
