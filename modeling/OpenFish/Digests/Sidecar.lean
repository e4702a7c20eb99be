/-
Digests of files (`services/digest.py`): a cache in memory by the file's path and stat, and a sidecar file that is to
survive a restart. The record of a sidecar is split at its first colon, which is one of the stamp's.
-/
import OpenFish.Lib.Dict
import OpenFish.Lib.Text

namespace OpenFish.Digests

open Lib

/-! ## Records -/

/-- `_HEXDIGITS`. -/
def hexDigits : List Char := "0123456789abcdef".toList

/-- `_HEXLEN` hexadecimal digits. -/
def isDigest (s : String) : Bool := decide (s.length = 64) && s.toList.all fun c => decide (c ∈ hexDigits)

/-- A digest is 64 lowercase hexadecimal digits. -/
abbrev Digest := {s : String // isDigest s = true}

/-- The modification time in nanoseconds, and the size. -/
structure Stat where
  mtime : Int
  size : Nat
  deriving DecidableEq, Repr

/-- `_stamp`. -/
def stamp (st : Stat) : String := toString st.mtime ++ ":" ++ toString st.size

/-- What `_write_sidecar` writes. -/
def sidecarText (stamp : String) (digest : Digest) : String := stamp ++ ":" ++ digest.1

/-- A text as a digest, if it is one. -/
def digest? (s : String) : Option Digest := if h : isDigest s = true then some ⟨s, h⟩ else none

/-- `_read_sidecar` of a text: the stamp, unless the digest stands alone, and the digest. -/
def readSidecar (text : String) : Option (Option String × Digest) :=
  let text := Text.strip text
  match digest? text with
  | some digest => some (none, digest)
  | none =>
    match Text.partition ':' text with
    | (stamp, some rest) => (digest? rest).map fun digest => (some stamp, digest)
    | (_, none) => none

/-! ## The store -/

/-- The bytes that a file has at a stat: two contents of one file never share the time and the size. -/
structure Contents where
  bytes : String → Stat → List UInt8
  size : ∀ file st, (bytes file st).length = st.size

/-- The files' stats, the sidecars by the path of their file, and the digests in memory, the oldest first. -/
structure Store where
  files : Dict String Stat
  sidecars : Dict String String
  cache : Dict (String × Stat) Digest

/-- How a write of a sidecar ends: on a full disk it may be as it was, or empty. -/
inductive WriteEnd
  | written | untouched | truncated
  deriving DecidableEq, Repr

/-- `_CACHE_MAX`. -/
def cacheMax : Nat := 8192

/-- The entries without the first ones. -/
def dropOldest {κ ν : Type} [DecidableEq κ] (d : Dict κ ν) (n : Nat) : Dict κ ν where
  entries := d.entries.drop n
  nodup := d.nodup.sublist ((List.drop_sublist n d.entries).map Prod.fst)

/-- `_remember`. -/
def Store.remember (σ : Store) (key : String × Stat) (digest : Digest) : Store :=
  let cache := σ.cache.set key digest
  { σ with cache := dropOldest cache (cache.entries.length - cacheMax) }

/-- `_write_sidecar`. -/
def Store.writeSidecar (σ : Store) (path : String) (st : Stat) (digest : Digest) : WriteEnd → Store
  | .written => { σ with sidecars := σ.sidecars.set path (sidecarText (stamp st) digest) }
  | .untouched => σ
  | .truncated => { σ with sidecars := σ.sidecars.set path "" }

section Operations

/- What a path leads to, and the hash. -/
variable (resolve : String → String) (sha256 : List UInt8 → Digest) (C : Contents)

/-- `path.stat()`. -/
def Store.stat (σ : Store) (path : String) : Option Stat := σ.files.get? (resolve path)

/-- The digest that is right for a file at a stat. -/
def digestOf (file : String) (st : Stat) : Digest := sha256 (C.bytes file st)

/-- What `sha256_or_none` answers, whether it has read the file, and the store after it. -/
structure Answer where
  digest : Option String
  readFile : Bool
  store : Store

/-- The file is read, if it can be, and the sidecar is written. -/
def Store.hash (σ : Store) (path : String) (st : Stat) (readable : Bool) (write : WriteEnd) : Answer :=
  if readable = true then
    let digest := digestOf sha256 C (resolve path) st
    ⟨some digest.1, true, (σ.remember (resolve path, st) digest).writeSidecar path st digest write⟩
  else ⟨none, true, σ⟩

/-- `sha256_or_none(path, sidecar=True)`. -/
def Store.sha256OrNone (σ : Store) (path : String) (readable : Bool) (write : WriteEnd) : Answer :=
  match σ.stat resolve path with
  | none => ⟨none, false, σ⟩
  | some st =>
    match σ.cache.get? (resolve path, st) with
    | some cached => ⟨some cached.1, false, σ⟩
    | none =>
      match (σ.sidecars.get? path).bind readSidecar with
      | none => σ.hash resolve sha256 C path st readable write
      | some (recorded, digest) =>
        let remembered := σ.remember (resolve path, st) digest
        if recorded = some (stamp st) then ⟨some digest.1, false, remembered⟩
        else if recorded = none then ⟨some digest.1, false, remembered.writeSidecar path st digest write⟩
        else σ.hash resolve sha256 C path st readable write

/-- `store_digest` of the file's digest. -/
def Store.storeDigest (σ : Store) (path : String) (write : WriteEnd) : Store :=
  match σ.stat resolve path with
  | none => σ
  | some st =>
    let digest := digestOf sha256 C (resolve path) st
    (σ.remember (resolve path, st) digest).writeSidecar path st digest write

/-- `invalidate_digest_cache`. -/
def Store.invalidate (σ : Store) (path : String) : Store :=
  { σ with
    cache := σ.cache.keep fun key _ => decide (key.1 ≠ resolve path)
    sidecars := σ.sidecars.erase path }

/-! ## Runs -/

inductive Op
  | store (path : String) (write : WriteEnd)
  | query (path : String) (readable : Bool) (write : WriteEnd)
  | invalidate (path : String)
  | replace (file : String) (st : Stat)
  | delete (file : String)
  | restart

def Store.step (σ : Store) : Op → Store
  | .store path write => σ.storeDigest resolve sha256 C path write
  | .query path readable write => (σ.sha256OrNone resolve sha256 C path readable write).store
  | .invalidate path => σ.invalidate resolve path
  | .replace file st => { σ with files := σ.files.set file st }
  | .delete file => { σ with files := σ.files.erase file }
  | .restart => { σ with cache := Dict.empty }

def Store.run (σ : Store) (ops : List Op) : Store := ops.foldl (Store.step resolve sha256 C) σ

end Operations

/-! ## What is written is never read back -/

theorem chars_int (n : Int) : ∀ c ∈ (toString n).toList, c.isDigit = true ∨ c = '-' := by
  intro c hc
  cases n with
  | ofNat n => exact .inl (Text.isDigit_of_mem_toString hc)
  | negSucc n =>
    have htext : toString (Int.negSucc n) = "-" ++ toString (n + 1) := rfl
    rw [htext, String.toList_append] at hc
    rcases List.mem_append.1 hc with hc | hc
    · exact .inr (List.mem_singleton.1 hc)
    · exact .inl (Text.isDigit_of_mem_toString hc)

theorem isSpace_of_mem_hexDigits {c : Char} (h : c ∈ hexDigits) : Text.isSpace c = false := by
  have hall : hexDigits.all (fun c => !Text.isSpace c) = true := by decide
  simpa using List.all_eq_true.1 hall c h

theorem Digest.length (d : Digest) : d.1.length = 64 := by
  have h := d.2
  simp only [isDigest, Bool.and_eq_true, decide_eq_true_eq] at h
  exact h.1

theorem Digest.chars (d : Digest) : ∀ c ∈ d.1.toList, c ∈ hexDigits := by
  have h := d.2
  simp only [isDigest, Bool.and_eq_true, List.all_eq_true, decide_eq_true_eq] at h
  exact h.2

theorem digest?_eq_none {s : String} (h : s.length ≠ 64) : digest? s = none := by
  have hno : isDigest s ≠ true := by simp [isDigest, h]
  exact dif_neg hno

/-- The record, by its first colon. -/
theorem sidecarText_eq (st : Stat) (d : Digest) : sidecarText (stamp st) d =
    toString st.mtime ++ String.singleton ':' ++ (toString st.size ++ ":" ++ d.1) := by
  rw [sidecarText, stamp, String.append_assoc, String.append_assoc, String.append_assoc, String.append_assoc,
    String.append_assoc]
  rfl

theorem isSpace_sidecarText (st : Stat) (d : Digest) :
    ∀ c ∈ (sidecarText (stamp st) d).toList, Text.isSpace c = false := by
  intro c hc
  simp only [sidecarText, stamp, String.toList_append, List.mem_append] at hc
  rcases hc with (((hc | hc) | hc) | hc) | hc
  · rcases chars_int st.mtime c hc with hdigit | rfl
    · exact Text.isSpace_of_isDigit hdigit
    · decide
  · rw [List.mem_singleton.1 hc]
    decide
  · exact Text.isSpace_of_isDigit (Text.isDigit_of_mem_toString hc)
  · rw [List.mem_singleton.1 hc]
    decide
  · exact isSpace_of_mem_hexDigits (d.chars c hc)

/-- What follows the first colon is longer than a digest: the size and the second colon are before it. -/
theorem readSidecar_sidecarText (st : Stat) (d : Digest) : readSidecar (sidecarText (stamp st) d) = none := by
  have hstrip : Text.strip (sidecarText (stamp st) d) = sidecarText (stamp st) d :=
    Text.strip_of_forall (isSpace_sidecarText st d)
  have hcolon : ':' ∉ (toString st.mtime).toList := by
    intro hc
    rcases chars_int st.mtime ':' hc with hdigit | heq
    · exact absurd hdigit (by decide)
    · exact absurd heq (by decide)
  have hlength : (sidecarText (stamp st) d).length ≠ 64 := by
    rw [sidecarText_eq]
    simp only [String.length_append, d.length, String.length_singleton]
    omega
  have hrest : (toString st.size ++ ":" ++ d.1).length ≠ 64 := by
    have hone : (":" : String).length = 1 := rfl
    simp only [String.length_append, d.length, hone]
    omega
  unfold readSidecar
  dsimp only
  rw [hstrip, digest?_eq_none hlength]
  dsimp only
  rw [sidecarText_eq, Text.partition_append hcolon]
  dsimp only
  rw [digest?_eq_none hrest]
  rfl

theorem readSidecar_empty : readSidecar "" = none := by decide +kernel

/-! ## What holds in every run -/

section Runs

variable {resolve : String → String} {sha256 : List UInt8 → Digest} {C : Contents}

/-- Every digest in memory is right, and every sidecar is a record that this code wrote, or empty. -/
structure Store.Sound (sha256 : List UInt8 → Digest) (C : Contents) (σ : Store) : Prop where
  cache : ∀ file st d, σ.cache.get? (file, st) = some d → d = digestOf sha256 C file st
  sidecars : ∀ path text, σ.sidecars.get? path = some text → text = "" ∨ ∃ st d, text = sidecarText (stamp st) d

theorem get?_dropOldest {κ ν : Type} [DecidableEq κ] {d : Dict κ ν} {n : Nat} {k : κ} {v : ν}
    (h : (dropOldest d n).get? k = some v) : d.get? k = some v := by
  rw [Dict.get?_eq_some] at h ⊢
  exact List.mem_of_mem_drop h

variable {σ : Store}

theorem cache_remember (σ : Store) (key : String × Stat) (d : Digest) : (σ.remember key d).cache =
    dropOldest (σ.cache.set key d) ((σ.cache.set key d).entries.length - cacheMax) := by
  rw [Store.remember]

theorem sidecars_remember (σ : Store) (key : String × Stat) (d : Digest) : (σ.remember key d).sidecars = σ.sidecars := by
  rw [Store.remember]

theorem Store.Sound.remember (h : σ.Sound sha256 C) (file : String) (st : Stat) :
    (σ.remember (file, st) (digestOf sha256 C file st)).Sound sha256 C := by
  constructor
  · intro file' st' d hd
    rw [cache_remember] at hd
    have hset := get?_dropOldest hd
    rw [Dict.get?_set] at hset
    split at hset
    · rename_i hkey
      cases hkey
      exact (Option.some.inj hset).symm
    · exact h.cache file' st' d hset
  · intro path text htext
    rw [sidecars_remember] at htext
    exact h.sidecars path text htext

theorem Store.Sound.writeSidecar (h : σ.Sound sha256 C) (path : String) (st : Stat) (d : Digest) (write : WriteEnd) :
    (σ.writeSidecar path st d write).Sound sha256 C := by
  cases write with
  | untouched => exact h
  | written =>
    refine ⟨h.cache, fun path' text htext => ?_⟩
    change (σ.sidecars.set path _).get? path' = some text at htext
    rw [Dict.get?_set] at htext
    split at htext
    · exact .inr ⟨st, d, (Option.some.inj htext).symm⟩
    · exact h.sidecars path' text htext
  | truncated =>
    refine ⟨h.cache, fun path' text htext => ?_⟩
    change (σ.sidecars.set path _).get? path' = some text at htext
    rw [Dict.get?_set] at htext
    split at htext
    · exact .inl (Option.some.inj htext).symm
    · exact h.sidecars path' text htext

/-- No sidecar of a run is ever read. -/
theorem Store.Sound.unread (h : σ.Sound sha256 C) (path : String) : (σ.sidecars.get? path).bind readSidecar = none := by
  cases htext : σ.sidecars.get? path with
  | none => rfl
  | some text =>
    rw [Option.bind_some]
    rcases h.sidecars path text htext with rfl | ⟨st, d, rfl⟩
    · exact readSidecar_empty
    · exact readSidecar_sidecarText st d

/-- A query of a file answers from memory, or it reads the file. -/
theorem Store.Sound.sha256OrNone_eq (h : σ.Sound sha256 C) {path : String} {st : Stat} (hst : σ.stat resolve path = some st)
    (readable : Bool) (write : WriteEnd) :
    σ.sha256OrNone resolve sha256 C path readable write =
      if σ.cache.has (resolve path, st) = true then ⟨some (digestOf sha256 C (resolve path) st).1, false, σ⟩
      else σ.hash resolve sha256 C path st readable write := by
  rw [sha256OrNone, hst]
  dsimp only
  rw [h.unread]
  unfold Dict.has
  cases hcached : σ.cache.get? (resolve path, st) with
  | none => rfl
  | some cached =>
    dsimp only
    rw [h.cache _ _ _ hcached]
    rfl

theorem Store.Sound.hash (h : σ.Sound sha256 C) (path : String) (st : Stat) (readable : Bool) (write : WriteEnd) :
    (σ.hash resolve sha256 C path st readable write).store.Sound sha256 C := by
  unfold Store.hash
  cases readable with
  | false => exact h
  | true => exact (h.remember (resolve path) st).writeSidecar path st _ write

theorem Store.Sound.step (h : σ.Sound sha256 C) (op : Op) : (σ.step resolve sha256 C op).Sound sha256 C := by
  cases op with
  | store path write =>
    change (σ.storeDigest resolve sha256 C path write).Sound sha256 C
    unfold Store.storeDigest
    split
    · exact h
    · exact (h.remember (resolve path) _).writeSidecar path _ _ write
  | query path readable write =>
    change (σ.sha256OrNone resolve sha256 C path readable write).store.Sound sha256 C
    cases hst : σ.stat resolve path with
    | none =>
      rw [Store.sha256OrNone, hst]
      exact h
    | some st =>
      rw [h.sha256OrNone_eq hst]
      split
      · exact h
      · exact h.hash path st readable write
  | invalidate path =>
    refine ⟨fun file st d hd => ?_, fun path' text htext => ?_⟩
    · change (σ.cache.keep _).get? _ = some d at hd
      rw [Dict.get?_keep] at hd
      exact h.cache file st d (Option.filter_eq_some_iff.1 hd).1
    · change (σ.sidecars.erase path).get? path' = some text at htext
      rw [Dict.get?_erase] at htext
      split at htext
      · cases htext
      · exact h.sidecars path' text htext
  | replace file st => exact ⟨h.cache, h.sidecars⟩
  | delete file => exact ⟨h.cache, h.sidecars⟩
  | restart => exact ⟨fun file st d hd => (by cases hd), h.sidecars⟩

/-- Some files, no sidecar, and nothing in memory. -/
def Store.initial (files : Dict String Stat) : Store := ⟨files, Dict.empty, Dict.empty⟩

theorem Store.sound_run (files : Dict String Stat) (ops : List Op) :
    ((Store.initial files).run resolve sha256 C ops).Sound sha256 C := by
  have hinitial : (Store.initial files).Sound sha256 C :=
    ⟨fun file st d hd => (by cases hd), fun path text htext => (by cases htext)⟩
  generalize Store.initial files = σ at hinitial
  induction ops generalizing σ with
  | nil => exact hinitial
  | cons op ops ih => exact ih _ (hinitial.step op)

end Runs

/-- No record of a stamp and a digest is ever read back. So in every run, whatever sidecars there are, a query of a file
that can be read answers with the digest of its bytes, and it reads the file exactly when it has no digest in memory. -/
theorem sidecars_never_read (resolve : String → String) (sha256 : List UInt8 → Digest) (C : Contents) :
    (∀ st d, readSidecar (sidecarText (stamp st) d) ≠ some (some (stamp st), d)) ∧
      ∀ (files : Dict String Stat) (ops : List Op) (path : String) (write : WriteEnd) (σ : Store),
        σ = (Store.initial files).run resolve sha256 C ops →
        ∀ st, σ.stat resolve path = some st →
          (σ.sha256OrNone resolve sha256 C path true write).digest = some (sha256 (C.bytes (resolve path) st)).1 ∧
            ((σ.sha256OrNone resolve sha256 C path true write).readFile = true ↔
              σ.cache.has (resolve path, st) = false) := by
  refine ⟨fun st d h => ?_, ?_⟩
  · rw [readSidecar_sidecarText] at h
    cases h
  · rintro files ops path write σ rfl st hst
    rw [(Store.sound_run files ops).sha256OrNone_eq hst]
    cases hcached : ((Store.initial files).run resolve sha256 C ops).cache.has (resolve path, st) with
    | true => exact ⟨rfl, by simp⟩
    | false => exact ⟨rfl, by simp [Store.hash]⟩

/-- A digest of zeros only. -/
def zeros : Digest := ⟨"0000000000000000000000000000000000000000000000000000000000000000", by decide +kernel⟩

/-- Files of zeros. -/
def zeroContents : Contents where
  bytes _ st := List.replicate st.size 0
  size _ _ := List.length_replicate

/-- A file that is stored, and the sidecar that this writes. -/
def storedStore : Store where
  files := Dict.empty.set "a.whl" ⟨7, 3⟩
  sidecars := Dict.empty.set "a.whl" (sidecarText "7:3" zeros)
  cache := Dict.empty

/-- After a restart, with the sidecar of its current stat beside it, the file is read. -/
theorem sidecar_ignored_after_restart :
    (Store.initial (Dict.empty.set "a.whl" ⟨7, 3⟩)).run id (fun _ => zeros) zeroContents [.store "a.whl" .written, .restart] =
        storedStore ∧
      readSidecar (sidecarText (stamp ⟨7, 3⟩) zeros) = none ∧
      (storedStore.sha256OrNone id (fun _ => zeros) zeroContents "a.whl" true .written).readFile = true := by
  have hstamp : stamp ⟨7, 3⟩ = "7:3" := by decide +kernel
  have hrun : (Store.initial (Dict.empty.set "a.whl" ⟨7, 3⟩)).run id (fun _ => zeros) zeroContents
      [.store "a.whl" .written, .restart] = storedStore := by
    rw [storedStore, ← hstamp]
    rfl
  have hsound : storedStore.Sound (fun _ => zeros) zeroContents := hrun ▸ Store.sound_run _ _
  have hstat : storedStore.stat id "a.whl" = some ⟨7, 3⟩ := Dict.get?_set ..
  refine ⟨hrun, readSidecar_sidecarText _ _, ?_⟩
  rw [hsound.sha256OrNone_eq hstat]
  rfl

end OpenFish.Digests
