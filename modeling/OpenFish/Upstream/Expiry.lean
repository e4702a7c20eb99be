/-
Metadata expires: a read with a maximum age returns content no older than that, unless an earlier
read renewed the entry's one timestamp after the content was written.
-/
import OpenFish.Upstream.DiskCache
import Mathlib.Tactic.Linarith

namespace OpenFish.Upstream

open Lib

variable {sha256 : String → String} {maxBytes : Nat}

/-! ## What a history says about a path -/

/-- What an answered call says about one path. -/
inductive Use
  | written (at_ : Time)
  | read (at_ : Time)
  deriving DecidableEq, Repr

/-- The key a write stores under. -/
def Op.writes : Op → Option String
  | .putBytes k _ => some k
  | .putStream k _ => some k
  | .putResponse k _ => some k
  | .adopt k .. => some k
  | _ => none

/-- The key and the maximum age of a read. -/
def Op.reads : Op → Option (String × Option Time)
  | .get k maxAge => some (k, maxAge)
  | .openBytes k maxAge => some (k, maxAge)
  | _ => none

/-- A read that returned the entry. -/
def Answer.hit : Answer → Bool
  | .path p => p.isSome
  | .bytes b => b.isSome
  | .stored _ => false

def use (sha256 : String → String) (e : Event) (path : String) : Option Use :=
  match e.1.op.writes, e.1.op.reads with
  | some k, _ => if pathFor sha256 k = path then some (.written e.1.now) else none
  | none, some (k, _) => if pathFor sha256 k = path ∧ e.2.hit = true then some (.read e.1.now) else none
  | none, none => none

/-- When the content of a path was written, and when a read last returned it since. -/
structure Age where
  writtenAt : Time
  lastRead : Option Time := none
  deriving DecidableEq, Repr

def ageAfter : Option Use → Option Age → Option Age
  | none, age => age
  | some (.written t), _ => some { writtenAt := t }
  | some (.read t), age => age.map fun a => { a with lastRead := some t }

def age (sha256 : String → String) : List Event → String → Option Age
  | [], _ => none
  | e :: h, path => ageAfter (use sha256 e path) (age sha256 h path)

/-! ## What the claim is about -/

/-- A read with a maximum age returns no content written before that long ago. -/
def Fresh (sha256 : String → String) (maxBytes : Nat) (h : List Event) (disk : Disk) (c : Call) : Prop :=
  ∀ key maxAge, c.op.reads = some (key, some maxAge) → (step sha256 maxBytes disk c).1.hit = true →
    ∃ a, age sha256 h (pathFor sha256 key) = some a ∧ c.now - maxAge ≤ a.writtenAt

/-- A read with a maximum age does not meet an entry that is older, but was returned by a read within
that age. -/
def NotKeptFresh (sha256 : String → String) (h : List Event) (disk : Disk) (c : Call) : Prop :=
  ∀ key maxAge, c.op.reads = some (key, some maxAge) → (disk.get? (pathFor sha256 key)).isSome = true →
    ∀ a, age sha256 h (pathFor sha256 key) = some a → a.writtenAt < c.now - maxAge →
      ∀ t, a.lastRead = some t → t < c.now - maxAge

/-! ## One call -/

theorem get?_evict {es : List (String × CacheFile)} {left : Nat} {disk : Disk} {path : String} {f : CacheFile}
    (h : (evict maxBytes es left disk).get? path = some f) : disk.get? path = some f := by
  induction es generalizing left disk with
  | nil => exact h
  | cons e es ih =>
    unfold evict at h
    split at h
    · exact h
    · have := ih h
      rw [Dict.get?_erase] at this
      split at this
      · cases this
      · exact this

/-- Eviction leaves the files it keeps as they were. -/
theorem get?_enforceLimit {order : List String} {disk : Disk} {path : String} {f : CacheFile}
    (h : (enforceLimit maxBytes order disk).get? path = some f) : disk.get? path = some f := by
  unfold enforceLimit at h
  split at h
  · exact h
  · exact get?_evict h

theorem get?_store {key : String} {content : Bytes} {mtime : Time} {order : List String} {disk : Disk}
    {path : String} {f : CacheFile} (h : (store sha256 maxBytes key content mtime order disk).2.get? path = some f) :
    if path = pathFor sha256 key then f = ⟨content, mtime⟩ else disk.get? path = some f := by
  have := get?_enforceLimit h
  rw [Dict.get?_set] at this
  split at this
  · rename_i hp; rw [if_pos hp]; cases this; rfl
  · rename_i hp; rw [if_neg hp]; exact this

/-- A write leaves at its path a file no younger than the call, and the other files as they were. -/
theorem step_writes {disk : Disk} {c : Call} {key : String} (hw : c.op.writes = some key) {path : String}
    {f : CacheFile} (h : (step sha256 maxBytes disk c).2.get? path = some f) :
    if path = pathFor sha256 key then f.mtime ≤ c.now else disk.get? path = some f := by
  obtain ⟨op, now, order⟩ := c
  have hstore : ∀ content mtime, mtime ≤ now →
      (store sha256 maxBytes key content mtime order disk).2.get? path = some f →
      if path = pathFor sha256 key then f.mtime ≤ now else disk.get? path = some f := by
    intro content mtime hm hf
    have := get?_store hf
    split at this
    · rename_i hp; rw [if_pos hp, this]; exact hm
    · rename_i hp; rw [if_neg hp]; exact this
  cases op with
  | putBytes | putStream | putResponse => cases hw; exact hstore _ _ (le_refl _) h
  | adopt k source age => cases hw; exact hstore _ _ (sub_le_self now (Int.natCast_nonneg age)) h
  | get | openBytes => cases hw

/-- What a read does: it returns an entry within its age and renews the entry's time, or does nothing. -/
theorem get_cases (sha256 : String → String) (key : String) (maxAge : Option Time) (now : Time) (disk : Disk) :
    (∃ f, disk.get? (pathFor sha256 key) = some f ∧ maxAge.any (· < now - f.mtime) = false ∧
        get sha256 key maxAge now disk =
          (some (pathFor sha256 key), disk.set (pathFor sha256 key) { f with mtime := now })) ∨
      ((∀ f, disk.get? (pathFor sha256 key) = some f → maxAge.any (· < now - f.mtime) = true) ∧
        get sha256 key maxAge now disk = (none, disk)) := by
  cases hf : disk.get? (pathFor sha256 key) with
  | none => exact .inr ⟨fun f h => (by cases h), by simp [get, hf]⟩
  | some f =>
    cases ha : maxAge.any (· < now - f.mtime) with
    | true => exact .inr ⟨fun f' h => (by cases h; exact ha), by simp [get, hf, ha]⟩
    | false => exact .inl ⟨f, rfl, ha, by simp [get, hf, ha]⟩

theorem openBytes_eq (sha256 : String → String) (key : String) (maxAge : Option Time) (now : Time) (disk : Disk) :
    (openBytes sha256 key maxAge now disk).2 = (get sha256 key maxAge now disk).2 ∧
      (openBytes sha256 key maxAge now disk).1.isSome = (get sha256 key maxAge now disk).1.isSome := by
  refine ⟨rfl, ?_⟩
  rcases get_cases sha256 key maxAge now disk with ⟨f, -, -, h⟩ | ⟨-, h⟩
  · simp [openBytes, h, Dict.get?_set]
  · simp [openBytes, h]

theorem writes_or_reads (op : Op) : ¬ (op.writes = none ∧ op.reads = none) := by
  rintro ⟨hw, hr⟩
  cases op with
  | putBytes | putStream | putResponse | adopt => cases hw
  | get | openBytes => cases hr

/-- Both reads are `get`. -/
theorem step_reads (sha256 : String → String) (maxBytes : Nat) (disk : Disk) {c : Call} {key : String}
    {maxAge : Option Time} (hr : c.op.reads = some (key, maxAge)) :
    (step sha256 maxBytes disk c).1.hit = (get sha256 key maxAge c.now disk).1.isSome ∧
      (step sha256 maxBytes disk c).2 = (get sha256 key maxAge c.now disk).2 := by
  obtain ⟨op, now, order⟩ := c
  cases op with
  | get => cases hr; exact ⟨rfl, rfl⟩
  | openBytes =>
    cases hr
    obtain ⟨h2, h1⟩ := openBytes_eq sha256 key maxAge now disk
    exact ⟨h1, h2⟩
  | putBytes | putStream | putResponse | adopt => cases hr

/-! ## The timestamp -/

/-- The modification time of a file is when a read last returned it, or no later than its writing. -/
def Stamped (a : Age) (f : CacheFile) : Prop :=
  match a.lastRead with
  | some t => f.mtime = t
  | none => f.mtime ≤ a.writtenAt

/-- Every file was written, and is stamped by its history. -/
def AgeInv (sha256 : String → String) (h : List Event) (disk : Disk) : Prop :=
  ∀ path f, disk.get? path = some f → ∃ a, age sha256 h path = some a ∧ Stamped a f

theorem ageInv_step (h : List Event) (disk : Disk) (c : Call) (hi : AgeInv sha256 h disk) :
    AgeInv sha256 ((c, (step sha256 maxBytes disk c).1) :: h) (step sha256 maxBytes disk c).2 := by
  intro path f hf
  rw [age]
  cases hw : c.op.writes with
  | some key =>
    have hst := step_writes hw hf
    simp only [use, hw, eq_comm (b := path)]
    split at hst
    · rename_i hp
      rw [if_pos hp]; exact ⟨⟨c.now, none⟩, rfl, hst⟩
    · rename_i hp
      rw [if_neg hp]; exact hi path f hst
  | none =>
    cases hr : c.op.reads with
    | none => exact absurd ⟨hw, hr⟩ (writes_or_reads c.op)
    | some kr =>
      obtain ⟨key, maxAge⟩ := kr
      obtain ⟨hhit, hdisk⟩ := step_reads sha256 maxBytes disk hr
      simp only [use, hw, hr, hhit]
      rw [hdisk] at hf
      rcases get_cases sha256 key maxAge c.now disk with ⟨g, hg, -, heq⟩ | ⟨-, heq⟩
      · rw [heq] at hf ⊢
        rw [Dict.get?_set] at hf
        by_cases hp : path = pathFor sha256 key
        · -- the entry returned: it was written before, and is stamped with the read
          rw [if_pos hp] at hf; cases hf
          obtain ⟨a, ha, -⟩ := hi _ g hg
          rw [if_pos ⟨hp.symm, rfl⟩, hp, ha]
          exact ⟨_, rfl, rfl⟩
        · rw [if_neg hp] at hf
          rw [if_neg fun hc => hp hc.1.symm]; exact hi path f hf
      · rw [heq] at hf ⊢
        rw [if_neg fun hc => Bool.false_ne_true hc.2]; exact hi path f hf

theorem ageInv (cs : List Call) :
    AgeInv sha256 ((diskCache sha256 maxBytes).log cs) ((diskCache sha256 maxBytes).state cs) :=
  Machine.invariant (M := diskCache sha256 maxBytes) (fun _ _ h => by cases h) ageInv_step cs

/-- Where the files are stamped, a call is fresh exactly when it meets no entry kept fresh by a read. -/
theorem fresh_iff {h : List Event} {disk : Disk} (hi : AgeInv sha256 h disk) (c : Call) :
    Fresh sha256 maxBytes h disk c ↔ NotKeptFresh sha256 h disk c := by
  refine forall₂_congr fun key maxAge => imp_congr_right fun hr => ?_
  rw [(step_reads sha256 maxBytes disk hr).1]
  rcases get_cases sha256 key (some maxAge) c.now disk with ⟨f, hf, hage, heq⟩ | ⟨hstale, heq⟩
  · obtain ⟨a, ha, hst⟩ := hi _ f hf
    have hage' : c.now - f.mtime ≤ maxAge := by simpa using hage
    rw [heq, hf, ha]
    constructor
    · rintro hfresh - a' ha' hold
      cases ha'
      obtain ⟨a', ha', hle⟩ := hfresh rfl
      cases ha'; linarith
    · intro hkept _
      refine ⟨a, rfl, ?_⟩
      by_contra hold
      -- the file is within its age by its timestamp, so a read stamped it
      unfold Stamped at hst
      cases ht : a.lastRead with
      | none => rw [ht] at hst; dsimp only at hst; linarith
      | some t =>
        rw [ht] at hst
        have := hkept rfl a rfl (by linarith) t ht
        dsimp only at hst; linarith
  · rw [heq]
    refine iff_of_true (fun hc => (by cases hc)) fun hsome a ha hold t ht => ?_
    obtain ⟨f, hf⟩ := Option.isSome_iff_exists.1 hsome
    obtain ⟨a', ha', hst⟩ := hi _ f hf
    rw [ha] at ha'; cases ha'
    have hlt : maxAge < c.now - f.mtime := by simpa using hstale f hf
    unfold Stamped at hst
    rw [ht] at hst
    dsimp only at hst; linarith

/-! ## Every run -/

/-- Cached metadata expires: in a run of any calls, at any times, every read with a maximum age is fresh
if and only if no such read meets an entry that is older but was returned by a read within that age. -/
theorem fresh_iff_notKeptFresh (sha256 : String → String) (maxBytes : Nat) (cs : List Call) :
    (diskCache sha256 maxBytes).AllSteps (Fresh sha256 maxBytes) cs ↔
      (diskCache sha256 maxBytes).AllSteps (NotKeptFresh sha256) cs :=
  Machine.allSteps_congr (fun cs c => fresh_iff (ageInv cs) c) cs

/-- An index is put at 0 and read with a maximum age of 60 at 50 and again at 100 (read from the last
call to the first). -/
def popularIndex : List Call :=
  [⟨.get "index" (some 60), 100, []⟩, ⟨.get "index" (some 60), 50, []⟩, ⟨.putBytes "index" [1], 0, []⟩]

/-- The second read of `popularIndex` returns the index written 100 ago. -/
theorem popularIndex_not_fresh : ¬ (diskCache id 0).AllSteps (Fresh id 0) popularIndex := by
  intro h
  obtain ⟨a, ha, hle⟩ := h.1 "index" 60 rfl (by decide)
  have hage : age id ((diskCache id 0).log popularIndex.tail) (pathFor id "index") = some ⟨0, some 50⟩ := by decide
  rw [show age id ((diskCache id 0).log popularIndex.tail) (pathFor id "index") = some a from ha] at hage
  cases hage
  exact absurd hle (by decide)

end OpenFish.Upstream
