/-
The byte budget of the cache: a write removes the least recently used files, as many as it takes and no more, and keeps
its own file where that is the newest and fits.
-/
import OpenFish.Upstream.DiskCache

namespace OpenFish.Upstream

open Lib

variable {maxBytes : Nat}

/-! ## What the claim is about -/

/-- The bytes of some files. -/
def bytesOf (files : List (String × CacheFile)) : Nat := (files.map fun e => e.2.content.length).sum

/-- The files of a disk, the least recently used first. -/
structure LeastRecentFirst (disk : Disk) (lru : List (String × CacheFile)) : Prop where
  perm : lru.Perm disk.entries
  sorted : lru.Pairwise fun e f => e.2.mtime ≤ f.2.mtime

/-- The disk fits the budget, and what was removed is the shortest beginning of the files in their order of use that
makes it fit. -/
structure Trimmed (maxBytes : Nat) (before after : Disk) : Prop where
  total : totalBytes after ≤ maxBytes
  evicted : ∃ lru k, LeastRecentFirst before lru ∧ after.entries.Perm (lru.drop k) ∧
    ∀ j < k, maxBytes < bytesOf (lru.drop j)

/-- A file under a path is younger than every other file. -/
def Newest (disk : Disk) (path : String) (file : CacheFile) : Prop :=
  ∀ path' file', disk.get? path' = some file' → path' ≠ path → file'.mtime < file.mtime

/-- The key of a write and the file it puts there. -/
def Call.put (c : Call) : Option (String × CacheFile) :=
  match c.op with
  | .putBytes key data => some (key, ⟨data, c.now⟩)
  | .putStream key chunks => some (key, ⟨chunks.flatten, c.now⟩)
  | .putResponse key body => some (key, ⟨body.flatten, c.now⟩)
  | .adopt key source age => some (key, ⟨source, c.now - age⟩)
  | _ => none

/-- A write returns the path of its key, leaves a disk that fits the budget, and its own file in it where that fits
and is the newest. -/
structure KeepsBudget (sha256 : String → String) (maxBytes : Nat) (disk : Disk) (c : Call) (key : String)
    (file : CacheFile) : Prop where
  path : (step sha256 maxBytes disk c).1 = .stored (pathFor sha256 key)
  trimmed : Trimmed maxBytes (disk.set (pathFor sha256 key) file) (step sha256 maxBytes disk c).2
  own : file.content.length ≤ maxBytes → Newest (disk.set (pathFor sha256 key) file) (pathFor sha256 key) file →
    (step sha256 maxBytes disk c).2.get? (pathFor sha256 key) = some file

/-! ## The loop -/

theorem bytesOf_cons (e : String × CacheFile) (es : List (String × CacheFile)) :
    bytesOf (e :: es) = e.2.content.length + bytesOf es := by
  simp [bytesOf]

theorem bytesOf_perm {es fs : List (String × CacheFile)} (h : es.Perm fs) : bytesOf es = bytesOf fs :=
  (h.map _).sum_nat

theorem totalBytes_eq (disk : Disk) : totalBytes disk = bytesOf disk.entries := rfl

/-- Without its first file a disk holds the others. -/
theorem perm_erase {disk : Disk} {e : String × CacheFile} {es : List (String × CacheFile)}
    (h : (e :: es).Perm disk.entries) : es.Perm (disk.erase e.1).entries := by
  have hkeys : ((e :: es).map Prod.fst).Nodup := (h.map Prod.fst).nodup_iff.2 disk.nodup
  have hne : ∀ f ∈ es, f.1 ≠ e.1 := by
    intro f hf heq
    rw [List.map_cons, List.nodup_cons] at hkeys
    exact hkeys.1 (heq ▸ List.mem_map_of_mem hf)
  have hfilter : (e :: es).filter (fun f => decide (f.1 ≠ e.1)) = es := by
    rw [List.filter_cons_of_neg (by simp)]
    exact List.filter_eq_self.2 fun f hf => decide_eq_true (hne f hf)
  have hperm := h.filter fun f => decide (f.1 ≠ e.1)
  rwa [hfilter] at hperm

theorem evict_spec (maxBytes : Nat) {es : List (String × CacheFile)} {disk : Disk} (h : es.Perm disk.entries) :
    ∃ k, (evict maxBytes es (bytesOf es) disk).entries.Perm (es.drop k) ∧ bytesOf (es.drop k) ≤ maxBytes ∧
      ∀ j < k, maxBytes < bytesOf (es.drop j) := by
  induction es generalizing disk with
  | nil => exact ⟨0, h.symm, Nat.zero_le _, fun j hj => absurd hj (Nat.not_lt_zero j)⟩
  | cons e es ih =>
    unfold evict
    by_cases hfits : bytesOf (e :: es) ≤ maxBytes
    · rw [if_pos hfits]
      exact ⟨0, h.symm, hfits, fun j hj => absurd hj (Nat.not_lt_zero j)⟩
    · rw [if_neg hfits, bytesOf_cons, Nat.add_sub_cancel_left]
      obtain ⟨k, hperm, htotal, hneeded⟩ := ih (perm_erase h)
      refine ⟨k + 1, hperm, htotal, fun j hj => ?_⟩
      cases j with
      | zero => exact Nat.lt_of_not_le hfits
      | succ j => exact hneeded j (Nat.lt_of_succ_lt_succ hj)

theorem trimmed_enforceLimit (hpos : 0 < maxBytes) (order : List String) (disk : Disk) :
    Trimmed maxBytes disk (enforceLimit maxBytes order disk) := by
  let listed := disk.entries.insertionSort fun e f => order.idxOf e.1 ≤ order.idxOf f.1
  let lru := listed.insertionSort fun e f => e.2.mtime ≤ f.2.mtime
  have hperm : lru.Perm disk.entries := (List.perm_insertionSort _ _).trans (List.perm_insertionSort _ _)
  have hsorted : lru.Pairwise fun e f => e.2.mtime ≤ f.2.mtime := by
    have : Std.Total fun e f : String × CacheFile => e.2.mtime ≤ f.2.mtime := ⟨fun e f => le_total _ _⟩
    have : IsTrans (String × CacheFile) fun e f => e.2.mtime ≤ f.2.mtime := ⟨fun _ _ _ => le_trans⟩
    exact List.pairwise_insertionSort _ _
  unfold enforceLimit
  by_cases hfits : totalBytes disk ≤ maxBytes
  · rw [if_pos (.inr hfits)]
    exact ⟨hfits, lru, 0, ⟨hperm, hsorted⟩, hperm.symm, fun j hj => absurd hj (Nat.not_lt_zero j)⟩
  · rw [if_neg (not_or.2 ⟨Nat.ne_of_gt hpos, hfits⟩), totalBytes_eq, ← bytesOf_perm hperm]
    obtain ⟨k, hleft, htotal, hneeded⟩ := evict_spec maxBytes hperm
    exact ⟨(bytesOf_perm hleft).trans_le htotal, lru, k, ⟨hperm, hsorted⟩, hleft, hneeded⟩

/-- The newest file is the last to go, so it stays where it fits. -/
theorem Trimmed.newest {before after : Disk} (h : Trimmed maxBytes before after) {path : String} {file : CacheFile}
    (hfile : before.get? path = some file) (hnewest : Newest before path file)
    (hfits : file.content.length ≤ maxBytes) : after.get? path = some file := by
  obtain ⟨lru, k, ⟨hperm, hsorted⟩, hleft, hneeded⟩ := h.evicted
  have hmem : (path, file) ∈ lru := hperm.mem_iff.2 (Dict.get?_eq_some.1 hfile)
  have hkeys : (lru.map Prod.fst).Nodup := (hperm.map Prod.fst).nodup_iff.2 before.nodup
  obtain ⟨i, hi, hat⟩ := List.getElem_of_mem hmem
  have hcut : lru.drop i = (path, file) :: lru.drop (i + 1) := by rw [List.drop_eq_getElem_cons hi, hat]
  -- nothing comes after it: that would be another file, and no older
  have hlast : lru.drop (i + 1) = [] := by
    rw [List.eq_nil_iff_forall_not_mem]
    intro e he
    have hafter := hsorted.sublist (List.drop_sublist i lru)
    have hdistinct := hkeys.sublist ((List.drop_sublist i lru).map Prod.fst)
    rw [hcut] at hafter hdistinct
    rw [List.map_cons, List.nodup_cons] at hdistinct
    have hold : file.mtime ≤ e.2.mtime := (List.pairwise_cons.1 hafter).1 e he
    have hne : e.1 ≠ path := fun heq => hdistinct.1 (List.mem_map.2 ⟨e, he, heq⟩)
    have hin : e ∈ before.entries := hperm.mem_iff.1 (List.mem_of_mem_drop he)
    exact absurd (hnewest e.1 e.2 (Dict.get?_eq_some.2 hin) hne) (not_lt.2 hold)
  have hkept : k ≤ i := by
    by_contra hlt
    have := hneeded i (Nat.lt_of_not_le hlt)
    rw [hcut, hlast, bytesOf_cons] at this
    exact absurd hfits (Nat.not_le.2 this)
  refine Dict.get?_eq_some.2 (hleft.mem_iff.2 ?_)
  refine (List.drop_sublist_drop_left lru hkept).subset ?_
  rw [hcut]
  exact List.mem_cons_self ..

/-! ## Every write -/

theorem step_put (sha256 : String → String) (maxBytes : Nat) (disk : Disk) {c : Call} {key : String} {file : CacheFile}
    (h : c.put = some (key, file)) :
    step sha256 maxBytes disk c =
      (.stored (pathFor sha256 key), enforceLimit maxBytes c.order (disk.set (pathFor sha256 key) file)) := by
  obtain ⟨op, now, order⟩ := c
  cases op with
  | putBytes => cases h; simp [step, putBytes, putStream, store, Prod.map]
  | putStream => cases h; rfl
  | putResponse => cases h; rfl
  | adopt => cases h; rfl
  | get => cases h
  | openBytes => cases h

/-- Every write of every body into every cache with a budget: the cache fits it afterwards, what was removed is the
shortest beginning of the files in the order they were used that makes it fit, and a body that fits and is the newest is
found under the path that the write returned. -/
theorem keeps_budget (sha256 : String → String) (maxBytes : Nat) (hpos : 0 < maxBytes) (disk : Disk) (c : Call)
    (key : String) (file : CacheFile) (h : c.put = some (key, file)) : KeepsBudget sha256 maxBytes disk c key file := by
  have hstep := step_put sha256 maxBytes disk h
  have htrimmed := trimmed_enforceLimit hpos c.order (disk.set (pathFor sha256 key) file)
  refine ⟨by rw [hstep], by rw [hstep]; exact htrimmed, fun hfits hnewest => ?_⟩
  rw [hstep]
  refine htrimmed.newest ?_ hnewest hfits
  rw [Dict.get?_set, if_pos rfl]

/-- Two bytes put into a cache of two, over an older file of one. -/
theorem keeps_budget_twoBytes :
    0 < 2 ∧ (Call.put ⟨.putBytes "b" [1, 2], 9, []⟩ = some ("b", ⟨[1, 2], 9⟩)) ∧
      KeepsBudget id 2 (Dict.empty.set "a/" ⟨[7], 4⟩) ⟨.putBytes "b" [1, 2], 9, []⟩ "b" ⟨[1, 2], 9⟩ :=
  ⟨by decide, rfl, keeps_budget id 2 (by decide) _ _ "b" _ rfl⟩

end OpenFish.Upstream
