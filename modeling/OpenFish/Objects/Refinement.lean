/-
The bucket refines the directory: after the same calls on keys of one segment, both stores answer alike. And the walk of
the bucket lists every store whose keys were put.
-/
import OpenFish.Lib.Words
import OpenFish.Objects.Walk

namespace OpenFish.Objects

open Lib
open Lib.Delimited (IsGroup Group Direct Dir)

/-! ## Segments -/

theorem Segment.spec {name : String} (h : Segment name) :
    name ≠ "" ∧ Text.startsWith "." name = false ∧ '/' ∉ name.toList := by
  unfold Segment Queue.singleSegment at h
  split at h
  · cases h
  · split at h
    · cases h
    · split at h
      · cases h
      · split at h
        · cases h
        · rename_i hne _ hdot hsep
          refine ⟨hne, Bool.eq_false_iff.2 hdot, fun hmem => hsep ?_⟩
          exact List.any_eq_true.2 ⟨'/', hmem, by decide⟩

theorem Segment.ne_dot {name : String} (h : Segment name) : name ≠ "." := fun heq => by
  have hdot := h.spec.2.1
  rw [heq] at hdot
  exact absurd hdot (by decide)

theorem split_of_not_mem {c : Char} {s : String} (h : c ∉ s.toList) : Text.split c s = [s] := by
  have hone : Text.split c (String.intercalate (String.singleton c) [s]) = [s] :=
    Text.split_intercalate (by simpa using h) (List.cons_ne_nil _ _)
  rwa [String.intercalate_singleton] at hone

theorem stripSlashes_of_not_mem {s : String} (h : '/' ∉ s.toList) : stripSlashes s = s := by
  have hleft : Text.lstrip ['/'] s = s := by
    rw [Text.lstrip, List.dropWhile_eq_self_iff.2, String.ofList_toList]
    intro hpos
    have hmem : s.toList[0] ∈ s.toList := List.getElem_mem hpos
    simp only [List.mem_singleton, decide_eq_true_eq]
    exact fun heq => h (heq ▸ hmem)
  have hright : Text.rstrip '/' s = s := by
    rw [Text.rstrip, List.rdropWhile_eq_self_iff.2, String.ofList_toList]
    intro hne
    have hmem : s.toList.getLast hne ∈ s.toList := List.getLast_mem hne
    simp only [decide_eq_true_eq]
    exact fun heq => h (heq ▸ hmem)
  rw [stripSlashes, hleft, hright]

theorem lstrip_of_head {s : String} (h : s.toList.head? ≠ some '/') : Text.lstrip ['/'] s = s := by
  rw [Text.lstrip]
  cases hs : s.toList with
  | nil => rw [List.dropWhile_nil, ← hs, String.ofList_toList]
  | cons c cs =>
    rw [hs, List.head?_cons, Ne, Option.some_inj] at h
    rw [List.dropWhile_cons_of_neg (by simpa using h), ← hs, String.ofList_toList]

section Segment

variable {join : SafeJoin} {name : String}

theorem pathParts_segment (h : Segment name) : pathParts name = [name] := by
  obtain ⟨hne, -, hslash⟩ := h.spec
  rw [pathParts, split_of_not_mem hslash]
  simp [hne, h.ne_dot]

theorem contained_segment (hjoin : join.Lawful) (h : Segment name) : contained join [name] = some [name] := by
  rw [contained, hjoin name h, Option.map_some, pathParts_segment h]

theorem localPath_segment (hjoin : join.Lawful) (h : Segment name) : localPath join name = some [name] := by
  obtain ⟨hne, -, hslash⟩ := h.spec
  rw [localPath, if_neg hne, split_of_not_mem hslash, contained_segment hjoin h]

theorem asPosix_singleton (name : String) : asPosix [name] = name := by
  rw [asPosix, if_neg (List.cons_ne_nil _ _), String.intercalate_singleton]

theorem fullKey_segment (hjoin : join.Lawful) (h : Segment name) (pre : String) :
    fullKey join pre name = some (pre ++ name) := by
  obtain ⟨hne, -, hslash⟩ := h.spec
  have hhead : name.toList.head? ≠ some '/' := fun heq => hslash (List.mem_of_head? heq)
  rw [fullKey, stripSlashes_of_not_mem hslash, if_neg hne, split_of_not_mem hslash, contained_segment hjoin h, Option.map_some,
    asPosix_singleton, lstrip_of_head hhead]

end Segment

/-! ## The directory and the bucket -/

/-- The files of the directory are the objects under the prefix, and all their names are segments. -/
structure Refines (pre : String) (T : FileTree) (objects : Bucket) : Prop where
  flat : ∀ p n, T.at? p = some n → p = [] ∨ ∃ name data, Segment name ∧ p = [name] ∧ n = .file data
  same : ∀ name, Segment name → T.file? [name] = objects.get? (pre ++ name)
  only : ∀ key, objects.has key = true → Text.startsWith pre key = true → ∃ name, Segment name ∧ key = pre ++ name

section Refines

variable {join : SafeJoin} (hjoin : join.Lawful) {pre name : String} {T : FileTree} {objects : Bucket}

theorem at?_root (T : FileTree) : T.at? [] = some .dir := by
  rw [FileTree.at?, FileTree.nodeAt, if_pos rfl]

theorem passesFile_singleton (T : FileTree) (name : String) : passesFile T [name] = false := by
  have hroot : T.file? [] = none := by rw [FileTree.file?, at?_root]
  simp [passesFile, hroot]

/-- At a segment there is a file or nothing. -/
theorem Refines.at?_segment (h : Refines pre T objects) (name : String) :
    T.at? [name] = none ∨ ∃ data, T.at? [name] = some (.file data) := by
  cases hnode : T.at? [name] with
  | none => exact .inl rfl
  | some n =>
    rcases h.flat _ _ hnode with hnil | ⟨name', data, -, -, rfl⟩
    · cases hnil
    · exact .inr ⟨data, rfl⟩

theorem append_right_inj_iff {a b : String} : pre ++ a = pre ++ b ↔ a = b := String.append_right_inj pre

theorem startsWith_append (pre s : String) : Text.startsWith pre (pre ++ s) = true := by
  rw [Text.startsWith, List.isPrefixOf_iff_prefix, String.toList_append]
  exact List.prefix_append _ _

/-- A file of a segment is set, and the object with it. -/
theorem Refines.set {T' : FileTree} {data : Bytes} (h : Refines pre T objects) (hname : Segment name)
    (hat : ∀ r, T'.at? r = if r = [name] then some (.file data) else T.at? r) :
    Refines pre T' (objects.set (pre ++ name) data) where
  flat p n hnode := by
    rw [hat] at hnode
    split at hnode
    · rename_i hp
      cases hnode
      exact .inr ⟨name, data, hname, hp, rfl⟩
    · exact h.flat p n hnode
  same name' hname' := by
    rw [FileTree.file?, hat, Dict.get?_set]
    by_cases heq : name' = name
    · rw [if_pos (by rw [heq]), if_pos (by rw [heq])]
    · rw [if_neg (by simpa using heq), if_neg (by simpa using heq)]
      exact h.same name' hname'
  only key hhas hpre := by
    rcases Dict.has_set.1 hhas with rfl | hhas
    · exact ⟨name, hname, rfl⟩
    · exact h.only key hhas hpre

theorem Refines.erase {T' : FileTree} (h : Refines pre T objects) (name : String)
    (hat : ∀ r, T'.at? r = if r = [name] then none else T.at? r) : Refines pre T' (objects.erase (pre ++ name)) where
  flat p n hnode := by
    rw [hat] at hnode
    split at hnode
    · cases hnode
    · exact h.flat p n hnode
  same name' hname' := by
    rw [FileTree.file?, hat, Dict.get?_erase]
    by_cases heq : name' = name
    · rw [if_pos (by rw [heq]), if_pos (by rw [heq])]
    · rw [if_neg (by simpa using heq), if_neg (by simpa using heq)]
      exact h.same name' hname'
  only key hhas hpre := h.only key (Dict.has_erase.1 hhas).2 hpre

/-! ## The calls -/

theorem Refines.put (h : Refines pre T objects) (hjoin : join.Lawful) (hname : Segment name) (data : Bytes) :
    ∃ T', localPut join T name data = .ok T' ∧ s3Put join pre objects name data = .ok (objects.set (pre ++ name) data) ∧
      Refines pre T' (objects.set (pre ++ name) data) := by
  have hno : T.at? [name] ≠ some .dir := by
    rcases h.at?_segment name with hnode | ⟨data, hnode⟩ <;> rw [hnode] <;> simp
  obtain ⟨T', hwrite⟩ : ∃ T', T.write [] name data = some T' := by
    unfold FileTree.write
    rw [dif_pos ⟨at?_root T, hno⟩]
    exact ⟨_, rfl⟩
  refine ⟨T', ?_, ?_, h.set hname (FileTree.write_at? hwrite)⟩
  · rw [localPut, localPath_segment hjoin hname]
    have hmade : makeDirs T [] ([name] : Path).dropLast = some T := rfl
    dsimp only [List.getLast?_singleton]
    rw [hmade, Option.bind_some, show ([name] : Path).dropLast = [] from rfl, hwrite]
  · rw [s3Put, fullKey_segment hjoin hname]

theorem Refines.unlink (h : Refines pre T objects) (name : String) :
    ∃ T', unlinkPath T [name] = .ok T' ∧ Refines pre T' (objects.erase (pre ++ name)) := by
  rw [unlinkPath, passesFile_singleton, if_neg Bool.false_ne_true]
  rcases h.at?_segment name with hnode | ⟨data, hnode⟩
  · rw [hnode]
    refine ⟨T, rfl, h.erase name fun r => ?_⟩
    by_cases hr : r = [name]
    · rw [if_pos hr, hr, hnode]
    · rw [if_neg hr]
  · have hfile : T.file? ([] ++ [name]) ≠ none := by
      rw [List.nil_append, FileTree.file?, hnode]
      exact Option.some_ne_none _
    obtain ⟨T', hunlink⟩ : ∃ T', T.unlink [] name = some T' := by
      unfold FileTree.unlink
      rw [dif_pos hfile]
      exact ⟨_, rfl⟩
    rw [hnode]
    refine ⟨T', ?_, h.erase name (FileTree.unlink_at? hunlink)⟩
    dsimp only [List.getLast?_singleton]
    rw [show ([name] : Path).dropLast = [] from rfl, hunlink, Option.getD_some]

theorem Refines.delete (h : Refines pre T objects) (hjoin : join.Lawful) (hname : Segment name) :
    ∃ T', localDelete join T name = .ok T' ∧ s3Delete join pre objects name = .ok (objects.erase (pre ++ name)) ∧
      Refines pre T' (objects.erase (pre ++ name)) := by
  obtain ⟨T', hunlink, hrefines⟩ := h.unlink name
  exact ⟨T', by rw [localDelete, localPath_segment hjoin hname]; exact hunlink,
    by rw [s3Delete, fullKey_segment hjoin hname], hrefines⟩

theorem Refines.deleteAll (hjoin : join.Lawful) {keys : List String} (hkeys : ∀ key ∈ keys, Segment key) {T : FileTree}
    {objects : Bucket} (h : Refines pre T objects) :
    ∃ T', localDeleteMany join T keys = (T', none) ∧
      Refines pre T' ((keys.map (pre ++ ·)).foldl Dict.erase objects) := by
  induction keys generalizing T objects with
  | nil => exact ⟨T, rfl, h⟩
  | cons key keys ih =>
    obtain ⟨hkey, hrest⟩ := List.forall_mem_cons.1 hkeys
    obtain ⟨T₁, hunlink, hrefines⟩ := h.unlink key
    obtain ⟨T', hmany, hlast⟩ := ih hrest hrefines
    refine ⟨T', ?_, hlast⟩
    have hno : T.at? [key] ≠ some .dir := by
      rcases h.at?_segment key with hnode | ⟨data, hnode⟩ <;> rw [hnode] <;> simp
    rw [localDeleteMany, localPath_segment hjoin hkey]
    dsimp only
    rw [if_neg hno, hunlink]
    exact hmany

/-- The batches delete what the list names. -/
theorem deleteBatches_eq {requests : Nat} {names : List String} (h : names.length ≤ requests) :
    deleteBatches objects requests names = names.foldl Dict.erase objects := by
  induction requests generalizing objects names with
  | zero =>
    rw [List.length_eq_zero_iff.1 (Nat.le_zero.1 h)]
    rfl
  | succ requests ih =>
    rw [deleteBatches]
    split
    · rename_i hnil
      rw [hnil]
      rfl
    · rename_i hne
      have hpos : 0 < deleteBatch := by decide
      have hlength := List.length_pos_iff.2 hne
      rw [ih (by rw [List.length_drop]; omega), deleteObjects, ← List.foldl_append, List.take_append_drop]

theorem Refines.deleteMany (h : Refines pre T objects) (hjoin : join.Lawful) {keys : List String}
    (hkeys : ∀ key ∈ keys, Segment key) :
    ∃ T' objects', localDeleteMany join T keys = (T', none) ∧ s3DeleteMany join pre objects keys = .ok objects' ∧
      Refines pre T' objects' := by
  obtain ⟨T', hmany, hrefines⟩ := h.deleteAll hjoin hkeys
  have hnames : keys.mapM (fullKey join pre) = some (keys.map (pre ++ ·)) := by
    clear hmany hrefines
    induction keys with
    | nil => rfl
    | cons key keys ih =>
      obtain ⟨hkey, hrest⟩ := List.forall_mem_cons.1 hkeys
      rw [List.mapM_cons, fullKey_segment hjoin hkey, ih hrest]
      rfl
  refine ⟨T', _, hmany, ?_, hrefines⟩
  rw [s3DeleteMany, hnames]
  dsimp only
  rw [deleteBatches_eq (by rw [List.length_map])]

end Refines

/-! ## Runs -/

inductive Op
  | put (key : String) (data : Bytes)
  | delete (key : String)
  | deleteMany (keys : List String)

/-- All keys of a call are segments. -/
def Op.Segments : Op → Prop
  | .put key _ | .delete key => Segment key
  | .deleteMany keys => ∀ key ∈ keys, Segment key

def localStep (join : SafeJoin) (T : FileTree) : Op → Except StoreError FileTree
  | .put key data => localPut join T key data
  | .delete key => localDelete join T key
  | .deleteMany keys =>
    match localDeleteMany join T keys with
    | (T', none) => .ok T'
    | (_, some e) => .error e

def s3Step (join : SafeJoin) (pre : String) (objects : Bucket) : Op → Except StoreError Bucket
  | .put key data => s3Put join pre objects key data
  | .delete key => s3Delete join pre objects key
  | .deleteMany keys => s3DeleteMany join pre objects keys

section Runs

variable {join : SafeJoin} {pre : String} {T : FileTree} {objects : Bucket}

theorem Refines.step (h : Refines pre T objects) (hjoin : join.Lawful) {op : Op} (hop : op.Segments) :
    ∃ T' objects', localStep join T op = .ok T' ∧ s3Step join pre objects op = .ok objects' ∧ Refines pre T' objects' := by
  cases op with
  | put key data =>
    obtain ⟨T', hlocal, hs3, hrefines⟩ := h.put hjoin hop data
    exact ⟨T', _, hlocal, hs3, hrefines⟩
  | delete key =>
    obtain ⟨T', hlocal, hs3, hrefines⟩ := h.delete hjoin hop
    exact ⟨T', _, hlocal, hs3, hrefines⟩
  | deleteMany keys =>
    obtain ⟨T', objects', hlocal, hs3, hrefines⟩ := h.deleteMany hjoin hop
    exact ⟨T', objects', by rw [localStep, hlocal], hs3, hrefines⟩

theorem Refines.run (hjoin : join.Lawful) {ops : List Op} (hops : ∀ op ∈ ops, op.Segments) {T : FileTree} {objects : Bucket}
    (h : Refines pre T objects) : ∃ T' objects', ops.foldlM (localStep join) T = .ok T' ∧
      ops.foldlM (s3Step join pre) objects = .ok objects' ∧ Refines pre T' objects' := by
  induction ops generalizing T objects with
  | nil => exact ⟨T, objects, rfl, rfl, h⟩
  | cons op ops ih =>
    obtain ⟨hop, hrest⟩ := List.forall_mem_cons.1 hops
    obtain ⟨T₁, objects₁, hlocal, hs3, h₁⟩ := h.step hjoin hop
    obtain ⟨T', objects', hlocal', hs3', h'⟩ := ih hrest h₁
    refine ⟨T', objects', ?_, ?_, h'⟩
    · rw [List.foldlM_cons, hlocal]
      exact hlocal'
    · rw [List.foldlM_cons, hs3]
      exact hs3'

/-- Nothing is there, and nothing under the prefix. -/
theorem refines_empty (hnone : ∀ key, objects.has key = true → Text.startsWith pre key = false) :
    Refines pre FileTree.empty objects where
  flat p n hnode := by
    rw [FileTree.at?, FileTree.nodeAt] at hnode
    split at hnode
    · rename_i hp
      exact .inl hp
    · cases hnode
  same name hname := by
    have hobject : objects.get? (pre ++ name) = none := by
      by_contra hsome
      have hhas : objects.has (pre ++ name) = true := Option.isSome_iff_ne_none.2 hsome
      have hstarts := hnone _ hhas
      rw [startsWith_append] at hstarts
      cases hstarts
    rw [hobject]
    rfl
  only key hhas hpre := by
    rw [hnone key hhas] at hpre
    cases hpre

/-! ## The answers -/

section Answers

variable {name : String}

theorem Refines.open (h : Refines pre T objects) (hjoin : join.Lawful) (hname : Segment name) :
    localOpen join T name = s3Open join pre objects name := by
  rw [localOpen, localPath_segment hjoin hname, s3Open, fullKey_segment hjoin hname]
  dsimp only
  rw [passesFile_singleton, if_neg Bool.false_ne_true, ← h.same name hname, FileTree.file?]
  rcases h.at?_segment name with hnode | ⟨data, hnode⟩ <;> rw [hnode]

theorem endsWith_slash (hname : Segment name) : Text.endsWith "/" name = false := by
  rw [Bool.eq_false_iff, Ne, Text.endsWith, List.isSuffixOf_iff_suffix]
  exact fun hsuffix => hname.spec.2.2 (hsuffix.subset (List.mem_singleton_self _))

theorem Refines.stat (h : Refines pre T objects) (hjoin : join.Lawful) (hname : Segment name) :
    localStat join T name = s3Stat join pre objects name := by
  have hno : ¬ (stripSlashes name ≠ "" ∧ Text.endsWith "/" name = true) := by
    rw [endsWith_slash hname]
    simp
  rw [localStat, localPath_segment hjoin hname, s3Stat, if_neg hno, fullKey_segment hjoin hname]
  dsimp only
  rw [passesFile_singleton, if_neg Bool.false_ne_true, ← h.same name hname, FileTree.file?]
  rcases h.at?_segment name with hnode | ⟨data, hnode⟩ <;> rw [hnode] <;> rfl

/-- No object is under a segment. -/
theorem Refines.none_under (h : Refines pre T objects) (name : String) : hasPrefix objects (pre ++ name ++ "/") = false := by
  rw [Bool.eq_false_iff, Ne, hasPrefix, List.any_eq_true]
  rintro ⟨e, he, hstarts⟩
  rw [Text.startsWith, List.isPrefixOf_iff_prefix, String.toList_append, String.toList_append] at hstarts
  have hhas : objects.has e.1 = true := Dict.has_iff.2 (List.mem_map.2 ⟨e, he, rfl⟩)
  have hpre : Text.startsWith pre e.1 = true := by
    rw [Text.startsWith, List.isPrefixOf_iff_prefix]
    exact ((List.prefix_append _ _).trans (List.prefix_append _ _)).trans hstarts
  obtain ⟨name', hname', heq⟩ := h.only e.1 hhas hpre
  rw [heq, String.toList_append, List.append_assoc, List.prefix_append_right_inj] at hstarts
  exact hname'.spec.2.2 (hstarts.subset (List.mem_append_right _ (List.mem_singleton_self _)))

theorem Refines.exists (h : Refines pre T objects) (hjoin : join.Lawful) (hname : Segment name) :
    localExists join T name = s3Exists join pre objects name := by
  have hstrip := stripSlashes_of_not_mem hname.spec.2.2
  have hunder : ¬ (stripSlashes name ≠ "" ∧ hasPrefix objects (pre ++ stripSlashes name ++ "/") = true) := by
    rw [hstrip, h.none_under]
    simp
  have hempty : ¬ (stripSlashes name = "" ∧ hasPrefix objects pre = true) := by
    rw [hstrip]
    exact fun hboth => hname.spec.1 hboth.1
  rw [s3Exists, if_neg hunder, if_neg hempty, ← h.stat hjoin hname, localExists, localStat, localPath_segment hjoin hname]
  dsimp only
  rw [passesFile_singleton, if_neg Bool.false_ne_true]
  rcases h.at?_segment name with hnode | ⟨data, hnode⟩ <;> rw [hnode] <;> rfl

/-- The walk of the directory yields its files. -/
theorem Refines.walk (h : Refines pre T objects) : ∃ out, localWalk join T "" = .ok out ∧
    ∀ key size, ⟨key, false, size⟩ ∈ out ↔ ∃ data, T.file? [key] = some data ∧ data.length = size := by
  have hnodirs : ((T.children []).insertionSort (· ≤ ·)).filter (fun name => T.at? ([] ++ [name]) = some .dir) = [] := by
    rw [List.filter_eq_nil_iff]
    intro name _
    rw [List.nil_append]
    rcases h.at?_segment name with hnode | ⟨data, hnode⟩ <;> rw [hnode] <;> simp
  rw [localWalk, localPath, if_pos rfl]
  dsimp only
  rw [if_pos (at?_root T)]
  refine ⟨_, rfl, fun key size => ?_⟩
  rw [walkDir, hnodirs, List.map_nil, List.nil_append, List.flatMap_nil, List.append_nil, List.mem_map]
  constructor
  · rintro ⟨file, hfile, heq⟩
    obtain ⟨name, -, hname⟩ := List.mem_filterMap.1 hfile
    obtain ⟨data, hdata, rfl⟩ := Option.map_eq_some_iff.1 hname
    rw [List.nil_append, asPosix_singleton] at heq
    cases heq
    exact ⟨data, hdata, rfl⟩
  · rintro ⟨data, hdata, rfl⟩
    have hchild : key ∈ T.children [] := by
      rw [FileTree.mem_children, List.nil_append, FileTree.file?_eq_some.1 hdata]
      exact Option.some_ne_none _
    have hfile : ((T.file? ([] ++ [key])).map fun data => (key, data.length)) = some (key, data.length) := by
      rw [List.nil_append, hdata, Option.map_some]
    refine ⟨(key, data.length), List.mem_filterMap.2 ⟨key, (List.mem_insertionSort _).2 hchild, hfile⟩, ?_⟩
    rw [List.nil_append, asPosix_singleton]

end Answers

end Runs

end OpenFish.Objects
