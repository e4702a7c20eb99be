/-
The two backends agree: what either store answers after a run on keys of one segment, and what a walk of the bucket yields
for nested keys.
-/
import OpenFish.Objects.Refinement
import Mathlib.Data.List.Dedup

namespace OpenFish.Objects

open Lib
open Lib.Delimited (IsGroup Group Direct Dir groupOf)

/-! ## Keys that are put -/

theorem pathParts_spec {text name : String} (h : name ∈ pathParts text) : name.toList ≠ [] ∧ '/' ∉ name.toList := by
  obtain ⟨hmem, hkeep⟩ := List.mem_filter.1 h
  obtain ⟨piece, hpiece, rfl⟩ := List.mem_map.1 hmem
  rw [String.toList_ofList]
  refine ⟨fun hnil => ?_, fun hslash => ?_⟩
  · rw [hnil] at hkeep
    exact absurd hkeep (by decide)
  · have hplain := Text.mem_splitOnP hpiece '/' hslash
    exact absurd hplain (by decide)

theorem toList_asPosix {parts : List String} (h : parts ≠ []) :
    (asPosix parts).toList = ['/'].intercalate (parts.map String.toList) := by
  rw [asPosix, if_neg h, String.toList_intercalate]
  rfl

/-- In the text of a path no slash stands first or follows another. -/
theorem tidy_asPosix {parts : List String} (h : ∀ name ∈ parts, name.toList ≠ [] ∧ '/' ∉ name.toList) {u : List Char}
    (hu : u ++ ['/'] <+: (asPosix parts).toList) : u ≠ [] ∧ u.getLast? ≠ some '/' := by
  by_cases hnil : parts = []
  · have hmem : '/' ∈ (asPosix parts).toList := hu.subset (by simp)
    rw [asPosix, if_pos hnil] at hmem
    exact absurd hmem (by decide)
  · rw [toList_asPosix hnil] at hu
    refine Delimited.tidy_intercalate (fun name hname => ?_) hu
    obtain ⟨part, hpart, rfl⟩ := List.mem_map.1 hname
    exact h part hpart

section Accepted

variable {join : SafeJoin} {pre : String}

/-- Where a key that is put lands: at the prefix itself, or at a path under it. -/
theorem fullKey_spec {key full : String} (h : fullKey join pre key = some full) :
    full = pre ∨ ∃ parts : List String, (∀ name ∈ parts, name.toList ≠ [] ∧ '/' ∉ name.toList) ∧ full = pre ++ asPosix parts := by
  rw [fullKey] at h
  split at h
  · exact .inl (Option.some.inj h).symm
  · obtain ⟨parts, hparts, rfl⟩ := Option.map_eq_some_iff.1 h
    obtain ⟨text, -, rfl⟩ := Option.map_eq_some_iff.1 hparts
    have hspec : ∀ name ∈ pathParts text, name.toList ≠ [] ∧ '/' ∉ name.toList := fun name => pathParts_spec
    refine .inr ⟨pathParts text, hspec, ?_⟩
    rw [lstrip_of_head]
    intro hhead
    obtain ⟨rest, hrest⟩ := List.head?_eq_some_iff.1 hhead
    exact (tidy_asPosix hspec (u := []) ⟨rest, hrest.symm⟩).1 rfl

/-- All keys under the prefix were put. -/
def Put (join : SafeJoin) (pre : String) (objects : Bucket) : Prop :=
  ∀ full, objects.has full = true → Text.startsWith pre full = true → ∃ key, fullKey join pre key = some full

theorem Put.tidy {objects : Bucket} (h : Put join pre objects) : Tidy objects pre := by
  rintro y ⟨-, k, ⟨full, hhas, rfl⟩, hpre⟩
  have hstarts : Text.startsWith pre full = true := by
    rw [Text.startsWith, List.isPrefixOf_iff_prefix]
    rw [List.append_assoc] at hpre
    exact (List.prefix_append _ _).trans hpre
  obtain ⟨key, hkey⟩ := h full hhas hstarts
  rw [List.append_assoc] at hpre
  rcases fullKey_spec hkey with rfl | ⟨parts, hparts, rfl⟩
  · have hlong := hpre.length_le
    simp only [List.length_append, List.length_singleton] at hlong
    omega
  · rw [String.toList_append, List.prefix_append_right_inj] at hpre
    exact tidy_asPosix hparts hpre

end Accepted

/-! ## The walk of a catalog -/

theorem endsWith_append_slash (s : String) : Text.endsWith "/" (s ++ "/") = true := by
  rw [Text.endsWith, List.isSuffixOf_iff_suffix, String.toList_append]
  exact List.suffix_append _ _

theorem walkBase_empty (join : SafeJoin) (base catalog : String) :
    walkBase join (normalizedPrefix base catalog) "" = some (normalizedPrefix base catalog) := by
  have hstrip : stripSlashes "" = "" := by decide
  have hslash : ¬ (normalizedPrefix base catalog ≠ "" ∧ Text.endsWith "/" (normalizedPrefix base catalog) = false) := by
    rw [normalizedPrefix, endsWith_append_slash]
    simp
  rw [walkBase, if_pos hstrip, Option.map_some, if_neg hslash]

/-- The walk of a catalog whose keys were put ends, whatever pages the server makes, and lists it. -/
theorem s3Walk_lists (join : SafeJoin) (base catalog : String) {list : Listing} {objects : Bucket}
    (hlist : Conforms list objects) (hput : Put join (normalizedPrefix base catalog) objects) :
    ∃ fuel out, (∀ fuel', fuel ≤ fuel' → s3Walk join (normalizedPrefix base catalog) list fuel' "" = some (.ok out)) ∧
      Lists objects (normalizedPrefix base catalog) out := by
  obtain ⟨fuel, out, hwalk, hlists⟩ := walk_lists hlist hput.tidy
  refine ⟨fuel, out, fun fuel' hfuel => ?_, hlists⟩
  obtain ⟨result, hresult, rfl⟩ := Option.map_eq_some_iff.1 (hwalk fuel' hfuel)
  rw [s3Walk, walkBase_empty]
  dsimp only
  rw [hresult, Option.map_some]

/-- A bucket that refines a directory holds keys that were put. -/
theorem Refines.accepted {join : SafeJoin} {pre : String} {T : FileTree} {objects : Bucket} (h : Refines pre T objects)
    (hjoin : join.Lawful) : Put join pre objects := fun full hhas hpre => by
  obtain ⟨name, hname, rfl⟩ := h.only full hhas hpre
  exact ⟨name, fullKey_segment hjoin hname pre⟩

/-- Both walks yield the same files. -/
theorem Refines.walks_agree {pre : String} {T : FileTree} {objects : Bucket} (h : Refines pre T objects)
    {listed walked : List ObjectInfo}
    (hlisted : ∀ key size, ⟨key, false, size⟩ ∈ listed ↔ ∃ data, T.file? [key] = some data ∧ data.length = size)
    (hwalked : Lists objects pre walked) (key : String) (size : Nat) :
    (⟨key, false, size⟩ : ObjectInfo) ∈ listed ↔ (⟨key, false, size⟩ : ObjectInfo) ∈ walked := by
  rw [hlisted, hwalked.files]
  constructor
  · rintro ⟨data, hdata, hsize⟩
    rcases h.flat _ _ (FileTree.file?_eq_some.1 hdata) with hnil | ⟨name, data', hname, hkey, -⟩
    · cases hnil
    · cases hkey
      exact ⟨hname.spec.1, data, by rw [← h.same key hname, hdata], hsize⟩
  · rintro ⟨-, data, hdata, hsize⟩
    have hhas : objects.has (pre ++ key) = true := by rw [Dict.has, hdata]; rfl
    obtain ⟨name, hname, heq⟩ := h.only _ hhas (startsWith_append pre key)
    rw [append_right_inj_iff] at heq
    exact ⟨data, by rw [h.same key (heq ▸ hname), hdata], hsize⟩

/-! ## A server that shows everything in one page -/

def onePage (objects : Bucket) : Listing := fun start _ =>
  { prefixes := (objects.entries.filterMap fun e => groupOf '/' start.toList e.1.toList).dedup.map String.ofList
    contents := (objects.entries.filter fun e =>
      Text.startsWith start e.1 && !(e.1.toList.drop start.toList.length).contains '/').map fun e => (e.1, e.2.length) }

theorem mem_onePage_prefixes {objects : Bucket} {start : String} {token : Option String} {common : String} :
    common ∈ (onePage objects start token).prefixes ↔ Group '/' (Keys objects) start.toList common.toList := by
  rw [onePage, List.mem_map]
  constructor
  · rintro ⟨c, hc, rfl⟩
    obtain ⟨e, he, hgroup⟩ := List.mem_filterMap.1 (List.mem_dedup.1 hc)
    obtain ⟨hisGroup, hpre⟩ := Delimited.groupOf_eq_some.1 hgroup
    rw [String.toList_ofList]
    exact ⟨hisGroup, e.1.toList, ⟨e.1, Dict.has_iff.2 (List.mem_map_of_mem he), rfl⟩, hpre⟩
  · rintro ⟨hisGroup, k, ⟨key, hhas, rfl⟩, hpre⟩
    obtain ⟨e, he, rfl⟩ := List.mem_map.1 (Dict.has_iff.1 hhas)
    have hgroup := Delimited.groupOf_eq_some.2 ⟨hisGroup, hpre⟩
    exact ⟨common.toList, List.mem_dedup.2 (List.mem_filterMap.2 ⟨e, he, hgroup⟩), String.ofList_toList⟩

theorem mem_onePage_contents {objects : Bucket} {start : String} {token : Option String} {key : String} {n : Nat} :
    (key, n) ∈ (onePage objects start token).contents ↔
      Direct '/' start.toList key.toList ∧ ∃ data, objects.get? key = some data ∧ data.length = n := by
  have hdirect : (Text.startsWith start key && !(key.toList.drop start.toList.length).contains '/') = true ↔
      Direct '/' start.toList key.toList := by
    rw [Bool.and_eq_true, Text.startsWith, List.isPrefixOf_iff_prefix, Bool.not_eq_true', Bool.eq_false_iff, Ne,
      List.contains_iff_mem]
    constructor
    · rintro ⟨⟨x, hx⟩, hslash⟩
      rw [← hx, List.drop_left] at hslash
      exact ⟨x, hslash, hx.symm⟩
    · rintro ⟨x, hslash, hx⟩
      rw [hx, List.drop_left]
      exact ⟨List.prefix_append _ _, hslash⟩
  rw [onePage, List.mem_map]
  constructor
  · rintro ⟨e, he, heq⟩
    obtain ⟨hmem, hkeep⟩ := List.mem_filter.1 he
    cases heq
    exact ⟨hdirect.1 hkeep, e.2, Dict.get?_eq_some.2 hmem, rfl⟩
  · rintro ⟨hkey, data, hdata, rfl⟩
    exact ⟨(key, data), List.mem_filter.2 ⟨Dict.get?_eq_some.1 hdata, hdirect.2 hkey⟩, rfl⟩

theorem onePage_conforms (objects : Bucket) : Conforms (onePage objects) objects where
  pages start := by
    refine ⟨[onePage objects start none], .last rfl, fun common => ?_, fun key n => ?_⟩
    · simp only [List.mem_singleton, exists_eq_left]
      exact mem_onePage_prefixes
    · simp only [List.mem_singleton, exists_eq_left]
      exact mem_onePage_contents

/-- A join that refuses the way up. -/
def plainJoin : SafeJoin := fun parts => if ".." ∈ parts then none else some ("/".intercalate parts)

theorem plainJoin_lawful : plainJoin.Lawful := fun name hname => by
  have hne : ".." ∉ [name] := fun hmem => by
    have hdot := hname.spec.2.1
    rw [← List.mem_singleton.1 hmem] at hdot
    exact absurd hdot (by decide)
  rw [plainJoin, if_neg hne, String.intercalate_singleton]

/-! ## The agreement -/

/-- After every run of calls on segments, from an empty directory and a bucket with nothing under the prefix, both stores
give the same answers for every segment and their walks yield the same files. And for all nested keys that were put, the walk
of the bucket ends and lists each of them but the empty one. -/
theorem backends_agree (join : SafeJoin) (hjoin : join.Lawful) (base catalog : String) (server : Bucket → Listing)
    (hserver : ∀ objects, Conforms (server objects) objects) :
    (∀ objects : Bucket, (∀ key, objects.has key = true → Text.startsWith (normalizedPrefix base catalog) key = false) →
      ∀ ops : List Op, (∀ op ∈ ops, op.Segments) →
        ∃ T objects', ops.foldlM (localStep join) FileTree.empty = .ok T ∧
          ops.foldlM (s3Step join (normalizedPrefix base catalog)) objects = .ok objects' ∧
          (∀ name, Segment name → localOpen join T name = s3Open join (normalizedPrefix base catalog) objects' name ∧
            localExists join T name = s3Exists join (normalizedPrefix base catalog) objects' name ∧
            localStat join T name = s3Stat join (normalizedPrefix base catalog) objects' name) ∧
          ∃ listed walked fuel, localWalk join T "" = .ok listed ∧
            (∀ fuel', fuel ≤ fuel' →
              s3Walk join (normalizedPrefix base catalog) (server objects') fuel' "" = some (.ok walked)) ∧
            ∀ key size, (⟨key, false, size⟩ : ObjectInfo) ∈ listed ↔ (⟨key, false, size⟩ : ObjectInfo) ∈ walked) ∧
    ∀ objects : Bucket, Put join (normalizedPrefix base catalog) objects →
      ∃ fuel out, (∀ fuel', fuel ≤ fuel' →
          s3Walk join (normalizedPrefix base catalog) (server objects) fuel' "" = some (.ok out)) ∧
        Lists objects (normalizedPrefix base catalog) out := by
  refine ⟨fun objects hnone ops hops => ?_, fun objects hput => s3Walk_lists join base catalog (hserver objects) hput⟩
  obtain ⟨T, objects', hlocal, hs3, h⟩ := Refines.run hjoin hops (refines_empty hnone)
  obtain ⟨fuel, walked, hwalk, hlists⟩ := s3Walk_lists join base catalog (hserver objects') (h.accepted hjoin)
  obtain ⟨listed, hlisted, hfiles⟩ := h.walk
  exact ⟨T, objects', hlocal, hs3, fun name hname => ⟨h.open hjoin hname, h.exists hjoin hname, h.stat hjoin hname⟩,
    listed, walked, fuel, hlisted, hwalk, h.walks_agree hfiles hlists⟩

/-- A bucket of two objects, in a directory of a directory. -/
def nestedBucket : Bucket := (Dict.empty.set "tools/ops/db/dump.sh" [35, 33]).set "tools/ops/a" []

theorem nestedBucket_put : Put plainJoin (normalizedPrefix "" "tools") nestedBucket := fun full hhas _ => by
  have hmem : full ∈ ["tools/ops/db/dump.sh", "tools/ops/a"] := Dict.has_iff.1 hhas
  rcases List.mem_cons.1 hmem with rfl | hmem
  · exact ⟨"ops/db/dump.sh", by decide +kernel⟩
  · rw [List.mem_singleton.1 hmem]
    exact ⟨"ops//a", by decide +kernel⟩

theorem nestedBucket_listed : ∃ fuel out, (∀ fuel', fuel ≤ fuel' →
      s3Walk plainJoin (normalizedPrefix "" "tools") (onePage nestedBucket) fuel' "" = some (.ok out)) ∧
    Lists nestedBucket (normalizedPrefix "" "tools") out :=
  (backends_agree plainJoin plainJoin_lawful "" "tools" onePage onePage_conforms).2 nestedBucket nestedBucket_put

/-- The empty key is put, at the prefix itself, and no walk yields it. -/
theorem root_object_not_listed : ∃ objects : Bucket,
    s3Put plainJoin (normalizedPrefix "" "tools") Dict.empty "" [1] = .ok objects ∧
    Put plainJoin (normalizedPrefix "" "tools") objects ∧ objects.has (normalizedPrefix "" "tools") = true ∧
    s3Walk plainJoin (normalizedPrefix "" "tools") (onePage objects) 2 "" = some (.ok []) := by
  refine ⟨Dict.empty.set "tools/" [1], rfl, fun full hhas _ => ?_, by decide +kernel, by decide +kernel⟩
  have hmem : full ∈ ["tools/"] := Dict.has_iff.1 hhas
  rw [List.mem_singleton.1 hmem]
  exact ⟨"", by decide +kernel⟩

end OpenFish.Objects
