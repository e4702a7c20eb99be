/-
The grammar of distribution file names (PEP 427 for wheels, PEP 625 for source distributions, PEP 440 for the versions
in both): which project and which version a file name denotes.
-/
import OpenFish.Lib.Version

namespace OpenFish.Packages

open Lib

/-! ## The grammar -/

/-- The name of a project: letters, digits, `-`, `_` and `.`, with a letter or digit at both ends. -/
def projectName (name : List Char) : Bool :=
  name.head?.any Char.isAlphanum && name.getLast?.any Char.isAlphanum && name.all Version.publicChar

/-- A tag of a wheel. -/
def wheelTag (tag : List Char) : Bool := !tag.isEmpty && tag.all fun c => c.isAlphanum || c = '_' || c = '.'

/-- The tags of a wheel, of which a build tag may be the first; that one starts with a digit. -/
def wheelTags : List (List Char) → Bool
  | [python, abi, platform] => wheelTag python && wheelTag abi && wheelTag platform
  | [build, python, abi, platform] =>
    build.head?.any Char.isDigit && wheelTag build && wheelTag python && wheelTag abi && wheelTag platform
  | _ => false

def stripEnd (ending cs : List Char) : Option (List Char) :=
  if ending.isSuffixOf cs then some (cs.take (cs.length - ending.length)) else none

/-- Project and version of a wheel's file name. -/
def wheelDenotes (filename : List Char) : Option (List Char × Version) :=
  (stripEnd ".whl".toList filename).bind fun stem =>
    let name := stem.takeWhile (· ≠ '-')
    let rest := (stem.dropWhile (· ≠ '-')).tail
    let version := rest.takeWhile (· ≠ '-')
    if projectName name ∧ rest.dropWhile (· ≠ '-') ≠ [] ∧ wheelTags ((rest.dropWhile (· ≠ '-')).tail.splitOn '-') then
      (Version.parse version).map (name, ·)
    else none

/-- Project and version of a source distribution's file name; the version stands after the last dash. -/
def sdistDenotes (filename : List Char) : Option (List Char × Version) :=
  ((stripEnd ".tar.gz".toList filename).orElse fun _ => stripEnd ".zip".toList filename).bind fun stem =>
    let name := (stem.rdropWhile (· ≠ '-')).dropLast
    if projectName name then (Version.parse (stem.rtakeWhile (· ≠ '-'))).map (name, ·) else none

/-- The project and the version that a file name denotes. -/
def denotes (filename : String) : Option (String × Version) :=
  ((wheelDenotes filename.toList).orElse fun _ => sdistDenotes filename.toList).map fun d => (String.ofList d.1, d.2)

/-! ## What denotes -/

theorem stripEnd_eq_some {ending cs stem : List Char} : stripEnd ending cs = some stem ↔ cs = stem ++ ending := by
  unfold stripEnd
  split
  · rename_i hsuffix
    obtain ⟨front, rfl⟩ := List.isSuffixOf_iff_suffix.1 hsuffix
    rw [List.length_append, Nat.add_sub_cancel, List.take_left, Option.some_inj]
    exact ⟨fun h => by rw [h], fun h => List.append_cancel_right h⟩
  · rename_i hsuffix
    refine iff_of_false nofun fun h => hsuffix (List.isSuffixOf_iff_suffix.2 ?_)
    rw [h]
    exact List.suffix_append stem ending

/-- A text up to the first dash. -/
theorem eq_of_dropWhile_dash {cs : List Char} (h : cs.dropWhile (· ≠ '-') ≠ []) :
    cs = cs.takeWhile (· ≠ '-') ++ '-' :: (cs.dropWhile (· ≠ '-')).tail := by
  obtain ⟨c, rest, hcons⟩ := List.exists_cons_of_ne_nil h
  have hc : c = '-' := by
    have := List.head?_dropWhile_not (· ≠ '-') cs
    rw [hcons] at this
    simpa using this
  rw [hcons, List.tail_cons, ← hc]
  conv_lhs => rw [← List.takeWhile_append_dropWhile (p := fun c => decide (c ≠ '-')) (l := cs), hcons]
  rw [hc]

theorem dash_not_mem_takeWhile (cs : List Char) : '-' ∉ cs.takeWhile (· ≠ '-') := by
  intro h
  simpa using List.mem_takeWhile_imp h

/-- A wheel's file name. -/
theorem wheelDenotes_spec {filename name : List Char} {v : Version} (h : wheelDenotes filename = some (name, v)) :
    ∃ version tags, filename = name ++ '-' :: (version ++ '-' :: (['-'].intercalate tags ++ ".whl".toList)) ∧
      '-' ∉ name ∧ '-' ∉ version ∧ projectName name = true ∧ Version.parse version = some v ∧ wheelTags tags = true := by
  obtain ⟨stem, hstem, h⟩ := Option.bind_eq_some_iff.1 h
  dsimp only at h
  split at h
  · rename_i hand
    obtain ⟨v', hv, heq⟩ := Option.map_eq_some_iff.1 h
    cases heq
    obtain ⟨hname, hrest, htags⟩ := hand
    refine ⟨_, _, ?_, dash_not_mem_takeWhile stem, dash_not_mem_takeWhile _, hname, hv, htags⟩
    have hstem' : stem.dropWhile (· ≠ '-') ≠ [] := by
      intro hnil
      rw [hnil] at hrest
      exact hrest rfl
    rw [List.intercalate_splitOn, stripEnd_eq_some.1 hstem]
    conv_lhs => rw [eq_of_dropWhile_dash hstem', eq_of_dropWhile_dash hrest]
    simp only [List.append_assoc, List.cons_append]
  · cases h

/-- A source distribution's file name. -/
theorem sdistDenotes_spec {filename name : List Char} {v : Version} (h : sdistDenotes filename = some (name, v)) :
    ∃ version ext, (ext = "tar.gz".toList ∨ ext = "zip".toList) ∧ filename = name ++ '-' :: (version ++ '.' :: ext) ∧
      '-' ∉ version ∧ projectName name = true ∧ Version.parse version = some v := by
  obtain ⟨stem, hstem, h⟩ := Option.bind_eq_some_iff.1 h
  dsimp only at h
  split at h
  · rename_i hname
    obtain ⟨v', hv, heq⟩ := Option.map_eq_some_iff.1 h
    cases heq
    have hne : stem.rdropWhile (· ≠ '-') ≠ [] := by
      intro hnil
      rw [hnil] at hname
      cases hname
    have hlast : (stem.rdropWhile (· ≠ '-')).getLast hne = '-' := by
      simpa using List.rdropWhile_last_not (· ≠ '-') stem hne
    have hdash : '-' ∉ stem.rtakeWhile (· ≠ '-') := fun hmem => by simpa using List.mem_rtakeWhile_imp hmem
    have hsplit : stem = (stem.rdropWhile (· ≠ '-')).dropLast ++ '-' :: stem.rtakeWhile (· ≠ '-') := by
      have hfront : stem.rdropWhile (· ≠ '-') = (stem.rdropWhile (· ≠ '-')).dropLast ++ ['-'] := by
        conv_lhs => rw [← List.dropLast_append_getLast hne, hlast]
      conv_lhs => rw [← List.rdropWhile_append_rtakeWhile (p := fun c => decide (c ≠ '-')) (l := stem), hfront]
      rw [List.append_assoc, List.singleton_append]
    cases htar : stripEnd ".tar.gz".toList filename with
    | some stem' =>
      rw [htar] at hstem
      cases hstem
      refine ⟨_, "tar.gz".toList, .inl rfl, ?_, hdash, hname, hv⟩
      rw [stripEnd_eq_some.1 htar]
      conv_lhs => rw [hsplit]
      rw [List.append_assoc, List.cons_append]
      rfl
    | none =>
      rw [htar] at hstem
      refine ⟨_, "zip".toList, .inr rfl, ?_, hdash, hname, hv⟩
      rw [stripEnd_eq_some.1 (show stripEnd ".zip".toList filename = some stem from hstem)]
      conv_lhs => rw [hsplit]
      rw [List.append_assoc, List.cons_append]
      rfl
  · cases h

example : (denotes "foo-1.0rc1.tar.gz").map Prod.fst = some "foo" := by decide +kernel

end OpenFish.Packages
