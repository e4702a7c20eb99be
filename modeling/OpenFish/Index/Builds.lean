/-
`PythonBuildIndex` and `NodeBuildIndex` of `index/python_build.py` and `index/node_build.py`: mirrors whose release
directories hold archives. What the two classes share is one definition with parameters.
-/
import OpenFish.Index.PackageShelves

namespace OpenFish.Index

open Lib

/-! ## Archives of a mirror -/

/-- How a mirror reads its tree. -/
structure BuildKind (ε : Type*) where
  /-- The names of release directories. -/
  isRelease : String → Bool
  /-- The names that are looked at. -/
  isArchive : String → Bool
  /-- The entry of a file in a release directory. -/
  entry : FileTree → Path → String → Option ε
  filename : ε → String
  entry_filename : ∀ {T path tag e}, entry T path tag = some e → filename e = baseName path
  entry_congr : ∀ {T T' : FileTree} {path tag}, T'.at? path = T.at? path → entry T' path tag = entry T path tag
  /-- Whether there is an entry is a matter of the name. -/
  entry_named : ∀ {T T' : FileTree} {path tag}, entry T path tag ≠ none → entry T' path tag ≠ none

/-- `Path.parent.name`, below the root's own name. -/
def parentName (root : String) (path : Path) : String := path.dropLast.getLast?.getD root

namespace BuildKind

variable {ε : Type*} (K : BuildKind ε) (root : String)

/-- The entries of one release directory. -/
def archives (T : FileTree) (tag : String) : List ε :=
  (T.children [tag]).filterMap fun name =>
    if T.file? [tag, name] = none then none else if K.isArchive name then K.entry T [tag, name] tag else none

/-- The release directories with their entries. -/
def releases (T : FileTree) : List (String × List ε) :=
  ((T.children []).filter fun tag => T.at? [tag] = some .dir ∧ K.isRelease tag).map fun tag => (tag, K.archives T tag)

def scan (T : FileTree) : Catalog String ε := Catalog.collect K.filename (K.releases T)

/-- What an addition puts in. -/
def added (T : FileTree) (path : Path) : Option ε :=
  if T.file? path = none then none
  else if K.isArchive (baseName path) then
    if K.isRelease (parentName root path) then K.entry T path (parentName root path) else none
  else none

def addOrUpdate (T : FileTree) (path : Path) (byRelease : Catalog String ε) : Catalog String ε :=
  match K.added root T path with
  | none => byRelease
  | some e => Catalog.put K.filename byRelease (parentName root path) e

def remove (path : Path) (byRelease : Catalog String ε) : Catalog String ε :=
  Catalog.drop K.filename byRelease (parentName root path) (baseName path)

def index : WatchdogIndex (Catalog String ε) where
  recursive := true
  fullScan := K.scan
  addOrUpdate := K.addOrUpdate root
  remove := K.remove root

/-! ## The shelves -/

/-- One slot for every release and file name, fed by the file directly in the release directory. -/
def shelves : Shelving (String × String) ε where
  slot path := some (parentName root path, baseName path)
  home s := [s.1, s.2]
  entry := K.added root
  Right T s o := o = K.added root T [s.1, s.2]

/-- What a scan lists for a release and a name. -/
def listed (T : FileTree) (tag name : String) : Option ε := K.added root T [tag, name]

def shown (byRelease : Catalog String ε) (s : String × String) : Option ε := Catalog.view K.filename byRelease s.1 s.2

variable {K root}

@[simp] theorem baseName_home (s : String × String) : baseName [s.1, s.2] = s.2 := rfl

@[simp] theorem parentName_home (s : String × String) : parentName root [s.1, s.2] = s.1 := rfl

theorem added_congr {T T' : FileTree} {path : Path} (h : T'.at? path = T.at? path) : K.added root T' path = K.added root T path := by
  rw [added, added, FileTree.file?, FileTree.file?, h, K.entry_congr h]

theorem added_eq_some {T : FileTree} {path : Path} {e : ε} : K.added root T path = some e ↔
    T.file? path ≠ none ∧ K.isArchive (baseName path) = true ∧ K.isRelease (parentName root path) = true ∧
      K.entry T path (parentName root path) = some e := by
  unfold added
  by_cases hfile : T.file? path = none
  · simp [hfile]
  · by_cases harchive : K.isArchive (baseName path) = true
    · by_cases hrelease : K.isRelease (parentName root path) = true <;> simp [hfile, harchive, hrelease]
    · simp [hfile, harchive]

theorem shelves_fed : (K.shelves root).Fed where
  steady {T T' s} h := by
    have hadded : K.added root T' [s.1, s.2] = K.added root T [s.1, s.2] := added_congr h
    exact ⟨hadded.symm, fun o ho => ho.trans hadded.symm⟩
  gone {T s} h := by
    replace h : T.at? [s.1, s.2] = none := h
    show none = K.added root T [s.1, s.2]
    rw [added, if_pos (FileTree.file?_eq_none_of_at? h)]
  alive s := by
    by_cases hnamed : ∃ T, K.added root T [s.1, s.2] ≠ none
    · obtain ⟨T₀, hne⟩ := hnamed
      obtain ⟨e, he⟩ := Option.ne_none_iff_exists'.1 hne
      obtain ⟨-, harchive, hrelease, hentry⟩ := added_eq_some.1 he
      refine .inr ⟨rfl, fun T hfile => ?_⟩
      have hnamed : K.entry T [s.1, s.2] s.1 ≠ none := by
        refine K.entry_named (T := T₀) ?_
        rw [show K.entry T₀ [s.1, s.2] s.1 = some e from hentry]
        nofun
      obtain ⟨e', he'⟩ := Option.ne_none_iff_exists'.1 hnamed
      have : K.added root T [s.1, s.2] = some e' := added_eq_some.2 ⟨hfile, harchive, hrelease, he'⟩
      show K.added root T [s.1, s.2] ≠ none
      rw [this]
      nofun
    · refine .inl fun T => ?_
      have hnone : K.added root T [s.1, s.2] = none := by
        by_contra hne
        exact hnamed ⟨T, hne⟩
      refine ⟨hnone, fun o => ?_⟩
      show o = K.added root T [s.1, s.2] ↔ _
      rw [hnone]

/-! ## The index keeps the shelves -/

section Scan
variable (T : FileTree)

theorem mem_archives {tag : String} {e : ε} : e ∈ K.archives T tag ↔
    ∃ name ∈ T.children [tag], T.file? [tag, name] ≠ none ∧ K.isArchive name = true ∧ K.entry T [tag, name] tag = some e := by
  rw [archives, List.mem_filterMap]
  refine exists_congr fun name => and_congr_right fun _ => ?_
  by_cases hfile : T.file? [tag, name] = none
  · simp [hfile]
  · by_cases harchive : K.isArchive name = true <;> simp [hfile, harchive]

theorem archives_apart (tag : String) : (K.archives T tag).Pairwise fun a b => K.filename a ≠ K.filename b := by
  have hnamed : ∀ {name : String} {e : ε},
      (if T.file? [tag, name] = none then none else if K.isArchive name then K.entry T [tag, name] tag else none) = some e →
        K.filename e = name := by
    intro name e h
    split at h
    · cases h
    · split at h
      · exact K.entry_filename h
      · cases h
  refine List.pairwise_filterMap.2 ((T.nodup_children [tag]).imp fun {name name'} hne a ha b hb heq => hne ?_)
  rw [hnamed ha, hnamed hb] at heq
  exact heq

theorem releases_nodup : ((K.releases T).map Prod.fst).Nodup := by
  rw [releases, List.map_map]
  exact ((T.nodup_children []).filter _).map fun _ _ h => h

theorem releases_apart : ∀ p ∈ K.releases T, p.2.Pairwise fun a b => K.filename a ≠ K.filename b := by
  intro p hp
  obtain ⟨tag, -, rfl⟩ := List.mem_map.1 hp
  exact archives_apart T tag

theorem kept_scan : Catalog.Kept K.filename (K.scan T) := Catalog.kept_collect (releases_nodup T) (releases_apart T)

/-- A scan shows the archives directly in the release directories. -/
theorem shown_scan (s : String × String) : K.shown (K.scan T) s = K.added root T [s.1, s.2] := by
  obtain ⟨tag, name⟩ := s
  ext e
  rw [added_eq_some]
  show Catalog.view K.filename (K.scan T) tag name = some e ↔ T.file? [tag, name] ≠ none ∧ K.isArchive name = true ∧
    K.isRelease tag = true ∧ K.entry T [tag, name] tag = some e
  rw [scan, Catalog.view_collect (releases_nodup T) (releases_apart T)]
  constructor
  · rintro ⟨list, hlist, he, hname⟩
    obtain ⟨tag', htag, heq⟩ := List.mem_map.1 hlist
    obtain ⟨rfl, rfl⟩ := Prod.mk.inj heq
    obtain ⟨-, htag⟩ := List.mem_filter.1 htag
    obtain ⟨name', -, hfile, harchive, hentry⟩ := (mem_archives T).1 he
    have : name' = name := (K.entry_filename hentry).symm.trans hname
    subst this
    exact ⟨hfile, harchive, (of_decide_eq_true htag).2, hentry⟩
  · rintro ⟨hfile, harchive, hrelease, hentry⟩
    have hin : name ∈ T.children [tag] := FileTree.mem_children.2 (FileTree.at?_ne_none_of_file? hfile)
    obtain ⟨n, hn⟩ := Option.ne_none_iff_exists'.1 (FileTree.at?_ne_none_of_file? hfile)
    have hdir : T.at? [tag] = some .dir := FileTree.at?_parent (p := [tag]) hn
    have htag : tag ∈ T.children [] := FileTree.mem_children.2 (by rw [List.nil_append, hdir]; nofun)
    refine ⟨_, List.mem_map.2 ⟨tag, List.mem_filter.2 ⟨htag, decide_eq_true ⟨hdir, hrelease⟩⟩, rfl⟩, ?_, K.entry_filename hentry⟩
    exact (mem_archives T).2 ⟨name, hin, hfile, harchive, hentry⟩

end Scan

theorem index_keeps : Keeps (K.index root) (K.shelves root) (Catalog.Kept K.filename) K.shown where
  scan_good := kept_scan
  scan_right := shown_scan
  add_good {T path x} h := by
    show Catalog.Kept K.filename (K.addOrUpdate root T path x)
    unfold addOrUpdate
    split
    · exact h
    · exact Catalog.kept_put h
  add_shown {T path x} h := by
    funext s
    rw [Shelving.add_apply]
    show K.shown (K.addOrUpdate root T path x) s =
      if some (parentName root path, baseName path) = some s then (K.added root T path).orElse fun _ => K.shown x s else K.shown x s
    unfold addOrUpdate
    cases hadded : K.added root T path with
    | none => dsimp only; split <;> rfl
    | some e =>
      dsimp only
      rw [shown, Catalog.view_put h, K.entry_filename (added_eq_some.1 hadded).2.2.2]
      by_cases hs : (parentName root path, baseName path) = s
      · subst hs
        rw [if_pos ⟨rfl, rfl⟩, if_pos rfl]
        rfl
      · rw [if_neg fun hand => hs (Prod.ext hand.1.symm hand.2.symm), if_neg fun heq => hs (Option.some_inj.1 heq)]
        rfl
  remove_good h := Catalog.kept_drop h
  remove_shown {path x} h := by
    funext s
    rw [Shelving.remove_apply]
    show Catalog.view K.filename (Catalog.drop K.filename x (parentName root path) (baseName path)) s.1 s.2 =
      if some (parentName root path, baseName path) = some s then none else K.shown x s
    rw [Catalog.view_drop h]
    by_cases hs : (parentName root path, baseName path) = s
    · subst hs
      rw [if_pos ⟨rfl, rfl⟩, if_pos rfl]
    · rw [if_neg fun hand => hs (Prod.ext hand.1.symm hand.2.symm), if_neg fun heq => hs (Option.some_inj.1 heq)]
      rfl
  entry_right _ h := h.symm

end BuildKind

/-! ## The Python mirror -/

section Python
variable (u : Unicode)

/-- `\d+`. -/
def digits : Regex := .some false (.char u.decimal)

def lowercase (c : Char) : Bool := 'a' ≤ c ∧ c ≤ 'z'

/-- A version with a prerelease: `\d+\.\d+\.\d+` and what may follow. -/
def versionThen (more : Regex) : Regex := inOrder [digits u, .lit ['.'], digits u, .lit ['.'], digits u, .opt more]

def eightDigits : Regex := inOrder (List.replicate 8 (.char u.decimal))

/-- `[^-]+`. -/
def dashless : Regex := .some false (.char (· ≠ '-'))

/-- `_BUILD_PATTERN`. -/
def buildPattern : Regex := inOrder
  [.group "flavor" (.oneOf ["cpython".toList, "pypy".toList]), .lit ['-'],
    .group "version" (versionThen u (.seq (.some false (.char lowercase)) (digits u))), .lit ['+'],
    .group "date" (eightDigits u), .lit ['-'],
    .group "triple" (inOrder [dashless, .lit ['-'], dashless, .lit ['-'], dashless, .lit ['-'], dashless]), .lit ['-'],
    .group "variant" (.some false .dot), .lit ['.'],
    .group "ext" (.oneOf ["tar.gz".toList, "tar.bz2".toList, "tar.xz".toList, "tar.zst".toList, "zip".toList]), .dollar]

def buildExtensions : List String := [".tar.gz", ".tar.bz2", ".tar.xz", ".tar.zst", ".zip"]

structure PythonBuildFile where
  filename : String
  path : Path
  releaseTag : String
  flavor : String
  version : String
  fullVersion : String
  targetTriple : String
  variant : String
  extension : String
  size : Nat
  deriving DecidableEq, Repr

/-- `_build_entry`, with `_parse_build_filename` in it. -/
def pythonEntry (T : FileTree) (fullPath : Path) : Option PythonBuildFile :=
  ((buildPattern u).capture (baseName fullPath)).map fun m =>
    { filename := baseName fullPath
      path := fullPath
      releaseTag := groupOf m "date"
      flavor := groupOf m "flavor"
      version := groupOf m "version"
      fullVersion := groupOf m "flavor" ++ "-" ++ groupOf m "version" ++ "+" ++ groupOf m "date"
      targetTriple := groupOf m "triple"
      variant := groupOf m "variant"
      extension := groupOf m "ext"
      size := statSize T fullPath }

def pythonKind : BuildKind PythonBuildFile where
  isRelease tag := ((inOrder [eightDigits u, .dollar]).capture tag).isSome
  isArchive name := buildExtensions.any (Text.endsWith · name)
  entry T path _ := pythonEntry u T path
  filename := PythonBuildFile.filename
  entry_filename h := by
    obtain ⟨m, -, rfl⟩ := Option.map_eq_some_iff.1 h
    rfl
  entry_congr h := by rw [pythonEntry, pythonEntry, statSize_congr h]
  entry_named h hnone := h (Option.map_eq_none_iff.2 (Option.map_eq_none_iff.1 hnone))

def pythonBuildIndex (root : String) : WatchdogIndex (Catalog String PythonBuildFile) := (pythonKind u).index root

end Python

/-! ## The Node mirror -/

section Node
variable (u : Unicode)

def alphanumericDot (c : Char) : Bool := ('0' ≤ c ∧ c ≤ '9') ∨ ('A' ≤ c ∧ c ≤ 'Z') ∨ ('a' ≤ c ∧ c ≤ 'z') ∨ c = '.'

def lowerAlphanumeric (c : Char) : Bool := ('0' ≤ c ∧ c ≤ '9') ∨ ('a' ≤ c ∧ c ≤ 'z')

/-- `[a-z0-9_]+`. -/
def archPart : Regex := .some false (.char fun c => lowerAlphanumeric c || c = '_')

/-- `_NODE_PATTERN`. -/
def nodePattern : Regex := inOrder
  [.lit "node-v".toList,
    .group "version" (versionThen u (inOrder [.lit ['-'],
      .oneOf ["rc".toList, "beta".toList, "alpha".toList, "nightly".toList], .many false (.char alphanumericDot)])),
    .opt (inOrder [.lit ['-'], .group "platform" (.some false (.char lowerAlphanumeric)),
      .opt (inOrder [.lit ['-'], .group "arch" (.seq archPart (.many false (.seq (.lit ['-']) archPart)))])]),
    .lit ['.'],
    .group "ext" (.oneOf ["tar.gz".toList, "tar.xz".toList, "tar.bz2".toList, "zip".toList, "7z".toList, "msi".toList,
      "pkg".toList, "tar".toList]), .dollar]

/-- `_RELEASE_DIR_PATTERN`. -/
def releaseDirPattern : Regex := inOrder
  [.opt (.lit ['v']), versionThen u (.seq (.lit ['-']) (.some false (.char fun c => alphanumericDot c || c = '-'))), .dollar]

structure NodeBuildFile where
  filename : String
  path : Path
  releaseTag : String
  version : String
  platform : String
  arch : String
  extension : String
  size : Nat
  deriving DecidableEq, Repr

/-- `_entry`, with `_parse_node_filename` in it. -/
def nodeEntry (T : FileTree) (fullPath : Path) (releaseTag : String) : Option NodeBuildFile :=
  ((nodePattern u).capture (baseName fullPath)).map fun m =>
    let extension := groupOf m "ext"
    { filename := baseName fullPath
      path := fullPath
      releaseTag
      version := groupOf m "version"
      platform := (m.lookup "platform").getD
        (if extension ∈ ["tar.gz", "tar.xz", "tar.bz2", "tar"] then "src" else extension)
      arch := groupOf m "arch"
      extension
      size := statSize T fullPath }

def nodeKind : BuildKind NodeBuildFile where
  isRelease tag := ((releaseDirPattern u).capture tag).isSome
  isArchive name := Text.startsWith "node-v" name
  entry := nodeEntry u
  filename := NodeBuildFile.filename
  entry_filename h := by
    obtain ⟨m, -, rfl⟩ := Option.map_eq_some_iff.1 h
    rfl
  entry_congr h := by rw [nodeEntry, nodeEntry, statSize_congr h]
  entry_named h hnone := h (Option.map_eq_none_iff.2 (Option.map_eq_none_iff.1 hnone))

/-- The archives, and what `index.json` says of the releases. -/
structure NodeBuilds (μ : Type*) where
  byRelease : Catalog String NodeBuildFile
  overlay : μ

variable {μ : Type*} (noOverlay : μ) (readOverlay : List UInt8 → μ)

/-- `_load_index_overlay`; what it makes of the bytes of the file is a parameter. -/
def loadIndexOverlay (T : FileTree) : μ :=
  match T.file? ["index.json"] with
  | none => noOverlay
  | some bytes => readOverlay bytes

def nodeBuildIndex (root : String) : WatchdogIndex (NodeBuilds μ) where
  recursive := true
  fullScan T := ⟨(nodeKind u).scan T, loadIndexOverlay noOverlay readOverlay T⟩
  addOrUpdate T path x := { x with byRelease := (nodeKind u).addOrUpdate root T path x.byRelease }
  remove path x := { x with byRelease := (nodeKind u).remove root path x.byRelease }

end Node

end OpenFish.Index
