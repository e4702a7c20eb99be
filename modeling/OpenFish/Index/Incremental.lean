/-
The incremental indexes against a rescan: whenever all events are delivered, an index holds what a scan of the tree
holds, in every run whose changes keep to the places that the scans look at.
-/
import OpenFish.Index.Builds

namespace OpenFish.Index

open Lib

/-! ## The package index -/

section Packages
variable {u : Unicode}

variable (u) in
/-- The change makes, removes and moves no directory directly under the root whose name reads as a distribution's. -/
def SparesPackageNames (c : Change) : Prop := ∀ d ∈ c.directories, ∀ name, d = [name] → ¬ Readable u name

theorem sees_home (name : String) : (packageIndex u).sees ((packageShelves u).home name) = true := rfl

theorem directories_ne_nil {c : Change} {d : Path} (h : d ∈ c.directories) : d ≠ [] := by
  cases c with
  | write | unlink | rename => cases h
  | mkdir dir name => rw [List.mem_singleton.1 h]; exact FileTree.append_singleton_ne_nil dir name
  | rmdir dir name => rw [List.mem_singleton.1 h]; exact FileTree.append_singleton_ne_nil dir name
  | bringDir dir name S => rw [List.mem_singleton.1 h]; exact FileTree.append_singleton_ne_nil dir name
  | takeDir dir name => rw [List.mem_singleton.1 h]; exact FileTree.append_singleton_ne_nil dir name
  | renameDir dir name dir' name' =>
    rcases List.mem_cons.1 h with rfl | h
    · exact FileTree.append_singleton_ne_nil dir name
    · rw [List.mem_singleton.1 h]
      exact FileTree.append_singleton_ne_nil dir' name'

/-- Changes of files directly under the root are reported, and so is what such a directory change leaves alone. -/
theorem noticed_packages (T : FileTree) {c : Change} (hok : SparesPackageNames u c) :
    Noticed (packageIndex u) (packageShelves u) T c := by
  have hhome : ∀ {path : Path}, (packageIndex u).sees path = true → path = [baseName path] := by
    intro path hsees
    have hlen : path.length = 1 := by
      rw [WatchdogIndex.sees] at hsees
      simpa [packageIndex] using hsees
    obtain ⟨name, rfl⟩ := List.length_eq_one_iff.1 hlen
    rfl
  cases hdir : c.ofDirectory with
  | false =>
    refine noticed_file packageShelves_fed sees_home hdir ?_ ?_
    · intro path _ hsees T hne
      refine ⟨baseName path, packageSlot path _ |>.2 ⟨rfl, ?_⟩, (hhome hsees).symm⟩
      obtain ⟨f, hf⟩ := Option.ne_none_iff_exists'.1 hne
      replace hf : packageEntry u T path = some f := hf
      unfold packageEntry at hf
      split at hf
      · cases hf
      · split at hf
        · rw [(buildPackageFile_eq_some hf).1]
          rfl
        · cases hf
    · intro T' _ path _ hsees name hslot hne
      refine absurd ?_ hne
      rw [((packageSlot path name).1 hslot).1]
      exact (hhome hsees).symm
  | true =>
    refine noticed_directory hdir fun T' happly name => ?_
    by_cases hread : Readable u name
    · refine packageShelves_fed.steady (FileTree.at?_of_directories happly hdir fun d hd hpre => ?_)
      refine hok d hd name ?_ hread
      rcases List.prefix_cons_iff.1 hpre with hnil | ⟨t, rfl, ht⟩
      · exact absurd hnil (directories_ne_nil hd)
      · rw [List.prefix_nil.1 ht]
    · rcases packageShelves_fed.alive name with hdead | ⟨-, hfill⟩
      · exact hdead.steady
      · exact Shelving.Dead.steady fun T => ⟨(unreadable hread T).1, fun o => by
          show o.map (PackageFile.filled T) = listedPackage u T name ↔ _
          rw [(unreadable hread T).2, Option.map_eq_none_iff]⟩

end Packages

/-! ## The mirrors -/

namespace BuildKind

variable {ε : Type*} (K : BuildKind ε) (root : String)

/-- What a change to a tree is to keep: of directories, it leaves alone what is listed; of files, it brings archives of a
release only directly into its directory, and takes none from elsewhere whose names a listed one has. -/
structure KeepsToReleases (T T' : FileTree) (c : Change) : Prop where
  directories : c.ofDirectory = true → ∀ tag name, K.listed root T' tag name = K.listed root T tag name
  arrives : ∀ path ∈ c.target, ∀ T, K.added root T path ≠ none → path = [parentName root path, baseName path]
  leaves : ∀ path ∈ c.source, path ≠ [parentName root path, baseName path] →
    [parentName root path, baseName path] ∉ c.target → K.listed root T' (parentName root path) (baseName path) = none

variable {K root}

theorem noticed {σ : Type*} {I : WatchdogIndex σ} (hrec : I.recursive = true) {T : FileTree} {c : Change}
    (hok : ∀ T', T.apply c = some T' → K.KeepsToReleases root T T' c) : Noticed I (K.shelves root) T c := by
  have hsees : ∀ path, I.sees path = true := fun path => by rw [WatchdogIndex.sees, hrec, Bool.true_or]
  intro T' happly
  have hok' := hok T' happly
  cases hdir : c.ofDirectory with
  | true =>
    refine noticed_directory hdir (fun T'' happly' s => ?_) T' happly
    rw [happly] at happly'
    cases happly'
    have hlisted := hok'.directories hdir s.1 s.2
    exact ⟨hlisted.symm, fun o ho => ho.trans hlisted.symm⟩
  | false =>
    refine noticed_file shelves_fed (fun s => hsees _) hdir ?_ ?_ T' happly
    · intro path hpath _ T hne
      exact ⟨(parentName root path, baseName path), rfl, (hok'.arrives path hpath T hne).symm⟩
    · intro T'' happly' path hpath _ s hslot hne hnoadd
      rw [happly] at happly'
      cases happly'
      have hs : s = (parentName root path, baseName path) := (Option.some_inj.1 hslot).symm
      subst hs
      show none = K.added root T' [parentName root path, baseName path]
      by_cases htarget : [parentName root path, baseName path] ∈ c.target
      · exact (hnoadd _ htarget (hsees _) rfl).symm
      · exact (hok'.leaves path hpath (fun heq => hne heq.symm) htarget).symm

end BuildKind

section Node
variable {u : Unicode} {root : String} {μ : Type*} {noOverlay : μ} {readOverlay : List UInt8 → μ}

theorem nodeBuildIndex_keeps : Keeps (nodeBuildIndex u noOverlay readOverlay root) ((nodeKind u).shelves root)
    (fun x => Catalog.Kept NodeBuildFile.filename x.byRelease) (fun x => (nodeKind u).shown x.byRelease) := by
  have hcatalog : Keeps ((nodeKind u).index root) ((nodeKind u).shelves root) (Catalog.Kept NodeBuildFile.filename)
      (nodeKind u).shown := BuildKind.index_keeps
  exact hcatalog.comap NodeBuilds.byRelease (fun _ => rfl) (fun _ _ _ => rfl) fun _ _ => rfl

theorem handle_overlay (T : FileTree) (x : NodeBuilds μ) (e : FileEvent) :
    ((nodeBuildIndex u noOverlay readOverlay root).handle T x e).overlay = x.overlay := by
  rw [WatchdogIndex.handle_eq]
  cases e.added <;> cases e.removed <;> rfl

/-- The overlay is the one of the start, and stays that of the tree under such changes. -/
theorem overlay_kept {T : FileTree} {ms : List WatchMove}
    (h : ((nodeBuildIndex u noOverlay readOverlay root).runs T).AllSteps
      (fun _ s m => ∀ c, m = .change c → ∀ T', s.tree.apply c = some T' →
        loadIndexOverlay noOverlay readOverlay T' = loadIndexOverlay noOverlay readOverlay s.tree) ms) :
    (((nodeBuildIndex u noOverlay readOverlay root).runs T).state ms).contents.overlay =
      loadIndexOverlay noOverlay readOverlay (((nodeBuildIndex u noOverlay readOverlay root).runs T).state ms).tree := by
  refine Machine.AllSteps.invariant
    (P := fun _ s => s.contents.overlay = loadIndexOverlay noOverlay readOverlay s.tree) rfl (fun _ s m hs hm => ?_) h
  rw [WatchdogIndex.runs_step]
  cases m with
  | change c =>
    unfold WatchdogIndex.watch
    dsimp only
    cases happly : s.tree.apply c with
    | none => exact hs
    | some T' => exact hs.trans (hm c rfl T' happly).symm
  | deliver =>
    unfold WatchdogIndex.watch
    dsimp only
    cases s.pending with
    | nil => exact hs
    | cons e pending => exact (handle_overlay s.tree s.contents e).trans hs

end Node

/-! ## Every index equals a rescan -/

/-- Whenever no event is pending, each index equals a fresh one that scans the tree: the package index once the sizes
are read, and the mirrors' indexes as they are. -/
theorem equals_rescan (u : Unicode) (root : String) {μ : Type*} (noOverlay : μ) (readOverlay : List UInt8 → μ)
    (T : FileTree) (ms : List WatchMove) :
    (((packageIndex u).runs T).AllSteps (fun _ _ m => ∀ c, m = .change c → SparesPackageNames u c) ms →
      ∀ s, s = ((packageIndex u).runs T).state ms → s.pending = [] → ∀ name,
        (s.contents.get? name).map (·.map (PackageFile.filled s.tree)) =
          (((packageIndex u).fullScan s.tree).get? name).map (·.map (PackageFile.filled s.tree))) ∧
    (((pythonBuildIndex u root).runs T).AllSteps
        (fun _ s m => ∀ c, m = .change c → ∀ T', s.tree.apply c = some T' →
          (pythonKind u).KeepsToReleases root s.tree T' c) ms →
      ∀ s, s = ((pythonBuildIndex u root).runs T).state ms → s.pending = [] → ∀ tag,
        s.contents.get? tag = ((pythonBuildIndex u root).fullScan s.tree).get? tag) ∧
    (((nodeBuildIndex u noOverlay readOverlay root).runs T).AllSteps (fun _ s m => ∀ c, m = .change c →
        ∀ T', s.tree.apply c = some T' → (nodeKind u).KeepsToReleases root s.tree T' c ∧
          loadIndexOverlay noOverlay readOverlay T' = loadIndexOverlay noOverlay readOverlay s.tree) ms →
      ∀ s, s = ((nodeBuildIndex u noOverlay readOverlay root).runs T).state ms → s.pending = [] →
        (∀ tag, s.contents.byRelease.get? tag =
          ((nodeBuildIndex u noOverlay readOverlay root).fullScan s.tree).byRelease.get? tag) ∧
        s.contents.overlay = ((nodeBuildIndex u noOverlay readOverlay root).fullScan s.tree).overlay) := by
  refine ⟨?_, ?_, ?_⟩
  · rintro hok s rfl hpending name
    obtain ⟨hgood, hright⟩ := packageIndex_keeps.runs (hok.imp fun _ _ _ hm c hc => noticed_packages _ (hm c hc))
    refine samePackages hgood (good_scan _) (fun name => ?_) name
    exact (hright hpending name).trans (packageIndex_keeps.scan_right _ name).symm
  · rintro hok s rfl hpending tag
    obtain ⟨hgood, hright⟩ := BuildKind.index_keeps.runs (I := pythonBuildIndex u root)
      (hok.imp fun _ _ _ hm c hc => BuildKind.noticed rfl (hm c hc))
    refine Catalog.Kept.ext hgood (BuildKind.kept_scan _) (fun tag name => ?_) tag
    exact (hright hpending (tag, name)).trans (BuildKind.index_keeps.scan_right _ (tag, name)).symm
  · rintro hok s rfl hpending
    obtain ⟨hgood, hright⟩ := nodeBuildIndex_keeps.runs (hok.imp fun _ _ _ hm c hc => BuildKind.noticed rfl fun T' h => (hm c hc T' h).1)
    refine ⟨fun tag => ?_, overlay_kept (hok.imp fun _ _ _ hm c hc T' h => (hm c hc T' h).2)⟩
    refine Catalog.Kept.ext hgood (BuildKind.kept_scan _) (fun tag name => ?_) tag
    exact (hright hpending (tag, name)).trans (nodeBuildIndex_keeps.scan_right _ (tag, name)).symm

/-! ## Runs -/

def cpythonArchive : String := "cpython-3.12.1+20240101-x86_64-unknown-linux-gnu-install_only.tar.gz"

/-- A release directory with an archive, and a distribution. -/
def published : List WatchMove :=
  [.deliver, .deliver, .deliver, .change (.write [] "foo-1.0.tar.gz" [1]), .change (.write ["20240101"] cpythonArchive [1]),
    .change (.mkdir [] "20240101")]

/-- An archive in a directory that is named like a release, but is not directly under the root. -/
def keptAside : List WatchMove :=
  [.deliver, .deliver, .deliver, .change (.write ["old", "20240101"] cpythonArchive [1]),
    .change (.mkdir ["old"] "20240101"), .change (.mkdir [] "old")]

namespace BuildKind

variable {ε : Type*} {K : BuildKind ε} {root : String}

theorem added_of_foreign {path : Path} (h : K.isRelease (parentName root path) = false) (T : FileTree) :
    K.added root T path = none := by
  rw [Option.eq_none_iff_forall_ne_some]
  intro e he
  have := (added_eq_some.1 he).2.2.1
  rw [h] at this
  cases this

/-- A new directory takes no file from a release, and brings none. -/
theorem keepsToReleases_mkdir {T T' : FileTree} {dir : Path} {name : String} (h : T.apply (.mkdir dir name) = some T') :
    K.KeepsToReleases root T T' (.mkdir dir name) := by
  refine ⟨fun _ tag file => ?_, nofun, nofun⟩
  have hmade : T.mkdir dir name = some T' := h
  have hat := FileTree.mkdir_at? hmade
  have hfree : T.at? (dir ++ [name]) = none := by
    unfold FileTree.mkdir at hmade
    split at hmade
    · rename_i hand
      exact hand.2
    · cases hmade
  by_cases hpath : [tag, file] = dir ++ [name]
  · have hnone : T.file? [tag, file] = none := FileTree.file?_eq_none_of_at? (by rw [hpath]; exact hfree)
    have hnone' : T'.file? [tag, file] = none := by rw [FileTree.file?, hat, if_pos hpath]
    rw [listed, listed, added, added, if_pos hnone, if_pos hnone']
  · exact added_congr (by rw [hat, if_neg hpath])

/-- A file that is written directly into a directory under the root, or into one that is no release's, keeps to the
releases. -/
theorem keepsToReleases_write {T T' : FileTree} {dir : Path} {name : String} {bytes : List UInt8}
    (h : dir.length = 1 ∨ K.isRelease (parentName root (dir ++ [name])) = false) :
    K.KeepsToReleases root T T' (.write dir name bytes) := by
  refine ⟨nofun, ?_, nofun⟩
  rintro path hpath T hne
  cases hpath
  rcases h with h | h
  · obtain ⟨tag, rfl⟩ := List.length_eq_one_iff.1 h
    rfl
  · exact absurd (added_of_foreign h T) hne

end BuildKind

/-- After `published` every index holds what a rescan lists. -/
theorem equals_rescan_published :
    (∀ name, ((((packageIndex .ascii).runs FileTree.empty).state published).contents.get? name).map
        (·.map (PackageFile.filled (((packageIndex .ascii).runs FileTree.empty).state published).tree)) =
      (((packageIndex .ascii).fullScan (((packageIndex .ascii).runs FileTree.empty).state published).tree).get? name).map
        (·.map (PackageFile.filled (((packageIndex .ascii).runs FileTree.empty).state published).tree))) ∧
    (∀ tag, (((pythonBuildIndex .ascii "builds").runs FileTree.empty).state published).contents.get? tag =
      ((pythonBuildIndex .ascii "builds").fullScan
        (((pythonBuildIndex .ascii "builds").runs FileTree.empty).state published).tree).get? tag) ∧
    (((nodeBuildIndex .ascii [] id "builds").runs FileTree.empty).state published).contents.overlay =
      ((nodeBuildIndex .ascii [] id "builds").fullScan
        (((nodeBuildIndex .ascii [] id "builds").runs FileTree.empty).state published).tree).overlay := by
  obtain ⟨hpackages, hpython, hnode⟩ := equals_rescan .ascii "builds" [] id FileTree.empty published
  refine ⟨hpackages ?_ _ rfl (by decide +kernel), hpython ?_ _ rfl (by decide +kernel), (hnode ?_ _ rfl (by decide +kernel)).2⟩
  · refine ⟨nofun, nofun, nofun, ?_, ?_, ?_, trivial⟩
    · intro c hc
      cases hc
      exact nofun
    · intro c hc
      cases hc
      exact nofun
    · intro c hc d hd name hname
      cases hc
      rw [hname, Change.directories, List.mem_singleton] at hd
      cases hd
      exact fun h => absurd h.1 (by decide)
  · refine ⟨nofun, nofun, nofun, ?_, ?_, ?_, trivial⟩
    · intro c hc T' _
      cases hc
      exact BuildKind.keepsToReleases_write (.inr (by decide +kernel))
    · intro c hc T' _
      cases hc
      exact BuildKind.keepsToReleases_write (.inl rfl)
    · intro c hc T' happly
      cases hc
      exact BuildKind.keepsToReleases_mkdir happly
  · refine ⟨nofun, nofun, nofun, ?_, ?_, ?_, trivial⟩
    · intro c hc T' happly
      cases hc
      refine ⟨BuildKind.keepsToReleases_write (.inr (by decide +kernel)), ?_⟩
      rw [loadIndexOverlay, loadIndexOverlay, FileTree.file?, FileTree.file?, FileTree.write_at? happly, if_neg (by decide)]
    · intro c hc T' happly
      cases hc
      refine ⟨BuildKind.keepsToReleases_write (.inl rfl), ?_⟩
      rw [loadIndexOverlay, loadIndexOverlay, FileTree.file?, FileTree.file?, FileTree.write_at? happly, if_neg (by decide)]
    · intro c hc T' happly
      cases hc
      refine ⟨BuildKind.keepsToReleases_mkdir happly, ?_⟩
      rw [loadIndexOverlay, loadIndexOverlay, FileTree.file?, FileTree.file?, FileTree.mkdir_at? happly, if_neg (by decide)]

/-- A directory with a distribution's name is listed by a scan, and by no event; an archive elsewhere under a name of a
release is listed by its event, and by no scan; and what is written to `index.json` later is never read. -/
theorem incremental_differs :
    (((packageIndex .ascii).runs FileTree.empty).state [.deliver, .change (.mkdir [] "foo-1.0.zip")]).pending = [] ∧
    ((((packageIndex .ascii).runs FileTree.empty).state [.deliver, .change (.mkdir [] "foo-1.0.zip")]).contents.get? "foo").isNone ∧
    (((packageIndex .ascii).fullScan
      (((packageIndex .ascii).runs FileTree.empty).state [.deliver, .change (.mkdir [] "foo-1.0.zip")]).tree).get? "foo").isSome ∧
    (((pythonBuildIndex .ascii "builds").runs FileTree.empty).state keptAside).pending = [] ∧
    ((((pythonBuildIndex .ascii "builds").runs FileTree.empty).state keptAside).contents.get? "20240101").isSome ∧
    (((pythonBuildIndex .ascii "builds").fullScan
      (((pythonBuildIndex .ascii "builds").runs FileTree.empty).state keptAside).tree).get? "20240101").isNone ∧
    (((nodeBuildIndex .ascii [] id "builds").runs FileTree.empty).state
      [.deliver, .change (.write [] "index.json" [1])]).contents.overlay = [] ∧
    ((nodeBuildIndex .ascii [] id "builds").fullScan (((nodeBuildIndex .ascii [] id "builds").runs FileTree.empty).state
      [.deliver, .change (.write [] "index.json" [1])]).tree).overlay = [1] := by
  decide +kernel

end OpenFish.Index
