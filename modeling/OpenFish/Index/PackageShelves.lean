/-
The shelves of `PackageIndex`: one slot for every file name that reads as a distribution's, fed by the entry of that
name directly under the root.
-/
import OpenFish.Index.Packages
import OpenFish.Index.Shelving

namespace OpenFish.Index

open Lib

variable (u : Unicode)

/-- `get_sha256` reads the size that a scan has left out. -/
def PackageFile.filled (T : FileTree) (f : PackageFile) : PackageFile :=
  if f.size = 0 then { f with size := statSize T f.path } else f

/-- The file name reads as a distribution's. -/
def Readable (name : String) : Prop := hasPackageExtension name = true ∧ ∃ k, parseName u name = some k ∧ k ≠ ""

/-- The entry that a scan lists for a name, with its size. -/
def listedPackage (T : FileTree) (name : String) : Option PackageFile :=
  if T.at? [name] ≠ none ∧ hasPackageExtension name then buildPackageFile u T [name] true else none

/-- What an addition puts in. -/
def packageEntry (T : FileTree) (path : Path) : Option PackageFile :=
  if T.file? path = none then none
  else if hasPackageExtension (baseName path) then buildPackageFile u T path true else none

def packageShelves : Shelving String PackageFile where
  slot path := if (parseName u (baseName path)).isSome then some (baseName path) else none
  home name := [name]
  entry := packageEntry u
  Right T name o := o.map (PackageFile.filled T) = listedPackage u T name

/-- Every entry stands under the name of its package. -/
structure GoodPackages (packages : Catalog String PackageFile) : Prop where
  kept : Catalog.Kept PackageFile.rank packages
  keyed : ∀ k files, packages.get? k = some files → ∀ f ∈ files, parseName u f.filename = some k

def shownPackage (packages : Catalog String PackageFile) (name : String) : Option PackageFile :=
  (parseName u name).bind fun k => Catalog.view PackageFile.rank packages k (OrderDual.toDual name)

variable {u}

theorem baseName_singleton (name : String) : baseName [name] = name := rfl

theorem buildPackageFile_eq_some {T : FileTree} {path : Path} {wantSize : Bool} {pf : PackageFile}
    (h : buildPackageFile u T path wantSize = some pf) :
    parseName u (baseName path) = some pf.packageName ∧ pf.packageName ≠ "" ∧ pf.filename = baseName path ∧
      pf.path = path ∧ pf.size = if wantSize then statSize T path else 0 := by
  unfold buildPackageFile at h
  dsimp only at h
  split at h
  · cases h
  · rename_i k hk
    split at h
    · cases h
    · rename_i hne
      cases h
      exact ⟨hk, hne, rfl, rfl, rfl⟩

theorem buildPackageFile_ne_none {T : FileTree} {path : Path} {wantSize : Bool} :
    buildPackageFile u T path wantSize ≠ none ↔ ∃ k, parseName u (baseName path) = some k ∧ k ≠ "" := by
  unfold buildPackageFile
  dsimp only
  cases parseName u (baseName path) with
  | none => simp
  | some k => by_cases hk : k = "" <;> simp [hk]

/-- What is built without the size is the entry once the size is read. -/
theorem filled_buildPackageFile (T : FileTree) (path : Path) (wantSize : Bool) :
    (buildPackageFile u T path wantSize).map (PackageFile.filled T) = buildPackageFile u T path true := by
  unfold buildPackageFile
  dsimp only
  split
  · rfl
  · split
    · rfl
    · rw [Option.map_some, Option.some_inj, PackageFile.filled]
      cases wantSize with
      | false => rfl
      | true => exact ite_id _

theorem filled_filename (T : FileTree) (f : PackageFile) : (f.filled T).filename = f.filename := by
  unfold PackageFile.filled
  split <;> rfl

theorem filled_path (T : FileTree) (f : PackageFile) : (f.filled T).path = f.path := by
  unfold PackageFile.filled
  split <;> rfl

theorem statSize_congr {T T' : FileTree} {path : Path} (h : T'.at? path = T.at? path) : statSize T' path = statSize T path := by
  rw [statSize, statSize, FileTree.file?, FileTree.file?, h]

theorem buildPackageFile_congr {T T' : FileTree} {path : Path} (h : T'.at? path = T.at? path) (wantSize : Bool) :
    buildPackageFile u T' path wantSize = buildPackageFile u T path wantSize := by
  rw [buildPackageFile, buildPackageFile, statSize_congr h]

theorem packageEntry_congr {T T' : FileTree} {path : Path} (h : T'.at? path = T.at? path) :
    packageEntry u T' path = packageEntry u T path := by
  rw [packageEntry, packageEntry, FileTree.file?, FileTree.file?, h, buildPackageFile_congr h]

theorem listedPackage_congr {T T' : FileTree} {name : String} (h : T'.at? [name] = T.at? [name]) :
    listedPackage u T' name = listedPackage u T name := by
  rw [listedPackage, listedPackage, h, buildPackageFile_congr h]

/-- A name that does not read as a distribution's is never listed. -/
theorem unreadable {name : String} (h : ¬ Readable u name) (T : FileTree) :
    packageEntry u T [name] = none ∧ listedPackage u T name = none := by
  have hbuild : hasPackageExtension name = true → buildPackageFile u T [name] true = none := by
    intro hext
    by_contra hne
    have hparsed := buildPackageFile_ne_none.1 hne
    rw [baseName_singleton] at hparsed
    exact h ⟨hext, hparsed⟩
  unfold packageEntry listedPackage
  rw [baseName_singleton]
  constructor
  · split
    · rfl
    · split
      · rename_i hext
        exact hbuild hext
      · rfl
  · split
    · rename_i hand
      exact hbuild hand.2
    · rfl

theorem packageEntry_ne_none {T : FileTree} {name : String} (h : Readable u name) (hfile : T.file? [name] ≠ none) :
    packageEntry u T [name] ≠ none := by
  rw [packageEntry, if_neg hfile, baseName_singleton, if_pos h.1, buildPackageFile_ne_none, baseName_singleton]
  exact h.2

/-- An entry whose size is read shows the file it was read from. -/
theorem filled_congr {T T' : FileTree} {name : String} (h : T'.at? [name] = T.at? [name]) {o : Option PackageFile}
    (ho : o.map (PackageFile.filled T) = listedPackage u T name) :
    o.map (PackageFile.filled T') = o.map (PackageFile.filled T) := by
  cases o with
  | none => rfl
  | some f =>
    have hpath : f.path = [name] := by
      rw [Option.map_some, listedPackage] at ho
      split at ho
      · rw [← filled_path T f]
        exact (buildPackageFile_eq_some ho.symm).2.2.2.1
      · cases ho
    rw [Option.map_some, Option.map_some, PackageFile.filled, PackageFile.filled, hpath, statSize_congr h]

theorem packageShelves_fed : (packageShelves u).Fed where
  steady {T T' name} h := by
    replace h : T'.at? [name] = T.at? [name] := h
    refine ⟨(packageEntry_congr h).symm, fun o ho => ?_⟩
    replace ho : o.map (PackageFile.filled T) = listedPackage u T name := ho
    show o.map (PackageFile.filled T') = listedPackage u T' name
    rw [filled_congr h ho, ho, listedPackage_congr h]
  gone {T name} h := by
    show none = listedPackage u T name
    rw [listedPackage, if_neg fun hand => hand.1 h]
  alive name := by
    by_cases hread : Readable u name
    · refine .inr ⟨?_, fun T => packageEntry_ne_none hread⟩
      obtain ⟨-, k, hk, -⟩ := hread
      show (if (parseName u name).isSome then some name else none) = some name
      rw [hk]
      rfl
    · refine .inl fun T => ⟨(unreadable hread T).1, fun o => ?_⟩
      show o.map (PackageFile.filled T) = listedPackage u T name ↔ _
      rw [(unreadable hread T).2, Option.map_eq_none_iff]

/-! ## The index keeps the shelves -/

/-- One entry of the directory as a scan reads it. -/
theorem scanned_eq_some {T : FileTree} {name : String} {p : String × PackageFile} :
    (if hasPackageExtension name then (buildPackageFile u T [name] false).map fun pf => (pf.packageName, pf) else none) =
        some p ↔
      hasPackageExtension name = true ∧ buildPackageFile u T [name] false = some p.2 ∧ p.1 = p.2.packageName := by
  obtain ⟨k, pf⟩ := p
  by_cases hext : hasPackageExtension name = true
  · rw [if_pos hext, Option.map_eq_some_iff]
    constructor
    · rintro ⟨pf', hbuild, heq⟩
      cases heq
      exact ⟨hext, hbuild, rfl⟩
    · rintro ⟨-, hbuild, hk⟩
      exact ⟨pf, hbuild, congrArg (·, pf) hk.symm⟩
  · rw [if_neg hext]
    exact iff_of_false nofun fun h => hext h.1

theorem scan_apart (T : FileTree) : Catalog.Apart PackageFile.rank (packageEntries u T) := by
  refine List.pairwise_filterMap.2 ((T.nodup_children []).imp fun {name name'} hne p hp q hq _ heq => hne ?_)
  have hname := (buildPackageFile_eq_some (scanned_eq_some.1 hp).2.1).2.2.1
  have hname' := (buildPackageFile_eq_some (scanned_eq_some.1 hq).2.1).2.2.1
  rw [baseName_singleton] at hname hname'
  rw [← hname, ← hname']
  exact OrderDual.toDual_inj.1 heq

theorem good_scan (T : FileTree) : GoodPackages u (packageScan u T) := by
  refine ⟨Catalog.kept_group (scan_apart T), fun k files hget f hf => ?_⟩
  have hview : Catalog.view PackageFile.rank (packageScan u T) k f.rank = some f :=
    (Catalog.kept_group (scan_apart T)).view_eq_some.2 ⟨files, hget, hf, rfl⟩
  obtain ⟨name, -, hscanned⟩ := List.mem_filterMap.1 ((Catalog.view_group (scan_apart T)).1 hview).1
  obtain ⟨-, hbuild, hk⟩ := scanned_eq_some.1 hscanned
  obtain ⟨hparse, -, hfilename, -⟩ := buildPackageFile_eq_some hbuild
  rw [hfilename, hparse, ← hk]

/-- A scan shows what is listed, without the sizes. -/
theorem shown_scan (T : FileTree) (name : String) : shownPackage u (packageScan u T) name =
    if T.at? [name] ≠ none ∧ hasPackageExtension name then buildPackageFile u T [name] false else none := by
  ext f
  rw [shownPackage, Option.bind_eq_some_iff]
  have hchild : name ∈ T.children [] ↔ T.at? [name] ≠ none := FileTree.mem_children
  constructor
  · rintro ⟨k, hparse, hview⟩
    obtain ⟨hmem, hrank⟩ := (Catalog.view_group (scan_apart T)).1 hview
    obtain ⟨name', hname', hscanned⟩ := List.mem_filterMap.1 hmem
    obtain ⟨hext, hbuild, -⟩ := scanned_eq_some.1 hscanned
    have hfilename := (buildPackageFile_eq_some hbuild).2.2.1
    rw [baseName_singleton] at hfilename
    have : f.filename = name := OrderDual.toDual_inj.1 hrank
    rw [hfilename] at this
    subst this
    rw [if_pos ⟨hchild.1 hname', hext⟩]
    exact hbuild
  · intro h
    split at h
    · rename_i hand
      obtain ⟨hparse, -, hfilename, -⟩ := buildPackageFile_eq_some h
      rw [baseName_singleton] at hparse hfilename
      refine ⟨f.packageName, hparse, (Catalog.view_group (scan_apart T)).2 ⟨List.mem_filterMap.2 ⟨name, hchild.2 hand.1, ?_⟩, ?_⟩⟩
      · exact scanned_eq_some.2 ⟨hand.2, h, rfl⟩
      · exact congrArg OrderDual.toDual hfilename
    · cases h

theorem good_put {packages : Catalog String PackageFile} (h : GoodPackages u packages) {T : FileTree} {path : Path}
    {wantSize : Bool} {pf : PackageFile} (hbuild : buildPackageFile u T path wantSize = some pf) :
    GoodPackages u (Catalog.put PackageFile.rank packages pf.packageName pf) := by
  refine ⟨Catalog.kept_put h.kept, fun k files hget f hf => ?_⟩
  obtain ⟨hparse, -, hfilename, -⟩ := buildPackageFile_eq_some hbuild
  rw [Catalog.put, Dict.get?_set] at hget
  split at hget
  · rename_i hk
    cases hget
    rcases List.mem_append.1 (Catalog.mem_sortByName.1 hf) with hf | hf
    · have hf := List.mem_of_mem_filter hf
      cases hold : packages.get? pf.packageName with
      | none => rw [hold] at hf; cases hf
      | some old =>
        rw [hold] at hf
        rw [hk]
        exact h.keyed _ old hold f hf
    · rw [List.mem_singleton.1 hf, hfilename, hparse, hk]
  · exact h.keyed k files hget f hf

theorem good_drop {packages : Catalog String PackageFile} (h : GoodPackages u packages) (k : String) (n : OrderDual String) :
    GoodPackages u (Catalog.drop PackageFile.rank packages k n) := by
  refine ⟨Catalog.kept_drop h.kept, fun k' files hget f hf => ?_⟩
  have hview : Catalog.view PackageFile.rank (Catalog.drop PackageFile.rank packages k n) k' f.rank = some f :=
    (Catalog.kept_drop h.kept).view_eq_some.2 ⟨files, hget, hf, rfl⟩
  rw [Catalog.view_drop h.kept] at hview
  split at hview
  · cases hview
  · obtain ⟨old, hold, hin, -⟩ := h.kept.view_eq_some.1 hview
    exact h.keyed k' old hold f hin

theorem packageSlot (path : Path) (name : String) :
    (packageShelves u).slot path = some name ↔ name = baseName path ∧ (parseName u name).isSome = true := by
  show (if (parseName u (baseName path)).isSome then some (baseName path) else none) = some name ↔ _
  constructor
  · intro h
    split at h
    · rename_i hsome
      cases h
      exact ⟨rfl, hsome⟩
    · cases h
  · rintro ⟨rfl, hsome⟩
    rw [if_pos hsome]

theorem shown_put {packages : Catalog String PackageFile} (h : GoodPackages u packages) {T : FileTree} {path : Path}
    {wantSize : Bool} {pf : PackageFile} (hbuild : buildPackageFile u T path wantSize = some pf) (name : String) :
    shownPackage u (Catalog.put PackageFile.rank packages pf.packageName pf) name =
      if name = baseName path then some pf else shownPackage u packages name := by
  obtain ⟨hparse, -, hfilename, -⟩ := buildPackageFile_eq_some hbuild
  rw [shownPackage, shownPackage]
  split
  · rename_i heq
    rw [heq, hparse, Option.bind_some, Catalog.view_put h.kept, if_pos ⟨rfl, by rw [PackageFile.rank, hfilename]⟩]
  · rename_i hne
    cases hname : parseName u name with
    | none => rfl
    | some k =>
      rw [Option.bind_some, Option.bind_some, Catalog.view_put h.kept, if_neg]
      rintro ⟨-, hrank⟩
      exact hne ((OrderDual.toDual_inj.1 hrank).trans hfilename)

theorem shown_drop {packages : Catalog String PackageFile} (h : GoodPackages u packages) {path : Path} {k : String}
    (hparse : parseName u (baseName path) = some k) (name : String) :
    shownPackage u (Catalog.drop PackageFile.rank packages k (OrderDual.toDual (baseName path))) name =
      if name = baseName path then none else shownPackage u packages name := by
  rw [shownPackage, shownPackage]
  split
  · rename_i heq
    rw [heq, hparse, Option.bind_some, Catalog.view_drop h.kept, if_pos ⟨rfl, rfl⟩]
  · rename_i hne
    cases hname : parseName u name with
    | none => rfl
    | some k' =>
      rw [Option.bind_some, Option.bind_some, Catalog.view_drop h.kept, if_neg]
      rintro ⟨-, hrank⟩
      exact hne (OrderDual.toDual_inj.1 hrank)

theorem packageIndex_keeps : Keeps (packageIndex u) (packageShelves u) (GoodPackages u) (shownPackage u) where
  scan_good := good_scan
  scan_right T name := by
    show (shownPackage u (packageScan u T) name).map (PackageFile.filled T) = listedPackage u T name
    rw [shown_scan, listedPackage]
    split
    · exact filled_buildPackageFile T [name] false
    · rfl
  add_good {T path x} h := by
    show GoodPackages u (packageAddOrUpdate u T path x)
    unfold packageAddOrUpdate
    split
    · exact h
    · split
      · cases hbuild : buildPackageFile u T path true with
        | none => exact h
        | some pf => exact good_put h hbuild
      · exact h
  add_shown {T path x} h := by
    funext name
    rw [Shelving.add_apply]
    show shownPackage u (packageAddOrUpdate u T path x) name =
      if (packageShelves u).slot path = some name then (packageEntry u T path).orElse fun _ => shownPackage u x name
      else shownPackage u x name
    simp only [packageSlot]
    unfold packageAddOrUpdate packageEntry
    split
    · split <;> rfl
    · split
      · cases hbuild : buildPackageFile u T path true with
        | none => dsimp only; split <;> rfl
        | some pf =>
          dsimp only
          rw [shown_put h hbuild]
          have hparse := (buildPackageFile_eq_some hbuild).1
          -- the file is on the one shelf of its name, and on no other
          by_cases hname : name = baseName path
          · rw [if_pos hname, if_pos ⟨hname, by rw [hname, hparse]; rfl⟩]
            rfl
          · rw [if_neg hname, if_neg fun hand => hname hand.1]
      · split <;> rfl
  remove_good {path x} h := by
    show GoodPackages u (packageRemove u path x)
    unfold packageRemove
    split
    · exact h
    · exact good_drop h _ _
  remove_shown {path x} h := by
    funext name
    rw [Shelving.remove_apply]
    show shownPackage u (packageRemove u path x) name = _
    simp only [packageSlot]
    unfold packageRemove
    cases hparse : parseName u (baseName path) with
    | none =>
      rw [if_neg]
      rintro ⟨rfl, hsome⟩
      rw [hparse] at hsome
      cases hsome
    | some k =>
      dsimp only
      rw [shown_drop h hparse]
      by_cases hname : name = baseName path
      · rw [if_pos hname, if_pos ⟨hname, by rw [hname, hparse]; rfl⟩]
      · rw [if_neg hname, if_neg fun hand => hname hand.1]
  entry_right {T name f} _ h := by
    replace h : packageEntry u T [name] = some f := h
    show some (f.filled T) = listedPackage u T name
    unfold packageEntry at h
    split at h
    · cases h
    · rename_i hfile
      split at h
      · rename_i hext
        rw [listedPackage, if_pos ⟨FileTree.at?_ne_none_of_file? hfile, hext⟩, ← filled_buildPackageFile T [name] true, h]
        rfl
      · cases h

/-- Two indexes that show the same, once the sizes are read, hold the same lists. -/
theorem samePackages {x y : Catalog String PackageFile} (hx : GoodPackages u x) (hy : GoodPackages u y) {T : FileTree}
    (h : ∀ name, (shownPackage u x name).map (PackageFile.filled T) = (shownPackage u y name).map (PackageFile.filled T))
    (k : String) : (x.get? k).map (·.map (PackageFile.filled T)) = (y.get? k).map (·.map (PackageFile.filled T)) := by
  have hrank : ∀ f : PackageFile, (f.filled T).rank = f.rank := fun f => congrArg OrderDual.toDual (filled_filename T f)
  have hother : ∀ {x : Catalog String PackageFile}, GoodPackages u x → ∀ {k : String} {n : OrderDual String},
      parseName u (OrderDual.ofDual n) ≠ some k → Catalog.view PackageFile.rank x k n = none := by
    intro x hx k n hne
    rw [Option.eq_none_iff_forall_ne_some]
    intro f hview
    obtain ⟨files, hget, hf, rfl⟩ := hx.kept.view_eq_some.1 hview
    exact hne (hx.keyed k files hget f hf)
  have := Catalog.Kept.ext (Catalog.kept_mapEntries hx.kept hrank) (Catalog.kept_mapEntries hy.kept hrank) (fun k n => ?_) k
  · rwa [Dict.get?_mapVals, Dict.get?_mapVals] at this
  · rw [Catalog.view_mapEntries hrank, Catalog.view_mapEntries hrank]
    by_cases hparse : parseName u (OrderDual.ofDual n) = some k
    · have := h (OrderDual.ofDual n)
      rw [shownPackage, shownPackage, hparse, Option.bind_some, Option.bind_some] at this
      exact this
    · rw [hother hx hparse, hother hy hparse]

end OpenFish.Index
