/-
What the index lists of a directory whose tarballs lie under the file names of what they read back as, and that the
caches of the index and of the digests answer what the directory holds.
-/
import OpenFish.Npm.Reading

namespace OpenFish.Npm

open Lib

variable {formats : Formats}

/-! ## The scan -/

/-- A version is listed under a name: its file reads back as it. -/
def Listed (formats : Formats) (d : Directory) (name version : String) : Prop :=
  ∃ stored, d.files.get? (fileName name version) = some stored ∧
    identity formats (fileName name version) stored.bytes = .ok (some (name, version))

/-- Every tarball can be seen, lies under the file name of what it reads back as, and its version has a key. -/
def Filed (formats : Formats) (d : Directory) : Prop :=
  ∀ filename stored, d.files.get? filename = some stored → ∃ name version, filename = fileName name version ∧
    identity formats filename stored.bytes = .ok (some (name, version)) ∧ visible filename = true ∧
    (versionKey formats version).isSome = true

/-- The file of a version in an index. -/
def place (index : Index) (name version : String) : Option String :=
  (index.get? name).bind fun record => record.filenames.get? version

theorem place_add (index : Index) (filename : String) (found : Option (String × String)) (name version : String) :
    place (index.add filename found) name version =
      if found = some (name, version) then some filename else place index name version := by
  cases found with
  | none => rw [if_neg (by simp), Index.add]
  | some pair =>
    obtain ⟨name', version'⟩ := pair
    simp only [Index.add, place, Dict.get?_set, Option.some.injEq, Prod.mk.injEq]
    by_cases hname : name = name'
    · subst hname
      simp only [if_true, Option.bind_some, Dict.get?_set, true_and, eq_comm]
      by_cases hversion : version = version'
      · rw [if_pos hversion, if_pos hversion]
      · rw [if_neg hversion, if_neg hversion]
        cases index.get? name <;> rfl
    · rw [if_neg hname, if_neg fun h => hname h.1.symm]

/-- What the loop files under a version, where no two of its tarballs read as that version. -/
theorem place_foldlM {name version : String} :
    ∀ {files : List (String × Stored)} {index index' : Index},
      (∀ a ∈ files, ∀ b ∈ files, located formats a = .ok (some (name, version)) →
        located formats b = .ok (some (name, version)) → a.1 = b.1) →
      files.foldlM (addTarball formats) index = .ok index' →
      ∀ {filename : String}, place index' name version = some filename ↔
        (∃ file ∈ files, located formats file = .ok (some (name, version)) ∧ file.1 = filename) ∨
          (∀ file ∈ files, located formats file ≠ .ok (some (name, version))) ∧ place index name version = some filename
  | [], index, index', _, hok, filename => by
    cases Except.ok.inj hok
    simp
  | file :: files, index, index', hone, hok, filename => by
    have hrest := fun a ha b hb => hone a (List.mem_cons_of_mem _ ha) b (List.mem_cons_of_mem _ hb)
    rw [List.foldlM_cons] at hok
    obtain ⟨next, hnext, hok⟩ := ok_of_bind hok
    obtain ⟨found, hfound, rfl⟩ := map_ok hnext
    rw [place_foldlM hrest hok, place_add]
    by_cases hfile : found = some (name, version)
    · subst hfile
      rw [if_pos rfl, Option.some.injEq]
      constructor
      · rintro (⟨other, hmem, hother, rfl⟩ | ⟨-, rfl⟩)
        · exact .inl ⟨other, List.mem_cons_of_mem _ hmem, hother, rfl⟩
        · exact .inl ⟨file, List.mem_cons_self .., hfound, rfl⟩
      · rintro (⟨other, hmem, hother, rfl⟩ | ⟨hnone, -⟩)
        · by_cases hlater : ∃ later ∈ files, located formats later = .ok (some (name, version))
          · obtain ⟨later, hin, hlater⟩ := hlater
            exact .inl ⟨later, hin, hlater, hone _ (List.mem_cons_of_mem _ hin) _ hmem hlater hother⟩
          · exact .inr ⟨fun later hin h => hlater ⟨later, hin, h⟩, hone _ (List.mem_cons_self ..) _ hmem hfound hother⟩
        · exact absurd hfound (hnone _ (List.mem_cons_self ..))
    · have hnot : located formats file ≠ .ok (some (name, version)) := by
        rw [hfound]
        exact fun heq => hfile (Except.ok.inj heq)
      rw [if_neg hfile]
      simp [hnot]

theorem foldlM_isOk : ∀ {files : List (String × Stored)} (index : Index),
    (∀ file ∈ files, ∃ found, located formats file = .ok found) → ∃ index', files.foldlM (addTarball formats) index = .ok index'
  | [], index, _ => ⟨index, rfl⟩
  | file :: files, index, h => by
    obtain ⟨found, hfound⟩ := h file (List.mem_cons_self ..)
    obtain ⟨index', hrest⟩ := foldlM_isOk (index.add file.1 found) fun other hother => h other (List.mem_cons_of_mem _ hother)
    refine ⟨index', ?_⟩
    rw [List.foldlM_cons, addTarball, hfound]
    exact hrest

theorem Filed.located {d : Directory} (h : Filed formats d) {file : String × Stored}
    (hfile : d.files.get? file.1 = some file.2) :
    ∃ name version, file.1 = fileName name version ∧ located formats file = .ok (some (name, version)) ∧
      (versionKey formats version).isSome = true := by
  obtain ⟨name, version, hname, hidentity, hvisible, hkey⟩ := h _ _ hfile
  refine ⟨name, version, hname, ?_, hkey⟩
  rw [Npm.located, hvisible, if_neg (by decide), hidentity]

theorem Filed.mem_tarballs {d : Directory} (h : Filed formats d) (file : String × Stored) :
    file ∈ tarballs d ↔ d.files.get? file.1 = some file.2 := by
  rw [tarballs, List.mem_insertionSort, List.mem_filter, Dict.get?_eq_some]
  refine ⟨fun h => h.1, fun hin => ⟨hin, ?_⟩⟩
  obtain ⟨n, v, hname, -⟩ := h _ _ (Dict.get?_eq_some.2 hin)
  rw [hname]
  exact fileName_ext n v

theorem Filed.scan {d : Directory} (h : Filed formats d) : ∃ index, scan formats d = .ok index :=
  foldlM_isOk _ fun file hfile =>
    let ⟨name, version, _, hat, _⟩ := h.located ((h.mem_tarballs file).1 hfile)
    ⟨some (name, version), hat⟩

/-- The index finds exactly the listed versions, each in its own file. -/
theorem place_scan {d : Directory} (h : Filed formats d) {index : Index} (hscan : scan formats d = .ok index)
    {name version filename : String} :
    place index name version = some filename ↔ filename = fileName name version ∧ Listed formats d name version := by
  have hown {file : String × Stored} (hfile : d.files.get? file.1 = some file.2)
      (hat : located formats file = .ok (some (name, version))) : file.1 = fileName name version := by
    obtain ⟨n, v, hname, hat', -⟩ := h.located hfile
    rw [hat] at hat'
    cases hat'
    exact hname
  rw [place_foldlM (fun a ha b hb ha' hb' =>
    (hown ((h.mem_tarballs a).1 ha) ha').trans (hown ((h.mem_tarballs b).1 hb) hb').symm) hscan]
  constructor
  · rintro (⟨file, hin, hat, rfl⟩ | ⟨-, hnone⟩)
    · have hfile := (h.mem_tarballs file).1 hin
      have hname := hown hfile hat
      refine ⟨hname, file.2, hname ▸ hfile, ?_⟩
      rw [Npm.located] at hat
      split at hat
      · cases hat
      · rw [← hname]
        exact hat
    · cases hnone
  · rintro ⟨rfl, stored, hstored, hidentity⟩
    refine .inl ⟨(fileName name version, stored), (h.mem_tarballs _).2 hstored, ?_, rfl⟩
    obtain ⟨n, v, -, -, hvisible, -⟩ := h _ _ hstored
    rw [Npm.located, hvisible, if_neg (by decide)]
    exact hidentity

end OpenFish.Npm
