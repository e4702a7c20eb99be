/-
The flat index of a Debian directory (`hub.debian_packages_index`): what apt reads of it, and when that is what the directory
and its rows say.
-/
import OpenFish.Hub.Lossless
import OpenFish.Lib.Deb822

namespace OpenFish.Hub

open Lib Mirrors
open Lib.Deb822 (Stanza Kept Inside Keyed Reads)

/-! ## The index -/

/-- `_parse_debian_filename`. -/
def parseDebianFilename (filename : String) : Info :=
  let lower := Text.lower filename
  let stem := String.ofList (filename.toList.rdrop 4)
  if Text.endsWith ".deb" lower = true then
    match Text.split '_' stem with
    | name :: second :: third :: rest =>
      { name := name
        version := "_".intercalate (second :: third :: rest).dropLast
        arch := (second :: third :: rest).getLast (List.cons_ne_nil _ _)
        kind := "deb" }
    | [name, version] => { name := name, version := version, arch := "", kind := "deb" }
    | _ => { name := stem, version := "", arch := "", kind := "deb" }
  else if ([".list", ".sources", ".example", ".gpg", ".key"].any fun suffix => Text.endsWith suffix lower) = true then
    { name := filename, version := "", arch := "", kind := "config" }
  else { name := filename, version := "", arch := "", kind := "file" }

/-- The lines of an entry. -/
def packageLines (e : FlatEntry) : List String :=
  ["Package: " ++ e.name,
    "Version: " ++ (orNone e.version).getD "0",
    "Architecture: " ++ (orNone e.arch).getD "all",
    "Filename: files/" ++ e.filename.getD "None",
    "Size: " ++ toString (e.size.getD 0)] ++
  ((present e.sha256).map fun digest => "SHA256: " ++ digest).toList ++
  ["Description: " ++ (present e.description).getD e.name]

/-- `debian_packages_index`. -/
def debianPackagesIndex (artifacts : List FlatEntry) : String :=
  let entries := artifacts.filter fun e => e.kind = "deb" ∧ present e.downloadUrl ≠ none
  let stanzas := entries.map fun e => "\n".intercalate (packageLines e)
  "\n\n".intercalate stanzas ++ if stanzas = [] then "" else "\n"

/-! ## What it is to say -/

/-- The packages that are listed and have a file. -/
def debs (artifacts : List FlatEntry) : List FlatEntry := artifacts.filter fun e => e.kind = "deb" ∧ e.downloadUrl.isSome = true

/-- The entry's own fields. -/
def ownFields (e : FlatEntry) : Stanza :=
  [("Package", e.name), ("Version", (orNone e.version).getD "0"), ("Architecture", (orNone e.arch).getD "all"),
    ("Filename", "files/" ++ e.filename.getD "None"), ("Size", toString (e.size.getD 0))] ++
  ((present e.sha256).map fun digest => ("SHA256", digest)).toList

def descriptionField (e : FlatEntry) : String × String := ("Description", (present e.description).getD e.name)

theorem packageLines_eq (e : FlatEntry) : packageLines e = (ownFields e ++ [descriptionField e]).map Deb822.fieldText := by
  have hfile (name : String) : "Filename: files/" ++ name = "Filename: " ++ ("files/" ++ name) := by
    rw [← String.append_assoc]
    rfl
  cases hsha : present e.sha256 <;> simp [packageLines, ownFields, descriptionField, Deb822.fieldText, hsha, hfile]

theorem debianPackagesIndex_eq {artifacts : List FlatEntry} (h : ∀ e ∈ artifacts, e.downloadUrl ≠ some "") :
    debianPackagesIndex artifacts =
      Deb822.render (((debs artifacts).map fun e => (ownFields e, descriptionField e)).map fun w => w.1 ++ [w.2]) := by
  have hdebs : artifacts.filter (fun e => e.kind = "deb" ∧ present e.downloadUrl ≠ none) = debs artifacts := by
    refine List.filter_congr fun e he => decide_eq_decide.2 (and_congr_right fun _ => ?_)
    cases hurl : e.downloadUrl with
    | none => simp [present]
    | some url =>
      have hne : url ≠ "" := fun heq => h e he (by rw [hurl, heq])
      simp [present, orNone, hne]
  rw [debianPackagesIndex, hdebs, Deb822.render, List.map_map, List.map_map]
  have hstanza : (Deb822.stanzaText ∘ (fun w : Stanza × (String × String) => w.1 ++ [w.2])) ∘
      (fun e => (ownFields e, descriptionField e)) = fun e => "\n".intercalate (packageLines e) := by
    funext e
    rw [packageLines_eq]
    rfl
  rw [List.map_map, hstanza]
  simp only [List.map_eq_nil_iff]

/-- The keys of a stanza, with and without a digest. -/
def keySets : List (List String) :=
  [["Package", "Version", "Architecture", "Filename", "Size", "Description"],
    ["Package", "Version", "Architecture", "Filename", "Size", "SHA256", "Description"]]

theorem keys_mem_keySets (e : FlatEntry) : (ownFields e ++ [descriptionField e]).map Prod.fst ∈ keySets := by
  cases hsha : present e.sha256 <;> simp [ownFields, descriptionField, hsha, keySets]

theorem keyed (e : FlatEntry) : Keyed (ownFields e ++ [descriptionField e]) := by
  have hkeys := keys_mem_keySets e
  refine ⟨fun f hf => ?_, ?_⟩
  · have hvalid : ∀ keys ∈ keySets, ∀ key ∈ keys, Deb822.validKey key.toList = true := by decide
    exact hvalid _ hkeys _ (List.mem_map_of_mem hf)
  · have hnodup : ∀ keys ∈ keySets, (keys.map fun key => key.toList.map Char.toLower).Nodup := by decide
    have hunique := hnodup _ hkeys
    rw [List.map_map] at hunique
    exact hunique

/-! ## Values that are read as they are -/

theorem kept_of_plain {v : String} (h : ∀ c ∈ v.toList, c ≠ '\n' ∧ Deb822.isBlank c = false) : Kept v := by
  have hlines : Deb822.linesOf v = [v.toList] := by
    rw [Deb822.linesOf, List.splitOn_eq_splitOnP, List.splitOnP_eq_singleton]
    intro c hc
    simpa using (h c hc).1
  refine ⟨?_, fun l hl => ?_⟩
  · have hplain : ∀ c ∈ v.toList, ¬ Deb822.isBlank c = true := fun c hc => Bool.eq_false_iff.1 (h c hc).2
    rw [Deb822.first, hlines, List.headD_cons, Deb822.trim, List.dropWhile_eq_self_iff.2, List.rdropWhile_eq_self_iff.2]
    · exact fun hne => hplain _ (List.getLast_mem hne)
    · exact fun hpos => hplain _ (List.getElem_mem hpos)
  · rw [Deb822.more, hlines] at hl
    cases hl

theorem kept_of_all {v : String} (h : (v.toList.all fun c => c ≠ '\n' && !Deb822.isBlank c) = true) : Kept v :=
  kept_of_plain fun c hc => by simpa using List.all_eq_true.1 h c hc

theorem kept_toString (n : Nat) : Kept (toString n) := kept_of_plain fun c hc => by
  have hdigit := Text.isDigit_of_mem_toString hc
  refine ⟨fun heq => ?_, ?_⟩
  · rw [heq] at hdigit
    exact absurd hdigit (by decide)
  · rw [Deb822.isBlank, Bool.or_eq_false_iff, decide_eq_false_iff_not, decide_eq_false_iff_not]
    refine ⟨fun heq => ?_, fun heq => ?_⟩ <;> rw [heq] at hdigit <;> exact absurd hdigit (by decide)

theorem kept_or {v fallback : String} (h : Kept fallback) : Kept ((orNone v).getD fallback) ↔ Kept v := by
  unfold orNone
  split
  · rename_i hempty
    have hkept : Kept "" := kept_of_plain (by simp)
    rw [hempty]
    exact ⟨fun _ => hkept, fun _ => h⟩
  · exact Iff.rfl

theorem inside_of_kept {v : String} (h : Kept v) : Inside v := fun l hl => by
  rw [List.dropWhile_eq_nil_iff.2 h.more] at hl
  cases hl

/-- A text of a file: of its row, or else of its name. -/
def textOf (row : Option String) (parsed fallback : String) : String := (row.or (orNone parsed)).getD fallback

/-- All texts of a file are kept, and its description stays in its field. -/
structure Readable (row : Option Item) (f : File) : Prop where
  name : Kept (textOf (row.bind (·.name)) (parseDebianFilename f.name).name f.name)
  version : Kept (textOf (row.bind (·.version)) (parseDebianFilename f.name).version "")
  arch : Kept (textOf (row.bind (·.arch)) (parseDebianFilename f.name).arch "")
  filename : Kept ("files/" ++ f.name)
  digest : ∀ digest, f.sha256 = some digest → Kept digest
  description : ∀ text, row.bind (·.description) = some text → Inside text

section Packages

variable (s : Site) (rows : List Item) (files : List File)

theorem readable_iff (row : Option Item) (f : File) :
    (∀ g ∈ ownFields (flatEntry s parseDebianFilename row f), Kept g.2) ∧
        Inside (descriptionField (flatEntry s parseDebianFilename row f)).2 ↔ Readable row f := by
  have hzero : Kept "0" := kept_of_all (by decide)
  have hall : Kept "all" := kept_of_all (by decide)
  have hempty : Kept "" := kept_of_all (by decide)
  constructor
  · rintro ⟨hown, hdescription⟩
    rw [ownFields, List.forall_mem_append, List.forall_mem_cons, List.forall_mem_cons, List.forall_mem_cons,
      List.forall_mem_cons] at hown
    obtain ⟨⟨hname, hversion, harch, hfile, -⟩, hdigest⟩ := hown
    refine ⟨hname, (kept_or hzero).1 hversion, (kept_or hall).1 harch, hfile, fun digest hsome => ?_, fun text htext => ?_⟩
    · by_cases hblank : digest = ""
      · rw [hblank]
        exact hempty
      · refine hdigest ("SHA256", digest) ?_
        simp [flatEntry, hsome, present, orNone, hblank]
    · by_cases hblank : text = ""
      · rw [hblank]
        exact inside_of_kept hempty
      · have hfield : (descriptionField (flatEntry s parseDebianFilename row f)).2 = text := by
          simp [descriptionField, flatEntry, htext, present, orNone, hblank]
        exact hfield ▸ hdescription
  · intro h
    refine ⟨?_, ?_⟩
    · rw [ownFields, List.forall_mem_append]
      refine ⟨?_, fun g hg => ?_⟩
      · simp only [List.forall_mem_cons]
        exact ⟨h.name, (kept_or hzero).2 h.version, (kept_or hall).2 h.arch, h.filename, kept_toString _, by simp⟩
      · obtain ⟨digest, hdigest, rfl⟩ := Option.map_eq_some_iff.1 (Option.mem_toList.1 hg)
        obtain ⟨text, htext, hpresent⟩ := Option.bind_eq_some_iff.1 hdigest
        unfold orNone at hpresent
        split at hpresent
        · cases hpresent
        · cases hpresent
          exact h.digest digest htext
    · rw [descriptionField]
      dsimp only
      cases htext : row.bind (·.description) with
      | none =>
        have hnone : present (flatEntry s parseDebianFilename row f).description = none := by simp [flatEntry, htext, present]
        rw [hnone]
        exact inside_of_kept h.name
      | some text =>
        have hsome : present (flatEntry s parseDebianFilename row f).description = orNone text := by
          simp [flatEntry, htext, present]
        rw [hsome, orNone]
        split
        · exact inside_of_kept h.name
        · exact h.description text htext

theorem debs_scanFlat : debs (scanFlat s parseDebianFilename (some files) rows) =
    ((artifactFiles files).map fun f => flatEntry s parseDebianFilename ((byFilename rows).get? f.name) f).filter
      (·.kind = "deb") := by
  rw [← served_scanFlat, List.filter_filter, debs]
  exact List.filter_congr fun e _ => by simp

theorem downloadUrl_scanFlat (dir : Option (List File)) :
    ∀ e ∈ scanFlat s parseDebianFilename dir rows, e.downloadUrl ≠ some "" := by
  intro e he hurl
  cases dir with
  | none => cases he
  | some files =>
    have hserved : e ∈ (scanFlat s parseDebianFilename (some files) rows).filter (fun e => e.downloadUrl.isSome) :=
      List.mem_filter.2 ⟨he, by rw [hurl]; rfl⟩
    rw [served_scanFlat] at hserved
    obtain ⟨f, -, rfl⟩ := List.mem_map.1 hserved
    have hempty : s.url f.name = "" := Option.some.inj hurl
    rw [Site.url] at hempty
    have hlength := congrArg String.length hempty
    simp at hlength

end Packages

/-- Whatever lies in the directory and whatever the rows say: the index is read as one stanza for each package with a file, in
order, with its own fields and no other but the description, exactly if each of them is readable. -/
theorem packages_read_iff (s : Site) (dir : Option (List File)) (rows : List Item) :
    (∃ stanzas, Deb822.parse (debianPackagesIndex (scanFlat s parseDebianFilename dir rows)) = some stanzas ∧
        List.Forall₂ (fun e st => (∀ f ∈ ownFields e, f ∈ st) ∧ ∀ f ∈ st, f.1 ∈ (ownFields e ++ [descriptionField e]).map Prod.fst)
          (debs (scanFlat s parseDebianFilename dir rows)) stanzas) ↔
      ∀ files, dir = some files → ∀ f ∈ artifactFiles files,
        textOf (((byFilename rows).get? f.name).bind (·.kind)) (parseDebianFilename f.name).kind "file" = "deb" →
          Readable ((byFilename rows).get? f.name) f := by
  have hkeyed : ∀ w ∈ (debs (scanFlat s parseDebianFilename dir rows)).map (fun e => (ownFields e, descriptionField e)),
      Keyed (w.1 ++ [w.2]) := fun w hw => by
    obtain ⟨e, -, rfl⟩ := List.mem_map.1 hw
    exact keyed e
  have hread := Deb822.parse_render_iff hkeyed
  rw [← debianPackagesIndex_eq (downloadUrl_scanFlat s rows dir)] at hread
  simp only [List.forall₂_map_left_iff] at hread
  refine hread.trans ?_
  rw [List.forall_mem_map]
  cases dir with
  | none => simp [scanFlat, debs]
  | some files =>
    rw [debs_scanFlat]
    constructor
    · intro h files' hfiles f hf hkind
      cases hfiles
      exact (readable_iff s _ f).1 (h _ (List.mem_filter.2 ⟨List.mem_map_of_mem hf, decide_eq_true hkind⟩))
    · intro h e he
      obtain ⟨hmem, hkind⟩ := List.mem_filter.1 he
      obtain ⟨f, hf, rfl⟩ := List.mem_map.1 hmem
      exact (readable_iff s _ f).2 (h files rfl f hf (of_decide_eq_true hkind))

/-- A package with a row whose description has a second line. -/
def describedFile : File where
  parts := ["a_1_all.deb"]
  size := 3
  sizeHuman := "3 B"
  modified := "2024-01-01"
  sha256 := none

def describedRow : Item where
  filename := some "a_1_all.deb"
  name := none
  version := none
  arch := none
  kind := none
  description := some "editor\nDepends: b"
  tags := []

def debianSite : Site := ⟨"/debian/files", id⟩

/-- The second line is read as a field, which is none of the entry's. -/
theorem secondLine_not_read : ∃ st,
    Deb822.parse (debianPackagesIndex (scanFlat debianSite parseDebianFilename (some [describedFile]) [describedRow])) = some [st] ∧
    ("Depends", "b") ∈ st ∧
    ∀ e ∈ debs (scanFlat debianSite parseDebianFilename (some [describedFile]) [describedRow]),
      "Depends" ∉ (ownFields e ++ [descriptionField e]).map Prod.fst := by
  refine ⟨[("Package", "a"), ("Version", "1"), ("Architecture", "all"), ("Filename", "files/a_1_all.deb"), ("Size", "3"),
    ("Description", "editor"), ("Depends", "b")], by decide +kernel, by decide, by decide +kernel⟩

end OpenFish.Hub
