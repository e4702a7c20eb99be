/-
What the package index lists of an accepted upload: the stored file stands under its project and version exactly if the
stored name is a wheel's or a source distribution's with a version of digits and dots, and the version that was uploaded
has neither an epoch nor a local label, both of which `secure_filename` runs into the rest.
-/
import OpenFish.Index.PackageShelves
import OpenFish.Index.Patterns
import OpenFish.Packages.Distribution
import OpenFish.Packages.Validation

namespace OpenFish.Packages

open Lib OpenFish.Index

/-! ## Listed files -/

/-- A stored file is found by clients: under some project, and where the uploaded name denotes a project and a version,
under these. -/
structure Listed (u : Unicode) (packages : Catalog String PackageFile) (uploaded stored : String) : Prop where
  appears : ∃ project files pf, getFiles u packages project = some files ∧ pf ∈ files ∧ pf.filename = stored
  denoted : ∀ project version, denotes uploaded = some (project, version) →
    ∃ files pf, getFiles u packages project = some files ∧ pf ∈ files ∧ pf.filename = stored ∧
      Version.parse pf.version.toList = some version

/-- `name-version-python-abi-platform.whl`, also with a build tag. -/
def WheelShaped (cs : List Char) : Prop :=
  ∃ name version python abi platform, name ≠ [] ∧ Of (fun c => c.isAlphanum || c = '_' || c = '.') version ∧ python ≠ [] ∧
    abi ≠ [] ∧ platform ≠ [] ∧
    cs = name ++ '-' :: (version ++ '-' :: (python ++ '-' :: (abi ++ '-' :: (platform ++ ".whl".toList))))

/-- `name-version.ext` with a version of digits and dots. -/
def SdistShaped (cs : List Char) : Prop :=
  ∃ name version ext, name ≠ [] ∧ Of (fun c => c.isDigit || c = '.') version ∧ ext ∈ sdistExtensions ∧
    cs = name ++ '-' :: (version ++ '.' :: ext)

/-- The stored name reads as a distribution's, and the uploaded version has no epoch and no local label. -/
structure Plain (folding : Folding) (uploaded : String) : Prop where
  shaped : WheelShaped (secureFilename folding uploaded).toList ∨ SdistShaped (secureFilename folding uploaded).toList
  unmarked : ∀ project version, denotes uploaded = some (project, version) → version.epoch = 0 ∧ version.localLabel = none

/-! ## Safe characters -/

theorem safeChar_range {c : Char} (h : safeChar c = true) : 45 ≤ c.toNat ∧ c.toNat < 128 := by
  have halphanum : c.isAlphanum = ((decide (c.val ≥ 'A'.val ∧ c.val ≤ 'Z'.val) ||
    (decide (c.val ≥ 'a'.val) && decide (c.val ≤ 'z'.val))) || (decide (c.val ≥ '0'.val) && decide (c.val ≤ '9'.val))) := rfl
  simp only [safeChar, halphanum, Bool.or_eq_true, Bool.and_eq_true, decide_eq_true_eq, UInt32.le_iff_toNat_le,
    ge_iff_le] at h
  have : c.toNat = c.val.toNat := rfl
  have : 'A'.val.toNat = 65 := rfl
  have : 'Z'.val.toNat = 90 := rfl
  have : 'a'.val.toNat = 97 := rfl
  have : 'z'.val.toNat = 122 := rfl
  have : '0'.val.toNat = 48 := rfl
  have : '9'.val.toNat = 57 := rfl
  rcases h with ((h | rfl) | rfl) | rfl
  · omega
  all_goals decide

theorem safeChar_ascii {c : Char} (h : safeChar c = true) : c.toNat < 128 := (safeChar_range h).2

theorem safeChar_not_space {c : Char} (h : safeChar c = true) : Text.isSpace c = false := by
  obtain ⟨hlow, hhigh⟩ := safeChar_range h
  rw [Bool.eq_false_iff]
  intro hspace
  simp only [Text.isSpace, List.contains_iff_mem, List.mem_cons, List.not_mem_nil, or_false] at hspace
  omega

theorem safeChar_secureFilename (folding : Folding) (filename : String) :
    ∀ c ∈ (secureFilename folding filename).toList, safeChar c = true := by
  intro c hc
  rw [secureFilename, String.toList_ofList] at hc
  have := (List.rdropWhile_prefix _ _).subset hc
  have := (List.dropWhile_suffix _).subset this
  exact (List.mem_filter.1 this).2

theorem safeChar_ne {c d : Char} (h : safeChar c = true) (hd : safeChar d = false) : c ≠ d := by
  rintro rfl
  rw [h] at hd
  cases hd

section Classes
variable {u : Unicode} {c : Char} (h : safeChar c = true)
include h

theorem wheelVersionChar_safe : wheelVersionChar u c = (c.isAlphanum || c = '_' || c = '.') := by
  have hbang := safeChar_ne h (d := '!') rfl
  have hplus := safeChar_ne h (d := '+') rfl
  have hlt := safeChar_ne h (d := '<') rfl
  have hgt := safeChar_ne h (d := '>') rfl
  rw [wheelVersionChar, u.word_ascii c (safeChar_ascii h)]
  simp [hbang, hplus, hlt, hgt, beq_eq_decide]

theorem sdistVersionChar_safe : sdistVersionChar u c = (c.isDigit || c = '.') := by
  have hbang := safeChar_ne h (d := '!') rfl
  have hlt := safeChar_ne h (d := '<') rfl
  have hgt := safeChar_ne h (d := '>') rfl
  rw [sdistVersionChar, u.decimal_ascii c (safeChar_ascii h)]
  simp [hbang, hlt, hgt]

end Classes

/-! ## What the patterns make of a safe name -/

section Safe
variable {u : Unicode} {cs : List Char} (hsafe : ∀ c ∈ cs, safeChar c = true)
include hsafe

theorem no_newline (part : List Char) {rest : List Char} (h : cs = part ++ rest) : rest ≠ ['\n'] := by
  rintro rfl
  exact safeChar_ne (hsafe '\n' (by rw [h]; exact List.mem_append_right _ (List.mem_singleton_self _))) rfl rfl

/-- A safe name that `_parse_name` reads has one of the two shapes. -/
theorem shaped_of_parseName {k : String} (h : parseName u (String.ofList cs) = some k) : WheelShaped cs ∨ SdistShaped cs := by
  unfold parseName at h
  split at h
  · rename_i groups hcapture
    obtain ⟨name, version, build, python, abi, platform, rest, hname, hversion, hbuild, hpython, habi, hplatform, hend, heq, -, -⟩ :=
      wheel_of_capture hcapture
    have hrest : rest = [] := by
      refine hend.resolve_right (no_newline hsafe (name ++ '-' :: (version ++ (build ++ '-' :: (python ++ '-' ::
        (abi ++ '-' :: (platform ++ ".whl".toList)))))) ?_)
      rw [heq, wheelTail]
      simp only [List.append_assoc, List.cons_append]
    subst hrest
    have hversion' : Of (fun c => c.isAlphanum || c = '_' || c = '.') version := by
      refine ⟨hversion.1, fun c hc => ?_⟩
      refine (wheelVersionChar_safe (hsafe c ?_)).symm.trans (hversion.2 c hc)
      rw [heq]
      exact List.mem_append_right _ (List.mem_cons_of_mem _ (List.mem_append_left _ hc))
    refine .inl ?_
    rcases hbuild with rfl | ⟨tag, htag, rfl⟩
    · exact ⟨name, version, python, abi, platform, hname.1, hversion', hpython.1, habi.1, hplatform.1,
        by rw [heq, wheelTail, List.append_nil, List.nil_append]⟩
    · refine ⟨name, version, tag, python, abi ++ '-' :: platform, hname.1, hversion', htag.1, hpython.1, by simp, ?_⟩
      rw [heq, wheelTail]
      simp only [List.append_assoc, List.cons_append, List.append_nil]
  · obtain ⟨groups, hcapture, -⟩ := Option.map_eq_some_iff.1 h
    obtain ⟨name, version, ext, rest, hname, hversion, hext, hend, heq, -, -⟩ := sdist_of_capture hcapture
    have hrest : rest = [] := by
      refine hend.resolve_right (no_newline hsafe (name ++ '-' :: (version ++ '.' :: ext)) ?_)
      rw [heq]
      simp only [List.append_assoc, List.cons_append]
    subst hrest
    refine .inr ⟨name, version, ext, hname.1, ⟨hversion.1, fun c hc => ?_⟩, hext, by rw [heq, List.append_nil]⟩
    refine (sdistVersionChar_safe (hsafe c ?_)).symm.trans (hversion.2 c hc)
    rw [heq]
    exact List.mem_append_right _ (List.mem_cons_of_mem _ (List.mem_append_left _ hc))

omit hsafe in
/-- What is taken for the version stands in the name. -/
theorem extractVersion_subset {k : String} (h : parseName u (String.ofList cs) = some k) :
    ∀ c ∈ (extractVersion u (String.ofList cs) k).toList, c ∈ cs := by
  unfold parseName at h
  unfold extractVersion
  split at h
  · rename_i groups hcapture
    obtain ⟨name, version, build, python, abi, platform, rest, -, -, -, -, -, -, -, heq, -, hversion⟩ := wheel_of_capture hcapture
    rw [hversion, String.toList_ofList, heq]
    exact fun c hc => List.mem_append_right _ (List.mem_cons_of_mem _ (List.mem_append_left _ hc))
  · obtain ⟨groups, hcapture, -⟩ := Option.map_eq_some_iff.1 h
    obtain ⟨name, version, ext, rest, -, -, -, -, heq, -, hversion⟩ := sdist_of_capture hcapture
    rw [hcapture]
    dsimp only
    rw [hversion, String.toList_ofList, heq]
    exact fun c hc => List.mem_append_right _ (List.mem_cons_of_mem _ (List.mem_append_left _ hc))

omit hsafe in
theorem collapseRuns_ne_nil {cs : List Char} (h : cs ≠ []) : collapseRuns cs ≠ [] := by
  cases cs with
  | nil => exact absurd rfl h
  | cons c cs =>
    rw [collapseRuns]
    split
    · split
      · rename_i heq
        exact List.cons_ne_nil _ _
      · exact List.cons_ne_nil _ _
    · exact List.cons_ne_nil _ _

/-- The normalized name of a project is not empty. -/
theorem normalize_ne_empty (hne : cs ≠ []) : normalizePackageName u (String.ofList cs) ≠ "" := by
  intro h
  have hascii : ∀ c ∈ (String.ofList cs).toList, c.toNat < 128 := by
    rw [String.toList_ofList]
    exact fun c hc => safeChar_ascii (hsafe c hc)
  rw [normalizePackageName, u.lower_ascii _ hascii, String.toList_ofList, String.toList_ofList] at h
  have := congrArg String.toList h
  rw [String.toList_ofList] at this
  exact collapseRuns_ne_nil (by simpa using hne) this

omit hsafe in
/-- What a file name is read as is a part of it. -/
theorem project_of_parseName {k : String} (h : parseName u (String.ofList cs) = some k) :
    ∃ project, project ≠ [] ∧ project ⊆ cs ∧ k = normalizePackageName u (String.ofList project) := by
  unfold parseName at h
  split at h
  · rename_i groups hcapture
    obtain ⟨name, version, build, python, abi, platform, rest, hname, -, -, -, -, -, -, heq, hgroup, -⟩ := wheel_of_capture hcapture
    cases h
    exact ⟨name, hname.1, heq ▸ List.subset_append_left _ _, by rw [hgroup]⟩
  · obtain ⟨groups, hcapture, rfl⟩ := Option.map_eq_some_iff.1 h
    obtain ⟨name, version, ext, rest, hname, -, -, -, heq, hgroup, -⟩ := sdist_of_capture hcapture
    exact ⟨name, hname.1, heq ▸ List.subset_append_left _ _, by rw [hgroup]⟩

theorem of_safe {part : List Char} (hne : part ≠ []) (hsub : part ⊆ cs) : Of (· ≠ '\n') part :=
  ⟨hne, fun c hc => decide_eq_true (safeChar_ne (hsafe c (hsub hc)) rfl)⟩

theorem wheelShaped_matches (h : WheelShaped cs) : (wheelPattern u).capture (String.ofList cs) ≠ none := by
  obtain ⟨name, version, python, abi, platform, hname, hversion, hpython, habi, hplatform, heq⟩ := h
  have hname' : name ⊆ cs := fun c hc => by rw [heq]; simp [hc]
  have hversion' : version ⊆ cs := fun c hc => by rw [heq]; simp [hc]
  have hpython' : python ⊆ cs := fun c hc => by rw [heq]; simp [hc]
  have habi' : abi ⊆ cs := fun c hc => by rw [heq]; simp [hc]
  have hplatform' : platform ⊆ cs := fun c hc => by rw [heq]; simp [hc]
  intro hnone
  refine absurd ?_ (Regex.capture_eq_none.1 hnone ⟨[], [("5", String.ofList platform), ("4", String.ofList abi),
    ("3", String.ofList python), ("2", String.ofList version), ("1", String.ofList name)]⟩)
  refine mem_runs_wheelPattern.2 ⟨name, version, of_safe hsafe hname hname', ⟨hversion.1, fun c hc => ?_⟩,
    wheelTail [] python abi platform [], ?_, mem_runs_wheelRest.2 ⟨[], python, abi, platform, .inl rfl,
      of_safe hsafe hpython hpython', of_safe hsafe habi habi', of_safe hsafe hplatform hplatform', rfl, rfl, .inl rfl⟩⟩
  · exact (wheelVersionChar_safe (hsafe c (hversion' hc))).trans (hversion.2 c hc)
  · rw [String.toList_ofList, heq, wheelTail, List.append_nil]
    rfl

theorem sdistShaped_matches (h : SdistShaped cs) : (sdistPattern u).capture (String.ofList cs) ≠ none := by
  obtain ⟨name, version, ext, hname, hversion, hext, heq⟩ := h
  have hname' : name ⊆ cs := fun c hc => by rw [heq]; simp [hc]
  have hversion' : version ⊆ cs := fun c hc => by rw [heq]; simp [hc]
  intro hnone
  refine absurd ?_ (Regex.capture_eq_none.1 hnone
    ⟨[], [("3", String.ofList ext), ("2", String.ofList version), ("1", String.ofList name)]⟩)
  refine mem_runs_sdistPattern.2 ⟨name, version, ext, of_safe hsafe hname hname', ⟨hversion.1, fun c hc => ?_⟩, hext, ?_,
    rfl, .inl rfl⟩
  · exact (sdistVersionChar_safe (hsafe c (hversion' hc))).trans (hversion.2 c hc)
  · rw [String.toList_ofList, heq, List.append_nil]

/-- A name of one of the shapes is read as a distribution's. -/
theorem readable_of_shaped (h : WheelShaped cs ∨ SdistShaped cs) : Readable u (String.ofList cs) := by
  have hparse : ∃ k, parseName u (String.ofList cs) = some k := by
    unfold parseName
    cases hwheel : (wheelPattern u).capture (String.ofList cs) with
    | some groups => exact ⟨_, rfl⟩
    | none =>
      rcases h with h | h
      · exact absurd hwheel (wheelShaped_matches hsafe h)
      · obtain ⟨groups, hgroups⟩ := Option.ne_none_iff_exists'.1 (sdistShaped_matches (u := u) hsafe h)
        exact ⟨_, by rw [hgroups, Option.map_some]⟩
  obtain ⟨k, hk⟩ := hparse
  refine ⟨?_, k, hk, ?_⟩
  · have hend : ∀ ext : List Char, String.ofList ext ∈ packageExtensions → ext <:+ cs →
        hasPackageExtension (String.ofList cs) = true := by
      intro ext hext hsuffix
      refine List.any_eq_true.2 ⟨_, hext, ?_⟩
      rw [Text.endsWith, String.toList_ofList, String.toList_ofList]
      exact List.isSuffixOf_iff_suffix.2 hsuffix
    rcases h with ⟨name, version, python, abi, platform, -, -, -, -, -, heq⟩ | ⟨name, version, ext, -, -, hext, heq⟩
    · refine hend ".whl".toList (by decide) ⟨name ++ '-' :: (version ++ '-' :: (python ++ '-' :: (abi ++ '-' :: platform))), ?_⟩
      rw [heq]
      simp only [List.append_assoc, List.cons_append]
    · refine hend ('.' :: ext) ?_ ⟨name ++ '-' :: version, by rw [heq]; simp only [List.append_assoc, List.cons_append]⟩
      simp only [sdistExtensions, List.mem_cons, List.not_mem_nil, or_false] at hext
      rcases hext with rfl | rfl | rfl | rfl <;> decide
  · obtain ⟨project, hne, hsub, rfl⟩ := project_of_parseName hk
    exact normalize_ne_empty (fun c hc => hsafe c (hsub hc)) hne

end Safe

/-! ## The stored name of a distribution -/

/-- Of a text of safe characters and `!` that has letters or digits at its ends, `secure_filename` drops just the `!`. -/
theorem secureFilename_of_marked (folding : Folding) {cs : List Char} (hchars : ∀ c ∈ cs, safeChar c = true ∨ c = '!')
    (hhead : (cs.filter (· ≠ '!')).head?.any Char.isAlphanum = true)
    (hlast : (cs.filter (· ≠ '!')).getLast?.any Char.isAlphanum = true) :
    secureFilename folding (String.ofList cs) = String.ofList (cs.filter (· ≠ '!')) := by
  have hother : ∀ d, safeChar d = false → d ≠ '!' → d ∉ cs := by
    intro d hd hbang hmem
    rcases hchars d hmem with h | h
    · rw [h] at hd
      cases hd
    · exact hbang h
  have hne : cs ≠ [] := by
    rintro rfl
    cases hhead
  have hfold : cs.flatMap folding.ascii = cs := by
    rw [List.flatMap_congr (g := fun c => [c]) fun c hc => folding.ascii_self c ?_, List.flatMap_singleton']
    rcases hchars c hc with h | rfl
    · exact safeChar_ascii h
    · decide
  have hslash : cs.map (fun c => if c = '/' then ' ' else c) = cs := by
    refine (List.map_congr_left fun c hc => if_neg ?_).trans (List.map_id' cs)
    rintro rfl
    exact hother '/' rfl (by decide) hc
  have hwords : joinWords cs = cs := by
    have hspace : ∀ c ∈ cs, Text.isSpace c = false := by
      intro c hc
      rcases hchars c hc with h | rfl
      · exact safeChar_not_space h
      · decide
    rw [joinWords, List.splitOnP_eq_singleton hspace, List.filter_cons_of_pos (by simpa using hne)]
    simp [List.intercalate]
  have hfilter : cs.filter safeChar = cs.filter (· ≠ '!') := by
    refine List.filter_congr fun c hc => ?_
    rcases hchars c hc with h | rfl
    · rw [h]
      exact (decide_eq_true (safeChar_ne h rfl)).symm
    · rfl
  have htrim : ∀ {c : Char}, c.isAlphanum = true → ¬ decide (c ∈ ['.', '_']) = true := by
    intro c hc h
    simp only [List.mem_cons, List.not_mem_nil, or_false, decide_eq_true_eq] at h
    rcases h with rfl | rfl <;> cases hc
  rw [secureFilename, String.toList_ofList, hfold, hslash, hwords, hfilter]
  congr 1
  have hfront : (cs.filter (· ≠ '!')).dropWhile (· ∈ ['.', '_']) = cs.filter (· ≠ '!') := by
    cases hcs : cs.filter (· ≠ '!') with
    | nil => rfl
    | cons c rest =>
      rw [hcs] at hhead
      exact List.dropWhile_cons_of_neg (htrim (by simpa using hhead))
  rw [hfront, List.rdropWhile_eq_self_iff]
  intro hne'
  rw [List.getLast?_eq_some_getLast hne', Option.any_some] at hlast
  exact htrim hlast

theorem projectName_spec {name : List Char} (h : projectName name = true) :
    (∃ c rest, name = c :: rest ∧ c.isAlphanum = true) ∧ ∀ c ∈ name, safeChar c = true := by
  simp only [projectName, Bool.and_eq_true, List.all_eq_true] at h
  obtain ⟨⟨hhead, -⟩, hall⟩ := h
  constructor
  · cases name with
    | nil => cases hhead
    | cons c rest => exact ⟨c, rest, rfl, by simpa using hhead⟩
  · intro c hc
    have := hall c hc
    simp only [Version.publicChar, Version.separator, Bool.or_eq_true, decide_eq_true_eq] at this
    simp only [safeChar, Bool.or_eq_true, decide_eq_true_eq]
    tauto

theorem wheelTag_spec {tag : List Char} (h : wheelTag tag = true) : tag ≠ [] ∧ '-' ∉ tag ∧ ∀ c ∈ tag, safeChar c = true := by
  simp only [wheelTag, Bool.and_eq_true, List.all_eq_true, Bool.or_eq_true, decide_eq_true_eq] at h
  refine ⟨by simpa using h.1, fun hdash => absurd (h.2 _ hdash) (by decide), fun c hc => ?_⟩
  simp only [safeChar, Bool.or_eq_true, decide_eq_true_eq]
  have := h.2 c hc
  tauto

theorem mem_intercalate {sep c : Char} {parts : List (List Char)} (h : c ∈ [sep].intercalate parts) :
    c = sep ∨ ∃ part ∈ parts, c ∈ part := by
  induction parts with
  | nil => cases h
  | cons part parts ih =>
    by_cases hparts : parts = []
    · subst hparts
      rw [List.intercalate_singleton] at h
      exact .inr ⟨part, List.mem_singleton_self part, h⟩
    · rw [List.intercalate_cons_of_ne_nil hparts, List.append_assoc, List.singleton_append] at h
      rcases List.mem_append.1 h with h | h
      · exact .inr ⟨part, List.mem_cons_self .., h⟩
      · rcases List.mem_cons.1 h with rfl | h
        · exact .inl rfl
        · exact (ih h).imp_right fun ⟨part', hpart', hin⟩ => ⟨part', List.mem_cons_of_mem _ hpart', hin⟩

/-- A wheel's tags, read as `WHEEL_PATTERN` does. -/
theorem wheelTags_spec {tags : List (List Char)} (h : wheelTags tags = true) :
    (∃ build python abi platform, BuildTag build ∧ python ≠ [] ∧ abi ≠ [] ∧ platform ≠ [] ∧
      '-' :: (['-'].intercalate tags ++ ".whl".toList) = wheelTail build python abi platform []) ∧
      ∀ c ∈ ['-'].intercalate tags, safeChar c = true := by
  have hjoin : (∀ tag ∈ tags, wheelTag tag = true) → ∀ c ∈ ['-'].intercalate tags, safeChar c = true := by
    intro htags c hc
    rcases mem_intercalate hc with rfl | ⟨tag, htag, hin⟩
    · rfl
    · exact (wheelTag_spec (htags tag htag)).2.2 c hin
  unfold wheelTags at h
  split at h
  · rename_i python abi platform
    simp only [Bool.and_eq_true] at h
    obtain ⟨⟨hpython, habi⟩, hplatform⟩ := h
    refine ⟨⟨[], python, abi, platform, .inl rfl, (wheelTag_spec hpython).1, (wheelTag_spec habi).1,
      (wheelTag_spec hplatform).1, ?_⟩, hjoin ?_⟩
    · simp [wheelTail, List.intercalate]
    · simp [hpython, habi, hplatform]
  · rename_i build python abi platform
    simp only [Bool.and_eq_true] at h
    obtain ⟨⟨⟨⟨-, hbuild⟩, hpython⟩, habi⟩, hplatform⟩ := h
    obtain ⟨hne, hdash, -⟩ := wheelTag_spec hbuild
    refine ⟨⟨'-' :: build, python, abi, platform, .inr ⟨build, ⟨hne, fun c hc => ?_⟩, rfl⟩, (wheelTag_spec hpython).1,
      (wheelTag_spec habi).1, (wheelTag_spec hplatform).1, ?_⟩, hjoin ?_⟩
    · rw [decide_eq_true_eq]
      rintro rfl
      exact hdash hc
    · simp [wheelTail, List.intercalate]
    · simp [hbuild, hpython, habi, hplatform]
  · cases h

/-- A text without `!` is left as it is. -/
theorem filter_bang {cs : List Char} (h : ∀ c ∈ cs, safeChar c = true) : cs.filter (· ≠ '!') = cs :=
  List.filter_eq_self.2 fun c hc => decide_eq_true (safeChar_ne (h c hc) rfl)

/-- The characters of a version without local label. -/
theorem safeChar_of_version {version : List Char} {v : Version} (h : Version.parse version = some v) (hplus : '+' ∉ version) :
    ∀ c ∈ version, safeChar c = true ∨ c = '!' := by
  intro c hc
  have := Version.versionChar_of_parse h c hc
  simp only [Version.versionChar, Version.publicChar, Version.separator, Bool.or_eq_true, decide_eq_true_eq] at this
  simp only [safeChar, Bool.or_eq_true, decide_eq_true_eq]
  rcases this with (this | this) | rfl
  · tauto
  · exact .inr this
  · exact absurd hc hplus

section Stored
variable (folding : Folding) {u : Unicode}

/-- What is stored of a name, a version and an end. -/
theorem secureFilename_of_version {name version tail : List Char} (hname : projectName name = true)
    (hversion : ∀ c ∈ version, safeChar c = true ∨ c = '!') (htail : ∀ c ∈ tail, safeChar c = true)
    (hlast : tail.getLast?.any Char.isAlphanum = true) :
    secureFilename folding (String.ofList (name ++ '-' :: (version ++ tail))) =
      String.ofList (name ++ '-' :: (version.filter (· ≠ '!') ++ tail)) := by
  obtain ⟨⟨c, rest, hcons, hc⟩, hsafe⟩ := projectName_spec hname
  have hfilter : (name ++ '-' :: (version ++ tail)).filter (· ≠ '!') = name ++ '-' :: (version.filter (· ≠ '!') ++ tail) := by
    rw [List.filter_append, List.filter_cons_of_pos (by decide), List.filter_append, filter_bang hsafe, filter_bang htail]
  rw [secureFilename_of_marked folding, hfilter]
  · intro c hc
    rcases List.mem_append.1 hc with hc | hc
    · exact .inl (hsafe c hc)
    · rcases List.mem_cons.1 hc with rfl | hc
      · exact .inl rfl
      · rcases List.mem_append.1 hc with hc | hc
        · exact hversion c hc
        · exact .inl (htail c hc)
  · rw [hfilter, hcons]
    simpa using hc
  · have hne : tail ≠ [] := by
      rintro rfl
      cases hlast
    rw [hfilter, List.getLast?_append_of_ne_nil _ (List.cons_ne_nil _ _), ← List.singleton_append, ← List.append_assoc,
      List.getLast?_append_of_ne_nil _ hne]
    exact hlast

/-- The version of a stored name, without `!`. -/
theorem stored_version {version : List Char} {v : Version} (hparse : Version.parse (version.filter (· ≠ '!')) = some v)
    (hchars : ∀ c ∈ version, safeChar c = true ∨ c = '!') :
    version.filter (· ≠ '!') ≠ [] ∧ ∀ c ∈ version.filter (· ≠ '!'), safeChar c = true := by
  refine ⟨fun hnil => ?_, fun c hc => ?_⟩
  · rw [hnil] at hparse
    cases hparse
  · obtain ⟨hmem, hne⟩ := List.mem_filter.1 hc
    exact (hchars c hmem).resolve_right (of_decide_eq_true hne)

/-- How a wheel is stored, and read back. -/
theorem stored_wheel {filename name : List Char} {v : Version} (h : wheelDenotes filename = some (name, v))
    (hepoch : v.epoch = 0) (hlabel : v.localLabel = none) :
    parseName u (secureFilename folding (String.ofList filename)) = some (normalizePackageName u (String.ofList name)) ∧
      ∀ k, Version.parse (extractVersion u (secureFilename folding (String.ofList filename)) k).toList = some v := by
  obtain ⟨version, tags, rfl, hdash, hdash', hname, hversion, htags⟩ := wheelDenotes_spec h
  obtain ⟨hplus, hparse⟩ := Version.parse_without_bang hversion hepoch hlabel
  obtain ⟨⟨c, rest, hcons, -⟩, hsafeName⟩ := projectName_spec hname
  obtain ⟨⟨build, python, abi, platform, hbuild, hpython, habi, hplatform, htail⟩, hsafeTags⟩ := wheelTags_spec htags
  obtain ⟨hne, hsafeVersion⟩ := stored_version hparse (safeChar_of_version hversion hplus)
  have hsafeTail : ∀ c ∈ '-' :: (['-'].intercalate tags ++ ".whl".toList), safeChar c = true := by
    intro c hc
    rcases List.mem_cons.1 hc with rfl | hc
    · rfl
    · rcases List.mem_append.1 hc with hc | hc
      · exact hsafeTags c hc
      · simp only [String.reduceToList, List.mem_cons, List.not_mem_nil, or_false] at hc
        rcases hc with rfl | rfl | rfl | rfl <;> rfl
  have hlast : ('-' :: (['-'].intercalate tags ++ ".whl".toList)).getLast?.any Char.isAlphanum = true := by
    rw [← List.cons_append, List.getLast?_append_of_ne_nil _ (by decide)]
    rfl
  rw [secureFilename_of_version folding hname (safeChar_of_version hversion hplus) hsafeTail hlast]
  have hof : ∀ part : List Char, part ≠ [] → (∀ c ∈ part, c ∈ wheelTail build python abi platform []) →
      Of (· ≠ '\n') part := fun part hne hsub => of_safe hsafeTail hne fun c hc => htail ▸ hsub c hc
  have hversionOf : Of (wheelVersionChar u) (version.filter (· ≠ '!')) := by
    refine ⟨hne, fun c hc => ?_⟩
    have hsafe := hsafeVersion c hc
    have hcdash : c ≠ '-' := by
      rintro rfl
      exact hdash' (List.mem_filter.1 hc).1
    rw [wheelVersionChar_safe hsafe]
    simpa [safeChar, hcdash] using hsafe
  obtain ⟨groups, hcapture, hgroup₁, hgroup₂⟩ := capture_wheel (u := u)
    (['-'].intercalate tags ++ ".whl".toList)
    (x := ⟨[], [("5", String.ofList platform), ("4", String.ofList abi), ("3", String.ofList python),
      ("2", String.ofList (version.filter (· ≠ '!'))), ("1", String.ofList name)]⟩)
    (of_safe hsafeName (hcons ▸ List.cons_ne_nil c rest) (List.Subset.refl _)) hdash hversionOf
    (fun hmem => hdash' (List.mem_filter.1 hmem).1)
    (mem_runs_wheelRest.2 ⟨build, python, abi, platform, hbuild,
      hof python hpython fun c hc => by simp [wheelTail, hc], hof abi habi fun c hc => by simp [wheelTail, hc],
      hof platform hplatform fun c hc => by simp [wheelTail, hc], htail, rfl, .inl rfl⟩)
  refine ⟨?_, fun k => ?_⟩
  · rw [parseName, hcapture, ← hgroup₁]
  · rw [extractVersion, hcapture]
    dsimp only
    rw [hgroup₂, String.toList_ofList]
    exact hparse

/-- What stands after the last dash. -/
theorem after_last_dash {front front' back back' : List Char} (h : '-' ∉ back) (h' : '-' ∉ back')
    (heq : front ++ '-' :: back = front' ++ '-' :: back') : front = front' ∧ back = back' := by
  have hback : ∀ front {back : List Char}, '-' ∉ back → (front ++ '-' :: back).rtakeWhile (· ≠ '-') = back := by
    intro front back h
    rw [List.rtakeWhile, List.reverse_append, List.reverse_cons, List.append_assoc, List.takeWhile_append_of_pos,
      List.singleton_append, List.takeWhile_cons_of_neg (by decide), List.append_nil, List.reverse_reverse]
    intro c hc
    rw [decide_eq_true_eq]
    rintro rfl
    exact h (List.mem_reverse.1 hc)
  have hsame : back = back' := by rw [← hback front h, heq, hback front' h']
  subst hsame
  exact ⟨List.append_cancel_right heq, rfl⟩

theorem dash_not_mem_ext {ext : List Char} (h : ext ∈ sdistExtensions) : '-' ∉ ext := by
  simp only [sdistExtensions, List.mem_cons, List.not_mem_nil, or_false] at h
  rcases h with rfl | rfl | rfl | rfl <;> decide

/-- No name ends in two of the extensions. -/
theorem version_of_ext {version version' ext ext' : List Char} (h : ext ∈ sdistExtensions) (h' : ext' ∈ sdistExtensions)
    (heq : version ++ '.' :: ext = version' ++ '.' :: ext') : version = version' := by
  have hsame : ext = ext' := by
    have hrev := congrArg List.reverse heq
    simp only [sdistExtensions, List.mem_cons, List.not_mem_nil, or_false] at h h'
    rcases h with rfl | rfl | rfl | rfl <;> rcases h' with rfl | rfl | rfl | rfl <;>
      first | (simp at hrev; done) | rfl
  subst hsame
  exact List.append_cancel_right heq

/-- A source distribution's name is no wheel's. -/
theorem no_wheel (front tail : List Char) {ext rest : List Char} (h : ext ∈ sdistExtensions) (hrest : rest = [] ∨ rest = ['\n']) :
    front ++ '.' :: ext ≠ tail ++ (".whl".toList ++ rest) := by
  intro heq
  have hrev := congrArg List.reverse heq
  simp only [sdistExtensions, List.mem_cons, List.not_mem_nil, or_false] at h
  rcases h with rfl | rfl | rfl | rfl <;> rcases hrest with rfl | rfl <;> simp at hrev

/-- How a source distribution of a plain version is stored, and read back. -/
theorem stored_sdist {filename name : List Char} {v : Version} (h : sdistDenotes filename = some (name, v))
    (hepoch : v.epoch = 0) (hlabel : v.localLabel = none)
    (hshaped : WheelShaped (secureFilename folding (String.ofList filename)).toList ∨
      SdistShaped (secureFilename folding (String.ofList filename)).toList) :
    parseName u (secureFilename folding (String.ofList filename)) = some (normalizePackageName u (String.ofList name)) ∧
      ∀ k, Version.parse (extractVersion u (secureFilename folding (String.ofList filename)) k).toList = some v := by
  obtain ⟨version, ext, hext, rfl, hdash, hname, hversion⟩ := sdistDenotes_spec h
  obtain ⟨hplus, hparse⟩ := Version.parse_without_bang hversion hepoch hlabel
  have hchars := safeChar_of_version hversion hplus
  have hext' : ext ∈ sdistExtensions := by rcases hext with rfl | rfl <;> decide
  have hsafeTail : ('.' :: ext).all safeChar = true := by
    rcases hext with rfl | rfl <;> rfl
  rw [List.all_eq_true] at hsafeTail
  have hlast : ('.' :: ext).getLast?.any Char.isAlphanum = true := by
    rcases hext with rfl | rfl <;> rfl
  have hsafe := safeChar_secureFilename folding (String.ofList (name ++ '-' :: (version ++ '.' :: ext)))
  rw [secureFilename_of_version folding hname hchars hsafeTail hlast] at hshaped hsafe ⊢
  rw [String.toList_ofList] at hshaped hsafe
  have hdash' : '-' ∉ version.filter (· ≠ '!') ++ '.' :: ext := by
    rw [List.mem_append]
    rintro (hmem | hmem)
    · exact hdash (List.mem_filter.1 hmem).1
    · rcases List.mem_cons.1 hmem with heq | hmem
      · cases heq
      · exact dash_not_mem_ext hext' hmem
  cases hwheel : (wheelPattern u).capture (String.ofList (name ++ '-' :: (version.filter (· ≠ '!') ++ '.' :: ext))) with
  | some groups =>
    -- a wheel name has another suffix
    obtain ⟨name', version', build, python, abi, platform, rest, -, -, -, -, -, -, hrest, heq, -⟩ := wheel_of_capture hwheel
    refine absurd ?_ (no_wheel (name ++ '-' :: version.filter (· ≠ '!'))
      (name' ++ '-' :: (version' ++ (build ++ '-' :: (python ++ '-' :: (abi ++ '-' :: platform))))) hext' hrest)
    rw [List.append_assoc, List.cons_append, heq, wheelTail]
    simp only [List.append_assoc, List.cons_append]
  | none =>
    obtain ⟨-, k, hk, -⟩ := readable_of_shaped (u := u) hsafe hshaped
    cases hsdist : (sdistPattern u).capture (String.ofList (name ++ '-' :: (version.filter (· ≠ '!') ++ '.' :: ext))) with
    | none =>
      rw [parseName, hwheel, hsdist] at hk
      cases hk
    | some groups =>
      obtain ⟨name', version', ext', rest, -, hversion', hext'', hrest, heq, hgroup₁, hgroup₂⟩ := sdist_of_capture hsdist
      have hrest' : rest = [] := by
        refine hrest.resolve_right (no_newline hsafe (name' ++ '-' :: (version' ++ '.' :: ext')) ?_)
        rw [heq]
        simp only [List.append_assoc, List.cons_append]
      subst hrest'
      rw [List.append_nil] at heq
      have hdash'' : '-' ∉ version' ++ '.' :: ext' := by
        rw [List.mem_append]
        rintro (hmem | hmem)
        · have := hversion'.2 _ hmem
          rw [sdistVersionChar_safe rfl] at this
          cases this
        · rcases List.mem_cons.1 hmem with heq | hmem
          · cases heq
          · exact dash_not_mem_ext hext'' hmem
      -- both readings split at the last dash, the one in front of the version
      obtain ⟨rfl, hback⟩ := after_last_dash hdash' hdash'' heq
      have hsame := version_of_ext hext' hext'' hback
      refine ⟨?_, fun k => ?_⟩
      · simp only [parseName, hwheel, hsdist, Option.map_some, hgroup₁]
      · rw [extractVersion, hwheel, hsdist]
        dsimp only
        rw [hgroup₂, ← hsame, String.toList_ofList]
        exact hparse

end Stored

/-! ## The index after an upload -/

section Index
variable {u : Unicode} {packages : Catalog String PackageFile}

theorem getFiles_eq_some {project : String} {files : List PackageFile} :
    getFiles u packages project = some files ↔ packages.get? (normalizePackageName u project) = some files ∧ files ≠ [] := by
  rw [getFiles, Option.filter_eq_some_iff]
  simp

/-- An index shows a file where it holds it. -/
theorem shown_iff_held (hgood : GoodPackages u packages) {name : String} {pf : PackageFile} :
    shownPackage u packages name = some pf ↔
      ∃ k files, packages.get? k = some files ∧ pf ∈ files ∧ pf.filename = name ∧ parseName u name = some k := by
  rw [shownPackage, Option.bind_eq_some_iff]
  constructor
  · rintro ⟨k, hk, hview⟩
    obtain ⟨files, hget, hmem, hrank⟩ := hgood.kept.view_eq_some.1 hview
    exact ⟨k, files, hget, hmem, OrderDual.toDual_inj.1 hrank, hk⟩
  · rintro ⟨k, files, hget, hmem, rfl, hk⟩
    exact ⟨k, hk, hgood.kept.view_eq_some.2 ⟨files, hget, hmem, rfl⟩⟩

/-- A file that clients find is the one that the index shows. -/
theorem shown_of_found (hgood : GoodPackages u packages) {project name : String} {files : List PackageFile} {pf : PackageFile}
    (hfiles : getFiles u packages project = some files) (hmem : pf ∈ files) (hname : pf.filename = name) :
    shownPackage u packages name = some pf ∧ parseName u name = some (normalizePackageName u project) := by
  obtain ⟨hget, -⟩ := getFiles_eq_some.1 hfiles
  have hparse := hgood.keyed _ files hget pf hmem
  rw [hname] at hparse
  exact ⟨(shown_iff_held hgood).2 ⟨_, files, hget, hmem, hname, hparse⟩, hparse⟩

/-- A shown file is found under its project. -/
theorem found_of_shown (hgood : GoodPackages u packages) {project name : String} {pf : PackageFile}
    (hshown : shownPackage u packages name = some pf) (hparse : parseName u name = some (normalizePackageName u project)) :
    ∃ files, getFiles u packages project = some files ∧ pf ∈ files ∧ pf.filename = name := by
  obtain ⟨k, files, hget, hmem, hname, hk⟩ := (shown_iff_held hgood).1 hshown
  rw [hk] at hparse
  cases hparse
  exact ⟨files, getFiles_eq_some.2 ⟨hget, List.ne_nil_of_mem hmem⟩, hmem, hname⟩

/-- The stored name and the uploaded one under the patterns of the index. -/
theorem stored_of_denotes {folding : Folding} {filename project : String} {v : Version}
    (h : denotes filename = some (project, v)) (hplain : Plain folding filename) :
    parseName u (secureFilename folding filename) = some (normalizePackageName u project) ∧
      ∀ k, Version.parse (extractVersion u (secureFilename folding filename) k).toList = some v := by
  obtain ⟨hepoch, hlabel⟩ := hplain.unmarked project v h
  obtain ⟨⟨name, v'⟩, hd, heq⟩ := Option.map_eq_some_iff.1 h
  cases heq
  have hshaped := hplain.shaped
  rw [← String.ofList_toList (s := filename)] at hshaped ⊢
  cases hwheel : wheelDenotes filename.toList with
  | some d =>
    rw [hwheel] at hd
    cases hd
    exact stored_wheel folding hwheel hepoch hlabel
  | none =>
    rw [hwheel] at hd
    exact stored_sdist folding hd hepoch hlabel hshaped

theorem listed_iff_of_shown {folding : Folding} {filename stored : String} (hgood : GoodPackages u packages)
    (hstored : stored = secureFilename folding filename)
    (hshown : Readable u stored → ∃ pf, shownPackage u packages stored = some pf ∧
      parseName u stored = some pf.packageName ∧ pf.version = extractVersion u stored pf.packageName) :
    Listed u packages filename stored ↔ Plain folding filename := by
  subst hstored
  have hsafe := safeChar_secureFilename folding filename
  have hread : ∀ {k}, parseName u (secureFilename folding filename) = some k →
      WheelShaped (secureFilename folding filename).toList ∨ SdistShaped (secureFilename folding filename).toList := by
    intro k hk
    rw [← String.ofList_toList (s := secureFilename folding filename)] at hk
    exact shaped_of_parseName hsafe hk
  have hreadable : ∀ {k}, parseName u (secureFilename folding filename) = some k → Readable u (secureFilename folding filename) := by
    intro k hk
    have := readable_of_shaped (u := u) hsafe (hread hk)
    rwa [String.ofList_toList] at this
  constructor
  · intro h
    obtain ⟨project, files, pf, hfiles, hmem, hname⟩ := h.appears
    have hparse := (shown_of_found hgood hfiles hmem hname).2
    refine ⟨hread hparse, fun project version hdenotes => ?_⟩
    obtain ⟨files, pf, hfiles, hmem, hname, hversion⟩ := h.denoted project version hdenotes
    obtain ⟨hshows, hparse⟩ := shown_of_found hgood hfiles hmem hname
    obtain ⟨pf', hshows', hk, hextract⟩ := hshown (hreadable hparse)
    rw [hshows] at hshows'
    cases hshows'
    -- what stands in a stored name has neither mark
    have hchars : ∀ c ∈ pf.version.toList, safeChar c = true := by
      intro c hc
      rw [← String.ofList_toList (s := secureFilename folding filename)] at hk
      refine hsafe c (extractVersion_subset hk c ?_)
      rwa [String.ofList_toList, ← hextract]
    exact ⟨Version.epoch_of_not_mem hversion fun hmem => absurd (hchars _ hmem) (by decide),
      Version.localLabel_of_not_mem hversion fun hmem => absurd (hchars _ hmem) (by decide)⟩
  · intro h
    have hread' := readable_of_shaped (u := u) hsafe h.shaped
    rw [String.ofList_toList] at hread'
    obtain ⟨pf, hshows, -, hextract⟩ := hshown hread'
    obtain ⟨k, hk, -⟩ := hread'.2
    refine ⟨?_, fun project version hdenotes => ?_⟩
    · rw [← String.ofList_toList (s := secureFilename folding filename)] at hk
      obtain ⟨project, -, -, rfl⟩ := project_of_parseName hk
      rw [String.ofList_toList] at hk
      obtain ⟨files, hfiles, hmem, hname⟩ := found_of_shown hgood hshows hk
      exact ⟨_, files, pf, hfiles, hmem, hname⟩
    · obtain ⟨hparse, hversion⟩ := stored_of_denotes (u := u) hdenotes h
      obtain ⟨files, hfiles, hmem, hname⟩ := found_of_shown hgood hshows hparse
      exact ⟨files, pf, hfiles, hmem, hname, by rw [hextract]; exact hversion _⟩

theorem buildPackageFile_version {T : FileTree} {path : Path} {wantSize : Bool} {pf : PackageFile}
    (h : buildPackageFile u T path wantSize = some pf) : parseName u (baseName path) = some pf.packageName ∧
      pf.version = extractVersion u (baseName path) pf.packageName := by
  refine ⟨(buildPackageFile_eq_some h).1, ?_⟩
  unfold buildPackageFile at h
  dsimp only at h
  split at h
  · cases h
  · split at h
    · cases h
    · rw [← Option.some.inj h]

end Index

/-! ## Accepted uploads -/

section Upload
variable {libs : Libraries} {storage : StorageConfig} {security : SecurityConfig} {before T T' : FileTree}
  {filename stored : String} {content : Bytes}

/-- A stored file has the safe name, and the bytes that were sent. -/
theorem stored_of_upload (h : upload libs storage security before T filename content = .ok (.stored stored T')) :
    stored = secureFilename libs.folding filename ∧ T.write [] stored content = some T' := by
  unfold upload at h
  split at h
  · cases h
  · split at h
    · cases h
    · rename_i existingName hname
      split at h
      · cases h
      · split at h
        · cases h
        · rename_i safe hvalid
          split at h
          · cases h
          · split at h
            · cases h
            · rename_i T'' hwrite
              cases h
              refine ⟨?_, hwrite⟩
              unfold validateFile at hvalid
              rw [hname] at hvalid
              have hsafe : stored = existingName := by
                dsimp only at hvalid
                cases hinspect : inspect libs storage security existingName content with
                | error fault => rw [hinspect] at hvalid; cases hvalid
                | ok _ => rw [hinspect] at hvalid; cases hvalid; rfl
              rw [hsafe]
              unfold safeName at hname
              dsimp only at hname
              split at hname
              · cases hname
              · split at hname
                · cases hname
                · exact (Option.some.inj hname).symm

/-- An index keeps its files under their projects in every run. -/
theorem goodPackages_of_run (u : Unicode) (T₀ : FileTree) (ms : List WatchMove) :
    GoodPackages u (((packageIndex u).runs T₀).state ms).contents := by
  refine Machine.invariant (P := fun _ (s : Watched _) => GoodPackages u s.contents) (good_scan T₀) (fun _ s m hs => ?_) ms
  rw [WatchdogIndex.runs_step]
  cases m with
  | change c =>
    unfold WatchdogIndex.watch
    dsimp only
    cases s.tree.apply c <;> exact hs
  | deliver =>
    unfold WatchdogIndex.watch
    dsimp only
    cases s.pending with
    | nil => exact hs
    | cons e pending => exact (packageIndex_keeps.handle hs e).1

/-- Whatever the index has come to, and whatever a scan finds: the file of an accepted upload is listed exactly if its
name is plain. -/
theorem listed_iff_plain (T₀ : FileTree) (ms : List WatchMove)
    (h : upload libs storage security before T filename content = .ok (.stored stored T')) :
    (Listed libs.unicode (packageAddOrUpdate libs.unicode T' [stored] (((packageIndex libs.unicode).runs T₀).state ms).contents)
      filename stored ↔ Plain libs.folding filename) ∧
    (Listed libs.unicode (packageScan libs.unicode T') filename stored ↔ Plain libs.folding filename) := by
  obtain ⟨hstored, hwrite⟩ := stored_of_upload h
  have hfile : T'.at? [stored] = some (.file content) := by
    rw [FileTree.write_at? hwrite, List.nil_append, if_pos rfl]
  have hfile' : T'.file? [stored] ≠ none := by
    rw [FileTree.file?, hfile]
    exact Option.some_ne_none content
  have hrun := goodPackages_of_run libs.unicode T₀ ms
  have hgood : GoodPackages libs.unicode
      (packageAddOrUpdate libs.unicode T' [stored] (((packageIndex libs.unicode).runs T₀).state ms).contents) :=
    packageIndex_keeps.add_good hrun
  constructor
  · refine listed_iff_of_shown hgood hstored fun hread => ?_
    obtain ⟨pf, hpf⟩ := Option.ne_none_iff_exists'.1 (packageEntry_ne_none hread hfile')
    have hbuild : buildPackageFile libs.unicode T' [stored] true = some pf := by
      rwa [packageEntry, if_neg hfile', baseName_singleton, if_pos hread.1] at hpf
    obtain ⟨k, hk, -⟩ := hread.2
    have hslot : (packageShelves libs.unicode).slot [stored] = some stored :=
      (packageSlot [stored] stored).2 ⟨rfl, by rw [hk, Option.isSome_some]⟩
    have hversion := buildPackageFile_version hbuild
    rw [baseName_singleton] at hversion
    have hadd : shownPackage libs.unicode
        (packageAddOrUpdate libs.unicode T' [stored] (((packageIndex libs.unicode).runs T₀).state ms).contents) =
          (packageShelves libs.unicode).add T' [stored]
            (shownPackage libs.unicode (((packageIndex libs.unicode).runs T₀).state ms).contents) :=
      packageIndex_keeps.add_shown hrun
    have hshown := congrFun hadd stored
    rw [Shelving.add_apply, if_pos hslot, show (packageShelves libs.unicode).entry T' [stored] = some pf from hpf] at hshown
    exact ⟨pf, hshown, hversion⟩
  · refine listed_iff_of_shown (good_scan T') hstored fun hread => ?_
    have hbuild : buildPackageFile libs.unicode T' [stored] false ≠ none := by
      rw [buildPackageFile_ne_none, baseName_singleton]
      exact hread.2
    obtain ⟨pf, hpf⟩ := Option.ne_none_iff_exists'.1 hbuild
    have hlisted : T'.at? [stored] ≠ none ∧ hasPackageExtension stored = true := ⟨by rw [hfile]; exact Option.some_ne_none _, hread.1⟩
    have hshown : shownPackage libs.unicode (packageScan libs.unicode T') stored = some pf := by
      rw [shown_scan, if_pos hlisted, hpf]
    have hversion := buildPackageFile_version hpf
    rw [baseName_singleton] at hversion
    exact ⟨pf, hshown, hversion⟩

end Upload

/-! ## Two uploads -/

/-- Libraries that find nothing amiss, and read file names by their grammar. -/
def contentLibraries : Libraries where
  unicode := .ascii
  folding := .plain
  detect _ := some "application/gzip"
  parseWheelFilename filename := if (wheelDenotes filename.toList).isSome then none else some "Invalid wheel filename"
  parseSdistFilename filename := if (sdistDenotes filename.toList).isSome then none else some "Invalid sdist filename"
  wheelFile _ _ := .intact "foo-1.0.dist-info" ["foo-1.0.dist-info/WHEEL", "foo-1.0.dist-info/METADATA"]
  isTarfile _ := true
  guarddog := .disabled
  clamav := .disabled

/-- The defaults. -/
def defaultStorage : StorageConfig := ⟨.conflict, 100 * 1024 * 1024, ["whl", "zip", "tar.gz", "tar"]⟩

def lenient : SecurityConfig := ⟨false, 5, false⟩

def storedName : Except Fault Uploaded → Option String
  | .ok (.stored name _) => some name
  | _ => none

theorem exists_of_storedName {answer : Except Fault Uploaded} {name : String} (h : storedName answer = some name) :
    ∃ T', answer = .ok (.stored name T') := by
  unfold storedName at h
  split at h
  · cases h
    exact ⟨_, rfl⟩
  · cases h

/-- A first release is listed. -/
theorem listed_iff_plain_firstRelease : ∃ T',
    upload contentLibraries defaultStorage lenient .empty .empty "foo-1.0.tar.gz" [1] = .ok (.stored "foo-1.0.tar.gz" T') ∧
      Listed .ascii (packageAddOrUpdate .ascii T' ["foo-1.0.tar.gz"] (((packageIndex .ascii).runs .empty).state []).contents)
        "foo-1.0.tar.gz" "foo-1.0.tar.gz" ∧
      Listed .ascii (packageScan .ascii T') "foo-1.0.tar.gz" "foo-1.0.tar.gz" := by
  have hstored : storedName (upload contentLibraries defaultStorage lenient .empty .empty "foo-1.0.tar.gz" [1]) =
      some "foo-1.0.tar.gz" := by decide +kernel
  obtain ⟨T', h⟩ := exists_of_storedName hstored
  have hsafe : secureFilename .plain "foo-1.0.tar.gz" = "foo-1.0.tar.gz" := by decide +kernel
  have hplain : Plain .plain "foo-1.0.tar.gz" := by
    refine ⟨.inr ?_, fun project version hdenotes => ?_⟩
    · rw [hsafe]
      have hversion : ("1.0".toList).all (fun c => c.isDigit || c = '.') = true := rfl
      exact ⟨"foo".toList, "1.0".toList, "tar.gz".toList, by decide, ⟨by decide, List.all_eq_true.1 hversion⟩, by decide,
        by decide⟩
    · have : denotes "foo-1.0.tar.gz" = some ("foo", ⟨0, [1], none, none, none, none⟩) := by decide +kernel
      rw [this] at hdenotes
      cases hdenotes
      exact ⟨rfl, rfl⟩
  obtain ⟨hupdated, hscanned⟩ := listed_iff_plain .empty [] h
  exact ⟨T', h, hupdated.2 hplain, hscanned.2 hplain⟩

/-- A release candidate is accepted, and listed nowhere. -/
theorem releaseCandidate_not_listed : ∃ T',
    upload contentLibraries defaultStorage lenient .empty .empty "foo-1.0rc1.tar.gz" [1] =
        .ok (.stored "foo-1.0rc1.tar.gz" T') ∧
      denotes "foo-1.0rc1.tar.gz" = some ("foo", ⟨0, [1], some (.candidate, 1), none, none, none⟩) ∧
      ¬ Listed .ascii (packageAddOrUpdate .ascii T' ["foo-1.0rc1.tar.gz"] (packageScan .ascii .empty)) "foo-1.0rc1.tar.gz"
        "foo-1.0rc1.tar.gz" ∧
      ¬ Listed .ascii (packageScan .ascii T') "foo-1.0rc1.tar.gz" "foo-1.0rc1.tar.gz" := by
  have hstored : storedName (upload contentLibraries defaultStorage lenient .empty .empty "foo-1.0rc1.tar.gz" [1]) =
      some "foo-1.0rc1.tar.gz" := by decide +kernel
  obtain ⟨T', h⟩ := exists_of_storedName hstored
  have hparse : parseName .ascii "foo-1.0rc1.tar.gz" = none := by decide +kernel
  have hunlisted : ∀ packages, GoodPackages .ascii packages → ¬ Listed .ascii packages "foo-1.0rc1.tar.gz" "foo-1.0rc1.tar.gz" := by
    rintro packages hgood ⟨⟨project, files, pf, hfiles, hmem, hname⟩, -⟩
    have := (shown_of_found hgood hfiles hmem hname).2
    rw [hparse] at this
    cases this
  exact ⟨T', h, by decide +kernel, hunlisted _ (packageIndex_keeps.add_good (good_scan _)), hunlisted _ (good_scan T')⟩

end OpenFish.Packages
