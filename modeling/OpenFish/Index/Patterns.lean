/-
What `WHEEL_PATTERN` and `SDIST_PATTERN` match, and what they capture of a file name.
-/
import OpenFish.Index.Packages

namespace OpenFish.Index

open Lib
open Lib.Regex hiding some

variable {u : Unicode}

/-! ## Matches -/

/-- The characters of group 2 of `WHEEL_PATTERN`. -/
def wheelVersionChar (u : Unicode) (c : Char) : Bool := u.word c || c ∈ ['!', '<', '>', '.', '+']

/-- The characters of group 2 of `SDIST_PATTERN`. -/
def sdistVersionChar (u : Unicode) (c : Char) : Bool := u.decimal c || c ∈ ['!', '<', '>', '.']

/-- A text of the class. -/
def Of (p : Char → Bool) (cs : List Char) : Prop := cs ≠ [] ∧ ∀ c ∈ cs, p c = true

def sdistExtensions : List (List Char) := ["tar.gz".toList, "tar.bz2".toList, "tar.xz".toList, "zip".toList]

theorem mem_runs_sdistPattern {s t : Reading} : t ∈ runs (sdistPattern u) s ↔
    ∃ name version ext, Of (· ≠ '\n') name ∧ Of (sdistVersionChar u) version ∧ ext ∈ sdistExtensions ∧
      s.rest = name ++ '-' :: (version ++ '.' :: (ext ++ t.rest)) ∧
      t.groups = ("3", String.ofList ext) :: ("2", String.ofList version) :: ("1", String.ofList name) :: s.groups ∧
      (t.rest = [] ∨ t.rest = ['\n']) := by
  simp only [sdistPattern, inOrder, dot, mem_runs_seq, mem_runs_group_some, mem_runs_group_oneOf, mem_runs_lit,
    mem_runs_dollar, mem_runs_empty]
  constructor
  · rintro ⟨r₁, ⟨name, hname, hrest₁, hgroups₁⟩, r₂, ⟨hrest₂, hgroups₂⟩, r₃, ⟨version, hversion, hrest₃, hgroups₃⟩,
      r₄, ⟨hrest₄, hgroups₄⟩, r₅, ⟨ext, hext, hrest₅, hgroups₅⟩, r₆, ⟨rfl, hend⟩, rfl⟩
    refine ⟨name, version, ext, hname, hversion, hext, ?_, ?_, hend⟩
    · rw [hrest₁, hrest₂, hrest₃, hrest₄, hrest₅]
      rfl
    · rw [hgroups₅, hgroups₄, hgroups₃, hgroups₂, hgroups₁]
  · rintro ⟨name, version, ext, hname, hversion, hext, hrest, hgroups, hend⟩
    exact ⟨⟨_, _⟩, ⟨name, hname, hrest, rfl⟩, ⟨_, _⟩, ⟨rfl, rfl⟩, ⟨_, _⟩, ⟨version, hversion, rfl, rfl⟩, ⟨_, _⟩, ⟨rfl, rfl⟩,
      t, ⟨ext, hext, rfl, hgroups⟩, t, ⟨rfl, hend⟩, rfl⟩

/-- What the optional group of `WHEEL_PATTERN` reads. -/
def BuildTag (build : List Char) : Prop := build = [] ∨ ∃ tag, Of (· ≠ '-') tag ∧ build = '-' :: tag

theorem mem_runs_buildTag {s t : Reading} :
    t ∈ runs (.opt (.seq (.lit ['-']) (.some false (.char (· ≠ '-'))))) s ↔
      ∃ build, BuildTag build ∧ s.rest = build ++ t.rest ∧ t.groups = s.groups := by
  simp only [mem_runs_opt, mem_runs_seq, mem_runs_lit, mem_runs_some_char]
  constructor
  · rintro (⟨r, ⟨hrest, hgroups⟩, tag, hne, htag, hrest', hgroups'⟩ | rfl)
    · exact ⟨'-' :: tag, .inr ⟨tag, ⟨hne, htag⟩, rfl⟩, by rw [hrest, hrest']; rfl, hgroups'.trans hgroups⟩
    · exact ⟨[], .inl rfl, rfl, rfl⟩
  · rintro ⟨build, rfl | ⟨tag, htag, rfl⟩, hrest, hgroups⟩
    · right
      cases s
      cases t
      cases hrest
      cases hgroups
      rfl
    · exact .inl ⟨⟨_, _⟩, ⟨hrest, rfl⟩, tag, htag.1, htag.2, rfl, hgroups⟩

/-- The part of a wheel's name after the version. -/
def wheelTail (build python abi platform rest : List Char) : List Char :=
  build ++ '-' :: (python ++ '-' :: (abi ++ '-' :: (platform ++ (".whl".toList ++ rest))))

/-- What `WHEEL_PATTERN` asks for after the version. -/
def wheelRest : Regex := inOrder
  [.opt (.seq (.lit ['-']) (.some false (.char (· ≠ '-')))), .lit ['-'],
    .group "3" (.some true .dot), .lit ['-'], .group "4" (.some true .dot), .lit ['-'],
    .group "5" (.some false .dot), .lit ".whl".toList, .dollar]

theorem wheelPattern_eq : wheelPattern u = .seq (.group "1" (.some true (.char (· ≠ '\n')))) (.seq (.lit ['-'])
    (.seq (.group "2" (.some true (.char (wheelVersionChar u)))) wheelRest)) := rfl

theorem mem_runs_wheelRest {s t : Reading} : t ∈ runs wheelRest s ↔
    ∃ build python abi platform, BuildTag build ∧ Of (· ≠ '\n') python ∧ Of (· ≠ '\n') abi ∧ Of (· ≠ '\n') platform ∧
      s.rest = wheelTail build python abi platform t.rest ∧
      t.groups = [("5", String.ofList platform), ("4", String.ofList abi), ("3", String.ofList python)] ++ s.groups ∧
      (t.rest = [] ∨ t.rest = ['\n']) := by
  simp only [wheelRest, inOrder, dot, mem_runs_seq, mem_runs_group_some, mem_runs_buildTag, mem_runs_lit,
    mem_runs_dollar, mem_runs_empty]
  constructor
  · rintro ⟨r₄, ⟨build, hbuild, hrest₄, hgroups₄⟩, r₅, ⟨hrest₅, hgroups₅⟩, r₆, ⟨python, hpython, hrest₆, hgroups₆⟩,
      r₇, ⟨hrest₇, hgroups₇⟩, r₈, ⟨abi, habi, hrest₈, hgroups₈⟩, r₉, ⟨hrest₉, hgroups₉⟩,
      r₁₀, ⟨platform, hplatform, hrest₁₀, hgroups₁₀⟩, r₁₁, ⟨hrest₁₁, hgroups₁₁⟩, r₁₂, ⟨rfl, hend⟩, rfl⟩
    refine ⟨build, python, abi, platform, hbuild, hpython, habi, hplatform, ?_, ?_, hend⟩
    · rw [hrest₄, hrest₅, hrest₆, hrest₇, hrest₈, hrest₉, hrest₁₀, hrest₁₁]
      rfl
    · rw [hgroups₁₁, hgroups₁₀, hgroups₉, hgroups₈, hgroups₇, hgroups₆, hgroups₅, hgroups₄]
      rfl
  · rintro ⟨build, python, abi, platform, hbuild, hpython, habi, hplatform, hrest, hgroups, hend⟩
    exact ⟨⟨_, _⟩, ⟨build, hbuild, hrest, rfl⟩, ⟨_, _⟩, ⟨rfl, rfl⟩, ⟨_, _⟩, ⟨python, hpython, rfl, rfl⟩, ⟨_, _⟩, ⟨rfl, rfl⟩,
      ⟨_, _⟩, ⟨abi, habi, rfl, rfl⟩, ⟨_, _⟩, ⟨rfl, rfl⟩, ⟨_, _⟩, ⟨platform, hplatform, rfl, rfl⟩, t, ⟨rfl, hgroups⟩,
      t, ⟨rfl, hend⟩, rfl⟩

theorem mem_runs_wheelPattern {s t : Reading} : t ∈ runs (wheelPattern u) s ↔
    ∃ name version, Of (· ≠ '\n') name ∧ Of (wheelVersionChar u) version ∧ ∃ tail, s.rest = name ++ '-' :: (version ++ tail) ∧
      t ∈ runs wheelRest ⟨tail, ("2", String.ofList version) :: ("1", String.ofList name) :: s.groups⟩ := by
  simp only [wheelPattern_eq, mem_runs_seq, mem_runs_group_some, mem_runs_lit]
  constructor
  · rintro ⟨r₁, ⟨name, hname, hrest₁, hgroups₁⟩, r₂, ⟨hrest₂, hgroups₂⟩, ⟨tail, groups⟩, ⟨version, hversion, hrest₃, hgroups₃⟩, ht⟩
    refine ⟨name, version, hname, hversion, tail, by rw [hrest₁, hrest₂, hrest₃]; rfl, ?_⟩
    replace hgroups₃ : groups = ("2", String.ofList version) :: r₂.groups := hgroups₃
    rwa [hgroups₃, hgroups₂, hgroups₁] at ht
  · rintro ⟨name, version, hname, hversion, tail, hrest, ht⟩
    exact ⟨⟨_, _⟩, ⟨name, hname, hrest, rfl⟩, ⟨_, _⟩, ⟨rfl, rfl⟩, ⟨_, _⟩, ⟨version, hversion, rfl, rfl⟩, ht⟩

/-! ## Captures -/

theorem first_lit_dash (r : Regex) (rest : List Char) (groups : List (String × String)) :
    first (.seq (.lit ['-']) r) ⟨'-' :: rest, groups⟩ = first r ⟨rest, groups⟩ := by
  rw [first_seq]
  show [(⟨rest, groups⟩ : Reading)].findSome? (first r) = _
  rw [List.findSome?_cons, List.findSome?_nil]
  cases first r ⟨rest, groups⟩ <;> rfl

theorem first_lit_other (r : Regex) {c : Char} (hc : c ≠ '-') (rest : List Char) (groups : List (String × String)) :
    first (.seq (.lit ['-']) r) ⟨c :: rest, groups⟩ = none := by
  rw [first_eq_none]
  intro t ht
  obtain ⟨t', ht', -⟩ := mem_runs_seq.1 ht
  have := (mem_runs_lit.1 ht').1
  rw [List.singleton_append, List.cons.injEq] at this
  exact hc this.1

theorem first_wheelRest_other {c : Char} (hc : c ≠ '-') (rest : List Char) (groups : List (String × String)) :
    first wheelRest ⟨c :: rest, groups⟩ = none := by
  rw [first_eq_none]
  intro t ht
  obtain ⟨build, python, abi, platform, hbuild, -, -, -, hrest, -⟩ := mem_runs_wheelRest.1 ht
  rcases hbuild with rfl | ⟨tag, -, rfl⟩
  · exact hc (List.cons.inj hrest).1
  · exact hc (List.cons.inj hrest).1

/-- In a part without dashes, the rest of any cut starts with another character. -/
theorem cut_without_dash {part before after : List Char} (h : '-' ∉ part) (hne : after ≠ []) (heq : part = before ++ after) :
    ∃ c rest, after = c :: rest ∧ c ≠ '-' := by
  obtain ⟨c, rest, rfl⟩ := List.exists_cons_of_ne_nil hne
  refine ⟨c, rest, rfl, ?_⟩
  rintro rfl
  exact h (by rw [heq]; exact List.mem_append_right _ (List.mem_cons_self ..))

/-- Name and version of a wheel, when neither has a dash. -/
theorem capture_wheel {name version : List Char} (tail : List Char) {x : Reading} (hname : Of (· ≠ '\n') name) (hdash : '-' ∉ name)
    (hversion : Of (wheelVersionChar u) version) (hdash' : '-' ∉ version)
    (hx : x ∈ runs wheelRest ⟨'-' :: tail, [("2", String.ofList version), ("1", String.ofList name)]⟩) :
    ∃ groups, (wheelPattern u).capture (String.ofList (name ++ '-' :: (version ++ '-' :: tail))) = some groups ∧
      groupOf groups "1" = String.ofList name ∧ groupOf groups "2" = String.ofList version := by
  obtain ⟨y, hy⟩ := exists_first hx
  have hfirst₂ : first (.seq (.group "2" (.some true (.char (wheelVersionChar u)))) wheelRest)
      ⟨version ++ '-' :: tail, [("1", String.ofList name)]⟩ = some y := by
    refine first_lazy_group rfl hversion.1 hversion.2 hy fun before after _ hne heq => ?_
    obtain ⟨c, rest, rfl, hc⟩ := cut_without_dash hdash' hne heq
    exact first_wheelRest_other hc _ _
  have hfirst₁ : first (wheelPattern u) ⟨name ++ '-' :: (version ++ '-' :: tail), []⟩ = some y := by
    rw [wheelPattern_eq]
    refine first_lazy_group rfl hname.1 hname.2 ?_ fun before after _ hne heq => ?_
    · rw [first_lit_dash]
      exact hfirst₂
    · obtain ⟨c, rest, rfl, hc⟩ := cut_without_dash hdash hne heq
      exact first_lit_other _ hc _ _
  obtain ⟨build, python, abi, platform, -, -, -, -, -, hgroups, -⟩ := mem_runs_wheelRest.1 (mem_of_first hy)
  refine ⟨y.groups, ?_, by rw [hgroups]; rfl, by rw [hgroups]; rfl⟩
  rw [capture, String.toList_ofList, hfirst₁]
  rfl

/-- What a match of `WHEEL_PATTERN` captures. -/
theorem wheel_of_capture {cs : List Char} {groups : List (String × String)}
    (h : (wheelPattern u).capture (String.ofList cs) = some groups) :
    ∃ name version build python abi platform rest, Of (· ≠ '\n') name ∧ Of (wheelVersionChar u) version ∧ BuildTag build ∧
      Of (· ≠ '\n') python ∧ Of (· ≠ '\n') abi ∧ Of (· ≠ '\n') platform ∧ (rest = [] ∨ rest = ['\n']) ∧
      cs = name ++ '-' :: (version ++ wheelTail build python abi platform rest) ∧
      groupOf groups "1" = String.ofList name ∧ groupOf groups "2" = String.ofList version := by
  obtain ⟨t, ht, rfl⟩ := exists_of_capture h
  rw [String.toList_ofList] at ht
  obtain ⟨name, version, hname, hversion, tail, hrest, ht⟩ := mem_runs_wheelPattern.1 ht
  obtain ⟨build, python, abi, platform, hbuild, hpython, habi, hplatform, htail, hgroups, hend⟩ := mem_runs_wheelRest.1 ht
  replace hrest : cs = name ++ '-' :: (version ++ tail) := hrest
  replace htail : tail = wheelTail build python abi platform t.rest := htail
  exact ⟨name, version, build, python, abi, platform, t.rest, hname, hversion, hbuild, hpython, habi, hplatform, hend,
    by rw [hrest, htail], by rw [hgroups]; rfl, by rw [hgroups]; rfl⟩

/-- What a match of `SDIST_PATTERN` captures. -/
theorem sdist_of_capture {cs : List Char} {groups : List (String × String)}
    (h : (sdistPattern u).capture (String.ofList cs) = some groups) :
    ∃ name version ext rest, Of (· ≠ '\n') name ∧ Of (sdistVersionChar u) version ∧ ext ∈ sdistExtensions ∧
      (rest = [] ∨ rest = ['\n']) ∧ cs = name ++ '-' :: (version ++ '.' :: (ext ++ rest)) ∧
      groupOf groups "1" = String.ofList name ∧ groupOf groups "2" = String.ofList version := by
  obtain ⟨t, ht, rfl⟩ := exists_of_capture h
  rw [String.toList_ofList] at ht
  obtain ⟨name, version, ext, hname, hversion, hext, hrest, hgroups, hend⟩ := mem_runs_sdistPattern.1 ht
  exact ⟨name, version, ext, t.rest, hname, hversion, hext, hend, hrest, by rw [hgroups]; rfl, by rw [hgroups]; rfl⟩

end OpenFish.Index
