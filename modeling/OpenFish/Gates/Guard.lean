/-
The path guard of `services/check_suite.py`: which files a fix may not write. The guard compares the
path a fix wrote with the tokens of the suite's commands, each normalised on its own and the working
directory of a command left out; what follows for the scripts a suite executes is proved here.
-/
import OpenFish.Gates.Suite
import OpenFish.Lib.Words

namespace OpenFish.Gates

open Lib

/-! ## The guard -/

/-- `while text.startswith("./"): text = text[2:]`. -/
def dropDotSlash : List Char → List Char
  | '.' :: '/' :: rest => dropDotSlash rest
  | l => l

def normalizeRepoPath (path : String) : String :=
  let text := Text.replaceChar '\\' '/' (Text.strip path)
  Text.lstrip ['/'] (String.ofList (dropDotSlash text.toList))

def under (path pathPrefix : String) : Bool :=
  path == pathPrefix || Text.startsWith (String.ofList (pathPrefix.toList.rdropWhile (· = '/')) ++ "/") path

def checkDirRelpath : String := ".agent/checks"

def fixProtectedPrefixes : List String := [checkDirRelpath]

def fixProtectedPaths : List String := [".agent/review-policy.yml"]

def suiteDeclarationNames : List String :=
  [ "Makefile", "makefile", "GNUmakefile",
    "package.json", "package-lock.json", "pnpm-lock.yaml", "yarn.lock",
    "pyproject.toml", "setup.cfg", "setup.py", "tox.ini", "pytest.ini",
    "conftest.py", "noxfile.py",
    "Cargo.toml", "Cargo.lock", "go.mod", "go.sum",
    "pom.xml", "build.gradle", "build.gradle.kts", "settings.gradle",
    "tsconfig.json", "jest.config.js", "jest.config.ts",
    "vitest.config.js", "vitest.config.ts", "vite.config.js", "vite.config.ts",
    ".mocharc.yml", ".mocharc.json" ]

def scriptSuffixes : List String := [".py", ".sh", ".bash", ".js", ".mjs", ".cjs", ".ts", ".rb", ".pl", ".ps1"]

/-- `_TEST_PATTERNS`: what stands before and after the star of a pattern. -/
def testPatterns : List (String × String) :=
  [ ("test_", ".py"), ("", "_test.py"), ("", ".test.js"), ("", ".test.ts"), ("", ".test.tsx"), ("", ".test.jsx"),
    ("", ".spec.js"), ("", ".spec.ts"), ("", ".spec.tsx"), ("", ".spec.jsx"), ("", "_test.go"), ("", "_test.rs") ]

def testDirs : List String := ["tests", "test"]

/-- `fnmatch` of a name and a pattern with one star. -/
def fnmatch (name : String) (pattern : String × String) : Bool :=
  Text.startsWith pattern.1 name && Text.endsWith pattern.2 name &&
    decide (pattern.1.length + pattern.2.length ≤ name.length)

def isTestPath (path : String) : Bool :=
  let normalized := normalizeRepoPath path
  testPatterns.any (fnmatch (Text.afterLast '/' normalized)) ||
    (Text.split '/' normalized).dropLast.any (· ∈ testDirs)

/-- Whether a normalised token counts as a script. -/
def isScript (text : String) : Bool :=
  '/' ∈ text.toList || scriptSuffixes.any fun suffix => Text.endsWith suffix (Text.afterLast '/' text)

/-- The path `suite_script_paths` makes of a token, if any. -/
def scriptPath? (part : String) : Option String :=
  let text := normalizeRepoPath part
  if text ≠ "" ∧ isScript text then some (Text.lstrip ['.', '/'] text) else none

def suiteScriptPaths (suite : CheckSuite) : List String := suite.checks.flatMap fun c => c.argv.filterMap scriptPath?

/-- The rules of `fix_guard_violations` that look at the normalised path alone. -/
def protectedByName (normalized : String) : Bool :=
  normalized ∈ fixProtectedPaths || fixProtectedPrefixes.any (under normalized) || isTestPath normalized ||
    Text.afterLast '/' normalized ∈ suiteDeclarationNames

def fixGuardViolations (paths : List String) (suite : Option CheckSuite) : List String :=
  let executed := (suite.map suiteScriptPaths).getD []
  (paths.map normalizeRepoPath).filter fun normalized => protectedByName normalized || normalized ∈ executed

/-! ## The file a command executes -/

/-- One path component further from a directory, given from its innermost component outwards; nothing when that
leaves the repository. -/
def enter (dir : List String) (part : String) : Option (List String) :=
  if part = "" ∨ part = "." then some dir
  else if part = ".." then
    match dir with
    | [] => none
    | _ :: up => some up
  else some (part :: dir)

/-- A walk along path components. -/
def walk (dir parts : List String) : Option (List String) := parts.foldlM enter dir

/-- The repository-relative path of the file a token names when the command runs from `cwd`, as the
operating system resolves it where no component is a link; nothing for a path outside the repository. -/
def executedPath (cwd token : String) : Option String :=
  if Text.startsWith "/" cwd || Text.startsWith "/" token then none
  else
    match walk [] (Text.split '/' cwd ++ Text.split '/' token) with
    | none | some [] => none
    | some dir => some (String.intercalate "/" dir.reverse)

/-- A token that names a script: one with a slash or a script suffix. -/
def NamesScript (token : String) : Prop :=
  '/' ∈ token.toList ∨ ∃ suffix ∈ scriptSuffixes, Text.endsWith suffix token = true

/-- Whatever a fix writes beside it, the path is reported. -/
def Guarded (suite : CheckSuite) (path : String) : Prop :=
  ∀ paths, path ∈ paths → normalizeRepoPath path ∈ fixGuardViolations paths (some suite)

/-- Every script a check of the suite executes inside the repository is guarded. -/
def ScriptsGuarded (suite : CheckSuite) : Prop :=
  ∀ c ∈ suite.checks, ∀ token ∈ c.argv, NamesScript token →
    ∀ path, executedPath c.cwd token = some path → Guarded suite path

/-- A script token is, normalised, the path itself after dots and slashes, and the path starts with neither. -/
structure Spells (token path : String) : Prop where
  script : normalizeRepoPath token ≠ "" ∧ isScript (normalizeRepoPath token) = true
  lead : ∃ lead, (∀ ch ∈ lead, ch ∈ ['.', '/']) ∧ (normalizeRepoPath token).toList = lead ++ path.toList
  head : ∀ ch ∈ path.toList.head?, ch ∉ ['.', '/']

/-- A text without backslashes, and without white space around it. -/
structure Tidy (text : String) : Prop where
  strip : Text.strip text = text
  slashes : '\\' ∉ text.toList

def dotsOnly (part : String) : Bool := part.toList.all (· = '.')

/-- The parts of a token that are only dots, up to the first one that is not. -/
def leadingDots (token : String) : List String := (Text.split '/' token).takeWhile dotsOnly

/-- The parts after them. -/
def named (token : String) : List String := (Text.split '/' token).dropWhile dotsOnly

/-- The dots in front of a token lead from the working directory to the root, and what they lead to is a plain path that
starts with no dot. A lone name counts as a script by its suffix only, even with `./` in front of it. -/
structure FromRoot (cwd token : String) : Prop where
  script : isScript (normalizeRepoPath token) = true
  root : walk [] (Text.split '/' cwd ++ leadingDots token) = some []
  plain : ∀ part ∈ named token, part ∉ ["", ".", ".."]
  dotless : ∀ part ∈ (named token).head?, part.toList.head? ≠ some '.'

/-- The file of a token is protected by its name; or the token names it from the root; or another token of the suite spells
it, or this one does where one of them is not tidy. -/
def Covered (suite : CheckSuite) (cwd token path : String) : Prop :=
  protectedByName (normalizeRepoPath path) = true ∨
    (Tidy token ∧ Tidy path ∧ FromRoot cwd token) ∨
      ∃ c ∈ suite.checks, ∃ other ∈ c.argv, (other = token → ¬ (Tidy token ∧ Tidy path)) ∧ Spells other (normalizeRepoPath path)

/-! ## What is guarded -/

theorem scriptPath?_eq_some {token path : String} : scriptPath? token = some path ↔ Spells token path := by
  simp only [scriptPath?, Option.ite_none_right_eq_some, Option.some.injEq, Text.lstrip_eq_iff]
  exact ⟨fun h => ⟨h.1, h.2.1, h.2.2⟩, fun h => ⟨h.script, h.lead, h.head⟩⟩

theorem mem_suiteScriptPaths {suite : CheckSuite} {path : String} :
    path ∈ suiteScriptPaths suite ↔ ∃ c ∈ suite.checks, ∃ token ∈ c.argv, Spells token path := by
  simp only [suiteScriptPaths, List.mem_flatMap, List.mem_filterMap, scriptPath?_eq_some]

/-- A path is guarded by its name, or by a token of the suite that spells it. -/
theorem guarded_iff {suite : CheckSuite} {path : String} : Guarded suite path ↔
    protectedByName (normalizeRepoPath path) = true ∨
      ∃ c ∈ suite.checks, ∃ token ∈ c.argv, Spells token (normalizeRepoPath path) := by
  have hmem : ∀ paths, path ∈ paths → (normalizeRepoPath path ∈ fixGuardViolations paths (some suite) ↔
      protectedByName (normalizeRepoPath path) = true ∨
        ∃ c ∈ suite.checks, ∃ token ∈ c.argv, Spells token (normalizeRepoPath path)) := by
    intro paths hp
    simp only [fixGuardViolations, Option.map_some, Option.getD_some, List.mem_filter, Bool.or_eq_true,
      decide_eq_true_eq, mem_suiteScriptPaths]
    exact and_iff_right (List.mem_map_of_mem hp)
  constructor
  · exact fun h => (hmem [path] (List.mem_singleton_self path)).1 (h [path] (List.mem_singleton_self path))
  · exact fun h paths hp => (hmem paths hp).2 h

/-- A path without an empty component, `.` or `..`. -/
def Plain (path : String) : Prop := ∀ part ∈ Text.split '/' path, part ∉ ["", ".", ".."]

theorem Plain.head {path : String} (h : Plain path) : path.toList.head? ≠ some '/' :=
  fun hs => h "" (Text.mem_split_of_head hs) (by decide)

theorem walk_plain {dir parts : List String} (h : ∀ part ∈ parts, part ∉ ["", ".", ".."]) :
    walk dir parts = some (parts.reverse ++ dir) := by
  induction parts generalizing dir with
  | nil => rfl
  | cons part parts ih =>
    have hpart := h part (List.mem_cons_self ..)
    simp only [List.mem_cons, List.not_mem_nil, or_false, not_or] at hpart
    obtain ⟨hempty, hdot, hup⟩ := hpart
    have henter : enter dir part = some (part :: dir) := by
      unfold enter
      rw [if_neg (by simp [hempty, hdot]), if_neg hup]
    have hrest : walk (part :: dir) parts = some (parts.reverse ++ part :: dir) :=
      ih fun p hp => h p (List.mem_cons_of_mem _ hp)
    rw [List.reverse_cons, List.append_assoc]
    exact (congrArg (·.bind fun next => walk next parts) henter).trans hrest

/-- Run from the root, a plain token executes the path it spells. -/
theorem executedPath_root {cwd token : String} (hcwd : cwd = "" ∨ cwd = ".") (hplain : Plain token) :
    executedPath cwd token = some token := by
  have habs : Text.startsWith "/" token = false := by
    rw [Bool.eq_false_iff]
    exact fun h => hplain.head (Text.startsWith_singleton.1 h)
  have hroot : Text.startsWith "/" cwd = false ∧
      walk [] (Text.split '/' cwd ++ Text.split '/' token) = walk [] (Text.split '/' token) := by
    rcases hcwd with rfl | rfl
    · exact ⟨by decide, rfl⟩
    · exact ⟨by decide, rfl⟩
  unfold executedPath
  rw [habs, hroot.1, hroot.2, walk_plain hplain, List.append_nil]
  cases hrev : (Text.split '/' token).reverse with
  | nil => exact absurd (List.reverse_eq_nil_iff.1 hrev) (Text.split_ne_nil _ _)
  | cons part parts =>
    simp only [Bool.or_self, Bool.false_eq_true, if_false]
    rw [← hrev, List.reverse_reverse]
    exact congrArg some (Text.intercalate_split '/' token)

theorem dropDotSlash_plain {path : String} (hplain : Plain path) : dropDotSlash path.toList = path.toList := by
  unfold dropDotSlash
  split
  · rename_i rest heq
    have hsplit := List.splitOn_append_cons_self_of_not_mem (show '/' ∉ ['.'] by decide) rest
    refine absurd (hplain "." ?_) (by decide)
    rw [Text.split, heq, show '.' :: '/' :: rest = ['.'] ++ '/' :: rest from rfl, hsplit]
    exact List.mem_cons_self ..
  · rfl

theorem normalizeRepoPath_plain {path : String} (hplain : Plain path) (htidy : Tidy path) : normalizeRepoPath path = path := by
  unfold normalizeRepoPath
  rw [htidy.strip, Text.replaceChar_of_not_mem htidy.slashes]
  dsimp only
  rw [dropDotSlash_plain hplain, String.ofList_toList, Text.lstrip_eq_iff]
  refine ⟨⟨[], by simp, by simp⟩, fun c hc hmem => hplain.head ?_⟩
  rw [List.mem_singleton.1 hmem] at hc
  exact hc

/-- Run from the root, a script named by a plain path is the file executed, and is guarded, unless the
path starts with a dot. -/
theorem plain_script_guarded {suite : CheckSuite} {c : CheckCommand} {token : String} (hc : c ∈ suite.checks)
    (ht : token ∈ c.argv) (hcwd : c.cwd = "" ∨ c.cwd = ".") (hplain : Plain token) (htidy : Tidy token)
    (hs : isScript token = true) (hdot : token.toList.head? ≠ some '.') :
    executedPath c.cwd token = some token ∧ Guarded suite token := by
  have hnorm := normalizeRepoPath_plain hplain htidy
  have hne : token ≠ "" := by
    rintro rfl
    exact hplain "" (by decide) (by decide)
  refine ⟨executedPath_root hcwd hplain, guarded_iff.2 (.inr ⟨c, hc, token, ht, ?_⟩)⟩
  rw [hnorm]
  refine ⟨by rw [hnorm]; exact ⟨hne, hs⟩, by rw [hnorm]; exact ⟨[], by simp, by simp⟩, fun ch hch hmem => ?_⟩
  -- neither of the stripped characters stands in front
  simp only [List.mem_cons, List.not_mem_nil, or_false] at hmem
  rcases hmem with rfl | rfl
  · exact hdot hch
  · exact hplain.head hch

/-- A path that starts with a dot is guarded by its name only, whatever the suite executes. -/
theorem dotted_guarded_iff {suite : CheckSuite} {path : String}
    (hdot : (normalizeRepoPath path).toList.head? = some '.') :
    Guarded suite path ↔ protectedByName (normalizeRepoPath path) = true := by
  rw [guarded_iff]
  refine or_iff_left ?_
  rintro ⟨_, _, _, _, hspells⟩
  exact hspells.head '.' hdot (by decide)

/-! ## A token against the path it executes -/

theorem mem_enter {dir next : List String} {part : String} (h : enter dir part = some next) :
    ∀ other ∈ next, other ∈ dir ∨ other = part ∧ part ∉ ["", ".", ".."] := by
  unfold enter at h
  split at h
  · rw [← Option.some.inj h]
    exact fun other hother => .inl hother
  · rename_i hstay
    split at h
    · cases dir with
      | nil => cases h
      | cons inner up =>
        rw [← Option.some.inj h]
        exact fun other hother => .inl (List.mem_cons_of_mem _ hother)
    · rename_i hup
      rw [not_or] at hstay
      rw [← Option.some.inj h]
      intro other hother
      rcases List.mem_cons.1 hother with rfl | hother
      · exact .inr ⟨rfl, by simp [hstay.1, hstay.2, hup]⟩
      · exact .inl hother

/-- Every component of where a walk leads is one of where it began, or one that was walked. -/
theorem mem_walk {dir parts found : List String} (h : walk dir parts = some found) :
    ∀ part ∈ found, part ∈ dir ∨ part ∈ parts ∧ part ∉ ["", ".", ".."] := by
  induction parts generalizing dir with
  | nil =>
    cases h
    exact fun part hpart => .inl hpart
  | cons first parts ih =>
    obtain ⟨next, hnext, hrest⟩ := Option.bind_eq_some_iff.1 h
    intro part hpart
    rcases ih hrest part hpart with hin | ⟨hin, hplain⟩
    · rcases mem_enter hnext part hin with hold | ⟨rfl, hplain⟩
      · exact .inl hold
      · exact .inr ⟨List.mem_cons_self .., hplain⟩
    · exact .inr ⟨List.mem_cons_of_mem _ hin, hplain⟩

theorem not_mem_of_split {text part : String} (h : part ∈ Text.split '/' text) : '/' ∉ part.toList := by
  obtain ⟨cs, hcs, rfl⟩ := List.mem_map.1 h
  rw [String.toList_ofList]
  intro hslash
  have hfalse := Text.mem_splitOnP hcs '/' hslash
  rw [beq_self_eq_true] at hfalse
  cases hfalse

/-- The parts of an executed path are where the walk leads. -/
theorem executedPath_split {cwd token path : String} (h : executedPath cwd token = some path) :
    walk [] (Text.split '/' cwd ++ Text.split '/' token) = some (Text.split '/' path).reverse ∧ Plain path := by
  unfold executedPath at h
  split at h
  · cases h
  · split at h
    · cases h
    · cases h
    · rename_i dir hdir hwalk
      have hparts : ∀ part ∈ dir, '/' ∉ part.toList ∧ part ∉ ["", ".", ".."] := by
        intro part hpart
        rcases mem_walk hwalk part hpart with hnil | ⟨hin, hplain⟩
        · cases hnil
        · exact ⟨(List.mem_append.1 hin).elim not_mem_of_split not_mem_of_split, hplain⟩
      have hsplit : Text.split '/' path = dir.reverse := by
        rw [← Option.some.inj h]
        refine Text.split_intercalate (fun part hpart => (hparts part (List.mem_reverse.1 hpart)).1) ?_
        exact fun hnil => hdir (List.reverse_eq_nil_iff.1 hnil)
      refine ⟨by rw [hsplit, List.reverse_reverse, hwalk], fun part hpart => ?_⟩
      rw [hsplit] at hpart
      exact (hparts part (List.mem_reverse.1 hpart)).2

theorem dropWhile_dropWhile {p q : Char → Bool} (h : ∀ c, q c = true → p c = true) (cs : List Char) :
    (cs.dropWhile q).dropWhile p = cs.dropWhile p := by
  induction cs with
  | nil => rfl
  | cons c cs ih =>
    cases hc : q c with
    | true => rw [List.dropWhile_cons_of_pos hc, List.dropWhile_cons_of_pos (h c hc), ih]
    | false => rw [List.dropWhile_cons_of_neg (by simp [hc])]

theorem dropWhile_dropDotSlash (cs : List Char) :
    (dropDotSlash cs).dropWhile (· ∈ ['.', '/']) = cs.dropWhile (· ∈ ['.', '/']) := by
  fun_induction dropDotSlash cs with
  | case1 rest ih => rw [ih]; rfl
  | case2 cs hother => rfl

/-- Of a tidy token, no more is left after its normal form is stripped than after it is stripped itself. -/
theorem lstrip_normalizeRepoPath {token : String} (h : Tidy token) :
    Text.lstrip ['.', '/'] (normalizeRepoPath token) = Text.lstrip ['.', '/'] token := by
  unfold normalizeRepoPath
  rw [h.strip, Text.replaceChar_of_not_mem h.slashes]
  dsimp only
  unfold Text.lstrip
  rw [String.toList_ofList, String.toList_ofList, dropWhile_dropWhile, dropWhile_dropDotSlash]
  intro c hc
  rw [List.mem_singleton.1 (of_decide_eq_true hc)]
  decide

theorem dropWhile_dots : ∀ {cs : List Char}, '/' ∉ cs → cs.dropWhile (· ∈ ['.', '/']) = cs.dropWhile (· ∈ ['.'])
  | [], _ => rfl
  | c :: cs, h => by
    rw [List.mem_cons, not_or] at h
    by_cases hc : c = '.'
    · rw [hc, List.dropWhile_cons_of_pos (by decide), List.dropWhile_cons_of_pos (by decide), dropWhile_dots h.2]
    · rw [List.dropWhile_cons_of_neg (by simp [hc, Ne.symm h.1]), List.dropWhile_cons_of_neg (by simp [hc])]

theorem dropWhile_lead {lead : List Char} (hlead : ∀ c ∈ lead, c = '.') (rest : List Char) :
    (lead ++ ['/'] ++ rest).dropWhile (· ∈ ['.', '/']) = rest.dropWhile (· ∈ ['.', '/']) := by
  refine List.dropWhile_append_of_pos fun c hc => ?_
  rcases List.mem_append.1 hc with hc | hc
  · rw [hlead c hc]
    decide
  · rw [List.mem_singleton.1 hc]
    decide

theorem dropWhile_intercalate_dots : ∀ {leads : List (List Char)}, (∀ lead ∈ leads, ∀ c ∈ lead, c = '.') →
    (List.intercalate ['/'] leads).dropWhile (· ∈ ['.', '/']) = []
  | [], _ => rfl
  | [lead], h => by
    rw [List.intercalate_singleton, List.dropWhile_eq_nil_iff]
    intro c hc
    rw [h lead (List.mem_cons_self ..) c hc]
    decide
  | lead :: next :: leads, h => by
    obtain ⟨hlead, hleads⟩ := List.forall_mem_cons.1 h
    rw [List.intercalate_cons_cons, dropWhile_lead hlead, dropWhile_intercalate_dots hleads]

/-- Of parts that are only dots and the others behind them, stripping leaves the others, the first one without its dots. -/
theorem dropWhile_intercalate {first : List Char} {rest : List (List Char)} (hfirst : ∃ c ∈ first, c ≠ '.') (hslash : '/' ∉ first) :
    ∀ {leads : List (List Char)}, (∀ lead ∈ leads, ∀ c ∈ lead, c = '.') →
      (List.intercalate ['/'] (leads ++ first :: rest)).dropWhile (· ∈ ['.', '/']) =
        List.intercalate ['/'] (first.dropWhile (· ∈ ['.']) :: rest)
  | [], _ => by
    have hne : ¬ (first.dropWhile (· ∈ ['.', '/'])).isEmpty = true := by
      rw [dropWhile_dots hslash, List.isEmpty_iff, List.dropWhile_eq_nil_iff]
      obtain ⟨c, hc, hdot⟩ := hfirst
      exact fun hall => hdot (by simpa using hall c hc)
    cases rest with
    | nil => rw [List.nil_append, List.intercalate_singleton, List.intercalate_singleton, dropWhile_dots hslash]
    | cons next rest =>
      rw [List.nil_append, List.intercalate_cons_cons, List.intercalate_cons_cons, List.append_assoc, List.append_assoc,
        List.dropWhile_append, if_neg hne, dropWhile_dots hslash]
  | lead :: leads, h => by
    obtain ⟨hlead, hleads⟩ := List.forall_mem_cons.1 h
    have hne : leads ++ first :: rest ≠ [] := by simp
    rw [List.cons_append, List.intercalate_cons_of_ne_nil hne, dropWhile_lead hlead,
      dropWhile_intercalate hfirst hslash hleads]

theorem toList_eq_intercalate (token : String) :
    token.toList = List.intercalate ['/'] ((leadingDots token).map String.toList ++ (named token).map String.toList) := by
  rw [← List.map_append, leadingDots, named, List.takeWhile_append_dropWhile, ← String.toList_singleton,
    ← String.toList_intercalate, Text.intercalate_split]

theorem leadingDots_dots {token : String} : ∀ lead ∈ (leadingDots token).map String.toList, ∀ c ∈ lead, c = '.' := by
  intro lead hlead c hc
  obtain ⟨part, hpart, rfl⟩ := List.mem_map.1 hlead
  have hdots : dotsOnly part = true := List.mem_takeWhile_imp hpart
  exact of_decide_eq_true (List.all_eq_true.1 hdots c hc)

theorem not_dotsOnly_of_named {token first : String} {rest : List String} (hnamed : named token = first :: rest) :
    dotsOnly first = false := by
  have hhead := List.head?_dropWhile_not dotsOnly (Text.split '/' token)
  rw [show (Text.split '/' token).dropWhile dotsOnly = first :: rest from hnamed] at hhead
  exact hhead

theorem not_mem_of_named {token part : String} (h : part ∈ named token) : '/' ∉ part.toList :=
  not_mem_of_split (List.dropWhile_subset _ h)

/-- What is left of a token once the dots and slashes in front are stripped: its names, the first one without its dots. -/
theorem lstrip_token {token first : String} {rest : List String} (hnamed : named token = first :: rest) :
    Text.lstrip ['.', '/'] token = String.intercalate "/" (Text.lstrip ['.'] first :: rest) := by
  have hfirst : ∃ c ∈ first.toList, c ≠ '.' := by
    by_contra hnone
    refine Bool.eq_false_iff.1 (not_dotsOnly_of_named hnamed) (List.all_eq_true.2 fun c hc => decide_eq_true ?_)
    by_contra hne
    exact hnone ⟨c, hc, hne⟩
  have hin : first ∈ named token := by
    rw [hnamed]
    exact List.mem_cons_self ..
  rw [← String.toList_inj, Text.lstrip, String.toList_ofList, toList_eq_intercalate, hnamed, List.map_cons,
    dropWhile_intercalate hfirst (not_mem_of_named hin) leadingDots_dots, String.toList_intercalate, List.map_cons, Text.lstrip]
  simp only [String.toList_ofList]
  rfl

/-- A token that is only dots and slashes leaves nothing. -/
theorem lstrip_token_of_nil {token : String} (hnamed : named token = []) : Text.lstrip ['.', '/'] token = "" := by
  rw [← String.toList_inj, Text.lstrip, String.toList_ofList, toList_eq_intercalate, hnamed, List.map_nil, List.append_nil,
    dropWhile_intercalate_dots leadingDots_dots]
  rfl

/-- Where both are tidy, a token spells the path it executes just where it names it from the root. -/
theorem spells_iff_fromRoot {cwd token path : String} (htoken : Tidy token) (hexecuted : executedPath cwd token = some path) :
    Spells token path ↔ FromRoot cwd token := by
  obtain ⟨hwalk, hplain⟩ := executedPath_split hexecuted
  have hne : path ≠ "" := by
    rintro rfl
    exact hplain "" (by decide) (by decide)
  have hsplit : (walk [] (Text.split '/' cwd ++ leadingDots token)).bind (fun dir => walk dir (named token)) =
      some (Text.split '/' path).reverse := by
    have hparts : Text.split '/' token = leadingDots token ++ named token := List.takeWhile_append_dropWhile.symm
    rw [← hwalk, hparts, ← List.append_assoc]
    exact (List.foldlM_append (m := Option) ..).symm
  constructor
  · intro hspells
    have hleft : Text.lstrip ['.', '/'] token = path := by
      rw [← lstrip_normalizeRepoPath htoken]
      exact Text.lstrip_eq_iff.2 ⟨hspells.lead, hspells.head⟩
    cases hnamed : named token with
    | nil => exact absurd ((lstrip_token_of_nil hnamed).symm.trans hleft).symm hne
    | cons first rest =>
      rw [lstrip_token hnamed] at hleft
      have hslash : ∀ part ∈ first :: rest, '/' ∉ part.toList := hnamed ▸ fun part => not_mem_of_named
      rw [List.forall_mem_cons] at hslash
      have hpath : Text.split '/' path = Text.lstrip ['.'] first :: rest := by
        rw [← hleft]
        refine Text.split_intercalate (List.forall_mem_cons.2 ⟨fun hin => hslash.1 ?_, hslash.2⟩) (List.cons_ne_nil _ _)
        rw [Text.lstrip, String.toList_ofList] at hin
        exact List.dropWhile_subset _ hin
      have hnames : ∀ part ∈ named token, part ∉ ["", ".", ".."] := by
        rw [hnamed, List.forall_mem_cons]
        refine ⟨fun hin => ?_, fun part hpart => hplain part (by rw [hpath]; exact List.mem_cons_of_mem _ hpart)⟩
        have hall : ["", ".", ".."].all dotsOnly = true := by decide
        exact Bool.eq_false_iff.1 (not_dotsOnly_of_named hnamed) (List.all_eq_true.1 hall first hin)
      -- the path has as many parts as the token has names, so there is none in front of them
      obtain ⟨dir, hdir, hlast⟩ := Option.bind_eq_some_iff.1 hsplit
      rw [walk_plain hnames, hnamed, hpath, Option.some.injEq] at hlast
      have hnil : dir = [] := by
        have hlength := congrArg List.length hlast
        rw [List.length_append, List.length_reverse, List.length_reverse, List.length_cons, List.length_cons] at hlength
        exact List.eq_nil_of_length_eq_zero (by omega)
      subst hnil
      rw [List.append_nil, List.reverse_inj] at hlast
      refine ⟨hspells.script.2, hdir, hnames, fun part hpart hdot => ?_⟩
      rw [hnamed] at hpart
      obtain rfl : first = part := Option.some.inj hpart
      exact (Text.lstrip_eq_iff.1 (List.cons.inj hlast).1.symm).2 '.' hdot (by decide)
  · intro hroot
    rw [hroot.root, Option.bind_some, walk_plain hroot.plain, List.append_nil, Option.some.injEq, List.reverse_inj] at hsplit
    cases hnamed : named token with
    | nil => exact absurd (hsplit.symm.trans hnamed) (Text.split_ne_nil _ _)
    | cons first rest =>
      have hfirst : Text.lstrip ['.'] first = first := by
        refine Text.lstrip_eq_iff.2 ⟨⟨[], by simp, rfl⟩, fun c hc hdot => ?_⟩
        rw [List.mem_singleton.1 hdot] at hc
        exact hroot.dotless first (by rw [hnamed]; rfl) hc
      have hleft : Text.lstrip ['.', '/'] token = path := by
        rw [lstrip_token hnamed, hfirst, ← hnamed, hsplit]
        exact Text.intercalate_split '/' path
      obtain ⟨hlead, hhead⟩ := Text.lstrip_eq_iff.1 ((lstrip_normalizeRepoPath htoken).trans hleft)
      refine ⟨⟨fun hempty => ?_, hroot.script⟩, hlead, hhead⟩
      rw [← lstrip_normalizeRepoPath htoken, hempty] at hleft
      exact hne hleft.symm

/-- A fix cannot rewrite a script that judges it unreported if and only if each file a script token of the suite executes is
covered: by its name, by the way its token leads to it from the root, or by another token. -/
theorem scriptsGuarded_iff_covered (suite : CheckSuite) :
    ScriptsGuarded suite ↔
      ∀ c ∈ suite.checks, ∀ token ∈ c.argv, NamesScript token →
        ∀ path, executedPath c.cwd token = some path → Covered suite c.cwd token path := by
  refine forall₂_congr fun c hc => forall₂_congr fun token ht => forall_congr' fun _ => forall₂_congr fun path hexecuted => ?_
  have hnorm : Tidy path → normalizeRepoPath path = path := normalizeRepoPath_plain (executedPath_split hexecuted).2
  rw [guarded_iff]
  refine or_congr_right ⟨?_, ?_⟩
  · rintro ⟨c', hc', other, hother, hspells⟩
    by_cases hself : other = token ∧ Tidy token ∧ Tidy path
    · obtain ⟨rfl, htoken, hpath⟩ := hself
      rw [hnorm hpath] at hspells
      exact .inl ⟨htoken, hpath, (spells_iff_fromRoot htoken hexecuted).1 hspells⟩
    · exact .inr ⟨c', hc', other, hother, fun heq hboth => hself ⟨heq, hboth⟩, hspells⟩
  · rintro (⟨htoken, hpath, hroot⟩ | ⟨c', hc', other, hother, -, hspells⟩)
    · refine ⟨c, hc, token, ht, ?_⟩
      rw [hnorm hpath]
      exact (spells_iff_fromRoot htoken hexecuted).2 hroot
    · exact ⟨c', hc', other, hother, hspells⟩

/-- A suite of one validated `bash` check. -/
def bashSuite (script cwd : String) : CheckSuite where
  checks := [{ id := "lint", argv := ["bash", script], cwd := cwd, validation := .validated, named := by decide,
               runnable := ⟨"bash", rfl, by decide⟩ }]
  source := .policy
  distinct := by simp

/-- Neither a script in a directory that starts with a dot, nor one run from another directory than the root, nor one
without a suffix in the root is guarded. -/
theorem dotted_and_moved_scripts_unguarded :
    ¬ ScriptsGuarded (bashSuite ".ci/lint.sh" ".") ∧ ¬ ScriptsGuarded (bashSuite "lint.sh" "tools") ∧
      ¬ ScriptsGuarded (bashSuite "./lint" ".") := by
  refine ⟨?_, ?_, ?_⟩
  · intro h
    have := h _ (List.mem_singleton_self _) ".ci/lint.sh" (by decide) (.inl (by decide)) ".ci/lint.sh" (by decide +kernel)
      [".ci/lint.sh"] (by decide)
    exact absurd this (by decide +kernel)
  · intro h
    have := h _ (List.mem_singleton_self _) "lint.sh" (by decide) (.inr ⟨".sh", by decide, by decide +kernel⟩)
      "tools/lint.sh" (by decide +kernel) ["tools/lint.sh"] (by decide)
    exact absurd this (by decide +kernel)
  · intro h
    have := h _ (List.mem_singleton_self _) "./lint" (by decide) (.inl (by decide)) "lint" (by decide +kernel)
      ["lint"] (by decide)
    exact absurd this (by decide +kernel)

end OpenFish.Gates
