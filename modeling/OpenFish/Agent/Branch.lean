/-
The push guard (`assert_pushable` of `services/agent_runner.py`): the one place that decides which branch may be pushed.
-/
import OpenFish.Lib.Unicode
import OpenFish.Queue.Isolation

namespace OpenFish.Agent

open Lib

open Queue (agentBranchPrefix)

def protectedBranches : List String := ["main", "master", "trunk", "develop", "release"]

def forbiddenBranchChars : List Char := " ~^:?*[\\\x7f".toList

/-- What `_BRANCH_RE` allows after the first character of a name. -/
def branchChar (c : Char) : Bool := c.isAlphanum || c ∈ ['.', '_', '/', '-']

/-- `_BRANCH_RE.match(name)`, for a name without control characters. -/
def branchRe (name : String) : Bool :=
  match name.toList.drop agentBranchPrefix.toList.length with
  | [] => false
  | c :: rest => Text.startsWith agentBranchPrefix name && (c.isAlphanum && rest.all branchChar)

def assertPushable (branch : Option String) : Except String String :=
  let name := Text.strip (branch.getD "")
  let plain := if Text.startsWith "refs/heads/" name then String.ofList (name.toList.drop 11) else name
  if name = "" then .error "分支名不能为空"
  else if plain ∈ protectedBranches then
    .error s!"禁止推送保护分支 {plain}（I4：只能推 {agentBranchPrefix}* 分支并开 PR）"
  else if Text.startsWith agentBranchPrefix name = false then
    .error s!"只允许推送 {agentBranchPrefix}* 前缀分支，得到 {name}（I4）"
  else if name.toList.any fun c => c ∈ forbiddenBranchChars || c.toNat < 0x20 then .error s!"分支名含非法字符：{name}"
  else if Text.contains ".." name || Text.contains "@\x7b" name || Text.contains "//" name || Text.endsWith "/" name ||
      Text.endsWith ".lock" name then .error s!"分支名不是合法的 git ref：{name}"
  else if branchRe name = false then .error s!"分支名不符合 {agentBranchPrefix}<name> 形式：{name}"
  else .ok name

/-- A name in the namespace of the agent that git takes for a reference: letters, digits, dots, dashes, slashes and
underscores after a letter or digit, no two dots or slashes in a row, and no slash or `.lock` at the end. -/
structure Pushable (name : String) : Prop where
  shape : ∃ c rest, name.toList = agentBranchPrefix.toList ++ c :: rest ∧ c.isAlphanum = true ∧ rest.all branchChar = true
  dots : Text.contains ".." name = false
  slashes : Text.contains "//" name = false
  closed : Text.endsWith "/" name = false
  unlocked : Text.endsWith ".lock" name = false

theorem branchRe_iff {name : String} : branchRe name = true ↔
    ∃ c rest, name.toList = agentBranchPrefix.toList ++ c :: rest ∧ c.isAlphanum = true ∧ rest.all branchChar = true := by
  unfold branchRe Text.startsWith
  constructor
  · intro h
    split at h
    · cases h
    · rename_i c rest hdrop
      obtain ⟨hpre, hshape⟩ := Bool.and_eq_true_iff.1 h
      obtain ⟨tail, htail⟩ := List.isPrefixOf_iff_prefix.1 hpre
      rw [← htail, List.drop_left] at hdrop
      exact ⟨c, rest, by rw [← htail, hdrop], Bool.and_eq_true_iff.1 hshape⟩
  · rintro ⟨c, rest, heq, hc, hrest⟩
    have hpre : agentBranchPrefix.toList.isPrefixOf name.toList = true := by
      rw [heq, List.isPrefixOf_iff_prefix]
      exact List.prefix_append ..
    rw [heq, List.drop_left] 
    simp only [← heq, hpre, hc, hrest, Bool.and_self]

theorem Pushable.chars {name : String} (h : Pushable name) : ∀ c ∈ name.toList, branchChar c = true := by
  obtain ⟨d, rest, heq, hd, hrest⟩ := h.shape
  intro c hc
  rw [heq, List.mem_append, List.mem_cons] at hc
  rcases hc with hc | rfl | hc
  · exact List.all_eq_true.1 (by decide : (agentBranchPrefix.toList.all branchChar) = true) c hc
  · rw [branchChar, hd, Bool.true_or]
  · exact List.all_eq_true.1 hrest c hc

theorem toNat_of_branchChar {c : Char} (h : branchChar c = true) : 45 ≤ c.toNat := by
  simp only [branchChar, Bool.or_eq_true, Char.isAlphanum, isAlpha_eq, isUpper_iff, isLower_iff, decide_eq_true_eq,
    List.mem_cons, List.not_mem_nil, or_false] at h
  rcases h with ((h | h) | h) | rfl | rfl | rfl | rfl
  · omega
  · omega
  · have := Text.range_of_isDigit h
    omega
  all_goals decide

theorem not_forbidden {c : Char} (h : branchChar c = true) : (c ∈ forbiddenBranchChars || c.toNat < 0x20) = false := by
  have hlist : forbiddenBranchChars.all (fun c => !branchChar c) = true := by decide
  rw [Bool.or_eq_false_iff, decide_eq_false_iff_not, decide_eq_false_iff_not]
  refine ⟨fun hmem => ?_, ?_⟩
  · have := List.all_eq_true.1 hlist c hmem
    rw [h] at this
    cases this
  · have := toNat_of_branchChar h
    omega

theorem guard_ok_iff {ε α : Type} {c : Prop} [Decidable c] {e : ε} {x : Except ε α} {a : α} :
    (if c then .error e else x) = .ok a ↔ ¬ c ∧ x = .ok a := by
  split
  · simp_all
  · simp_all

/-- What is pushed is a name in the agent's namespace that git takes for a reference, and every such name may be pushed. -/
theorem assertPushable_ok_iff {branch : Option String} {name : String} :
    assertPushable branch = .ok name ↔ name = Text.strip (branch.getD "") ∧ Pushable name := by
  unfold assertPushable
  dsimp only
  simp only [guard_ok_iff, Except.ok.injEq, Bool.or_eq_true, not_or, Bool.not_eq_true, Bool.not_eq_false]
  constructor
  · rintro ⟨-, -, -, -, ⟨⟨⟨⟨hdots, -⟩, hslashes⟩, hclosed⟩, hunlocked⟩, hre, rfl⟩
    exact ⟨rfl, branchRe_iff.1 hre, hdots, hslashes, hclosed, hunlocked⟩
  · rintro ⟨rfl, h⟩
    obtain ⟨c, rest, heq, hc, hrest⟩ := id h.shape
    generalize Text.strip (branch.getD "") = name at heq h
    have hagent : Text.startsWith agentBranchPrefix name = true := by
      rw [Text.startsWith, List.isPrefixOf_iff_prefix, heq]
      exact List.prefix_append ..
    have hrefs : Text.startsWith "refs/heads/" name = false := by
      rw [Text.startsWith, heq]
      rfl
    have hne : name ≠ "" := by
      rintro rfl
      exact absurd (congrArg List.length heq) (by simp)
    have hplain : name ∉ protectedBranches := by
      have hall : ∀ b ∈ protectedBranches, Text.startsWith agentBranchPrefix b = false := by decide
      intro hmem
      rw [hall name hmem] at hagent
      cases hagent
    have hchars : (name.toList.any fun c => c ∈ forbiddenBranchChars || c.toNat < 0x20) = false :=
      List.any_eq_false.2 fun c hc => by rw [not_forbidden (h.chars c hc)]; exact Bool.false_ne_true
    have hat : Text.contains "@\x7b" name = false := by
      refine Text.not_contains_of_not_mem (c := '@') (by decide) fun hmem => ?_
      exact absurd (h.chars '@' hmem) (by decide)
    rw [hrefs, if_neg Bool.false_ne_true]
    exact ⟨hne, hplain, hagent, hchars, ⟨⟨⟨⟨h.dots, hat⟩, h.slashes⟩, h.closed⟩, h.unlocked⟩,
      branchRe_iff.2 ⟨c, rest, heq, hc, hrest⟩, rfl⟩

/-- The adapter's own check lets through what the runner checked. -/
theorem Pushable.assertPushable {branch : Option String} {name : String} (h : Agent.assertPushable branch = .ok name) :
    Agent.assertPushable (some name) = .ok name := by
  obtain ⟨rfl, hname⟩ := assertPushable_ok_iff.1 h
  exact assertPushable_ok_iff.2 ⟨by rw [Option.getD_some, Text.strip_strip], hname⟩

end OpenFish.Agent
