/-
Keys that a delimiter divides into directories: what a listing under a prefix shows, groups of keys up to their next
delimiter and the keys that have none, and the directories that the keys imply.
-/
import Mathlib.Data.List.Infix
import Mathlib.Tactic.Common

namespace Lib.Delimited

variable {α : Type*} (d : α)

/-- Up to the first delimiter after a prefix. -/
def IsGroup (p c : List α) : Prop := ∃ x, d ∉ x ∧ c = p ++ x ++ [d]

/-- A key without a delimiter after the prefix. -/
def Direct (p k : List α) : Prop := ∃ x, d ∉ x ∧ k = p ++ x

variable (keys : List α → Prop)

/-- A group that a listing under the prefix shows. -/
def Group (p c : List α) : Prop := IsGroup d p c ∧ ∃ k, keys k ∧ c <+: k

/-- A directory under a prefix. -/
def Dir (p q : List α) : Prop := (∃ y, q = p ++ y ++ [d]) ∧ ∃ k, keys k ∧ q <+: k

variable {d keys} {p c q k : List α}

theorem IsGroup.isPrefix (h : IsGroup d p c) : p <+: c := by
  obtain ⟨x, -, rfl⟩ := h
  exact ⟨x ++ [d], by rw [List.append_assoc]⟩

theorem IsGroup.length_lt (h : IsGroup d p c) : p.length < c.length := by
  obtain ⟨x, -, rfl⟩ := h
  simp only [List.length_append, List.length_singleton]
  omega

theorem Group.dir (h : Group d keys p c) : Dir d keys p c := by
  obtain ⟨⟨x, -, rfl⟩, hkey⟩ := h
  exact ⟨⟨x, rfl⟩, hkey⟩

theorem Dir.length_lt (h : Dir d keys p q) : p.length < q.length := by
  obtain ⟨⟨y, rfl⟩, -⟩ := h
  simp only [List.length_append, List.length_singleton]
  omega

theorem Dir.weaken (h : Dir d keys c q) (hpc : p <+: c) : Dir d keys p q := by
  obtain ⟨⟨y, rfl⟩, hkey⟩ := h
  obtain ⟨z, rfl⟩ := hpc
  exact ⟨⟨z ++ y, by rw [List.append_assoc p]⟩, hkey⟩

/-- A directory under a prefix is one of its groups, or it is under one. -/
theorem dir_iff : Dir d keys p q ↔ ∃ c, Group d keys p c ∧ (q = c ∨ Dir d keys c q) := by
  constructor
  · rintro ⟨⟨y, rfl⟩, k, hk, hpre⟩
    by_cases hy : d ∈ y
    · obtain ⟨x, z, rfl, hx⟩ := List.eq_append_cons_of_mem hy
      have hq : p ++ (x ++ d :: z) ++ [d] = p ++ x ++ [d] ++ z ++ [d] := by simp
      rw [hq] at hpre ⊢
      have hc : p ++ x ++ [d] <+: k := ((List.prefix_append _ z).trans (List.prefix_append _ [d])).trans hpre
      exact ⟨p ++ x ++ [d], ⟨⟨x, hx, rfl⟩, k, hk, hc⟩, .inr ⟨⟨z, rfl⟩, k, hk, hpre⟩⟩
    · exact ⟨_, ⟨⟨y, hy, rfl⟩, k, hk, hpre⟩, .inl rfl⟩
  · rintro ⟨c, hc, rfl | hq⟩
    · exact hc.dir
    · exact hq.weaken hc.1.isPrefix

/-- A key under a prefix is a direct one, or it is in one of the groups. -/
theorem direct_or_group (hk : keys k) (hp : p <+: k) : Direct d p k ∨ ∃ c, Group d keys p c ∧ c <+: k := by
  obtain ⟨x, rfl⟩ := hp
  by_cases hx : d ∈ x
  · obtain ⟨y, z, rfl, hy⟩ := List.eq_append_cons_of_mem hx
    have hc : p ++ y ++ [d] <+: p ++ (y ++ d :: z) := ⟨z, by simp⟩
    exact .inr ⟨_, ⟨⟨y, hy, rfl⟩, _, hk, hc⟩, hc⟩
  · exact .inl ⟨x, hx, rfl⟩

/-- What ends with a delimiter does not reach beyond the last one. -/
theorem prefix_of_not_mem {u p x : List α} (hx : d ∉ x) (h : u ++ [d] <+: p ++ x) : u ++ [d] <+: p := by
  rcases List.prefix_or_prefix_of_prefix h (List.prefix_append p x) with hpre | ⟨z, hz⟩
  · exact hpre
  · rw [← hz] at h ⊢
    rcases List.eq_nil_or_concat z with rfl | ⟨z', last, rfl⟩
    · rw [List.append_nil]
    · have hlast : last = d := by
        have hends := congrArg List.getLast? hz
        simpa [List.getLast?_append] using hends
      have hmem : last ∈ x := by
        have hsub := (List.prefix_append_right_inj p).1 h
        exact hsub.subset (by simp)
      exact absurd (hlast ▸ hmem) hx

/-- In names that are not empty and have no delimiter, put together with one between each two, no delimiter stands first or
follows another. -/
theorem tidy_intercalate {names : List (List α)} (hnames : ∀ name ∈ names, name ≠ [] ∧ d ∉ name) {u : List α}
    (h : u ++ [d] <+: [d].intercalate names) : u ≠ [] ∧ u.getLast? ≠ some d := by
  induction names generalizing u with
  | nil =>
    rw [List.intercalate_nil, List.prefix_nil] at h
    exact absurd h (by simp)
  | cons name names ih =>
    obtain ⟨⟨hne, hname⟩, hrest⟩ := List.forall_mem_cons.1 hnames
    have hlast : ∀ v, v ++ [d] <+: name → False := fun v hv => hname (hv.subset (by simp))
    cases names with
    | nil =>
      rw [List.intercalate_singleton] at h
      exact (hlast u h).elim
    | cons second names =>
      rw [List.intercalate_cons_cons] at h
      have h : u ++ [d] <+: name ++ d :: [d].intercalate (second :: names) := by simpa using h
      rcases List.prefix_or_prefix_of_prefix h (List.prefix_append name _) with hshort | ⟨z, hz⟩
      · exact (hlast u hshort).elim
      · rw [← hz, List.prefix_append_right_inj] at h
        cases z with
        | nil => exact (hlast u (by rw [← hz, List.append_nil])).elim
        | cons x z =>
          obtain ⟨rfl, hz'⟩ := List.cons_prefix_cons.1 h
          rcases List.eq_nil_or_concat z with rfl | ⟨v, last, rfl⟩
          · have hu : u = name := (List.append_inj_left' hz rfl).symm
            subst hu
            refine ⟨hne, fun hmem => hname ?_⟩
            exact List.mem_of_getLast? hmem
          · have hsplit : name ++ x :: v ++ [last] = u ++ [x] := by simpa using hz
            obtain ⟨hu, hx⟩ := List.append_inj' hsplit rfl
            rw [(List.cons.inj hx).1, List.concat_eq_append] at hz'
            obtain ⟨hv, hend⟩ := ih hrest hz'
            rw [← hu]
            refine ⟨List.append_ne_nil_of_left_ne_nil hne _, ?_⟩
            obtain ⟨v', last', rfl⟩ := (List.eq_nil_or_concat v).resolve_left hv
            simpa [List.getLast?_append, List.getLast?_cons] using hend

/-! ## Computing the group of a key -/

section Computed

variable [DecidableEq α]

/-- The group that stands for a key in a listing under the prefix, unless the key is a direct one or elsewhere. -/
def groupOf (d : α) (p k : List α) : Option (List α) :=
  if p <+: k ∧ d ∈ k.drop p.length then some (p ++ (k.drop p.length).takeWhile (· ≠ d) ++ [d]) else none

theorem takeWhile_append_cons {x z : List α} (hx : d ∉ x) : (x ++ d :: z).takeWhile (· ≠ d) = x := by
  have hall : ∀ a ∈ x, decide (a ≠ d) = true := fun a ha => decide_eq_true fun heq => hx (heq ▸ ha)
  rw [List.takeWhile_append_of_pos hall, List.takeWhile_cons_of_neg (by simp), List.append_nil]

theorem groupOf_eq_some : groupOf d p k = some c ↔ IsGroup d p c ∧ c <+: k := by
  constructor
  · intro h
    unfold groupOf at h
    split at h
    · rename_i hboth
      obtain ⟨⟨rest, rfl⟩, hmem⟩ := hboth
      rw [List.drop_left] at h hmem
      obtain ⟨x, z, rfl, hx⟩ := List.eq_append_cons_of_mem hmem
      rw [takeWhile_append_cons hx] at h
      cases h
      exact ⟨⟨x, hx, rfl⟩, z, by simp⟩
    · cases h
  · rintro ⟨⟨x, hx, rfl⟩, z, rfl⟩
    have hlist : p ++ x ++ [d] ++ z = p ++ (x ++ d :: z) := by simp
    rw [hlist, groupOf, List.drop_left, takeWhile_append_cons hx, if_pos]
    exact ⟨List.prefix_append _ _, List.mem_append_right _ (List.mem_cons_self ..)⟩

end Computed

end Lib.Delimited
