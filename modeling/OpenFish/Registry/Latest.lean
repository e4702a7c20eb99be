/-
The version that a registry calls the latest: the highest by `_version_key`.
-/
import OpenFish.Lib.Highest
import OpenFish.Registry.Manifest

namespace OpenFish.Registry

open Lib Npm

variable {formats : Formats}

/-! ## The order of the keys -/

theorem Piece.precedes_irrefl (a : Piece) : a.precedes a = false := by
  cases a <;> simp [Piece.precedes]

theorem Piece.precedes_trans {a b c : Piece} (hab : a.precedes b = true) (hbc : b.precedes c = true) : a.precedes c = true := by
  cases a with
  | number m =>
    cases b with
    | number n =>
      cases c with
      | number k =>
        simp only [Piece.precedes, decide_eq_true_eq] at hab hbc ⊢
        exact lt_trans hab hbc
      | word t => rfl
    | word s =>
      cases c with
      | number k => cases hbc
      | word t => rfl
  | word s =>
    cases b with
    | number n => cases hab
    | word t =>
      cases c with
      | number k => cases hbc
      | word u =>
        simp only [Piece.precedes, decide_eq_true_eq] at hab hbc ⊢
        exact lt_trans hab hbc

theorem keyPrecedes_irrefl : ∀ key : List Piece, keyPrecedes key key = false
  | [] => rfl
  | a :: key => by
    rw [keyPrecedes, if_pos rfl]
    exact keyPrecedes_irrefl key

theorem keyPrecedes_trans : ∀ {a b c : List Piece}, keyPrecedes a b = true → keyPrecedes b c = true → keyPrecedes a c = true
  | _, [], _, hab, _ => by
    rw [keyPrecedes] at hab
    cases hab
  | _, _ :: _, [], _, hbc => by
    rw [keyPrecedes] at hbc
    cases hbc
  | [], y :: ys, z :: zs, _, _ => rfl
  | x :: xs, y :: ys, z :: zs, hab, hbc => by
    rw [keyPrecedes] at hab hbc ⊢
    by_cases hxy : x = y
    · subst hxy
      rw [if_pos rfl] at hab
      split at hbc
      · rename_i hxz
        rw [if_pos hxz]
        exact keyPrecedes_trans hab hbc
      · rename_i hxz
        rw [if_neg hxz]
        exact hbc
    · rw [if_neg hxy] at hab
      split at hbc
      · rename_i hyz
        subst hyz
        rw [if_neg hxy]
        exact hab
      · rename_i hyz
        have hxz := Piece.precedes_trans hab hbc
        rw [if_neg fun heq => ?_]
        · exact hxz
        · subst heq
          rw [Piece.precedes_irrefl] at hxz
          cases hxz

/-! ## The highest of them -/

theorem mapM_some {α β : Type} {f : α → Option β} : ∀ {l : List α} {l' : List β}, l.mapM f = some l' →
    (∀ b ∈ l', ∃ a ∈ l, f a = some b) ∧ ∀ a ∈ l, ∃ b ∈ l', f a = some b
  | [], l', hsome => by
    rw [List.mapM_nil] at hsome
    cases hsome
    exact ⟨fun b hb => absurd hb List.not_mem_nil, fun a ha => absurd ha List.not_mem_nil⟩
  | a :: l, l', hsome => by
    rw [List.mapM_cons] at hsome
    obtain ⟨b, hb, hsome⟩ := Option.bind_eq_some_iff.1 hsome
    obtain ⟨bs, hbs, hsome⟩ := Option.bind_eq_some_iff.1 hsome
    cases hsome
    obtain ⟨hfrom, hto⟩ := mapM_some hbs
    rw [List.forall_mem_cons, List.forall_mem_cons]
    refine ⟨⟨⟨a, List.mem_cons_self .., hb⟩, fun c hc => ?_⟩, ⟨b, List.mem_cons_self .., hb⟩, fun c hc => ?_⟩
    · obtain ⟨d, hd, heq⟩ := hfrom c hc
      exact ⟨d, List.mem_cons_of_mem _ hd, heq⟩
    · obtain ⟨d, hd, heq⟩ := hto c hc
      exact ⟨d, List.mem_cons_of_mem _ hd, heq⟩

/-- The highest version has a key, and no other one has a higher one. -/
theorem latestOf_some {versions : List String} {version : String} (hsome : latestOf formats versions = some version)
    (hne : versions ≠ []) :
    version ∈ versions ∧ ∃ key, versionKey formats version = some key ∧
      ∀ other ∈ versions, ∃ key', versionKey formats other = some key' ∧ keyPrecedes key key' = false := by
  unfold latestOf at hsome
  obtain ⟨keyed, hkeyed, hpick⟩ := Option.map_eq_some_iff.1 hsome
  obtain ⟨hfrom, hto⟩ := mapM_some hkeyed
  have hitem : ∀ item ∈ keyed, item.1 ∈ versions ∧ versionKey formats item.1 = some item.2 := by
    intro item hitem
    obtain ⟨v, hv, heq⟩ := hfrom item hitem
    obtain ⟨key, hkey, rfl⟩ := Option.map_eq_some_iff.1 heq
    exact ⟨hv, hkey⟩
  cases keyed with
  | nil =>
    obtain ⟨v, hv⟩ := List.exists_mem_of_ne_nil versions hne
    obtain ⟨b, hb, -⟩ := hto v hv
    exact absurd hb List.not_mem_nil
  | cons first rest =>
    have hlast : (rest.foldl later first).1 = version := hpick
    have hin := foldl_higher_mem (fun a b : String × List Piece => keyPrecedes a.2 b.2) rest first
    have hmax := foldl_higher_max (fun a b : String × List Piece => keyPrecedes a.2 b.2) (fun a => keyPrecedes_irrefl a.2)
      (fun a b c => keyPrecedes_trans) rest first
    obtain ⟨hversion, hkey⟩ := hitem _ hin
    rw [← hlast]
    refine ⟨hversion, _, hkey, fun other hother => ?_⟩
    obtain ⟨item, hmem, heq⟩ := hto other hother
    obtain ⟨key, hkey, rfl⟩ := Option.map_eq_some_iff.1 heq
    exact ⟨key, hkey, hmax _ hmem⟩

end OpenFish.Registry
