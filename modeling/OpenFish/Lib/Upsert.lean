/-
Storing rows one after the other: what is stored stays stored until a row of its key comes, so storing the
same rows once more changes nothing.
-/
import Mathlib.Data.List.Nodup
import Mathlib.Tactic.Common

namespace Lib

/-! ## Rows that are replaced -/

section replace

variable {α κ : Type} [DecidableEq α] {key : α → κ} {l : List α} {a b x : α}

theorem replace_self (l : List α) (a : α) : l.replace a a = l := by
  induction l with
  | nil => rfl
  | cons b l ih =>
    by_cases h : b = a
    · rw [h, List.replace_cons_self]
    · rw [List.replace_cons, beq_false_of_ne (Ne.symm h), ih]

/-- The first row is replaced. -/
theorem replace_eq_append (ha : a ∈ l) : ∃ l₁ l₂, l = l₁ ++ a :: l₂ ∧ l.replace a b = l₁ ++ b :: l₂ := by
  induction l with
  | nil => exact absurd ha List.not_mem_nil
  | cons c l ih =>
    by_cases h : c = a
    · subst h
      exact ⟨[], l, rfl, List.replace_cons_self⟩
    · obtain ⟨l₁, l₂, hl, hreplace⟩ := ih ((List.mem_cons.1 ha).resolve_left (Ne.symm h))
      refine ⟨c :: l₁, l₂, by rw [List.cons_append, ← hl], ?_⟩
      rw [List.replace_cons, beq_false_of_ne (Ne.symm h)]
      exact congrArg (c :: ·) hreplace

theorem mem_replace (ha : a ∈ l) : b ∈ l.replace a b := by
  obtain ⟨l₁, l₂, -, hreplace⟩ := replace_eq_append (b := b) ha
  rw [hreplace]
  exact List.mem_append_right _ (List.mem_cons_self ..)

theorem mem_replace_of_ne (ha : a ∈ l) (hx : x ∈ l) (hne : x ≠ a) : x ∈ l.replace a b := by
  obtain ⟨l₁, l₂, hl, hreplace⟩ := replace_eq_append (b := b) ha
  rw [hl, List.mem_append, List.mem_cons] at hx
  rw [hreplace, List.mem_append, List.mem_cons]
  exact hx.imp id fun hx => hx.imp (fun h => absurd h hne) id

/-- Keys stay distinct when a row takes the place of the one of its key, or brings a new key. -/
theorem nodup_replace (ha : a ∈ l) (h : (l.map key).Nodup) (hkey : key b = key a ∨ key b ∉ l.map key) :
    ((l.replace a b).map key).Nodup := by
  obtain ⟨l₁, l₂, rfl, hreplace⟩ := replace_eq_append (b := b) ha
  rw [hreplace]
  rw [List.map_append, List.map_cons] at h hkey ⊢
  rcases hkey with heq | hnew
  · rw [heq]
    exact h
  · rw [List.mem_append, List.mem_cons, not_or, not_or] at hnew
    rw [List.nodup_middle, List.nodup_cons] at h ⊢
    exact ⟨by rw [List.mem_append, not_or]; exact ⟨hnew.1, hnew.2.2⟩, h.2⟩

end replace

/-! ## Storing twice -/

section upserts

variable {σ α : Type}

/-- `store` puts a row that is fit into a good table, where it is `held` until one that is not apart from it
comes. -/
structure Upserts (store : σ → α → σ) (good : σ → Prop) (fit : α → Prop) (held : σ → α → Prop)
    (apart : α → α → Prop) : Prop where
  stays : ∀ {t a}, fit a → good t → good (store t a)
  stores : ∀ {t a}, fit a → good t → held (store t a) a
  keeps : ∀ {t a b}, fit b → good t → held t a → apart a b → held (store t b) a
  same : ∀ {t a}, fit a → good t → held t a → store t a = t

variable {store : σ → α → σ} {good : σ → Prop} {fit : α → Prop} {held : σ → α → Prop} {apart : α → α → Prop}

theorem Upserts.foldl_good (h : Upserts store good fit held apart) {l : List α} (hfit : ∀ a ∈ l, fit a) {t : σ}
    (ht : good t) : good (l.foldl store t) := by
  induction l generalizing t with
  | nil => exact ht
  | cons a l ih =>
    exact ih (fun b hb => hfit b (List.mem_cons_of_mem _ hb)) (h.stays (hfit a (List.mem_cons_self ..)) ht)

theorem Upserts.foldl_keeps (h : Upserts store good fit held apart) {l : List α} (hfit : ∀ a ∈ l, fit a) {t : σ}
    (ht : good t) {a : α} (ha : held t a) (hapart : ∀ b ∈ l, apart a b) : held (l.foldl store t) a := by
  induction l generalizing t with
  | nil => exact ha
  | cons b l ih =>
    have hb := hfit b (List.mem_cons_self ..)
    exact ih (fun c hc => hfit c (List.mem_cons_of_mem _ hc)) (h.stays hb ht)
      (h.keeps hb ht ha (hapart b (List.mem_cons_self ..))) fun c hc => hapart c (List.mem_cons_of_mem _ hc)

/-- Rows that are apart are all held when they are stored. -/
theorem Upserts.foldl_held (h : Upserts store good fit held apart) {l : List α} (hfit : ∀ a ∈ l, fit a)
    (hapart : l.Pairwise apart) {t : σ} (ht : good t) : ∀ a ∈ l, held (l.foldl store t) a := by
  induction l generalizing t with
  | nil => exact fun a ha => absurd ha List.not_mem_nil
  | cons b l ih =>
    have hb := hfit b (List.mem_cons_self ..)
    have hfit' : ∀ a ∈ l, fit a := fun a ha => hfit a (List.mem_cons_of_mem _ ha)
    obtain ⟨hfirst, hrest⟩ := List.pairwise_cons.1 hapart
    intro a ha
    rcases List.mem_cons.1 ha with rfl | ha
    · exact h.foldl_keeps hfit' (h.stays hb ht) (h.stores hb ht) hfirst
    · exact ih hfit' hrest (h.stays hb ht) a ha

theorem Upserts.foldl_same (h : Upserts store good fit held apart) {l : List α} (hfit : ∀ a ∈ l, fit a) {t : σ}
    (ht : good t) (hheld : ∀ a ∈ l, held t a) : l.foldl store t = t := by
  induction l with
  | nil => rfl
  | cons a l ih =>
    rw [List.foldl_cons, h.same (hfit a (List.mem_cons_self ..)) ht (hheld a (List.mem_cons_self ..))]
    exact ih (fun b hb => hfit b (List.mem_cons_of_mem _ hb)) fun b hb => hheld b (List.mem_cons_of_mem _ hb)

/-- Storing rows twice is storing them once. -/
theorem Upserts.foldl_twice (h : Upserts store good fit held apart) {l : List α} (hfit : ∀ a ∈ l, fit a)
    (hapart : l.Pairwise apart) {t : σ} (ht : good t) : l.foldl store (l.foldl store t) = l.foldl store t :=
  h.foldl_same hfit (h.foldl_good hfit ht) (h.foldl_held hfit hapart ht)

end upserts

end Lib
