/-
The highest element of a list as a loop finds it: one that no other precedes, and the first of those that are alike.
-/
import Mathlib.Tactic.Common

namespace Lib

variable {α : Type*} (precedes : α → α → Bool)

/-- The later of two, and the first of two that are alike. -/
def higher (best item : α) : α := if precedes best item then item else best

theorem higher_mem (best item : α) : higher precedes best item = best ∨ higher precedes best item = item := by
  unfold higher
  split
  · exact .inr rfl
  · exact .inl rfl

theorem foldl_higher_mem (rest : List α) (first : α) : rest.foldl (higher precedes) first ∈ first :: rest := by
  induction rest generalizing first with
  | nil => exact List.mem_singleton_self _
  | cons item rest ih =>
    rw [List.foldl_cons]
    rcases List.mem_cons.1 (ih (higher precedes first item)) with heq | hmem
    · rw [heq]
      rcases higher_mem precedes first item with hbest | hitem
      · rw [hbest]
        exact List.mem_cons_self ..
      · rw [hitem]
        exact List.mem_cons_of_mem _ (List.mem_cons_self ..)
    · exact List.mem_cons_of_mem _ (List.mem_cons_of_mem _ hmem)

/-- What the loop ends with precedes nothing it has seen. -/
theorem foldl_higher_max (hirrefl : ∀ a, precedes a a = false)
    (htrans : ∀ a b c, precedes a b = true → precedes b c = true → precedes a c = true) (rest : List α) :
    ∀ first, ∀ a ∈ first :: rest, precedes (rest.foldl (higher precedes) first) a = false := by
  suffices hseen : ∀ (rest seen : List α) (best : α), (∀ a ∈ seen, precedes best a = false) →
      ∀ a ∈ seen ++ rest, precedes (rest.foldl (higher precedes) best) a = false by
    intro first a ha
    exact hseen rest [first] first (by simpa using hirrefl first) a ha
  intro rest
  induction rest with
  | nil => intro seen best h a ha; exact h a (by simpa using ha)
  | cons item rest ih =>
    intro seen best h a ha
    rw [List.foldl_cons]
    refine ih (seen ++ [item]) (higher precedes best item) ?_ a (by simpa using ha)
    intro b hb
    unfold higher
    rcases List.mem_append.1 hb with hb | hb
    · split
      · rename_i hitem
        rw [Bool.eq_false_iff]
        intro hlater
        exact Bool.eq_false_iff.1 (h b hb) (htrans best item b hitem hlater)
      · exact h b hb
    · rw [List.mem_singleton.1 hb]
      split
      · exact hirrefl item
      · rename_i hitem
        exact Bool.eq_false_iff.2 hitem

end Lib
