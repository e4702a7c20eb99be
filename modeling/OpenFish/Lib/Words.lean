/-
The words of a text (`str.split()` without a separator).
-/
import OpenFish.Lib.Text

namespace Lib.Text

/-- `s.split()`. -/
def words (s : String) : List String := ((s.toList.splitOnP isSpace).filter (· ≠ [])).map String.ofList

section Pieces

variable {α : Type*} {p : α → Bool}

theorem mem_splitOnP : ∀ {xs piece : List α}, piece ∈ xs.splitOnP p → ∀ x ∈ piece, p x = false
  | [], piece, h, x, hx => by
    rw [List.splitOnP_nil, List.mem_singleton] at h
    rw [h] at hx
    cases hx
  | y :: ys, piece, h, x, hx => by
    have ih := fun {piece : List α} => @mem_splitOnP ys piece
    rw [List.splitOnP_cons_eq_if_modifyHead] at h
    split at h
    · rcases List.mem_cons.1 h with rfl | h
      · cases hx
      · exact ih h x hx
    · rename_i hy
      cases hsplit : ys.splitOnP p with
      | nil => exact absurd hsplit (List.splitOnP_ne_nil p ys)
      | cons first rest =>
        rw [hsplit] at h ih
        rcases List.mem_cons.1 h with rfl | h
        · rcases List.mem_cons.1 hx with rfl | hx
          · exact Bool.eq_false_iff.2 hy
          · exact ih (List.mem_cons_self ..) x hx
        · exact ih (List.mem_cons_of_mem _ h) x hx

theorem splitOnP_all_nil : ∀ {xs : List α}, (∀ piece ∈ xs.splitOnP p, piece = []) ↔ ∀ x ∈ xs, p x = true
  | [] => by simp
  | y :: ys => by
    have ih := @splitOnP_all_nil ys
    rw [List.splitOnP_cons_eq_if_modifyHead, List.forall_mem_cons]
    split
    · rename_i hy
      rw [List.forall_mem_cons, ih]
      simp [hy]
    · rename_i hy
      cases hsplit : ys.splitOnP p with
      | nil => exact absurd hsplit (List.splitOnP_ne_nil p ys)
      | cons first rest =>
        refine iff_of_false (fun h => ?_) fun h => hy h.1
        exact absurd (h _ (List.mem_cons_self ..)) (List.cons_ne_nil _ _)

end Pieces

theorem strip_eq_empty {s : String} : strip s = "" ↔ ∀ c ∈ s.toList, isSpace c = true := by
  rw [strip, String.ofList_eq_empty_iff, List.rdropWhile_eq_nil_iff]
  constructor
  · intro h c hc
    rw [← List.takeWhile_append_dropWhile (p := isSpace) (l := s.toList)] at hc
    rcases List.mem_append.1 hc with hc | hc
    · exact List.mem_takeWhile_imp hc
    · exact h c hc
  · exact fun h c hc => h c ((List.dropWhile_sublist _).subset hc)

theorem blank_iff {s : String} : blank s = true ↔ ∀ c ∈ s.toList, isSpace c = true := by
  rw [blank, beq_iff_eq, strip_eq_empty]

@[simp] theorem blank_empty : blank "" = true := blank_iff.2 (by simp)

/-- A text has no words exactly when it is blank. -/
theorem words_eq_nil {s : String} : words s = [] ↔ blank s = true := by
  rw [blank_iff, ← splitOnP_all_nil, words, List.map_eq_nil_iff, List.filter_eq_nil_iff]
  simp

theorem not_blank_of_mem_words {s word : String} (h : word ∈ words s) : blank word = false := by
  obtain ⟨piece, hpiece, rfl⟩ := List.mem_map.1 h
  obtain ⟨hpiece, hne⟩ := List.mem_filter.1 hpiece
  rw [Bool.eq_false_iff, Ne, blank_iff, String.toList_ofList]
  intro hall
  obtain ⟨c, rest, rfl⟩ := List.exists_cons_of_ne_nil (of_decide_eq_true hne)
  have hspace := hall c (List.mem_cons_self ..)
  rw [mem_splitOnP hpiece c (List.mem_cons_self ..)] at hspace
  cases hspace

theorem blank_strip (s : String) : blank (strip s) = blank s := by
  rw [blank, blank, strip_strip]

theorem words_strip_ne_nil {s : String} (h : blank s = false) : words (strip s) ≠ [] := by
  rw [Ne, words_eq_nil, blank_strip, h]
  exact Bool.false_ne_true

end Lib.Text
