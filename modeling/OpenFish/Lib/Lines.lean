/-
`str.splitlines`: the lines a text falls into, and what the lines of a text that is put together from closed lines are.
-/
import Mathlib.Tactic.Common

namespace Lib.Lines

/-- The characters that end a line. -/
def isBreak (c : Char) : Bool :=
  [0x0a, 0x0b, 0x0c, 0x0d, 0x1c, 0x1d, 0x1e, 0x85, 0x2028, 0x2029].contains c.toNat

/-- A character in front of the first line. -/
def push (c : Char) : List (List Char) → List (List Char)
  | [] => [[c]]
  | line :: rest => (c :: line) :: rest

/-- `s.splitlines()`. A carriage return before a line feed ends the line together with it. -/
def splitlines : List Char → List (List Char)
  | [] => []
  | c :: rest =>
    if c = '\r' ∧ rest.head? = some '\n' then splitlines rest
    else if isBreak c then [] :: splitlines rest
    else push c (splitlines rest)

/-- The lines of a text that a line feed closes. -/
def closed (text : List Char) : List (List Char) := splitlines (text ++ ['\n'])

theorem push_ne_nil (c : Char) (lines : List (List Char)) : push c lines ≠ [] := by
  cases lines <;> exact List.cons_ne_nil _ _

theorem push_append {lines : List (List Char)} (h : lines ≠ []) (c : Char) (more : List (List Char)) :
    push c (lines ++ more) = push c lines ++ more := by
  cases lines with
  | nil => exact absurd rfl h
  | cons line rest => rfl

theorem splitlines_cons {c : Char} (h : isBreak c = false) (text : List Char) :
    splitlines (c :: text) = push c (splitlines text) := by
  have hcr : c ≠ '\r' := by rintro rfl; cases h
  rw [splitlines, if_neg fun hand => hcr hand.1, if_neg (by rw [h]; exact Bool.false_ne_true)]

theorem splitlines_ne_nil {text : List Char} (h : text ≠ []) : splitlines text ≠ [] := by
  induction text with
  | nil => exact absurd rfl h
  | cons c text ih =>
    rw [splitlines]
    split
    · rename_i hcr
      apply ih
      rintro rfl
      cases hcr.2
    · split
      · exact List.cons_ne_nil _ _
      · exact push_ne_nil _ _

theorem closed_ne_nil (text : List Char) : closed text ≠ [] :=
  splitlines_ne_nil (List.append_ne_nil_of_right_ne_nil _ (List.cons_ne_nil _ _))

/-- The lines of a closed text come before those of what follows it. -/
theorem splitlines_append (text rest : List Char) :
    splitlines (text ++ '\n' :: rest) = closed text ++ splitlines rest := by
  unfold closed
  induction text with
  | nil => rfl
  | cons c text ih =>
    have hhead : (text ++ '\n' :: rest).head? = (text ++ ['\n']).head? := by cases text <;> rfl
    rw [List.cons_append, List.cons_append, splitlines, splitlines, hhead, ih]
    split
    · rfl
    · split
      · rfl
      · exact push_append (closed_ne_nil text) c _

/-- A text of closed lines falls into the lines of each. -/
theorem splitlines_flatMap (texts : List (List Char)) :
    splitlines (texts.flatMap (· ++ ['\n'])) = texts.flatMap closed := by
  induction texts with
  | nil => rfl
  | cons text texts ih =>
    rw [List.flatMap_cons, List.flatMap_cons, List.append_assoc, List.singleton_append, splitlines_append, ih]

/-- What stands before the first break belongs to the first line. -/
theorem closed_append {front : List Char} (h : ∀ c ∈ front, isBreak c = false) (text : List Char) :
    ∃ line rest, closed text = line :: rest ∧ closed (front ++ text) = (front ++ line) :: rest := by
  induction front with
  | nil =>
    obtain ⟨line, rest, heq⟩ := List.exists_cons_of_ne_nil (closed_ne_nil text)
    exact ⟨line, rest, heq, heq⟩
  | cons c front ih =>
    obtain ⟨line, rest, htext, hfront⟩ := ih fun c' hc' => h c' (List.mem_cons_of_mem _ hc')
    refine ⟨line, rest, htext, ?_⟩
    unfold closed at hfront ⊢
    rw [List.cons_append, List.cons_append, splitlines_cons (h c (List.mem_cons_self ..)), hfront]
    rfl

/-- A text without breaks is one line. -/
theorem closed_of_forall {text : List Char} (h : ∀ c ∈ text, isBreak c = false) : closed text = [text] := by
  obtain ⟨line, rest, hnil, htext⟩ := closed_append h []
  obtain ⟨rfl, rfl⟩ := List.cons.inj (show [[]] = line :: rest from hnil)
  rwa [List.append_nil] at htext

end Lib.Lines
