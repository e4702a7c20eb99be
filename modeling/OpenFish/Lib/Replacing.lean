/-
`str.replace` of a text by a text, and what can be read in the text it leaves: what shares no character with the
mark of a replacement is read in a piece of the old text, or begins in what the replacement shows after its mark.
-/
import Mathlib.Data.List.Infix

namespace Lib

variable {α : Type*} {pat rep l u mark tail : List α}

/-! ## Reading across a mark -/

/-- What shares nothing with a mark is read before it or after it. -/
theorem infix_across {a b : List α} (hmark : mark ≠ []) (hu : ∀ c ∈ mark, c ∉ u) (h : u <:+: a ++ (mark ++ b)) :
    u <:+: a ∨ u <:+: b := by
  have hnil {v : List α} (hv : v ⊆ mark) (hvu : v ⊆ u) : v = [] :=
    List.eq_nil_iff_forall_not_mem.2 fun c hc => hu c (hv hc) (hvu hc)
  rcases List.infix_append_iff.1 h with h | h | ⟨v, w, rfl, hv, hw⟩
  · exact .inl h
  · rcases List.infix_append_iff.1 h with h | h | ⟨v, w, rfl, hv, hw⟩
    · rw [hnil h.subset fun _ hc => hc]
      exact .inr ⟨[], b, rfl⟩
    · exact .inr h
    · rw [hnil hv.subset (List.subset_append_left ..)]
      exact .inr hw.isInfix
  · cases w with
    | nil => rw [List.append_nil]; exact .inl hv.isInfix
    | cons d w =>
      obtain ⟨c, mark', rfl⟩ := List.exists_cons_of_ne_nil hmark
      rw [List.cons_append, List.cons_prefix_cons] at hw
      exact absurd (hw.1 ▸ List.mem_append_right _ (List.mem_cons_self ..)) (hu c (List.mem_cons_self ..))

/-- `u` could begin inside `tail`: what is left of the tail from some place on begins `u`, or `u` begins it. -/
def BeginsIn (u tail : List α) : Prop := ∃ s, s ≠ [] ∧ s <:+ tail ∧ (s <+: u ∨ u <+: s)

theorem infix_tail (hne : u ≠ []) {piece : List α} (h : u <:+: tail ++ piece) : u <:+: piece ∨ BeginsIn u tail := by
  rcases List.infix_append_iff.1 h with h | h | ⟨v, w, rfl, hv, hw⟩
  · obtain ⟨a, b, rfl⟩ := h
    refine .inr ⟨u ++ b, ?_, ⟨a, by simp⟩, .inr (List.prefix_append ..)⟩
    exact fun hnil => hne (List.append_eq_nil_iff.1 hnil).1
  · exact .inl h
  · cases v with
    | nil => exact .inl hw.isInfix
    | cons d v => exact .inr ⟨d :: v, List.cons_ne_nil d v, hv, .inl (List.prefix_append ..)⟩

/-! ## Replacing -/

variable [DecidableEq α]

instance (u tail : List α) : Decidable (BeginsIn u tail) :=
  decidable_of_iff (∃ s ∈ tail.tails, s ≠ [] ∧ (s <+: u ∨ u <+: s)) <| by
    simp only [List.mem_tails, BeginsIn]
    exact exists_congr fun s => ⟨fun ⟨h, h', h''⟩ => ⟨h', h, h''⟩, fun ⟨h, h', h''⟩ => ⟨h', h, h''⟩⟩

/-- A text with every occurrence of `pat` replaced, from the left, once the characters left over of the last
occurrence are dropped. -/
def replaceFrom (pat rep : List α) : Nat → List α → List α
  | _, [] => []
  | n + 1, _ :: l => replaceFrom pat rep n l
  | 0, c :: l =>
    if pat.isPrefixOf (c :: l) then rep ++ replaceFrom pat rep (pat.length - 1) l
    else c :: replaceFrom pat rep 0 l

/-- `l.replace(pat, rep)` for a `pat` that is not empty. -/
def replace (pat rep l : List α) : List α := replaceFrom pat rep 0 l

theorem replaceFrom_drop : ∀ (n : Nat) (l : List α), replaceFrom pat rep n l = replace pat rep (l.drop n)
  | 0, l => rfl
  | n + 1, [] => by rw [replaceFrom, List.drop_nil, replace, replaceFrom]
  | n + 1, c :: l => by rw [replaceFrom, List.drop_succ_cons, replaceFrom_drop n l]

/-- The first occurrence is replaced, and what follows it is searched again; without one nothing changes. -/
theorem replace_cases (hpat : pat ≠ []) (rep : List α) : ∀ l : List α,
    (¬ pat <:+: l ∧ replace pat rep l = l) ∨
      ∃ front rest, l = front ++ pat ++ rest ∧ ¬ pat <:+: front ∧ replace pat rep l = front ++ rep ++ replace pat rep rest
  | [] => .inl ⟨fun h => hpat (List.infix_nil.1 h), rfl⟩
  | c :: l => by
    by_cases hat : pat <+: c :: l
    · obtain ⟨rest, hrest⟩ := hat
      refine .inr ⟨[], rest, hrest.symm, fun h => hpat (List.infix_nil.1 h), ?_⟩
      have hdrop : l.drop (pat.length - 1) = rest := by
        obtain ⟨d, pat', rfl⟩ := List.exists_cons_of_ne_nil hpat
        rw [List.cons_append, List.cons.injEq] at hrest
        rw [← hrest.2, List.length_cons, Nat.add_sub_cancel, List.drop_left]
      rw [replace, replaceFrom, if_pos (List.isPrefixOf_iff_prefix.2 ⟨rest, hrest⟩), replaceFrom_drop, hdrop, List.nil_append]
    · have hstep : replace pat rep (c :: l) = c :: replace pat rep l := by
        rw [replace, replaceFrom, if_neg fun h => hat (List.isPrefixOf_iff_prefix.1 h), replace]
      rcases replace_cases hpat rep l with ⟨hnone, heq⟩ | ⟨front, rest, rfl, hfront, heq⟩
      · refine .inl ⟨fun h => ?_, by rw [hstep, heq]⟩
        exact (List.infix_cons_iff.1 h).elim hat hnone
      · refine .inr ⟨c :: front, rest, rfl, fun h => ?_, by rw [hstep, heq]; rfl⟩
        rcases List.infix_cons_iff.1 h with hpre | hin
        · exact hat (hpre.trans ⟨pat ++ rest, by simp⟩)
        · exact hfront hin

theorem replace_of_not_infix (hpat : pat ≠ []) (rep : List α) (h : ¬ pat <:+: l) : replace pat rep l = l := by
  rcases replace_cases hpat rep l with ⟨-, heq⟩ | ⟨front, rest, rfl, -, -⟩
  · exact heq
  · exact absurd (List.infix_append ..) h

theorem replace_append_self (hpat : pat ≠ []) (rep rest : List α) :
    replace pat rep (pat ++ rest) = rep ++ replace pat rep rest := by
  obtain ⟨c, pat', rfl⟩ := List.exists_cons_of_ne_nil hpat
  have hat : (c :: pat').isPrefixOf (c :: (pat' ++ rest)) = true := List.isPrefixOf_iff_prefix.2 ⟨rest, rfl⟩
  rw [List.cons_append, replace, replaceFrom, if_pos hat, replaceFrom_drop, List.length_cons, Nat.add_sub_cancel,
    List.drop_left]

/-! ## What is read in the new text -/

theorem infix_replace_from (hpat : pat ≠ []) (hne : u ≠ []) (hmark : mark ≠ []) (hu : ∀ c ∈ mark, c ∉ u) (n : Nat) :
    ∀ l : List α, l.length ≤ n → ∀ shown, shown <:+ tail → u <:+: shown ++ replace pat (mark ++ tail) l →
      (∃ piece, piece <:+: l ∧ ¬ pat <:+: piece ∧ u <:+: piece) ∨ BeginsIn u tail := by
  induction n with
  | zero =>
    intro l hlen shown hshown h
    rw [List.eq_nil_of_length_eq_zero (Nat.le_zero.1 hlen)] at h ⊢
    rcases infix_tail hne h with h | ⟨s, hs, hsuf, hread⟩
    · exact absurd (List.infix_nil.1 h) hne
    · exact .inr ⟨s, hs, hsuf.trans hshown, hread⟩
  | succ n ih =>
    intro l hlen shown hshown h
    rcases replace_cases hpat (mark ++ tail) l with ⟨hnone, heq⟩ | ⟨front, rest, rfl, hfront, heq⟩
    · rw [heq] at h
      rcases infix_tail hne h with h | ⟨s, hs, hsuf, hread⟩
      · exact .inl ⟨l, List.infix_rfl, hnone, h⟩
      · exact .inr ⟨s, hs, hsuf.trans hshown, hread⟩
    · have hparts : u <:+: (shown ++ front) ++ (mark ++ (tail ++ replace pat (mark ++ tail) rest)) := by
        rw [heq] at h
        simpa using h
      rcases infix_across hmark hu hparts with h | h
      · rcases infix_tail hne h with h | ⟨s, hs, hsuf, hread⟩
        · exact .inl ⟨front, ⟨[], pat ++ rest, by simp⟩, hfront, h⟩
        · exact .inr ⟨s, hs, hsuf.trans hshown, hread⟩
      · have hshort : rest.length ≤ n := by
          have := List.length_pos_iff.2 hpat
          simp only [List.length_append] at hlen
          omega
        rcases ih rest hshort tail List.suffix_rfl h with ⟨piece, hpiece, hpat', hread⟩ | hbegins
        · exact .inl ⟨piece, hpiece.trans (List.suffix_append ..).isInfix, hpat', hread⟩
        · exact .inr hbegins

/-- What is read in the new text is read in a piece of the old one without `pat`, or begins in what is shown. -/
theorem infix_replace (hpat : pat ≠ []) (hne : u ≠ []) (hmark : mark ≠ []) (hu : ∀ c ∈ mark, c ∉ u)
    (h : u <:+: replace pat (mark ++ tail) l) :
    (∃ piece, piece <:+: l ∧ ¬ pat <:+: piece ∧ u <:+: piece) ∨ BeginsIn u tail :=
  infix_replace_from hpat hne hmark hu l.length l (Nat.le_refl _) [] (List.nil_suffix ..) h

/-- A text that is shorter than what is replaced is left as it is. -/
theorem replace_of_length_lt (rep : List α) (h : l.length < pat.length) : replace pat rep l = l := by
  refine replace_of_not_infix (fun hnil => ?_) rep fun hin => ?_
  · rw [hnil] at h
    cases h
  · exact absurd hin.length_le (Nat.not_le.2 h)

/-- A text is never read in what its replacement leaves exactly if it does not begin in what is shown of it. -/
theorem replace_hides_iff (hpat : pat ≠ []) (hmark : mark ≠ []) (hu : ∀ c ∈ mark, c ∉ pat) (hlen : tail.length < pat.length) :
    (∀ l, ¬ pat <:+: replace pat (mark ++ tail) l) ↔ ¬ BeginsIn pat tail := by
  constructor
  · rintro hhides ⟨s, hs, hsuf, hread⟩
    have hpre : s <+: pat := by
      rcases hread with hpre | hpre
      · exact hpre
      · have := hpre.length_le
        have := hsuf.length_le
        omega
    obtain ⟨front, rfl⟩ := hsuf
    obtain ⟨rest, rfl⟩ := hpre
    refine hhides ((s ++ rest) ++ rest) ?_
    have hrest : rest.length < (s ++ rest).length := by
      have := List.length_pos_iff.2 hs
      rw [List.length_append]
      omega
    rw [replace_append_self hpat, replace_of_length_lt _ hrest]
    exact ⟨mark ++ front, [], by simp⟩
  · intro hno l h
    rcases infix_replace hpat hpat hmark hu h with ⟨piece, -, hnone, hread⟩ | hbegins
    · exact hnone hread
    · exact hno hbegins

end Lib
