/-
Reading a list page by page: what a reader collects who asks for window after window until one is empty.
-/
import Mathlib.Data.List.Basic
import Mathlib.Tactic.Common

namespace Lib

variable {α ε : Type*}

/-- Elements of `l` from `start` on, `size` of them at most. -/
def window (l : List α) (size start : Nat) : List α := (l.drop start).take size

/-- Page after page is asked for, `step` apart, until one is empty. -/
inductive Collected (answer : Nat → Except ε (List α)) (step : Nat) : Nat → List α → Prop
  | stop {start : Nat} (empty : answer start = .ok []) : Collected answer step start []
  | next {start : Nat} {page rest : List α} (some : answer start = .ok page) (ne : page ≠ [])
      (more : Collected answer step (start + step) rest) : Collected answer step start (page ++ rest)

theorem Collected.answers {answer : Nat → Except ε (List α)} {step start : Nat} {listed : List α}
    (h : Collected answer step start listed) : ∃ page, answer start = .ok page := by
  cases h with
  | stop hempty => exact ⟨[], hempty⟩
  | next hsome _ _ => exact ⟨_, hsome⟩

/-- There is one way to read it. -/
theorem Collected.unique {answer : Nat → Except ε (List α)} {step start : Nat} {listed listed' : List α}
    (h : Collected answer step start listed) (h' : Collected answer step start listed') : listed = listed' := by
  induction h generalizing listed' with
  | stop hempty =>
    cases h' with
    | stop _ => rfl
    | next hsome hne _ =>
      rw [hempty] at hsome
      exact absurd (Except.ok.inj hsome).symm hne
  | next hsome hne _ ih =>
    cases h' with
    | stop hempty =>
      rw [hempty] at hsome
      exact absurd (Except.ok.inj hsome).symm hne
    | next hsome' _ hmore' =>
      rw [hsome] at hsome'
      rw [Except.ok.inj hsome', ih hmore']

section window

variable {answer : Nat → Except ε (List α)} {l : List α} {size step : Nat}

/-- Windows that do not overlap are all read, and in order. -/
theorem collected_sublist (hanswer : ∀ start, answer start = .ok (window l size start)) (hsize : 0 < size) (hstep : size ≤ step) :
    ∀ start, ∃ listed, Collected answer step start listed ∧ listed.Sublist (l.drop start) := by
  intro start
  by_cases hend : l.length ≤ start
  · have hnil : l.drop start = [] := List.drop_eq_nil_of_le hend
    refine ⟨[], .stop ?_, List.nil_sublist _⟩
    rw [hanswer, window, hnil, List.take_nil]
  · have hne : window l size start ≠ [] := by
      intro hnil
      have hlength := congrArg List.length hnil
      rw [window, List.length_take, List.length_drop, List.length_nil] at hlength
      omega
    obtain ⟨rest, hrest, hsub⟩ := collected_sublist hanswer hsize hstep (start + step)
    refine ⟨window l size start ++ rest, .next (hanswer start) hne hrest, ?_⟩
    have hfirst : (window l size start).Sublist ((l.drop start).take step) := by
      have htake : window l size start = ((l.drop start).take step).take size := by
        rw [window, List.take_take, Nat.min_eq_left hstep]
      rw [htake]
      exact List.take_sublist ..
    have hboth := hfirst.append hsub
    rwa [← List.drop_drop, List.take_append_drop] at hboth
  termination_by start => l.length - start

theorem Collected.length_le (hanswer : ∀ start, answer start = .ok (window l size start)) (hsize : 0 < size)
    (hstep : size ≤ step) {start : Nat} {listed : List α} (h : Collected answer step start listed) :
    listed.length ≤ (l.drop start).length := by
  obtain ⟨listed', hlisted', hsub⟩ := collected_sublist hanswer hsize hstep start
  rw [h.unique hlisted']
  exact hsub.length_le

/-- Windows that touch give the whole list. -/
theorem Collected.eq_drop (hanswer : ∀ start, answer start = .ok (window l step start)) (hstep : 0 < step) {start : Nat}
    {listed : List α} (h : Collected answer step start listed) : listed = l.drop start := by
  induction h with
  | @stop start hempty =>
    have hnil : window l step start = [] := Except.ok.inj ((hanswer start).symm.trans hempty)
    rw [window, List.take_eq_nil_iff] at hnil
    exact (hnil.resolve_left (by omega)).symm
  | @next start page rest hsome _ _ ih =>
    have hpage : window l step start = page := Except.ok.inj ((hanswer start).symm.trans hsome)
    rw [ih, ← hpage, window, ← List.drop_drop, List.take_append_drop]

/-- The whole list is read if the windows touch or the first of them has all of it, and in no other case. -/
theorem Collected.complete_iff (hanswer : ∀ start, answer start = .ok (window l size start)) (hsize : 0 < size)
    (hstep : size ≤ step) {listed : List α} (h : Collected answer step 0 listed) :
    listed.length = l.length ↔ size = step ∨ l.length ≤ size := by
  constructor
  · intro hlength
    by_contra hor
    rw [not_or, Nat.not_le] at hor
    obtain ⟨hne, hlong⟩ := hor
    cases h with
    | stop _ =>
      rw [List.length_nil] at hlength
      omega
    | next hsome _ hmore =>
      have hpage := Except.ok.inj ((hanswer 0).symm.trans hsome)
      have hrest := hmore.length_le hanswer hsize hstep
      rw [← hpage, List.length_append, window, List.length_take, List.drop_zero] at hlength
      rw [List.length_drop] at hrest
      omega
  · rintro (rfl | hshort)
    · rw [h.eq_drop hanswer hsize, List.drop_zero]
    · cases h with
      | stop hempty =>
        have hpage := Except.ok.inj ((hanswer 0).symm.trans hempty)
        rw [window, List.drop_zero, List.take_of_length_le hshort] at hpage
        rw [hpage]
      | next hsome _ hmore =>
        have hpage := Except.ok.inj ((hanswer 0).symm.trans hsome)
        have hrest := hmore.length_le hanswer hsize hstep
        rw [List.length_drop] at hrest
        rw [← hpage, List.length_append, window, List.length_take, List.drop_zero]
        omega

end window

end Lib
