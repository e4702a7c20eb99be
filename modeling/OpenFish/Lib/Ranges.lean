/-
Lists of inclusive integer intervals: what a list covers, its canonical form, and the sweep that merges a list sorted
by its starts into canonical form.
-/
import Mathlib.Algebra.Order.Ring.Int
import Mathlib.Data.List.Sort
import Mathlib.Tactic.Common

namespace Lib.Ranges

/-- `n` lies in one of the intervals. -/
def Covers (rs : List (Int × Int)) (n : Int) : Prop := ∃ r ∈ rs, r.1 ≤ n ∧ n ≤ r.2

/-- Sorted, disjoint and not adjacent. -/
structure Canonical (rs : List (Int × Int)) : Prop where
  ordered : ∀ r ∈ rs, r.1 ≤ r.2
  apart : rs.Pairwise fun a b => a.2 + 1 < b.1

/-- The next interval of a sweep widens the last one kept, or is kept itself. -/
def absorb (merged : List (Int × Int)) (r : Int × Int) : List (Int × Int) :=
  match merged.getLast? with
  | some last => if r.1 ≤ last.2 + 1 then merged.dropLast ++ [(last.1, max last.2 r.2)] else merged ++ [r]
  | none => merged ++ [r]

/-! ## What a list covers -/

@[simp] theorem covers_nil (n : Int) : ¬ Covers [] n := fun ⟨_, h, _⟩ => absurd h List.not_mem_nil

@[simp] theorem covers_append (rs rs' : List (Int × Int)) (n : Int) :
    Covers (rs ++ rs') n ↔ Covers rs n ∨ Covers rs' n := by
  simp only [Covers, List.mem_append, or_and_right, exists_or]

@[simp] theorem covers_singleton (r : Int × Int) (n : Int) : Covers [r] n ↔ r.1 ≤ n ∧ n ≤ r.2 := by
  simp [Covers]

theorem covers_cons (r : Int × Int) (rs : List (Int × Int)) (n : Int) :
    Covers (r :: rs) n ↔ (r.1 ≤ n ∧ n ≤ r.2) ∨ Covers rs n := by
  rw [← List.singleton_append, covers_append, covers_singleton]

/-- The order of the intervals does not matter. -/
theorem covers_perm {rs rs' : List (Int × Int)} (h : rs.Perm rs') (n : Int) : Covers rs n ↔ Covers rs' n := by
  simp only [Covers, h.mem_iff]

/-- Intervals that are in order cover something. -/
theorem exists_covers {rs : List (Int × Int)} (hordered : ∀ r ∈ rs, r.1 ≤ r.2) (hne : rs ≠ []) : ∃ n, Covers rs n := by
  obtain ⟨r, hr⟩ := List.exists_mem_of_ne_nil rs hne
  exact ⟨r.1, r, hr, le_rfl, hordered r hr⟩

/-! ## One step of the sweep -/

theorem absorb_nil (r : Int × Int) : absorb [] r = [r] := rfl

theorem absorb_concat (kept : List (Int × Int)) (last r : Int × Int) :
    absorb (kept ++ [last]) r =
      if r.1 ≤ last.2 + 1 then kept ++ [(last.1, max last.2 r.2)] else kept ++ [last, r] := by
  simp only [absorb, List.getLast?_concat, List.dropLast_concat, List.append_assoc, List.cons_append,
    List.nil_append]

/-- A step adds what its interval covers, if the interval starts no earlier than the last one kept. -/
theorem covers_absorb {merged : List (Int × Int)} {r : Int × Int} (hordered : ∀ m ∈ merged, m.1 ≤ m.2)
    (hafter : ∀ m ∈ merged, m.1 ≤ r.1) (n : Int) :
    Covers (absorb merged r) n ↔ Covers merged n ∨ (r.1 ≤ n ∧ n ≤ r.2) := by
  rcases List.eq_nil_or_concat' merged with rfl | ⟨kept, last, rfl⟩
  · rw [absorb_nil, covers_singleton]
    simp only [covers_nil, false_or]
  · have hlast : last ∈ kept ++ [last] := List.mem_concat_self ..
    have ho := hordered last hlast
    have ha := hafter last hlast
    rw [absorb_concat]
    split
    · rw [covers_append, covers_append, covers_singleton, covers_singleton, or_assoc]
      apply or_congr_right
      constructor
      · rintro ⟨hfrom, huntil⟩; simp only at hfrom huntil; omega
      · rintro (⟨hfrom, huntil⟩ | ⟨hfrom, huntil⟩) <;> simp only <;> omega
    · rw [covers_append, covers_append, covers_cons, covers_singleton, covers_singleton, or_assoc]

/-- A step keeps the canonical form. -/
theorem canonical_absorb {merged : List (Int × Int)} {r : Int × Int} (h : Canonical merged) (hr : r.1 ≤ r.2) :
    Canonical (absorb merged r) := by
  rcases List.eq_nil_or_concat' merged with rfl | ⟨kept, last, rfl⟩
  · exact ⟨by simpa [absorb_nil] using hr, List.pairwise_singleton _ _⟩
  · obtain ⟨hordered, hapart⟩ := h
    obtain ⟨hkept, -, hbefore⟩ := List.pairwise_append.1 hapart
    have ho := hordered last (List.mem_concat_self ..)
    rw [absorb_concat]
    split
    · constructor
      · intro m hm
        rcases List.mem_append.1 hm with hm | hm
        · exact hordered m (List.mem_append_left _ hm)
        · rw [List.mem_singleton.1 hm]; simp only; omega
      · refine List.pairwise_append.2 ⟨hkept, List.pairwise_singleton _ _, fun a ha b hb => ?_⟩
        rw [List.mem_singleton.1 hb]
        exact hbefore a ha last (List.mem_singleton_self _)
    · rename_i hgap
      rw [← List.singleton_append (x := last), ← List.append_assoc]
      constructor
      · intro m hm
        rcases List.mem_append.1 hm with hm | hm
        · exact hordered m hm
        · rw [List.mem_singleton.1 hm]; exact hr
      · refine List.pairwise_append.2 ⟨hapart, List.pairwise_singleton _ _, fun a ha b hb => ?_⟩
        rw [List.mem_singleton.1 hb]
        rcases List.mem_append.1 ha with ha | ha
        · have := hbefore a ha last (List.mem_singleton_self _)
          omega
        · rw [List.mem_singleton.1 ha]; omega

theorem start_of_mem_absorb {merged : List (Int × Int)} {r m : Int × Int} (h : m ∈ absorb merged r) :
    m.1 = r.1 ∨ ∃ m' ∈ merged, m.1 = m'.1 := by
  rcases List.eq_nil_or_concat' merged with rfl | ⟨kept, last, rfl⟩
  · rw [absorb_nil, List.mem_singleton] at h
    exact .inl (by rw [h])
  · rw [absorb_concat] at h
    split at h
    · rcases List.mem_append.1 h with h | h
      · exact .inr ⟨m, List.mem_append_left _ h, rfl⟩
      · exact .inr ⟨last, List.mem_concat_self .., by rw [List.mem_singleton.1 h]⟩
    · rw [← List.singleton_append (x := last), ← List.append_assoc] at h
      rcases List.mem_append.1 h with h | h
      · exact .inr ⟨m, h, rfl⟩
      · exact .inl (by rw [List.mem_singleton.1 h])

/-! ## The whole sweep -/

/-- A sweep over intervals sorted by their starts ends in canonical form, and covers what they cover. -/
theorem foldl_absorb {rs merged : List (Int × Int)} (hsorted : rs.Pairwise fun a b => a.1 ≤ b.1)
    (hordered : ∀ r ∈ rs, r.1 ≤ r.2) (h : Canonical merged) (hafter : ∀ m ∈ merged, ∀ r ∈ rs, m.1 ≤ r.1) :
    Canonical (rs.foldl absorb merged) ∧ ∀ n, Covers (rs.foldl absorb merged) n ↔ Covers merged n ∨ Covers rs n := by
  induction rs generalizing merged with
  | nil => exact ⟨h, fun n => by simp⟩
  | cons r rs ih =>
    obtain ⟨hfirst, hrest⟩ := List.pairwise_cons.1 hsorted
    have hhead := List.mem_cons_self (a := r) (l := rs)
    have hstep := canonical_absorb h (hordered r hhead)
    have hnext : ∀ m ∈ absorb merged r, ∀ r' ∈ rs, m.1 ≤ r'.1 := by
      intro m hm r' hr'
      rcases start_of_mem_absorb hm with heq | ⟨m', hm', heq⟩
      · rw [heq]; exact hfirst r' hr'
      · rw [heq]; exact hafter m' hm' r' (List.mem_cons_of_mem _ hr')
    obtain ⟨hcanonical, hcovers⟩ := ih hrest (fun r' hr' => hordered r' (List.mem_cons_of_mem _ hr')) hstep hnext
    refine ⟨hcanonical, fun n => ?_⟩
    rw [List.foldl_cons, hcovers, covers_absorb h.ordered (fun m hm => hafter m hm r hhead), covers_cons, or_assoc]

/-! ## One canonical form for each set -/

theorem not_covers_before {r : Int × Int} {rs : List (Int × Int)} (h : Canonical (r :: rs)) {n : Int} (hn : n < r.1) :
    ¬ Covers (r :: rs) n := by
  obtain ⟨hordered, hapart⟩ := h
  have ho := hordered r (List.mem_cons_self ..)
  rw [covers_cons]
  rintro (⟨hfrom, -⟩ | ⟨r', hr', hfrom, -⟩)
  · omega
  · have hgap := (List.pairwise_cons.1 hapart).1 r' hr'
    omega

theorem not_covers_rest {r : Int × Int} {rs : List (Int × Int)} (h : Canonical (r :: rs)) {n : Int} (hn : n ≤ r.2 + 1) :
    ¬ Covers rs n := by
  rintro ⟨r', hr', hfrom, -⟩
  have hgap := (List.pairwise_cons.1 h.apart).1 r' hr'
  omega

theorem Canonical.tail {r : Int × Int} {rs : List (Int × Int)} (h : Canonical (r :: rs)) : Canonical rs :=
  ⟨fun m hm => h.ordered m (List.mem_cons_of_mem _ hm), (List.pairwise_cons.1 h.apart).2⟩

theorem covers_start {r : Int × Int} {rs : List (Int × Int)} (h : Canonical (r :: rs)) : Covers (r :: rs) r.1 :=
  ⟨r, List.mem_cons_self .., le_rfl, h.ordered r (List.mem_cons_self ..)⟩

/-- What the first interval of one list covers, the first interval of the other does not end before. -/
theorem end_le {r r' : Int × Int} {rs rs' : List (Int × Int)} (h : Canonical (r :: rs))
    (hsame : ∀ n, Covers (r :: rs) n ↔ Covers (r' :: rs') n) (hstart : r.1 = r'.1) : r'.2 ≤ r.2 := by
  by_contra hlt
  have ho := h.ordered r (List.mem_cons_self ..)
  have hcovered : Covers (r' :: rs') (r.2 + 1) := ⟨r', List.mem_cons_self .., by omega, by omega⟩
  rcases (covers_cons r rs _).1 ((hsame _).2 hcovered) with ⟨-, huntil⟩ | hrest
  · omega
  · exact not_covers_rest h le_rfl hrest

/-- Two lists in canonical form that cover the same numbers are the same list. -/
theorem canonical_unique : ∀ {rs rs' : List (Int × Int)}, Canonical rs → Canonical rs' →
    (∀ n, Covers rs n ↔ Covers rs' n) → rs = rs'
  | [], [], _, _, _ => rfl
  | [], r' :: rs', _, h', hsame => absurd ((hsame _).2 (covers_start h')) (covers_nil _)
  | r :: rs, [], h, _, hsame => absurd ((hsame _).1 (covers_start h)) (covers_nil _)
  | r :: rs, r' :: rs', h, h', hsame => by
    have hstart : r.1 = r'.1 := by
      rcases lt_trichotomy r.1 r'.1 with hlt | heq | hgt
      · exact absurd ((hsame _).1 (covers_start h)) (not_covers_before h' hlt)
      · exact heq
      · exact absurd ((hsame _).2 (covers_start h')) (not_covers_before h hgt)
    have hend : r.2 = r'.2 :=
      le_antisymm (end_le h' (fun n => (hsame n).symm) hstart.symm) (end_le h hsame hstart)
    have hrest : ∀ n, Covers rs n ↔ Covers rs' n := by
      intro n
      have hn := hsame n
      rw [covers_cons, covers_cons, hstart, hend] at hn
      by_cases hle : n ≤ r.2 + 1
      · exact iff_of_false (not_covers_rest h hle) (not_covers_rest h' (hend ▸ hle))
      · have hout : ¬ (r'.1 ≤ n ∧ n ≤ r'.2) := by omega
        rwa [or_iff_right hout, or_iff_right hout] at hn
    rw [canonical_unique h.tail h'.tail hrest, Prod.ext hstart hend]

end Lib.Ranges
