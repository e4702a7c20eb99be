/-
The canonical form of line ranges: what `merge_ranges` gives depends on the lines alone.
-/
import OpenFish.Findings.Drift

namespace OpenFish.Findings

open Lib.Ranges

/-- The line is in one of the ranges, read in either order. -/
def Spans (ranges : Ranges) (n : Int) : Prop := ∃ r ∈ ranges, min r.1 r.2 ≤ n ∧ n ≤ max r.1 r.2

/-- The ranges from their lower to their higher line. -/
def upward (ranges : Ranges) : Ranges := ranges.map fun r => (min r.1 r.2, max r.1 r.2)

theorem covers_upward (ranges : Ranges) (n : Int) : Covers (upward ranges) n ↔ Spans ranges n := by
  simp only [Covers, Spans, upward, List.mem_map]
  constructor
  · rintro ⟨-, ⟨r, hr, rfl⟩, hn⟩
    exact ⟨r, hr, hn⟩
  · rintro ⟨r, hr, hn⟩
    exact ⟨_, ⟨r, hr, rfl⟩, hn⟩

theorem mergeRanges_upward (ranges : Ranges) : mergeRanges (upward ranges) = mergeRanges ranges := by
  have hagain : upward (upward ranges) = upward ranges := by
    unfold upward
    rw [List.map_map]
    refine List.map_congr_left fun r _ => ?_
    simp
  unfold mergeRanges
  rw [show (upward ranges).map (fun r => (min r.1 r.2, max r.1 r.2)) = upward ranges from hagain]
  rfl

/-- The merged ranges are canonical and cover the lines of the ranges. -/
theorem mergeRanges_covers (ranges : Ranges) :
    Canonical (mergeRanges ranges) ∧ ∀ n, Covers (mergeRanges ranges) n ↔ Spans ranges n := by
  have hordered : ∀ r ∈ upward ranges, r.1 ≤ r.2 := by
    intro r hr
    obtain ⟨r', -, rfl⟩ := List.mem_map.1 hr
    exact min_le_max
  obtain ⟨hcanonical, hcovers⟩ := mergeRanges_spec (upward ranges) hordered
  rw [mergeRanges_upward] at hcanonical hcovers
  exact ⟨hcanonical, fun n => (hcovers n).trans (covers_upward ranges n)⟩

theorem mergeRanges_eq_iff (ranges ranges' : Ranges) :
    mergeRanges ranges = mergeRanges ranges' ↔ ∀ n, Spans ranges n ↔ Spans ranges' n := by
  obtain ⟨hcanonical, hcovers⟩ := mergeRanges_covers ranges
  obtain ⟨hcanonical', hcovers'⟩ := mergeRanges_covers ranges'
  constructor
  · intro heq n
    rw [← hcovers, ← hcovers', heq]
  · intro hsame
    exact canonical_unique hcanonical hcanonical' fun n => by rw [hcovers, hcovers', hsame]

theorem spans_of_canonical {ranges : Ranges} (h : Canonical ranges) (n : Int) : Spans ranges n ↔ Covers ranges n := by
  refine exists_congr fun r => and_congr_right fun hr => ?_
  rw [min_eq_left (h.ordered r hr), max_eq_right (h.ordered r hr)]

/-- `merge_ranges` gives the one canonical form of the lines: they are the same, the ranges are strictly increasing with a gap
between any two of them, and the result says nothing else about the list. -/
theorem mergeRanges_canonical (ranges : Ranges) :
    (∀ n, Covers (mergeRanges ranges) n ↔ Spans ranges n) ∧ Canonical (mergeRanges ranges) ∧
      (∀ ranges', mergeRanges ranges = mergeRanges ranges' ↔ ∀ n, Spans ranges n ↔ Spans ranges' n) ∧
      mergeRanges (mergeRanges ranges) = mergeRanges ranges ∧
      ∀ ranges', ranges.Perm ranges' → mergeRanges ranges = mergeRanges ranges' := by
  obtain ⟨hcanonical, hcovers⟩ := mergeRanges_covers ranges
  refine ⟨hcovers, hcanonical, mergeRanges_eq_iff ranges, ?_, fun ranges' hperm => ?_⟩
  · refine (mergeRanges_eq_iff _ _).2 fun n => ?_
    rw [spans_of_canonical hcanonical, hcovers]
  · refine (mergeRanges_eq_iff _ _).2 fun n => ?_
    exact exists_congr fun r => and_congr_left fun _ => hperm.mem_iff

end OpenFish.Findings
