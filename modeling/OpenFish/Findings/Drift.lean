/-
The diff reader of `services/findings.py`: `_HUNK_RE`, `merge_ranges` and `symbol_ranges_from_diff`, with what the
reader makes of a diff line by line: the file it stands in, and the intervals it reads there.
-/
import OpenFish.Findings.Model
import OpenFish.Lib.Dict
import OpenFish.Lib.Lines
import OpenFish.Lib.Ranges
import OpenFish.Lib.Unicode

namespace OpenFish.Findings

open Lib

/-! ## Numbers -/

/-- The digits of `\d`, and the values `int` gives them, of which only what they are in ASCII is fixed here. -/
structure Digits extends Unicode where
  value : Char → Nat
  value_ascii : ∀ c : Char, c.isDigit = true → value c = c.toNat - '0'.toNat

/-- The digits of a text that is all ASCII. -/
def Digits.ascii : Digits where
  toUnicode := .ascii
  value c := c.toNat - '0'.toNat
  value_ascii _ _ := rfl

variable (digits : Digits)

/-- `int(s)` of a text of digits. -/
def Digits.int (text : List Char) : Nat := text.foldl (fun n c => 10 * n + digits.value c) 0

/-- `(\d+)`, and what is left. -/
def number (text : List Char) : Option (List Char × List Char) :=
  if text.takeWhile digits.decimal = [] then none
  else some (text.takeWhile digits.decimal, text.dropWhile digits.decimal)

/-- `(\d+)(?:,(\d+))?`, and what is left. -/
def span (text : List Char) : Option ((List Char × Option (List Char)) × List Char) :=
  (number digits text).map fun (start, rest) =>
    match rest with
    | ',' :: after =>
      match number digits after with
      | some (count, rest') => ((start, some count), rest')
      | none => ((start, none), rest)
    | _ => ((start, none), rest)

def literal (word : String) (text : List Char) : Option (List Char) :=
  if word.toList.isPrefixOf text then some (text.drop word.toList.length) else none

/-- `_HUNK_RE`, and the numbers of its groups. -/
def hunkRe (line : List Char) : Option (Nat × Nat) := do
  let rest ← literal "@@ -" line
  let (_, rest) ← span digits rest
  let rest ← literal " +" rest
  let ((start, count), rest) ← span digits rest
  let _ ← literal " @@" rest
  return (digits.int start, (count.map digits.int).getD 1)

/-! ## Reading a diff -/

/-- `_NULL_PATH`. -/
def nullPath : String := "/dev/null"

/-- The path of a `+++ ` line. -/
def readPath (line : List Char) : Option String :=
  let path := Text.strip (String.ofList (line.drop 4))
  let path :=
    if Text.startsWith "\"" path ∧ Text.endsWith "\"" path then String.ofList (path.toList.drop 1).dropLast else path
  if path = nullPath then none else some (if Text.startsWith "b/" path then String.ofList (path.toList.drop 2) else path)

/-- What a line is to the reader. -/
inductive Mark
  | file (path : Option String)
  | hunk (start count : Nat)
  | other
  deriving DecidableEq, Repr

def mark (line : List Char) : Mark :=
  if "+++ ".toList.isPrefixOf line then .file (readPath line)
  else match hunkRe digits line with
    | some (start, count) => .hunk start count
    | none => .other

/-- The reader between two lines: the file it stands in, and the intervals read so far. -/
structure Reader where
  current : Option String
  changed : Dict String Ranges

/-- One round of the loop. -/
def Reader.take (r : Reader) : Mark → Reader
  | .file none => { r with current := none }
  | .file (some path) =>
    { current := some path
      changed := if (r.changed.get? path).isSome then r.changed else r.changed.set path [] }
  | .hunk start count =>
    match r.current with
    | some current =>
      if 0 < count then
        { r with
          changed := r.changed.set current
            ((r.changed.get? current).getD [] ++ [((start : Int), (start : Int) + count - 1)]) }
      else r
    | none => r
  | .other => r

/-- The order of pairs. -/
def PairLE (a b : Int × Int) : Prop := a.1 < b.1 ∨ a.1 = b.1 ∧ a.2 ≤ b.2

instance : DecidableRel PairLE := fun _ _ => inferInstanceAs (Decidable (_ ∨ _))

def mergeRanges (ranges : Ranges) : Ranges :=
  ((ranges.map fun r => (min r.1 r.2, max r.1 r.2)).insertionSort PairLE).foldl Lib.Ranges.absorb []

def symbolRangesFromDiff (diffText : List Char) : Dict String Ranges :=
  let read := (Lines.splitlines diffText).foldl (fun (r : Reader) line => r.take (mark digits line)) ⟨none, Dict.empty⟩
  (read.changed.keep fun _ items => items ≠ []).mapVals fun _ items => mergeRanges items

/-! ## Merging -/

instance : Std.Total PairLE := ⟨fun a b => by unfold PairLE; omega⟩

instance : IsTrans (Int × Int) PairLE := ⟨fun a b c hab hbc => by unfold PairLE at *; omega⟩

/-- Merging intervals that are in order gives the canonical form of what they cover. -/
theorem mergeRanges_spec (rs : Ranges) (hordered : ∀ r ∈ rs, r.1 ≤ r.2) :
    Lib.Ranges.Canonical (mergeRanges rs) ∧ ∀ n, Lib.Ranges.Covers (mergeRanges rs) n ↔ Lib.Ranges.Covers rs n := by
  have hsame : rs.map (fun r => (min r.1 r.2, max r.1 r.2)) = rs := by
    refine (List.map_congr_left fun r hr => ?_).trans (List.map_id _)
    rw [min_eq_left (hordered r hr), max_eq_right (hordered r hr)]
    rfl
  have hperm := List.perm_insertionSort PairLE rs
  have hsorted : (rs.insertionSort PairLE).Pairwise fun a b => a.1 ≤ b.1 :=
    (List.pairwise_insertionSort PairLE rs).imp fun hab => by unfold PairLE at hab; omega
  unfold mergeRanges
  rw [hsame]
  have hnil : Lib.Ranges.Canonical [] := ⟨by simp, List.Pairwise.nil⟩
  obtain ⟨hcanonical, hcovers⟩ := Lib.Ranges.foldl_absorb hsorted (fun r hr => hordered r (hperm.mem_iff.1 hr)) hnil
    (by simp)
  refine ⟨hcanonical, fun n => ?_⟩
  rw [hcovers, Lib.Ranges.covers_perm hperm]
  simp

/-! ## What the reader reads -/

/-- Where the reader stands after a line. -/
def Mark.next (current : Option String) : Mark → Option String
  | .file path => path
  | _ => current

/-- What it reads under `path` from a line. -/
def Mark.items (current : Option String) (path : String) : Mark → Ranges
  | .hunk start count =>
    if current = some path ∧ 0 < count then [((start : Int), (start : Int) + count - 1)] else []
  | _ => []

@[simp] theorem next_file (current path : Option String) : (Mark.file path).next current = path := rfl

@[simp] theorem next_hunk (current : Option String) (start count : Nat) :
    (Mark.hunk start count).next current = current := rfl

@[simp] theorem next_other (current : Option String) : Mark.other.next current = current := rfl

@[simp] theorem items_file (current named : Option String) (path : String) :
    (Mark.file named).items current path = [] := rfl

@[simp] theorem items_other (current : Option String) (path : String) : Mark.other.items current path = [] := rfl

def endsAt (current : Option String) (marks : List Mark) : Option String := marks.foldl Mark.next current

def reads (current : Option String) : List Mark → String → Ranges
  | [], _ => []
  | m :: rest, path => m.items current path ++ reads (m.next current) rest path

def marks (diffText : List Char) : List Mark := (Lines.splitlines diffText).map (mark digits)

@[simp] theorem endsAt_nil (current : Option String) : endsAt current [] = current := rfl

@[simp] theorem endsAt_cons (current : Option String) (m : Mark) (ms : List Mark) :
    endsAt current (m :: ms) = endsAt (m.next current) ms := rfl

theorem endsAt_append (current : Option String) (ms ms' : List Mark) :
    endsAt current (ms ++ ms') = endsAt (endsAt current ms) ms' := List.foldl_append ..

@[simp] theorem reads_nil (current : Option String) (path : String) : reads current [] path = [] := rfl

@[simp] theorem reads_cons (current : Option String) (m : Mark) (ms : List Mark) (path : String) :
    reads current (m :: ms) path = m.items current path ++ reads (m.next current) ms path := rfl

theorem reads_append (current : Option String) (ms ms' : List Mark) (path : String) :
    reads current (ms ++ ms') path = reads current ms path ++ reads (endsAt current ms) ms' path := by
  induction ms generalizing current with
  | nil => rfl
  | cons m ms ih => rw [List.cons_append, reads_cons, reads_cons, ih, endsAt_cons, List.append_assoc]

theorem take_current (r : Reader) (m : Mark) : (r.take m).current = m.next r.current := by
  cases m with
  | file path => cases path <;> rfl
  | other => rfl
  | hunk start count =>
    unfold Reader.take
    cases hcurrent : r.current with
    | none => exact hcurrent
    | some current =>
      dsimp only
      split
      · rfl
      · exact hcurrent

/-- A line adds its items to those of the file the reader stands in. -/
theorem take_items (r : Reader) (m : Mark) (path : String) :
    ((r.take m).changed.get? path).getD [] = (r.changed.get? path).getD [] ++ m.items r.current path := by
  cases m with
  | other => exact (List.append_nil _).symm
  | file named =>
    cases named with
    | none => exact (List.append_nil _).symm
    | some named =>
      refine Eq.trans ?_ (List.append_nil _).symm
      unfold Reader.take
      dsimp only
      split
      · rfl
      · rename_i hnew
        rw [Dict.get?_set]
        split
        · rename_i heq
          rw [heq, Option.not_isSome_iff_eq_none.1 hnew]
          rfl
        · rfl
  | hunk start count =>
    unfold Reader.take Mark.items
    cases hcurrent : r.current with
    | none => simp
    | some current =>
      dsimp only
      by_cases hcount : 0 < count
      · rw [if_pos hcount, Dict.get?_set]
        by_cases heq : path = current
        · rw [if_pos heq, if_pos ⟨congrArg some heq.symm, hcount⟩, heq, Option.getD_some]
        · rw [if_neg heq, if_neg fun hand => heq (Option.some.inj hand.1).symm, List.append_nil]
      · rw [if_neg hcount, if_neg fun hand => hcount hand.2, List.append_nil]

theorem foldl_take_items (ms : List Mark) (r : Reader) (path : String) :
    ((ms.foldl Reader.take r).changed.get? path).getD [] =
      (r.changed.get? path).getD [] ++ reads r.current ms path := by
  induction ms generalizing r with
  | nil => exact (List.append_nil _).symm
  | cons m ms ih => rw [List.foldl_cons, ih, take_items, take_current, reads_cons, List.append_assoc]

/-- The result has the paths under which something is read, with what is read there, merged. -/
theorem get?_symbolRangesFromDiff (diffText : List Char) (path : String) :
    (symbolRangesFromDiff digits diffText).get? path =
      if reads none (marks digits diffText) path = [] then none
      else some (mergeRanges (reads none (marks digits diffText) path)) := by
  have hitems := foldl_take_items (marks digits diffText) ⟨none, Dict.empty⟩ path
  rw [marks, List.foldl_map, Dict.get?_empty, Option.getD_none, List.nil_append, ← marks] at hitems
  have hmerged (found : Option Ranges) :
      (found.filter fun items => decide (items ≠ [])).map (fun items => mergeRanges items) =
        if found.getD [] = [] then none else some (mergeRanges (found.getD [])) := by
    cases found with
    | none => rfl
    | some items => by_cases hnil : items = [] <;> simp [hnil]
  unfold symbolRangesFromDiff
  rw [Dict.get?_mapVals, Dict.get?_keep, ← hitems]
  exact hmerged _

theorem ordered_of_mem_items {current : Option String} {m : Mark} {path : String} {r : Int × Int}
    (h : r ∈ m.items current path) : r.1 ≤ r.2 := by
  cases m with
  | file named => cases h
  | other => cases h
  | hunk start count =>
    rw [Mark.items] at h
    split at h
    · rename_i hcount
      rw [List.mem_singleton.1 h]
      have := hcount.2
      dsimp only
      omega
    · cases h

theorem ordered_of_mem_reads {current : Option String} {ms : List Mark} {path : String} {r : Int × Int}
    (h : r ∈ reads current ms path) : r.1 ≤ r.2 := by
  induction ms generalizing current with
  | nil => cases h
  | cons m ms ih =>
    rcases List.mem_append.1 h with h | h
    · exact ordered_of_mem_items h
    · exact ih h

end OpenFish.Findings
