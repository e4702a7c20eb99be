/-
What the diff reader returns for the text git writes: exactly the lines that were added, when no path needs git's
quotes and no line of content is taken for a header; and for each content that is, a diff that is misread.
-/
import OpenFish.Findings.DiffText

namespace OpenFish.Findings

open Lib

/-! ## What the reader must return, and what it must not meet -/

variable (digits : Digits)

/-- The reader returns, for each new path, the lines that the diff adds there, and nothing else. -/
structure Exact (diff : List FileChange) : Prop where
  canonical : ∀ path ranges, (symbolRangesFromDiff digits (render diff)).get? path = some ranges →
    Lib.Ranges.Canonical ranges
  covered : ∀ path n,
    Lib.Ranges.Covers (((symbolRangesFromDiff digits (render diff)).get? path).getD []) n ↔ AddsLine diff path n
  only : ∀ path, ((symbolRangesFromDiff digits (render diff)).get? path).isSome = true → ∃ n, AddsLine diff path n

/-- What a text of a hunk is in the diff. -/
inductive Role
  | added | removed | heading
  deriving DecidableEq, Repr

/-- The lines in which the reader finds a text, but for the one a hunk header begins. -/
def Role.lines : Role → List Char → List (List Char)
  | .added, text => Lines.closed ('+' :: text)
  | .removed, text => Lines.closed ('-' :: text)
  | .heading, text => (Lines.closed (' ' :: text)).tail

def Hunk.texts (h : Hunk) : List (Role × FileLine) :=
  h.heading.toList.map (Role.heading, ·) ++ h.removed.map (Role.removed, ·) ++ h.added.map (Role.added, ·)

/-- A line the reader does not act on, where it stands in a file of the new side (`kept`) or in none. -/
def Silent (kept : Bool) : Mark → Prop
  | .file _ => False
  | .hunk _ count => kept = true → count = 0
  | .other => True

/-- No line of the text is taken for a header. -/
def Role.Plain (kept : Bool) (role : Role) (text : List Char) : Prop :=
  ∀ line ∈ role.lines text, Silent kept (mark digits line)

structure FileChange.Plain (f : FileChange) : Prop where
  path : ∀ path, f.sides.new = some path → addedLines 1 f.hunks ≠ [] → PlainPath path
  texts : ∀ h ∈ f.hunks, ∀ entry ∈ h.texts, entry.1.Plain digits f.sides.new.isSome entry.2.1

/-! ## The marks of a diff -/

/-- What the reader makes of a line of the diff, which may be several to it. -/
def lineMarks (line : List Char) : List Mark := (Lines.closed line).map (mark digits)

theorem marks_render (diff : List FileChange) :
    marks digits (render diff) = (diff.flatMap FileChange.lines).flatMap (lineMarks digits) := by
  unfold marks render lineMarks
  rw [Lines.splitlines_flatMap, List.map_flatMap]

theorem mark_other {c : Char} (hplus : c ≠ '+') (hat : c ≠ '@') (rest : List Char) :
    mark digits (c :: rest) = .other := by
  have hfile : "+++ ".toList.isPrefixOf (c :: rest) = false := by
    rw [show "+++ ".toList = '+' :: ['+', '+', ' '] from rfl, List.isPrefixOf_cons_cons, beq_false_of_ne (Ne.symm hplus),
      Bool.false_and]
  have hhunk : "@@ -".toList.isPrefixOf (c :: rest) = false := by
    rw [show "@@ -".toList = '@' :: ['@', ' ', '-'] from rfl, List.isPrefixOf_cons_cons, beq_false_of_ne (Ne.symm hat),
      Bool.false_and]
  have hre : hunkRe digits (c :: rest) = none := by
    rw [hunkRe, literal, hhunk]
    rfl
  rw [mark, hfile, hre]
  rfl

theorem lineMarks_other {c : Char} {rest : List Char} (hplus : c ≠ '+') (hat : c ≠ '@')
    (hsingle : ∀ x ∈ c :: rest, Lines.isBreak x = false) : lineMarks digits (c :: rest) = [.other] := by
  rw [lineMarks, Lines.closed_of_forall hsingle, List.map_singleton, mark_other digits hplus hat]

theorem isBreak_digits {n : Nat} {c : Char} (h : c ∈ Nat.toDigits 10 n) : Lines.isBreak c = false := by
  have hrange := Text.range_of_isDigit (Nat.isDigit_of_mem_toDigits (by omega) (by omega) h)
  exact isBreak_of_range (by omega)

theorem isBreak_lineRange (start count : Nat) : ∀ c ∈ lineRange start count, Lines.isBreak c = false := by
  intro c hc
  rcases List.mem_append.1 hc with hc | hc
  · exact isBreak_digits hc
  · split at hc
    · cases hc
    · rcases List.mem_cons.1 hc with rfl | hc
      · decide
      · exact isBreak_digits hc

theorem isBreak_ranges (h : Hunk) (old new : Nat) : ∀ c ∈ h.ranges old new, Lines.isBreak c = false := by
  intro c hc
  simp only [Hunk.ranges, List.mem_append] at hc
  rcases hc with hc | hc | hc | hc | hc
  · exact isBreak_word (by decide) c hc
  · exact isBreak_lineRange _ _ c hc
  · exact isBreak_word (by decide) c hc
  · exact isBreak_lineRange _ _ c hc
  · exact isBreak_word (by decide) c hc

/-- Where the lines a hunk adds begin, as its header says it. -/
def Hunk.start (h : Hunk) (new : Nat) : Nat := if h.added.length = 0 then new + h.skip - 1 else new + h.skip

theorem mark_ranges (h : Hunk) (old new : Nat) (rest : List Char) :
    mark digits (h.ranges old new ++ rest) = .hunk (h.start new) h.added.length := by
  have hfile : "+++ ".toList.isPrefixOf (h.ranges old new ++ rest) = false := rfl
  rw [mark, hfile, hunkRe_ranges]
  rfl

/-- The marks of a text in its role. -/
def Role.marks (role : Role) (text : List Char) : List Mark := (role.lines text).map (mark digits)

/-- The header of a hunk says where the lines it adds begin, and how many there are. -/
theorem lineMarks_header (h : Hunk) (old new : Nat) :
    lineMarks digits (h.ranges old new ++ h.headingText) = .hunk (h.start new) h.added.length ::
      h.heading.toList.flatMap fun text => Role.heading.marks digits text.1 := by
  obtain ⟨first, rest, htext, hclosed⟩ := Lines.closed_append (isBreak_ranges h old new) h.headingText
  rw [lineMarks, hclosed, List.map_cons, mark_ranges]
  unfold Hunk.headingText at htext
  cases hheading : h.heading with
  | none =>
    rw [hheading] at htext
    obtain ⟨-, rfl⟩ := List.cons.inj (show [[]] = first :: rest from htext)
    rfl
  | some text =>
    rw [hheading] at htext
    rw [Option.toList_some, List.flatMap_singleton, Role.marks, Role.lines, htext, List.tail_cons]

/-! ## Reading plain content -/

/-- Lines on which the reader does not act leave it where it stands, with nothing read. -/
theorem reads_silent (current : Option String) {ms : List Mark} (h : ∀ m ∈ ms, Silent current.isSome m) :
    endsAt current ms = current ∧ ∀ path, reads current ms path = [] := by
  induction ms with
  | nil => exact ⟨rfl, fun _ => rfl⟩
  | cons m ms ih =>
    obtain ⟨hends, hreads⟩ := ih fun m' hm' => h m' (List.mem_cons_of_mem _ hm')
    have hm := h m (List.mem_cons_self ..)
    have hnext : m.next current = current := by
      cases m with
      | file path => exact absurd hm id
      | hunk start count => rfl
      | other => rfl
    have hitems (path : String) : m.items current path = [] := by
      cases m with
      | file named => rfl
      | other => rfl
      | hunk start count =>
        refine if_neg fun hand => ?_
        have hzero : count = 0 := hm (by rw [hand.1]; rfl)
        omega
    refine ⟨by rw [endsAt_cons, hnext, hends], fun path => ?_⟩
    rw [reads_cons, hnext, hitems, hreads]
    rfl

theorem silent_signed {kept : Bool} (role : Role) {sign : Char} {lines : List FileLine} {isOpen : Bool}
    (hrole : ∀ text, role.lines text = Lines.closed (sign :: text)) (h : ∀ text ∈ lines, role.Plain digits kept text.1)
    {line : List Char} (hline : line ∈ signed sign lines isOpen) {m : Mark} (hm : m ∈ lineMarks digits line) :
    Silent kept m := by
  rcases List.mem_append.1 hline with hline | hline
  · obtain ⟨text, htext, rfl⟩ := List.mem_map.1 hline
    obtain ⟨l, hl, rfl⟩ := List.mem_map.1 hm
    exact h text htext l (by rw [hrole]; exact hl)
  · split at hline
    · rw [List.mem_singleton.1 hline] at hm
      have hnote : lineMarks digits "\\ No newline at end of file".toList = [.other] :=
        lineMarks_other digits (c := '\\') (by decide) (by decide) (isBreak_word (by decide))
      rw [hnote] at hm
      rw [List.mem_singleton.1 hm]
      trivial
    · cases hline

/-- The content of a hunk of plain texts, and what follows the header line, are read past. -/
theorem silent_content {kept : Bool} {h : Hunk} (hplain : ∀ entry ∈ h.texts, entry.1.Plain digits kept entry.2.1)
    {m : Mark} (hm : m ∈ h.content.flatMap (lineMarks digits)) : Silent kept m := by
  obtain ⟨line, hline, hm⟩ := List.mem_flatMap.1 hm
  simp only [Hunk.texts, List.mem_append, List.mem_map] at hplain
  rcases List.mem_append.1 hline with hline | hline
  · exact silent_signed digits .removed (fun _ => rfl)
      (fun text htext => hplain (.removed, text) (.inl (.inr ⟨text, htext, rfl⟩))) hline hm
  · exact silent_signed digits .added (fun _ => rfl)
      (fun text htext => hplain (.added, text) (.inr ⟨text, htext, rfl⟩)) hline hm

/-- A hunk of plain texts is read as its header. -/
theorem reads_hunk {current : Option String} {h : Hunk}
    (hplain : ∀ entry ∈ h.texts, entry.1.Plain digits current.isSome entry.2.1) (old new : Nat) :
    endsAt current (((h.ranges old new ++ h.headingText) :: h.content).flatMap (lineMarks digits)) = current ∧
      ∀ path, reads current (((h.ranges old new ++ h.headingText) :: h.content).flatMap (lineMarks digits)) path =
        (Mark.hunk (h.start new) h.added.length).items current path := by
  have hsilent : ∀ m ∈ (h.heading.toList.flatMap fun text => Role.heading.marks digits text.1) ++
      h.content.flatMap (lineMarks digits), Silent current.isSome m := by
    intro m hm
    rcases List.mem_append.1 hm with hm | hm
    · obtain ⟨text, htext, hm⟩ := List.mem_flatMap.1 hm
      obtain ⟨line, hline, rfl⟩ := List.mem_map.1 hm
      refine hplain (.heading, text) ?_ line hline
      simp only [Hunk.texts, List.mem_append, List.mem_map]
      exact .inl (.inl ⟨text, htext, rfl⟩)
    · exact silent_content digits hplain hm
  obtain ⟨hends, hreads⟩ := reads_silent current hsilent
  rw [List.flatMap_cons, lineMarks_header, List.cons_append]
  refine ⟨hends, fun path => ?_⟩
  rw [reads_cons, next_hunk, hreads, List.append_nil]

/-- What is read from a hunk header in the file it is about. -/
theorem covers_items (current : Option String) (h : Hunk) (new : Nat) (path : String) (n : Int) :
    Lib.Ranges.Covers ((Mark.hunk (h.start new) h.added.length).items current path) n ↔
      current = some path ∧ ∃ k ∈ List.range' (new + h.skip) h.added.length, n = (k : Int) := by
  simp only [Mark.items]
  by_cases hcount : 0 < h.added.length
  · have hstart : h.start new = new + h.skip := if_neg (by omega)
    by_cases hcurrent : current = some path
    · rw [if_pos ⟨hcurrent, hcount⟩, Lib.Ranges.covers_singleton, hstart]
      simp only [hcurrent, true_and, List.mem_range'_1]
      constructor
      · rintro ⟨hfrom, huntil⟩
        exact ⟨n.toNat, by omega, by omega⟩
      · rintro ⟨k, hk, rfl⟩
        omega
    · rw [if_neg fun hand => hcurrent hand.1]
      exact ⟨fun h => absurd h (Lib.Ranges.covers_nil n), fun h => absurd h.1 hcurrent⟩
  · rw [if_neg fun hand => hcount hand.2, Nat.eq_zero_of_not_pos hcount]
    simp

theorem reads_hunks {current : Option String} {hunks : List Hunk}
    (hplain : ∀ h ∈ hunks, ∀ entry ∈ h.texts, entry.1.Plain digits current.isSome entry.2.1) (old new : Nat) :
    endsAt current ((hunkLines old new hunks).flatMap (lineMarks digits)) = current ∧
      ∀ path n, Lib.Ranges.Covers (reads current ((hunkLines old new hunks).flatMap (lineMarks digits)) path) n ↔
        current = some path ∧ ∃ k ∈ addedLines new hunks, n = (k : Int) := by
  induction hunks generalizing old new with
  | nil => exact ⟨rfl, fun path n => by simp [hunkLines, addedLines]⟩
  | cons h rest ih =>
    obtain ⟨hends, hreads⟩ := reads_hunk digits (hplain h (List.mem_cons_self ..)) old new
    obtain ⟨hendsRest, hcovers⟩ := ih (fun h' hh' => hplain h' (List.mem_cons_of_mem _ hh'))
      (old + h.skip + h.removed.length) (new + h.skip + h.added.length)
    rw [hunkLines, List.flatMap_append]
    refine ⟨by rw [endsAt_append, hends, hendsRest], fun path n => ?_⟩
    rw [reads_append, hends, hreads, Lib.Ranges.covers_append, covers_items, hcovers, addedLines, ← and_or_left]
    simp only [List.mem_append, or_and_right, exists_or]

/-! ## Reading a change, and a diff -/

theorem range_of_mem_side {side : String} (h : side ∈ ["a/", "b/"]) :
    ∀ c ∈ side.toList, 0x20 ≤ c.toNat ∧ c.toNat < 0x7f := by
  simp only [List.mem_cons, List.not_mem_nil, or_false] at h
  rcases h with rfl | rfl
  all_goals
    intro c hc
    rcases List.mem_cons.1 hc with rfl | hc
    · decide
    · rw [List.mem_singleton.1 hc]; decide

theorem lineMarks_newFile (path : Option String) :
    lineMarks digits ("+++ ".toList ++ fileLabel "b/" path) = [.file (readPath ("+++ ".toList ++ fileLabel "b/" path))] := by
  have hsingle : ∀ c ∈ "+++ ".toList ++ fileLabel "b/" path, Lines.isBreak c = false := by
    intro c hc
    rcases List.mem_append.1 hc with hc | hc
    · exact isBreak_word (by decide) c hc
    · exact isBreak_fileLabel (range_of_mem_side (by simp)) path c hc
  have hprefix : "+++ ".toList.isPrefixOf ("+++ ".toList ++ fileLabel "b/" path) = true :=
    List.isPrefixOf_iff_prefix.2 (List.prefix_append ..)
  rw [lineMarks, Lines.closed_of_forall hsingle, List.map_singleton, mark, if_pos hprefix]

theorem lineMarks_oldFile (path : Option String) : lineMarks digits ("--- ".toList ++ fileLabel "a/" path) = [.other] := by
  refine lineMarks_other digits (c := '-') (by decide) (by decide) fun c hc => ?_
  rcases List.mem_append.1 (show c ∈ "--- ".toList ++ fileLabel "a/" path from hc) with hc | hc
  · exact isBreak_word (by decide) c hc
  · exact isBreak_fileLabel (range_of_mem_side (by simp)) path c hc

theorem lineMarks_diffLine (old new : String) :
    lineMarks digits ("diff --git ".toList ++ label "a/" old ++ ' ' :: label "b/" new) = [.other] := by
  refine lineMarks_other digits (c := 'd') (by decide) (by decide) fun c hc => ?_
  rcases List.mem_append.1 (show c ∈ "diff --git ".toList ++ label "a/" old ++ ' ' :: label "b/" new from hc) with
    hc | hc
  · rcases List.mem_append.1 hc with hc | hc
    · exact isBreak_word (by decide) c hc
    · exact isBreak_of_range (range_of_mem_label (range_of_mem_side (by simp)) hc)
  · rcases List.mem_cons.1 hc with rfl | hc
    · decide
    · exact isBreak_of_range (range_of_mem_label (range_of_mem_side (by simp)) hc)

theorem lineMarks_extended (e : Extended) : lineMarks digits e.text = [.other] := by
  obtain ⟨c, hhead, hletter⟩ := e.letter
  obtain ⟨rest, htext⟩ := List.head?_eq_some_iff.1 hhead
  rw [htext]
  refine lineMarks_other digits ?_ ?_ (by rw [← htext]; exact e.single)
  · rintro rfl; cases hletter
  · rintro rfl; cases hletter

/-- Before the hunks, the reader acts on the line that names the new file only. -/
theorem lineMarks_lines (f : FileChange) :
    ∃ ms, (∀ m ∈ ms, m = .other) ∧ f.lines.flatMap (lineMarks digits) =
      ms ++ if f.hunks.isEmpty then []
        else .other :: .file (readPath ("+++ ".toList ++ fileLabel "b/" f.sides.new)) ::
          (hunkLines 1 1 f.hunks).flatMap (lineMarks digits) := by
  refine ⟨.other :: f.extended.flatMap fun _ => [.other], fun m hm => ?_, ?_⟩
  · rcases List.mem_cons.1 hm with rfl | hm
    · rfl
    · obtain ⟨-, -, hm⟩ := List.mem_flatMap.1 hm
      exact List.mem_singleton.1 hm
  · have hextended : (f.extended.map Extended.text).flatMap (lineMarks digits) = f.extended.flatMap fun _ => [.other] := by
      rw [List.flatMap_map]
      exact List.flatMap_congr fun e _ => lineMarks_extended digits e
    unfold FileChange.lines
    dsimp only
    rw [List.cons_append, List.flatMap_cons, lineMarks_diffLine, List.flatMap_append, hextended, List.singleton_append,
      List.cons_append]
    congr 2
    split
    · rfl
    · rw [List.flatMap_cons, List.flatMap_cons, lineMarks_oldFile, lineMarks_newFile]
      rfl

theorem readPath_deleted : readPath ("+++ ".toList ++ fileLabel "b/" none) = none := by decide

/-- A change of plain texts is read under the name the reader gives its path, wherever it stood before. -/
theorem covers_shown {f : FileChange}
    (htexts : ∀ h ∈ f.hunks, ∀ entry ∈ h.texts, entry.1.Plain digits f.sides.new.isSome entry.2.1)
    (current : Option String) (path : String) (n : Int) :
    Lib.Ranges.Covers (reads current (f.lines.flatMap (lineMarks digits)) path) n ↔
      f.sides.new.map shown = some path ∧ ∃ k ∈ addedLines 1 f.hunks, n = (k : Int) := by
  obtain ⟨ms, hother, hlines⟩ := lineMarks_lines digits f
  obtain ⟨hends, hreads⟩ := reads_silent current fun m hm => show Silent _ m by rw [hother m hm]; trivial
  rw [hlines, reads_append, hends, hreads, List.nil_append]
  by_cases hempty : f.hunks.isEmpty = true
  · rw [if_pos hempty, List.isEmpty_iff.1 hempty]
    simp [addedLines]
  · have hread : readPath ("+++ ".toList ++ fileLabel "b/" f.sides.new) = f.sides.new.map shown := by
      cases f.sides.new with
      | none => exact readPath_deleted
      | some new => exact readPath_fileLabel new
    rw [if_neg hempty, reads_cons, reads_cons, hread, items_other, items_file, next_file, List.nil_append,
      List.nil_append]
    exact (reads_hunks digits (by rw [Option.isSome_map]; exact htexts) 1 1).2 path n

/-- A plain change is read exactly. -/
theorem covers_change {f : FileChange} (hplain : f.Plain digits) (current : Option String) (path : String) (n : Int) :
    Lib.Ranges.Covers (reads current (f.lines.flatMap (lineMarks digits)) path) n ↔
      f.sides.new = some path ∧ ∃ k ∈ addedLines 1 f.hunks, n = (k : Int) := by
  rw [covers_shown digits hplain.texts]
  by_cases hadds : addedLines 1 f.hunks = []
  · simp [hadds]
  · cases hnew : f.sides.new with
    | none => rfl
    | some new => rw [Option.map_some, (shown_eq_iff new).2 (hplain.path new hnew hadds)]

theorem covers_changes {diff : List FileChange} (hplain : ∀ f ∈ diff, f.Plain digits) (current : Option String)
    (path : String) (n : Int) :
    Lib.Ranges.Covers (reads current ((diff.flatMap FileChange.lines).flatMap (lineMarks digits)) path) n ↔
      AddsLine diff path n := by
  induction diff generalizing current with
  | nil => simp [AddsLine]
  | cons f diff ih =>
    rw [List.flatMap_cons, List.flatMap_append, reads_append, Lib.Ranges.covers_append,
      covers_change digits (hplain f (List.mem_cons_self ..)), ih fun f' hf' => hplain f' (List.mem_cons_of_mem _ hf')]
    simp only [AddsLine, List.mem_cons, or_and_right, exists_or, exists_eq_left]

/-- The result is exact if what is read under each path is what is added there. -/
theorem exact_iff (diff : List FileChange) :
    Exact digits diff ↔
      ∀ path n, Lib.Ranges.Covers (reads none (marks digits (render diff)) path) n ↔ AddsLine diff path n := by
  have hmerged (path : String) := mergeRanges_spec (reads none (marks digits (render diff)) path)
    fun r hr => ordered_of_mem_reads hr
  have hcovered (path : String) (n : Int) :
      Lib.Ranges.Covers (((symbolRangesFromDiff digits (render diff)).get? path).getD []) n ↔
        Lib.Ranges.Covers (reads none (marks digits (render diff)) path) n := by
    rw [get?_symbolRangesFromDiff]
    split
    · rename_i hnil; rw [hnil]; rfl
    · exact (hmerged path).2 n
  constructor
  · intro h path n
    rw [← hcovered, h.covered]
  · intro h
    refine ⟨fun path ranges hget => ?_, fun path n => by rw [hcovered, h], fun path hsome => ?_⟩
    · rw [get?_symbolRangesFromDiff] at hget
      split at hget
      · cases hget
      · rw [← Option.some.inj hget]
        exact (hmerged path).1
    · rw [get?_symbolRangesFromDiff] at hsome
      split at hsome
      · cases hsome
      · rename_i hne
        obtain ⟨n, hn⟩ := Lib.Ranges.exists_covers (fun r hr => ordered_of_mem_reads hr) hne
        exact ⟨n, (h path n).1 hn⟩

theorem exact_of_plain {diff : List FileChange} (hplain : ∀ f ∈ diff, f.Plain digits) : Exact digits diff := by
  refine (exact_iff digits diff).2 fun path n => ?_
  rw [marks_render]
  exact covers_changes digits hplain none path n

/-! ## Content that is taken for a header -/

/-- How far a mark reaches: the line after the last one of a hunk, the length of a path. -/
def Mark.size : Mark → Nat
  | .hunk start count => start + count
  | .file path => (path.getD "").length
  | .other => 0

theorem exists_size (ms : List Mark) : ∃ bound, ∀ m ∈ ms, m.size ≤ bound := by
  induction ms with
  | nil => exact ⟨0, fun m hm => absurd hm List.not_mem_nil⟩
  | cons m ms ih =>
    obtain ⟨bound, hbound⟩ := ih
    refine ⟨max m.size bound, fun m' hm' => ?_⟩
    rcases List.mem_cons.1 hm' with rfl | hm'
    · exact le_max_left _ _
    · exact (hbound m' hm').trans (le_max_right _ _)

/-- Nothing is read beyond the reach of the marks. -/
theorem le_of_covers_reads {ms : List Mark} {bound : Nat} (hbound : ∀ m ∈ ms, m.size ≤ bound) {current : Option String}
    {path : String} {n : Int} (h : Lib.Ranges.Covers (reads current ms path) n) : n < bound := by
  induction ms generalizing current with
  | nil => exact absurd h (Lib.Ranges.covers_nil n)
  | cons m ms ih =>
    rw [reads_cons, Lib.Ranges.covers_append] at h
    rcases h with h | h
    · have hm := hbound m (List.mem_cons_self ..)
      cases m with
      | file named => exact absurd h (Lib.Ranges.covers_nil n)
      | other => exact absurd h (Lib.Ranges.covers_nil n)
      | hunk start count =>
        rw [Mark.items] at h
        split at h
        · rw [Lib.Ranges.covers_singleton] at h
          obtain ⟨-, huntil⟩ := h
          simp only [Mark.size] at hm huntil
          omega
        · exact absurd h (Lib.Ranges.covers_nil n)
    · exact ih (fun m' hm' => hbound m' (List.mem_cons_of_mem _ hm')) h

/-- The reader stays where it stands unless a line names a file, and then stands in one that was named. -/
theorem endsAt_cases (current : Option String) (ms : List Mark) :
    endsAt current ms = current ∧ (∀ path, Mark.file path ∉ ms) ∨ Mark.file (endsAt current ms) ∈ ms := by
  induction ms generalizing current with
  | nil => exact .inl ⟨rfl, fun _ => List.not_mem_nil⟩
  | cons m ms ih =>
    rcases ih (m.next current) with ⟨hends, hnone⟩ | hmem
    · rw [endsAt_cons, hends]
      cases m with
      | file path => exact .inr (List.mem_cons_self ..)
      | hunk start count =>
        exact .inl ⟨rfl, fun path h => (List.mem_cons.1 h).elim (fun heq => by cases heq) (hnone path)⟩
      | other => exact .inl ⟨rfl, fun path h => (List.mem_cons.1 h).elim (fun heq => by cases heq) (hnone path)⟩
    · exact .inr (List.mem_cons_of_mem _ hmem)

/-- A hunk header among lines that name no file is read where the reader stands. -/
theorem covers_of_hunk_mem (path : String) {ms : List Mark} (hnone : ∀ named, Mark.file named ∉ ms) {start count : Nat}
    (hmem : Mark.hunk start count ∈ ms) (hcount : 0 < count) :
    Lib.Ranges.Covers (reads (some path) ms path) start := by
  induction ms with
  | nil => cases hmem
  | cons m ms ih =>
    have hnext : m.next (some path) = some path := by
      cases m with
      | file named => exact absurd (List.mem_cons_self ..) (hnone named)
      | hunk start count => rfl
      | other => rfl
    rw [reads_cons, hnext, Lib.Ranges.covers_append]
    rcases List.mem_cons.1 hmem with rfl | hmem
    · left
      rw [Mark.items, if_pos ⟨rfl, hcount⟩, Lib.Ranges.covers_singleton]
      dsimp only
      omega
    · exact .inr (ih (fun named h => hnone named (List.mem_cons_of_mem _ h)) hmem)

/-- A line that is no header in any role. -/
def sampleLine : FileLine := ⟨['x'], by decide⟩

/-- A change of one file with a text in its role, and a line added further down. -/
def probe (path : String) (skip : Nat) (role : Role) (text : FileLine) : FileChange where
  sides := .kept path path
  extended := []
  hunks :=
    [{ skip
       removed := if role = .removed then [text] else []
       added := [if role = .added then text else sampleLine]
       heading := if role = .heading then some text else none
       removedOpen := false
       addedOpen := false },
     { skip := 1, removed := [], added := [sampleLine], heading := none, removedOpen := false, addedOpen := false }]

theorem addedLines_probe (path : String) (skip : Nat) (role : Role) (text : FileLine) :
    addedLines 1 (probe path skip role text).hunks = [1 + skip, 1 + skip + 1 + 1] := rfl

theorem marks_sampleLine : Role.added.marks digits sampleLine.1 = [.other] := rfl

theorem marks_signed (role : Role) {sign : Char} (hrole : ∀ text, role.lines text = Lines.closed (sign :: text))
    (text : FileLine) : (signed sign [text] false).flatMap (lineMarks digits) = role.marks digits text.1 := by
  rw [Role.marks, hrole]
  exact List.append_nil _

/-- Apart from the text, the lines of a probe are its two headers and lines of content. -/
theorem marks_probe (path : String) (skip : Nat) (role : Role) (text : FileLine) :
    ∃ others, (∀ m ∈ others, m = Mark.other) ∧
      (hunkLines 1 1 (probe path skip role text).hunks).flatMap (lineMarks digits) =
        .hunk (1 + skip) 1 :: (role.marks digits text.1 ++ (others ++ [.hunk (1 + skip + 1 + 1) 1, .other])) := by
  have hadded (text : FileLine) := marks_signed digits .added (fun _ => rfl) text
  have hremoved (text : FileLine) := marks_signed digits .removed (fun _ => rfl) text
  have hnothing (sign : Char) : (signed sign [] false).flatMap (lineMarks digits) = [] := rfl
  refine ⟨if role = .added then [] else [.other], by split <;> simp, ?_⟩
  cases role <;>
    simp [probe, hunkLines, Hunk.content, lineMarks_header, hadded, hremoved, hnothing, marks_sampleLine, Hunk.start]

theorem plain_sampleLine (kept : Bool) : Role.added.Plain digits kept sampleLine.1 := by
  intro line hline
  have hmark := List.mem_map_of_mem (f := mark digits) hline
  rw [show (Role.added.lines sampleLine.1).map (mark digits) = [.other] from marks_sampleLine digits,
    List.mem_singleton] at hmark
  rw [hmark]
  trivial

theorem plain_probe {kept : Bool} {role : Role} {text : FileLine} (hplain : role.Plain digits kept text.1) (path : String)
    (skip : Nat) :
    ∀ h ∈ (probe path skip role text).hunks, ∀ entry ∈ h.texts, entry.1.Plain digits kept entry.2.1 := by
  intro h hh entry hentry
  have hcases : entry = (role, text) ∨ entry = (.added, sampleLine) := by
    simp only [probe, List.mem_cons, List.not_mem_nil, or_false] at hh
    rcases hh with rfl | rfl
    · cases role <;> simp [Hunk.texts] at hentry <;> tauto
    · exact .inr (by simpa [Hunk.texts] using hentry)
  rcases hcases with rfl | rfl
  · exact hplain
  · exact plain_sampleLine digits kept

/-- What is read from a probe. -/
theorem reads_probe (path : String) (skip : Nat) (role : Role) (text : FileLine) (path' : String) :
    reads none (marks digits (render [probe path skip role text])) path' =
      reads (some (shown path)) (.hunk (1 + skip) 1 :: role.marks digits text.1) path' ++
        (Mark.hunk (1 + skip + 1 + 1) 1).items (endsAt (some (shown path)) (role.marks digits text.1)) path' := by
  obtain ⟨ms, hother, hlines⟩ := lineMarks_lines digits (probe path skip role text)
  obtain ⟨others, hothers, hhunks⟩ := marks_probe digits path skip role text
  have hms := reads_silent none fun m hm => show Silent _ m by rw [hother m hm]; trivial
  have hskipped := reads_silent (endsAt (some (shown path)) (role.marks digits text.1))
    fun m hm => by rw [hothers m hm]; trivial
  rw [marks_render, List.flatMap_singleton, hlines, if_neg (by simp [probe]), reads_append, hms.1, hms.2, reads_cons,
    reads_cons, show (probe path skip role text).sides.new = some path from rfl, readPath_fileLabel, hhunks]
  simp only [items_other, items_file, next_other, next_file, next_hunk, List.nil_append, reads_cons, reads_append,
    hskipped.1, hskipped.2, reads_nil, List.append_nil, List.append_assoc]

theorem addsLine_probe (path : String) (skip : Nat) (role : Role) (text : FileLine) (path' : String) (n : Int) :
    AddsLine [probe path skip role text] path' n ↔ path = path' ∧ (n = 1 + skip ∨ n = 1 + skip + 1 + 1) := by
  have hnew : (probe path skip role text).sides.new = some path := rfl
  simp only [AddsLine, exists_eq_left, addedLines_probe, hnew, Option.some.injEq, List.mem_cons,
    List.not_mem_nil, or_false, or_and_right, exists_or]
  push_cast
  rfl

/-- A path that is longer than a bound. -/
theorem exists_plainPath (bound : Nat) : ∃ path : String, PlainPath path ∧ bound < path.length := by
  refine ⟨String.ofList (List.replicate (bound + 1) 'a'), ⟨?_, ?_⟩, ?_⟩
  · rw [String.toList_ofList, List.all_replicate]
    rfl
  · rw [String.toList_ofList, List.getLast?_replicate]
    simp
  · rw [String.length_ofList, List.length_replicate]
    exact Nat.lt_succ_self bound

/-- A text that is taken for a header is misread in some place. -/
theorem exists_misread {role : Role} {text : FileLine} (hnot : ¬ role.Plain digits true text.1) :
    ∃ path skip, PlainPath path ∧ ¬ Exact digits [probe path skip role text] := by
  -- a path that no line of the text names, and lines beyond those it speaks of
  obtain ⟨bound, hbound⟩ := exists_size (role.marks digits text.1)
  obtain ⟨path, hpath, hlong⟩ := exists_plainPath bound
  refine ⟨path, bound, hpath, fun hexact => ?_⟩
  have hread (n : Int) := (exact_iff digits _).1 hexact path n
  simp only [reads_probe, (shown_eq_iff path).2 hpath, addsLine_probe, true_and, Lib.Ranges.covers_append, reads_cons,
    next_hunk] at hread
  rcases endsAt_cases (some path) (role.marks digits text.1) with ⟨-, hnone⟩ | hmem
  · -- no line names a file, so one is a hunk header, whose lines are read under `path`
    obtain ⟨line, hline, hacts⟩ : ∃ line ∈ role.lines text.1, ¬ Silent true (mark digits line) := by
      simpa [Role.Plain] using hnot
    have hmem : mark digits line ∈ role.marks digits text.1 := List.mem_map_of_mem hline
    cases hmark : mark digits line with
    | file named => rw [hmark] at hmem; exact hnone named hmem
    | other => rw [hmark] at hacts; exact hacts trivial
    | hunk start count =>
      rw [hmark] at hmem hacts
      have hcount : 0 < count := Nat.pos_of_ne_zero fun hzero => hacts fun _ => hzero
      have hsize := hbound _ hmem
      have hcovers := covers_of_hunk_mem path hnone hmem hcount
      have := (hread start).1 (.inl (.inr hcovers))
      simp only [Mark.size] at hsize
      omega
  · -- the reader ends in another file, under which the line further down is filed
    have helse : endsAt (some path) (role.marks digits text.1) ≠ some path := by
      intro heq
      rw [heq] at hmem
      have hsize := hbound _ hmem
      simp only [Mark.size, Option.getD_some] at hsize
      omega
    rcases (hread (1 + bound + 1 + 1)).2 (.inr rfl) with (hfirst | htext) | hlast
    · rw [Mark.items, if_pos ⟨rfl, Nat.one_pos⟩, Lib.Ranges.covers_singleton] at hfirst
      dsimp only at hfirst
      omega
    · have := le_of_covers_reads hbound htext
      omega
    · rw [Mark.items, if_neg fun hand => helse hand.1] at hlast
      exact Lib.Ranges.covers_nil _ hlast

/-- The reader is exact on plain diffs. A text is read past wherever it stands, in otherwise plain diffs, only if it is
plain, and so is a path with added lines. -/
theorem symbolRangesFromDiff_exact :
    (∀ diff, (∀ f ∈ diff, f.Plain digits) → Exact digits diff) ∧
      (∀ role text, (∀ path skip, PlainPath path → Exact digits [probe path skip role text]) ↔
        role.Plain digits true text.1) ∧
      ∀ path, Exact digits [probe path 0 .added sampleLine] ↔ PlainPath path := by
  have hplain (path : String) (skip : Nat) (role : Role) (text : FileLine) (hpath : PlainPath path)
      (htext : role.Plain digits true text.1) : Exact digits [probe path skip role text] := by
    refine exact_of_plain digits fun f hf => ?_
    rw [List.mem_singleton.1 hf]
    refine ⟨fun path' hpath' _ => ?_, plain_probe digits htext path skip⟩
    rw [← Option.some.inj hpath']
    exact hpath
  refine ⟨fun diff h => exact_of_plain digits h, fun role text => ⟨fun hexact => ?_, fun htext path skip hpath =>
    hplain path skip role text hpath htext⟩, fun path => ⟨fun hexact => ?_, fun hpath => ?_⟩⟩
  · by_contra hnot
    obtain ⟨path, skip, hpath, hmisread⟩ := exists_misread digits hnot
    exact hmisread (hexact path skip hpath)
  · have hread := (exact_iff digits _).1 hexact path 1
    rw [marks_render, List.flatMap_singleton, addsLine_probe,
      covers_shown digits (plain_probe digits (plain_sampleLine digits true) path 0)] at hread
    exact (shown_eq_iff path).1 (Option.some.inj (hread.2 ⟨rfl, .inl rfl⟩).1)
  · exact hplain path 0 .added sampleLine hpath (plain_sampleLine digits true)

/-- An added line that increments a variable is taken for a file header, and what is added below it is lost. -/
theorem increment_not_exact :
    ¬ Exact .ascii [probe "a.c" 0 .added ⟨['+', '+', ' ', 'i', ';'], by decide⟩] := by
  intro hexact
  have hcovers := (hexact.covered "a.c" 3).2 ((addsLine_probe ..).2 ⟨rfl, .inr rfl⟩)
  have hread : (symbolRangesFromDiff .ascii
      (render [probe "a.c" 0 .added ⟨['+', '+', ' ', 'i', ';'], by decide⟩])).get? "a.c" = some [(1, 1)] := by
    decide +kernel
  rw [hread, Option.getD_some, Lib.Ranges.covers_singleton] at hcovers
  omega

end OpenFish.Findings
