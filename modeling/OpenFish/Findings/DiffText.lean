/-
File changes, and the text `git diff -U0` writes for them, with what the diff reader makes of its numbers and of the
labels of its files.
-/
import OpenFish.Findings.Drift

namespace OpenFish.Findings

open Lib

/-! ## File changes -/

/-- A line of a file, without its end. -/
abbrev FileLine := { text : List Char // '\n' ∉ text }

/-- Some lines of a file replaced by others, after `skip` unchanged ones. -/
structure Hunk where
  skip : Nat
  removed : List FileLine
  added : List FileLine
  /-- The line of the old file that git puts behind the hunk header, to say where one is. -/
  heading : Option FileLine
  /-- Whether the last line is the end of a file that no line feed closes. -/
  removedOpen : Bool
  addedOpen : Bool

/-- An extended header, or the line that says that binary files differ: git's own words, in one line, since the paths
in it are quoted. -/
structure Extended where
  text : List Char
  letter : ∃ c ∈ text.head?, c.isAlpha = true
  single : ∀ c ∈ text, Lines.isBreak c = false

inductive Sides
  | created (path : String)
  | deleted (path : String)
  | kept (old new : String)

def Sides.old : Sides → Option String
  | .created _ => none
  | .deleted path => some path
  | .kept old _ => some old

def Sides.new : Sides → Option String
  | .created path => some path
  | .deleted _ => none
  | .kept _ new => some new

structure FileChange where
  sides : Sides
  extended : List Extended
  hunks : List Hunk

/-- The lines of the new file that hunks add, where the next unchanged line would be its line `new`. -/
def addedLines : Nat → List Hunk → List Nat
  | _, [] => []
  | new, h :: rest => List.range' (new + h.skip) h.added.length ++ addedLines (new + h.skip + h.added.length) rest

/-- Line `n` of the new file at `path` is one that the diff adds. -/
def AddsLine (diff : List FileChange) (path : String) (n : Int) : Prop :=
  ∃ f ∈ diff, f.sides.new = some path ∧ ∃ k ∈ addedLines 1 f.hunks, n = (k : Int)

/-! ## The text of a diff -/

/-- A character that stands for itself in a path. -/
def plainChar (c : Char) : Bool := 0x20 ≤ c.toNat && c.toNat < 0x7f && c ≠ '"' && c ≠ '\\'

def octal (b : UInt8) : List Char :=
  ['\\', Nat.digitChar (b.toNat / 64), Nat.digitChar (b.toNat / 8 % 8), Nat.digitChar (b.toNat % 8)]

/-- A character between git's quotes. -/
def quoteChar (c : Char) : List Char :=
  if plainChar c then [c]
  else match c.toNat with
    | 0x07 => ['\\', 'a']
    | 0x08 => ['\\', 'b']
    | 0x09 => ['\\', 't']
    | 0x0a => ['\\', 'n']
    | 0x0b => ['\\', 'v']
    | 0x0c => ['\\', 'f']
    | 0x0d => ['\\', 'r']
    | 0x22 => ['\\', '"']
    | 0x5c => ['\\', '\\']
    | _ => (String.utf8EncodeChar c).flatMap octal

def quoted (path : String) : List Char := path.toList.flatMap quoteChar

/-- A path behind its side's letter, in quotes if a character of it needs them. -/
def label (side : String) (path : String) : List Char :=
  if path.toList.all plainChar then side.toList ++ path.toList else '"' :: side.toList ++ quoted path ++ ['"']

/-- The label of a `---` or `+++` line: a tab closes one with a space in it. -/
def fileLabel (side : String) : Option String → List Char
  | none => nullPath.toList
  | some path => label side path ++ if ' ' ∈ label side path then ['\t'] else []

/-- The lines of one side of a hunk: the line before the first, if there are none. -/
def lineRange (start count : Nat) : List Char :=
  Nat.toDigits 10 (if count = 0 then start - 1 else start) ++ if count = 1 then [] else ',' :: Nat.toDigits 10 count

def Hunk.headingText (h : Hunk) : List Char :=
  match h.heading with
  | none => []
  | some text => ' ' :: text.1

/-- The hunk header up to the heading. -/
def Hunk.ranges (h : Hunk) (old new : Nat) : List Char :=
  "@@ -".toList ++ (lineRange (old + h.skip) h.removed.length ++ (" +".toList ++
    (lineRange (new + h.skip) h.added.length ++ " @@".toList)))

/-- The lines of one side, behind its sign. -/
def signed (sign : Char) (lines : List FileLine) (isOpen : Bool) : List (List Char) :=
  lines.map (fun text => sign :: text.1) ++
    if isOpen ∧ lines ≠ [] then ["\\ No newline at end of file".toList] else []

def Hunk.content (h : Hunk) : List (List Char) :=
  signed '-' h.removed h.removedOpen ++ signed '+' h.added h.addedOpen

/-- Hunks, where the next unchanged line would be the lines `old` and `new` of the two files. -/
def hunkLines : Nat → Nat → List Hunk → List (List Char)
  | _, _, [] => []
  | old, new, h :: rest =>
    (h.ranges old new ++ h.headingText) :: h.content ++
      hunkLines (old + h.skip + h.removed.length) (new + h.skip + h.added.length) rest

/-- A change without hunks has no `---` and `+++` lines. -/
def FileChange.lines (f : FileChange) : List (List Char) :=
  let old := (f.sides.old.or f.sides.new).getD ""
  let new := (f.sides.new.or f.sides.old).getD ""
  ("diff --git ".toList ++ label "a/" old ++ ' ' :: label "b/" new) :: f.extended.map Extended.text ++
    if f.hunks.isEmpty then []
    else ("--- ".toList ++ fileLabel "a/" f.sides.old) :: ("+++ ".toList ++ fileLabel "b/" f.sides.new) ::
      hunkLines 1 1 f.hunks

def render (diff : List FileChange) : List Char := (diff.flatMap FileChange.lines).flatMap (· ++ ['\n'])

/-! ## Numbers and headers -/

variable (digits : Digits)

theorem decimal_toDigits {n : Nat} {c : Char} (h : c ∈ Nat.toDigits 10 n) : digits.decimal c = true := by
  have hdigit := Nat.isDigit_of_mem_toDigits (by omega) (by omega) h
  have hrange := Text.range_of_isDigit hdigit
  rw [digits.decimal_ascii c (by omega), hdigit]

@[simp] theorem int_toDigits (n : Nat) : digits.int (Nat.toDigits 10 n) = n := by
  have hsame : ∀ (text : List Char) (start : Nat), (∀ c ∈ text, c.isDigit = true) →
      text.foldl (fun n c => 10 * n + digits.value c) start = Nat.ofDigitChars 10 text start := by
    intro text
    induction text with
    | nil => exact fun _ _ => rfl
    | cons c text ih =>
      intro start hall
      rw [List.foldl_cons, ih _ fun c' hc' => hall c' (List.mem_cons_of_mem _ hc'), Nat.ofDigitChars_cons,
        digits.value_ascii c (hall c (List.mem_cons_self ..))]
  unfold Digits.int
  rw [hsame _ _ fun c hc => Nat.isDigit_of_mem_toDigits (by omega) (by omega) hc, Nat.ofDigitChars_ten_toDigits]

/-- A number is read up to the first character that is no digit. -/
theorem number_toDigits (n : Nat) {c : Char} (hc : digits.decimal c = false) (rest : List Char) :
    number digits (Nat.toDigits 10 n ++ c :: rest) = some (Nat.toDigits 10 n, c :: rest) := by
  have hall : ∀ c' ∈ Nat.toDigits 10 n, digits.decimal c' = true := fun _ h => decimal_toDigits digits h
  have htake : (Nat.toDigits 10 n ++ c :: rest).takeWhile digits.decimal = Nat.toDigits 10 n := by
    rw [List.takeWhile_append_of_pos hall, List.takeWhile_cons_of_neg (by rw [hc]; exact Bool.false_ne_true),
      List.append_nil]
  have hdrop : (Nat.toDigits 10 n ++ c :: rest).dropWhile digits.decimal = c :: rest := by
    rw [List.dropWhile_append_of_pos hall, List.dropWhile_cons_of_neg (by rw [hc]; exact Bool.false_ne_true)]
  rw [number, htake, hdrop, if_neg Nat.toDigits_ne_nil]

theorem span_lineRange (start count : Nat) (rest : List Char) :
    span digits (lineRange start count ++ ' ' :: rest) =
      some ((Nat.toDigits 10 (if count = 0 then start - 1 else start),
        if count = 1 then none else some (Nat.toDigits 10 count)), ' ' :: rest) := by
  have hspace : digits.decimal ' ' = false := digits.decimal_ascii ' ' (by decide)
  have hcomma : digits.decimal ',' = false := digits.decimal_ascii ',' (by decide)
  unfold lineRange span
  by_cases hone : count = 1
  · rw [if_pos hone, if_pos hone, List.append_nil, number_toDigits digits _ hspace]
    rfl
  · rw [if_neg hone, if_neg hone, List.append_assoc, List.cons_append, number_toDigits digits _ hcomma, Option.map_some]
    simp only [number_toDigits digits _ hspace]

theorem literal_append (word : String) (rest : List Char) : literal word (word.toList ++ rest) = some rest := by
  unfold literal
  rw [if_pos (List.isPrefixOf_iff_prefix.2 (List.prefix_append ..)), List.drop_left]

/-- The header of a hunk is read as what it says of the new side. -/
theorem hunkRe_ranges (h : Hunk) (old new : Nat) (rest : List Char) :
    hunkRe digits (h.ranges old new ++ rest) =
      some (if h.added.length = 0 then new + h.skip - 1 else new + h.skip, h.added.length) := by
  have hplus (text : List Char) : " +".toList ++ text = ' ' :: '+' :: text := rfl
  have hend (text : List Char) : " @@".toList ++ text = ' ' :: '@' :: '@' :: text := rfl
  have hcount : ((if h.added.length = 1 then none else some (Nat.toDigits 10 h.added.length)).map digits.int).getD 1 =
      h.added.length := by
    split
    · rename_i hone; rw [hone]; rfl
    · rw [Option.map_some, int_toDigits, Option.getD_some]
  unfold hunkRe Hunk.ranges
  simp only [List.append_assoc, literal_append, Option.bind_eq_bind, Option.bind_some]
  rw [hplus, span_lineRange, Option.bind_some, ← hplus, literal_append, Option.bind_some, hend, span_lineRange,
    Option.bind_some, ← hend, literal_append, Option.bind_some]
  dsimp only
  rw [hcount, int_toDigits]
  rfl

/-! ## Labels -/

theorem isBreak_word {word : List Char} (h : word.all (fun c => !Lines.isBreak c) = true) :
    ∀ c ∈ word, Lines.isBreak c = false := fun c hc => by simpa using List.all_eq_true.1 h c hc

theorem isBreak_of_range {c : Char} (h : 0x20 ≤ c.toNat ∧ c.toNat < 0x7f) : Lines.isBreak c = false := by
  have hne (n : Nat) (hn : n < 0x20 ∨ 0x7f ≤ n) : c.toNat ≠ n := by omega
  simp [Lines.isBreak, hne]

theorem range_of_plainChar {c : Char} (h : plainChar c = true) : 0x20 ≤ c.toNat ∧ c.toNat < 0x7f := by
  simp only [plainChar, Bool.and_eq_true, decide_eq_true_eq] at h
  exact h.1.1

theorem range_of_mem_octal {b : UInt8} {x : Char} (h : x ∈ octal b) : 0x20 ≤ x.toNat ∧ x.toNat < 0x7f := by
  have hdigit : ∀ n < 8, 0x20 ≤ (Nat.digitChar n).toNat ∧ (Nat.digitChar n).toNat < 0x7f := by decide
  have hbyte := b.toNat_lt
  simp only [octal, List.mem_cons, List.not_mem_nil, or_false] at h
  rcases h with rfl | rfl | rfl | rfl
  · decide
  · exact hdigit _ (by omega)
  · exact hdigit _ (by omega)
  · exact hdigit _ (by omega)

/-- Between its quotes git writes visible characters and spaces only. -/
theorem range_of_mem_quoteChar {c x : Char} (h : x ∈ quoteChar c) : 0x20 ≤ x.toNat ∧ x.toNat < 0x7f := by
  unfold quoteChar at h
  split at h
  · rename_i hplain
    rw [List.mem_singleton.1 h]
    exact range_of_plainChar hplain
  · split at h
    all_goals first
      | (obtain ⟨b, -, hx⟩ := List.mem_flatMap.1 h; exact range_of_mem_octal hx)
      | (simp only [List.mem_cons, List.not_mem_nil, or_false] at h; rcases h with rfl | rfl <;> decide)

theorem range_of_mem_quoted {path : String} {x : Char} (h : x ∈ quoted path) : 0x20 ≤ x.toNat ∧ x.toNat < 0x7f := by
  obtain ⟨c, -, hx⟩ := List.mem_flatMap.1 h
  exact range_of_mem_quoteChar hx

theorem range_of_mem_label {side path : String} (hside : ∀ c ∈ side.toList, 0x20 ≤ c.toNat ∧ c.toNat < 0x7f) {x : Char}
    (h : x ∈ label side path) : 0x20 ≤ x.toNat ∧ x.toNat < 0x7f := by
  unfold label at h
  split at h
  · rename_i hplain
    rcases List.mem_append.1 h with h | h
    · exact hside x h
    · exact range_of_plainChar (List.all_eq_true.1 hplain x h)
  · rcases List.mem_append.1 h with h | h
    · rcases List.mem_append.1 h with h | h
      · rcases List.mem_cons.1 h with rfl | h
        · decide
        · exact hside x h
      · exact range_of_mem_quoted h
    · rw [List.mem_singleton.1 h]; decide

theorem isBreak_fileLabel {side : String} (hside : ∀ c ∈ side.toList, 0x20 ≤ c.toNat ∧ c.toNat < 0x7f)
    (path : Option String) : ∀ c ∈ fileLabel side path, Lines.isBreak c = false := by
  intro c hc
  cases path with
  | none => exact isBreak_word (show nullPath.toList.all (fun c => !Lines.isBreak c) = true by decide) c hc
  | some path =>
    rcases List.mem_append.1 hc with hc | hc
    · exact isBreak_of_range (range_of_mem_label hside hc)
    · split at hc
      · rw [List.mem_singleton.1 hc]; decide
      · cases hc

/-! ## The path of a label -/

theorem rdropWhile_cons {p : Char → Bool} {c : Char} (hc : p c = false) (l : List Char) :
    (c :: l).rdropWhile p = c :: l.rdropWhile p :=
  Text.rdropWhile_append_cons hc [] l

theorem strip_cons {c : Char} (hc : Text.isSpace c = false) (l : List Char) :
    Text.strip (String.ofList (c :: l)) = String.ofList (c :: l.rdropWhile Text.isSpace) := by
  rw [Text.strip, String.toList_ofList, List.dropWhile_cons_of_neg (by rw [hc]; exact Bool.false_ne_true),
    rdropWhile_cons hc]

/-- The name under which the reader files a path. -/
def shown (path : String) : String :=
  if path.toList.all plainChar then String.ofList (path.toList.rdropWhile Text.isSpace) else String.ofList (quoted path)

theorem rdropWhile_tab (l : List Char) (p : Prop) [Decidable p] :
    (l ++ if p then ['\t'] else []).rdropWhile Text.isSpace = l.rdropWhile Text.isSpace := by
  split
  · exact List.rdropWhile_concat_pos _ _ _ (by decide)
  · rw [List.append_nil]

theorem toList_newSide : "b/".toList = ['b', '/'] := rfl

/-- A label is stripped of its tab, and of the spaces a path without quotes ends in. -/
theorem strip_fileLabel (path : String) :
    Text.strip (String.ofList (fileLabel "b/" (some path))) =
      if path.toList.all plainChar then String.ofList ('b' :: '/' :: (shown path).toList)
      else String.ofList ('"' :: 'b' :: '/' :: ((shown path).toList ++ ['"'])) := by
  have hb : Text.isSpace 'b' = false := by decide
  have hslash : Text.isSpace '/' = false := by decide
  have hquote : Text.isSpace '"' = false := by decide
  rw [fileLabel, shown]
  unfold label
  rw [toList_newSide]
  split
  · rw [String.toList_ofList, List.append_assoc, List.cons_append, strip_cons hb, List.cons_append,
      rdropWhile_cons hslash, List.nil_append, rdropWhile_tab]
  · rw [String.toList_ofList, List.append_assoc (_ :: _ ++ _), List.append_assoc (_ :: _), List.cons_append,
      List.cons_append, strip_cons hquote, List.cons_append, rdropWhile_cons hb, List.cons_append,
      rdropWhile_cons hslash, List.nil_append, List.cons_append, Text.rdropWhile_append_cons hquote, rdropWhile_tab]
    rfl

/-- What is read from a path behind the new side's letter. -/
theorem read_newSide (path : String) :
    (if String.ofList ('b' :: '/' :: path.toList) = nullPath then none
      else some (if Text.startsWith "b/" (String.ofList ('b' :: '/' :: path.toList)) then
        String.ofList ((String.ofList ('b' :: '/' :: path.toList)).toList.drop 2)
        else String.ofList ('b' :: '/' :: path.toList))) = some path := by
  have hnull : String.ofList ('b' :: '/' :: path.toList) ≠ nullPath := by
    intro h
    have hlist := congrArg String.toList h
    rw [String.toList_ofList] at hlist
    cases hlist
  have hstarts : Text.startsWith "b/" (String.ofList ('b' :: '/' :: path.toList)) = true := by
    rw [Text.startsWith, toList_newSide, String.toList_ofList]
    rfl
  rw [if_neg hnull, if_pos hstarts, String.toList_ofList]
  exact congrArg some (String.ofList_toList ..)

theorem readPath_fileLabel (path : String) :
    readPath ("+++ ".toList ++ fileLabel "b/" (some path)) = some (shown path) := by
  have hdrop (text : List Char) : ("+++ ".toList ++ text).drop 4 = text := rfl
  have hquote : "\"".toList = ['"'] := rfl
  unfold readPath
  rw [hdrop, strip_fileLabel]
  split
  · have hstarts : Text.startsWith "\"" (String.ofList ('b' :: '/' :: (shown path).toList)) = false := by
      rw [Text.startsWith, hquote, String.toList_ofList]
      rfl
    simp only [hstarts, Bool.false_eq_true, false_and, if_false]
    exact read_newSide _
  · have hstarts :
        Text.startsWith "\"" (String.ofList ('"' :: 'b' :: '/' :: ((shown path).toList ++ ['"']))) = true := by
      rw [Text.startsWith, hquote, String.toList_ofList]
      rfl
    have hends : Text.endsWith "\"" (String.ofList ('"' :: 'b' :: '/' :: ((shown path).toList ++ ['"']))) = true := by
      rw [Text.endsWith, hquote, String.toList_ofList]
      exact List.isSuffixOf_iff_suffix.2 (List.suffix_append ('"' :: 'b' :: '/' :: (shown path).toList) ['"'])
    have hinner : ((String.ofList ('"' :: 'b' :: '/' :: ((shown path).toList ++ ['"']))).toList.drop 1).dropLast =
        'b' :: '/' :: (shown path).toList := by
      rw [String.toList_ofList]
      show ('b' :: '/' :: (shown path).toList ++ ['"']).dropLast = _
      exact List.dropLast_concat
    simp only [hstarts, hends, and_self, if_true, hinner]
    exact read_newSide _

/-- A path that git writes as it is, and that does not end in a space. -/
def PlainPath (path : String) : Prop := path.toList.all plainChar = true ∧ path.toList.getLast? ≠ some ' '

theorem eq_space_of_plainChar {c : Char} (hplain : plainChar c = true) (h : Text.isSpace c = true) : c = ' ' := by
  have hrange := range_of_plainChar hplain
  have hmem : c.toNat = 0x20 := by
    simp only [Text.isSpace, List.contains_eq_mem, List.mem_cons, List.not_mem_nil, or_false, decide_eq_true_eq] at h
    omega
  exact Char.toNat_inj.1 hmem

theorem length_octal (b : UInt8) : (octal b).length = 4 := rfl

/-- Every character takes room between quotes, and one that needs them takes more. -/
theorem length_quoteChar (c : Char) : (quoteChar c).length = 1 ∧ plainChar c = true ∨ 1 < (quoteChar c).length := by
  unfold quoteChar
  split
  · rename_i hplain; exact .inl ⟨rfl, hplain⟩
  · right
    split
    all_goals first
      | exact Nat.one_lt_two
      | (obtain ⟨b, rest, heq⟩ := List.exists_cons_of_ne_nil (String.utf8EncodeChar_ne_nil (c := c))
         rw [heq, List.flatMap_cons, List.length_append, length_octal]
         omega)

theorem length_quoted (l : List Char) :
    l.length ≤ (l.flatMap quoteChar).length ∧
      (l.all plainChar = false → l.length < (l.flatMap quoteChar).length) := by
  induction l with
  | nil => exact ⟨le_rfl, fun h => by cases h⟩
  | cons c l ih =>
    obtain ⟨hle, hlt⟩ := ih
    rw [List.flatMap_cons, List.length_append, List.length_cons, List.all_cons]
    rcases length_quoteChar c with ⟨hone, hplain⟩ | hmore
    · refine ⟨by omega, fun hall => ?_⟩
      rw [hplain, Bool.true_and] at hall
      have := hlt hall
      omega
    · exact ⟨by omega, fun _ => by omega⟩

/-- The reader files a path under its own name exactly if it is plain. -/
theorem shown_eq_iff (path : String) : shown path = path ↔ PlainPath path := by
  unfold shown PlainPath
  by_cases hall : path.toList.all plainChar = true
  · rw [if_pos hall, ← String.toList_inj, String.toList_ofList, List.rdropWhile_eq_self_iff]
    have hlast (hne : path.toList ≠ []) :
        Text.isSpace (path.toList.getLast hne) = true ↔ path.toList.getLast? = some ' ' := by
      have hplain := List.all_eq_true.1 hall _ (List.getLast_mem hne)
      rw [List.getLast?_eq_some_getLast hne, Option.some.injEq]
      exact ⟨eq_space_of_plainChar hplain, fun heq => by rw [heq]; decide⟩
    constructor
    · intro h
      refine ⟨hall, fun hspace => ?_⟩
      have hne : path.toList ≠ [] := by rintro hnil; rw [hnil] at hspace; cases hspace
      exact h hne ((hlast hne).2 hspace)
    · rintro ⟨-, hspace⟩ hne h
      exact hspace ((hlast hne).1 h)
  · rw [if_neg hall]
    constructor
    · intro h
      have hlist := congrArg (fun s => s.toList.length) h
      rw [String.toList_ofList] at hlist
      have := (length_quoted path.toList).2 (Bool.eq_false_iff.2 hall)
      exact absurd hlist (by rw [quoted]; omega)
    · rintro ⟨h, -⟩
      exact absurd h hall

end OpenFish.Findings
