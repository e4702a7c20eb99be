/-
The text operations of Python's `str` that the modelled code uses, over the characters of a string,
with the facts about them that later proofs rest on.
-/
import Mathlib.Data.List.DropRight
import Mathlib.Data.List.Infix
import Mathlib.Tactic.Common

namespace Lib.Text

/-- `str.isspace` of one character: the Unicode white space Python's `strip` removes. -/
def isSpace (c : Char) : Bool :=
  [0x09, 0x0a, 0x0b, 0x0c, 0x0d, 0x1c, 0x1d, 0x1e, 0x1f, 0x20, 0x85, 0xa0, 0x1680, 0x2000, 0x2001, 0x2002,
    0x2003, 0x2004, 0x2005, 0x2006, 0x2007, 0x2008, 0x2009, 0x200a, 0x2028, 0x2029, 0x202f, 0x205f,
    0x3000].contains c.toNat

/-- `s.strip()`. -/
def strip (s : String) : String := String.ofList ((s.toList.dropWhile isSpace).rdropWhile isSpace)

theorem dropWhile_rdropWhile (p : Char → Bool) (l : List Char) :
    ((l.dropWhile p).rdropWhile p).dropWhile p = (l.dropWhile p).rdropWhile p := by
  rw [List.dropWhile_eq_self_iff]
  intro hlen
  have hpre := List.rdropWhile_prefix p (l.dropWhile p)
  have hlen' : 0 < (l.dropWhile p).length := Nat.lt_of_lt_of_le hlen hpre.length_le
  rw [hpre.getElem hlen]
  exact List.dropWhile_get_zero_not p l hlen'

@[simp] theorem strip_strip (s : String) : strip (strip s) = strip s := by
  unfold strip
  rw [String.toList_ofList, dropWhile_rdropWhile, List.rdropWhile_idempotent]

theorem head?_of_dropWhile {p : Char → Bool} {l : List Char} (h : l.dropWhile p = l) : l.head?.any p = false := by
  cases l with
  | nil => rfl
  | cons c rest =>
    have hhead := List.dropWhile_eq_self_iff.1 h (Nat.succ_pos _)
    simpa using hhead

theorem head?_strip (s : String) : (strip s).toList.head?.any isSpace = false := by
  rw [strip, String.toList_ofList]
  exact head?_of_dropWhile (dropWhile_rdropWhile _ _)

theorem getLast?_strip (s : String) : (strip s).toList.getLast?.any isSpace = false := by
  rw [strip, String.toList_ofList]
  by_cases hnil : (s.toList.dropWhile isSpace).rdropWhile isSpace = []
  · rw [hnil]
    rfl
  · rw [List.getLast?_eq_some_getLast hnil]
    simpa using List.rdropWhile_last_not isSpace _ hnil

theorem count_dropWhile {p : Char → Bool} {c : Char} (h : p c = false) (l : List Char) :
    (l.dropWhile p).count c = l.count c := by
  have hnone : (l.takeWhile p).count c = 0 :=
    List.count_eq_zero.2 fun hmem => absurd (List.mem_takeWhile_imp hmem) (by rw [h]; exact Bool.false_ne_true)
  conv_rhs => rw [← List.takeWhile_append_dropWhile (p := p) (l := l), List.count_append, hnone, Nat.zero_add]

/-- Stripping keeps every character that is not white space. -/
theorem count_strip {c : Char} (h : isSpace c = false) (s : String) : (strip s).toList.count c = s.toList.count c := by
  rw [strip, String.toList_ofList, List.rdropWhile, List.count_reverse, count_dropWhile h, List.count_reverse,
    count_dropWhile h]

/-- `s[:n]`. -/
def clip (n : Nat) (s : String) : String := String.ofList (s.toList.take n)

/-- `s.lower()` for comparison with ASCII words: beside the ASCII capitals only the Kelvin sign has an
ASCII letter as its lower case. -/
def lower (s : String) : String :=
  String.ofList (s.toList.map fun c => if c.toNat = 0x212a then 'k' else c.toLower)

/-- The upper case of one character, for comparison with ASCII words: all the characters whose upper
case has an ASCII letter. -/
def upperChar (c : Char) : List Char :=
  match c.toNat with
  | 0x00df => ['S', 'S']
  | 0x0131 => ['I']
  | 0x0149 => ['\u02bc', 'N']
  | 0x017f => ['S']
  | 0x01f0 => ['J', '\u030c']
  | 0x1e96 => ['H', '\u0331']
  | 0x1e97 => ['T', '\u0308']
  | 0x1e98 => ['W', '\u030a']
  | 0x1e99 => ['Y', '\u030a']
  | 0x1e9a => ['A', '\u02be']
  | 0xfb00 => ['F', 'F']
  | 0xfb01 => ['F', 'I']
  | 0xfb02 => ['F', 'L']
  | 0xfb03 => ['F', 'F', 'I']
  | 0xfb04 => ['F', 'F', 'L']
  | 0xfb05 => ['S', 'T']
  | 0xfb06 => ['S', 'T']
  | _ => [c.toUpper]

/-- `s.upper()`. -/
def upper (s : String) : String := String.ofList (s.toList.flatMap upperChar)

/-- A string that is empty or only white space. -/
def blank (s : String) : Bool := strip s == ""

/-- `s.startswith(head)`. -/
def startsWith (head s : String) : Bool := head.toList.isPrefixOf s.toList

/-- `s.endswith(suffix)`. -/
def endsWith (suffix s : String) : Bool := suffix.toList.isSuffixOf s.toList

/-- `s.replace(a, b)` of one character. -/
def replaceChar (a b : Char) (s : String) : String := String.ofList (s.toList.map fun c => if c = a then b else c)

/-- `s.replace(c, "")` of one character. -/
def removeChar (c : Char) (s : String) : String := String.ofList (s.toList.filter (· ≠ c))

/-- `s.rstrip(c)` of one character. -/
def rstrip (c : Char) (s : String) : String := String.ofList (s.toList.rdropWhile (· = c))

/-- `s.rsplit(c, 1)[-1]`. -/
def afterLast (c : Char) (s : String) : String := String.ofList (s.toList.rtakeWhile (· ≠ c))

/-- `s.rpartition(c)`, without the separator. -/
def rpartition (c : Char) (s : String) : String × String :=
  (String.ofList (s.toList.rdropWhile (· ≠ c)).dropLast, afterLast c s)

/-- `s.split(c)`. -/
def split (c : Char) (s : String) : List String := (s.toList.splitOn c).map String.ofList

/-- `sub in s`. -/
def contains (sub s : String) : Bool := s.toList.tails.any fun t => sub.toList.isPrefixOf t

/-- `s.partition(c)`: what stands before the first `c`, and what stands after it, if there is one. -/
def partition (c : Char) (s : String) : String × Option String :=
  match s.toList.dropWhile (· ≠ c) with
  | [] => (s, none)
  | _ :: rest => (String.ofList (s.toList.takeWhile (· ≠ c)), some (String.ofList rest))

/-- `s.lstrip(cs)`: the characters are stripped one by one, whatever their order. -/
def lstrip (cs : List Char) (s : String) : String := String.ofList (s.toList.dropWhile (· ∈ cs))

/-- Stripping leads to `s'` exactly if `s` is `s'` after stripped characters, and none is left. -/
theorem lstrip_eq_iff {cs : List Char} {s s' : String} :
    lstrip cs s = s' ↔
      (∃ lead, (∀ c ∈ lead, c ∈ cs) ∧ s.toList = lead ++ s'.toList) ∧ ∀ c ∈ s'.toList.head?, c ∉ cs := by
  have hdrop : lstrip cs s = s' ↔ s.toList.dropWhile (· ∈ cs) = s'.toList := by
    unfold lstrip
    constructor
    · rintro rfl; rw [String.toList_ofList]
    · intro h; rw [h, String.ofList_toList]
  rw [hdrop]
  constructor
  · intro h
    refine ⟨⟨s.toList.takeWhile (· ∈ cs), fun c hc => by simpa using List.mem_takeWhile_imp hc, ?_⟩, fun c hc => ?_⟩
    · rw [← h, List.takeWhile_append_dropWhile]
    · have hnot := List.head?_dropWhile_not (· ∈ cs) s.toList
      rw [h, hc] at hnot
      simpa using hnot
  · rintro ⟨⟨lead, hlead, hs⟩, hhead⟩
    rw [hs, List.dropWhile_append_of_pos (by simpa using hlead)]
    cases hs' : s'.toList with
    | nil => rfl
    | cons c rest =>
      rw [List.dropWhile_cons_of_neg]
      simpa using hhead c (by rw [hs']; rfl)

theorem startsWith_singleton {c : Char} {s : String} :
    startsWith (String.singleton c) s = true ↔ s.toList.head? = some c := by
  unfold startsWith
  rw [String.toList_singleton, List.isPrefixOf_iff_prefix, List.singleton_prefix_iff_head?_eq_some]

theorem replaceChar_of_not_mem {a b : Char} {s : String} (h : a ∉ s.toList) : replaceChar a b s = s := by
  unfold replaceChar
  have : s.toList.map (fun c => if c = a then b else c) = s.toList :=
    (List.map_congr_left fun c hc => if_neg fun heq => h (by rw [← heq]; exact hc)).trans (List.map_id' _)
  rw [this, String.ofList_toList]

theorem removeChar_of_not_mem {c : Char} {s : String} (h : c ∉ s.toList) : removeChar c s = s := by
  unfold removeChar
  rw [List.filter_eq_self.2 fun c' hc' => by simpa using fun heq : c' = c => h (heq ▸ hc'), String.ofList_toList]

theorem upper_of_forall {s : String} (h : ∀ c ∈ s.toList, upperChar c = [c]) : upper s = s := by
  unfold upper
  have : s.toList.flatMap upperChar = s.toList := by
    rw [List.flatMap_congr h, List.flatMap_singleton']
  rw [this, String.ofList_toList]

theorem strip_of_forall {s : String} (h : ∀ c ∈ s.toList, isSpace c = false) : strip s = s := by
  have hfront : s.toList.dropWhile isSpace = s.toList := by
    rw [List.dropWhile_eq_self_iff]
    intro hlen
    simp [h _ (List.getElem_mem hlen)]
  have hback : s.toList.rdropWhile isSpace = s.toList := by
    rw [List.rdropWhile_eq_self_iff]
    intro hne
    simp [h _ (List.getLast_mem hne)]
  rw [strip, hfront, hback, String.ofList_toList]

/-- A text without white space at its ends is left as it is. -/
theorem strip_of_ends {s : String} (hhead : s.toList.head?.any isSpace = false)
    (hlast : s.toList.getLast?.any isSpace = false) : strip s = s := by
  have hfront : s.toList.dropWhile isSpace = s.toList := by
    cases hs : s.toList with
    | nil => rfl
    | cons c rest =>
      rw [hs] at hhead
      rw [List.dropWhile_cons_of_neg (by simpa using hhead)]
  have hback : s.toList.rdropWhile isSpace = s.toList := by
    rw [List.rdropWhile_eq_self_iff]
    intro hne
    rw [List.getLast?_eq_some_getLast hne] at hlast
    simpa using hlast
  rw [strip, hfront, hback, String.ofList_toList]

theorem rpartition_append {c : Char} {tail : String} (h : c ∉ tail.toList) (head : String) :
    rpartition c (head ++ String.singleton c ++ tail) = (head, tail) := by
  have hkept : ∀ x ∈ tail.toList, decide (x ≠ c) = true := fun x hx => decide_eq_true fun heq => h (heq ▸ hx)
  have hdrop : (head.toList ++ [c] ++ tail.toList).rdropWhile (· ≠ c) = head.toList ++ [c] := by
    rw [List.rdropWhile, List.reverse_append, List.dropWhile_append_of_pos fun x hx => hkept x (List.mem_reverse.1 hx)]
    simp
  have htake : (head.toList ++ [c] ++ tail.toList).rtakeWhile (· ≠ c) = tail.toList := by
    rw [List.rtakeWhile, List.reverse_append, List.takeWhile_append_of_pos fun x hx => hkept x (List.mem_reverse.1 hx)]
    simp
  rw [rpartition, afterLast, String.toList_append, String.toList_append, String.toList_singleton, hdrop, htake]
  simp

theorem range_of_isDigit {c : Char} (h : c.isDigit = true) : 48 ≤ c.toNat ∧ c.toNat ≤ 57 := by
  rw [Char.isDigit, Bool.and_eq_true, decide_eq_true_eq, decide_eq_true_eq] at h
  exact ⟨UInt32.le_iff_toNat_le.1 h.1, UInt32.le_iff_toNat_le.1 h.2⟩

theorem isSpace_of_isDigit {c : Char} (h : c.isDigit = true) : isSpace c = false := by
  have hrange := range_of_isDigit h
  have hne (n : ℕ) (hn : n < 48 ∨ 57 < n) : c.toNat ≠ n := by omega
  simp [isSpace, hne]

theorem isDigit_of_mem_toString {n : ℕ} {c : Char} (h : c ∈ (toString n).toList) : c.isDigit = true := by
  rw [Nat.toString_eq_repr, Nat.toList_repr] at h
  exact Nat.isDigit_of_mem_toDigits (by omega) (by omega) h

/-- The name of an id has no white space around it. -/
theorem strip_toString (n : ℕ) : strip (toString n) = toString n :=
  strip_of_forall fun _ hc => isSpace_of_isDigit (isDigit_of_mem_toString hc)

theorem split_ne_nil (c : Char) (s : String) : split c s ≠ [] := by
  simp [split, List.splitOn_ne_nil c s.toList]

/-- A separator in front leaves an empty first part. -/
theorem mem_split_of_head {c : Char} {s : String} (h : s.toList.head? = some c) : "" ∈ split c s := by
  obtain ⟨rest, hs⟩ := List.head?_eq_some_iff.1 h
  have hsplit := List.splitOn_append_cons_self_of_not_mem (List.not_mem_nil (a := c)) rest
  rw [List.nil_append] at hsplit
  rw [split, hs, hsplit]
  exact List.mem_cons_self ..

theorem intercalate_split (c : Char) (s : String) : String.intercalate (String.singleton c) (split c s) = s := by
  rw [← String.toList_inj, String.toList_intercalate, split, List.map_map]
  have : String.toList ∘ String.ofList = id := funext fun l => String.toList_ofList
  rw [this, List.map_id, String.toList_singleton, List.intercalate_splitOn]

/-! ## Texts inside texts -/

theorem contains_of_infix {sub s : String} (h : sub.toList <:+: s.toList) : contains sub s = true := by
  obtain ⟨head, tail, heq⟩ := h
  refine List.any_eq_true.2 ⟨sub.toList ++ tail, ?_, ?_⟩
  · rw [List.mem_tails, ← heq, List.append_assoc]
    exact List.suffix_append _ _
  · exact List.isPrefixOf_iff_prefix.2 (List.prefix_append _ _)

theorem not_contains_of_not_mem {sub s : String} {c : Char} (hsub : c ∈ sub.toList) (h : c ∉ s.toList) :
    contains sub s = false := by
  refine List.any_eq_false.2 fun t ht hprefix => h ?_
  rw [List.mem_tails] at ht
  exact ht.subset ((List.isPrefixOf_iff_prefix.1 hprefix).subset hsub)

theorem infix_intercalate (sep : List Char) {word : List Char} {words : List (List Char)} (h : word ∈ words) :
    word <:+: List.intercalate sep words := by
  induction words with
  | nil => exact absurd h List.not_mem_nil
  | cons first rest ih =>
    rcases rest with _ | ⟨second, rest⟩
    · rw [List.mem_singleton.1 h, List.intercalate_singleton]
    · rw [List.intercalate_cons_cons, List.append_assoc]
      rcases List.mem_cons.1 h with rfl | h
      · exact (List.prefix_append _ _).isInfix
      · exact (ih h).trans ((List.suffix_append _ _).trans (List.suffix_append _ _)).isInfix

/-- A text whose characters are all lower case is found in the lower case of what it is found in. -/
theorem contains_lower {sub s : String} (hsub : lower sub = sub) (h : sub.toList <:+: s.toList) :
    contains sub (lower s) = true := by
  apply contains_of_infix
  rw [← hsub, lower, lower, String.toList_ofList, String.toList_ofList]
  exact h.map _

/-! ## The first occurrence of a text -/

/-- `s.partition(pat)`: what stands before the first `pat` and what stands after it. -/
def splitFirst (pat : List Char) : List Char → Option (List Char × List Char)
  | [] => none
  | c :: l =>
    if pat.isPrefixOf (c :: l) then some ([], (c :: l).drop pat.length)
    else (splitFirst pat l).map fun found => (c :: found.1, found.2)

/-- A text without `pat`, closed by a character that `pat` does not have, is read up to the `pat` that
follows: no occurrence can straddle that character. -/
theorem splitFirst_guarded {pat body rest : List Char} {guard : Char} (hne : pat ≠ []) (hguard : guard ∉ pat)
    (hbody : ¬ pat <:+: body) : splitFirst pat (body ++ guard :: (pat ++ rest)) = some (body ++ [guard], rest) := by
  have hstraddle (l : List Char) (hl : ¬ pat <:+: l) : ¬ pat <+: l ++ guard :: (pat ++ rest) := by
    intro hpre
    rw [List.append_cons] at hpre
    rcases Nat.lt_or_ge l.length pat.length with hlt | hge
    · have hlen : (l ++ [guard]).length ≤ pat.length := by
        rw [List.length_append, List.length_singleton]; omega
      have hsub := List.prefix_of_prefix_length_le (List.prefix_append (l ++ [guard]) _) hpre hlen
      exact hguard (hsub.subset (List.mem_append_right _ (List.mem_singleton_self guard)))
    · rw [List.append_assoc] at hpre
      exact hl (List.prefix_of_prefix_length_le hpre (List.prefix_append ..) hge).isInfix
  induction body with
  | nil =>
    have hat : pat.isPrefixOf (pat ++ rest) = true := List.isPrefixOf_iff_prefix.2 (List.prefix_append ..)
    have hnot : ¬ pat.isPrefixOf (guard :: (pat ++ rest)) = true := by
      rw [List.isPrefixOf_iff_prefix]
      exact hstraddle [] hbody
    rw [List.nil_append, splitFirst, if_neg hnot]
    cases hsplit : pat ++ rest with
    | nil => exact absurd (List.append_eq_nil_iff.1 hsplit).1 hne
    | cons c l =>
      rw [splitFirst, ← hsplit, if_pos hat, List.drop_left]
      rfl
  | cons c body ih =>
    have hnot : ¬ pat.isPrefixOf (c :: (body ++ guard :: (pat ++ rest))) = true := by
      rw [List.isPrefixOf_iff_prefix]
      exact hstraddle (c :: body) hbody
    rw [List.cons_append, splitFirst, if_neg hnot, ih fun h => hbody (h.trans (List.suffix_cons ..).isInfix)]
    rfl

/-- A character is read up to where it first stands. -/
theorem splitFirst_singleton {c : Char} {body rest : List Char} (hbody : c ∉ body) :
    splitFirst [c] (body ++ c :: rest) = some (body, rest) := by
  induction body with
  | nil => simp [splitFirst, List.isPrefixOf]
  | cons b body ih =>
    have hb : c ≠ b := fun h => hbody (h ▸ List.mem_cons_self ..)
    rw [List.cons_append, splitFirst, if_neg (by simp [List.isPrefixOf, hb]),
      ih fun h => hbody (List.mem_cons_of_mem _ h)]
    rfl

/-! ## What stands before a character -/

theorem partition_of_not_mem {c : Char} {s : String} (h : c ∉ s.toList) : partition c s = (s, none) := by
  have hdrop : s.toList.dropWhile (· ≠ c) = [] := by
    rw [List.dropWhile_eq_nil_iff]
    intro x hx
    exact decide_eq_true fun heq => h (heq ▸ hx)
  rw [partition, hdrop]

theorem partition_append {c : Char} {head : String} (h : c ∉ head.toList) (tail : String) :
    partition c (head ++ String.singleton c ++ tail) = (head, some tail) := by
  have hkept (x : Char) (hx : x ∈ head.toList) : decide (x ≠ c) = true := decide_eq_true fun heq => h (heq ▸ hx)
  have hdrop : (head.toList ++ [c] ++ tail.toList).dropWhile (· ≠ c) = c :: tail.toList := by
    rw [List.append_assoc, List.dropWhile_append_of_pos hkept]
    simp
  have htake : (head.toList ++ [c] ++ tail.toList).takeWhile (· ≠ c) = head.toList := by
    rw [List.append_assoc, List.takeWhile_append_of_pos hkept]
    simp
  rw [partition, String.toList_append, String.toList_append, String.toList_singleton, hdrop, htake]
  simp

/-- A text is what stands before the first `c`, or that, `c` and the rest. -/
theorem partition_cases (c : Char) (s : String) :
    (c ∉ s.toList ∧ partition c s = (s, none)) ∨
      ∃ head tail, c ∉ head.toList ∧ s = head ++ String.singleton c ++ tail ∧ partition c s = (head, some tail) := by
  by_cases hmem : c ∈ s.toList
  · right
    obtain ⟨head, tail, heq, hnot⟩ := List.eq_append_cons_of_mem hmem
    have hs : s = String.ofList head ++ String.singleton c ++ String.ofList tail := by
      rw [← String.toList_inj]
      simp [heq]
    have hhead : c ∉ (String.ofList head).toList := by rwa [String.toList_ofList]
    exact ⟨_, _, hhead, hs, by rw [hs, partition_append hhead]⟩
  · exact .inl ⟨hmem, partition_of_not_mem hmem⟩

theorem partition_fst_subset (c : Char) (s : String) : (partition c s).1.toList ⊆ s.toList := by
  obtain ⟨-, h⟩ | ⟨head, tail, -, hs, h⟩ := partition_cases c s
  · rw [h]; exact List.Subset.refl _
  · rw [h, hs, String.toList_append, String.toList_append, List.append_assoc]
    exact List.subset_append_left _ _

theorem not_mem_partition_fst (c : Char) (s : String) : c ∉ (partition c s).1.toList := by
  obtain ⟨hnot, h⟩ | ⟨head, tail, hhead, -, h⟩ := partition_cases c s
  · rwa [h]
  · rwa [h]

theorem not_mem_afterLast (c : Char) (s : String) : c ∉ (afterLast c s).toList := by
  rw [afterLast, String.toList_ofList]
  intro hmem
  simpa using List.mem_rtakeWhile_imp hmem

theorem afterLast_subset (c : Char) (s : String) : (afterLast c s).toList ⊆ s.toList := by
  rw [afterLast, String.toList_ofList]
  exact (List.rtakeWhile_suffix _ _).subset

theorem afterLast_of_not_mem {c : Char} {s : String} (h : c ∉ s.toList) : afterLast c s = s := by
  have hall : s.toList.rtakeWhile (· ≠ c) = s.toList := by
    rw [List.rtakeWhile_eq_self_iff]
    intro x hx
    exact decide_eq_true fun heq => h (heq ▸ hx)
  rw [afterLast, hall, String.ofList_toList]

theorem split_intercalate {c : Char} {parts : List String} (h : ∀ p ∈ parts, c ∉ p.toList) (hne : parts ≠ []) :
    split c (String.intercalate (String.singleton c) parts) = parts := by
  rw [split, String.toList_intercalate, String.toList_singleton, List.splitOn_intercalate, List.map_map]
  · have : String.ofList ∘ String.toList = id := funext fun s => String.ofList_toList
    rw [this, List.map_id]
  · intro l hl
    obtain ⟨p, hp, rfl⟩ := List.mem_map.1 hl
    exact h p hp
  · simpa using hne

/-! ## Texts between two separators -/

theorem intercalate_append_cons (sep first : List Char) (before : List (List Char)) (word : List Char)
    (rest : List (List Char)) :
    List.intercalate sep (first :: (before ++ word :: rest)) =
      List.intercalate sep (first :: before) ++ (sep ++ List.intercalate sep (word :: rest)) := by
  induction before generalizing first with
  | nil => rw [List.nil_append, List.intercalate_cons_cons, List.intercalate_singleton, List.append_assoc]
  | cons second before ih =>
    rw [List.cons_append, List.intercalate_cons_cons, List.intercalate_cons_cons, ih]
    simp only [List.append_assoc]

/-- A text between two `q` is one of the inner parts that `q` separates. -/
theorem between_infix_iff {q : Char} {w : List Char} (hw : q ∉ w) (text : List Char) :
    q :: (w ++ [q]) <:+: text ↔ w ∈ (text.splitOn q).tail.dropLast := by
  constructor
  · rintro ⟨head, tail, rfl⟩
    have htext : head ++ q :: (w ++ [q]) ++ tail = head ++ q :: (w ++ q :: tail) := by simp
    obtain ⟨first, rest, hfirst⟩ := List.exists_cons_of_ne_nil (List.splitOn_ne_nil q head)
    obtain ⟨next, last, hnext⟩ := List.exists_cons_of_ne_nil (List.splitOn_ne_nil q tail)
    rw [htext, List.splitOn_append_cons_self, List.splitOn_append_cons_self_of_not_mem hw, hfirst, hnext, List.cons_append,
      List.tail_cons, List.dropLast_append_of_ne_nil (by simp), List.dropLast_cons_cons]
    exact List.mem_append_right _ (List.mem_cons_self ..)
  · intro hmem
    obtain ⟨first, rest, hfirst⟩ := List.exists_cons_of_ne_nil (List.splitOn_ne_nil q text)
    rw [hfirst, List.tail_cons] at hmem
    rcases List.eq_nil_or_concat rest with rfl | ⟨front, last, rfl⟩
    · cases hmem
    · rw [List.concat_eq_append, List.dropLast_concat] at hmem
      obtain ⟨before, after, rfl⟩ := List.append_of_mem hmem
      have hnext : List.intercalate [q] (w :: (after ++ [last])) = w ++ ([q] ++ List.intercalate [q] (after ++ [last])) := by
        rw [List.intercalate_cons_of_ne_nil (by simp), List.append_assoc]
      have htext : List.intercalate [q] (text.splitOn q) = text := List.intercalate_splitOn q
      rw [hfirst, List.concat_eq_append, List.append_assoc, List.cons_append, intercalate_append_cons, hnext] at htext
      refine ⟨List.intercalate [q] (first :: before), List.intercalate [q] (after ++ [last]), ?_⟩
      rw [← htext]
      simp

/-! ## Stripping around a character that is kept -/

theorem dropWhile_append_cons {p : Char → Bool} {c : Char} (hc : p c = false) (front l : List Char) :
    (front ++ c :: l).dropWhile p = front.dropWhile p ++ c :: l := by
  rw [List.dropWhile_append]
  split
  · rename_i hempty
    rw [List.isEmpty_iff.1 hempty, List.dropWhile_cons_of_neg (by rw [hc]; exact Bool.false_ne_true), List.nil_append]
  · rfl

theorem rdropWhile_append_cons {p : Char → Bool} {c : Char} (hc : p c = false) (front l : List Char) :
    (front ++ c :: l).rdropWhile p = front ++ c :: l.rdropWhile p := by
  have hrev : (front ++ c :: l).reverse = l.reverse ++ c :: front.reverse := by simp
  rw [List.rdropWhile, hrev, dropWhile_append_cons hc]
  simp [List.rdropWhile]

theorem strip_append_cons {c : Char} (hc : isSpace c = false) (front l : List Char) :
    strip (String.ofList (front ++ c :: l)) = String.ofList (front.dropWhile isSpace ++ c :: l.rdropWhile isSpace) := by
  rw [strip, String.toList_ofList, dropWhile_append_cons hc, rdropWhile_append_cons hc]

theorem strip_dropWhile (l : List Char) : strip (String.ofList (l.dropWhile isSpace)) = strip (String.ofList l) := by
  rw [strip, strip, String.toList_ofList, String.toList_ofList, List.dropWhile_idempotent]

theorem strip_rdropWhile (l : List Char) : strip (String.ofList (l.rdropWhile isSpace)) = strip (String.ofList l) := by
  have hspaces : ∀ c ∈ l.rtakeWhile isSpace, isSpace c = true := fun c hc => List.mem_rtakeWhile_imp hc
  have hnil : (l.rtakeWhile isSpace).dropWhile isSpace = [] := List.dropWhile_eq_nil_iff.2 hspaces
  have hdrop : ∀ front : List Char, (front ++ l.rtakeWhile isSpace).rdropWhile isSpace = front.rdropWhile isSpace := by
    intro front
    rw [List.rdropWhile, List.reverse_append, List.dropWhile_append_of_pos fun c hc => hspaces c (List.mem_reverse.1 hc),
      List.rdropWhile]
  rw [strip, strip, String.toList_ofList, String.toList_ofList]
  conv_rhs => rw [← List.rdropWhile_append_rtakeWhile (p := isSpace) (l := l), List.dropWhile_append]
  split
  · rename_i hempty
    rw [List.isEmpty_iff.1 hempty, hnil]
  · rw [hdrop]

theorem mem_strip {c : Char} (hc : isSpace c = false) (s : String) : c ∈ (strip s).toList ↔ c ∈ s.toList := by
  rw [← List.count_pos_iff, count_strip hc, List.count_pos_iff]

end Lib.Text
