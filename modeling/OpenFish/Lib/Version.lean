/-
PEP 440 versions: the values that version texts denote. Texts of one value differ in case, in separators, in how the
phases are spelled and in trailing zeros of the release.
-/
import Mathlib.Data.List.DropRight
import Mathlib.Tactic.Common

namespace Lib

inductive Phase
  | alpha
  | beta
  | candidate
  deriving DecidableEq, Repr

structure Version where
  epoch : Nat
  /-- Without trailing zeros. -/
  release : List Nat
  pre : Option (Phase × Nat)
  post : Option Nat
  dev : Option Nat
  localLabel : Option (List (Nat ⊕ String))
  deriving DecidableEq, Repr

namespace Version

/-! ## Reading -/

def number (digits : List Char) : Nat := digits.foldl (fun n c => 10 * n + (c.toNat - '0'.toNat)) 0

def separator (c : Char) : Bool := c = '-' ∨ c = '_' ∨ c = '.'

/-- `[-_.]?` -/
def skipSeparator : List Char → List Char
  | [] => []
  | c :: cs => if separator c then cs else c :: cs

/-- `[-_.]?(word)[-_.]?([0-9]+)?`, where no number is zero. -/
def marked {α : Type} (words : List (String × α)) (cs : List Char) : Option ((α × Nat) × List Char) :=
  (words.findSome? fun w => (w.1.toList.isPrefixOf? (skipSeparator cs)).map fun rest => (w.2, skipSeparator rest)).map
    fun found => ((found.1, number (found.2.takeWhile Char.isDigit)), found.2.dropWhile Char.isDigit)

/-- What further numbers a release has, each after a dot. -/
def furtherNumbers : Nat → List Char → List Nat × List Char
  | n + 1, '.' :: cs =>
    if cs.takeWhile Char.isDigit = [] then ([], '.' :: cs)
    else
      let further := furtherNumbers n (cs.dropWhile Char.isDigit)
      (number (cs.takeWhile Char.isDigit) :: further.1, further.2)
  | _, cs => ([], cs)

def phases : List (String × Phase) :=
  [("alpha", .alpha), ("a", .alpha), ("beta", .beta), ("b", .beta), ("preview", .candidate), ("pre", .candidate),
    ("c", .candidate), ("rc", .candidate)]

def postWords : List (String × Unit) := [("post", ()), ("rev", ()), ("r", ())]

/-- `-[0-9]+` without a word, or one of the words. -/
def postRelease (cs : List Char) : Option (Nat × List Char) :=
  if cs.head? = some '-' ∧ cs.tail.takeWhile Char.isDigit ≠ [] then
    some (number (cs.tail.takeWhile Char.isDigit), cs.tail.dropWhile Char.isDigit)
  else (marked postWords cs).map fun found => (found.1.2, found.2)

/-- What stands in front, if it does. -/
def optionally {α : Type} (read : List Char → Option (α × List Char)) (cs : List Char) : Option α × List Char :=
  match read cs with
  | some found => (some found.1, found.2)
  | none => (none, cs)

def publicChar (c : Char) : Bool := c.isAlphanum || separator c

/-- The version without epoch and local label. -/
def parsePublic (cs : List Char) : Option Version :=
  if cs.all publicChar ∧ cs.takeWhile Char.isDigit ≠ [] then
    let rest := (cs.dropWhile Char.isDigit).map Char.toLower
    let further := furtherNumbers rest.length rest
    let pre := optionally (marked phases) further.2
    let post := optionally postRelease pre.2
    let dev := optionally (marked [("dev", ())]) post.2
    if dev.2 = [] then
      some
        { epoch := 0
          release := (number (cs.takeWhile Char.isDigit) :: further.1).rdropWhile (· = 0)
          pre := pre.1
          post := post.1
          dev := dev.1.map Prod.snd
          localLabel := none }
    else none
  else none

/-- `[0-9]+!`: without it the epoch is zero. -/
def parseEpoch (cs : List Char) : Option (Nat × List Char) :=
  match cs.dropWhile (· ≠ '!') with
  | [] => some (0, cs)
  | _ :: rest =>
    if cs.takeWhile (· ≠ '!') ≠ [] ∧ (cs.takeWhile (· ≠ '!')).all Char.isDigit then
      some (number (cs.takeWhile (· ≠ '!')), rest)
    else none

/-- A part of a local label; one of digits is a number. -/
def segment (cs : List Char) : Nat ⊕ String :=
  if cs.all Char.isDigit then .inl (number cs) else .inr (String.ofList (cs.map Char.toLower))

/-- What follows the public version: nothing, or `+` and the label. -/
def parseLabel : List Char → Option (Option (List (Nat ⊕ String)))
  | [] => some none
  | _ :: cs =>
    if (cs.splitOnP separator).all fun part => !part.isEmpty && part.all Char.isAlphanum then
      some (some ((cs.splitOnP separator).map segment))
    else none

/-- `v?` -/
def skipV : List Char → List Char
  | [] => []
  | c :: cs => if c = 'v' ∨ c = 'V' then cs else c :: cs

def parse (text : List Char) : Option Version :=
  match parseEpoch ((skipV text).takeWhile (· ≠ '+')), parseLabel ((skipV text).dropWhile (· ≠ '+')) with
  | some (epoch, rest), some localLabel => (parsePublic rest).map fun v => { v with epoch, localLabel }
  | _, _ => none

example : parse "1.0-RC.1".toList = parse "v1c1".toList := by decide +kernel

example : parse "1!2.0.post1.dev3+ubuntu.1".toList =
    some ⟨1, [2], none, some 1, some 3, some [.inr "ubuntu", .inl 1]⟩ := by decide +kernel

/-! ## What texts denote -/

theorem takeWhile_append_digits {zeros : List Char} (h : zeros.all Char.isDigit = true) (cs : List Char) :
    (zeros ++ cs).takeWhile Char.isDigit = zeros ++ cs.takeWhile Char.isDigit ∧
      (zeros ++ cs).dropWhile Char.isDigit = cs.dropWhile Char.isDigit := by
  rw [List.all_eq_true] at h
  exact ⟨List.takeWhile_append_of_pos h, List.dropWhile_append_of_pos h⟩

theorem number_append (ds ds' : List Char) :
    number (ds ++ ds') = ds'.foldl (fun n c => 10 * n + (c.toNat - '0'.toNat)) (number ds) := List.foldl_append ..

/-- Leading zeros do not count. -/
theorem number_append_of_zero {zeros : List Char} (h : number zeros = 0) (ds : List Char) : number (zeros ++ ds) = number ds := by
  rw [number_append, h]
  rfl

theorem parsePublic_spec {cs : List Char} {v : Version} (h : parsePublic cs = some v) :
    cs.all publicChar = true ∧ v.epoch = 0 ∧ v.localLabel = none := by
  unfold parsePublic at h
  split at h
  · rename_i hand
    dsimp only at h
    split at h
    · cases h
      exact ⟨hand.1, rfl, rfl⟩
    · cases h
  · cases h

theorem isDigit_publicChar {c : Char} (h : c.isDigit = true) : publicChar c = true := by
  rw [publicChar, Char.isAlphanum, h, Bool.or_true, Bool.true_or]

theorem parsePublic_zeros {zeros cs : List Char} (hdigits : zeros.all Char.isDigit = true) (hzero : number zeros = 0)
    {v : Version} (h : parsePublic cs = some v) : parsePublic (zeros ++ cs) = some v := by
  obtain ⟨htake, hdrop⟩ := takeWhile_append_digits hdigits cs
  unfold parsePublic at h ⊢
  rw [htake, hdrop, number_append_of_zero hzero]
  split at h
  · rename_i hand
    rw [if_pos]
    · exact h
    · refine ⟨?_, fun hnil => hand.2 (List.append_eq_nil_iff.1 hnil).2⟩
      rw [List.all_append, hand.1, Bool.and_true, List.all_eq_true]
      exact fun c hc => isDigit_publicChar (List.all_eq_true.1 hdigits c hc)
  · cases h

/-- The parts of a text that denotes a version. -/
theorem parse_eq_some {text : List Char} {v : Version} : parse text = some v ↔
    ∃ epoch rest localLabel v', parseEpoch ((skipV text).takeWhile (· ≠ '+')) = some (epoch, rest) ∧
      parseLabel ((skipV text).dropWhile (· ≠ '+')) = some localLabel ∧ parsePublic rest = some v' ∧
        v = { v' with epoch, localLabel } := by
  unfold parse
  constructor
  · intro h
    split at h
    · rename_i epoch rest localLabel hepoch hlabel
      obtain ⟨v', hpublic, rfl⟩ := Option.map_eq_some_iff.1 h
      exact ⟨epoch, rest, localLabel, v', hepoch, hlabel, hpublic, rfl⟩
    · cases h
  · rintro ⟨epoch, rest, localLabel, v', hepoch, hlabel, hpublic, rfl⟩
    rw [hepoch, hlabel]
    dsimp only
    rw [hpublic]
    rfl

theorem dropWhile_eq_nil_of_not_mem {c : Char} {cs : List Char} (h : c ∉ cs) : cs.dropWhile (· ≠ c) = [] := by
  rw [List.dropWhile_eq_nil_iff]
  intro c' hc'
  rw [decide_eq_true_eq]
  rintro rfl
  exact h hc'

theorem not_mem_of_dropWhile_eq_nil {c : Char} {cs : List Char} (h : cs.dropWhile (· ≠ c) = []) : c ∉ cs := by
  intro hc
  simpa using List.dropWhile_eq_nil_iff.1 h c hc

theorem skipV_subset (text : List Char) : skipV text ⊆ text := by
  cases text with
  | nil => exact List.Subset.refl _
  | cons c cs =>
    rw [skipV]
    split
    · exact List.subset_cons_self c cs
    · exact List.Subset.refl _

theorem parseEpoch_of_not_mem {cs : List Char} (h : '!' ∉ cs) : parseEpoch cs = some (0, cs) := by
  rw [parseEpoch, dropWhile_eq_nil_of_not_mem h]

theorem epoch_of_not_mem {text : List Char} {v : Version} (h : parse text = some v) (hbang : '!' ∉ text) : v.epoch = 0 := by
  obtain ⟨epoch, rest, localLabel, v', hepoch, -, -, rfl⟩ := parse_eq_some.1 h
  rw [parseEpoch_of_not_mem fun hmem => hbang (skipV_subset _ (List.takeWhile_subset _ hmem))] at hepoch
  cases hepoch
  rfl

theorem localLabel_of_not_mem {text : List Char} {v : Version} (h : parse text = some v) (hplus : '+' ∉ text) :
    v.localLabel = none := by
  obtain ⟨epoch, rest, localLabel, v', -, hlabel, -, rfl⟩ := parse_eq_some.1 h
  rw [dropWhile_eq_nil_of_not_mem fun hmem => hplus (skipV_subset _ hmem)] at hlabel
  cases hlabel
  rfl

theorem parseLabel_eq_none {cs : List Char} (h : parseLabel cs = some none) : cs = [] := by
  cases cs with
  | nil => rfl
  | cons c cs =>
    rw [parseLabel] at h
    split at h <;> cases h

/-- How a text with an epoch mark reads. -/
theorem parseEpoch_eq_some {cs rest : List Char} {epoch : Nat} (h : parseEpoch cs = some (epoch, rest)) :
    ('!' ∉ cs ∧ epoch = 0 ∧ rest = cs) ∨
      ∃ digits, cs = digits ++ '!' :: rest ∧ digits ≠ [] ∧ digits.all Char.isDigit = true ∧ number digits = epoch := by
  unfold parseEpoch at h
  split at h
  · rename_i hnil
    cases h
    exact .inl ⟨not_mem_of_dropWhile_eq_nil hnil, rfl, rfl⟩
  · rename_i c rest' hcons
    split at h
    · rename_i hand
      cases h
      refine .inr ⟨cs.takeWhile (· ≠ '!'), ?_, hand.1, hand.2, rfl⟩
      have hhead : c = '!' := by
        have := List.head?_dropWhile_not (· ≠ '!') cs
        rw [hcons] at this
        simpa using this
      rw [hhead] at hcons
      rw [← hcons, List.takeWhile_append_dropWhile]
    · cases h

theorem skipV_eq (text : List Char) : ∃ v, (v = [] ∨ v = ['v'] ∨ v = ['V']) ∧ text = v ++ skipV text := by
  cases text with
  | nil => exact ⟨[], .inl rfl, rfl⟩
  | cons c cs =>
    rw [skipV]
    split
    · rename_i hv
      rcases hv with rfl | rfl
      · exact ⟨['v'], .inr (.inl rfl), rfl⟩
      · exact ⟨['V'], .inr (.inr rfl), rfl⟩
    · exact ⟨[], .inl rfl, rfl⟩

theorem skipV_of_digit {v digits cs : List Char} (hv : v = [] ∨ v = ['v'] ∨ v = ['V']) (hne : digits ≠ [])
    (hdigits : digits.all Char.isDigit = true) : skipV (v ++ (digits ++ cs)) = digits ++ cs := by
  rcases hv with rfl | rfl | rfl
  · cases digits with
    | nil => exact absurd rfl hne
    | cons d ds =>
      rw [List.nil_append, List.cons_append, skipV, if_neg]
      rw [List.all_cons, Bool.and_eq_true] at hdigits
      rintro (rfl | rfl)
      · exact absurd hdigits.1 (by decide)
      · exact absurd hdigits.1 (by decide)
  · rfl
  · rfl

theorem not_mem_v {v : List Char} (hv : v = [] ∨ v = ['v'] ∨ v = ['V']) {c : Char} (hc : c.isAlphanum = false) : c ∉ v := by
  rcases hv with rfl | rfl | rfl
  · exact List.not_mem_nil
  · rintro h
    rw [List.mem_singleton.1 h] at hc
    cases hc
  · rintro h
    rw [List.mem_singleton.1 h] at hc
    cases hc

/-- Without its mark a zero epoch is read as zeros in front of the release. -/
theorem parse_without_bang {text : List Char} {v : Version} (h : parse text = some v) (hepoch : v.epoch = 0)
    (hlabel : v.localLabel = none) : '+' ∉ text ∧ parse (text.filter (· ≠ '!')) = some v := by
  obtain ⟨epoch, rest, localLabel, v', hparseEpoch, hparseLabel, hpublic, rfl⟩ := parse_eq_some.1 h
  replace hepoch : epoch = 0 := hepoch
  replace hlabel : localLabel = none := hlabel
  subst hepoch hlabel
  have hdrop := parseLabel_eq_none hparseLabel
  have hplus := not_mem_of_dropWhile_eq_nil hdrop
  have htake : (skipV text).takeWhile (· ≠ '+') = skipV text := by
    have := List.takeWhile_append_dropWhile (p := fun c => decide (c ≠ '+')) (l := skipV text)
    rwa [hdrop, List.append_nil] at this
  rw [htake] at hparseEpoch
  obtain ⟨lead, hlead, htext⟩ := skipV_eq text
  have hplus' : '+' ∉ text := by
    rw [htext, List.mem_append]
    rintro (hmem | hmem)
    · exact not_mem_v hlead (by decide) hmem
    · exact hplus hmem
  refine ⟨hplus', ?_⟩
  obtain ⟨hpublicChars, hepoch', hlabel'⟩ := parsePublic_spec hpublic
  rcases parseEpoch_eq_some hparseEpoch with ⟨hbang, -, -⟩ | ⟨digits, hskip, hne, hdigits, hzero⟩
  · -- there is no mark to drop
    have hbang' : '!' ∉ text := by
      rw [htext, List.mem_append]
      rintro (hmem | hmem)
      · exact not_mem_v hlead (by decide) hmem
      · exact hbang hmem
    rw [List.filter_eq_self.2]
    · exact h
    · intro c hc
      rw [decide_eq_true_eq]
      rintro rfl
      exact hbang' hc
  · -- without the mark the digits of the epoch, all zeros, join the release
    have hkeep : ∀ cs : List Char, '!' ∉ cs → cs.filter (· ≠ '!') = cs := by
      intro cs hcs
      refine List.filter_eq_self.2 fun c hc => ?_
      rw [decide_eq_true_eq]
      rintro rfl
      exact hcs hc
    have hrest : '!' ∉ rest := fun hmem => absurd (List.all_eq_true.1 hpublicChars _ hmem) (by decide)
    have hdigits' : '!' ∉ digits := fun hmem => absurd (List.all_eq_true.1 hdigits _ hmem) (by decide)
    have hfilter : text.filter (· ≠ '!') = lead ++ (digits ++ rest) := by
      rw [htext, hskip, List.filter_append, List.filter_append, List.filter_cons_of_neg (by decide),
        hkeep lead (not_mem_v hlead (by decide)), hkeep digits hdigits', hkeep rest hrest]
    have hplus'' : '+' ∉ digits ++ rest := by
      rw [hskip] at hplus
      rw [List.mem_append]
      rintro (hmem | hmem)
      · exact hplus (List.mem_append_left _ hmem)
      · exact hplus (List.mem_append_right _ (List.mem_cons_of_mem _ hmem))
    rw [hfilter]
    refine parse_eq_some.2 ⟨0, digits ++ rest, none, v', ?_, ?_, parsePublic_zeros hdigits hzero hpublic, rfl⟩
    · rw [skipV_of_digit hlead hne hdigits]
      have : (digits ++ rest).takeWhile (· ≠ '+') = digits ++ rest := by
        have := List.takeWhile_append_dropWhile (p := fun c => decide (c ≠ '+')) (l := digits ++ rest)
        rwa [dropWhile_eq_nil_of_not_mem hplus'', List.append_nil] at this
      rw [this]
      refine parseEpoch_of_not_mem ?_
      rw [List.mem_append]
      rintro (hmem | hmem)
      · exact hdigits' hmem
      · exact hrest hmem
    · rw [skipV_of_digit hlead hne hdigits, dropWhile_eq_nil_of_not_mem hplus'']
      rfl

/-! ## The characters of a version -/

/-- What stands in the public version, and the marks of epoch and local label. -/
def versionChar (c : Char) : Bool := publicChar c || c = '!' || c = '+'

theorem versionChar_of_publicChar {c : Char} (h : publicChar c = true) : versionChar c = true := by
  rw [versionChar, h, Bool.true_or, Bool.true_or]

theorem mem_splitOnP {α : Type} {p : α → Bool} {cs : List α} {c : α} (hc : c ∈ cs) (hp : p c = false) :
    ∃ part ∈ cs.splitOnP p, c ∈ part := by
  induction cs with
  | nil => cases hc
  | cons d cs ih =>
    rw [List.splitOnP_cons_eq_if_modifyHead]
    split
    · rename_i hd
      rcases List.mem_cons.1 hc with rfl | hc
      · rw [hp] at hd
        cases hd
      · obtain ⟨part, hpart, hin⟩ := ih hc
        exact ⟨part, List.mem_cons_of_mem _ hpart, hin⟩
    · obtain ⟨first, more, heq⟩ := List.exists_cons_of_ne_nil (List.splitOnP_ne_nil p cs)
      rw [heq, List.modifyHead_cons]
      rcases List.mem_cons.1 hc with rfl | hc
      · exact ⟨c :: first, List.mem_cons_self .., List.mem_cons_self ..⟩
      · obtain ⟨part, hpart, hin⟩ := ih hc
        rw [heq] at hpart
        rcases List.mem_cons.1 hpart with rfl | hpart
        · exact ⟨d :: part, List.mem_cons_self .., List.mem_cons_of_mem _ hin⟩
        · exact ⟨part, List.mem_cons_of_mem _ hpart, hin⟩

theorem versionChar_of_parse {text : List Char} {v : Version} (h : parse text = some v) : ∀ c ∈ text, versionChar c = true := by
  obtain ⟨epoch, rest, localLabel, v', hparseEpoch, hparseLabel, hpublic, rfl⟩ := parse_eq_some.1 h
  obtain ⟨lead, hlead, htext⟩ := skipV_eq text
  obtain ⟨hrest, -, -⟩ := parsePublic_spec hpublic
  rw [List.all_eq_true] at hrest
  have hbefore : ∀ c ∈ (skipV text).takeWhile (· ≠ '+'), versionChar c = true := by
    rcases parseEpoch_eq_some hparseEpoch with ⟨-, -, rfl⟩ | ⟨digits, heq, -, hdigits, -⟩
    · exact fun c hc => versionChar_of_publicChar (hrest c hc)
    · rw [heq]
      intro c hc
      rcases List.mem_append.1 hc with hc | hc
      · exact versionChar_of_publicChar (isDigit_publicChar (List.all_eq_true.1 hdigits c hc))
      · rcases List.mem_cons.1 hc with rfl | hc
        · rfl
        · exact versionChar_of_publicChar (hrest c hc)
  have hafter : ∀ c ∈ (skipV text).dropWhile (· ≠ '+'), versionChar c = true := by
    cases hdrop : (skipV text).dropWhile (· ≠ '+') with
    | nil => exact fun c hc => absurd hc List.not_mem_nil
    | cons d cs =>
      have hd : d = '+' := by
        have := List.head?_dropWhile_not (· ≠ '+') (skipV text)
        rw [hdrop] at this
        simpa using this
      rw [hdrop, parseLabel] at hparseLabel
      split at hparseLabel
      · rename_i hparts
        intro c hc
        rcases List.mem_cons.1 hc with rfl | hc
        · rw [hd]
          rfl
        · by_cases hsep : separator c = true
          · exact versionChar_of_publicChar (by rw [publicChar, hsep, Bool.or_true])
          · obtain ⟨part, hpart, hin⟩ := mem_splitOnP hc (Bool.eq_false_iff.2 hsep)
            have := (Bool.and_eq_true _ _ ▸ List.all_eq_true.1 hparts part hpart).2
            exact versionChar_of_publicChar (by rw [publicChar, List.all_eq_true.1 this c hin, Bool.true_or])
      · cases hparseLabel
  intro c hc
  rw [htext, ← List.takeWhile_append_dropWhile (p := fun c => decide (c ≠ '+')) (l := skipV text)] at hc
  rcases List.mem_append.1 hc with hc | hc
  · rcases hlead with rfl | rfl | rfl
    · cases hc
    · rw [List.mem_singleton.1 hc]; rfl
    · rw [List.mem_singleton.1 hc]; rfl
  · rcases List.mem_append.1 hc with hc | hc
    · exact hbefore c hc
    · exact hafter c hc

end Version

end Lib
