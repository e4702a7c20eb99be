/-
What is written as JSON is read back: the characters of a text from their escapes, the digits of a number, and the values
from the inside out.
-/
import OpenFish.Lib.JsonText

namespace Lib.Json

/-! ## Characters and texts -/

theorem hexValue_hexDigit : ∀ n < 16, hexValue (hexDigit n) = some n := by decide

theorem readHex_unicodeEscape {n : Nat} (h : n < 0x10000) (rest : List Char) :
    readHex ((unicodeEscape n).drop 2 ++ rest) = some (n, rest) := by
  have hfirst := hexValue_hexDigit (n / 4096) (by omega)
  have hsecond := hexValue_hexDigit (n / 256 % 16) (by omega)
  have hthird := hexValue_hexDigit (n / 16 % 16) (by omega)
  have hfourth := hexValue_hexDigit (n % 16) (by omega)
  have hsum : 4096 * (n / 4096) + 256 * (n / 256 % 16) + 16 * (n / 16 % 16) + n % 16 = n := by omega
  show readHex (hexDigit (n / 4096) :: hexDigit (n / 256 % 16) :: hexDigit (n / 16 % 16) :: hexDigit (n % 16) :: rest) = _
  rw [readHex, hfirst, hsecond, hthird, hfourth]
  simp only [Option.bind_some, Option.map_some, hsum]

theorem unitChar_toNat (c : Char) : unitChar c.toNat = c := by
  rw [unitChar, if_pos (show c.toNat.isValidChar from c.valid), Char.ofNat_toNat]

theorem not_surrogate (c : Char) : ¬ (0xd800 ≤ c.toNat ∧ c.toNat < 0xe000) := by
  rintro ⟨hle, hlt⟩
  rcases c.valid with h | h
  · have : c.toNat < 0xd800 := h
    omega
  · have : 0xdfff < c.toNat := h.1
    omega

theorem readUnicode_unit {c : Char} (h : c.toNat < 0x10000) (rest : List Char) :
    readUnicode ((unicodeEscape c.toNat).drop 2 ++ rest) = some (c, rest) := by
  have hnot := not_surrogate c
  rw [readUnicode, readHex_unicodeEscape h, Option.bind_some, if_neg (by omega), unitChar_toNat]

theorem readUnicode_pair {c : Char} (h : 0x10000 ≤ c.toNat) (rest : List Char) :
    readUnicode ((unicodeEscape (0xd800 + (c.toNat - 0x10000) / 1024)).drop 2 ++
      (unicodeEscape (0xdc00 + (c.toNat - 0x10000) % 1024) ++ rest)) = some (c, rest) := by
  have hmax : c.toNat < 0x110000 := by
    rcases c.valid with h | h
    · have : c.toNat < 0xd800 := h
      omega
    · exact h.2
  have hsecond := readHex_unicodeEscape (n := 0xdc00 + (c.toNat - 0x10000) % 1024) (by omega) rest
  have hdrop : (unicodeEscape (0xdc00 + (c.toNat - 0x10000) % 1024) ++ rest).drop 2 =
      (unicodeEscape (0xdc00 + (c.toNat - 0x10000) % 1024)).drop 2 ++ rest := rfl
  have hpair : ['\\', 'u'].isPrefixOf (unicodeEscape (0xdc00 + (c.toNat - 0x10000) % 1024) ++ rest) = true := rfl
  have hcode : 0x10000 + (0xd800 + (c.toNat - 0x10000) / 1024 - 0xd800) * 1024 +
      (0xdc00 + (c.toNat - 0x10000) % 1024 - 0xdc00) = c.toNat := by omega
  rw [readUnicode, readHex_unicodeEscape (by omega), Option.bind_some, if_pos ⟨by omega, by omega, hpair⟩, hdrop, hsecond,
    Option.map_some, if_pos ⟨by omega, by omega⟩, hcode, Char.ofNat_toNat]

theorem readEscape_short : ∀ e ∈ shortEscapes, ∀ rest, readEscape (e.2 :: rest) = some (e.1, rest) := by
  have htable : ∀ e ∈ shortEscapes, e.2 ≠ 'u' ∧ e.2 ≠ '/' ∧ shortEscapes.find? (fun p => p.2 = e.2) = some e := by decide
  intro e he rest
  obtain ⟨hu, hslash, hfind⟩ := htable e he
  rw [readEscape, if_neg hu, if_neg hslash, hfind, Option.map_some]

/-- One character is read back from its escape. -/
theorem scanString_escapeChar (c : Char) (fuel : Nat) (rest : List Char) :
    scanString (fuel + 1) (escapeChar c ++ rest) = (scanString fuel rest).map fun s => (c :: s.1, s.2) := by
  have hescape : ∀ s after : List Char, readEscape s = some (c, after) →
      scanString (fuel + 1) ('\\' :: s) = (scanString fuel after).map fun s => (c :: s.1, s.2) := by
    intro s after hs
    rw [scanString, if_neg (by decide), if_pos rfl, hs, Option.bind_some]
  have hunicode : ∀ s after : List Char, readUnicode s = some (c, after) → readEscape ('u' :: s) = some (c, after) :=
    fun s after h => h
  unfold escapeChar
  cases hfind : shortEscapes.find? fun e => e.1 = c with
  | some e =>
    have hkey : e.1 = c := by simpa using List.find?_some hfind
    have hshort := readEscape_short e (List.mem_of_find?_eq_some hfind) rest
    rw [hkey] at hshort
    exact hescape _ rest hshort
  | none =>
    have hne : ∀ e ∈ shortEscapes, e.1 ≠ c := fun e he => by simpa using List.find?_eq_none.1 hfind e he
    simp only
    by_cases hplain : 32 ≤ c.toNat ∧ c.toNat < 127
    · rw [if_pos hplain, List.singleton_append, scanString, if_neg fun h => hne ('"', '"') (by decide) h.symm,
        if_neg fun h => hne ('\\', '\\') (by decide) h.symm, if_neg (by omega)]
    · rw [if_neg hplain]
      by_cases hunit : c.toNat < 0x10000
      · rw [if_pos hunit]
        exact hescape _ rest (hunicode _ _ (readUnicode_unit hunit rest))
      · rw [if_neg hunit, List.append_assoc]
        exact hescape _ rest (hunicode _ _ (readUnicode_pair (Nat.le_of_not_lt hunit) rest))

theorem scanString_escapes (rest : List Char) : ∀ {cs : List Char} {fuel : Nat}, cs.length < fuel →
    scanString fuel (cs.flatMap escapeChar ++ '"' :: rest) = some (cs, rest)
  | [], fuel + 1, _ => by
    rw [List.flatMap_nil, List.nil_append, scanString, if_pos rfl]
  | c :: cs, fuel + 1, h => by
    rw [List.flatMap_cons, List.append_assoc, scanString_escapeChar, scanString_escapes rest (Nat.lt_of_succ_lt_succ h),
      Option.map_some]

theorem escapeChar_ne_nil (c : Char) : escapeChar c ≠ [] := by
  unfold escapeChar
  split
  · exact List.cons_ne_nil _ _
  · split
    · exact List.cons_ne_nil _ _
    · split
      · exact List.cons_ne_nil _ _
      · exact List.cons_ne_nil _ _

theorem length_le_escapes : ∀ cs : List Char, cs.length ≤ (cs.flatMap escapeChar).length
  | [] => Nat.le_refl _
  | c :: cs => by
    have hpos := List.length_pos_of_ne_nil (escapeChar_ne_nil c)
    have hrest := length_le_escapes cs
    rw [List.flatMap_cons, List.length_append, List.length_cons]
    omega

/-- A text is read back from its quotes. -/
theorem scanString_quoted (s : String) (rest : List Char) :
    scanString ((quoted s).tail ++ rest).length ((quoted s).tail ++ rest) = some (s.toList, rest) := by
  have htail : (quoted s).tail ++ rest = s.toList.flatMap escapeChar ++ '"' :: rest := by
    rw [quoted, List.tail_cons, List.append_assoc, List.singleton_append]
  have hle := length_le_escapes s.toList
  rw [htail]
  refine scanString_escapes rest ?_
  rw [List.length_append, List.length_cons]
  omega

/-! ## Numbers -/

theorem eq_zero_of_head_toDigits {n : Nat} {rest : List Char} (h : Nat.toDigits 10 n = '0' :: rest) : n = 0 := by
  induction n using Nat.strongRecOn generalizing rest with
  | ind n ih =>
    rw [Nat.toDigits_eq_if (by decide)] at h
    split at h
    · rename_i hlt
      have hdigit : ∀ d < 10, d.digitChar = '0' → d = 0 := by decide
      exact hdigit n hlt (List.cons.inj h).1
    · rename_i hge
      obtain ⟨d, ds, hds⟩ := List.exists_cons_of_ne_nil (@Nat.toDigits_ne_nil (n / 10) 10)
      rw [hds, List.cons_append] at h
      have hzero := ih (n / 10) (by omega) (hds.trans (congrArg (fun c => c :: ds) (List.cons.inj h).1))
      omega

/-- No digit, point or exponent goes on after a number. -/
def Stops (rest : List Char) : Prop := ∀ c ∈ rest.head?, c.isDigit = false ∧ c ≠ '.' ∧ c ≠ 'e' ∧ c ≠ 'E'

theorem span_digits {ds rest : List Char} (hdigits : ∀ c ∈ ds, c.isDigit = true) (h : Stops rest) :
    (ds ++ rest).takeWhile Char.isDigit = ds ∧ (ds ++ rest).dropWhile Char.isDigit = rest := by
  rw [List.takeWhile_append_of_pos hdigits, List.dropWhile_append_of_pos hdigits]
  cases rest with
  | nil => exact ⟨List.append_nil ds, rfl⟩
  | cons c rest =>
    have hc : ¬ c.isDigit = true := by rw [(h c rfl).1]; exact Bool.false_ne_true
    rw [List.takeWhile_cons_of_neg hc, List.dropWhile_cons_of_neg hc, List.append_nil]
    exact ⟨rfl, rfl⟩

theorem scanDigits_toDigits (n : Nat) {rest : List Char} (h : Stops rest) :
    scanDigits (Nat.toDigits 10 n ++ rest) = some (Nat.toDigits 10 n, rest) := by
  obtain ⟨d, ds, hds⟩ := List.exists_cons_of_ne_nil (@Nat.toDigits_ne_nil n 10)
  have hdigits : ∀ c ∈ d :: ds, c.isDigit = true := fun c hc =>
    Nat.isDigit_of_mem_toDigits (by decide) (by decide) (hds ▸ hc)
  by_cases hzero : d = '0'
  · have hn : n = 0 := eq_zero_of_head_toDigits (hzero ▸ hds)
    rw [hn, Nat.toDigits_zero, List.singleton_append, scanDigits, if_pos rfl]
  · obtain ⟨htake, hdrop⟩ := span_digits (fun c hc => hdigits c (List.mem_cons_of_mem _ hc)) h
    rw [hds, List.cons_append, scanDigits, if_neg hzero, if_pos (hdigits d (List.mem_cons_self ..)), htake, hdrop]

theorem scanFraction_stops {rest : List Char} (h : Stops rest) : scanFraction rest = ([], rest) := by
  cases rest with
  | nil => rfl
  | cons c rest => rw [scanFraction, if_neg fun hpoint => (h c rfl).2.1 hpoint.1]

theorem scanExponent_stops {rest : List Char} (h : Stops rest) : scanExponent rest = ([], rest) := by
  cases rest with
  | nil => rfl
  | cons c rest =>
    rw [scanExponent, if_neg]
    rintro ⟨he | he, -⟩
    · exact (h c rfl).2.2.1 he
    · exact (h c rfl).2.2.2 he

/-- The integer is not too long for its digits to be read. -/
def Short (n : Int) : Prop := (Nat.toDigits 10 n.natAbs).length ≤ 4300

instance (n : Int) : Decidable (Short n) := inferInstanceAs (Decidable (_ ≤ _))

theorem scanUnsigned_toDigits (float : List Char → BitVec 64) (negative : Bool) {n : Nat} (hshort : Short n)
    {rest : List Char} (h : Stops rest) :
    scanUnsigned float negative (Nat.toDigits 10 n ++ rest) = some (int (if negative then -n else n), rest) := by
  have hlength : (Nat.toDigits 10 n).length ≤ 4300 := hshort
  have hread : readNatural (Nat.toDigits 10 n) = some n := by
    have hascii := readDigits_ascii (@Nat.toDigits_ne_nil n 10) fun c hc =>
      Nat.isDigit_of_mem_toDigits (by decide) (by decide) hc
    rw [readNatural, hascii, Option.bind_some, List.length_map, if_neg (Nat.not_lt.2 hlength), foldl_digits,
      Nat.ofDigitChars_ten_toDigits]
  rw [scanUnsigned, scanDigits_toDigits n h, Option.bind_some]
  simp only [scanFraction_stops h, scanExponent_stops h, and_self, if_true, hread, Option.map_some]

theorem scanAtom_intText (float : List Char → BitVec 64) {n : Int} (hshort : Short n) {rest : List Char} (h : Stops rest) :
    scanAtom float (intText n ++ rest) = some (int n, rest) := by
  cases n with
  | ofNat n =>
    obtain ⟨d, ds, hds⟩ := List.exists_cons_of_ne_nil (@Nat.toDigits_ne_nil n 10)
    have hd : d.isDigit = true := Nat.isDigit_of_mem_toDigits (by decide) (by decide) (hds ▸ List.mem_cons_self ..)
    have hscan := scanUnsigned_toDigits float false hshort h
    rw [hds, List.cons_append] at hscan
    rw [intText, hds, List.cons_append, scanAtom, if_pos hd, hscan]
    rfl
  | negSucc n =>
    have hscan := scanUnsigned_toDigits (n := n + 1) float true hshort h
    obtain ⟨d, ds, hds⟩ := List.exists_cons_of_ne_nil (@Nat.toDigits_ne_nil (n + 1) 10)
    have hd : d.isDigit = true := Nat.isDigit_of_mem_toDigits (by decide) (by decide) (hds ▸ List.mem_cons_self ..)
    have hi : d ≠ 'I' := fun heq => absurd (heq ▸ hd) (by decide)
    have hnone : literals.find? (fun l => l.1.toList.isPrefixOf ('-' :: (Nat.toDigits 10 (n + 1) ++ rest))) = none := by
      rw [hds, List.cons_append]
      simp [literals, List.isPrefixOf, hi.symm]
    rw [intText, List.cons_append, scanAtom, if_neg (by decide), hnone]
    simp only [if_true, hscan]
    rfl

/-! ## Values -/

mutual

/-- The value can be written and is read back at this depth: no float, no integer that is too long, and no key twice. -/
def Writable : Json → Nat → Prop
  | int n, _ => Short n
  | float _, _ => False
  | arr items, depth => 0 < depth ∧ WritableItems items (depth - 1)
  | obj members, depth => 0 < depth ∧ (members.map Prod.fst).Nodup ∧ WritableMembers members (depth - 1)
  | _, _ => True

def WritableItems : List Json → Nat → Prop
  | [], _ => True
  | v :: vs, depth => Writable v depth ∧ WritableItems vs depth

def WritableMembers : List (String × Json) → Nat → Prop
  | [], _ => True
  | (_, v) :: ms, depth => Writable v depth ∧ WritableMembers ms depth

end

theorem skip_cons {c : Char} (h : c ≠ ' ' ∧ c ≠ '\t' ∧ c ≠ '\n' ∧ c ≠ '\r') (s : List Char) : skip (c :: s) = c :: s := by
  rw [skip, List.dropWhile_cons_of_neg]
  simp [h]

theorem digit_head {n : Nat} : ∃ d ds, Nat.toDigits 10 n = d :: ds ∧ d.isDigit = true := by
  obtain ⟨d, ds, hds⟩ := List.exists_cons_of_ne_nil (@Nat.toDigits_ne_nil n 10)
  exact ⟨d, ds, hds, Nat.isDigit_of_mem_toDigits (by decide) (by decide) (hds ▸ List.mem_cons_self ..)⟩

/-- The text of a value begins with no white space and closes nothing. -/
theorem print_head {floatText : BitVec 64 → List Char} {v : Json} {depth : Nat} (h : Writable v depth) :
    ∃ c rest, print floatText v = c :: rest ∧ c ∉ [' ', '\t', '\n', '\r', ']', '}', '\ufeff'] := by
  cases v with
  | null => exact ⟨_, _, rfl, by decide⟩
  | bool b =>
    cases b with
    | false => exact ⟨_, _, rfl, by decide⟩
    | true => exact ⟨_, _, rfl, by decide⟩
  | int n =>
    cases n with
    | ofNat n =>
      obtain ⟨d, ds, hds, hd⟩ := @digit_head n
      refine ⟨d, ds, hds, fun hmem => ?_⟩
      have hnone : [' ', '\t', '\n', '\r', ']', '}', '\ufeff'].all (fun c => !c.isDigit) = true := by decide
      have hnot := List.all_eq_true.1 hnone d hmem
      rw [hd] at hnot
      cases hnot
    | negSucc n => exact ⟨_, _, rfl, by decide⟩
  | float bits => exact absurd h id
  | str s => exact ⟨_, _, rfl, by decide⟩
  | arr items =>
    cases items with
    | nil => exact ⟨_, _, rfl, by decide⟩
    | cons v vs => exact ⟨_, _, rfl, by decide⟩
  | obj members =>
    cases members with
    | nil => exact ⟨_, _, rfl, by decide⟩
    | cons m ms => exact ⟨_, _, rfl, by decide⟩

theorem skip_print {floatText : BitVec 64 → List Char} {v : Json} {depth : Nat} (h : Writable v depth) (rest : List Char) :
    skip (print floatText v ++ rest) = print floatText v ++ rest := by
  obtain ⟨c, s, hs, hc⟩ := @print_head floatText v depth h
  rw [hs, List.cons_append, skip_cons]
  simp only [List.mem_cons, not_or] at hc
  exact ⟨hc.1, hc.2.1, hc.2.2.1, hc.2.2.2.1⟩

theorem collect_append {members kept : List (String × Json)} (h : ((kept ++ members).map Prod.fst).Nodup) :
    members.foldl (fun d m => assign d m.1 m.2) kept = kept ++ members := by
  induction members generalizing kept with
  | nil => rw [List.foldl_nil, List.append_nil]
  | cons m members ih =>
    have habsent : ¬ (kept.any fun e => e.1 = m.1) = true := by
      rw [List.map_append, List.nodup_append] at h
      intro hany
      obtain ⟨e, he, heq⟩ := List.any_eq_true.1 hany
      exact h.2.2 e.1 (List.mem_map_of_mem he) m.1 (List.mem_cons_self ..) (of_decide_eq_true heq)
    have hassign : assign kept m.1 m.2 = kept ++ [m] := if_neg habsent
    have happend : kept ++ m :: members = kept ++ [m] ++ members := List.append_cons ..
    rw [List.foldl_cons, hassign, happend]
    exact ih (happend ▸ h)

/-- Members without a key twice are a dictionary as they are. -/
theorem collect_of_nodup {members : List (String × Json)} (h : (members.map Prod.fst).Nodup) : collect members = members :=
  collect_append h

theorem stops_of_head {c : Char} (h : c.isDigit = false ∧ c ≠ '.' ∧ c ≠ 'e' ∧ c ≠ 'E') (s : List Char) : Stops (c :: s) := by
  intro d hd
  rw [← Option.some.inj hd]
  exact h

theorem stops_items (floatText : BitVec 64 → List Char) (vs : List Json) (rest : List Char) :
    Stops (printItems floatText vs ++ rest) := by
  cases vs with
  | nil => exact stops_of_head (by decide) _
  | cons v vs => exact stops_of_head (by decide) _

theorem stops_members (floatText : BitVec 64 → List Char) (ms : List (String × Json)) (rest : List Char) :
    Stops (printMembers floatText ms ++ rest) := by
  cases ms with
  | nil => exact stops_of_head (by decide) _
  | cons m ms => exact stops_of_head (by decide) _

theorem scanValue_atom {float : List Char → BitVec 64} {fuel depth : Nat} {c : Char} {s : List Char} {r : Json × List Char}
    (hquote : c ≠ '"') (harr : c ≠ '[') (hobj : c ≠ '{') (h : scanAtom float (c :: s) = some r) :
    scanValue float (fuel + 1) depth (c :: s) = .ok r := by
  rw [scanValue, if_neg hquote, if_neg harr, if_neg hobj, h]

section roundTrip

variable (float : List Char → BitVec 64) (floatText : BitVec 64 → List Char)

/-- A value without parts. -/
theorem scanValue_leaf {v : Json} (hitems : v.items? = none) (hentries : v.entries? = none) {depth fuel : Nat}
    {rest : List Char} (h : Writable v depth) (hrest : Stops rest) :
    scanValue float (fuel + 1) depth (print floatText v ++ rest) = .ok (v, rest) := by
  cases v with
  | null => exact scanValue_atom (by decide) (by decide) (by decide) rfl
  | bool b =>
    cases b with
    | false => exact scanValue_atom (by decide) (by decide) (by decide) rfl
    | true => exact scanValue_atom (by decide) (by decide) (by decide) rfl
  | int n =>
    have hscan := scanAtom_intText float h hrest
    have hhead : ∃ c s, intText n = c :: s ∧ c ≠ '"' ∧ c ≠ '[' ∧ c ≠ '{' := by
      cases n with
      | ofNat n =>
        obtain ⟨d, ds, hds, hd⟩ := @digit_head n
        refine ⟨d, ds, hds, ?_, ?_, ?_⟩ <;> rintro rfl <;> exact absurd hd (by decide)
      | negSucc n => exact ⟨_, _, rfl, by decide, by decide, by decide⟩
    obtain ⟨c, s, hs, hquote, harr, hobj⟩ := hhead
    have hprint : print floatText (int n) = c :: s := hs
    rw [hs, List.cons_append] at hscan
    rw [hprint, List.cons_append]
    exact scanValue_atom hquote harr hobj hscan
  | float bits => exact absurd h id
  | str s =>
    have hprint : print floatText (str s) = '"' :: (quoted s).tail := rfl
    rw [hprint, List.cons_append, scanValue, if_pos rfl, scanString_quoted]
    simp only [String.ofList_toList]
  | arr items => cases hitems
  | obj members => cases hentries

theorem scanValue_arr {v : Json} {vs : List Json} {depth fuel : Nat} {rest : List Char} (hdepth : 0 < depth)
    (hv : Writable v (depth - 1))
    (hread : scanItems float fuel (depth - 1) (print floatText v ++ (printItems floatText vs ++ rest)) = .ok (v :: vs, rest)) :
    scanValue float (fuel + 1) depth (print floatText (arr (v :: vs)) ++ rest) = .ok (arr (v :: vs), rest) := by
  obtain ⟨c, s, hs, hc⟩ := @print_head floatText v _ hv
  have hopen : (print floatText v ++ (printItems floatText vs ++ rest)).head? ≠ some ']' := by
    rw [hs, List.cons_append, List.head?_cons]
    intro heq
    rw [Option.some.inj heq] at hc
    exact absurd hc (by decide)
  rw [print, List.cons_append, List.append_assoc, scanValue, if_neg (by decide), if_pos rfl, if_neg (Nat.ne_of_gt hdepth),
    skip_print hv, if_neg hopen, hread]

theorem scanValue_obj {k : String} {v : Json} {ms : List (String × Json)} {depth fuel : Nat} {rest : List Char}
    (hdepth : 0 < depth) (hnodup : (((k, v) :: ms).map Prod.fst).Nodup)
    (hread : scanMembers float fuel (depth - 1)
      (quoted k ++ ':' :: (print floatText v ++ (printMembers floatText ms ++ rest))) = .ok ((k, v) :: ms, rest)) :
    scanValue float (fuel + 1) depth (print floatText (obj ((k, v) :: ms)) ++ rest) = .ok (obj ((k, v) :: ms), rest) := by
  have hquoted : ∀ s, skip (quoted k ++ s) = quoted k ++ s := fun s => skip_cons (by decide) _
  have hopen : ∀ s, (quoted k ++ s).head? ≠ some '}' := fun s heq => absurd (Option.some.inj heq) (by decide)
  rw [print, List.cons_append, List.append_assoc, List.cons_append, List.append_assoc, scanValue, if_neg (by decide),
    if_neg (by decide), if_pos rfl, if_neg (Nat.ne_of_gt hdepth), hquoted, if_neg (hopen _), hread]
  simp only [collect_of_nodup hnodup]

theorem fuel_succ {v : Json} {depth fuel : Nat} (h : Writable v depth) (hfuel : 2 * (print floatText v).length ≤ fuel) :
    ∃ n, fuel = n + 1 := by
  obtain ⟨c, s, hs, -⟩ := @print_head floatText v depth h
  rw [hs, List.length_cons] at hfuel
  exact ⟨fuel - 1, by omega⟩

mutual

/-- What is written of a value is read back, in front of whatever does not go on with a number. -/
theorem scanValue_print : ∀ (v : Json) {depth fuel : Nat} {rest : List Char}, Writable v depth → Stops rest →
    2 * (print floatText v).length ≤ fuel → scanValue float fuel depth (print floatText v ++ rest) = .ok (v, rest)
  | arr (v :: vs), depth, fuel, rest, h, hrest, hfuel => by
    obtain ⟨fuel, rfl⟩ := fuel_succ floatText h hfuel
    obtain ⟨hdepth, hitems⟩ := h
    rw [WritableItems] at hitems
    rw [print, List.length_cons, List.length_append] at hfuel
    exact scanValue_arr float floatText hdepth hitems.1 (scanItems_print v vs hitems.1 hitems.2 (by omega))
  | obj ((k, v) :: ms), depth, fuel, rest, h, hrest, hfuel => by
    obtain ⟨fuel, rfl⟩ := fuel_succ floatText h hfuel
    obtain ⟨hdepth, hnodup, hmembers⟩ := h
    rw [WritableMembers] at hmembers
    rw [print, List.length_cons, List.length_append, List.length_cons, List.length_append] at hfuel
    exact scanValue_obj float floatText hdepth hnodup (scanMembers_print k v ms hmembers.1 hmembers.2 (by omega))
  | arr [], depth, fuel, rest, h, hrest, hfuel => by
    obtain ⟨fuel, rfl⟩ := fuel_succ floatText h hfuel
    show (if depth = 0 then Except.error Failure.tooDeep else _) = _
    rw [if_neg (Nat.ne_of_gt h.1)]
    rfl
  | obj [], depth, fuel, rest, h, hrest, hfuel => by
    obtain ⟨fuel, rfl⟩ := fuel_succ floatText h hfuel
    show (if depth = 0 then Except.error Failure.tooDeep else _) = _
    rw [if_neg (Nat.ne_of_gt h.1)]
    rfl
  | null, depth, fuel, rest, h, hrest, hfuel => by
    obtain ⟨fuel, rfl⟩ := fuel_succ floatText h hfuel
    exact scanValue_leaf float floatText rfl rfl h hrest
  | bool b, depth, fuel, rest, h, hrest, hfuel => by
    obtain ⟨fuel, rfl⟩ := fuel_succ floatText h hfuel
    exact scanValue_leaf float floatText rfl rfl h hrest
  | int n, depth, fuel, rest, h, hrest, hfuel => by
    obtain ⟨fuel, rfl⟩ := fuel_succ floatText h hfuel
    exact scanValue_leaf float floatText rfl rfl h hrest
  | .float bits, depth, fuel, rest, h, hrest, hfuel => absurd h id
  | str s, depth, fuel, rest, h, hrest, hfuel => by
    obtain ⟨fuel, rfl⟩ := fuel_succ floatText h hfuel
    exact scanValue_leaf float floatText rfl rfl h hrest
termination_by v => sizeOf v

theorem scanItems_print : ∀ (v : Json) (vs : List Json) {depth fuel : Nat} {rest : List Char}, Writable v depth →
    WritableItems vs depth → 2 * ((print floatText v).length + (printItems floatText vs).length) + 1 ≤ fuel →
    scanItems float fuel depth (print floatText v ++ (printItems floatText vs ++ rest)) = .ok (v :: vs, rest)
  | v, vs, depth, 0, rest, hv, hvs, hfuel => absurd hfuel (by omega)
  | v, [], depth, fuel + 1, rest, hv, hvs, hfuel => by
    have hread := @scanValue_print v depth fuel _ hv (stops_items floatText [] rest) (by omega)
    have hclose : skip (printItems floatText [] ++ rest) = ']' :: rest := by
      rw [printItems, List.singleton_append, skip_cons (by decide)]
    rw [scanItems, hread]
    simp only [hclose, if_true]
  | v, v' :: vs, depth, fuel + 1, rest, hv, hvs, hfuel => by
    rw [WritableItems] at hvs
    have hread := @scanValue_print v depth fuel _ hv (stops_items floatText (v' :: vs) rest) (by omega)
    have hprint : printItems floatText (v' :: vs) = ',' :: (print floatText v' ++ printItems floatText vs) := by rw [printItems]
    have hcomma : skip (printItems floatText (v' :: vs) ++ rest) =
        ',' :: (print floatText v' ++ (printItems floatText vs ++ rest)) := by
      rw [hprint, List.cons_append, List.append_assoc, skip_cons (by decide)]
    rw [hprint, List.length_cons, List.length_append] at hfuel
    have hmore := @scanItems_print v' vs depth fuel rest hvs.1 hvs.2 (by omega)
    rw [scanItems, hread]
    simp only [hcomma, if_true, skip_print hvs.1, hmore]
    rw [if_neg (by decide)]
termination_by v vs => sizeOf v + sizeOf vs

theorem scanMembers_print : ∀ (k : String) (v : Json) (ms : List (String × Json)) {depth fuel : Nat} {rest : List Char},
    Writable v depth → WritableMembers ms depth →
    2 * ((quoted k).length + ((print floatText v).length + (printMembers floatText ms).length)) + 1 ≤ fuel →
    scanMembers float fuel depth (quoted k ++ ':' :: (print floatText v ++ (printMembers floatText ms ++ rest))) =
      .ok ((k, v) :: ms, rest)
  | k, v, ms, depth, 0, rest, hv, hms, hfuel => absurd hfuel (by omega)
  | k, v, [], depth, fuel + 1, rest, hv, hms, hfuel => by
    have hread := @scanValue_print v depth fuel _ hv (stops_members floatText [] rest) (by omega)
    have hkey : ∀ s, quoted k ++ s = '"' :: ((quoted k).tail ++ s) := fun s => rfl
    have hcolon : ∀ s, skip (':' :: s) = ':' :: s := skip_cons (by decide)
    have hclose : skip (printMembers floatText [] ++ rest) = '}' :: rest := by
      rw [printMembers, List.singleton_append, skip_cons (by decide)]
    rw [hkey, scanMembers, if_pos rfl, scanString_quoted]
    simp only [hcolon, if_true, skip_print hv, hread, hclose, String.ofList_toList]
  | k, v, (k', v') :: ms, depth, fuel + 1, rest, hv, hms, hfuel => by
    rw [WritableMembers] at hms
    have hread := @scanValue_print v depth fuel _ hv (stops_members floatText ((k', v') :: ms) rest) (by omega)
    have hkey : ∀ s, quoted k ++ s = '"' :: ((quoted k).tail ++ s) := fun s => rfl
    have hcolon : ∀ s, skip (':' :: s) = ':' :: s := skip_cons (by decide)
    have hquoted : ∀ s, skip (quoted k' ++ s) = quoted k' ++ s := fun s => skip_cons (by decide) _
    have hprint : printMembers floatText ((k', v') :: ms) =
        ',' :: (quoted k' ++ ':' :: (print floatText v' ++ printMembers floatText ms)) := by rw [printMembers]
    have hcomma : skip (printMembers floatText ((k', v') :: ms) ++ rest) =
        ',' :: (quoted k' ++ ':' :: (print floatText v' ++ (printMembers floatText ms ++ rest))) := by
      rw [hprint, List.cons_append, List.append_assoc, List.cons_append, List.append_assoc, skip_cons (by decide)]
    rw [hprint, List.length_cons, List.length_append, List.length_cons, List.length_append] at hfuel
    have hmore := @scanMembers_print k' v' ms depth fuel rest hms.1 hms.2 (by omega)
    rw [hkey, scanMembers, if_pos rfl, scanString_quoted]
    simp only [hcolon, if_true, skip_print hv, hread, hcomma, hquoted, hmore, String.ofList_toList]
    rw [if_neg (by decide)]
termination_by _ v ms => sizeOf v + sizeOf ms

end

/-- `json.loads` gives back what is written. -/
theorem loads_print {v : Json} {limit : Nat} (h : Writable v limit) : loads float limit (print floatText v) = .ok v := by
  obtain ⟨c, s, hs, hc⟩ := @print_head floatText v limit h
  have hmark : (print floatText v).head? ≠ some '\ufeff' := by
    rw [hs, List.head?_cons]
    intro heq
    rw [Option.some.inj heq] at hc
    exact absurd hc (by decide)
  have hskip := @skip_print floatText v limit h []
  have hread := @scanValue_print float floatText v limit (2 * (print floatText v).length + 2) [] h
    (fun c hc => by cases hc) (by omega)
  rw [List.append_nil] at hskip hread
  rw [loads, if_neg hmark, hskip, hread]
  exact if_pos rfl

end roundTrip

end Lib.Json
