/-
`int` of a text: a sign, and decimal digits of any script with single underscores between them.
-/
import OpenFish.Lib.Text

namespace Lib

/-- The code points of the zeros beside the ASCII one; the other digits of a script stand after its zero. -/
def foreignZeros : List Nat :=
  [0x660, 0x6f0, 0x7c0, 0x966, 0x9e6, 0xa66, 0xae6, 0xb66, 0xbe6, 0xc66, 0xce6, 0xd66, 0xde6, 0xe50, 0xed0, 0xf20,
    0x1040, 0x1090, 0x17e0, 0x1810, 0x1946, 0x19d0, 0x1a80, 0x1a90, 0x1b50, 0x1bb0, 0x1c40, 0x1c50, 0xa620, 0xa8d0,
    0xa900, 0xa9d0, 0xa9f0, 0xaa50, 0xabf0, 0xff10, 0x104a0, 0x10d30, 0x11066, 0x110f0, 0x11136, 0x111d0, 0x112f0,
    0x11450, 0x114d0, 0x11650, 0x116c0, 0x11730, 0x118e0, 0x11950, 0x11c50, 0x11d50, 0x11da0, 0x11f50, 0x16a60,
    0x16ac0, 0x16b50, 0x1d7ce, 0x1d7d8, 0x1d7e2, 0x1d7ec, 0x1d7f6, 0x1e140, 0x1e2f0, 0x1e4f0, 0x1e950, 0x1fbf0]

/-- `unicodedata.decimal(c)`. -/
def decimalValue (c : Char) : Option Nat :=
  if c.isDigit = true then some (c.toNat - '0'.toNat)
  else (foreignZeros.find? fun z => z ≤ c.toNat && c.toNat < z + 10).map fun z => c.toNat - z

/-- The values of digits, between which there may be single underscores. -/
def readDigits : List Char → Option (List Nat)
  | [] => none
  | [c] => (decimalValue c).map fun d => [d]
  | c :: '_' :: rest => (decimalValue c).bind fun d => (readDigits rest).map fun ds => d :: ds
  | c :: rest => (decimalValue c).bind fun d => (readDigits rest).map fun ds => d :: ds

/-- Digits that are not too many to be converted. -/
def readNatural (cs : List Char) : Option Nat :=
  (readDigits cs).bind fun ds => if 4300 < ds.length then none else some (ds.foldl (fun n d => 10 * n + d) 0)

def readSigned : List Char → Option Int
  | '+' :: cs => (readNatural cs).map Int.ofNat
  | '-' :: cs => (readNatural cs).map fun n => -Int.ofNat n
  | cs => (readNatural cs).map Int.ofNat

/-- `int(s)` of a text without white space around it; it raises where there is none. -/
def readInteger (s : String) : Option Int := readSigned s.toList

/-- The number that ASCII digits write, and nothing else does. -/
def digitsValue (s : String) : Option Nat :=
  if s ≠ "" ∧ s.toList.all Char.isDigit = true then some (Nat.ofDigitChars 10 s.toList 0) else none

theorem decimalValue_of_isDigit {c : Char} (h : c.isDigit = true) : decimalValue c = some (c.toNat - '0'.toNat) := if_pos h

theorem readDigits_ascii : ∀ {cs : List Char}, cs ≠ [] → (∀ c ∈ cs, c.isDigit = true) →
    readDigits cs = some (cs.map fun c => c.toNat - '0'.toNat)
  | [c], _, h => by
    rw [readDigits, decimalValue_of_isDigit (h c (List.mem_singleton_self _))]
    rfl
  | c :: d :: cs, _, h => by
    have hrest : ∀ e ∈ d :: cs, e.isDigit = true := fun e he => h e (List.mem_cons_of_mem _ he)
    have hd : d ≠ '_' := fun heq => absurd (heq ▸ hrest d (List.mem_cons_self ..)) (by decide)
    have hne : ∀ rest, d :: cs = '_' :: rest → False := fun rest heq => hd (List.cons.inj heq).1
    rw [readDigits, decimalValue_of_isDigit (h c (List.mem_cons_self ..)), readDigits_ascii (List.cons_ne_nil _ _) hrest]
    · rfl
    · exact List.cons_ne_nil _ _
    · exact hne

theorem foldl_digits (cs : List Char) (start : Nat) :
    (cs.map fun c => c.toNat - '0'.toNat).foldl (fun n d => 10 * n + d) start = Nat.ofDigitChars 10 cs start := by
  induction cs generalizing start with
  | nil => rfl
  | cons c cs ih => rw [List.map_cons, List.foldl_cons, ih, Nat.ofDigitChars_cons]

/-- Digits are read as the number they write, unless they are too many. -/
theorem readInteger_digits {s : String} {n : Nat} (h : digitsValue s = some n) :
    readInteger s = if 4300 < s.toList.length then none else some (n : Int) := by
  unfold digitsValue at h
  by_cases hs : s ≠ "" ∧ s.toList.all Char.isDigit = true
  · rw [if_pos hs] at h
    have hdigits : ∀ c ∈ s.toList, c.isDigit = true := List.all_eq_true.1 hs.2
    have hne : s.toList ≠ [] := fun heq => hs.1 (String.toList_eq_nil_iff.1 heq)
    have hread : readNatural s.toList = if 4300 < s.toList.length then none else some n := by
      rw [readNatural, readDigits_ascii hne hdigits, Option.bind_some, List.length_map, foldl_digits, Option.some.inj h]
    have hplus : ∀ cs, s.toList = '+' :: cs → False := fun cs heq =>
      absurd (hdigits '+' (heq ▸ List.mem_cons_self ..)) (by decide)
    have hminus : ∀ cs, s.toList = '-' :: cs → False := fun cs heq =>
      absurd (hdigits '-' (heq ▸ List.mem_cons_self ..)) (by decide)
    rw [readInteger, readSigned, hread]
    · split <;> rfl
    · exact hplus
    · exact hminus
  · rw [if_neg hs] at h
    exact absurd h (by simp)

end Lib
