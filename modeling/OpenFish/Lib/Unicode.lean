/-
The Unicode tables behind Python's `str` and `re`, of which only what they say about ASCII is fixed here.
-/
import OpenFish.Lib.Text

namespace Lib

structure Unicode where
  /-- `\w`. -/
  word : Char → Bool
  /-- `\d`. -/
  decimal : Char → Bool
  /-- `str.lower`. -/
  lower : String → String
  word_ascii : ∀ c : Char, c.toNat < 128 → word c = (c.isAlphanum || c == '_')
  decimal_ascii : ∀ c : Char, c.toNat < 128 → decimal c = c.isDigit
  lower_ascii : ∀ s : String, (∀ c ∈ s.toList, c.toNat < 128) → lower s = String.ofList (s.toList.map Char.toLower)

/-- The tables of a text that is all ASCII. -/
def Unicode.ascii : Unicode where
  word c := c.isAlphanum || c == '_'
  decimal := Char.isDigit
  lower s := String.ofList (s.toList.map Char.toLower)
  word_ascii _ _ := rfl
  decimal_ascii _ _ := rfl
  lower_ascii _ _ := rfl

/-- What `unicodedata.normalize("NFKD", s)` leaves of a character once all that is not ASCII is left out. -/
structure Folding where
  ascii : Char → List Char
  ascii_self : ∀ c : Char, c.toNat < 128 → ascii c = [c]

/-- The folding of a text that is all ASCII. -/
def Folding.plain : Folding where
  ascii c := if c.toNat < 128 then [c] else []
  ascii_self _ h := if_pos h

/-- A character without case, which no case mapping yields: what is ASCII and no letter, and the compatibility
forms of `/?#@:` and of texts with one of them. -/
def caseless (c : Char) : Bool :=
  (decide (c.toNat < 128) && !c.isAlpha) ||
    c.toNat ∈ [0x2047, 0x2048, 0x2049, 0x2100, 0x2101, 0x2105, 0x2106, 0x2a74, 0xfe13, 0xfe16, 0xfe55, 0xfe56, 0xfe5f,
      0xfe6b, 0xff03, 0xff0f, 0xff1a, 0xff1f, 0xff20]

/-- `str.lower`: what it has mapped it leaves alone, it shortens no text and leaves no ASCII capital, it moves no
character without case, and a `%` ends the context of the letters before it. -/
structure Casing where
  lower : String → String
  length_le : ∀ s, s.toList.length ≤ (lower s).toList.length
  not_isUpper : ∀ s, ∀ c ∈ (lower s).toList, c.isUpper = false
  lower_lower : ∀ s, lower (lower s) = lower s
  lower_percent : ∀ a b, lower (a ++ "%" ++ b) = lower a ++ "%" ++ lower b
  count_lower : ∀ s c, caseless c = true → (lower s).toList.count c = s.toList.count c

theorem Casing.mem_lower (py : Casing) (s : String) (c : Char) (hc : caseless c = true) :
    c ∈ (py.lower s).toList ↔ c ∈ s.toList := by
  rw [← List.count_pos_iff, ← List.count_pos_iff, py.count_lower s c hc]

theorem isUpper_iff {c : Char} : c.isUpper = true ↔ 65 ≤ c.toNat ∧ c.toNat ≤ 90 := by
  unfold Char.isUpper
  simp [UInt32.le_iff_toNat_le]

theorem isLower_iff {c : Char} : c.isLower = true ↔ 97 ≤ c.toNat ∧ c.toNat ≤ 122 := by
  unfold Char.isLower
  simp [UInt32.le_iff_toNat_le]

theorem isAlpha_eq (c : Char) : c.isAlpha = (c.isUpper || c.isLower) := rfl

theorem toLower_of_isUpper {c : Char} (h : c.isUpper = true) : c.toLower.toNat = c.toNat + 32 := by
  have hrange := isUpper_iff.1 h
  have hval : 'A'.val ≤ c.val ∧ c.val ≤ 'Z'.val := of_decide_eq_true h
  unfold Char.toLower
  rw [dif_pos hval]
  change (c.val + ('a'.val - 'A'.val)).toNat = c.toNat + 32
  rw [UInt32.toNat_add, Nat.mod_eq_of_lt]
  · rfl
  · have : ('a'.val - 'A'.val).toNat = 32 := rfl
    have : c.val.toNat = c.toNat := rfl
    omega

theorem toLower_of_not_isUpper {c : Char} (h : c.isUpper = false) : c.toLower = c := by
  have hval : ¬ ('A'.val ≤ c.val ∧ c.val ≤ 'Z'.val) := of_decide_eq_false h
  unfold Char.toLower
  rw [dif_neg hval]

theorem not_caseless_of_isLower {c : Char} (h : c.isLower = true) : caseless c = false := by
  have hrange := isLower_iff.1 h
  have hne (n : ℕ) (hn : 122 < n) : c.toNat ≠ n := by omega
  simp [caseless, isAlpha_eq, h, hne]

theorem toLower_of_caseless {c : Char} (h : caseless c = true) : c.toLower = c := by
  cases hup : c.isUpper with
  | false => exact toLower_of_not_isUpper hup
  | true =>
    have hrange := isUpper_iff.1 hup
    have hne (n : ℕ) (hn : 90 < n) : c.toNat ≠ n := by omega
    simp [caseless, isAlpha_eq, hup, hne] at h

/-- No letter has a lower case without case. -/
theorem toLower_eq_caseless {c d : Char} (hd : caseless d = true) : c.toLower = d ↔ c = d := by
  constructor
  · intro h
    cases hup : c.isUpper with
    | false => rwa [toLower_of_not_isUpper hup] at h
    | true =>
      have hrange := isUpper_iff.1 hup
      have hto := toLower_of_isUpper hup
      have hlow : c.toLower.isLower = true := by rw [isLower_iff]; omega
      rw [← h, not_caseless_of_isLower hlow] at hd
      cases hd
  · rintro rfl
    exact toLower_of_caseless hd

/-- `Text.lower` of one character. -/
def lowerChar (c : Char) : Char := if c.toNat = 0x212a then 'k' else c.toLower

theorem lowerChar_of_isUpper {c : Char} (h : c.isUpper = true) : (lowerChar c).isLower = true := by
  have hrange := isUpper_iff.1 h
  rw [lowerChar, if_neg (by omega), isLower_iff, toLower_of_isUpper h]
  omega

theorem lowerChar_of_not_isUpper {c : Char} (h : c.isUpper = false) : lowerChar c = c ∨ lowerChar c = 'k' := by
  unfold lowerChar
  split
  · exact .inr rfl
  · exact .inl (toLower_of_not_isUpper h)

theorem lowerChar_of_isLower {c : Char} (h : c.isLower = true) : lowerChar c = c := by
  have hrange := isLower_iff.1 h
  have hup : c.isUpper = false := by
    rw [← Bool.not_eq_true, isUpper_iff]
    omega
  rw [lowerChar, if_neg (by omega), toLower_of_not_isUpper hup]

theorem lowerChar_not_isUpper (c : Char) : (lowerChar c).isUpper = false := by
  cases hup : c.isUpper with
  | true =>
    have hrange := isLower_iff.1 (lowerChar_of_isUpper hup)
    rw [← Bool.not_eq_true, isUpper_iff]
    omega
  | false =>
    obtain h | h := lowerChar_of_not_isUpper hup
    · rw [h, hup]
    · rw [h]; rfl

theorem lowerChar_idem (c : Char) : lowerChar (lowerChar c) = lowerChar c := by
  cases hup : c.isUpper with
  | true => exact lowerChar_of_isLower (lowerChar_of_isUpper hup)
  | false =>
    obtain h | h := lowerChar_of_not_isUpper hup
    · rw [h, h]
    · rw [h]; rfl

theorem lowerChar_of_caseless {c : Char} (h : caseless c = true) : lowerChar c = c := by
  cases hup : c.isUpper with
  | true =>
    have hrange := isUpper_iff.1 hup
    have hne (n : ℕ) (hn : 90 < n) : c.toNat ≠ n := by omega
    simp [caseless, isAlpha_eq, hup, hne] at h
  | false =>
    obtain hc | hc := lowerChar_of_not_isUpper hup
    · exact hc
    · -- the Kelvin sign is neither ASCII nor one of the compatibility forms
      unfold lowerChar at hc ⊢
      split
      · rename_i hkelvin
        simp [caseless, hkelvin] at h
      · rw [if_neg (by assumption)] at hc
        exact toLower_of_not_isUpper hup

theorem lowerChar_eq_caseless {c d : Char} (hd : caseless d = true) : lowerChar c = d ↔ c = d := by
  constructor
  · intro h
    cases hup : c.isUpper with
    | true => rw [← h, not_caseless_of_isLower (lowerChar_of_isUpper hup)] at hd; cases hd
    | false =>
      obtain hc | hc := lowerChar_of_not_isUpper hup
      · rw [← h, hc]
      · rw [← h, hc] at hd; exact absurd hd (by decide)
  · rintro rfl
    exact lowerChar_of_caseless hd

theorem lower_toList (s : String) : (Text.lower s).toList = s.toList.map lowerChar := by
  rw [Text.lower, String.toList_ofList]
  rfl

/-- The mapping of a text for comparison with ASCII words. -/
def Casing.ascii : Casing where
  lower := Text.lower
  length_le s := by rw [lower_toList, List.length_map]
  not_isUpper s := by
    rw [lower_toList]
    intro c hc
    obtain ⟨d, -, rfl⟩ := List.mem_map.1 hc
    exact lowerChar_not_isUpper d
  lower_lower s := by
    rw [← String.toList_inj, lower_toList, lower_toList, List.map_map]
    exact List.map_congr_left fun c _ => lowerChar_idem c
  lower_percent a b := by
    simp only [← String.toList_inj, String.toList_append, lower_toList, List.map_append]
    rfl
  count_lower s c hc := by
    rw [lower_toList, List.count, List.countP_map]
    refine List.countP_congr fun d _ => ?_
    simp only [Function.comp, beq_iff_eq]
    exact lowerChar_eq_caseless hc

end Lib
