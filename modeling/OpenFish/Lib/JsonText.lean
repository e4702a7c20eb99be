/-
The text of JSON as Python's `json` writes it, in ASCII and without white space, and as it reads it. The reader has a value
for every text, or says why there is none.
-/
import OpenFish.Lib.Integer
import OpenFish.Lib.Json

namespace Lib.Json

/-! ## Writing -/

def hexDigits : List Char := "0123456789abcdef".toList

def hexDigit (n : Nat) : Char := hexDigits.getD n '0'

/-- `\uXXXX`. -/
def unicodeEscape (n : Nat) : List Char :=
  ['\\', 'u', hexDigit (n / 4096), hexDigit (n / 256 % 16), hexDigit (n / 16 % 16), hexDigit (n % 16)]

/-- The characters that have an escape of two characters, and its second one. -/
def shortEscapes : List (Char × Char) :=
  [('"', '"'), ('\\', '\\'), ('\n', 'n'), ('\r', 'r'), ('\t', 't'), ('\x08', 'b'), ('\x0c', 'f')]

def escapeChar (c : Char) : List Char :=
  match shortEscapes.find? fun e => e.1 = c with
  | some e => ['\\', e.2]
  | none =>
    if 32 ≤ c.toNat ∧ c.toNat < 127 then [c]
    else if c.toNat < 0x10000 then unicodeEscape c.toNat
    -- a surrogate pair
    else unicodeEscape (0xd800 + (c.toNat - 0x10000) / 1024) ++ unicodeEscape (0xdc00 + (c.toNat - 0x10000) % 1024)

def quoted (s : String) : List Char := '"' :: (s.toList.flatMap escapeChar ++ ['"'])

/-- `str(n)` of an integer. -/
def intText : Int → List Char
  | .ofNat n => Nat.toDigits 10 n
  | .negSucc n => '-' :: Nat.toDigits 10 (n + 1)

mutual

/-- The text of a value, where a float has the text that it is given. -/
def print (floatText : BitVec 64 → List Char) : Json → List Char
  | null => "null".toList
  | bool true => "true".toList
  | bool false => "false".toList
  | int n => intText n
  | float bits => floatText bits
  | str s => quoted s
  | arr [] => ['[', ']']
  | arr (v :: vs) => '[' :: (print floatText v ++ printItems floatText vs)
  | obj [] => ['{', '}']
  | obj ((k, v) :: ms) => '{' :: (quoted k ++ ':' :: (print floatText v ++ printMembers floatText ms))

def printItems (floatText : BitVec 64 → List Char) : List Json → List Char
  | [] => [']']
  | v :: vs => ',' :: (print floatText v ++ printItems floatText vs)

def printMembers (floatText : BitVec 64 → List Char) : List (String × Json) → List Char
  | [] => ['}']
  | (k, v) :: ms => ',' :: (quoted k ++ ':' :: (print floatText v ++ printMembers floatText ms))

end

/-! ## Reading -/

/-- Why a text is not read: it is no JSON (a `ValueError`), it is nested too deep (a `RecursionError`), or the reader had
too little fuel, which never happens. -/
inductive Failure
  | invalid
  | tooDeep
  | exhausted
  deriving DecidableEq, Repr

def skip (s : List Char) : List Char := s.dropWhile fun c => c = ' ' || c = '\t' || c = '\n' || c = '\r'

def hexValue (c : Char) : Option Nat :=
  if c.isDigit = true then some (c.toNat - '0'.toNat)
  else if 'a'.toNat ≤ c.toNat ∧ c.toNat ≤ 'f'.toNat then some (c.toNat - 'a'.toNat + 10)
  else if 'A'.toNat ≤ c.toNat ∧ c.toNat ≤ 'F'.toNat then some (c.toNat - 'A'.toNat + 10)
  else none

/-- The number of four hexadecimal digits. -/
def readHex : List Char → Option (Nat × List Char)
  | c₁ :: c₂ :: c₃ :: c₄ :: rest =>
    (hexValue c₁).bind fun n₁ => (hexValue c₂).bind fun n₂ => (hexValue c₃).bind fun n₃ => (hexValue c₄).map fun n₄ =>
      (4096 * n₁ + 256 * n₂ + 16 * n₃ + n₄, rest)
  | _ => none

/-- The character of a code unit. A lone surrogate, which no `String` holds, is the replacement character here. -/
def unitChar (n : Nat) : Char := if n.isValidChar then Char.ofNat n else '\ufffd'

/-- The character after a `\u`, of one code unit or of a surrogate pair. -/
def readUnicode (s : List Char) : Option (Char × List Char) :=
  (readHex s).bind fun first =>
    if 0xd800 ≤ first.1 ∧ first.1 < 0xdc00 ∧ ['\\', 'u'].isPrefixOf first.2 = true then
      (readHex (first.2.drop 2)).map fun second =>
        if 0xdc00 ≤ second.1 ∧ second.1 < 0xe000 then
          (Char.ofNat (0x10000 + (first.1 - 0xd800) * 1024 + (second.1 - 0xdc00)), second.2)
        else (unitChar first.1, first.2)
    else some (unitChar first.1, first.2)

/-- The character after a backslash. -/
def readEscape : List Char → Option (Char × List Char)
  | [] => none
  | e :: s =>
    if e = 'u' then readUnicode s
    else if e = '/' then some ('/', s)
    else (shortEscapes.find? fun p => p.2 = e).map fun p => (p.1, s)

/-- The characters up to the closing quote, and what follows it. -/
def scanString : Nat → List Char → Option (List Char × List Char)
  | 0, _ => none
  | _ + 1, [] => none
  | fuel + 1, c :: rest =>
    if c = '"' then some ([], rest)
    else if c = '\\' then (readEscape rest).bind fun r => (scanString fuel r.2).map fun s => (r.1 :: s.1, s.2)
    else if c.toNat < 32 then none
    else (scanString fuel rest).map fun s => (c :: s.1, s.2)

/-- The digits of a whole number: no zero stands in front of others. -/
def scanDigits : List Char → Option (List Char × List Char)
  | [] => none
  | c :: rest =>
    if c = '0' then some (['0'], rest)
    else if c.isDigit = true then some (c :: rest.takeWhile Char.isDigit, rest.dropWhile Char.isDigit)
    else none

def scanFraction : List Char → List Char × List Char
  | [] => ([], [])
  | c :: rest =>
    if c = '.' ∧ rest.takeWhile Char.isDigit ≠ [] then (c :: rest.takeWhile Char.isDigit, rest.dropWhile Char.isDigit)
    else ([], c :: rest)

def scanSign : List Char → List Char × List Char
  | [] => ([], [])
  | c :: rest => if c = '+' ∨ c = '-' then ([c], rest) else ([], c :: rest)

def scanExponent : List Char → List Char × List Char
  | [] => ([], [])
  | c :: rest =>
    let signed := scanSign rest
    if (c = 'e' ∨ c = 'E') ∧ signed.2.takeWhile Char.isDigit ≠ [] then
      (c :: (signed.1 ++ signed.2.takeWhile Char.isDigit), signed.2.dropWhile Char.isDigit)
    else ([], c :: rest)

/-- A number without its sign: an integer, unless it has a fraction or an exponent. -/
def scanUnsigned (float : List Char → BitVec 64) (negative : Bool) (s : List Char) : Option (Json × List Char) :=
  (scanDigits s).bind fun whole =>
    let fraction := scanFraction whole.2
    let exponent := scanExponent fraction.2
    if fraction.1 = [] ∧ exponent.1 = [] then
      (readNatural whole.1).map fun n : Nat => (int (if negative then -(n : Int) else n), whole.2)
    else some (Json.float (float ((if negative then ['-'] else []) ++ whole.1 ++ fraction.1 ++ exponent.1)), exponent.2)

def literals : List (String × Json) :=
  [("null", null), ("true", bool true), ("false", bool false), ("NaN", float 0x7ff8000000000000#64),
    ("Infinity", float 0x7ff0000000000000#64), ("-Infinity", float 0xfff0000000000000#64)]

/-- A value that is no string and has no parts. -/
def scanAtom (float : List Char → BitVec 64) : List Char → Option (Json × List Char)
  | [] => none
  | c :: rest =>
    if c.isDigit = true then scanUnsigned float false (c :: rest)
    else
      match literals.find? fun l => l.1.toList.isPrefixOf (c :: rest) with
      | some l => some (l.2, (c :: rest).drop l.1.length)
      | none => if c = '-' then scanUnsigned float true rest else none

/-- The dictionary of the members: the last one with a key has its value. -/
def collect (members : List (String × Json)) : List (String × Json) := members.foldl (fun d m => assign d m.1 m.2) []

mutual

/-- The value at the head of a text, which may be nested as deep as `depth`, and what follows it. -/
def scanValue (float : List Char → BitVec 64) : Nat → Nat → List Char → Except Failure (Json × List Char)
  | 0, _, _ => .error .exhausted
  | _ + 1, _, [] => .error .invalid
  | fuel + 1, depth, c :: rest =>
    if c = '"' then
      match scanString rest.length rest with
      | none => .error .invalid
      | some s => .ok (str (String.ofList s.1), s.2)
    else if c = '[' then
      if depth = 0 then .error .tooDeep
      else if (skip rest).head? = some ']' then .ok (arr [], (skip rest).tail)
      else
        match scanItems float fuel (depth - 1) (skip rest) with
        | .error e => .error e
        | .ok r => .ok (arr r.1, r.2)
    else if c = '{' then
      if depth = 0 then .error .tooDeep
      else if (skip rest).head? = some '}' then .ok (obj [], (skip rest).tail)
      else
        match scanMembers float fuel (depth - 1) (skip rest) with
        | .error e => .error e
        | .ok r => .ok (obj (collect r.1), r.2)
    else
      match scanAtom float (c :: rest) with
      | none => .error .invalid
      | some r => .ok r

/-- The items up to the closing bracket. -/
def scanItems (float : List Char → BitVec 64) : Nat → Nat → List Char → Except Failure (List Json × List Char)
  | 0, _, _ => .error .exhausted
  | fuel + 1, depth, s =>
    match scanValue float fuel depth s with
    | .error e => .error e
    | .ok r =>
      match skip r.2 with
      | [] => .error .invalid
      | c :: rest =>
        if c = ']' then .ok ([r.1], rest)
        else if c = ',' then
          match scanItems float fuel depth (skip rest) with
          | .error e => .error e
          | .ok more => .ok (r.1 :: more.1, more.2)
        else .error .invalid

/-- The members up to the closing brace. -/
def scanMembers (float : List Char → BitVec 64) : Nat → Nat → List Char → Except Failure (List (String × Json) × List Char)
  | 0, _, _ => .error .exhausted
  | _ + 1, _, [] => .error .invalid
  | fuel + 1, depth, c :: rest =>
    if c = '"' then
      match scanString rest.length rest with
      | none => .error .invalid
      | some k =>
        match skip k.2 with
        | [] => .error .invalid
        | c :: rest =>
          if c = ':' then
            match scanValue float fuel depth (skip rest) with
            | .error e => .error e
            | .ok r =>
              match skip r.2 with
              | [] => .error .invalid
              | c :: rest =>
                if c = '}' then .ok ([(String.ofList k.1, r.1)], rest)
                else if c = ',' then
                  match scanMembers float fuel depth (skip rest) with
                  | .error e => .error e
                  | .ok more => .ok ((String.ofList k.1, r.1) :: more.1, more.2)
                else .error .invalid
          else .error .invalid
    else .error .invalid

end

/-- `json.loads`, where `limit` is how deep the interpreter's stack lets a value be nested. -/
def loads (float : List Char → BitVec 64) (limit : Nat) (s : List Char) : Except Failure Json :=
  if s.head? = some '\ufeff' then .error .invalid
  else
    match scanValue float (2 * s.length + 2) limit (skip s) with
    | .error e => .error e
    | .ok r => if skip r.2 = [] then .ok r.1 else .error .invalid

/-! ## The fuel is enough -/

theorem length_skip_le (s : List Char) : (skip s).length ≤ s.length := (List.dropWhile_suffix _).length_le

theorem length_readHex {s : List Char} {r : Nat × List Char} (h : readHex s = some r) : r.2.length < s.length := by
  match s with
  | [] | [_] | [_, _] | [_, _, _] => cases h
  | c₁ :: c₂ :: c₃ :: c₄ :: rest =>
    rw [readHex] at h
    simp only [Option.bind_eq_some_iff, Option.map_eq_some_iff] at h
    obtain ⟨_, -, _, -, _, -, _, -, rfl⟩ := h
    simp only [List.length_cons]
    omega

theorem length_readUnicode {s : List Char} {r : Char × List Char} (h : readUnicode s = some r) : r.2.length < s.length := by
  rw [readUnicode, Option.bind_eq_some_iff] at h
  obtain ⟨first, hfirst, h⟩ := h
  have hlt := length_readHex hfirst
  split at h
  · obtain ⟨second, hsecond, rfl⟩ := Option.map_eq_some_iff.1 h
    have hlt' := length_readHex hsecond
    rw [List.length_drop] at hlt'
    split
    · simp only
      omega
    · exact hlt
  · rw [← Option.some.inj h]
    exact hlt

theorem length_readEscape {s : List Char} {r : Char × List Char} (h : readEscape s = some r) : r.2.length < s.length := by
  cases s with
  | nil => cases h
  | cons e s =>
    rw [readEscape] at h
    split at h
    · exact Nat.lt_succ_of_lt (length_readUnicode h)
    · split at h
      · rw [← Option.some.inj h]
        exact Nat.lt_succ_self _
      · obtain ⟨p, -, rfl⟩ := Option.map_eq_some_iff.1 h
        exact Nat.lt_succ_self _

theorem length_scanString : ∀ {fuel : Nat} {s : List Char} {r : List Char × List Char}, scanString fuel s = some r →
    r.2.length < s.length
  | 0, _, _, h => by cases h
  | _ + 1, [], _, h => by cases h
  | fuel + 1, c :: rest, r, h => by
    rw [scanString] at h
    split at h
    · rw [← Option.some.inj h]
      exact Nat.lt_succ_self _
    · split at h
      · obtain ⟨e, he, h⟩ := Option.bind_eq_some_iff.1 h
        obtain ⟨r', hr', rfl⟩ := Option.map_eq_some_iff.1 h
        have hlt := length_readEscape he
        have hlt' := length_scanString hr'
        exact Nat.lt_succ_of_lt (hlt'.trans hlt)
      · split at h
        · cases h
        · obtain ⟨r', hr', rfl⟩ := Option.map_eq_some_iff.1 h
          have hlt' := length_scanString hr'
          exact Nat.lt_succ_of_lt hlt'

theorem length_scanDigits {s : List Char} {r : List Char × List Char} (h : scanDigits s = some r) : r.2.length < s.length := by
  cases s with
  | nil => cases h
  | cons c rest =>
    rw [scanDigits] at h
    split at h
    · rw [← Option.some.inj h]
      exact Nat.lt_succ_self _
    · split at h
      · rw [← Option.some.inj h]
        exact Nat.lt_succ_of_le (List.dropWhile_suffix _).length_le
      · cases h

theorem length_scanFraction_le (s : List Char) : (scanFraction s).2.length ≤ s.length := by
  cases s with
  | nil => exact Nat.le_refl _
  | cons c rest =>
    rw [scanFraction]
    split
    · exact Nat.le_succ_of_le (List.dropWhile_suffix _).length_le
    · exact Nat.le_refl _

theorem length_scanExponent_le (s : List Char) : (scanExponent s).2.length ≤ s.length := by
  cases s with
  | nil => exact Nat.le_refl _
  | cons c rest =>
    have hsign : (scanSign rest).2.length ≤ rest.length := by
      cases rest with
      | nil => exact Nat.le_refl _
      | cons c rest =>
        rw [scanSign]
        split
        · exact Nat.le_succ _
        · exact Nat.le_refl _
    rw [scanExponent]
    split
    · exact Nat.le_succ_of_le ((List.dropWhile_suffix _).length_le.trans hsign)
    · exact Nat.le_refl _

theorem length_scanUnsigned {float : List Char → BitVec 64} {negative : Bool} {s : List Char} {r : Json × List Char}
    (h : scanUnsigned float negative s = some r) : r.2.length < s.length := by
  rw [scanUnsigned, Option.bind_eq_some_iff] at h
  obtain ⟨whole, hwhole, h⟩ := h
  have hlt := length_scanDigits hwhole
  simp only at h
  by_cases hint : (scanFraction whole.2).1 = [] ∧ (scanExponent (scanFraction whole.2).2).1 = []
  · rw [if_pos hint] at h
    obtain ⟨n, -, rfl⟩ := Option.map_eq_some_iff.1 h
    exact hlt
  · rw [if_neg hint] at h
    rw [← Option.some.inj h]
    exact ((length_scanExponent_le _).trans (length_scanFraction_le _)).trans_lt hlt

theorem length_scanAtom {float : List Char → BitVec 64} {s : List Char} {r : Json × List Char}
    (h : scanAtom float s = some r) : r.2.length < s.length := by
  cases s with
  | nil => cases h
  | cons c rest =>
    rw [scanAtom] at h
    split at h
    · exact length_scanUnsigned h
    · cases hfind : literals.find? fun l => l.1.toList.isPrefixOf (c :: rest) with
      | some l =>
        have hpos : ∀ l ∈ literals, 0 < l.1.length := by decide
        have hlength := hpos l (List.mem_of_find?_eq_some hfind)
        rw [hfind] at h
        rw [← Option.some.inj h, List.length_drop, List.length_cons]
        omega
      | none =>
        rw [hfind] at h
        simp only at h
        split at h
        · exact Nat.lt_succ_of_lt (length_scanUnsigned h)
        · cases h

/-- A scan does not run out of fuel, and takes at least one character. -/
def Advances {α : Type} (s : List Char) (result : Except Failure (α × List Char)) : Prop :=
  result ≠ .error .exhausted ∧ ∀ r, result = .ok r → r.2.length < s.length

theorem advances_error {α : Type} {s : List Char} {e : Failure} (h : e ≠ .exhausted) :
    Advances s (.error e : Except Failure (α × List Char)) :=
  ⟨fun heq => h (Except.error.inj heq), fun _ heq => by cases heq⟩

theorem advances_ok {α : Type} {s rest : List Char} {v : α} (h : rest.length < s.length) : Advances s (.ok (v, rest)) := by
  refine ⟨fun heq => (by cases heq), fun r heq => ?_⟩
  rw [← Except.ok.inj heq]
  exact h

section part

variable {α β : Type} {s part : List Char} {result : Except Failure (α × List Char)}

theorem Advances.error (h : Advances part result) {e : Failure} (heq : result = .error e) :
    Advances s (.error e : Except Failure (β × List Char)) :=
  advances_error fun hexhausted => h.1 (heq.trans (congrArg _ hexhausted))

/-- What is scanned of a part of a text is advanced over in the whole, too. -/
theorem Advances.ok (h : Advances part result) {r : α × List Char} (heq : result = .ok r) (hle : part.length ≤ s.length)
    (v : β) : Advances s (.ok (v, r.2)) :=
  advances_ok (Nat.lt_of_lt_of_le (h.2 r heq) hle)

end part

section fuel

variable (float : List Char → BitVec 64)

theorem advances_scan (fuel : Nat) :
    (∀ depth s, 2 * s.length + 1 ≤ fuel → Advances s (scanValue float fuel depth s)) ∧
      (∀ depth s, 2 * s.length + 2 ≤ fuel → Advances s (scanItems float fuel depth s)) ∧
      ∀ depth s, 2 * s.length + 2 ≤ fuel → Advances s (scanMembers float fuel depth s) := by
  induction fuel with
  | zero => exact ⟨fun _ _ h => absurd h (by omega), fun _ _ h => absurd h (by omega), fun _ _ h => absurd h (by omega)⟩
  | succ fuel ih =>
    obtain ⟨hvalue, hitems, hmembers⟩ := ih
    refine ⟨fun depth s h => ?_, fun depth s h => ?_, fun depth s h => ?_⟩
    · cases s with
      | nil => exact advances_error (by decide)
      | cons c rest =>
        have hskip := length_skip_le rest
        have hless : (skip rest).length ≤ (c :: rest).length := Nat.le_succ_of_le hskip
        -- an empty list or object ends behind its second bracket
        have htail : (skip rest).tail.length < (c :: rest).length := by
          rw [List.length_tail, List.length_cons]
          omega
        rw [List.length_cons] at h
        rw [scanValue]
        split
        · cases hs : scanString rest.length rest with
          | none => exact advances_error (by decide)
          | some r => exact advances_ok (Nat.lt_succ_of_lt (length_scanString hs))
        · split
          · split
            · exact advances_error (by decide)
            · split
              · exact advances_ok htail
              · have hread := hitems (depth - 1) (skip rest) (by omega)
                cases hresult : scanItems float fuel (depth - 1) (skip rest) with
                | error e => exact hread.error hresult
                | ok r => exact hread.ok hresult hless _
          · split
            · split
              · exact advances_error (by decide)
              · split
                · exact advances_ok htail
                · have hread := hmembers (depth - 1) (skip rest) (by omega)
                  cases hresult : scanMembers float fuel (depth - 1) (skip rest) with
                  | error e => exact hread.error hresult
                  | ok r => exact hread.ok hresult hless _
            · cases hatom : scanAtom float (c :: rest) with
              | none => exact advances_error (by decide)
              | some r => exact advances_ok (length_scanAtom hatom)
    · have hfirst := hvalue depth s (by omega)
      rw [scanItems]
      cases hread : scanValue float fuel depth s with
      | error e => exact hfirst.error hread
      | ok r =>
        -- the rest is read from what the first item left
        have hlt := hfirst.2 r hread
        have hskip := length_skip_le r.2
        simp only
        cases hafter : skip r.2 with
        | nil => exact advances_error (by decide)
        | cons c rest =>
          have hrest := length_skip_le rest
          rw [hafter, List.length_cons] at hskip
          simp only
          split
          · exact advances_ok (by omega)
          · split
            · have hmore := hitems depth (skip rest) (by omega)
              cases hresult : scanItems float fuel depth (skip rest) with
              | error e => exact hmore.error hresult
              | ok more => exact hmore.ok hresult (by omega) _
            · exact advances_error (by decide)
    · cases s with
      | nil => exact advances_error (by decide)
      | cons c rest =>
        rw [List.length_cons] at h
        rw [scanMembers]
        split
        · cases hkey : scanString rest.length rest with
          | none => exact advances_error (by decide)
          | some k =>
            have hlt := length_scanString hkey
            have hskip := length_skip_le k.2
            simp only
            cases hcolon : skip k.2 with
            | nil => exact advances_error (by decide)
            | cons c' after =>
              have hafter := length_skip_le after
              rw [hcolon, List.length_cons] at hskip
              simp only
              split
              · have hfirst := hvalue depth (skip after) (by omega)
                cases hread : scanValue float fuel depth (skip after) with
                | error e => exact hfirst.error hread
                | ok r =>
                  have hless := hfirst.2 r hread
                  have hskip' := length_skip_le r.2
                  simp only
                  cases hnext : skip r.2 with
                  | nil => exact advances_error (by decide)
                  | cons c'' rest' =>
                    have hrest := length_skip_le rest'
                    rw [hnext, List.length_cons] at hskip'
                    simp only
                    split
                    · exact advances_ok (by rw [List.length_cons]; omega)
                    · split
                      · have hmore := hmembers depth (skip rest') (by omega)
                        cases hresult : scanMembers float fuel depth (skip rest') with
                        | error e => exact hmore.error hresult
                        | ok more => exact hmore.ok hresult (by rw [List.length_cons]; omega) _
                      · exact advances_error (by decide)
              · exact advances_error (by decide)
        · exact advances_error (by decide)

/-- `json.loads` gives a value, or fails as it does in Python. -/
theorem loads_ne_exhausted (limit : Nat) (s : List Char) : loads float limit s ≠ .error .exhausted := by
  have hskip := length_skip_le s
  have hscan := ((advances_scan float (2 * s.length + 2)).1 limit (skip s) (by omega)).1
  unfold loads
  split
  · exact fun heq => absurd (Except.error.inj heq) (by decide)
  · cases hread : scanValue float (2 * s.length + 2) limit (skip s) with
    | error e => exact fun heq => hscan (hread.trans (congrArg _ (Except.error.inj heq)))
    | ok r =>
      simp only
      split
      · exact fun heq => by cases heq
      · exact fun heq => absurd (Except.error.inj heq) (by decide)

end fuel

end Lib.Json
