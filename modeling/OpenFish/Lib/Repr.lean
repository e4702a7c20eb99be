/-
The texts that Python's `repr` gives nested values: strings with the quote that needs the least escapes, lists and
dictionaries. No two values have the same text.
-/
import Mathlib.Tactic.Ring
import OpenFish.Lib.JsonRoundTrip

namespace Lib.Repr

/-- A value of strings, floats of any kind, `None`, lists and dictionaries with text keys. -/
inductive Value (F : Type)
  | none
  | float (x : F)
  | str (s : String)
  | list (items : List (Value F))
  | dict (entries : List (String × Value F))

/-! ## Characters and strings -/

/-- The last `n` digits of a number. -/
def pad (base : Nat) : Nat → Nat → List Char
  | 0, _ => []
  | n + 1, k => Json.hexDigit (k / base ^ n % base) :: pad base n k

def hexPad : Nat → Nat → List Char := pad 16

/-- The characters that are shown as they are, as far as they are not ASCII (`str.isprintable`). -/
abbrev Printable := Char → Bool

/-- A character between two quotes `q`. -/
def escape (printable : Printable) (q c : Char) : List Char :=
  if c = q ∨ c = '\\' then ['\\', c]
  else if c = '\t' then ['\\', 't']
  else if c = '\n' then ['\\', 'n']
  else if c = '\r' then ['\\', 'r']
  else if c.toNat < 32 ∨ c.toNat = 127 then '\\' :: 'x' :: hexPad 2 c.toNat
  else if c.toNat < 127 ∨ printable c = true then [c]
  else if c.toNat < 256 then '\\' :: 'x' :: hexPad 2 c.toNat
  else if c.toNat < 65536 then '\\' :: 'u' :: hexPad 4 c.toNat
  else '\\' :: 'U' :: hexPad 8 c.toNat

/-- Single quotes, unless the text has some and no double ones. -/
def quoteOf (s : List Char) : Char := if '\'' ∈ s ∧ '"' ∉ s then '"' else '\''

def reprChars (printable : Printable) (s : List Char) : List Char :=
  quoteOf s :: (s.flatMap (escape printable (quoteOf s)) ++ [quoteOf s])

/-! ## Values -/

section Values

variable {F : Type} (printable : Printable) (floatText : F → String)

mutual

/-- `repr(value)`. -/
def repr : Value F → List Char
  | .none => ['N', 'o', 'n', 'e']
  | .float x => (floatText x).toList
  | .str s => reprChars printable s.toList
  | .list items => '[' :: reprItems [] items
  | .dict entries => '{' :: reprEntries [] entries

/-- The items of a list, each after a separator, and the closing bracket. -/
def reprItems : List Char → List (Value F) → List Char
  | _, [] => [']']
  | separator, v :: vs => separator ++ (repr v ++ reprItems [',', ' '] vs)

/-- The entries of a dictionary, each after a separator, and the closing brace. -/
def reprEntries : List Char → List (String × Value F) → List Char
  | _, [] => ['\x7d']
  | separator, (k, v) :: es =>
    separator ++ (reprChars printable k.toList ++ ':' :: ' ' :: (repr v ++ reprEntries [',', ' '] es))

end

end Values

/-! ## Reading a character back -/

/-- The number of `n` digits after those that made `value`. -/
def readPad (base : Nat) : Nat → Nat → List Char → Option (Nat × List Char)
  | 0, value, s => some (value, s)
  | _ + 1, _, [] => none
  | n + 1, value, c :: s => (Json.hexValue c).bind fun d => readPad base n (base * value + d) s

theorem readPad_pad {base : Nat} (hpos : 0 < base) (hbase : base ≤ 16) (k : Nat) (t : List Char) : ∀ n value,
    readPad base n value (pad base n k ++ t) = some (value * base ^ n + k % base ^ n, t)
  | 0, value => by simp [readPad, pad, Nat.mod_one]
  | n + 1, value => by
    have hdigit := Json.hexValue_hexDigit (k / base ^ n % base) (Nat.lt_of_lt_of_le (Nat.mod_lt _ hpos) hbase)
    have hmod : k % base ^ (n + 1) = k % base ^ n + base ^ n * (k / base ^ n % base) := Nat.mod_pow_succ
    rw [pad, List.cons_append, readPad, hdigit, Option.bind_some, readPad_pad hpos hbase k t n, hmod, Nat.pow_succ]
    congr 2
    ring

/-- The first character of an escaped text, and what follows it. -/
def unescape : List Char → Option (Char × List Char)
  | [] => none
  | c :: s =>
    if c ≠ '\\' then some (c, s)
    else
      match s with
      | [] => none
      | e :: s =>
        if e = 't' then some ('\t', s)
        else if e = 'n' then some ('\n', s)
        else if e = 'r' then some ('\r', s)
        else if e = 'x' then (readPad 16 2 0 s).map fun r => (Char.ofNat r.1, r.2)
        else if e = 'u' then (readPad 16 4 0 s).map fun r => (Char.ofNat r.1, r.2)
        else if e = 'U' then (readPad 16 8 0 s).map fun r => (Char.ofNat r.1, r.2)
        else some (e, s)

theorem unescape_pad {n : Nat} {e c : Char} (he : (e, n) ∈ [('x', 2), ('u', 4), ('U', 8)]) (hc : c.toNat < 16 ^ n)
    (t : List Char) : unescape ('\\' :: e :: (hexPad n c.toNat ++ t)) = some (c, t) := by
  have hread : (readPad 16 n 0 (hexPad n c.toNat ++ t)).map (fun r => (Char.ofNat r.1, r.2)) = some (c, t) := by
    rw [hexPad, readPad_pad (by decide) (by decide), Nat.mod_eq_of_lt hc, Nat.zero_mul, Nat.zero_add, Option.map_some, Char.ofNat_toNat]
  simp only [List.mem_cons, Prod.mk.injEq, List.not_mem_nil, or_false] at he
  rcases he with ⟨rfl, rfl⟩ | ⟨rfl, rfl⟩ | ⟨rfl, rfl⟩ <;> exact hread

theorem unescape_escape (printable : Printable) {q : Char} (hq : q ∈ ['\'', '"']) (c : Char) (t : List Char) :
    unescape (escape printable q c ++ t) = some (c, t) := by
  have hbound : c.toNat < 16 ^ 8 := by
    have hvalid : c.toNat.isValidChar := c.valid
    unfold Nat.isValidChar at hvalid
    omega
  unfold escape
  split
  · rename_i hself
    have hplain : c ∉ ['t', 'n', 'r', 'x', 'u', 'U'] := by
      simp only [List.mem_cons, List.not_mem_nil, or_false] at hq
      rcases hself with rfl | rfl
      · rcases hq with rfl | rfl <;> decide
      · decide
    simp only [List.mem_cons, List.not_mem_nil, or_false, not_or] at hplain
    simp [unescape, hplain]
  split
  · rename_i hc; rw [hc]; rfl
  split
  · rename_i hc; rw [hc]; rfl
  split
  · rename_i hc; rw [hc]; rfl
  rename_i hself _ _ _
  have hslash : c ≠ '\\' := fun h => hself (Or.inr h)
  split
  · exact unescape_pad (by simp) (by omega) t
  split
  · simp [unescape, hslash]
  split
  · exact unescape_pad (by simp) (by omega) t
  split
  · exact unescape_pad (by simp) (by omega) t
  · exact unescape_pad (by simp) hbound t

theorem head_escape {printable : Printable} {q : Char} (hq : q ∈ ['\'', '"']) (c : Char) :
    (escape printable q c).head? ≠ some q := by
  have hslash : '\\' ≠ q := by
    simp only [List.mem_cons, List.not_mem_nil, or_false] at hq
    rcases hq with rfl | rfl <;> decide
  unfold escape
  split
  · simpa using hslash
  rename_i hself
  have hc : c ≠ q := fun h => hself (Or.inl h)
  repeat' split
  all_goals first | simpa using hslash | simpa using hc

theorem quoteOf_mem (s : List Char) : quoteOf s ∈ ['\'', '"'] := by
  unfold quoteOf
  split <;> decide

/-- The escaped characters up to the closing quote say what the text was. -/
theorem flatMap_escape_inj {printable : Printable} {q : Char} (hq : q ∈ ['\'', '"']) {t t' : List Char} :
    ∀ {s s' : List Char}, s.flatMap (escape printable q) ++ q :: t = s'.flatMap (escape printable q) ++ q :: t' →
      s = s' ∧ t = t'
  | [], [], h => ⟨rfl, (List.cons.inj h).2⟩
  | [], c' :: s', h => by
    rw [List.flatMap_cons, List.append_assoc] at h
    have hne : escape printable q c' ≠ [] := by
      intro hnil
      have := unescape_escape printable hq c' []
      rw [hnil] at this
      cases this
    have hhead := congrArg List.head? h
    rw [List.head?_append_of_ne_nil _ hne] at hhead
    exact absurd hhead.symm (head_escape hq c')
  | c :: s, [], h => by
    rw [List.flatMap_cons, List.append_assoc] at h
    have hne : escape printable q c ≠ [] := by
      intro hnil
      have := unescape_escape printable hq c []
      rw [hnil] at this
      cases this
    have hhead := congrArg List.head? h
    rw [List.head?_append_of_ne_nil _ hne] at hhead
    exact absurd hhead (head_escape hq c)
  | c :: s, c' :: s', h => by
    rw [List.flatMap_cons, List.flatMap_cons, List.append_assoc, List.append_assoc] at h
    have hread := congrArg unescape h
    rw [unescape_escape _ hq, unescape_escape _ hq] at hread
    obtain ⟨rfl, hrest⟩ := Prod.mk.inj (Option.some.inj hread)
    obtain ⟨rfl, rfl⟩ := flatMap_escape_inj hq hrest
    exact ⟨rfl, rfl⟩

/-- A quoted text ends where it ends, whatever follows. -/
theorem reprChars_inj {printable : Printable} {s s' t t' : List Char}
    (h : reprChars printable s ++ t = reprChars printable s' ++ t') : s = s' ∧ t = t' := by
  unfold reprChars at h
  rw [List.cons_append, List.cons_append] at h
  obtain ⟨hquote, hbody⟩ := List.cons.inj h
  rw [← hquote, List.append_assoc, List.append_assoc] at hbody
  exact flatMap_escape_inj (quoteOf_mem s) hbody

/-! ## Values -/

/-- Python's texts of floats: different for different ones, and made of digits, signs, points and the letters of
exponents and of `inf` and `nan`. -/
structure FloatTexts {F : Type} (floatText : F → String) : Prop where
  injective : Function.Injective floatText
  nonempty : ∀ x, floatText x ≠ ""
  chars : ∀ x, ∀ c ∈ (floatText x).toList, c ∈ "0123456789+-.einfa".toList

/-- A value is followed by nothing, by a comma or by a closing bracket. -/
def Follows (t : List Char) : Prop := ∀ c, t.head? = some c → c ∈ [',', ']', '\x7d']

/-- What the first character of a value's text says of it. -/
inductive Kind
  | none | float | str | list | dict
  deriving DecidableEq

def kindOf (c : Char) : Kind :=
  if c = 'N' then .none else if c ∈ ['\'', '"'] then .str else if c = '[' then .list else if c = '\x7b' then .dict else .float

def Value.kind {F : Type} : Value F → Kind
  | .none => .none
  | .float _ => .float
  | .str _ => .str
  | .list _ => .list
  | .dict _ => .dict

section Values

variable {F : Type} {printable : Printable} {floatText : F → String}

theorem takeWhile_atom {a t : List Char} (ha : ∀ c ∈ a, c ∉ [',', ']', '\x7d']) (ht : Follows t) :
    (a ++ t).takeWhile (· ∉ [',', ']', '\x7d']) = a := by
  rw [List.takeWhile_append_of_pos fun c hc => decide_eq_true (ha c hc)]
  cases t with
  | nil => simp
  | cons c t =>
    have hc : c ∈ [',', ']', '\x7d'] := ht c rfl
    have hstop : ¬ decide (c ∉ [',', ']', '\x7d']) = true := fun hnot => (of_decide_eq_true hnot : c ∉ _) hc
    rw [List.takeWhile_cons, if_neg hstop, List.append_nil]

/-- A text without an end of its own is told by what may follow it. -/
theorem atom_inj {a a' t t' : List Char} (ha : ∀ c ∈ a, c ∉ [',', ']', '\x7d']) (ha' : ∀ c ∈ a', c ∉ [',', ']', '\x7d'])
    (ht : Follows t) (ht' : Follows t') (h : a ++ t = a' ++ t') : a = a' ∧ t = t' := by
  have htaken := congrArg (List.takeWhile fun c => decide (c ∉ [',', ']', '\x7d'])) h
  rw [takeWhile_atom ha ht, takeWhile_atom ha' ht'] at htaken
  subst htaken
  exact ⟨rfl, List.append_cancel_left h⟩

theorem atom_chars : ∀ c ∈ "0123456789+-.einfa".toList, c ∉ [',', ']', '\x7d'] := by
  have hall : ("0123456789+-.einfa".toList.all fun c => decide (c ∉ [',', ']', '\x7d'])) = true := by decide
  exact fun c hc => of_decide_eq_true (List.all_eq_true.1 hall c hc)

theorem kindOf_float : ∀ c ∈ "0123456789+-.einfa".toList, kindOf c = .float := by
  have hall : ("0123456789+-.einfa".toList.all fun c => decide (kindOf c = .float)) = true := by decide
  exact fun c hc => of_decide_eq_true (List.all_eq_true.1 hall c hc)

theorem repr_head (printable : Printable) (hfloat : FloatTexts floatText) : ∀ v : Value F,
    ∃ c rest, repr printable floatText v = c :: rest ∧ kindOf c = v.kind ∧ c ∉ [',', ']', '\x7d']
  | .none => ⟨'N', ['o', 'n', 'e'], by rw [repr], rfl, by decide⟩
  | .float x => by
    rw [repr]
    cases htext : (floatText x).toList with
    | nil => exact absurd (String.toList_eq_nil_iff.1 htext) (hfloat.nonempty x)
    | cons c rest =>
      have hc := hfloat.chars x c (by rw [htext]; exact List.mem_cons_self ..)
      exact ⟨c, rest, rfl, kindOf_float c hc, atom_chars c hc⟩
  | .str s => by
    rw [repr, reprChars]
    refine ⟨_, _, rfl, ?_⟩
    have hquote := quoteOf_mem s.toList
    simp only [List.mem_cons, List.not_mem_nil, or_false] at hquote
    rcases hquote with h | h <;> rw [h] <;> exact ⟨rfl, by decide⟩
  | .list items => ⟨'[', _, by rw [repr], rfl, by decide⟩
  | .dict entries => ⟨'\x7b', _, by rw [repr], rfl, by decide⟩

/-- Texts that go on in the same way start values of the same kind. -/
theorem kind_eq (hfloat : FloatTexts floatText) {v v' : Value F} {t t' : List Char}
    (h : repr printable floatText v ++ t = repr printable floatText v' ++ t') : v.kind = v'.kind := by
  obtain ⟨c, rest, htext, hkind, -⟩ := repr_head printable hfloat v
  obtain ⟨c', rest', htext', hkind', -⟩ := repr_head printable hfloat v'
  rw [htext, htext', List.cons_append, List.cons_append] at h
  rw [← hkind, ← hkind', (List.cons.inj h).1]

/-- A list does not go on where it has ended. -/
theorem reprItems_ne_nil (hfloat : FloatTexts floatText) {separator t t' : List Char} (v : Value F) (vs : List (Value F))
    (hsep : separator = [] ∨ separator = [',', ' ']) :
    reprItems printable floatText separator [] ++ t ≠ reprItems printable floatText separator (v :: vs) ++ t' := by
  intro h
  rw [reprItems, reprItems] at h
  rcases hsep with rfl | rfl
  · obtain ⟨c, rest, htext, -, hc⟩ := repr_head printable hfloat v
    rw [htext] at h
    simp only [List.nil_append, List.cons_append, List.cons.injEq] at h
    exact hc (by rw [← h.1]; decide)
  · simp at h

theorem reprEntries_ne_nil {separator t t' : List Char} (k : String) (v : Value F) (es : List (String × Value F))
    (hsep : separator = [] ∨ separator = [',', ' ']) :
    reprEntries printable floatText separator [] ++ t ≠ reprEntries printable floatText separator ((k, v) :: es) ++ t' := by
  intro h
  rw [reprEntries, reprEntries] at h
  rcases hsep with rfl | rfl
  · have hquote := quoteOf_mem k.toList
    simp only [reprChars, List.nil_append, List.cons_append, List.cons.injEq] at h
    rw [← h.1] at hquote
    exact absurd hquote (by decide)
  · simp at h

theorem follows_items (t : List Char) : ∀ vs : List (Value F), Follows (reprItems printable floatText [',', ' '] vs ++ t)
  | [] => by
    intro c hc
    rw [reprItems] at hc
    cases hc
    decide
  | v :: vs => by
    intro c hc
    rw [reprItems] at hc
    cases hc
    decide

theorem follows_entries (t : List Char) :
    ∀ es : List (String × Value F), Follows (reprEntries printable floatText [',', ' '] es ++ t)
  | [] => by
    intro c hc
    rw [reprEntries] at hc
    cases hc
    decide
  | (k, v) :: es => by
    intro c hc
    rw [reprEntries] at hc
    cases hc
    decide

mutual

/-- What a text says of a value, and where it ends, can be read in one way only. -/
theorem repr_inj (hfloat : FloatTexts floatText) : ∀ (v v' : Value F) {t t' : List Char}, Follows t → Follows t' →
    repr printable floatText v ++ t = repr printable floatText v' ++ t' → v = v' ∧ t = t'
  | .none, v', t, t', ht, ht', h => by
    have hkind := kind_eq hfloat h
    cases v' <;> simp only [Value.kind, reduceCtorEq] at hkind
    exact ⟨rfl, List.append_cancel_left h⟩
  | .float x, v', t, t', ht, ht', h => by
    have hkind := kind_eq hfloat h
    cases v' <;> simp only [Value.kind, reduceCtorEq] at hkind
    rename_i x'
    rw [repr, repr] at h
    obtain ⟨htext, hrest⟩ := atom_inj (fun c hc => atom_chars c (hfloat.chars x c hc))
      (fun c hc => atom_chars c (hfloat.chars x' c hc)) ht ht' h
    exact ⟨by rw [hfloat.injective (String.toList_inj.1 htext)], hrest⟩
  | .str s, v', t, t', ht, ht', h => by
    have hkind := kind_eq hfloat h
    cases v' <;> simp only [Value.kind, reduceCtorEq] at hkind
    rename_i s'
    rw [repr, repr] at h
    obtain ⟨htext, hrest⟩ := reprChars_inj h
    exact ⟨by rw [String.toList_inj.1 htext], hrest⟩
  | .list vs, v', t, t', ht, ht', h => by
    have hkind := kind_eq hfloat h
    cases v' <;> simp only [Value.kind, reduceCtorEq] at hkind
    rename_i vs'
    rw [repr, repr, List.cons_append, List.cons_append] at h
    obtain ⟨rfl, hrest⟩ := reprItems_inj hfloat vs vs' (Or.inl rfl) (List.cons.inj h).2
    exact ⟨rfl, hrest⟩
  | .dict es, v', t, t', ht, ht', h => by
    have hkind := kind_eq hfloat h
    cases v' <;> simp only [Value.kind, reduceCtorEq] at hkind
    rename_i es'
    rw [repr, repr, List.cons_append, List.cons_append] at h
    obtain ⟨rfl, hrest⟩ := reprEntries_inj hfloat es es' (Or.inl rfl) (List.cons.inj h).2
    exact ⟨rfl, hrest⟩

theorem reprItems_inj (hfloat : FloatTexts floatText) : ∀ (vs vs' : List (Value F)) {separator t t' : List Char},
    separator = [] ∨ separator = [',', ' '] →
    reprItems printable floatText separator vs ++ t = reprItems printable floatText separator vs' ++ t' → vs = vs' ∧ t = t'
  | [], [], _, _, _, _, h => by
    exact ⟨rfl, List.append_cancel_left h⟩
  | [], v' :: vs', _, _, _, hsep, h => absurd h (reprItems_ne_nil hfloat v' vs' hsep)
  | v :: vs, [], _, _, _, hsep, h => absurd h.symm (reprItems_ne_nil hfloat v vs hsep)
  | v :: vs, v' :: vs', _, _, _, hsep, h => by
    simp only [reprItems, List.append_assoc] at h
    have hvalue := List.append_cancel_left h
    obtain ⟨rfl, hrest⟩ := repr_inj hfloat v v' (follows_items _ vs) (follows_items _ vs') hvalue
    obtain ⟨rfl, hend⟩ := reprItems_inj hfloat vs vs' (Or.inr rfl) hrest
    exact ⟨rfl, hend⟩

theorem reprEntries_inj (hfloat : FloatTexts floatText) :
    ∀ (es es' : List (String × Value F)) {separator t t' : List Char}, separator = [] ∨ separator = [',', ' '] →
    reprEntries printable floatText separator es ++ t = reprEntries printable floatText separator es' ++ t' →
    es = es' ∧ t = t'
  | [], [], _, _, _, _, h => by
    exact ⟨rfl, List.append_cancel_left h⟩
  | [], (k', v') :: es', _, _, _, hsep, h => absurd h (reprEntries_ne_nil k' v' es' hsep)
  | (k, v) :: es, [], _, _, _, hsep, h => absurd h.symm (reprEntries_ne_nil k v es hsep)
  | (k, v) :: es, (k', v') :: es', _, _, _, hsep, h => by
    simp only [reprEntries, List.append_assoc, List.cons_append] at h
    obtain ⟨hkeys, hvalue⟩ := reprChars_inj (List.append_cancel_left h)
    simp only [List.cons.injEq, true_and] at hvalue
    obtain ⟨rfl, hrest⟩ := repr_inj hfloat v v' (follows_entries _ es) (follows_entries _ es') hvalue
    obtain ⟨rfl, hend⟩ := reprEntries_inj hfloat es es' (Or.inr rfl) hrest
    exact ⟨by rw [String.toList_inj.1 hkeys], hend⟩

end

/-- No two values have the same text. -/
theorem repr_injective (hfloat : FloatTexts floatText) : Function.Injective (repr printable floatText) := by
  intro v v' h
  have hnothing : Follows [] := fun c hc => by cases hc
  exact (repr_inj hfloat v v' hnothing hnothing (by rw [h])).1

end Values

end Lib.Repr
