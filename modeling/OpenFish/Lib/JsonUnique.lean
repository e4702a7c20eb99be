/-
The JSON text of a value says what the value is: no two values have the same text, as long as no two of their floats have.
-/
import OpenFish.Lib.Repr

open Lib.Repr (Follows atom_inj)

namespace Lib.Json

/-- Texts of floats as Python writes them: different for different ones, with a first character of a number and a
character that no integer has. -/
structure FloatTexts (floatText : BitVec 64 → List Char) (good : BitVec 64 → Prop) : Prop where
  injective : ∀ x y, good x → good y → floatText x = floatText y → x = y
  chars : ∀ x, good x → ∀ c ∈ floatText x, c.isDigit = true ∨ c ∈ "+-.eInfityNa".toList
  head : ∀ x, good x → ∃ c rest, floatText x = c :: rest ∧ (c.isDigit = true ∨ c ∈ ['-', 'I', 'N'])
  mark : ∀ x, good x → ∃ c ∈ floatText x, c ∈ ['.', 'e', 'I', 'N']

mutual

/-- All floats of a value meet a condition. -/
def FloatsMeet (good : BitVec 64 → Prop) : Json → Prop
  | float bits => good bits
  | arr items => FloatsMeetItems good items
  | obj members => FloatsMeetMembers good members
  | _ => True

def FloatsMeetItems (good : BitVec 64 → Prop) : List Json → Prop
  | [] => True
  | v :: vs => FloatsMeet good v ∧ FloatsMeetItems good vs

def FloatsMeetMembers (good : BitVec 64 → Prop) : List (String × Json) → Prop
  | [] => True
  | (_, v) :: ms => FloatsMeet good v ∧ FloatsMeetMembers good ms

end

/-! ## Parts without parts -/

theorem quoted_inj {s s' : String} {t t' : List Char} (h : quoted s ++ t = quoted s' ++ t') : s = s' ∧ t = t' := by
  have htail : (quoted s).tail ++ t = (quoted s').tail ++ t' := congrArg List.tail h
  have hread := scanString_quoted s t
  rw [htail, scanString_quoted s' t'] at hread
  obtain ⟨htext, hrest⟩ := Prod.mk.inj (Option.some.inj hread)
  exact ⟨(String.toList_inj.1 htext).symm, hrest.symm⟩

theorem toDigits_inj {n m : Nat} (h : Nat.toDigits 10 n = Nat.toDigits 10 m) : n = m := by
  rw [← @Nat.ofDigitChars_ten_toDigits n, h, Nat.ofDigitChars_ten_toDigits]

theorem intText_chars (n : Int) : ∀ c ∈ intText n, c.isDigit = true ∨ c = '-' := by
  have hdigits : ∀ m : Nat, ∀ c ∈ Nat.toDigits 10 m, c.isDigit = true ∨ c = '-' := fun m c hc =>
    Or.inl (Nat.isDigit_of_mem_toDigits (by decide) (by decide) hc)
  cases n with
  | ofNat n => exact hdigits n
  | negSucc n =>
    intro c hc
    rcases List.mem_cons.1 hc with rfl | hc
    · exact Or.inr rfl
    · exact hdigits _ c hc

theorem intText_ne_nil (n : Int) : intText n ≠ [] := by
  cases n with
  | ofNat n => exact Nat.toDigits_ne_nil
  | negSucc n => exact List.cons_ne_nil _ _

theorem intText_injective : Function.Injective intText := by
  intro n m h
  have hminus : ∀ k l : Nat, Nat.toDigits 10 k ≠ '-' :: Nat.toDigits 10 l := by
    intro k l heq
    have hdigit := Nat.isDigit_of_mem_toDigits (b := 10) (n := k) (by decide) (by decide)
      (heq ▸ List.mem_cons_self .. : '-' ∈ Nat.toDigits 10 k)
    exact absurd hdigit (by decide)
  cases n with
  | ofNat n =>
    cases m with
    | ofNat m => exact congrArg Int.ofNat (toDigits_inj h)
    | negSucc m => exact absurd h (hminus n (m + 1))
  | negSucc n =>
    cases m with
    | ofNat m => exact absurd h.symm (hminus m (n + 1))
    | negSucc m =>
      have := toDigits_inj (List.cons.inj h).2
      rw [Nat.succ.inj this]

/-! ## Values -/

/-- What the first character of a value's text says of it. -/
inductive Kind
  | null | yes | no | number | str | arr | obj
  deriving DecidableEq

def kindOf (c : Char) : Kind :=
  if c = 'n' then .null else if c = 't' then .yes else if c = 'f' then .no else if c = '"' then .str
  else if c = '[' then .arr else if c = '\x7b' then .obj else .number

def kind : Json → Kind
  | null => .null
  | bool true => .yes
  | bool false => .no
  | int _ => .number
  | float _ => .number
  | str _ => .str
  | arr _ => .arr
  | obj _ => .obj

theorem eq_null {v : Json} (h : v.kind = .null) : v = null := by
  cases v with
  | null => rfl
  | bool b => cases b <;> cases h
  | _ => cases h

theorem eq_bool {v : Json} {b : Bool} (h : v.kind = (bool b).kind) : v = bool b := by
  cases v with
  | bool b' => cases b <;> cases b' <;> first | rfl | cases h
  | _ => cases b <;> cases h

theorem eq_number {v : Json} (h : v.kind = .number) : (∃ n, v = int n) ∨ ∃ x, v = float x := by
  cases v with
  | int n => exact Or.inl ⟨n, rfl⟩
  | float x => exact Or.inr ⟨x, rfl⟩
  | bool b => cases b <;> cases h
  | _ => cases h

theorem eq_str {v : Json} (h : v.kind = .str) : ∃ s, v = str s := by
  cases v with
  | str s => exact ⟨s, rfl⟩
  | bool b => cases b <;> cases h
  | _ => cases h

theorem eq_arr {v : Json} (h : v.kind = .arr) : ∃ items, v = arr items := by
  cases v with
  | arr items => exact ⟨items, rfl⟩
  | bool b => cases b <;> cases h
  | _ => cases h

theorem eq_obj {v : Json} (h : v.kind = .obj) : ∃ members, v = obj members := by
  cases v with
  | obj members => exact ⟨members, rfl⟩
  | bool b => cases b <;> cases h
  | _ => cases h

/-- A digit is none of the characters of a list without digits. -/
theorem not_mem_of_isDigit {c : Char} (hc : c.isDigit = true) {cs : List Char} (hcs : cs.all (fun c => !c.isDigit) = true) :
    c ∉ cs := by
  intro hmem
  have hnot := List.all_eq_true.1 hcs c hmem
  rw [hc] at hnot
  cases hnot

theorem kindOf_number {c : Char} (h : c ∉ ['n', 't', 'f', '"', '[', '\x7b']) : kindOf c = .number := by
  simp only [List.mem_cons, List.not_mem_nil, or_false, not_or] at h
  simp [kindOf, h]

/-- The first character of a number. -/
theorem number_start {c : Char} (h : c.isDigit = true ∨ c ∈ ['-', 'I', 'N']) :
    kindOf c = .number ∧ c ∉ [',', ']', '\x7d'] := by
  rcases h with hdigit | hmem
  · exact ⟨kindOf_number (not_mem_of_isDigit hdigit (by decide)), not_mem_of_isDigit hdigit (by decide)⟩
  · simp only [List.mem_cons, List.not_mem_nil, or_false] at hmem
    rcases hmem with rfl | rfl | rfl <;> exact ⟨rfl, by decide⟩

section Unique

variable {floatText : BitVec 64 → List Char} {good : BitVec 64 → Prop}

theorem print_start (hfloat : FloatTexts floatText good) : ∀ v : Json, FloatsMeet good v →
    ∃ c rest, print floatText v = c :: rest ∧ kindOf c = v.kind ∧ c ∉ [',', ']', '\x7d']
  | null, _ => ⟨'n', ['u', 'l', 'l'], rfl, rfl, by decide⟩
  | bool true, _ => ⟨'t', ['r', 'u', 'e'], rfl, rfl, by decide⟩
  | bool false, _ => ⟨'f', ['a', 'l', 's', 'e'], rfl, rfl, by decide⟩
  | int n, _ => by
    rw [print]
    cases htext : intText n with
    | nil => exact absurd htext (intText_ne_nil n)
    | cons c rest =>
      have hc := intText_chars n c (by rw [htext]; exact List.mem_cons_self ..)
      obtain ⟨hkind, hends⟩ := number_start (hc.imp_right fun h => by rw [h]; exact List.mem_cons_self ..)
      exact ⟨c, rest, rfl, hkind, hends⟩
  | float x, h => by
    rw [print]
    obtain ⟨c, rest, htext, hc⟩ := hfloat.head x h
    obtain ⟨hkind, hends⟩ := number_start hc
    exact ⟨c, rest, htext, hkind, hends⟩
  | str s, _ => ⟨'"', _, by rw [print, quoted], rfl, by decide⟩
  | arr [], _ => ⟨'[', _, by rw [print], rfl, by decide⟩
  | arr (v :: vs), _ => ⟨'[', _, by rw [print], rfl, by decide⟩
  | obj [], _ => ⟨'\x7b', _, by rw [print], rfl, by decide⟩
  | obj ((k, v) :: ms), _ => ⟨'\x7b', _, by rw [print], rfl, by decide⟩

/-- Texts that go on in the same way start values of the same kind. -/
theorem kind_eq (hfloat : FloatTexts floatText good) {v v' : Json} (hv : FloatsMeet good v) (hv' : FloatsMeet good v')
    {t t' : List Char} (h : print floatText v ++ t = print floatText v' ++ t') : v.kind = v'.kind := by
  obtain ⟨c, rest, htext, hkind, -⟩ := print_start hfloat v hv
  obtain ⟨c', rest', htext', hkind', -⟩ := print_start hfloat v' hv'
  rw [htext, htext', List.cons_append, List.cons_append] at h
  rw [← hkind, ← hkind', (List.cons.inj h).1]

/-- A number, as an integer or as a float. -/
theorem number_inj (hfloat : FloatTexts floatText good) {v v' : Json} (hv : FloatsMeet good v) (hv' : FloatsMeet good v')
    (hkind : v.kind = .number) (hkind' : v'.kind = .number) {t t' : List Char} (ht : Follows t) (ht' : Follows t')
    (h : print floatText v ++ t = print floatText v' ++ t') : v = v' ∧ t = t' := by
  have hints : ∀ n : Int, ∀ c ∈ intText n, c ∉ [',', ']', '\x7d'] := by
    intro n c hc
    exact (number_start ((intText_chars n c hc).imp_right fun h => by rw [h]; exact List.mem_cons_self ..)).2
  have hfloats : ∀ x, good x → ∀ c ∈ floatText x, c ∉ [',', ']', '\x7d'] := by
    intro x hx c hc
    rcases hfloat.chars x hx c hc with hdigit | hmem
    · exact not_mem_of_isDigit hdigit (by decide)
    · have hall : ("+-.eInfityNa".toList.all fun c => decide (c ∉ [',', ']', '\x7d'])) = true := by decide
      exact of_decide_eq_true (List.all_eq_true.1 hall c hmem)
  have hmixed : ∀ (n : Int) x, good x → intText n ≠ floatText x := by
    intro n x hx heq
    obtain ⟨c, hc, hmark⟩ := hfloat.mark x hx
    rw [← heq] at hc
    rcases intText_chars n c hc with hdigit | rfl
    · exact not_mem_of_isDigit hdigit (by decide) hmark
    · exact absurd hmark (by decide)
  rcases eq_number hkind with ⟨n, rfl⟩ | ⟨x, rfl⟩ <;> rcases eq_number hkind' with ⟨n', rfl⟩ | ⟨x', rfl⟩
  · obtain ⟨htext, hrest⟩ := atom_inj (hints n) (hints n') ht ht' h
    exact ⟨by rw [intText_injective htext], hrest⟩
  · exact absurd (atom_inj (hints n) (hfloats x' hv') ht ht' h).1 (hmixed n x' hv')
  · exact absurd (atom_inj (hfloats x hv) (hints n') ht ht' h).1.symm (hmixed n' x hv)
  · obtain ⟨htext, hrest⟩ := atom_inj (hfloats x hv) (hfloats x' hv') ht ht' h
    exact ⟨by rw [hfloat.injective x x' hv hv' htext], hrest⟩

theorem follows_items (t : List Char) : ∀ vs : List Json, Follows (printItems floatText vs ++ t)
  | [] => by
    intro c hc
    rw [printItems] at hc
    cases hc
    decide
  | v :: vs => by
    intro c hc
    rw [printItems] at hc
    cases hc
    decide

theorem follows_members (t : List Char) : ∀ ms : List (String × Json), Follows (printMembers floatText ms ++ t)
  | [] => by
    intro c hc
    rw [printMembers] at hc
    cases hc
    decide
  | (k, v) :: ms => by
    intro c hc
    rw [printMembers] at hc
    cases hc
    decide

/-- A list does not go on where it has ended. -/
theorem arr_ne_nil (hfloat : FloatTexts floatText good) {v : Json} {vs : List Json} (hv : FloatsMeet good v)
    {t t' : List Char} : print floatText (arr []) ++ t ≠ print floatText (arr (v :: vs)) ++ t' := by
  obtain ⟨c, rest, htext, -, hc⟩ := print_start hfloat v hv
  intro h
  rw [print, print, htext] at h
  simp only [List.cons_append, List.cons.injEq, true_and] at h
  exact hc (by rw [← h.1]; decide)

theorem obj_ne_nil {k : String} {v : Json} {ms : List (String × Json)} {t t' : List Char} :
    print floatText (obj []) ++ t ≠ print floatText (obj ((k, v) :: ms)) ++ t' := by
  intro h
  rw [print, print, quoted] at h
  simp at h

mutual

/-- What a text says of a value, and where it ends, can be read in one way only. -/
theorem print_inj (hfloat : FloatTexts floatText good) : ∀ (v v' : Json) {t t' : List Char}, FloatsMeet good v →
    FloatsMeet good v' → Follows t → Follows t' → print floatText v ++ t = print floatText v' ++ t' → v = v' ∧ t = t'
  | null, v', t, t', hv, hv', ht, ht', h => by
    obtain rfl := eq_null (kind_eq hfloat hv hv' h).symm
    exact ⟨rfl, List.append_cancel_left h⟩
  | bool b, v', t, t', hv, hv', ht, ht', h => by
    obtain rfl := eq_bool (kind_eq hfloat hv hv' h).symm
    exact ⟨rfl, List.append_cancel_left h⟩
  | int n, v', t, t', hv, hv', ht, ht', h =>
    number_inj hfloat hv hv' rfl (kind_eq hfloat hv hv' h).symm ht ht' h
  | float x, v', t, t', hv, hv', ht, ht', h =>
    number_inj hfloat hv hv' rfl (kind_eq hfloat hv hv' h).symm ht ht' h
  | str s, v', t, t', hv, hv', ht, ht', h => by
    obtain ⟨s', rfl⟩ := eq_str (kind_eq hfloat hv hv' h).symm
    rw [print, print] at h
    obtain ⟨rfl, hrest⟩ := quoted_inj h
    exact ⟨rfl, hrest⟩
  | arr [], v', t, t', hv, hv', ht, ht', h => by
    obtain ⟨items, rfl⟩ := eq_arr (kind_eq hfloat hv hv' h).symm
    cases items with
    | nil => exact ⟨rfl, List.append_cancel_left h⟩
    | cons w ws => exact absurd h (arr_ne_nil hfloat hv'.1)
  | arr (v :: vs), v', t, t', hv, hv', ht, ht', h => by
    obtain ⟨items, rfl⟩ := eq_arr (kind_eq hfloat hv hv' h).symm
    cases items with
    | nil => exact absurd h.symm (arr_ne_nil hfloat hv.1)
    | cons w ws =>
      simp only [print, List.cons_append, List.append_assoc, List.cons.injEq, true_and] at h
      obtain ⟨rfl, hitems⟩ := print_inj hfloat v w hv.1 hv'.1 (follows_items _ vs) (follows_items _ ws) h
      obtain ⟨rfl, hrest⟩ := printItems_inj hfloat vs ws hv.2 hv'.2 hitems
      exact ⟨rfl, hrest⟩
  | obj [], v', t, t', hv, hv', ht, ht', h => by
    obtain ⟨members, rfl⟩ := eq_obj (kind_eq hfloat hv hv' h).symm
    cases members with
    | nil => exact ⟨rfl, List.append_cancel_left h⟩
    | cons m ms => exact absurd h obj_ne_nil
  | obj ((k, v) :: ms), v', t, t', hv, hv', ht, ht', h => by
    obtain ⟨members, rfl⟩ := eq_obj (kind_eq hfloat hv hv' h).symm
    cases members with
    | nil => exact absurd h.symm obj_ne_nil
    | cons m ms' =>
      obtain ⟨k', w⟩ := m
      simp only [print, List.cons_append, List.append_assoc, List.cons.injEq, true_and] at h
      obtain ⟨rfl, hvalue⟩ := quoted_inj h
      have hvalue := (List.cons.inj hvalue).2
      obtain ⟨rfl, hmembers⟩ := print_inj hfloat v w hv.1 hv'.1 (follows_members _ ms) (follows_members _ ms') hvalue
      obtain ⟨rfl, hrest⟩ := printMembers_inj hfloat ms ms' hv.2 hv'.2 hmembers
      exact ⟨rfl, hrest⟩

theorem printItems_inj (hfloat : FloatTexts floatText good) : ∀ (vs vs' : List Json) {t t' : List Char},
    FloatsMeetItems good vs → FloatsMeetItems good vs' → printItems floatText vs ++ t = printItems floatText vs' ++ t' →
    vs = vs' ∧ t = t'
  | [], [], _, _, _, _, h => ⟨rfl, List.append_cancel_left h⟩
  | [], v' :: vs', _, _, _, _, h => by simp [printItems] at h
  | v :: vs, [], _, _, _, _, h => by simp [printItems] at h
  | v :: vs, v' :: vs', _, _, hv, hv', h => by
    simp only [printItems, List.cons_append, List.append_assoc, List.cons.injEq, true_and] at h
    obtain ⟨rfl, hitems⟩ := print_inj hfloat v v' hv.1 hv'.1 (follows_items _ vs) (follows_items _ vs') h
    obtain ⟨rfl, hrest⟩ := printItems_inj hfloat vs vs' hv.2 hv'.2 hitems
    exact ⟨rfl, hrest⟩

theorem printMembers_inj (hfloat : FloatTexts floatText good) : ∀ (ms ms' : List (String × Json)) {t t' : List Char},
    FloatsMeetMembers good ms → FloatsMeetMembers good ms' →
    printMembers floatText ms ++ t = printMembers floatText ms' ++ t' → ms = ms' ∧ t = t'
  | [], [], _, _, _, _, h => ⟨rfl, List.append_cancel_left h⟩
  | [], (k', v') :: ms', _, _, _, _, h => by simp [printMembers] at h
  | (k, v) :: ms, [], _, _, _, _, h => by simp [printMembers] at h
  | (k, v) :: ms, (k', v') :: ms', _, _, hv, hv', h => by
    simp only [printMembers, List.cons_append, List.append_assoc, List.cons.injEq, true_and] at h
    obtain ⟨rfl, hvalue⟩ := quoted_inj h
    have hvalue := (List.cons.inj hvalue).2
    obtain ⟨rfl, hmembers⟩ := print_inj hfloat v v' hv.1 hv'.1 (follows_members _ ms) (follows_members _ ms') hvalue
    obtain ⟨rfl, hrest⟩ := printMembers_inj hfloat ms ms' hv.2 hv'.2 hmembers
    exact ⟨rfl, hrest⟩

end

/-- No two values have the same text. -/
theorem print_injective (hfloat : FloatTexts floatText good) {v v' : Json} (hv : FloatsMeet good v)
    (hv' : FloatsMeet good v') (h : print floatText v = print floatText v') : v = v' := by
  have hnothing : Follows [] := fun c hc => by cases hc
  exact (print_inj hfloat v v' hv hv' hnothing hnothing (by rw [h])).1

end Unique

end Lib.Json
