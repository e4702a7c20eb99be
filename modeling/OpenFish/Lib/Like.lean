/-
`LIKE` of SQL: patterns with `%`, `_` and an escape character, and what the pattern of a text that stands between
two `%` finds. The databases differ in how they compare characters and in what `lower()` maps.
-/
import Mathlib.Data.List.Forall2
import Mathlib.Data.List.Infix
import Mathlib.Tactic.Common
import OpenFish.Lib.Unicode

namespace Lib.Like

inductive Token
  | lit (c : Char)
  /-- `_`. -/
  | one
  /-- `%`. -/
  | any
  deriving DecidableEq, Repr

/-- A pattern as it is read; there is none if it ends in the escape character. -/
def tokens (escape : Option Char) : List Char → Option (List Token)
  | [] => some []
  | c :: l =>
    if some c = escape then
      match l with
      | [] => none
      | d :: l => (tokens escape l).map (.lit d :: ·)
    else (tokens escape l).map ((if c = '%' then .any else if c = '_' then .one else .lit c) :: ·)

def run (same : Char → Char → Bool) : List Token → List Char → Bool
  | [], l => l.isEmpty
  | .lit _ :: _, [] => false
  | .lit c :: ts, d :: l => same c d && run same ts l
  | .one :: _, [] => false
  | .one :: ts, _ :: l => run same ts l
  | .any :: ts, l => l.tails.any (run same ts)

/-- `text LIKE pattern ESCAPE escape`. -/
def like (same : Char → Char → Bool) (escape : Option Char) (pattern text : String) : Bool :=
  match tokens escape pattern.toList with
  | some ts => run same ts text.toList
  | none => false

/-- How a database maps and compares characters. -/
structure Dialect where
  /-- `lower()` of one character. -/
  fold : Char → Char
  /-- What `LIKE` takes a character of a pattern for. -/
  same : Char → Char → Bool
  /-- The escape character of a `LIKE` that names none. -/
  escape : Option Char
  escape_eq : ∀ c, escape = some c → c = '\\'
  /-- `ORDER BY … DESC` begins with the rows that have no value. -/
  nullsFirst : Bool
  fold_fold : ∀ c, fold (fold c) = fold c
  same_self : ∀ c, same c c = true
  fold_of_same : ∀ a b, same a b = true → fold a = fold b
  /-- The ASCII capitals are folded. -/
  fold_toLower : ∀ c, fold c.toLower = fold c
  fold_caseless : ∀ c d, caseless d = true → (fold c = d ↔ c = d)

def Dialect.lower (db : Dialect) (s : String) : String := String.ofList (s.toList.map db.fold)

theorem toLower_toLower (c : Char) : c.toLower.toLower = c.toLower := by
  cases hup : c.isUpper with
  | true =>
    have hrange := isUpper_iff.1 hup
    have hto := toLower_of_isUpper hup
    refine toLower_of_not_isUpper ?_
    rw [← Bool.not_eq_true, isUpper_iff]
    omega
  | false => rw [toLower_of_not_isUpper hup, toLower_of_not_isUpper hup]

/-- SQLite folds the ASCII letters, in `lower()` as in `LIKE`. -/
def Dialect.sqlite : Dialect where
  fold := Char.toLower
  same a b := a.toLower == b.toLower
  escape := none
  escape_eq _ h := by cases h
  nullsFirst := false
  fold_fold := toLower_toLower
  same_self _ := beq_self_eq_true _
  fold_of_same _ _ h := beq_iff_eq.1 h
  fold_toLower := toLower_toLower
  fold_caseless _ _ := toLower_eq_caseless

/-- PostgreSQL folds the letters of its locale in `lower()` and none in `LIKE`. -/
def Dialect.postgresql (fold : Char → Char) (fold_fold : ∀ c, fold (fold c) = fold c)
    (fold_toLower : ∀ c, fold c.toLower = fold c) (fold_caseless : ∀ c d, caseless d = true → (fold c = d ↔ c = d)) :
    Dialect where
  fold
  same a b := a == b
  escape := some '\\'
  escape_eq _ h := (Option.some.inj h).symm
  nullsFirst := true
  fold_fold
  same_self c := beq_self_eq_true c
  fold_of_same _ _ h := by rw [beq_iff_eq.1 h]
  fold_toLower
  fold_caseless

theorem tokens_of_ne {escape : Option Char} {c : Char} (h : some c ≠ escape) (l : List Char) :
    tokens escape (c :: l) =
      (tokens escape l).map ((if c = '%' then .any else if c = '_' then .one else .lit c) :: ·) := by
  cases l <;> simp only [tokens, if_neg h]

theorem tokens_escape (c d : Char) (l : List Char) :
    tokens (some c) (c :: d :: l) = (tokens (some c) l).map (.lit d :: ·) := by
  simp only [tokens, if_pos]

/-! ## What a pattern finds -/

variable {same : Char → Char → Bool}

theorem run_any {ts : List Token} {l : List Char} :
    run same (.any :: ts) l = true ↔ ∃ head rest, l = head ++ rest ∧ run same ts rest = true := by
  rw [run, List.any_eq_true]
  constructor
  · rintro ⟨rest, hrest, hrun⟩
    obtain ⟨head, rfl⟩ := (List.mem_tails _ _).1 hrest
    exact ⟨head, rest, rfl, hrun⟩
  · rintro ⟨head, rest, rfl, hrun⟩
    exact ⟨rest, (List.mem_tails _ _).2 (List.suffix_append _ _), hrun⟩

theorem run_lits {word l : List Char} {ts : List Token} :
    run same (word.map .lit ++ ts) l = true ↔
      ∃ found rest, l = found ++ rest ∧ List.Forall₂ (fun c d => same c d = true) word found ∧ run same ts rest = true := by
  induction word generalizing l with
  | nil =>
    constructor
    · intro h; exact ⟨[], l, rfl, .nil, h⟩
    · rintro ⟨found, rest, rfl, hfound, h⟩
      cases hfound
      exact h
  | cons c word ih =>
    cases l with
    | nil =>
      simp only [List.map_cons, List.cons_append, run]
      constructor
      · intro h; cases h
      · rintro ⟨found, rest, heq, hfound, -⟩
        cases hfound
        cases heq
    | cons d l =>
      rw [List.map_cons, List.cons_append, run, Bool.and_eq_true, ih]
      constructor
      · rintro ⟨hsame, found, rest, rfl, hfound, h⟩
        exact ⟨d :: found, rest, rfl, .cons hsame hfound, h⟩
      · rintro ⟨found, rest, heq, hfound, h⟩
        cases hfound with
        | cons hsame hfound =>
          cases heq
          exact ⟨hsame, _, _, rfl, hfound, h⟩

/-- A text between two `%` is found wherever it stands. -/
theorem run_contains {word l : List Char} :
    run same (.any :: (word.map .lit ++ [.any])) l = true ↔
      ∃ found, found <:+: l ∧ List.Forall₂ (fun c d => same c d = true) word found := by
  rw [run_any]
  constructor
  · rintro ⟨head, tail, rfl, h⟩
    obtain ⟨found, rest, rfl, hfound, -⟩ := run_lits.1 h
    exact ⟨found, ⟨head, rest, by rw [List.append_assoc]⟩, hfound⟩
  · rintro ⟨found, ⟨head, rest, rfl⟩, hfound⟩
    refine ⟨head, found ++ rest, by rw [List.append_assoc], run_lits.2 ⟨found, rest, rfl, hfound, ?_⟩⟩
    exact run_any.2 ⟨rest, [], (List.append_nil rest).symm, rfl⟩

/-! ## Escaping -/

/-- What an escape character is put in front of. -/
def escaped (l : List Char) : List Char := l.flatMap fun c => if c ∈ ['\\', '%', '_'] then ['\\', c] else [c]

/-- An escaped text is read as itself. -/
theorem tokens_escaped (word rest : List Char) :
    tokens (some '\\') (escaped word ++ rest) = (tokens (some '\\') rest).map (word.map .lit ++ ·) := by
  induction word with
  | nil => simp [escaped]
  | cons c word ih =>
    have hcons : escaped (c :: word) = (if c ∈ ['\\', '%', '_'] then ['\\', c] else [c]) ++ escaped word := rfl
    rw [hcons]
    split
    · rw [List.append_assoc, List.cons_append, List.singleton_append, tokens_escape, ih, Option.map_map]
      rfl
    · rename_i hplain
      simp only [List.mem_cons, List.not_mem_nil, or_false, not_or] at hplain
      obtain ⟨hback, hany, hone⟩ := hplain
      rw [List.append_assoc, List.singleton_append, tokens_of_ne (by simpa using hback), if_neg hany, if_neg hone, ih,
        Option.map_map]
      rfl

/-- What a character of a pattern means that no escape character stands before. -/
def token (c : Char) : Token := if c = '%' then .any else if c = '_' then .one else .lit c

theorem token_of_ne {c : Char} (h : c ≠ '%' ∧ c ≠ '_') : token c = .lit c := by rw [token, if_neg h.1, if_neg h.2]

/-- A pattern without an escape character is read character by character. -/
theorem tokens_of_not_mem {escape : Option Char} {l : List Char} (h : ∀ c ∈ l, some c ≠ escape) :
    tokens escape l = some (l.map token) := by
  induction l with
  | nil => rfl
  | cons c l ih =>
    rw [tokens_of_ne (h c (List.mem_cons_self ..)), ih fun d hd => h d (List.mem_cons_of_mem _ hd)]
    rfl

theorem run_append {ts ts' : List Token} {l l' : List Char} (h : run same ts l = true) (h' : run same ts' l' = true) :
    run same (ts ++ ts') (l ++ l') = true := by
  induction ts generalizing l with
  | nil =>
    rw [run, List.isEmpty_iff] at h
    rw [h]
    exact h'
  | cons t ts ih =>
    cases t with
    | lit c =>
      cases l with
      | nil => cases h
      | cons d l =>
        rw [run, Bool.and_eq_true] at h
        rw [List.cons_append, List.cons_append, run, Bool.and_eq_true]
        exact ⟨h.1, ih h.2⟩
    | one =>
      cases l with
      | nil => cases h
      | cons d l => exact ih h
    | any =>
      obtain ⟨head, rest, rfl, hrun⟩ := run_any.1 h
      rw [List.append_assoc]
      exact run_any.2 ⟨head, rest ++ l', rfl, ih hrun⟩

/-- A pattern finds its own text. -/
theorem run_token_self (hsame : ∀ c, same c c = true) (l : List Char) : run same (l.map token) l = true := by
  induction l with
  | nil => rfl
  | cons c l ih =>
    have hone : run same [token c] [c] = true := by
      unfold token
      split
      · rfl
      · split
        · rfl
        · simp [run, hsame]
    exact run_append hone ih

/-- A `_` in a pattern finds any character in its place, and a `%` the text without it. -/
theorem run_token_one (hsame : ∀ c, same c c = true) (a b : List Char) (d : Char) :
    run same ((a ++ '_' :: b).map token) (a ++ d :: b) = true := by
  rw [List.map_append]
  exact run_append (run_token_self hsame a) (run_token_self hsame b)

theorem run_token_any (hsame : ∀ c, same c c = true) (a b : List Char) :
    run same ((a ++ '%' :: b).map token) (a ++ b) = true := by
  rw [List.map_append]
  exact run_append (run_token_self hsame a) (run_any.2 ⟨[], b, rfl, run_token_self hsame b⟩)

/-- The pattern of an escaped text between two `%`. -/
theorem like_escaped {word : List Char} {text : String} :
    like same (some '\\') (String.ofList ('%' :: (escaped word ++ ['%']))) text = true ↔
      ∃ found, found <:+: text.toList ∧ List.Forall₂ (fun c d => same c d = true) word found := by
  have htokens : tokens (some '\\') ('%' :: (escaped word ++ ['%'])) = some (.any :: (word.map .lit ++ [.any])) := by
    rw [tokens_of_ne (by decide), if_pos rfl, tokens_escaped]
    rfl
  rw [like, String.toList_ofList, htokens]
  exact run_contains

/-- PostgreSQL finds an escaped text exactly where it stands, without an `ESCAPE` clause. -/
theorem like_postgresql_escaped {fold : Char → Char} (fold_fold : ∀ c, fold (fold c) = fold c)
    (fold_toLower : ∀ c, fold c.toLower = fold c) (fold_caseless : ∀ c d, caseless d = true → (fold c = d ↔ c = d))
    {word : List Char} {text : String} :
    let db := Dialect.postgresql fold fold_fold fold_toLower fold_caseless
    like db.same db.escape (String.ofList ('%' :: (escaped word ++ ['%']))) text = true ↔ word <:+: text.toList := by
  refine like_escaped.trans ?_
  have heq {found : List Char} : List.Forall₂ (fun c d => (c == d) = true) word found ↔ word = found := by
    simp only [beq_iff_eq, List.forall₂_eq_eq_eq]
  simp only [Dialect.postgresql, heq, exists_eq_right']

end Lib.Like
