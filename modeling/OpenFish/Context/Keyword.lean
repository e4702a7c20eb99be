/-
The keyword predicate: the term is mapped to lower case and escaped by Python, the column mapped by the database. It
finds every occurrence of a term exactly if both map the term alike.
-/
import Mathlib.Logic.Relation
import OpenFish.Context.Query

namespace OpenFish.Context

open Lib Lib.Like

/-! ## What the claim is about -/

section predicate

variable (py : Casing) (db : Dialect)

/-- The database leaves alone what Python has mapped to lower case. -/
def Agrees : Prop := ∀ s, ∀ c ∈ (py.lower s).toList, db.fold c = c

def Occurs (term text : String) : Prop := term.toList <:+: text.toList

/-- Two texts that the mappings to lower case, of Python and of the database, make one of. -/
def CaseEq : String → String → Prop := Relation.EqvGen fun s s' => s' = py.lower s ∨ s' = db.lower s

/-- The predicate is true of every text in which the term occurs, and where it is true the term occurs up to letter
case. -/
structure Exact (term : String) : Prop where
  complete : ∀ text, Occurs term text → contains py db (some text) term = true
  sound : ∀ text, contains py db (some text) term = true → ∃ found, Occurs found text ∧ CaseEq py db found term

end predicate

/-! ## The pattern -/

theorem backslashed_toList (c : Char) (text : String) :
    (backslashed c text).toList = text.toList.flatMap fun d => if d = c then ['\\', d] else [d] := by
  rw [backslashed, String.toList_ofList]

/-- Escaping the three characters one after the other escapes each of them once. -/
theorem escapeLike_toList (term : String) : (escapeLike term).toList = escaped term.toList := by
  rw [escapeLike, backslashed_toList, backslashed_toList, backslashed_toList, List.flatMap_assoc, List.flatMap_assoc,
    escaped]
  refine List.flatMap_congr fun c _ => ?_
  by_cases hback : c = '\\'
  · subst hback; decide
  · by_cases hany : c = '%'
    · subst hany; decide
    · by_cases hone : c = '_'
      · subst hone; decide
      · simp [hback, hany, hone]

variable {py : Casing} {db : Dialect}

theorem lower_toList_db (s : String) : (db.lower s).toList = s.toList.map db.fold := by
  rw [Dialect.lower, String.toList_ofList]

/-- What is taken for a text that the database leaves alone is that text, once it is mapped. -/
theorem eq_map_of_same {word found : List Char} (hword : ∀ c ∈ word, db.fold c = c)
    (h : List.Forall₂ (fun c d => db.same c d = true) word found) : word = found.map db.fold := by
  induction h with
  | nil => rfl
  | cons hsame _ ih =>
    rw [List.map_cons, ← ih fun c hc => hword c (List.mem_cons_of_mem _ hc), ← db.fold_of_same _ _ hsame,
      hword _ (List.mem_cons_self ..)]

/-- In a mapped text, a text that the database leaves alone is taken for itself only. -/
theorem found_iff {word : List Char} (hword : ∀ c ∈ word, db.fold c = c) {text : String} :
    (∃ found, found <:+: (db.lower text).toList ∧ List.Forall₂ (fun c d => db.same c d = true) word found) ↔
      word <:+: (db.lower text).toList := by
  constructor
  · rintro ⟨found, hwithin, hsame⟩
    have hfound : found.map db.fold = found := by
      refine (List.map_congr_left fun c hc => ?_).trans (List.map_id' found)
      have hmem := hwithin.subset hc
      rw [lower_toList_db] at hmem
      obtain ⟨d, -, rfl⟩ := List.mem_map.1 hmem
      exact db.fold_fold d
    rwa [eq_map_of_same hword hsame, hfound]
  · intro hwithin
    exact ⟨word, hwithin, List.forall₂_same.2 fun c _ => db.same_self c⟩

/-- The predicate is true where the lower case of the term stands in the lower case of the text. -/
theorem contains_iff (hagrees : Agrees py db) {text term : String} :
    contains py db (some text) term = true ↔ (py.lower term).toList <:+: (db.lower text).toList := by
  have hpattern : "%" ++ escapeLike (py.lower term) ++ "%" =
      String.ofList ('%' :: (escaped (py.lower term).toList ++ ['%'])) := by
    rw [← escapeLike_toList, ← String.toList_inj]
    simp
  rw [contains, hpattern, like_escaped]
  exact found_iff (hagrees term)

/-- Where the predicate is true, the term occurs up to letter case, whatever the term is. -/
theorem contains_sound (hagrees : Agrees py db) {text term : String} (h : contains py db (some text) term = true) :
    ∃ found, Occurs found text ∧ CaseEq py db found term := by
  obtain ⟨head, tail, htext⟩ := (contains_iff hagrees).1 h
  rw [lower_toList_db] at htext
  obtain ⟨front, _, hfront, hhead, -⟩ := List.map_eq_append_iff.1 htext.symm
  obtain ⟨_, stood, hstood, -, hfound⟩ := List.map_eq_append_iff.1 hhead
  have hlower : db.lower (String.ofList stood) = py.lower term := by
    rw [← String.toList_inj, lower_toList_db, String.toList_ofList, hfound]
  refine ⟨String.ofList stood, ?_, ?_⟩
  · rw [Occurs, String.toList_ofList, hfront, hstood]
    exact List.IsInfix.trans (List.suffix_append _ _).isInfix (List.prefix_append _ _).isInfix
  · exact (Relation.EqvGen.rel _ _ (.inr rfl)).trans _ _ _ ((Relation.EqvGen.rel _ _ (.inl hlower)).symm _ _)

/-- The predicate is exact for a term if and only if Python and the database map the term alike. -/
theorem keyword_exact_iff (hagrees : Agrees py db) (term : String) : Exact py db term ↔ py.lower term = db.lower term := by
  constructor
  · intro h
    -- the term occurs in itself, and there only at its full length
    have hwithin := (contains_iff hagrees).1 (h.complete term (List.infix_refl _))
    have hlength : (py.lower term).toList.length = (db.lower term).toList.length := by
      have hle := hwithin.length_le
      have hterm := py.length_le term
      rw [lower_toList_db, List.length_map] at hle ⊢
      omega
    exact String.toList_inj.1 (hwithin.eq_of_length hlength)
  · intro hlower
    refine ⟨fun text hoccurs => (contains_iff hagrees).2 ?_, fun text => contains_sound hagrees⟩
    rw [hlower, lower_toList_db, lower_toList_db]
    exact hoccurs.map _

theorem agrees_sqlite (py : Casing) : Agrees py .sqlite := fun s c hc => toLower_of_not_isUpper (py.not_isUpper s c hc)

theorem exact_percent :
    Exact Casing.ascii .sqlite "50%_\\" ↔ Casing.ascii.lower "50%_\\" = Dialect.sqlite.lower "50%_\\" :=
  keyword_exact_iff (agrees_sqlite Casing.ascii) _

/-- The Kelvin sign is a `k` to Python and itself to SQLite, so it is not found where it stands. -/
theorem kelvin_missed :
    ¬ ∀ term text, term ≠ "" → Occurs term text → contains Casing.ascii .sqlite (some text) term = true := by
  intro hall
  have hfound := hall "\u212a" "\u212a" (by decide) (List.infix_refl _)
  have hmissed : contains Casing.ascii .sqlite (some "\u212a") "\u212a" = false := by decide +kernel
  rw [hmissed] at hfound
  cases hfound

end OpenFish.Context
