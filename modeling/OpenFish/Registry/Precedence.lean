/-
The latest version against SemVer: its core is the highest, but a prerelease is taken for more than its release, and
neither hyphens in identifiers nor build metadata are read as SemVer reads them.
-/
import OpenFish.Lib.SemVer
import OpenFish.Registry.Latest

namespace OpenFish.Registry

open Lib Npm

/-! ## Pieces of a version -/

/-- What `isdigit` and `int` make of ASCII. -/
structure AsciiDigits (formats : Formats) : Prop where
  isDigit : ∀ c, identifierChar c = true → formats.isDigit c = c.isDigit
  decimal : ∀ c, c.isDigit = true → formats.decimal c = some (c.toNat - '0'.toNat)

def splits (c : Char) : Bool := c ∈ ['.', '-', '+']

/-- The pieces between the separators, without the empty ones. -/
def piecesOf (cs : List Char) : List (List Char) := (cs.splitOnP splits).filter fun piece => piece ≠ []

theorem versionKey_eq (formats : Formats) (version : String) : versionKey formats version =
    ((piecesOf version.toList).mapM (readPiece formats)).map fun parts => if parts = [] then [.word version] else parts := by
  have hsplits : (fun c : Char => decide (c ∈ ['.', '-', '+'])) = splits := rfl
  unfold versionKey piecesOf
  rw [hsplits]

@[simp] theorem piecesOf_nil : piecesOf [] = [] := rfl

theorem piecesOf_append_cons (xs ys : List Char) {c : Char} (hc : splits c = true) :
    piecesOf (xs ++ c :: ys) = piecesOf xs ++ piecesOf ys := by
  unfold piecesOf
  rw [List.splitOnP_append_cons _ _ hc, List.filter_append]

theorem piecesOf_self {xs : List Char} (h : ∀ c ∈ xs, splits c = false) (hne : xs ≠ []) : piecesOf xs = [xs] := by
  unfold piecesOf
  rw [List.splitOnP_eq_singleton h]
  simp [hne]

theorem piecesOf_dotted : ∀ parts : List (List Char), piecesOf (SemVer.dotted parts) = parts.flatMap piecesOf
  | [] => rfl
  | [part] => by simp [SemVer.dotted, List.intercalate]
  | part :: next :: rest => by
    have ih := piecesOf_dotted (next :: rest)
    have hdotted : SemVer.dotted (part :: next :: rest) = part ++ '.' :: SemVer.dotted (next :: rest) := by
      simp [SemVer.dotted, List.intercalate]
    rw [hdotted, piecesOf_append_cons _ _ (by decide), ih]
    exact List.flatMap_cons.symm

/-- Identifiers behind a mark add their pieces, and none add nothing. -/
theorem piecesOf_marked {α : Type} (xs : List Char) {c : Char} (hc : splits c = true) (ids : List α) (g : α → List Char) :
    piecesOf (xs ++ if ids = [] then [] else c :: SemVer.dotted (ids.map g)) = piecesOf xs ++ (ids.map g).flatMap piecesOf := by
  cases ids with
  | nil => simp
  | cons i ids =>
    rw [if_neg (List.cons_ne_nil i ids), piecesOf_append_cons _ _ hc, piecesOf_dotted]

theorem splits_toDigits {n : Nat} {c : Char} (hc : c ∈ Nat.toDigits 10 n) : splits c = false := by
  have hdigit := Nat.isDigit_of_mem_toDigits (by omega) (by omega) hc
  unfold splits
  rw [decide_eq_false_iff_not]
  intro hmem
  have hall := List.all_eq_true.1 (show ['.', '-', '+'].all (fun c => !c.isDigit) = true by decide) c hmem
  rw [hdigit] at hall
  cases hall

theorem piecesOf_toDigits (n : Nat) : piecesOf (Nat.toDigits 10 n) = [Nat.toDigits 10 n] :=
  piecesOf_self (fun _ => splits_toDigits) Nat.toDigits_ne_nil

/-! ## Reading them -/

section reading

variable {formats : Formats}

theorem readPiece_toDigits (hdigits : AsciiDigits formats) {n : Nat} {piece : Piece}
    (h : readPiece formats (Nat.toDigits 10 n) = some piece) : piece = .number n := by
  have hisDigit : ∀ c ∈ Nat.toDigits 10 n, c.isDigit = true := fun c hc =>
    Nat.isDigit_of_mem_toDigits (by omega) (by omega) hc
  have hall : (Nat.toDigits 10 n).all formats.isDigit = true := List.all_eq_true.2 fun c hc => by
    rw [hdigits.isDigit c (by simp [identifierChar, Char.isAlphanum, hisDigit c hc]), hisDigit c hc]
  have hread : ∀ (cs : List Char), (∀ c ∈ cs, c.isDigit = true) → cs.mapM formats.decimal = some (cs.map fun c => c.toNat - '0'.toNat) := by
    intro cs
    induction cs with
    | nil => intro _; rfl
    | cons c cs ih =>
      intro hcs
      obtain ⟨hc, hcs⟩ := List.forall_mem_cons.1 hcs
      rw [List.mapM_cons, hdigits.decimal c hc, ih hcs]
      rfl
  have hfold : ∀ (cs : List Char) (start : Nat), (cs.map fun c => c.toNat - '0'.toNat).foldl (fun n digit => 10 * n + digit) start =
      Nat.ofDigitChars 10 cs start := by
    intro cs
    induction cs with
    | nil => exact fun _ => rfl
    | cons c cs ih => intro start; rw [List.map_cons, List.foldl_cons, ih, Nat.ofDigitChars_cons]
  unfold readPiece at h
  rw [if_pos hall] at h
  unfold readInt at h
  split at h
  · cases h
  · rw [hread _ hisDigit, Option.map_some, Option.map_some, hfold, Nat.ofDigitChars_ten_toDigits] at h
    exact (Option.some.inj h).symm

/-- A word without a hyphen is read as it is. -/
theorem readPiece_word (hdigits : AsciiDigits formats) {text : String} (hchars : ∀ c ∈ text.toList, identifierChar c = true)
    (hword : text.toList.all Char.isDigit = false) : readPiece formats text.toList = some (.word text) := by
  have hnot : text.toList.all formats.isDigit = false := by
    rw [← hword, Bool.eq_iff_iff, List.all_eq_true, List.all_eq_true]
    exact forall₂_congr fun c hc => by rw [hdigits.isDigit c (hchars c hc)]
  unfold readPiece
  rw [hnot, String.ofList_toList]
  rfl

/-- The piece of an identifier without a hyphen. -/
def pieceOf : Identifier → Piece
  | .number n => .number n
  | .word text _ _ => .word text

theorem splits_identifierChar {c : Char} (hc : identifierChar c = true) (hhyphen : c ≠ '-') : splits c = false := by
  unfold splits
  rw [decide_eq_false_iff_not]
  intro hmem
  rcases List.mem_cons.1 hmem with rfl | hmem
  · exact absurd hc (by decide)
  rcases List.mem_cons.1 hmem with rfl | hmem
  · exact hhyphen rfl
  · rw [List.mem_singleton.1 hmem] at hc
    exact absurd hc (by decide)

theorem mapM_identifiers (hdigits : AsciiDigits formats) : ∀ {ids : List Identifier} {key : List Piece},
    (∀ i ∈ ids, '-' ∉ i.chars) → ((ids.map Identifier.chars).flatMap piecesOf).mapM (readPiece formats) = some key →
    key = ids.map pieceOf
  | [], key, _, h => by
    cases h
    rfl
  | i :: ids, key, hplain, h => by
    obtain ⟨hi, hids⟩ := List.forall_mem_cons.1 hplain
    have hpieces : piecesOf i.chars = [i.chars] := by
      cases i with
      | number n => exact piecesOf_toDigits n
      | word text hchars hword =>
        refine piecesOf_self (fun c hc => splits_identifierChar (hchars c hc) fun heq => hi (heq ▸ hc)) ?_
        intro hnil
        rw [show text.toList = [] from hnil] at hword
        cases hword
    rw [List.map_cons, List.flatMap_cons, hpieces, List.singleton_append, List.mapM_cons] at h
    obtain ⟨first, hfirst, h⟩ := Option.bind_eq_some_iff.1 h
    obtain ⟨rest, hrest, h⟩ := Option.bind_eq_some_iff.1 h
    cases h
    rw [List.map_cons, mapM_identifiers hdigits hids hrest]
    congr 1
    cases i with
    | number n => exact readPiece_toDigits hdigits hfirst
    | word text hchars hword =>
      have hread : readPiece formats text.toList = some first := hfirst
      rw [readPiece_word hdigits hchars hword] at hread
      exact (Option.some.inj hread).symm

/-- The key of a version: its core, and then what its identifiers are read as. -/
theorem versionKey_text (hdigits : AsciiDigits formats) {v : SemVer} {key : List Piece} (h : versionKey formats v.text = some key) :
    ∃ pre build, ((v.pre.map Identifier.chars).flatMap piecesOf).mapM (readPiece formats) = some pre ∧
      ((v.build.map String.toList).flatMap piecesOf).mapM (readPiece formats) = some build ∧
      key = .number v.major :: .number v.minor :: .number v.patch :: (pre ++ build) := by
  have hpieces : piecesOf v.text.toList = Nat.toDigits 10 v.major :: Nat.toDigits 10 v.minor :: Nat.toDigits 10 v.patch ::
      ((v.pre.map Identifier.chars).flatMap piecesOf ++ (v.build.map String.toList).flatMap piecesOf) := by
    have htail : ∀ marks : List Char, marks = (if v.pre = [] then [] else '-' :: SemVer.dotted (v.pre.map Identifier.chars)) ++
        (if v.build = [] then [] else '+' :: SemVer.dotted (v.build.map String.toList)) →
        piecesOf (Nat.toDigits 10 v.patch ++ marks) = Nat.toDigits 10 v.patch ::
          ((v.pre.map Identifier.chars).flatMap piecesOf ++ (v.build.map String.toList).flatMap piecesOf) := by
      rintro _ rfl
      rw [← List.append_assoc, piecesOf_marked _ (show splits '+' = true by decide) v.build String.toList,
        piecesOf_marked _ (show splits '-' = true by decide) v.pre Identifier.chars, piecesOf_toDigits, List.append_assoc]
      rfl
    rw [SemVer.text, String.toList_ofList, SemVer.chars, piecesOf_append_cons _ _ (by decide), piecesOf_toDigits,
      piecesOf_append_cons _ _ (by decide), piecesOf_toDigits, htail _ rfl]
    rfl
  rw [versionKey_eq, hpieces] at h
  obtain ⟨parts, hparts, h⟩ := Option.map_eq_some_iff.1 h
  simp only [List.mapM_cons, List.mapM_append] at hparts
  obtain ⟨major, hmajor, hparts⟩ := Option.bind_eq_some_iff.1 hparts
  obtain ⟨after, hafter, hparts⟩ := Option.bind_eq_some_iff.1 hparts
  obtain ⟨minor, hminor, hafter⟩ := Option.bind_eq_some_iff.1 hafter
  obtain ⟨tail, htail, hafter⟩ := Option.bind_eq_some_iff.1 hafter
  obtain ⟨patch, hpatch, htail⟩ := Option.bind_eq_some_iff.1 htail
  obtain ⟨more, hmore, htail⟩ := Option.bind_eq_some_iff.1 htail
  obtain ⟨pre, hpre, hmore⟩ := Option.bind_eq_some_iff.1 hmore
  obtain ⟨build, hbuild, hmore⟩ := Option.bind_eq_some_iff.1 hmore
  cases hmore
  cases htail
  cases hafter
  cases hparts
  rw [if_neg (List.cons_ne_nil _ _)] at h
  refine ⟨pre, build, hpre, hbuild, ?_⟩
  rw [← h, readPiece_toDigits hdigits hmajor, readPiece_toDigits hdigits hminor, readPiece_toDigits hdigits hpatch]

/-- A version that is read as SemVer reads it: no hyphen in an identifier, and no build metadata. -/
structure Regular (v : SemVer) : Prop where
  pre : ∀ i ∈ v.pre, '-' ∉ i.chars
  build : v.build = []

theorem versionKey_regular (hdigits : AsciiDigits formats) {v : SemVer} (hv : Regular v) {key : List Piece}
    (h : versionKey formats v.text = some key) :
    key = .number v.major :: .number v.minor :: .number v.patch :: v.pre.map pieceOf := by
  obtain ⟨pre, build, hpre, hbuild, rfl⟩ := versionKey_text hdigits h
  rw [hv.build] at hbuild
  have hnone : build = [] := (Option.some.inj hbuild).symm
  rw [hnone, mapM_identifiers hdigits hv.pre hpre, List.append_nil]

theorem Piece.precedes_total {p q : Piece} (hne : p ≠ q) (hback : q.precedes p = false) : p.precedes q = true := by
  cases p with
  | number m =>
    cases q with
    | number n =>
      simp only [Piece.precedes, decide_eq_true_eq, decide_eq_false_iff_not] at hback ⊢
      have hvalues : m ≠ n := fun heq => hne (congrArg Piece.number heq)
      omega
    | word t => rfl
  | word s =>
    cases q with
    | number n => cases hback
    | word t =>
      simp only [Piece.precedes, decide_eq_true_eq, decide_eq_false_iff_not] at hback ⊢
      exact lt_of_le_of_ne (not_lt.1 hback) fun heq => hne (congrArg Piece.word heq)

/-- The order of the pieces is the one of the identifiers. -/
theorem keyPrecedes_pieces : ∀ {as bs : List Identifier}, SemVer.preBelow as bs = true →
    keyPrecedes (as.map pieceOf) (bs.map pieceOf) = true
  | _, [], h => by
    rw [SemVer.preBelow] at h
    cases h
  | [], b :: bs, _ => rfl
  | a :: as, b :: bs, h => by
    have hpiece : ∀ i j : Identifier, (pieceOf i).precedes (pieceOf j) = i.precedes j := fun i j => by
      cases i <;> cases j <;> rfl
    rw [SemVer.preBelow, Bool.or_eq_true, Bool.and_eq_true, Bool.not_eq_true'] at h
    rw [List.map_cons, List.map_cons, keyPrecedes]
    split
    · rename_i heq
      rcases h with hfirst | ⟨-, hrest⟩
      · rw [← hpiece, heq, Piece.precedes_irrefl] at hfirst
        cases hfirst
      · exact keyPrecedes_pieces hrest
    · rename_i hne
      rcases h with hfirst | ⟨hback, -⟩
      · rw [hpiece]
        exact hfirst
      · rw [← hpiece] at hback
        exact Piece.precedes_total hne hback

theorem keyPrecedes_core {m m' n n' k k' : Nat} (rest rest' : List Piece)
    (h : m < m' ∨ m = m' ∧ (n < n' ∨ n = n' ∧ k < k')) :
    keyPrecedes (.number m :: .number n :: .number k :: rest) (.number m' :: .number n' :: .number k' :: rest') = true := by
  rw [keyPrecedes]
  rcases h with hlt | ⟨rfl, hlt | ⟨rfl, hlt⟩⟩
  · rw [if_neg fun heq => absurd (Piece.number.inj heq) (by omega)]
    exact decide_eq_true hlt
  · rw [if_pos rfl, keyPrecedes, if_neg fun heq => absurd (Piece.number.inj heq) (by omega)]
    exact decide_eq_true hlt
  · rw [if_pos rfl, keyPrecedes, if_pos rfl, keyPrecedes, if_neg fun heq => absurd (Piece.number.inj heq) (by omega)]
    exact decide_eq_true hlt

theorem keyPrecedes_prefix (front : List Piece) (a b : List Piece) : keyPrecedes (front ++ a) (front ++ b) = keyPrecedes a b := by
  induction front with
  | nil => rfl
  | cons p front ih => rw [List.cons_append, List.cons_append, keyPrecedes, if_pos rfl, ih]

/-- What is above the highest version has its core, and is a release, or one of the two is not read as SemVer reads it. -/
theorem above_highest (hdigits : AsciiDigits formats) {v w : SemVer} {key key' : List Piece}
    (hkey : versionKey formats v.text = some key) (hkey' : versionKey formats w.text = some key')
    (hnot : keyPrecedes key key' = false) (hbelow : v.Below w) :
    v.SameCore w ∧ v.pre ≠ [] ∧ (w.pre = [] ∨ ¬ Regular v ∨ ¬ Regular w) := by
  rcases hbelow with hcore | ⟨hsame, hpre, hor⟩
  · obtain ⟨pre, build, -, -, rfl⟩ := versionKey_text hdigits hkey
    obtain ⟨pre', build', -, -, rfl⟩ := versionKey_text hdigits hkey'
    rw [keyPrecedes_core _ _ hcore] at hnot
    cases hnot
  · refine ⟨hsame, hpre, ?_⟩
    rcases hor with hrelease | hlower
    · exact .inl hrelease
    · refine .inr ?_
      rw [← not_and_or]
      rintro ⟨hv, hw⟩
      rw [versionKey_regular hdigits hv hkey, versionKey_regular hdigits hw hkey', ← hsame.major, ← hsame.minor,
        ← hsame.patch] at hnot
      have hfront := keyPrecedes_prefix [.number v.major, .number v.minor, .number v.patch] (v.pre.map pieceOf)
        (w.pre.map pieceOf)
      exact Bool.false_ne_true (hnot.symm.trans (hfront.trans (keyPrecedes_pieces hlower)))

end reading

end OpenFish.Registry
