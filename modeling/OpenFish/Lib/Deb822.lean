/-
The control format of Debian: stanzas of fields, separated by blank lines. A field is a line `Key: value`, continued by the
lines after it that start with a blank.
-/
import Mathlib.Data.List.Nodup
import Mathlib.Data.List.Perm.Subperm
import OpenFish.Lib.Words

namespace Lib.Deb822

abbrev Line := List Char

/-- The fields of a stanza, with their values. -/
abbrev Stanza := List (String × String)

/-! ## Lines -/

def isBlank (c : Char) : Bool := c = ' ' || c = '\t'

/-- A line that separates stanzas. -/
def blank (l : Line) : Bool := l.all isBlank

/-- A line that continues a field. -/
def continues (l : Line) : Bool := l.head?.any isBlank && !blank l

def trim (l : Line) : Line := (l.dropWhile isBlank).rdropWhile isBlank

/-- Printable and neither a colon nor, in front, the sign of a comment or a dash. -/
def validKey (key : List Char) : Bool :=
  key ≠ [] && key.all (fun c => 0x21 ≤ c.toNat && c.toNat ≤ 0x7e && c ≠ ':') && key.head? ≠ some '#' && key.head? ≠ some '-'

/-- `Key: value`. -/
def header (l : Line) : Option (List Char × Line) :=
  let key := l.takeWhile (· ≠ ':')
  if key.length < l.length ∧ validKey key = true then some (key, trim (l.drop (key.length + 1))) else none

/-! ## Reading -/

/-- What is read of the lines from some line on: the lines that wait for their field, and the fields. -/
abbrev Reading := List Line × List (List Char × List Line)

/-- One line more, before them. -/
def readLine (l : Line) (r : Reading) : Option Reading :=
  if continues l = true then some (l :: r.1, r.2) else (header l).map fun h => ([], (h.1, h.2 :: r.1) :: r.2)

def readLines (ls : List Line) (r : Reading) : Option Reading := ls.foldr (fun l r => r.bind (readLine l)) (some r)

/-- A field as it is given: the lines of its value, the first one without its outer blanks. -/
def fieldOf (f : List Char × List Line) : String × String := (String.ofList f.1, String.ofList (['\n'].intercalate f.2))

/-- No key twice, in whatever case. -/
def Unique (fields : List (List Char × List Line)) : Prop := (fields.map fun f => f.1.map Char.toLower).Nodup

instance (fields : List (List Char × List Line)) : Decidable (Unique fields) := inferInstanceAs (Decidable (List.Nodup _))

def readStanza (ls : List Line) : Option Stanza :=
  (readLines ls ([], [])).bind fun r => if r.1 = [] ∧ Unique r.2 then some (r.2.map fieldOf) else none

def linesOf (text : String) : List Line := text.toList.splitOn '\n'

/-- The lines between blank ones. -/
def paragraphs (ls : List Line) : List (List Line) := (ls.splitOnP blank).filter (· ≠ [])

/-- The stanzas of a text; `none`, where a line is no field and continues none, or a key is there twice. -/
def parse (text : String) : Option (List Stanza) := (paragraphs (linesOf text)).mapM readStanza

/-! ## Writing -/

def fieldText (f : String × String) : String := f.1 ++ ": " ++ f.2

def stanzaText (s : Stanza) : String := "\n".intercalate (s.map fieldText)

/-- The stanzas, with an empty line between two. -/
def render (stanzas : List Stanza) : String :=
  "\n\n".intercalate (stanzas.map stanzaText) ++ if stanzas = [] then "" else "\n"

/-- The first line of a value. -/
def first (v : String) : Line := (linesOf v).headD []

/-- The other lines of a value. -/
def more (v : String) : List Line := (linesOf v).tail

/-- A value that is read as it is: its first line has no outer blanks, and each other line continues it. -/
structure Kept (v : String) : Prop where
  first : trim (first v) = first v
  more : ∀ l ∈ more v, continues l = true

/-- A value that stays in its field: after the lines that continue it there are blank ones at most. -/
def Inside (v : String) : Prop := ∀ l ∈ (more v).dropWhile continues, blank l = true

/-! ## Lines of what is written -/

theorem splitOn_append {d : Char} {pre : List Char} (h : d ∉ pre) (s : List Char) :
    (pre ++ s).splitOn d = (s.splitOn d).modifyHead (pre ++ ·) := by
  induction pre with
  | nil => cases hs : s.splitOn d <;> simp [hs]
  | cons c pre ih =>
    rw [List.mem_cons, not_or] at h
    rw [List.splitOn_eq_splitOnP] at ih ⊢
    rw [List.cons_append, List.splitOnP_cons_eq_if_modifyHead, if_neg (by simpa using Ne.symm h.1), ih h.2,
      List.modifyHead_modifyHead]
    rfl

theorem linesOf_eq (v : String) : linesOf v = first v :: more v := by
  rw [first, more]
  cases hv : linesOf v with
  | nil => exact absurd hv (List.splitOn_ne_nil _ _)
  | cons l ls => rfl

/-- The lines of a field. -/
def fieldLines (f : String × String) : List Line := (f.1.toList ++ ':' :: ' ' :: first f.2) :: more f.2

theorem linesOf_fieldText {f : String × String} (h : '\n' ∉ f.1.toList) : linesOf (fieldText f) = fieldLines f := by
  have hslash : (": " : String).toList = [':', ' '] := rfl
  have hpre : '\n' ∉ f.1.toList ++ [':', ' '] := by simpa using h
  have hlines := linesOf_eq f.2
  rw [linesOf] at hlines
  rw [linesOf, fieldText, String.toList_append, String.toList_append, hslash, splitOn_append hpre, hlines,
    List.modifyHead_cons, fieldLines, List.append_assoc]
  rfl

theorem splitOn_intercalate_lines {texts : List (List Char)} (h : texts ≠ []) :
    (['\n'].intercalate texts).splitOn '\n' = texts.flatMap fun t => t.splitOn '\n' := by
  induction texts with
  | nil => exact absurd rfl h
  | cons t texts ih =>
    cases texts with
    | nil => simp
    | cons second texts =>
      rw [List.intercalate_cons_cons, List.append_assoc, List.singleton_append, List.splitOn_append_cons_self,
        ih (List.cons_ne_nil _ _)]
      rfl

/-- The lines of a stanza. -/
def stanzaLines (s : Stanza) : List Line := s.flatMap fieldLines

theorem linesOf_stanzaText {s : Stanza} (hne : s ≠ []) (h : ∀ f ∈ s, '\n' ∉ f.1.toList) :
    linesOf (stanzaText s) = stanzaLines s := by
  have hsep : ("\n" : String).toList = ['\n'] := rfl
  rw [linesOf, stanzaText, String.toList_intercalate, hsep, splitOn_intercalate_lines (by simpa using hne), List.map_map,
    List.flatMap_map, stanzaLines]
  exact List.flatMap_congr fun f hf => linesOf_fieldText (h f hf)

/-! ## Paragraphs -/

@[simp] theorem paragraphs_nil : paragraphs [] = [] := by simp [paragraphs]

theorem paragraphs_append_cons {b : Line} (hb : blank b = true) (A B : List Line) :
    paragraphs (A ++ b :: B) = paragraphs A ++ paragraphs B := by
  rw [paragraphs, List.splitOnP_append_cons A B hb, List.filter_append, paragraphs, paragraphs]

theorem paragraphs_blank {B : List Line} (h : ∀ b ∈ B, blank b = true) : paragraphs B = [] := by
  rw [paragraphs, List.filter_eq_nil_iff]
  intro piece hpiece
  rw [(Text.splitOnP_all_nil.2 h) piece hpiece]
  simp

theorem paragraphs_filled {P : List Line} (hne : P ≠ []) (h : ∀ l ∈ P, blank l = false) : paragraphs P = [P] := by
  rw [paragraphs, List.splitOnP_eq_singleton h]
  simp [hne]

/-- One paragraph: the lines up to the blank ones at the end. -/
theorem paragraphs_eq_singleton {ls P : List Line} (hhead : ∃ l rest, ls = l :: rest ∧ blank l = false) :
    paragraphs ls = [P] ↔ P ≠ [] ∧ (∀ l ∈ P, blank l = false) ∧ ∃ B, ls = P ++ B ∧ ∀ b ∈ B, blank b = true := by
  constructor
  · intro h
    obtain ⟨l, rest, rfl, hl⟩ := hhead
    have hfilled : ∀ x ∈ (l :: rest).takeWhile (fun x => !blank x), blank x = false := fun x hx => by
      simpa using List.mem_takeWhile_imp hx
    have hne : (l :: rest).takeWhile (fun x => !blank x) ≠ [] := by
      rw [List.takeWhile_cons_of_pos (by simp [hl])]
      exact List.cons_ne_nil _ _
    have hsplit := List.takeWhile_append_dropWhile (p := fun x => !blank x) (l := l :: rest)
    cases hdrop : (l :: rest).dropWhile (fun x => !blank x) with
    | nil =>
      rw [hdrop, List.append_nil] at hsplit
      rw [← hsplit, paragraphs_filled hne hfilled] at h
      cases h
      exact ⟨hne, hfilled, [], by rw [List.append_nil, hsplit], by simp⟩
    | cons b B =>
      have hb : blank b = true := by
        have hsome : (l :: rest).dropWhile (fun x => !blank x) ≠ [] := by
          rw [hdrop]
          exact List.cons_ne_nil _ _
        have hstop := List.head_dropWhile_not (fun x => !blank x) hsome
        simpa [hdrop] using hstop
      rw [hdrop] at hsplit
      rw [← hsplit, paragraphs_append_cons hb, paragraphs_filled hne hfilled] at h
      obtain ⟨rfl, hB⟩ := List.cons.inj h
      have hB : paragraphs B = [] := hB
      refine ⟨hne, hfilled, b :: B, hsplit.symm, List.forall_mem_cons.2 ⟨hb, ?_⟩⟩
      rw [← Text.splitOnP_all_nil]
      intro piece hpiece
      by_contra hfull
      have hmem : piece ∈ paragraphs B := List.mem_filter.2 ⟨hpiece, by simpa using hfull⟩
      rw [hB] at hmem
      cases hmem
  · rintro ⟨hne, hfilled, B, rfl, hB⟩
    cases B with
    | nil => rw [List.append_nil, paragraphs_filled hne hfilled]
    | cons b B =>
      obtain ⟨hb, hrest⟩ := List.forall_mem_cons.1 hB
      rw [paragraphs_append_cons hb, paragraphs_filled hne hfilled, paragraphs_blank hrest, List.append_nil]

theorem paragraphs_ne_nil {l : Line} (rest : List Line) (hl : blank l = false) : paragraphs (l :: rest) ≠ [] := by
  intro h
  rw [paragraphs, List.filter_eq_nil_iff] at h
  have hall := Text.splitOnP_all_nil.1 (fun piece hpiece => by simpa using h piece hpiece) l (List.mem_cons_self ..)
  rw [hl] at hall
  cases hall

/-! ## Paragraphs of what is written -/

/-- Each stanza has fields, and no key has a line break. -/
def Lined (stanzas : List Stanza) : Prop := ∀ s ∈ stanzas, s ≠ [] ∧ ∀ f ∈ s, '\n' ∉ f.1.toList

theorem paragraphs_render {stanzas : List Stanza} (h : Lined stanzas) :
    paragraphs (linesOf (render stanzas)) = stanzas.flatMap fun s => paragraphs (stanzaLines s) := by
  induction stanzas with
  | nil => decide
  | cons s stanzas ih =>
    obtain ⟨⟨hne, hkeys⟩, hrest⟩ := List.forall_mem_cons.1 h
    have hlines := linesOf_stanzaText hne hkeys
    rw [linesOf] at hlines
    cases stanzas with
    | nil =>
      have htext : (render [s]).toList = (stanzaText s).toList ++ '\n' :: [] := by simp [render]
      rw [linesOf, htext, List.splitOn_append_cons_self, hlines, List.splitOn_nil, paragraphs_append_cons rfl]
      simp
    | cons second stanzas =>
      have htext : (render (s :: second :: stanzas)).toList =
          (stanzaText s).toList ++ '\n' :: ([] ++ '\n' :: (render (second :: stanzas)).toList) := by
        simp [render, String.toList_intercalate]
      rw [linesOf, htext, List.splitOn_append_cons_self, List.splitOn_append_cons_self, hlines, List.splitOn_nil,
        List.singleton_append, paragraphs_append_cons rfl, List.flatMap_cons]
      exact congrArg _ (ih hrest)

/-! ## Reading a stanza -/

@[simp] theorem readLines_nil (r : Reading) : readLines [] r = some r := rfl

theorem readLines_cons (l : Line) (ls : List Line) (r : Reading) :
    readLines (l :: ls) r = (readLines ls r).bind (readLine l) := rfl

theorem readLines_append (A B : List Line) (r : Reading) : readLines (A ++ B) r = (readLines B r).bind (readLines A) := by
  induction A with
  | nil => cases hB : readLines B r <;> simp [hB]
  | cons l A ih =>
    rw [List.cons_append, readLines_cons, ih, Option.bind_assoc]
    rfl

/-- Each line that continues none is a field's. -/
theorem readLines_length {ls : List Line} {r r' : Reading} (h : readLines ls r = some r') :
    r'.2.length = ls.countP (fun l => !continues l) + r.2.length := by
  induction ls generalizing r' with
  | nil =>
    cases h
    simp
  | cons l ls ih =>
    rw [readLines_cons] at h
    obtain ⟨r₁, hr₁, hline⟩ := Option.bind_eq_some_iff.1 h
    have hlength := ih hr₁
    unfold readLine at hline
    split at hline
    · rename_i hcont
      cases hline
      rw [hlength, List.countP_cons_of_neg (by simp [hcont])]
    · rename_i hcont
      obtain ⟨kv, -, rfl⟩ := Option.map_eq_some_iff.1 hline
      rw [List.countP_cons_of_pos (by simpa using hcont), List.length_cons, hlength]
      omega

/-- Lines that continue wait for their field. -/
theorem readLines_continues {ls : List Line} (h : ∀ l ∈ ls, continues l = true) (r : Reading) :
    readLines ls r = some (ls ++ r.1, r.2) := by
  induction ls with
  | nil => rfl
  | cons l ls ih =>
    obtain ⟨hl, hrest⟩ := List.forall_mem_cons.1 h
    rw [readLines_cons, ih hrest, Option.bind_some, readLine, if_pos hl]
    rfl

/-! ## Reading a written field -/

section Field

variable {key : List Char}

theorem validKey_spec (hkey : validKey key = true) : key ≠ [] ∧ ∀ c ∈ key, 0x21 ≤ c.toNat ∧ c.toNat ≤ 0x7e ∧ c ≠ ':' := by
  simp only [validKey, Bool.and_eq_true, decide_eq_true_eq, List.all_eq_true] at hkey
  exact ⟨hkey.1.1.1, fun c hc => ⟨(hkey.1.1.2 c hc).1.1, (hkey.1.1.2 c hc).1.2, (hkey.1.1.2 c hc).2⟩⟩

theorem not_mem_of_validKey (hkey : validKey key = true) : '\n' ∉ key := fun hmem =>
  absurd ((validKey_spec hkey).2 _ hmem).1 (by decide)

/-- A line that starts with a key is neither blank nor continues. -/
theorem head_of_validKey (hkey : validKey key = true) (l : Line) :
    blank (key ++ l) = false ∧ continues (key ++ l) = false := by
  obtain ⟨hne, hchars⟩ := validKey_spec hkey
  cases key with
  | nil => exact absurd rfl hne
  | cons c cs =>
    have hplain : isBlank c = false := by
      have hlow := (hchars c (List.mem_cons_self ..)).1
      rw [isBlank, Bool.or_eq_false_iff, decide_eq_false_iff_not, decide_eq_false_iff_not]
      refine ⟨fun heq => ?_, fun heq => ?_⟩ <;> rw [heq] at hlow <;> exact absurd hlow (by decide)
    simp [blank, continues, hplain]

theorem trim_blank_cons (l : Line) : trim (' ' :: l) = trim l := by
  rw [trim, List.dropWhile_cons_of_pos (by decide), trim]

theorem header_key (hkey : validKey key = true) (value : Line) : header (key ++ ':' :: ' ' :: value) = some (key, trim value) := by
  have htake : (key ++ ':' :: ' ' :: value).takeWhile (· ≠ ':') = key := by
    rw [List.takeWhile_append_of_pos fun c hc => decide_eq_true ((validKey_spec hkey).2 c hc).2.2,
      List.takeWhile_cons_of_neg (by decide), List.append_nil]
  have hdrop : (key ++ ':' :: ' ' :: value).drop (key.length + 1) = ' ' :: value := by
    rw [← List.drop_drop, List.drop_left]
    rfl
  rw [header, htake, hdrop, if_pos ⟨by simp, hkey⟩, trim_blank_cons]

theorem readLines_field (hkey : validKey key = true) (value : Line) {ls : List Line} (hls : ∀ l ∈ ls, continues l = true)
    (fields : List (List Char × List Line)) :
    readLines ((key ++ ':' :: ' ' :: value) :: ls) ([], fields) = some ([], (key, trim value :: ls) :: fields) := by
  rw [readLines_cons, readLines_continues hls, Option.bind_some, readLine,
    if_neg (Bool.eq_false_iff.1 (head_of_validKey hkey _).2), header_key hkey, Option.map_some, List.append_nil]

end Field

/-- The field that is read where its value stays in it. -/
def readField (f : String × String) : List Char × List Line := (f.1.toList, trim (first f.2) :: more f.2)

/-- The stanza has valid keys, none twice. -/
structure Keyed (s : Stanza) : Prop where
  valid : ∀ f ∈ s, validKey f.1.toList = true
  unique : (s.map fun f => f.1.toList.map Char.toLower).Nodup

theorem readLines_stanza {s : Stanza} (hvalid : ∀ f ∈ s, validKey f.1.toList = true)
    (hmore : ∀ f ∈ s, ∀ l ∈ more f.2, continues l = true) (fields : List (List Char × List Line)) :
    readLines (stanzaLines s) ([], fields) = some ([], s.map readField ++ fields) := by
  induction s with
  | nil => rfl
  | cons f s ih =>
    obtain ⟨hf, hs⟩ := List.forall_mem_cons.1 hvalid
    obtain ⟨hfirst, hrest⟩ := List.forall_mem_cons.1 hmore
    rw [stanzaLines, List.flatMap_cons, readLines_append]
    rw [stanzaLines] at ih
    rw [ih hs hrest, Option.bind_some, fieldLines, readLines_field hf _ hfirst]
    rfl

section Stanza

variable {own : Stanza} {free : String × String}

/-- The stanza that is read of one that is written, up to the lines after the last field. -/
theorem readStanza_written (hkeyed : Keyed (own ++ [free])) (hmore : ∀ f ∈ own, ∀ l ∈ more f.2, continues l = true)
    {ls : List Line} (hls : ∀ l ∈ ls, continues l = true) :
    readStanza (stanzaLines own ++ (free.1.toList ++ ':' :: ' ' :: first free.2) :: ls) =
      some (own.map (fun f => fieldOf (readField f)) ++ [fieldOf (free.1.toList, trim (first free.2) :: ls)]) := by
  have hown : ∀ f ∈ own, validKey f.1.toList = true := fun f hf => hkeyed.valid f (List.mem_append_left _ hf)
  have hfree := hkeyed.valid free (List.mem_append_right _ (List.mem_singleton_self _))
  have hunique : Unique (own.map readField ++ [(free.1.toList, trim (first free.2) :: ls)]) := by
    have hkeys := hkeyed.unique
    rw [Unique, List.map_append, List.map_map]
    rw [List.map_append] at hkeys
    exact hkeys
  rw [readStanza, readLines_append, readLines_field hfree _ hls, Option.bind_some, readLines_stanza hown hmore, Option.bind_some,
    if_pos ⟨rfl, hunique⟩, List.map_append, List.map_map]
  rfl

theorem fieldOf_readField (f : String × String) :
    fieldOf (readField f) = (f.1, String.ofList (['\n'].intercalate (trim (first f.2) :: more f.2))) := by
  rw [fieldOf, readField, String.ofList_toList]

/-- A value is read as it is exactly if its first line has no outer blanks. -/
theorem fieldOf_readField_eq {f : String × String} :
    fieldOf (readField f) = f ↔ trim (first f.2) = first f.2 := by
  have hlines := linesOf_eq f.2
  have hvalue : String.ofList (['\n'].intercalate (first f.2 :: more f.2)) = f.2 := by
    rw [← hlines, linesOf, List.intercalate_splitOn, String.ofList_toList]
  rw [fieldOf_readField]
  constructor
  · intro h
    have htext := congrArg String.toList (Prod.mk.inj h).2
    rw [String.toList_ofList] at htext
    have hsplit : (['\n'].intercalate (trim (first f.2) :: more f.2)).splitOn '\n' = trim (first f.2) :: more f.2 := by
      refine List.splitOn_intercalate _ (fun l hl => ?_) (List.cons_ne_nil _ _)
      have hplain : ∀ l ∈ first f.2 :: more f.2, '\n' ∉ l := fun l hl hbreak => by
        rw [← hlines, linesOf, List.splitOn_eq_splitOnP] at hl
        have hfalse := Text.mem_splitOnP hl '\n' hbreak
        simp at hfalse
      rcases List.mem_cons.1 hl with rfl | hl
      · have htrim : trim (first f.2) <+: (first f.2).dropWhile isBlank := List.rdropWhile_prefix _ _
        exact fun hbreak => hplain _ (List.mem_cons_self ..) ((List.dropWhile_sublist _).subset (htrim.subset hbreak))
      · exact hplain l (List.mem_cons_of_mem _ hl)
    rw [htext] at hsplit
    rw [linesOf] at hlines
    rw [hlines] at hsplit
    exact (List.cons.inj hsplit).1.symm
  · intro h
    rw [h, hvalue]

/-! ## What is read of what is written -/

/-- The own fields as they are, and no field but these and the free one. -/
def Reads (own : Stanza) (free : String × String) (st : Stanza) : Prop :=
  (∀ f ∈ own, f ∈ st) ∧ ∀ f ∈ st, f.1 ∈ (own ++ [free]).map Prod.fst

theorem stanzaLines_concat : stanzaLines (own ++ [free]) =
    stanzaLines own ++ (free.1.toList ++ ':' :: ' ' :: first free.2) :: more free.2 := by
  rw [stanzaLines, List.flatMap_append, List.flatMap_singleton]
  rfl

theorem stanzaLines_head (hkeyed : Keyed (own ++ [free])) :
    ∃ l rest, stanzaLines (own ++ [free]) = l :: rest ∧ blank l = false := by
  cases own with
  | nil =>
    have hvalid := hkeyed.valid free (List.mem_singleton_self _)
    exact ⟨_, _, stanzaLines_concat, (head_of_validKey hvalid _).1⟩
  | cons f own =>
    have hvalid := hkeyed.valid f (List.mem_cons_self ..)
    exact ⟨_, _, rfl, (head_of_validKey hvalid _).1⟩

/-- The lines that start a field, in the fields that are written. -/
theorem countP_stanzaLines (hvalid : ∀ f ∈ own, validKey f.1.toList = true) :
    own.length ≤ (stanzaLines own).countP (fun l => !continues l) ∧
      ((stanzaLines own).countP (fun l => !continues l) ≤ own.length → ∀ f ∈ own, ∀ l ∈ more f.2, continues l = true) := by
  induction own with
  | nil => exact ⟨Nat.zero_le _, fun _ f hf => by cases hf⟩
  | cons f own ih =>
    obtain ⟨hf, hrest⟩ := List.forall_mem_cons.1 hvalid
    obtain ⟨hle, hall⟩ := ih hrest
    have hcount : (stanzaLines (f :: own)).countP (fun l => !continues l) =
        (more f.2).countP (fun l => !continues l) + 1 + (stanzaLines own).countP (fun l => !continues l) := by
      rw [stanzaLines, List.flatMap_cons, List.countP_append, fieldLines,
        List.countP_cons_of_pos (by rw [(head_of_validKey hf _).2]; rfl)]
      rfl
    rw [hcount, List.length_cons]
    refine ⟨by omega, fun hfew => List.forall_mem_cons.2 ⟨fun l hl => ?_, hall (by omega)⟩⟩
    have hzero : (more f.2).countP (fun l => !continues l) = 0 := by omega
    simpa using List.countP_eq_zero.1 hzero l hl

theorem length_le_of_reads {st : Stanza} (hunique : (st.map Prod.fst).Nodup) (h : Reads own free st) :
    st.length ≤ own.length + 1 := by
  have hsub : st.map Prod.fst ⊆ (own ++ [free]).map Prod.fst := fun key hkey => by
    obtain ⟨f, hf, rfl⟩ := List.mem_map.1 hkey
    exact h.2 f hf
  have hlength := (hunique.subperm hsub).length_le
  simpa using hlength

/-- The keys of a stanza that is read are distinct, and each is a line's that continues none. -/
theorem readStanza_spec {P : List Line} {st : Stanza} (h : readStanza P = some st) :
    (st.map Prod.fst).Nodup ∧ st.length = P.countP (fun l => !continues l) := by
  obtain ⟨r, hr, hst⟩ := Option.bind_eq_some_iff.1 h
  have hlength := readLines_length hr
  split at hst
  · rename_i hboth
    cases hst
    refine ⟨?_, by simpa using hlength⟩
    have hkeys : (r.2.map fun f => f.1).Nodup := by
      have hlower : ((r.2.map fun f => f.1).map (List.map Char.toLower)).Nodup := by
        rw [List.map_map]
        exact hboth.2
      exact hlower.of_map _
    rw [List.map_map]
    have hinj : Function.Injective String.ofList := fun a b hab => by
      rw [← String.toList_ofList (l := a), hab, String.toList_ofList]
    have hmapped := hkeys.map hinj
    rw [List.map_map] at hmapped
    exact hmapped
  · cases hst

theorem blank_of_continues {l : Line} (h : continues l = true) : blank l = false := by
  rw [continues, Bool.and_eq_true, Bool.not_eq_true'] at h
  exact h.2

/-- The paragraph of a stanza, read with nothing lost or added, ends in the last field. -/
theorem continues_of_reads (hkeyed : Keyed (own ++ [free])) {P : List Line} {st : Stanza}
    (hP : paragraphs (stanzaLines (own ++ [free])) = [P]) (hst : readStanza P = some st) (h : Reads own free st) :
    (∀ f ∈ own, ∀ l ∈ more f.2, continues l = true) ∧ ∃ ls B, more free.2 = ls ++ B ∧ (∀ l ∈ ls, continues l = true) ∧
      (∀ b ∈ B, blank b = true) ∧ P = stanzaLines own ++ (free.1.toList ++ ':' :: ' ' :: first free.2) :: ls := by
  have hvalid : ∀ f ∈ own, validKey f.1.toList = true := fun f hf => hkeyed.valid f (List.mem_append_left _ hf)
  have hfree := head_of_validKey (hkeyed.valid free (List.mem_append_right _ (List.mem_singleton_self _)))
    (':' :: ' ' :: first free.2)
  obtain ⟨-, -, B, hlines, hB⟩ := (paragraphs_eq_singleton (stanzaLines_head hkeyed)).1 hP
  rw [stanzaLines_concat] at hlines
  obtain ⟨ls, rfl, hmore⟩ : ∃ ls, P = stanzaLines own ++ (free.1.toList ++ ':' :: ' ' :: first free.2) :: ls ∧
      more free.2 = ls ++ B := by
    rcases List.append_eq_append_iff.1 hlines with ⟨ls, hP, hrest⟩ | ⟨ls, -, hrest⟩
    · cases ls with
      | nil =>
        have hblank := hB _ (hrest ▸ List.mem_cons_self ..)
        rw [hfree.1] at hblank
        cases hblank
      | cons l ls =>
        obtain ⟨rfl, hmore⟩ := List.cons.inj hrest
        exact ⟨ls, hP, hmore⟩
    · have hblank := hB _ (hrest ▸ List.mem_append_right _ (List.mem_cons_self ..))
      rw [hfree.1] at hblank
      cases hblank
  -- there are no more keys than are written, so no line but these starts a field
  obtain ⟨hunique, hlength⟩ := readStanza_spec hst
  have hfew := length_le_of_reads hunique h
  rw [hlength, List.countP_append, List.countP_cons_of_pos (by rw [hfree.2]; rfl)] at hfew
  obtain ⟨hle, hall⟩ := countP_stanzaLines hvalid
  have hzero : ls.countP (fun l => !continues l) = 0 := by omega
  refine ⟨hall (by omega), ls, B, hmore, fun l hl => ?_, hB, rfl⟩
  simpa using List.countP_eq_zero.1 hzero l hl

/-- A written stanza is one paragraph whose own fields are read as they are, and nothing else is, exactly if the own values
are kept and the free value stays in its field. -/
theorem reads_iff (hkeyed : Keyed (own ++ [free])) :
    (∃ P st, paragraphs (stanzaLines (own ++ [free])) = [P] ∧ readStanza P = some st ∧ Reads own free st) ↔
      (∀ f ∈ own, Kept f.2) ∧ Inside free.2 := by
  constructor
  · rintro ⟨P, st, hP, hst, h⟩
    obtain ⟨hown, ls, B, hmore, hls, hB, rfl⟩ := continues_of_reads hkeyed hP hst h
    have hkeys := (readStanza_spec hst).1
    rw [readStanza_written hkeyed hown hls] at hst
    refine ⟨fun f hf => ⟨?_, hown f hf⟩, fun l hl => hB l ?_⟩
    · have hread : fieldOf (readField f) ∈ st := by
        rw [← Option.some.inj hst]
        exact List.mem_append_left _ (List.mem_map_of_mem hf)
      have hkey : (fieldOf (readField f)).1 = f.1 := by rw [fieldOf_readField]
      exact fieldOf_readField_eq.1 (List.inj_on_of_nodup_map hkeys hread (h.1 f hf) hkey)
    · rw [hmore, List.dropWhile_append_of_pos hls] at hl
      exact (List.dropWhile_sublist _).subset hl
  · rintro ⟨hkept, hinside⟩
    have hown : ∀ f ∈ own, ∀ l ∈ more f.2, continues l = true := fun f hf => (hkept f hf).more
    have hls : ∀ l ∈ (more free.2).takeWhile continues, continues l = true := fun l hl => List.mem_takeWhile_imp hl
    refine ⟨_, _, (paragraphs_eq_singleton (stanzaLines_head hkeyed)).2 ⟨?_, ?_, (more free.2).dropWhile continues, ?_, hinside⟩,
      readStanza_written hkeyed hown hls, ?_, ?_⟩
    · simp
    · intro l hl
      rcases List.mem_append.1 hl with hl | hl
      · obtain ⟨f, hf, hl⟩ := List.mem_flatMap.1 hl
        rcases List.mem_cons.1 hl with rfl | hl
        · exact (head_of_validKey (hkeyed.valid f (List.mem_append_left _ hf)) _).1
        · exact blank_of_continues (hown f hf l hl)
      · rcases List.mem_cons.1 hl with rfl | hl
        · exact (head_of_validKey (hkeyed.valid free (List.mem_append_right _ (List.mem_singleton_self _))) _).1
        · exact blank_of_continues (hls l hl)
    · rw [stanzaLines_concat, List.append_assoc, List.cons_append, List.takeWhile_append_dropWhile]
    · intro f hf
      refine List.mem_append_left _ (List.mem_map.2 ⟨f, hf, fieldOf_readField_eq.2 (hkept f hf).first⟩)
    · intro f hf
      rw [List.map_append]
      rcases List.mem_append.1 hf with hf | hf
      · obtain ⟨g, hg, rfl⟩ := List.mem_map.1 hf
        rw [fieldOf_readField]
        exact List.mem_append_left _ (List.mem_map.2 ⟨g, hg, rfl⟩)
      · rw [List.mem_singleton.1 hf, fieldOf, String.ofList_toList]
        exact List.mem_append_right _ (List.mem_singleton_self _)

end Stanza

/-! ## The whole text -/

theorem length_eq_one_of_flatten {α : Type*} {pieces : List (List α)} (hne : ∀ piece ∈ pieces, piece ≠ [])
    (h : pieces.flatten.length ≤ pieces.length) : ∀ piece ∈ pieces, ∃ x, piece = [x] := by
  have hle : ∀ {pieces : List (List α)}, (∀ piece ∈ pieces, piece ≠ []) → pieces.length ≤ pieces.flatten.length := by
    intro pieces hne
    induction pieces with
    | nil => exact Nat.zero_le _
    | cons piece pieces ih =>
      obtain ⟨hpiece, hrest⟩ := List.forall_mem_cons.1 hne
      have hpos := List.length_pos_iff.2 hpiece
      have hih := ih hrest
      rw [List.flatten_cons, List.length_append, List.length_cons]
      omega
  induction pieces with
  | nil => exact fun piece hpiece => by cases hpiece
  | cons piece pieces ih =>
    obtain ⟨hpiece, hrest⟩ := List.forall_mem_cons.1 hne
    have hpos := List.length_pos_iff.2 hpiece
    have hmin := hle hrest
    rw [List.flatten_cons, List.length_append, List.length_cons] at h
    exact List.forall_mem_cons.2 ⟨List.length_eq_one_iff.1 (by omega), ih hrest (by omega)⟩

theorem mapM_eq_some_iff {α β : Type*} {f : α → Option β} {l : List α} {out : List β} :
    l.mapM f = some out ↔ List.Forall₂ (fun a b => f a = some b) l out := by
  induction l generalizing out with
  | nil => simp [eq_comm]
  | cons a l ih =>
    rw [List.mapM_cons, Option.bind_eq_bind, Option.bind_eq_some_iff, List.forall₂_cons_left_iff]
    constructor
    · rintro ⟨b, hb, h⟩
      obtain ⟨bs, hbs, h⟩ := Option.bind_eq_some_iff.1 h
      exact ⟨b, bs, hb, ih.1 hbs, (Option.some.inj h).symm⟩
    · rintro ⟨b, bs, hb, hbs, rfl⟩
      exact ⟨b, hb, by rw [ih.2 hbs]; rfl⟩

/-- The pieces of a list, each not empty, are read one for one exactly if each is a single one. -/
theorem mapM_flatMap_iff {α β γ : Type*} {g : α → List β} {f : β → Option γ} {R : α → γ → Prop} {l : List α}
    (hne : ∀ a ∈ l, g a ≠ []) :
    (∃ out, (l.flatMap g).mapM f = some out ∧ List.Forall₂ R l out) ↔ ∀ a ∈ l, ∃ b c, g a = [b] ∧ f b = some c ∧ R a c := by
  constructor
  · rintro ⟨out, hout, hR⟩
    have hlength : (l.map g).flatten.length ≤ (l.map g).length := by
      rw [← List.flatMap_def, (mapM_eq_some_iff.1 hout).length_eq, ← hR.length_eq, List.length_map]
    have hone := length_eq_one_of_flatten (by simpa using hne) hlength
    clear hlength hne
    induction hR with
    | nil => exact fun a ha => by cases ha
    | @cons a c l out hac _ ih =>
      rw [List.map_cons] at hone
      obtain ⟨⟨b, hb⟩, hrest⟩ := List.forall_mem_cons.1 hone
      rw [List.flatMap_cons, hb, List.singleton_append, mapM_eq_some_iff] at hout
      obtain ⟨hc, hout⟩ := List.forall₂_cons.1 hout
      exact List.forall_mem_cons.2 ⟨⟨b, c, hb, hc, hac⟩, ih (mapM_eq_some_iff.2 hout) hrest⟩
  · intro h
    clear hne
    induction l with
    | nil => exact ⟨[], rfl, .nil⟩
    | cons a l ih =>
      obtain ⟨⟨b, c, hb, hc, hac⟩, hrest⟩ := List.forall_mem_cons.1 h
      obtain ⟨out, hout, hR⟩ := ih hrest
      refine ⟨c :: out, ?_, .cons hac hR⟩
      rw [List.flatMap_cons, hb, List.singleton_append, mapM_eq_some_iff]
      exact .cons hc (mapM_eq_some_iff.1 hout)

/-- Stanzas with a free last field are read back, one for one, with their own fields as they are and no other but the free one,
exactly if each own value is kept and each free value stays in its field. -/
theorem parse_render_iff {written : List (Stanza × (String × String))} (h : ∀ w ∈ written, Keyed (w.1 ++ [w.2])) :
    (∃ stanzas, parse (render (written.map fun w => w.1 ++ [w.2])) = some stanzas ∧
        List.Forall₂ (fun w st => Reads w.1 w.2 st) written stanzas) ↔
      ∀ w ∈ written, (∀ f ∈ w.1, Kept f.2) ∧ Inside w.2.2 := by
  have hlined : Lined (written.map fun w => w.1 ++ [w.2]) := fun s hs => by
    obtain ⟨w, hw, rfl⟩ := List.mem_map.1 hs
    exact ⟨by simp, fun f hf => not_mem_of_validKey ((h w hw).valid f hf)⟩
  have hne : ∀ w ∈ written, paragraphs (stanzaLines (w.1 ++ [w.2])) ≠ [] := fun w hw => by
    obtain ⟨l, rest, hlines, hl⟩ := stanzaLines_head (h w hw)
    rw [hlines]
    exact paragraphs_ne_nil rest hl
  rw [parse, paragraphs_render hlined, List.flatMap_map, mapM_flatMap_iff hne]
  exact forall₂_congr fun w hw => reads_iff (h w hw)

end Lib.Deb822
