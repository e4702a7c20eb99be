/-
The two label filters, of the context search and of `list_issues` of `routes/repos.py`, over the JSON text that
`_upsert_issues` stores: both look for a quoted label in it.
-/
import OpenFish.Context.Keyword

namespace OpenFish.Context

open Lib Lib.Like

/-! ## The stored text -/

/-- How `json.dumps` writes a character of a string, not in ASCII. -/
def escapeJson (c : Char) : List Char :=
  if c = '"' then ['\\', '"']
  else if c = '\\' then ['\\', '\\']
  else if c = '\n' then ['\\', 'n']
  else if c = '\r' then ['\\', 'r']
  else if c = '\t' then ['\\', 't']
  else if c = '\x0c' then ['\\', 'f']
  else if c = '\x08' then ['\\', 'b']
  else if c.toNat < 0x20 then ['\\', 'u', '0', '0', (c.toNat / 16).digitChar, (c.toNat % 16).digitChar]
  else [c]

/-- What `json.dumps` writes between the quotes. -/
def written (label : String) : List Char := label.toList.flatMap escapeJson

/-- `json.dumps(label, ensure_ascii=False)`. -/
def jsonString (label : String) : String :=
  String.ofList ('"' :: (written label ++ ['"']))

/-- The column that `_upsert_issues` writes. -/
def dumpLabels (labels : List String) : String := "[" ++ String.intercalate ", " (labels.map jsonString) ++ "]"

section filters

variable (py : Casing) (db : Dialect)

/-- `column.ilike(pattern)`. -/
def ilike (column : Option String) (pattern : String) : Bool :=
  column.any fun text => like db.same db.escape (db.lower pattern) (db.lower text)

/-- The label filter of `list_issues`. -/
def listsLabel (column : Option String) (query : Option String) : Bool :=
  let label := Text.strip (query.getD "")
  if label = "" then true else ilike db column ("%" ++ jsonString label ++ "%")

/-! ## What the claim is about -/

/-- A label of the list is the queried one up to ASCII letter case. -/
def HasLabel (labels : List String) (query : String) : Prop :=
  ∃ label ∈ labels, Dialect.sqlite.lower label = Dialect.sqlite.lower query

/-- Both filters select the issues that have the label. -/
structure FiltersExact (labels : List String) (query : String) : Prop where
  context : containsLabel py db (some (dumpLabels labels)) query = true ↔ HasLabel labels query
  listing : listsLabel db (some (dumpLabels labels)) (some query) = true ↔ HasLabel labels query

/-- A label without a quote. -/
def Unquoted (label : String) : Prop := '"' ∉ label.toList

/-- A label that JSON writes as it is. -/
def Tame (label : String) : Prop := ∀ c ∈ label.toList, c ≠ '"' ∧ c ≠ '\\' ∧ 0x20 ≤ c.toNat

/-- A tame label without white space around it and without wildcards, which Python and the database map alike to lower
case, and whose characters no others are mapped to than their ASCII capitals. -/
structure PlainLabel (label : String) : Prop where
  tame : Tame label
  strip : Text.strip label = label
  wild : ∀ c ∈ label.toList, c ≠ '%' ∧ c ≠ '_'
  lower : py.lower label = db.lower label
  apart : ∀ c ∈ label.toList, ∀ d, db.fold d = db.fold c → d.toLower = c.toLower

end filters

variable {py : Casing} {db : Dialect}

/-! ## The text in lower case -/

theorem fold_self (db : Dialect) {c : Char} (h : caseless c = true) : db.fold c = c := (db.fold_caseless c c h).2 rfl

theorem fold_eq_iff (db : Dialect) {c d : Char} (h : caseless d = true) : db.fold c = d ↔ c = d := db.fold_caseless c d h

theorem caseless_of_control {c : Char} (h : c.toNat < 0x20) : caseless c = true := by
  have hlower : c.isLower = false := by
    rw [← Bool.not_eq_true, isLower_iff]
    omega
  have hupper : c.isUpper = false := by
    rw [← Bool.not_eq_true, isUpper_iff]
    omega
  rw [caseless, isAlpha_eq, hlower, hupper, decide_eq_true (show c.toNat < 128 by omega)]
  rfl

theorem mem_map_fold (db : Dialect) {c : Char} (h : caseless c = true) {l : List Char} : c ∈ l.map db.fold ↔ c ∈ l := by
  rw [List.mem_map]
  constructor
  · rintro ⟨d, hd, heq⟩
    rwa [← (fold_eq_iff db h).1 heq]
  · intro hmem
    exact ⟨c, hmem, fold_self db h⟩

def quoted (label : List Char) : List Char := '"' :: (label ++ ['"'])

/-- What stands behind the first label. -/
def more (labels : List (List Char)) : List Char := labels.flatMap fun label => ',' :: ' ' :: quoted label

theorem intercalate_quoted (label : List Char) (labels : List (List Char)) :
    List.intercalate [',', ' '] ((label :: labels).map quoted) = quoted label ++ more labels := by
  induction labels generalizing label with
  | nil => simp [more]
  | cons next labels ih =>
    rw [List.map_cons, List.map_cons, List.intercalate_cons_cons, ← List.map_cons, ih]
    simp [more]

/-- The labels of a text are what stands between its quotes, and so are the separators. -/
theorem splitOn_more {labels : List (List Char)} (h : ∀ label ∈ labels, '"' ∉ label) :
    (more labels ++ [']']).splitOn '"' = labels.flatMap (fun label => [[',', ' '], label]) ++ [[']']] := by
  induction labels with
  | nil => decide
  | cons label labels ih =>
    have htext : more (label :: labels) ++ [']'] = [',', ' '] ++ '"' :: (label ++ '"' :: (more labels ++ [']'])) := by
      simp [more, quoted]
    rw [htext, List.splitOn_append_cons_self_of_not_mem (by decide),
      List.splitOn_append_cons_self_of_not_mem (h label (List.mem_cons_self ..)),
      ih fun l hl => h l (List.mem_cons_of_mem _ hl)]
    rfl

/-- The text of a list of labels that have no quote. -/
def labelText (labels : List (List Char)) : List Char :=
  '[' :: (List.intercalate [',', ' '] (labels.map quoted) ++ [']'])

theorem inner_labelText {labels : List (List Char)} (h : ∀ label ∈ labels, '"' ∉ label) {word : List Char} :
    word ∈ ((labelText labels).splitOn '"').tail.dropLast ↔
      word ∈ labels ∨ word = [',', ' '] ∧ 2 ≤ labels.length := by
  cases labels with
  | nil => simp [labelText, List.splitOn_eq_singleton]
  | cons label labels =>
    have htext : labelText (label :: labels) = ['['] ++ '"' :: (label ++ '"' :: (more labels ++ [']'])) := by
      rw [labelText, intercalate_quoted]
      simp [quoted]
    rw [htext, List.splitOn_append_cons_self_of_not_mem (by decide),
      List.splitOn_append_cons_self_of_not_mem (h label (List.mem_cons_self ..)),
      splitOn_more fun l hl => h l (List.mem_cons_of_mem _ hl), List.tail_cons, ← List.cons_append, List.dropLast_concat,
      List.mem_cons, List.mem_flatMap, List.mem_cons, List.length_cons]
    cases labels with
    | nil => simp
    | cons next labels =>
      simp only [List.mem_cons, List.not_mem_nil, or_false, List.length_cons]
      constructor
      · rintro (rfl | ⟨l, hl, rfl | rfl⟩)
        · exact .inl (.inl rfl)
        · exact .inr ⟨rfl, by omega⟩
        · exact .inl (.inr hl)
      · rintro ((rfl | hl) | ⟨rfl, -⟩)
        · exact .inl rfl
        · exact .inr ⟨word, hl, .inr rfl⟩
        · exact .inr ⟨next, .inl rfl, .inl rfl⟩

theorem escapeJson_of_tame {c : Char} (h : c ≠ '"' ∧ c ≠ '\\' ∧ 0x20 ≤ c.toNat) : escapeJson c = [c] := by
  obtain ⟨hquote, hback, hcontrol⟩ := h
  have hne {d : Char} (hd : d.toNat < 0x20) : c ≠ d := by
    rintro rfl
    omega
  rw [escapeJson, if_neg hquote, if_neg hback, if_neg (hne (by decide)), if_neg (hne (by decide)), if_neg (hne (by decide)),
    if_neg (hne (by decide)), if_neg (hne (by decide)), if_neg (by omega)]

/-- JSON writes as many quotes as there are, and a backslash more for what is not tame. -/
theorem count_escapeJson (c : Char) :
    (escapeJson c).count '"' = [c].count '"' ∧
      [c].count '\\' + (if c ≠ '"' ∧ c ≠ '\\' ∧ 0x20 ≤ c.toNat then 0 else 1) = (escapeJson c).count '\\' := by
  have hdigit : ∀ n < 16, n.digitChar ≠ '"' ∧ n.digitChar ≠ '\\' := by decide
  by_cases htame : c ≠ '"' ∧ c ≠ '\\' ∧ 0x20 ≤ c.toNat
  · rw [escapeJson_of_tame htame, if_pos htame]
    exact ⟨rfl, rfl⟩
  · rw [if_neg htame]
    unfold escapeJson
    split_ifs with h1 h2 h3 h4 h5 h6 h7 h8
    · subst h1; decide
    · subst h2; decide
    · subst h3; decide
    · subst h4; decide
    · subst h5; decide
    · subst h6; decide
    · subst h7; decide
    · have hhigh := hdigit (c.toNat / 16) (by omega)
      have hlow := hdigit (c.toNat % 16) (Nat.mod_lt _ (by decide))
      simp [hhigh, hlow, h1, h2]
    · exact absurd ⟨h1, h2, by omega⟩ htame

theorem count_flatMap_escapeJson (l : List Char) :
    (l.flatMap escapeJson).count '"' = l.count '"' ∧ l.count '\\' ≤ (l.flatMap escapeJson).count '\\' ∧
      ((∃ c ∈ l, ¬ (c ≠ '"' ∧ c ≠ '\\' ∧ 0x20 ≤ c.toNat)) → l.count '\\' < (l.flatMap escapeJson).count '\\') := by
  induction l with
  | nil => simp
  | cons c l ih =>
    obtain ⟨hquote, hle, hlt⟩ := ih
    obtain ⟨hquote', hback⟩ := count_escapeJson c
    have hcons (d : Char) : (c :: l).count d = [c].count d + l.count d := by
      rw [← List.singleton_append, List.count_append]
    rw [List.flatMap_cons, List.count_append, List.count_append, hcons, hcons, hquote, hquote', ← hback]
    refine ⟨rfl, by omega, fun hex => ?_⟩
    by_cases htame : c ≠ '"' ∧ c ≠ '\\' ∧ 0x20 ≤ c.toNat
    · obtain ⟨d, hd, hbad⟩ := hex
      have hd' : d ∈ l := by
        rcases List.mem_cons.1 hd with rfl | hd
        · exact absurd htame hbad
        · exact hd
      have := hlt ⟨d, hd', hbad⟩
      omega
    · rw [if_neg htame]
      omega

theorem written_of_tame {label : String} (h : Tame label) : written label = label.toList := by
  rw [written, List.flatMap_congr fun c hc => escapeJson_of_tame (h c hc), List.flatMap_singleton']

/-- Between the quotes of a label without a quote there is none. -/
theorem Unquoted.not_mem_written {label : String} (h : Unquoted label) : '"' ∉ written label := by
  rw [← List.count_eq_zero, written, (count_flatMap_escapeJson label.toList).1, List.count_eq_zero]
  exact h

/-- What is not tame is written with a backslash. -/
theorem backslash_mem_written {label : String} (h : ¬ Tame label) : '\\' ∈ written label := by
  have hbad : ∃ c ∈ label.toList, ¬ (c ≠ '"' ∧ c ≠ '\\' ∧ 0x20 ≤ c.toNat) := by
    by_contra hall
    exact h fun c hc => not_not.1 fun hbad => hall ⟨c, hc, hbad⟩
  have hmore := (count_flatMap_escapeJson label.toList).2.2 hbad
  rw [← List.count_pos_iff, written]
  omega

theorem jsonString_toList (label : String) : (jsonString label).toList = quoted (written label) := String.toList_ofList

theorem dumpLabels_toList (labels : List String) :
    (dumpLabels labels).toList =
      '[' :: (List.intercalate [',', ' '] (labels.map fun label => (jsonString label).toList) ++ [']']) := by
  rw [dumpLabels, String.toList_append, String.toList_append, String.toList_intercalate, List.map_map]
  rfl

theorem map_intercalate (f : Char → Char) (sep : List Char) (parts : List (List Char)) :
    (List.intercalate sep parts).map f = List.intercalate (sep.map f) (parts.map (·.map f)) := by
  induction parts with
  | nil => rfl
  | cons part parts ih =>
    cases parts with
    | nil => simp
    | cons next parts =>
      rw [List.intercalate_cons_cons, List.map_append, List.map_append, ih, List.map_cons, List.map_cons, List.map_cons,
        List.intercalate_cons_cons]

/-- The stored text in lower case. -/
theorem lower_dumpLabels (labels : List String) :
    (db.lower (dumpLabels labels)).toList = labelText (labels.map fun label => (written label).map db.fold) := by
  have hself {c : Char} (hc : caseless c = true) : db.fold c = c := fold_self db hc
  have hquoted : (labels.map fun label => (jsonString label).toList).map (·.map db.fold) =
      (labels.map fun label => (written label).map db.fold).map quoted := by
    rw [List.map_map, List.map_map]
    refine List.map_congr_left fun label _ => ?_
    simp only [Function.comp, jsonString_toList, quoted, List.map_cons, List.map_append, List.map_nil]
    rw [hself (by decide)]
  rw [lower_toList_db, dumpLabels_toList, List.map_cons, List.map_append, map_intercalate, hquoted, labelText]
  simp only [List.map_cons, List.map_nil]
  rw [hself (by decide), hself (by decide), hself (by decide), hself (by decide)]

/-! ## The filters -/

theorem strip_subset (s : String) : (Text.strip s).toList ⊆ s.toList := by
  rw [Text.strip, String.toList_ofList]
  intro c hc
  exact (List.dropWhile_suffix _).subset ((List.rdropWhile_prefix _ _).subset hc)

/-- The context filter looks for the quoted label in lower case. -/
theorem containsLabel_iff (hagrees : Agrees py db) {text label : String} :
    containsLabel py db (some text) label = true ↔
      quoted (py.lower (Text.strip label)).toList <:+: (db.lower text).toList := by
  set word := quoted (py.lower (Text.strip label)).toList with hword
  have hpattern : "%\"" ++ escapeLike (py.lower (Text.strip label)) ++ "\"%" =
      String.ofList ('%' :: (escaped word ++ ['%'])) := by
    rw [← String.toList_inj, String.toList_append, String.toList_append, escapeLike_toList, String.toList_ofList, hword]
    simp [escaped, quoted]
  have hfixed : ∀ c ∈ word, db.fold c = c := by
    intro c hc
    rw [hword, quoted, List.mem_cons, List.mem_append, List.mem_singleton] at hc
    rcases hc with rfl | hc | rfl
    · exact fold_self db (by decide)
    · exact hagrees _ c hc
    · exact fold_self db (by decide)
  rw [containsLabel, hpattern, like_escaped]
  exact found_iff hfixed

/-- What a quoted word stands for in the text of labels without quotes. -/
theorem quoted_infix_iff {labels : List String} (h : ∀ label ∈ labels, Unquoted label) {word : List Char}
    (hword : '"' ∉ word) :
    quoted word <:+: (db.lower (dumpLabels labels)).toList ↔
      word ∈ labels.map (fun label => (written label).map db.fold) ∨ word = [',', ' '] ∧ 2 ≤ labels.length := by
  rw [lower_dumpLabels, quoted, Text.between_infix_iff hword, inner_labelText, List.length_map]
  intro label hlabel
  obtain ⟨text, htext, rfl⟩ := List.mem_map.1 hlabel
  rw [mem_map_fold db (by decide)]
  exact (h text htext).not_mem_written

/-- The pattern of `list_issues` as it is read. -/
theorem listing_tokens {label : String} (h : Tame label) :
    tokens db.escape (db.lower ("%" ++ jsonString label ++ "%")).toList =
      some (.any :: ((quoted (label.toList.map db.fold)).map token ++ [.any])) := by
  have htext : (db.lower ("%" ++ jsonString label ++ "%")).toList =
      '%' :: (quoted (label.toList.map db.fold) ++ ['%']) := by
    rw [lower_toList_db, String.toList_append, String.toList_append, jsonString_toList, written_of_tame h, quoted]
    simp [quoted, fold_self db (show caseless '%' = true by decide), fold_self db (show caseless '"' = true by decide)]
  rw [htext, tokens_of_not_mem, List.map_cons, List.map_append]
  · rfl
  · intro c hc hesc
    rw [db.escape_eq c hesc.symm] at hc
    simp only [quoted, List.mem_cons, List.mem_append, List.not_mem_nil, or_false] at hc
    rcases hc with hc | (hc | hc | hc) | hc
    · exact absurd hc (by decide)
    · exact absurd hc (by decide)
    · rw [mem_map_fold db (by decide)] at hc
      exact (h _ hc).2.1 rfl
    · exact absurd hc (by decide)
    · exact absurd hc (by decide)

theorem listsLabel_iff {text label : String} (h : Tame (Text.strip label)) (hne : Text.strip label ≠ "") :
    listsLabel db (some text) (some label) = true ↔
      run db.same (.any :: ((quoted ((Text.strip label).toList.map db.fold)).map token ++ [.any]))
        (db.lower text).toList = true := by
  rw [listsLabel]
  dsimp only [Option.getD_some]
  rw [if_neg hne, ilike, Option.any_some, like, listing_tokens h]

/-- Without wildcards, `list_issues` looks for the quoted label too. -/
theorem listsLabel_plain {text label : String} (h : Tame (Text.strip label)) (hne : Text.strip label ≠ "")
    (hwild : ∀ c ∈ (Text.strip label).toList, c ≠ '%' ∧ c ≠ '_') :
    listsLabel db (some text) (some label) = true ↔
      quoted ((Text.strip label).toList.map db.fold) <:+: (db.lower text).toList := by
  set word := quoted ((Text.strip label).toList.map db.fold) with hword
  have hnone : ∀ c ∈ word, c ≠ '%' ∧ c ≠ '_' := by
    intro c hc
    rw [hword, quoted, List.mem_cons, List.mem_append, List.mem_singleton] at hc
    rcases hc with rfl | hc | rfl
    · decide
    · constructor
      · rintro rfl
        exact (hwild _ ((mem_map_fold db (by decide)).1 hc)).1 rfl
      · rintro rfl
        exact (hwild _ ((mem_map_fold db (by decide)).1 hc)).2 rfl
    · decide
  have hlits : word.map token = word.map .lit := List.map_congr_left fun c hc => token_of_ne (hnone c hc)
  have hfixed : ∀ c ∈ word, db.fold c = c := by
    intro c hc
    rw [hword, quoted, List.mem_cons, List.mem_append, List.mem_singleton] at hc
    rcases hc with rfl | hc | rfl
    · exact fold_self db (by decide)
    · obtain ⟨d, -, rfl⟩ := List.mem_map.1 hc
      exact db.fold_fold d
    · exact fold_self db (by decide)
  rw [listsLabel_iff h hne, ← hword, hlits, run_contains]
  exact found_iff hfixed

/-! ## Plain labels -/

theorem map_fold_toLower (db : Dialect) (l : List Char) : (l.map Char.toLower).map db.fold = l.map db.fold := by
  rw [List.map_map]
  exact List.map_congr_left fun c _ => db.fold_toLower c

/-- To a plain label no other is equal in lower case than up to ASCII letter case. -/
theorem map_fold_eq_iff {query : List Char} (h : ∀ c ∈ query, ∀ d, db.fold d = db.fold c → d.toLower = c.toLower)
    (label : List Char) : label.map db.fold = query.map db.fold ↔ label.map Char.toLower = query.map Char.toLower := by
  constructor
  · intro heq
    induction query generalizing label with
    | nil => simpa using heq
    | cons c query ih =>
      cases label with
      | nil => cases heq
      | cons d label =>
        obtain ⟨hhead, htail⟩ := List.cons.inj heq
        rw [List.map_cons, List.map_cons, h c (List.mem_cons_self ..) d hhead,
          ih (fun e he => h e (List.mem_cons_of_mem _ he)) label htail]
  · intro heq
    rw [← map_fold_toLower, heq, map_fold_toLower]

theorem hasLabel_iff {labels : List String} {query : String} :
    HasLabel labels query ↔ ∃ label ∈ labels, label.toList.map Char.toLower = query.toList.map Char.toLower := by
  refine exists_congr fun label => and_congr_right fun _ => ?_
  rw [← String.toList_inj, lower_toList_db, lower_toList_db]
  rfl

/-- A label that is a tame one up to letter case is tame. -/
theorem Tame.of_toLower {label query : String} (h : Tame query)
    (heq : label.toList.map Char.toLower = query.toList.map Char.toLower) : Tame label := by
  have hmem {c : Char} (hc : caseless c = true) (hlabel : c ∈ label.toList) : c ∈ query.toList := by
    have hmap := (mem_map_fold .sqlite hc).2 hlabel
    rw [show label.toList.map Dialect.sqlite.fold = query.toList.map Dialect.sqlite.fold from heq] at hmap
    exact (mem_map_fold .sqlite hc).1 hmap
  intro c hc
  refine ⟨?_, ?_, ?_⟩
  · rintro rfl
    exact (h _ (hmem (by decide) hc)).1 rfl
  · rintro rfl
    exact (h _ (hmem (by decide) hc)).2.1 rfl
  · by_contra hcontrol
    exact hcontrol (h c (hmem (caseless_of_control (by omega)) hc)).2.2

/-- What is written for a label is a plain one in lower case exactly if the label is, since no backslash is in it. -/
theorem PlainLabel.written_iff {query : String} (h : PlainLabel py db query) (label : String) :
    (written label).map db.fold = query.toList.map db.fold ↔
      label.toList.map Char.toLower = query.toList.map Char.toLower := by
  by_cases htame : Tame label
  · rw [written_of_tame htame]
    exact map_fold_eq_iff h.apart _
  · refine iff_of_false (fun heq => ?_) fun heq => htame (h.tame.of_toLower heq)
    have hmem := (mem_map_fold db (by decide)).2 (backslash_mem_written htame)
    rw [heq, mem_map_fold db (by decide)] at hmem
    exact (h.tame _ hmem).2.1 rfl

theorem PlainLabel.exact (hagrees : Agrees py db) {query : String} (h : PlainLabel py db query) (hne : query ≠ "")
    {labels : List String} (hlabels : ∀ label ∈ labels, Unquoted label) : FiltersExact py db labels query := by
  have hquote : '"' ∉ query.toList.map db.fold := by
    rw [mem_map_fold db (by decide)]
    exact fun hmem => (h.tame _ hmem).1 rfl
  have hlower : (py.lower query).toList = query.toList.map db.fold := by rw [h.lower, lower_toList_db]
  have hfound : quoted (query.toList.map db.fold) <:+: (db.lower (dumpLabels labels)).toList ↔ HasLabel labels query := by
    rw [quoted_infix_iff hlabels hquote, hasLabel_iff, List.mem_map]
    have hseparator : query.toList.map db.fold ≠ [',', ' '] := by
      intro heq
      obtain ⟨c, rest, hquery, hc, hrest⟩ := List.map_eq_cons_iff.1 heq
      obtain ⟨d, last, rfl, hd, hlast⟩ := List.map_eq_cons_iff.1 hrest
      rw [(fold_eq_iff db (by decide)).1 hc, (fold_eq_iff db (by decide)).1 hd, List.map_eq_nil_iff.1 hlast] at hquery
      have hcomma : query = ", " := by
        rw [← String.toList_inj, hquery]
        rfl
      have hstrip := h.strip
      rw [hcomma] at hstrip
      exact absurd hstrip (by decide)
    constructor
    · rintro (⟨label, hlabel, heq⟩ | ⟨heq, -⟩)
      · exact ⟨label, hlabel, (h.written_iff _).1 heq⟩
      · exact absurd heq hseparator
    · rintro ⟨label, hlabel, heq⟩
      exact .inl ⟨label, hlabel, (h.written_iff _).2 heq⟩
  constructor
  · rw [containsLabel_iff hagrees, h.strip, hlower, hfound]
  · rw [listsLabel_plain (by rw [h.strip]; exact h.tame) (by rwa [h.strip]) (by rw [h.strip]; exact h.wild), h.strip, hfound]

/-! ## Other labels -/

theorem count_map_fold (db : Dialect) {c : Char} (h : caseless c = true) (l : List Char) :
    (l.map db.fold).count c = l.count c := by
  rw [List.count, List.countP_map]
  refine List.countP_congr fun d _ => ?_
  simp only [Function.comp, beq_iff_eq]
  exact fold_eq_iff db h

/-- What stands before the first quote and behind it. -/
theorem append_quote_inj {a a' b b' : List Char} (ha : '"' ∉ a) (ha' : '"' ∉ a') (h : a ++ '"' :: b = a' ++ '"' :: b') :
    a = a' ∧ b = b' := by
  have hsplit := congrArg (List.splitOn '"') h
  rw [List.splitOn_append_cons_self_of_not_mem ha, List.splitOn_append_cons_self_of_not_mem ha'] at hsplit
  obtain ⟨hhead, htail⟩ := List.cons.inj hsplit
  refine ⟨hhead, ?_⟩
  calc b = List.intercalate ['"'] (b.splitOn '"') := (List.intercalate_splitOn '"').symm
    _ = List.intercalate ['"'] (b'.splitOn '"') := by rw [htail]
    _ = b' := List.intercalate_splitOn '"'

/-- The context filter misses a label that JSON writes otherwise: the text has as many quotes as the pattern, so the
pattern would be the whole label, but the label is written with more backslashes. -/
theorem containsLabel_of_not_tame (hagrees : Agrees py db) {label : String} (h : ¬ Tame label) :
    containsLabel py db (some (dumpLabels [label])) label = false := by
  rw [← Bool.not_eq_true, containsLabel_iff hagrees]
  rintro ⟨head, tail, heq⟩
  set stored := (written label).map db.fold with hstored
  set word := (py.lower (Text.strip label)).toList with hword
  have htext : (db.lower (dumpLabels [label])).toList = ['['] ++ '"' :: (stored ++ '"' :: [']']) := by
    rw [lower_toList_db, dumpLabels_toList]
    simp [jsonString, hstored, fold_self db (show caseless '[' = true by decide),
      fold_self db (show caseless '"' = true by decide), fold_self db (show caseless ']' = true by decide)]
  have hsplit : head ++ '"' :: (word ++ '"' :: tail) = ['['] ++ '"' :: (stored ++ '"' :: [']']) := by
    rw [← htext, ← heq, quoted]
    simp
  obtain ⟨hquotes, -, hback⟩ := count_flatMap_escapeJson label.toList
  rw [← written] at hquotes hback
  have hcount (c : Char) (hc : caseless c = true) (hspace : Text.isSpace c = false) :
      word.count c = label.toList.count c := by
    rw [hword, py.count_lower _ _ hc, Text.count_strip hspace]
  have hnone : head.count '"' = 0 ∧ tail.count '"' = 0 := by
    have htotal := congrArg (List.count '"') hsplit
    simp only [List.count_append, List.count_cons_self, List.count_singleton] at htotal
    rw [hcount '"' (by decide) (by decide), hstored, count_map_fold db (by decide), hquotes] at htotal
    simp at htotal
    omega
  obtain ⟨-, hrest⟩ := append_quote_inj (List.count_eq_zero.1 hnone.1) (by decide) hsplit
  have hwhole : word = stored := by
    have hreverse := congrArg List.reverse hrest
    rw [List.reverse_append, List.reverse_append, List.reverse_cons, List.reverse_cons, List.append_assoc,
      List.append_assoc] at hreverse
    have htail : '"' ∉ tail.reverse := fun hm => List.count_eq_zero.1 hnone.2 (List.mem_reverse.1 hm)
    have hquote : '"' ∉ [']'].reverse := by decide
    exact List.reverse_injective (append_quote_inj htail hquote hreverse).2
  have hbad : ∃ c ∈ label.toList, ¬ (c ≠ '"' ∧ c ≠ '\\' ∧ 0x20 ≤ c.toNat) := by
    by_contra hall
    exact h fun c hc => not_not.1 fun hbad => hall ⟨c, hc, hbad⟩
  have hmore := hback hbad
  have hsame := hcount '\\' (by decide) (by decide)
  rw [hwhole, hstored, count_map_fold db (by decide)] at hsame
  omega

theorem Tame.unquoted {label : String} (h : Tame label) : Unquoted label := fun hmem => (h _ hmem).1 rfl

theorem Tame.of_subset {label other : String} (h : Tame label) (hsub : other.toList ⊆ label.toList) : Tame other :=
  fun c hc => h c (hsub hc)

theorem hasLabel_self (query : String) : HasLabel [query] query := ⟨query, List.mem_singleton_self _, rfl⟩

theorem hasLabel_singleton {label query : String} :
    HasLabel [label] query ↔ label.toList.map Char.toLower = query.toList.map Char.toLower := by
  rw [hasLabel_iff]
  simp

theorem strip_sublist (s : String) : (Text.strip s).toList.Sublist s.toList := by
  rw [Text.strip, String.toList_ofList]
  exact (List.rdropWhile_prefix _ _).sublist.trans (List.dropWhile_suffix _).sublist

/-- The one label of a list is the text that the filters look into. -/
theorem lower_dumpLabels_singleton {label : String} (h : Tame label) :
    (db.lower (dumpLabels [label])).toList = ['['] ++ (quoted (label.toList.map db.fold) ++ [']']) := by
  rw [lower_dumpLabels, List.map_singleton, written_of_tame h]
  simp [labelText]

/-- A wildcard of the query stands for other characters of a label in `list_issues`. -/
theorem listing_wild {query : String} (h : Tame query) {c : Char} (hmem : c ∈ query.toList) (hc : c = '%' ∨ c = '_') :
    ∃ label, Tame label ∧ ¬ HasLabel [label] query ∧ listsLabel db (some (dumpLabels [label])) (some query) = true := by
  have hspace : Text.isSpace c = false := by rcases hc with rfl | rfl <;> decide
  have hstrip : c ∈ (Text.strip query).toList := by
    rwa [← List.count_pos_iff, Text.count_strip hspace, List.count_pos_iff]
  obtain ⟨a, b, hab⟩ := List.append_of_mem hstrip
  have hsub := strip_sublist query
  have hstripTame := h.of_subset (strip_subset query)
  have hne : Text.strip query ≠ "" := by
    intro hempty
    rw [hempty] at hstrip
    exact absurd hstrip (by simp)
  have hfound {label : String} (hlabel : Tame label)
      (hrun : run db.same ((quoted ((Text.strip query).toList.map db.fold)).map token)
        (quoted (label.toList.map db.fold)) = true) :
      listsLabel db (some (dumpLabels [label])) (some query) = true := by
    rw [listsLabel_iff hstripTame hne, lower_dumpLabels_singleton hlabel]
    exact run_any.2 ⟨['['], _, rfl, run_append hrun rfl⟩
  have hquery : quoted ((Text.strip query).toList.map db.fold) =
      ('"' :: a.map db.fold) ++ db.fold c :: (b.map db.fold ++ ['"']) := by
    rw [hab, quoted, List.map_append, List.map_cons]
    simp
  have htame (x : Char) (hx : x ∈ a ∨ x ∈ b) : x ≠ '"' ∧ x ≠ '\\' ∧ 0x20 ≤ x.toNat := by
    refine hstripTame x ?_
    rw [hab, List.mem_append, List.mem_cons]
    exact hx.imp_right .inr
  rcases hc with rfl | rfl
  · have hlabelTame : Tame (String.ofList (a ++ b)) := by
      intro x hx
      rw [String.toList_ofList, List.mem_append] at hx
      exact htame x hx
    refine ⟨_, hlabelTame, fun hlabel => ?_, hfound hlabelTame ?_⟩
    · have hlen := congrArg List.length (hasLabel_singleton.1 hlabel)
      have hle := hsub.length_le
      rw [List.length_map, List.length_map, String.toList_ofList] at hlen
      rw [hab] at hle
      simp at hlen hle
      omega
    · have hlabel : quoted ((String.ofList (a ++ b)).toList.map db.fold) =
          ('"' :: a.map db.fold) ++ (b.map db.fold ++ ['"']) := by
        rw [String.toList_ofList, quoted, List.map_append]
        simp
      rw [hquery, hlabel, fold_self db (by decide)]
      exact run_token_any db.same_self _ _
  · have hlabelTame : Tame (String.ofList (a ++ 'x' :: b)) := by
      intro x hx
      rw [String.toList_ofList, List.mem_append, List.mem_cons] at hx
      rcases hx with hx | rfl | hx
      · exact htame x (.inl hx)
      · decide
      · exact htame x (.inr hx)
    refine ⟨_, hlabelTame, fun hlabel => ?_, hfound hlabelTame ?_⟩
    · have heq := hasLabel_singleton.1 hlabel
      have hle := hsub.length_le
      have hlen := congrArg List.length heq
      rw [List.length_map, List.length_map, String.toList_ofList] at hlen
      rw [hab] at hle
      simp only [List.length_append, List.length_cons] at hlen hle
      -- nothing is stripped, so the labels differ where the wildcard stands
      have hwhole := hsub.eq_of_length (by rw [hab, List.length_append, List.length_cons]; omega)
      rw [← hwhole, hab, String.toList_ofList, List.map_append, List.map_append] at heq
      have hrest := List.append_cancel_left heq
      exact absurd (List.cons.inj hrest).1 (by decide)
    · have hlabel : quoted ((String.ofList (a ++ 'x' :: b)).toList.map db.fold) =
          ('"' :: a.map db.fold) ++ db.fold 'x' :: (b.map db.fold ++ ['"']) := by
        rw [String.toList_ofList, quoted, List.map_append, List.map_cons]
        simp
      rw [hquery, hlabel, fold_self db (show caseless '_' = true by decide)]
      exact run_token_one db.same_self _ _ _

/-- Without a wildcard, the single label of a list is found by `list_issues` only if nothing is stripped from the query. -/
theorem strip_of_listing {query : String} (h : Tame query) (hwild : ∀ c ∈ query.toList, c ≠ '%' ∧ c ≠ '_')
    (hself : listsLabel db (some (dumpLabels [query])) (some query) = true)
    (hnone : listsLabel db (some (dumpLabels [])) (some query) = true → HasLabel [] query) : Text.strip query = query := by
  have hne : Text.strip query ≠ "" := by
    intro hempty
    obtain ⟨label, hlabel, -⟩ := hnone (by rw [listsLabel]; dsimp only [Option.getD_some]; rw [if_pos hempty])
    cases hlabel
  have hstripTame := h.of_subset (strip_subset query)
  have hquote : '"' ∉ (Text.strip query).toList.map db.fold := by
    rw [mem_map_fold db (by decide)]
    exact fun hmem => (hstripTame _ hmem).1 rfl
  rw [listsLabel_plain hstripTame hne fun c hc => hwild c (strip_subset query hc),
    quoted_infix_iff (fun l hl => by rw [List.mem_singleton.1 hl]; exact h.unquoted) hquote, List.map_singleton,
    written_of_tame h] at hself
  rcases hself with hself | ⟨-, hlong⟩
  · have hlen := congrArg List.length (List.mem_singleton.1 hself)
    rw [List.length_map, List.length_map] at hlen
    exact String.toList_inj.1 ((strip_sublist query).eq_of_length hlen)
  · simp at hlong

/-- A character of a plain query that another one is mapped to can be that one in a label, so both are the same letter. -/
theorem apart_of_context (hagrees : Agrees py db) {query : String} (h : Tame query) (hstrip : Text.strip query = query)
    (hlower : py.lower query = db.lower query)
    (hexact : ∀ label, Tame label → containsLabel py db (some (dumpLabels [label])) query = true → HasLabel [label] query) :
    ∀ c ∈ query.toList, ∀ d, db.fold d = db.fold c → d.toLower = c.toLower := by
  intro c hc d hd
  obtain ⟨a, b, hab⟩ := List.append_of_mem hc
  have htame (x : Char) (hx : x ∈ a ∨ x ∈ b) : x ≠ '"' ∧ x ≠ '\\' ∧ 0x20 ≤ x.toNat := by
    refine h x ?_
    rw [hab, List.mem_append, List.mem_cons]
    exact hx.imp_right .inr
  have hcaseless {x : Char} (hx : caseless x = true) (hdx : d = x) : c = x := by
    rw [hdx, fold_self db hx] at hd
    exact (fold_eq_iff db hx).1 hd.symm
  have hdTame : d ≠ '"' ∧ d ≠ '\\' ∧ 0x20 ≤ d.toNat := by
    refine ⟨fun hq => (h c hc).1 (hcaseless (by decide) hq), fun hq => (h c hc).2.1 (hcaseless (by decide) hq), ?_⟩
    by_contra hcontrol
    have hsmall : caseless d = true := caseless_of_control (by omega)
    exact hcontrol (hcaseless hsmall rfl ▸ (h c hc).2.2)
  have hlabelTame : Tame (String.ofList (a ++ d :: b)) := by
    intro x hx
    rw [String.toList_ofList, List.mem_append, List.mem_cons] at hx
    rcases hx with hx | rfl | hx
    · exact htame x (.inl hx)
    · exact hdTame
    · exact htame x (.inr hx)
  have hfold : query.toList.map db.fold = (String.ofList (a ++ d :: b)).toList.map db.fold := by
    rw [hab, String.toList_ofList, List.map_append, List.map_append, List.map_cons, List.map_cons, hd]
  have hfound : containsLabel py db (some (dumpLabels [String.ofList (a ++ d :: b)])) query = true := by
    rw [containsLabel_iff hagrees, hstrip, hlower, lower_toList_db, hfold, lower_dumpLabels_singleton hlabelTame]
    exact ⟨['['], [']'], by simp⟩
  have heq := hasLabel_singleton.1 (hexact _ hlabelTame hfound)
  rw [hab, String.toList_ofList, List.map_append, List.map_append] at heq
  exact (List.cons.inj (List.append_cancel_left heq)).1

/-- For a query, both filters are exact over all lists of labels without quotes and of the query itself if and only if the
query is a plain label. -/
theorem filtersExact_iff (hagrees : Agrees py db) {query : String} (hne : query ≠ "") :
    (∀ labels, (∀ label ∈ labels, Unquoted label ∨ label = query) → FiltersExact py db labels query) ↔
      PlainLabel py db query := by
  constructor
  · intro hall
    have hself := hall [query] fun label hlabel => .inr (List.mem_singleton.1 hlabel)
    have hsingle {label : String} (hlabel : Tame label) : FiltersExact py db [label] query :=
      hall [label] fun l hl => .inl (by rw [List.mem_singleton.1 hl]; exact hlabel.unquoted)
    have htame : Tame query := by
      by_contra hnot
      have hfound := hself.context.2 (hasLabel_self query)
      rw [containsLabel_of_not_tame hagrees hnot] at hfound
      cases hfound
    have hwild : ∀ c ∈ query.toList, c ≠ '%' ∧ c ≠ '_' := by
      intro c hc
      by_contra hnot
      have hchar : c = '%' ∨ c = '_' := by
        by_contra hneither
        exact hnot (not_or.1 hneither)
      obtain ⟨label, hlabel, hmissing, hfound⟩ := listing_wild htame hc hchar
      exact hmissing ((hsingle hlabel).listing.1 hfound)
    have hstrip := strip_of_listing htame hwild (hself.listing.2 (hasLabel_self query))
      (hall [] fun label hlabel => absurd hlabel List.not_mem_nil).listing.1
    have hlower : py.lower query = db.lower query := by
      have hfound := hself.context.2 (hasLabel_self query)
      have hquote : '"' ∉ (py.lower query).toList := by
        rw [py.mem_lower _ _ (by decide)]
        exact fun hmem => (htame _ hmem).1 rfl
      rw [containsLabel_iff hagrees, hstrip,
        quoted_infix_iff (fun l hl => by rw [List.mem_singleton.1 hl]; exact htame.unquoted) hquote, List.map_singleton,
        written_of_tame htame] at hfound
      rcases hfound with hfound | ⟨-, hlong⟩
      · rw [← String.toList_inj, lower_toList_db]
        exact List.mem_singleton.1 hfound
      · simp at hlong
    exact ⟨htame, hstrip, hwild, hlower,
      apart_of_context hagrees htame hstrip hlower fun label hlabel => (hsingle hlabel).context.1⟩
  · intro hplain labels hlabels
    refine hplain.exact hagrees hne fun label hlabel => ?_
    rcases hlabels label hlabel with hunquoted | rfl
    · exact hunquoted
    · exact hplain.tame.unquoted

theorem filtersExact_bug :
    (∀ labels, (∀ label ∈ labels, Unquoted label ∨ label = "bug") → FiltersExact Casing.ascii .sqlite labels "bug") ↔
      PlainLabel Casing.ascii .sqlite "bug" :=
  filtersExact_iff (agrees_sqlite Casing.ascii) (by decide)

/-- `list_issues` takes the `_` of a label for any character, and the context search does not. -/
theorem underscore_not_exact :
    ¬ ∀ labels query, query ≠ "" → FiltersExact Casing.ascii .sqlite labels query := by
  intro hall
  have hlisted : listsLabel .sqlite (some (dumpLabels ["a-b"])) (some "a_b") = true := by decide +kernel
  obtain ⟨label, hlabel, heq⟩ := (hall ["a-b"] "a_b" (by decide)).listing.1 hlisted
  rw [List.mem_singleton.1 hlabel] at heq
  exact absurd heq (by decide +kernel)

end OpenFish.Context
