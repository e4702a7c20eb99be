/-
The names of a document (`services/docs.py`): what a title, an identifier and a file name are normalised to, and the
identifier that is derived from a title. What was normalised once is left as it is; a file name is so only if it does not
begin with white space.
-/
import Mathlib.Data.List.DropRight
import OpenFish.Lib.Lines
import OpenFish.Lib.Unicode

namespace OpenFish.Docs

open Lib

inductive Error
  /-- `ValueError`. -/
  | value (why : String)
  /-- `KeyError`. -/
  | key (name : String)
  /-- `FileNotFoundError`. -/
  | missing (name : String)
  /-- Any other `OSError`. -/
  | os (name : String)
  | revisionConflict (slug : String) (expected current : Int)
  deriving DecidableEq, Repr

def slugMax : Nat := 96
def titleMax : Nat := 160
def assetNameMax : Nat := 160

/-- What `str` knows of letters beyond ASCII. -/
structure Letters where
  lower : String → String
  isAlnum : Char → Bool
  isAlnum_ascii : ∀ c : Char, c.toNat < 128 → isAlnum c = c.isAlphanum
  not_isSpace : ∀ c, isAlnum c = true → Text.isSpace c = false

theorem range_of_isAlphanum {c : Char} (h : c.isAlphanum = true) : 48 ≤ c.toNat ∧ c.toNat ≤ 122 := by
  simp only [Char.isAlphanum, isAlpha_eq, Bool.or_eq_true, isUpper_iff, isLower_iff] at h
  rcases h with (h | h) | h
  · omega
  · omega
  · have := Text.range_of_isDigit h
    omega

/-- The letters of ASCII alone. -/
def Letters.ascii : Letters where
  lower := Text.lower
  isAlnum c := c.isAlphanum
  isAlnum_ascii _ _ := rfl
  not_isSpace c h := by
    have hrange := range_of_isAlphanum h
    rw [Text.isSpace, Bool.eq_false_iff, ne_eq, List.contains_iff_mem]
    simp only [List.mem_cons, List.not_mem_nil, or_false]
    omega

/-! ## Normalised names -/

def forbiddenChars : List Char := ['/', '\\', ':', '*', '?', '\x22', '<', '>', '|']

/-- `normalize_title`. -/
def normalizeTitle (title : String) : Except Error String :=
  let candidate := Text.strip title
  if candidate = "" then .error (.value "文档标题为空")
  else if titleMax < candidate.length then .error (.value s!"文档标题过长（最多 {titleMax} 个字符）")
  else if candidate.toList.any (·.toNat < 32) then .error (.value "文档标题不能包含控制字符")
  else .ok candidate

/-- What an identifier and a file name are both checked for. -/
def checkSegment (what : String) (most : Nat) (candidate : String) : Except Error String :=
  if candidate = "" then .error (.value (what ++ "为空"))
  else if most < candidate.length then .error (.value s!"{what}过长（最多 {most} 个字符）")
  else if Text.startsWith "." candidate then .error (.value (what ++ "不能以 '.' 开头"))
  else if candidate.toList.any fun c => c ∈ forbiddenChars ∨ c.toNat < 32 then
    .error (.value (what ++ "不能包含路径分隔符或控制字符"))
  else .ok candidate

/-- `normalize_doc_id`. -/
def normalizeDocId (value : String) : Except Error String := checkSegment "文档标识" slugMax (Text.strip value)

/-- `normalize_asset_name`. -/
def normalizeAssetName (name : String) : Except Error String :=
  match checkSegment "文件名" assetNameMax (Text.afterLast '/' (Text.replaceChar '\\' '/' (Text.strip name))) with
  | .error e => .error e
  | .ok candidate => if '.' ∈ candidate.toList then .ok candidate else .error (.value "文件名必须带扩展名")

/-! ## Derived names -/

/-- Every run of the characters that meet `p` becomes one dash; `inside` says that a run has begun. -/
def squeeze (p : Char → Bool) : Bool → List Char → List Char
  | _, [] => []
  | inside, c :: rest =>
    if p c then if inside then squeeze p true rest else '-' :: squeeze p true rest
    else c :: squeeze p false rest

def dashes : List Char := ['-', '.', '_']

/-- `text.strip("-._")`. -/
def trim (text : List Char) : List Char := (text.dropWhile (· ∈ dashes)).rdropWhile (· ∈ dashes)

/-- `slugify`. -/
def slugify (py : Letters) (title : String) : String :=
  let dashed := squeeze Text.isSpace false (py.lower (Text.strip title)).toList
  let plain := dashed.map fun c => if py.isAlnum c ∨ c ∈ dashes then c else '-'
  let text := trim (squeeze (· = '-') false plain)
  let text := if text = [] then "doc".toList else text
  let cut := trim (text.take slugMax)
  if cut = [] then "doc" else String.ofList cut

/-- `heading_in_text`. -/
def headingInText (text : String) : String :=
  let lines := ((Lines.splitlines text.toList).take 200).map fun line => Text.strip (String.ofList line)
  match lines.find? (Text.startsWith "# ") with
  | none => ""
  | some line => Text.strip (Text.rstrip '#' (Text.strip (String.ofList (line.toList.drop 2))))

/-! ## What a normalised name is -/

/-- The name begins with white space. -/
def beginsBlank (name : String) : Bool := name.toList.head?.any Text.isSpace

structure Segment (most : Nat) (s : String) : Prop where
  ne_empty : s ≠ ""
  length_le : s.length ≤ most
  noDot : Text.startsWith "." s = false
  chars : ∀ c ∈ s.toList, c ∉ forbiddenChars ∧ 32 ≤ c.toNat

theorem checkSegment_eq_ok {what : String} {most : Nat} {s s' : String} :
    checkSegment what most s = .ok s' ↔ s' = s ∧ Segment most s := by
  unfold checkSegment
  constructor
  · intro h
    split at h
    · cases h
    · split at h
      · cases h
      · split at h
        · cases h
        · split at h
          · cases h
          · rename_i hne hlen hdot hchars
            refine ⟨(Except.ok.inj h).symm, hne, Nat.le_of_not_lt hlen, Bool.eq_false_iff.2 hdot, fun c hc => ?_⟩
            simp only [List.any_eq_true, decide_eq_true_eq, not_exists, not_and, not_or, Nat.not_lt] at hchars
            exact hchars c hc
  · rintro ⟨rfl, hne, hlen, hdot, hchars⟩
    have hany : ¬ (s'.toList.any fun c => c ∈ forbiddenChars ∨ c.toNat < 32) = true := by
      simp only [List.any_eq_true, decide_eq_true_eq, not_exists, not_and, not_or, Nat.not_lt]
      exact hchars
    rw [if_neg hne, if_neg (Nat.not_lt.2 hlen), if_neg (Bool.eq_false_iff.1 hdot), if_neg hany]

theorem beginsBlank_strip (s : String) : beginsBlank (Text.strip s) = false := Text.head?_strip s

/-! ### Titles and identifiers -/

theorem strip_of_normalizeTitle {title title' : String} (h : normalizeTitle title = .ok title') :
    title' = Text.strip title ∧ title' ≠ "" := by
  unfold normalizeTitle at h
  dsimp only at h
  split at h
  · cases h
  · rename_i hne
    split at h
    · cases h
    · split at h
      · cases h
      · cases h
        exact ⟨rfl, hne⟩

theorem normalizeTitle_strip (title : String) : normalizeTitle (Text.strip title) = normalizeTitle title := by
  simp only [normalizeTitle, Text.strip_strip]

/-- A normalised title is left as it is. -/
theorem normalizeTitle_of_ok {title title' : String} (h : normalizeTitle title = .ok title') :
    normalizeTitle title' = .ok title' := by
  rw [(strip_of_normalizeTitle h).1, normalizeTitle_strip, h, (strip_of_normalizeTitle h).1]

/-- A normalised identifier is left as it is. -/
theorem normalizeDocId_of_ok {value slug : String} (h : normalizeDocId value = .ok slug) : normalizeDocId slug = .ok slug := by
  obtain ⟨rfl, hsegment⟩ := checkSegment_eq_ok.1 h
  exact checkSegment_eq_ok.2 ⟨(Text.strip_strip value).symm, by rwa [Text.strip_strip]⟩

/-! ### File names -/

/-- What an accepted file name is: a segment with an extension that does not end in white space. -/
structure AssetName (name : String) : Prop where
  segment : Segment assetNameMax name
  extension : '.' ∈ name.toList
  last : name.toList.getLast?.any Text.isSpace = false

theorem normalizeAssetName_eq_ok {name name' : String} : normalizeAssetName name = .ok name' ↔
    name' = Text.afterLast '/' (Text.replaceChar '\\' '/' (Text.strip name)) ∧ Segment assetNameMax name' ∧
      '.' ∈ name'.toList := by
  unfold normalizeAssetName
  generalize Text.afterLast '/' (Text.replaceChar '\\' '/' (Text.strip name)) = raw
  constructor
  · intro h
    cases hcheck : checkSegment "文件名" assetNameMax raw with
    | error e =>
      rw [hcheck] at h
      cases h
    | ok candidate =>
      rw [hcheck] at h
      obtain ⟨rfl, hsegment⟩ := checkSegment_eq_ok.1 hcheck
      by_cases hext : '.' ∈ candidate.toList
      · simp only [if_pos hext] at h
        cases h
        exact ⟨rfl, hsegment, hext⟩
      · simp only [if_neg hext] at h
        cases h
  · rintro ⟨heq, hsegment, hext⟩
    subst heq
    rw [checkSegment_eq_ok.2 ⟨rfl, hsegment⟩]
    exact if_pos hext

/-- Without a separator only the white space around a name goes. -/
theorem afterLast_replaceChar {s : String} (hslash : '/' ∉ s.toList) (hback : '\\' ∉ s.toList) :
    Text.afterLast '/' (Text.replaceChar '\\' '/' s) = s := by
  rw [Text.replaceChar_of_not_mem hback, Text.afterLast_of_not_mem hslash]

theorem Segment.not_mem {most : Nat} {s : String} (h : Segment most s) {c : Char} (hc : c ∈ forbiddenChars) :
    c ∉ s.toList := fun hmem => (h.chars c hmem).1 hc

theorem strip_subset (s : String) : (Text.strip s).toList ⊆ s.toList := by
  rw [Text.strip, String.toList_ofList]
  exact fun c hc => List.dropWhile_subset _ ((List.rdropWhile_prefix _ _).subset hc)

theorem Segment.afterLast_strip {most : Nat} {s : String} (h : Segment most s) :
    Text.afterLast '/' (Text.replaceChar '\\' '/' (Text.strip s)) = Text.strip s :=
  afterLast_replaceChar (fun hmem => h.not_mem (by decide) (strip_subset s hmem))
    fun hmem => h.not_mem (by decide) (strip_subset s hmem)

/-- The white space that ends a path also ends its last segment. -/
theorem getLast?_afterLast_replaceChar {s : String} (h : s.toList.getLast?.any Text.isSpace = false) :
    (Text.afterLast '/' (Text.replaceChar '\\' '/' s)).toList.getLast?.any Text.isSpace = false := by
  rw [Text.afterLast, Text.replaceChar, String.toList_ofList, String.toList_ofList]
  generalize s.toList = l at h
  rcases List.eq_nil_or_concat l with rfl | ⟨l, c, rfl⟩
  · rfl
  · rw [List.concat_eq_append, List.getLast?_concat] at h
    rw [List.concat_eq_append, List.map_append, List.map_singleton]
    by_cases hc : c = '\\' ∨ c = '/'
    · have hsep : (if c = '\\' then '/' else c) = '/' := by
        rcases hc with rfl | rfl
        · exact if_pos rfl
        · exact if_neg (by decide)
      rw [hsep, List.rtakeWhile_concat_neg _ _ _ (by simp)]
      rfl
    · obtain ⟨hback, hslash⟩ := not_or.1 hc
      rw [if_neg hback, List.rtakeWhile_concat_pos _ _ _ (by simpa using hslash), List.getLast?_concat]
      exact h

theorem assetName_of_ok {name name' : String} (h : normalizeAssetName name = .ok name') : AssetName name' := by
  obtain ⟨rfl, hsegment, hext⟩ := normalizeAssetName_eq_ok.1 h
  exact ⟨hsegment, hext, getLast?_afterLast_replaceChar (Text.getLast?_strip name)⟩

/-- An accepted name that does not begin with white space is left as it is. -/
theorem AssetName.normalized {name : String} (h : AssetName name) (hblank : beginsBlank name = false) :
    normalizeAssetName name = .ok name := by
  have hstrip : Text.strip name = name := Text.strip_of_ends hblank h.last
  refine normalizeAssetName_eq_ok.2 ⟨?_, h.segment, h.extension⟩
  rw [h.segment.afterLast_strip, hstrip]

/-- What is normalised twice does not begin with white space. -/
theorem AssetName.beginsBlank_of_ok {name name' : String} (h : AssetName name) (hok : normalizeAssetName name = .ok name') :
    beginsBlank name' = false := by
  obtain ⟨rfl, -, -⟩ := normalizeAssetName_eq_ok.1 hok
  rw [h.segment.afterLast_strip]
  exact beginsBlank_strip name

/-! ### Derived identifiers -/

theorem mem_squeeze {p : Char → Bool} {c : Char} : ∀ {inside : Bool} {l : List Char},
    c ∈ squeeze p inside l → c = '-' ∨ c ∈ l ∧ p c = false
  | _, [], h => absurd h List.not_mem_nil
  | inside, d :: rest, h => by
    rw [squeeze] at h
    split at h
    · rename_i hd
      split at h
      · exact (mem_squeeze h).imp_right fun ⟨hmem, hp⟩ => ⟨List.mem_cons_of_mem _ hmem, hp⟩
      · rcases List.mem_cons.1 h with rfl | h
        · exact .inl rfl
        · exact (mem_squeeze h).imp_right fun ⟨hmem, hp⟩ => ⟨List.mem_cons_of_mem _ hmem, hp⟩
    · rename_i hd
      rcases List.mem_cons.1 h with rfl | h
      · exact .inr ⟨List.mem_cons_self .., Bool.eq_false_iff.2 hd⟩
      · exact (mem_squeeze h).imp_right fun ⟨hmem, hp⟩ => ⟨List.mem_cons_of_mem _ hmem, hp⟩

theorem trim_subset (text : List Char) : trim text ⊆ text :=
  fun _ hc => List.dropWhile_subset _ ((List.rdropWhile_prefix _ _).subset hc)

theorem head?_trim (text : List Char) : (trim text).head?.any (· ∈ dashes) = false :=
  Text.head?_of_dropWhile (Text.dropWhile_rdropWhile _ _)

/-- The characters of a slug. -/
def slugChar (py : Letters) (c : Char) : Bool := py.isAlnum c ∨ c ∈ dashes

theorem plain_of_slugChar {py : Letters} {c : Char} (h : slugChar py c = true) :
    (c ∉ forbiddenChars ∧ 32 ≤ c.toNat) ∧ Text.isSpace c = false := by
  simp only [slugChar, decide_eq_true_eq] at h
  rcases h with h | h
  · refine ⟨⟨fun hmem => ?_, ?_⟩, py.not_isSpace c h⟩
    · have hascii : c.toNat < 128 ∧ c.isAlphanum = false := by
        simp only [forbiddenChars, List.mem_cons, List.not_mem_nil, or_false] at hmem
        rcases hmem with rfl | rfl | rfl | rfl | rfl | rfl | rfl | rfl | rfl <;> exact ⟨by decide, by decide⟩
      rw [py.isAlnum_ascii c hascii.1, hascii.2] at h
      cases h
    · by_contra hlt
      rw [py.isAlnum_ascii c (by omega)] at h
      have := range_of_isAlphanum h
      omega
  · simp only [dashes, List.mem_cons, List.not_mem_nil, or_false] at h
    rcases h with rfl | rfl | rfl <;> decide

theorem slugChar_doc (py : Letters) : ∀ c ∈ "doc".toList, slugChar py c = true := by
  intro c hc
  have hall : "doc".toList.all (fun c => c.toNat < 128 && c.isAlphanum) = true := by decide
  have hascii : c.toNat < 128 ∧ c.isAlphanum = true := by simpa using List.all_eq_true.1 hall c hc
  simp only [slugChar, py.isAlnum_ascii c hascii.1, hascii.2, true_or, decide_true]

/-- What is left of a title: nothing but the characters of a slug, and no dash to begin with. -/
theorem slugify_spec (py : Letters) (title : String) :
    slugify py title ≠ "" ∧ (slugify py title).length ≤ slugMax ∧
      (slugify py title).toList.head?.any (· ∈ dashes) = false ∧ ∀ c ∈ (slugify py title).toList, slugChar py c = true := by
  unfold slugify
  dsimp only
  generalize hplain : (squeeze Text.isSpace false (py.lower (Text.strip title)).toList).map
    (fun c => if py.isAlnum c = true ∨ c ∈ dashes then c else '-') = plain
  have hchars : ∀ c ∈ plain, slugChar py c = true := by
    intro c hc
    rw [← hplain] at hc
    obtain ⟨d, -, rfl⟩ := List.mem_map.1 hc
    split
    · rename_i hd
      exact decide_eq_true hd
    · exact decide_eq_true (.inr (List.mem_cons_self ..))
  generalize htext : (if trim (squeeze (fun x => decide (x = '-')) false plain) = [] then "doc".toList
    else trim (squeeze (fun x => decide (x = '-')) false plain)) = text
  have htextChars : ∀ c ∈ text, slugChar py c = true := by
    intro c hc
    rw [← htext] at hc
    split at hc
    · exact slugChar_doc py c hc
    · rcases mem_squeeze (trim_subset _ hc) with rfl | ⟨hmem, -⟩
      · exact decide_eq_true (.inr (List.mem_cons_self ..))
      · exact hchars c hmem
  split
  · exact ⟨by decide, by decide, by decide, slugChar_doc py⟩
  · rename_i hcut
    have hsub : trim (text.take slugMax) ⊆ text := fun c hc => List.mem_of_mem_take (trim_subset _ hc)
    have hlen : (trim (text.take slugMax)).length ≤ slugMax :=
      ((List.rdropWhile_prefix _ _).length_le.trans (List.dropWhile_sublist _).length_le).trans (List.length_take_le _ _)
    refine ⟨fun hempty => hcut ?_, ?_, ?_, fun c hc => ?_⟩
    · rw [← String.toList_ofList (l := trim _), hempty, String.toList_empty]
    · rw [String.length_ofList]
      exact hlen
    · rw [String.toList_ofList]
      exact head?_trim _
    · rw [String.toList_ofList] at hc
      exact htextChars c (hsub hc)

theorem segment_slugify (py : Letters) (title : String) : Segment slugMax (slugify py title) := by
  obtain ⟨hne, hlen, hhead, hchars⟩ := slugify_spec py title
  refine ⟨hne, hlen, ?_, fun c hc => (plain_of_slugChar (hchars c hc)).1⟩
  rw [Bool.eq_false_iff, ne_eq, show "." = String.singleton '.' from rfl, Text.startsWith_singleton]
  intro hdot
  rw [hdot] at hhead
  cases hhead

/-- A derived identifier is normalised. -/
theorem normalizeDocId_slugify (py : Letters) (title : String) :
    normalizeDocId (slugify py title) = .ok (slugify py title) := by
  obtain ⟨-, -, -, hchars⟩ := slugify_spec py title
  have hstrip := Text.strip_of_forall fun c hc => (plain_of_slugChar (hchars c hc)).2
  exact checkSegment_eq_ok.2 ⟨hstrip.symm, hstrip.symm ▸ segment_slugify py title⟩

end OpenFish.Docs
