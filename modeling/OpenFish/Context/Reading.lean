/-
Reading the assembled text back: from the opening tags and the first closing tag after each, a reader gets
one block for each item, and nothing lies outside the blocks but the blank lines between them.
-/
import Mathlib.Data.Bool.AllAny
import Mathlib.Data.List.Forall2
import OpenFish.Context.Render

namespace OpenFish.Context

open Lib

/-! ## The reader -/

/-- A block as read: its kind, the attributes of its opening tag, and what stands before its closing tag. -/
structure Block where
  kind : List Char
  attributes : List Char
  inner : List Char
  deriving DecidableEq, Repr

/-- What all the tags start with. -/
def untrusted : List Char := "untrusted-".toList

def tagStart : List Char := '<' :: untrusted

def endTag (kind : List Char) : List Char := '<' :: '/' :: (untrusted ++ kind ++ ['>'])

/-- The characters that a block was read from. -/
def Block.text (b : Block) : List Char :=
  tagStart ++ (b.kind ++ b.attributes) ++ '>' :: (b.inner ++ endTag b.kind)

/-- A block at the front: an opening tag up to its first `>`, whose kind ends at the first blank, and
everything up to the first closing tag of that kind. -/
def readBlock (l : List Char) : Option (Block × List Char) := do
  let afterStart ← l.dropPrefix? tagStart
  let (head, afterTag) ← Text.splitFirst ['>'] afterStart
  let kind := head.takeWhile (· ≠ ' ')
  let (inner, rest) ← Text.splitFirst (endTag kind) afterTag
  some (⟨kind, head.dropWhile (· ≠ ' '), inner⟩, rest)

/-- One block or more, with a blank line between two; the number bounds how many. -/
def readBlocks : ℕ → List Char → Option (List Block)
  | 0, _ => none
  | fuel + 1, l => do
    let (block, rest) ← readBlock l
    if rest = [] then some [block]
    else
      let more ← rest.dropPrefix? ['\n', '\n']
      let blocks ← readBlocks fuel more
      some (block :: blocks)

/-- All blocks of a text. A block has a character at least, so the length is bound enough. -/
def readText (text : String) : Option (List Block) :=
  if text = "" then some [] else readBlocks text.toList.length text.toList

/-! ## No closing tag is left in a wrapped text -/

/-- The characters of a tag: in lower case, and none that means something around a tag. -/
def TagChars (tag : List Char) : Prop :=
  ∀ c ∈ tag, fold c = c ∧ Text.isSpace c = false ∧ c ∉ ['<', '>', '&', '\n', ' ']

instance (tag : List Char) : Decidable (TagChars tag) := inferInstanceAs (Decidable (∀ c ∈ tag, _))

def closing (tag : List Char) : List Char := '<' :: '/' :: (tag ++ ['>'])

theorem not_mem_closing {tag : List Char} (htag : TagChars tag) {c : Char} (hc : c ∈ ['&', '\n', ' ']) :
    c ∉ closing tag := by
  intro hmem
  simp only [closing, List.mem_cons, List.mem_append, List.not_mem_nil, or_false] at hmem
  rcases hmem with rfl | rfl | hmem | rfl
  · revert hc; decide
  · revert hc; decide
  · exact (htag c hmem).2.2 (by simp at hc ⊢; tauto)
  · revert hc; decide

theorem lt_not_mem_of_fold {tag named : List Char} (htag : TagChars tag) (hnamed : named.map fold = tag) :
    '<' ∉ named := by
  intro hmem
  have : fold '<' ∈ tag := by rw [← hnamed]; exact List.mem_map_of_mem hmem
  exact (htag _ this).2.2 (by decide)

/-- A match begins the text it was found in and has no second `<`. -/
theorem matchEndTag_spec {tag l found : List Char} (htag : TagChars tag) (h : matchEndTag tag l = some found) :
    ∃ m rest, found = '<' :: m ∧ l = '<' :: m ++ rest ∧ '<' ∉ m := by
  unfold matchEndTag at h
  split at h
  next rest =>
    dsimp only at h
    split_ifs at h with hnamed
    split at h
    next tail hafter =>
      have hspaces : ∀ (x : List Char), '<' ∉ x.takeWhile Text.isSpace := fun x hmem =>
        absurd (List.mem_takeWhile_imp hmem) (by decide)
      cases h
      refine ⟨_, tail, rfl, ?_, ?_⟩
      · have h1 := List.takeWhile_append_dropWhile (p := Text.isSpace) (l := rest)
        have h2 := List.take_append_drop tag.length (rest.dropWhile Text.isSpace)
        have h3 := List.takeWhile_append_dropWhile (p := Text.isSpace)
          (l := (rest.dropWhile Text.isSpace).drop tag.length)
        rw [hafter] at h3
        simp only [List.cons_append, List.append_assoc, List.nil_append]
        rw [h3, h2, h1]
      · simp only [List.mem_cons, List.mem_append, List.not_mem_nil, or_false, not_or]
        exact ⟨by decide, ⟨⟨hspaces _, lt_not_mem_of_fold htag hnamed⟩, hspaces _⟩, by decide⟩
    · cases h
  · cases h

/-- The tag that a reader takes for the end is one that the pattern finds. -/
theorem matchEndTag_closing {tag rest : List Char} (htag : TagChars tag) :
    matchEndTag tag (closing tag ++ rest) ≠ none := by
  have hfold : tag.map fold = tag :=
    (List.map_congr_left fun c hc => (htag c hc).1).trans (List.map_id' tag)
  have hdrop : (tag ++ '>' :: rest).dropWhile Text.isSpace = tag ++ '>' :: rest := by
    cases htag' : tag with
    | nil => exact List.dropWhile_cons_of_neg (by decide)
    | cons c tag' =>
      have := (htag c (htag' ▸ List.mem_cons_self ..)).2.1
      exact List.dropWhile_cons_of_neg (by simp [this])
  have hend : ('>' :: rest).dropWhile Text.isSpace = '>' :: rest := List.dropWhile_cons_of_neg (by decide)
  simp [matchEndTag, closing, hdrop, hfold, hend]

/-- The substitution only puts characters in that begin with `&`. -/
theorem prefix_of_prefix_sub {tag : List Char} (q l : List Char) (copied : ℕ) (hq : '&' ∉ q)
    (h : q <+: subEndTags tag copied l) : q <+: l := by
  induction l generalizing q copied with
  | nil =>
    have : subEndTags tag copied [] = [] := by cases copied <;> rfl
    rwa [this] at h
  | cons c l ih =>
    cases q with
    | nil => exact List.nil_prefix
    | cons a q =>
      have htail : '&' ∉ q := fun hmem => hq (List.mem_cons_of_mem _ hmem)
      have hhead : a ≠ '&' := fun heq => hq (heq ▸ List.mem_cons_self ..)
      cases copied with
      | succ copied =>
        rw [subEndTags, List.cons_prefix_cons] at h
        exact List.cons_prefix_cons.2 ⟨h.1, ih q copied htail h.2⟩
      | zero =>
        rw [subEndTags] at h
        split at h
        · rw [List.cons_append, List.cons_prefix_cons] at h
          exact absurd h.1 hhead
        · rw [List.cons_prefix_cons] at h
          exact List.cons_prefix_cons.2 ⟨h.1, ih q 0 htail h.2⟩

/-- While the rest of a match is copied there is no `<`; elsewhere a closing tag would have been found. -/
theorem closing_not_infix_sub {tag : List Char} (htag : TagChars tag) (l : List Char) (copied : ℕ)
    (hcopied : '<' ∉ l.take copied) : ¬ closing tag <:+: subEndTags tag copied l := by
  have hamp : '&' ∉ closing tag := not_mem_closing htag (by decide)
  have hhead (c : Char) (x : List Char) (hc : '<' ≠ c) : ¬ closing tag <+: c :: x := fun h =>
    hc (List.cons_prefix_cons.1 h).1
  induction l generalizing copied with
  | nil =>
    intro h
    have : subEndTags tag copied [] = [] := by cases copied <;> rfl
    rw [this, List.infix_nil] at h
    cases h
  | cons c l ih =>
    cases copied with
    | succ copied =>
      rw [List.take_succ_cons, List.mem_cons, not_or] at hcopied
      rw [subEndTags, List.infix_cons_iff]
      rintro (h | h)
      · exact hhead c _ hcopied.1 h
      · exact ih copied hcopied.2 h
    | zero =>
      rw [subEndTags]
      split
      next found hfound =>
        obtain ⟨m, rest, rfl, hl, hm⟩ := matchEndTag_spec htag hfound
        obtain ⟨-, rfl⟩ := List.cons.inj (hl.trans List.cons_append)
        intro h
        simp only [List.cons_append, List.nil_append, List.infix_cons_iff] at h
        rcases h with h | h | h | h | h
        · exact hhead _ _ (by decide) h
        · exact hhead _ _ (by decide) h
        · exact hhead _ _ (by decide) h
        · exact hhead _ _ (by decide) h
        · refine ih _ ?_ h
          rw [List.length_cons, Nat.add_sub_cancel, List.take_left]
          exact hm
      next hnone =>
        rw [List.infix_cons_iff]
        rintro (h | h)
        · have hpre : closing tag <+: c :: l := by
            apply @prefix_of_prefix_sub tag _ _ 0 hamp
            rw [subEndTags, hnone]
            exact h
          obtain ⟨rest, hrest⟩ := hpre
          exact @matchEndTag_closing _ rest htag (by rw [hrest]; exact hnone)
        · exact ih 0 (by simp) h

/-! ## One entry is one block -/

theorem gt_not_mem_attr (value : String) : '>' ∉ (attr value).toList := by
  unfold attr
  rw [String.toList_ofList, List.mem_flatMap]
  rintro ⟨c, -, hc⟩
  unfold escapeChar at hc
  split at hc
  all_goals first | (revert hc; decide) | skip
  next hgt _ _ => exact hgt (List.mem_singleton.1 hc).symm

/-- The attributes of a tag are empty or begin with a blank, and hold no `>`. -/
theorem renderAttributes_spec (attributes : List (String × Option String))
    (hkeys : ∀ p ∈ attributes, '>' ∉ p.1.toList) :
    '>' ∉ (renderAttributes attributes).toList ∧ ∀ c ∈ (renderAttributes attributes).toList.head?, c = ' ' := by
  have hnil : (renderAttributes []).toList = [] := rfl
  induction attributes with
  | nil => rw [hnil]; exact ⟨List.not_mem_nil, fun c hc => by cases hc⟩
  | cons p attributes ih =>
    obtain ⟨ih₁, ih₂⟩ := ih fun q hq => hkeys q (List.mem_cons_of_mem _ hq)
    obtain ⟨key, value⟩ := p
    cases value with
    | none =>
      have : renderAttributes ((key, none) :: attributes) = renderAttributes attributes := by
        simp [renderAttributes, String.join_cons]
      rw [this]
      exact ⟨ih₁, ih₂⟩
    | some value =>
      have : (renderAttributes ((key, some value) :: attributes)).toList =
          ' ' :: (key.toList ++ ('=' :: '"' :: ((attr value).toList ++ '"' :: (renderAttributes attributes).toList))) := by
        simp [renderAttributes, String.join_cons]
      rw [this]
      refine ⟨?_, fun c hc => (Option.some.inj hc).symm⟩
      have hkey := hkeys _ (List.mem_cons_self ..)
      simp only [List.mem_cons, List.mem_append, not_or]
      exact ⟨by decide, hkey, by decide, by decide, gt_not_mem_attr value, by decide, ih₁⟩

/-- What a reader of `wrapUntrusted` finds. -/
def wrappedBlock (body kind : String) (attributes : List (String × Option String)) : Block :=
  { kind := kind.toList, attributes := (renderAttributes attributes).toList,
    inner := '\n' :: (neutralizeEndTag body ("untrusted-" ++ kind)).toList ++ ['\n'] }

theorem toList_tag (kind : String) : ("untrusted-" ++ kind).toList = untrusted ++ kind.toList :=
  String.toList_append ..

theorem toList_wrapUntrusted (body kind : String) (attributes : List (String × Option String)) :
    (wrapUntrusted body ("untrusted-" ++ kind) attributes).toList = (wrappedBlock body kind attributes).text := by
  have hlt : ("<" : String).toList = ['<'] := rfl
  have hgt : (">\n" : String).toList = ['>', '\n'] := rfl
  have hclose : ("\n</" : String).toList = ['\n', '<', '/'] := rfl
  have hend : (">" : String).toList = ['>'] := rfl
  have htag := toList_tag kind
  unfold wrapUntrusted wrappedBlock Block.text tagStart endTag
  generalize neutralizeEndTag body ("untrusted-" ++ kind) = inner
  generalize "untrusted-" ++ kind = tag at htag ⊢
  simp only [String.toList_append, htag, hlt, hgt, hclose, hend, List.append_assoc, List.cons_append,
    List.nil_append]

theorem takeWhile_kind {kind attributes : List Char} (hkind : ' ' ∉ kind)
    (hattributes : ∀ c ∈ attributes.head?, c = ' ') :
    (kind ++ attributes).takeWhile (· ≠ ' ') = kind ∧ (kind ++ attributes).dropWhile (· ≠ ' ') = attributes := by
  have hpos : ∀ c ∈ kind, decide (c ≠ ' ') = true := fun c hc => by
    simpa using fun heq : c = ' ' => hkind (heq ▸ hc)
  rw [List.takeWhile_append_of_pos hpos, List.dropWhile_append_of_pos hpos]
  cases attributes with
  | nil => simp
  | cons c rest =>
    obtain rfl := hattributes c rfl
    simp

theorem readBlock_wrapped {body kind : String} {attributes : List (String × Option String)}
    (htag : TagChars ("untrusted-" ++ kind).toList) (hkeys : ∀ p ∈ attributes, '>' ∉ p.1.toList)
    (rest : List Char) :
    readBlock ((wrappedBlock body kind attributes).text ++ rest) = some (wrappedBlock body kind attributes, rest) := by
  obtain ⟨hgt, hblank⟩ := renderAttributes_spec attributes hkeys
  have hkind : ∀ c ∈ kind.toList, c ∉ ['<', '>', '&', '\n', ' '] := fun c hc =>
    (htag c (by rw [toList_tag]; exact List.mem_append_right _ hc)).2.2
  have hgt' : '>' ∉ kind.toList ++ (renderAttributes attributes).toList := by
    rw [List.mem_append, not_or]
    exact ⟨fun hmem => hkind _ hmem (by decide), hgt⟩
  have hend : endTag kind.toList = closing ("untrusted-" ++ kind).toList := by
    rw [toList_tag]; rfl
  have hnewline : '\n' ∉ endTag kind.toList := by
    rw [hend]; exact not_mem_closing htag (by decide)
  have hinner : ¬ endTag kind.toList <:+: '\n' :: (neutralizeEndTag body ("untrusted-" ++ kind)).toList := by
    rw [hend, List.infix_cons_iff]
    rintro (h | h)
    · exact absurd (List.cons_prefix_cons.1 h).1 (by decide)
    · rw [neutralizeEndTag, String.toList_ofList] at h
      exact closing_not_infix_sub htag _ 0 (by simp) h
  obtain ⟨hname, hattributes⟩ := takeWhile_kind (fun hmem => hkind _ hmem (by decide)) hblank
  have hne : endTag kind.toList ≠ [] := List.cons_ne_nil _ _
  have hsplit := @Text.splitFirst_guarded _ _ rest _ hne hnewline hinner
  have htext : (wrappedBlock body kind attributes).text ++ rest =
      tagStart ++ ((kind.toList ++ (renderAttributes attributes).toList) ++ '>' ::
        (('\n' :: (neutralizeEndTag body ("untrusted-" ++ kind)).toList) ++ '\n' :: (endTag kind.toList ++ rest))) := by
    simp only [Block.text, wrappedBlock, List.append_assoc, List.cons_append, List.nil_append]
  rw [htext, readBlock, List.dropPrefix?_append_of_beq _ (beq_self_eq_true tagStart), Option.bind_eq_bind,
    Option.bind_some, Text.splitFirst_singleton hgt', Option.bind_eq_bind, Option.bind_some]
  dsimp only
  rw [hname, hattributes, hsplit]
  rfl

theorem tagKind_mem (row : Row) : tagKind row ∈ ["issue", "pull-request", "commit", "finding"] := by
  cases row with
  | issue row => dsimp only [tagKind]; split <;> simp
  | commit row => simp [tagKind]
  | finding row => simp [tagKind]

theorem tagChars_tagOf (row : Row) : TagChars (tagOf row).toList := by
  have hkind := tagKind_mem row
  simp only [List.mem_cons, List.not_mem_nil, or_false] at hkind
  unfold tagOf
  rcases hkind with h | h | h | h <;> rw [h] <;> exact List.all_iff_forall_prop.1 (by decide)

theorem render_eq (row : Row) (source : String) (limit : ℕ) : ∃ body attributes,
    render row source limit = wrapUntrusted body (tagOf row) attributes ∧ ∀ p ∈ attributes, '>' ∉ p.1.toList := by
  cases row with
  | issue row =>
    refine ⟨_, _, rfl, ?_⟩
    simp only [List.forall_mem_cons]
    exact ⟨by decide, by decide, by decide, fun _ h => by cases h⟩
  | commit row =>
    refine ⟨_, _, rfl, ?_⟩
    simp only [List.forall_mem_cons]
    exact ⟨by decide, by decide, by decide, fun _ h => by cases h⟩
  | finding row =>
    refine ⟨_, _, rfl, ?_⟩
    simp only [List.forall_mem_cons]
    exact ⟨by decide, by decide, fun _ h => by cases h⟩

/-- A block that is read back wherever it stands at the front. -/
def Block.Reads (b : Block) : Prop := ∀ rest, readBlock (b.text ++ rest) = some (b, rest)

/-- Every rendered entry reads back as one block of its kind. -/
theorem render_reads (row : Row) (source : String) (limit : ℕ) : ∃ b : Block,
    b.text = (render row source limit).toList ∧ b.kind = (tagKind row).toList ∧ b.Reads := by
  obtain ⟨body, attributes, hrender, hkeys⟩ := render_eq row source limit
  refine ⟨wrappedBlock body (tagKind row) attributes, ?_, rfl, ?_⟩
  · rw [hrender, tagOf, toList_wrapUntrusted]
  · exact readBlock_wrapped (tagChars_tagOf row) hkeys

/-! ## The whole text -/

theorem Block.text_ne_nil (b : Block) : b.text ≠ [] := List.cons_ne_nil _ _

theorem readBlocks_intercalate (blocks : List Block) (fuel : ℕ) (hne : blocks ≠ []) (hfuel : blocks.length ≤ fuel)
    (hreads : ∀ b ∈ blocks, b.Reads) :
    readBlocks fuel (List.intercalate ['\n', '\n'] (blocks.map Block.text)) = some blocks := by
  induction blocks generalizing fuel with
  | nil => exact absurd rfl hne
  | cons b blocks ih =>
    obtain ⟨fuel, rfl⟩ : ∃ n, fuel = n + 1 := ⟨fuel - 1, by rw [List.length_cons] at hfuel; omega⟩
    rw [List.length_cons] at hfuel
    have hb : b.Reads := hreads b (List.mem_cons_self ..)
    cases hblocks : blocks with
    | nil =>
      have := hb []
      rw [List.append_nil] at this
      rw [List.map_cons, List.map_nil, List.intercalate_singleton, readBlocks, this]
      rfl
    | cons b' blocks' =>
      have hmore := ih fuel (by rw [hblocks]; exact List.cons_ne_nil _ _) (by omega)
        fun b' hb' => hreads b' (List.mem_cons_of_mem _ hb')
      rw [hblocks, List.map_cons] at hmore
      rw [List.map_cons, List.map_cons, List.intercalate_cons_cons, List.append_assoc, readBlocks, hb,
        Option.bind_eq_bind, Option.bind_some]
      dsimp only
      rw [if_neg (by simp), List.dropPrefix?_append_of_beq _ (beq_self_eq_true _), Option.bind_eq_bind,
        Option.bind_some, hmore]
      rfl

theorem length_le_intercalate (blocks : List Block) :
    blocks.length ≤ (List.intercalate ['\n', '\n'] (blocks.map Block.text)).length := by
  induction blocks with
  | nil => exact Nat.zero_le _
  | cons b blocks ih =>
    have hb : 0 < b.text.length := List.length_pos_iff.2 b.text_ne_nil
    cases blocks with
    | nil => rwa [List.map_cons, List.map_nil, List.intercalate_singleton]
    | cons b' blocks =>
      rw [List.map_cons] at ih ⊢
      rw [List.map_cons, List.intercalate_cons_cons, List.length_append, List.length_append, List.length_cons]
      omega

/-- A block is the entry that an item stands for, at some length of its body. -/
def IsBlockOf (source : String) (b : Block) (item : Item) : Prop :=
  b.kind = (tagKind item.row).toList ∧ b.text.length = item.chars ∧
    ∃ limit, b.text = (render item.row source limit).toList

theorem fitBlock_spec {row : Row} {source : String} {budget used separator : ℕ} {block : String}
    (h : fitBlock row source budget used separator = some block) :
    used + block.length + separator ≤ budget ∧ ∃ limit, block = render row source limit := by
  unfold fitBlock at h
  dsimp only at h
  split_ifs at h with hwhole hroom hclipped
  · cases h
    exact ⟨hwhole, _, rfl⟩
  · cases h
    exact ⟨hclipped, _, rfl⟩

/-- What the loop keeps, with the candidates it has taken. -/
structure Fits (source : String) (budget : ℕ) (taken : List Candidate) (acc : Assembled) : Prop where
  entries : List.Forall₂ (fun item block => item.chars = block.length ∧ ∃ limit, block = render item.row source limit)
    acc.items acc.blocks
  items : acc.items = List.zipWith itemMeta taken (acc.blocks.map String.length)
  count : taken.length = acc.blocks.length
  used : acc.used = (String.intercalate "\n\n" acc.blocks).length
  bound : acc.used ≤ budget

theorem length_intercalate_concat (blocks : List String) (block : String) :
    (String.intercalate "\n\n" (blocks ++ [block])).length =
      (String.intercalate "\n\n" blocks).length + (block.length + if blocks = [] then 0 else 2) := by
  by_cases hblocks : blocks = []
  · subst hblocks
    rw [if_pos rfl, List.nil_append, String.intercalate_singleton, String.intercalate_nil]
    exact (Nat.zero_add _).symm
  · have hsep : ("\n\n" : String).length = 2 := rfl
    rw [if_neg hblocks, String.intercalate_append_of_ne_nil hblocks (List.cons_ne_nil _ _), String.intercalate_singleton,
      String.length_append, String.length_append, hsep]
    omega

theorem Fits.step {source : String} {budget : ℕ} {taken : List Candidate} {acc : Assembled} {candidate : Candidate}
    {block : String} (h : Fits source budget taken acc)
    (hblock : fitBlock candidate.row source budget acc.used (if acc.blocks = [] then 0 else 2) = some block) :
    Fits source budget (taken ++ [candidate])
      { items := acc.items ++ [itemMeta candidate block.length], blocks := acc.blocks ++ [block],
        used := acc.used + (block.length + if acc.blocks = [] then 0 else 2) } := by
  obtain ⟨hbound, hrender⟩ := fitBlock_spec hblock
  constructor
  · exact List.rel_append h.entries (.cons ⟨rfl, hrender⟩ .nil)
  · rw [List.map_append, List.zipWith_append (by rw [List.length_map, h.count]), ← h.items]
    rfl
  · simp [h.count]
  · rw [length_intercalate_concat, h.used]
  · dsimp only
    omega

theorem Fits.run {source : String} {budget : ℕ} (rest : List Candidate) {taken : List Candidate} {acc : Assembled}
    (h : Fits source budget taken acc) :
    ∃ more, more <+: rest ∧ Fits source budget (taken ++ more) (assembleFrom source budget acc rest) := by
  induction rest generalizing taken acc with
  | nil => exact ⟨[], List.prefix_refl _, by rw [List.append_nil]; exact h⟩
  | cons candidate rest ih =>
    rw [assembleFrom]
    split
    · exact ⟨[], List.nil_prefix, by rw [List.append_nil]; exact h⟩
    next block hblock =>
      obtain ⟨more, hmore, hfits⟩ := ih (h.step hblock)
      refine ⟨candidate :: more, List.cons_prefix_cons.2 ⟨rfl, hmore⟩, ?_⟩
      rw [List.append_assoc] at hfits
      exact hfits

theorem fits_assemble (candidates : List Candidate) (source : String) (budget : ℕ) :
    ∃ taken, taken <+: candidates ∧ Fits source budget taken (assemble candidates source budget) := by
  have hstart : Fits source budget [] { items := [], blocks := [], used := 0 } :=
    ⟨.nil, rfl, rfl, rfl, Nat.zero_le _⟩
  exact hstart.run candidates

/-- The blocks that a reader gets from entries. -/
theorem exists_blocks {source : String} {items : List Item} {texts : List String}
    (h : List.Forall₂ (fun item block => item.chars = block.length ∧ ∃ limit, block = render item.row source limit)
      items texts) :
    ∃ blocks, List.Forall₂ (IsBlockOf source) blocks items ∧ blocks.map Block.text = texts.map String.toList ∧
      ∀ b ∈ blocks, b.Reads := by
  induction h with
  | nil => exact ⟨[], .nil, rfl, fun b hb => by cases hb⟩
  | cons hentry _ ih =>
    obtain ⟨blocks, hblocks, htexts, hreads⟩ := ih
    obtain ⟨hchars, limit, rfl⟩ := hentry
    obtain ⟨b, htext, hkind, hb⟩ := render_reads _ source limit
    refine ⟨b :: blocks, .cons ⟨hkind, ?_, limit, htext⟩ hblocks, ?_, List.forall_mem_cons.2 ⟨hb, hreads⟩⟩
    · rw [htext, String.length_toList, hchars]
    · rw [List.map_cons, List.map_cons, htext, htexts]

/-- The text of an answer is as long as it says and no longer than the budget, the items are the first
candidates, and the text reads back as one block for each item, in order, with a blank line between two:
all that is imported is inside these blocks. -/
theorem answer_reads_back (repoId : ℤ) (query : List (String × String)) (candidates : List Candidate) (source : String)
    (matched budget : ℕ) :
    let answer := result repoId query (assemble candidates source budget) matched budget source
    answer.text.length = answer.budgetUsed ∧ answer.budgetUsed ≤ budget ∧
      (∃ taken chars, taken <+: candidates ∧ taken.length = chars.length ∧
        answer.items = List.zipWith itemMeta taken chars) ∧
      ∃ blocks, readText answer.text = some blocks ∧ List.Forall₂ (IsBlockOf source) blocks answer.items ∧
        answer.text.toList = List.intercalate ['\n', '\n'] (blocks.map Block.text) := by
  intro answer
  obtain ⟨taken, htaken, hfits⟩ := fits_assemble candidates source budget
  obtain ⟨blocks, hblocks, htexts, hreads⟩ := exists_blocks hfits.entries
  have htext : answer.text.toList = List.intercalate ['\n', '\n'] (blocks.map Block.text) := by
    rw [htexts]
    exact String.toList_intercalate
  refine ⟨hfits.used.symm, hfits.bound, ⟨taken, _, htaken, ?_, hfits.items⟩, blocks, ?_, hblocks, htext⟩
  · rw [hfits.count, List.length_map]
  · unfold readText
    cases hcases : blocks with
    | nil =>
      rw [hcases, List.map_nil, List.intercalate_nil] at htext
      rw [if_pos (String.toList_eq_nil_iff.1 htext)]
    | cons b bs =>
      have hne : blocks ≠ [] := by rw [hcases]; exact List.cons_ne_nil _ _
      have hlen := length_le_intercalate blocks
      have hnonempty : answer.text ≠ "" := by
        intro hempty
        rw [← htext, hempty, String.toList_empty, hcases] at hlen
        exact Nat.not_succ_le_zero _ hlen
      rw [if_neg hnonempty, htext, ← hcases]
      exact readBlocks_intercalate blocks _ hne hlen hreads

end OpenFish.Context
