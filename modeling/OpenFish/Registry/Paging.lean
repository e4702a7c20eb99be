/-
Which searches can be read page by page: the upstream is only ever asked for its first results, and a page is cut to the
largest size while the next one starts where the size that was asked for ends.
-/
import OpenFish.Registry.Search
import OpenFish.Registry.WellFormed

namespace OpenFish.Registry

open Lib

variable {f : Finder}

/-! ## What the claim is about -/

variable (f) in
/-- The text is found in the local package of this name. -/
def LocalMatch (index : Index) (text : String) (key : Key) : Prop :=
  ∃ name record, index.get? name = some record ∧ key = .text name ∧ ∃ found, haystack f name record = .ok found ∧
    Text.contains (f.lower (Text.strip text)) found = true

variable (f) in
/-- One of these results is a package of this name. -/
def UpstreamMatch (results : List Json) (key : Key) : Prop :=
  ∃ item ∈ results, ∃ entries, named item = some entries ∧ keyOf f (nameOf entries) = .ok key

variable (f) in
def Matches (index : Index) (results : Option (List Json)) (text : String) (key : Key) : Prop :=
  LocalMatch f index text key ∨ UpstreamMatch f (results.getD []) key

variable (f) in
/-- The pages list every package once, and each of them says how many there are. -/
def Partitioned (index : Index) (results : Option (List Json)) (text : String) (size : ℕ+) : Prop :=
  ∃ (listed : List Item) (total : Nat) (names : List Key),
    Collected (fun start => (search f index results text (size : ℕ) start).map Answer.objects) size 0 listed ∧
    (∀ start : ℕ, ∀ answer, search f index results text (size : ℕ) start = .ok answer → answer.total = total) ∧
    listed.map (Item.key f) = names.map Except.ok ∧ names.Nodup ∧ (∀ key, key ∈ names ↔ Matches f index results text key) ∧
    total = names.length

/-- How many results a page has at most. -/
def pageSize (size : ℕ+) : Nat := min 250 size

variable (f) in
/-- What is found fits in the first results of the upstream and in one page, or in pages that touch. -/
structure Listable (index : Index) (results : Option (List Json)) (text : String) (size : ℕ+) : Prop where
  readable : ∀ name record, index.get? name = some record → (haystack f name record).isOk = true
  hashable : ∀ item ∈ (results.getD []).take (pageSize size), ∀ entries, named item = some entries →
    (keyOf f (nameOf entries)).isOk = true
  first : ∀ key, UpstreamMatch f (results.getD []) key →
    LocalMatch f index text key ∨ UpstreamMatch f ((results.getD []).take (pageSize size)) key
  fits : (size : ℕ) ≤ 250 ∨ ∀ names : List Key, names.Nodup → (∀ key ∈ names, Matches f index results text key) → names.length ≤ 250

/-! ## What is found -/

theorem localObjects_isOk {needle : String} : ∀ {entries : List (String × Record)},
    (localObjects f needle entries).isOk = true ↔ ∀ e ∈ entries, (haystack f e.1 e.2).isOk = true
  | [] => by simp [localObjects, Except.isOk, Except.toBool]
  | (name, record) :: rest => by
    have ih : (localObjects f needle rest).isOk = true ↔ ∀ e ∈ rest, (haystack f e.1 e.2).isOk = true := localObjects_isOk
    rw [List.forall_mem_cons, ← ih, localObjects]
    simp only [Bind.bind, Except.bind]
    cases haystack f name record with
    | error why => simp [Except.isOk, Except.toBool]
    | ok found => cases localObjects f needle rest <;> simp [Except.isOk, Except.toBool, pure, Except.pure]

theorem localObjects_ok {needle : String} : ∀ {entries : List (String × Record)} {own : List Found},
    localObjects f needle entries = .ok own → ∀ name, (∃ o ∈ own, o.name = name) ↔
      ∃ record, (name, record) ∈ entries ∧ ∃ found, haystack f name record = .ok found ∧ Text.contains needle found = true
  | [], own, hok, name => by
    cases Except.ok.inj hok
    simp
  | (first, record) :: rest, own, hok, name => by
    obtain ⟨found, hfound, hok⟩ := ok_of_bind hok
    obtain ⟨more, hmore, hok⟩ := ok_of_bind hok
    have ih := localObjects_ok hmore name
    rw [← Except.ok.inj hok]
    constructor
    · rintro ⟨o, ho, rfl⟩
      split at ho
      · rename_i hcontains
        rcases List.mem_cons.1 ho with rfl | ho
        · exact ⟨record, List.mem_cons_self .., found, hfound, hcontains⟩
        · obtain ⟨other, hother, hrest⟩ := ih.1 ⟨o, ho, rfl⟩
          exact ⟨other, List.mem_cons_of_mem _ hother, hrest⟩
      · obtain ⟨other, hother, hrest⟩ := ih.1 ⟨o, ho, rfl⟩
        exact ⟨other, List.mem_cons_of_mem _ hother, hrest⟩
    · rintro ⟨other, hother, found', hfound', hcontains⟩
      rcases List.mem_cons.1 hother with heq | hother
      · obtain ⟨rfl, rfl⟩ := Prod.mk.inj heq
        rw [hfound] at hfound'
        rw [Except.ok.inj hfound', if_pos hcontains]
        exact ⟨_, List.mem_cons_self .., rfl⟩
      · obtain ⟨o, ho, hname⟩ := ih.2 ⟨other, hother, found', hfound', hcontains⟩
        refine ⟨o, ?_, hname⟩
        split
        · exact List.mem_cons_of_mem _ ho
        · exact ho

theorem mem_sorted {index : Index} {e : String × Record} : e ∈ sorted index ↔ index.get? e.1 = some e.2 := by
  rw [sorted, (List.perm_insertionSort _ _).mem_iff, Dict.get?_eq_some]

/-- What the loop keeps: every name that was not seen before, once. -/
theorem distinct_ok : ∀ {items merged : List Item} {seen : List Key}, distinct f seen items = .ok merged →
    ∃ names : List Key, merged.map (Item.key f) = names.map Except.ok ∧ names.Nodup ∧
      ∀ key, key ∈ names ↔ key ∉ seen ∧ ∃ item ∈ items, item.key f = .ok key
  | [], merged, seen, hok => by
    cases Except.ok.inj hok
    exact ⟨[], rfl, List.nodup_nil, fun key => by simp⟩
  | item :: rest, merged, seen, hok => by
    obtain ⟨key, hkey, hok⟩ := ok_of_bind hok
    split at hok
    · rename_i hseen
      obtain ⟨names, hnames, hnodup, hmem⟩ := distinct_ok hok
      refine ⟨names, hnames, hnodup, fun other => ?_⟩
      rw [hmem, List.exists_mem_cons_iff, hkey]
      constructor
      · rintro ⟨hnew, hrest⟩
        exact ⟨hnew, .inr hrest⟩
      · rintro ⟨hnew, heq | hrest⟩
        · exact absurd (Except.ok.inj heq ▸ hseen) hnew
        · exact ⟨hnew, hrest⟩
    · rename_i hnew
      obtain ⟨more, hmore, hok⟩ := ok_of_bind hok
      obtain ⟨names, hnames, hnodup, hmem⟩ := distinct_ok hmore
      rw [← Except.ok.inj hok]
      refine ⟨key :: names, by rw [List.map_cons, List.map_cons, hkey, hnames], ?_, fun other => ?_⟩
      · rw [List.nodup_cons, hmem]
        exact ⟨fun hboth => hboth.1 (List.mem_cons_self ..), hnodup⟩
      · rw [List.mem_cons, hmem, List.exists_mem_cons_iff, hkey, List.mem_cons, not_or]
        constructor
        · rintro (rfl | ⟨⟨-, hseen⟩, hrest⟩)
          · exact ⟨hnew, .inl rfl⟩
          · exact ⟨hseen, .inr hrest⟩
        · rintro ⟨hseen, heq | hrest⟩
          · exact .inl (Except.ok.inj heq).symm
          · by_cases heq : other = key
            · exact .inl heq
            · exact .inr ⟨⟨heq, hseen⟩, hrest⟩

theorem distinct_isOk : ∀ {items : List Item} {seen : List Key},
    (distinct f seen items).isOk = true ↔ ∀ item ∈ items, (item.key f).isOk = true
  | [], seen => by simp [distinct, Except.isOk, Except.toBool]
  | item :: rest, seen => by
    rw [List.forall_mem_cons, distinct]
    simp only [Bind.bind, Except.bind]
    cases hkey : item.key f with
    | error why => simp [Except.isOk, Except.toBool]
    | ok key =>
      simp only
      by_cases hseen : key ∈ seen
      · rw [if_pos hseen, distinct_isOk]
        exact ⟨fun hrest => ⟨rfl, hrest⟩, And.right⟩
      · have ih : (distinct f (key :: seen) rest).isOk = true ↔ ∀ item ∈ rest, (item.key f).isOk = true := distinct_isOk
        rw [if_neg hseen, ← ih]
        cases distinct f (key :: seen) rest <;> simp [Except.isOk, Except.toBool, pure, Except.pure]

/-! ## One answer -/

theorem clampSearchSize_eq (size : ℕ+) : (clampSearchSize (size : ℕ)).toNat = pageSize size := by
  have hpos := size.pos
  unfold clampSearchSize searchMaxSize pageSize
  omega

theorem upstreamObjects_getD (results : Option (List Json)) (count : Nat) :
    (results.map fun found => upstreamObjects found count).getD [] = upstreamObjects (results.getD []) count := by
  cases results with
  | some found => rfl
  | none => rw [Option.map_none, Option.getD_none, Option.getD_none, upstreamObjects, List.take_nil, List.filterMap_nil]

theorem mem_upstreamObjects {results : List Json} {count : Nat} {key : Key} :
    (∃ item ∈ (upstreamObjects results count).map Item.upstream, item.key f = .ok key) ↔
      UpstreamMatch f (results.take count) key := by
  constructor
  · rintro ⟨item, hitem, hkey⟩
    obtain ⟨entries, hentries, rfl⟩ := List.mem_map.1 hitem
    obtain ⟨raw, hraw, hnamed⟩ := List.mem_filterMap.1 hentries
    exact ⟨raw, hraw, entries, hnamed, hkey⟩
  · rintro ⟨raw, hraw, entries, hnamed, hkey⟩
    exact ⟨_, List.mem_map.2 ⟨entries, List.mem_filterMap.2 ⟨raw, hraw, hnamed⟩, rfl⟩, hkey⟩

section answers

variable {index : Index} {results : Option (List Json)} {text : String} {size : ℕ+}

theorem mem_local {own : List Found} (hown : localObjects f (f.lower (Text.strip text)) (sorted index) = .ok own) {key : Key} :
    (∃ item ∈ own.map Item.own, item.key f = .ok key) ↔ LocalMatch f index text key := by
  constructor
  · rintro ⟨item, hitem, hkey⟩
    obtain ⟨o, ho, rfl⟩ := List.mem_map.1 hitem
    obtain ⟨record, hrecord, hfound⟩ := (localObjects_ok hown o.name).1 ⟨o, ho, rfl⟩
    exact ⟨o.name, record, mem_sorted.1 hrecord, (Except.ok.inj hkey).symm, hfound⟩
  · rintro ⟨name, record, hget, rfl, hfound⟩
    obtain ⟨o, ho, rfl⟩ := (localObjects_ok hown name).2 ⟨record, mem_sorted.2 hget, hfound⟩
    exact ⟨_, List.mem_map.2 ⟨o, ho, rfl⟩, rfl⟩

/-- A text that is not blank is answered with a window of what is found. -/
theorem search_eq (hne : Text.strip text ≠ "") (start : ℕ) : search f index results text (size : ℕ) start = (do
    let own ← localObjects f (f.lower (Text.strip text)) (sorted index)
    let merged ← distinct f [] (own.map Item.own ++ (upstreamObjects (results.getD []) (pageSize size)).map Item.upstream)
    return ⟨window merged (pageSize size) start, merged.length, f.host.utcNow⟩) := by
  have hstart : (max 0 (start : Int)).toNat = start := by omega
  unfold search
  simp only
  rw [if_neg hne, clampSearchSize_eq, upstreamObjects_getD, hstart]

/-- Every page is a window of one list, in which the local matches and those of the first results of the upstream are. -/
theorem search_ok {start : ℕ} {answer : Answer} (hne : Text.strip text ≠ "")
    (hok : search f index results text (size : ℕ) start = .ok answer) :
    ∃ (merged : List Item) (names : List Key),
      (∀ start : ℕ, search f index results text (size : ℕ) start =
        .ok ⟨window merged (pageSize size) start, merged.length, f.host.utcNow⟩) ∧
      merged.map (Item.key f) = names.map Except.ok ∧ names.Nodup ∧
      (∀ key, key ∈ names ↔ LocalMatch f index text key ∨ UpstreamMatch f ((results.getD []).take (pageSize size)) key) ∧
      (∀ name record, index.get? name = some record → (haystack f name record).isOk = true) ∧
      ∀ item ∈ (results.getD []).take (pageSize size), ∀ entries, named item = some entries →
        (keyOf f (nameOf entries)).isOk = true := by
  rw [search_eq hne] at hok
  obtain ⟨own, hown, hok⟩ := ok_of_bind hok
  obtain ⟨merged, hmerged, -⟩ := ok_of_bind hok
  obtain ⟨names, hnames, hnodup, hmem⟩ := distinct_ok hmerged
  have hkeys := distinct_isOk.1 (show (distinct f [] _).isOk = true by rw [hmerged]; rfl)
  have hreadable := localObjects_isOk.1 (show (localObjects f _ (sorted index)).isOk = true by rw [hown]; rfl)
  refine ⟨merged, names, fun start => ?_, hnames, hnodup, fun key => ?_, fun name record hget => ?_, fun item hitem entries hentries => ?_⟩
  · rw [search_eq hne, hown]
    simp only [Bind.bind, Except.bind]
    rw [hmerged]
    rfl
  · rw [hmem, ← mem_local hown, ← mem_upstreamObjects]
    simp only [List.not_mem_nil, not_false_eq_true, true_and, List.mem_append, or_and_right, exists_or]
  · exact hreadable (name, record) (mem_sorted.2 hget)
  · exact hkeys (.upstream entries)
      (List.mem_append.2 (.inr (List.mem_map.2 ⟨entries, List.mem_filterMap.2 ⟨item, hitem, hentries⟩, rfl⟩)))

/-- Texts that can be read and names that can be told apart are all that an answer needs. -/
theorem exists_search (hne : Text.strip text ≠ "")
    (hreadable : ∀ name record, index.get? name = some record → (haystack f name record).isOk = true)
    (hhashable : ∀ item ∈ (results.getD []).take (pageSize size), ∀ entries, named item = some entries →
      (keyOf f (nameOf entries)).isOk = true) : ∃ answer, search f index results text (size : ℕ) (0 : ℕ) = .ok answer := by
  have hown : (localObjects f (f.lower (Text.strip text)) (sorted index)).isOk = true :=
    localObjects_isOk.2 fun e he => hreadable e.1 e.2 (mem_sorted.1 he)
  rw [search_eq hne]
  cases hfound : localObjects f (f.lower (Text.strip text)) (sorted index) with
  | error why => rw [hfound] at hown; cases hown
  | ok own =>
    have hkeys : ∀ item ∈ own.map Item.own ++ (upstreamObjects (results.getD []) (pageSize size)).map Item.upstream,
        (item.key f).isOk = true := by
      intro item hitem
      rcases List.mem_append.1 hitem with hitem | hitem
      · obtain ⟨o, -, rfl⟩ := List.mem_map.1 hitem
        rfl
      · obtain ⟨entries, hentries, rfl⟩ := List.mem_map.1 hitem
        obtain ⟨raw, hraw, hnamed⟩ := List.mem_filterMap.1 hentries
        exact hhashable raw hraw entries hnamed
    have hmerged := (@distinct_isOk f _ []).2 hkeys
    simp only [Bind.bind, Except.bind]
    cases hdistinct : distinct f [] (own.map Item.own ++ (upstreamObjects (results.getD []) (pageSize size)).map Item.upstream) with
    | error why => rw [hdistinct] at hmerged; cases hmerged
    | ok merged => exact ⟨_, rfl⟩

/-! ## All the pages -/

theorem search_blank (hblank : Text.strip text = "") (start : ℕ) :
    search f index results text (size : ℕ) start = .ok ⟨[], 0, f.host.utcNow⟩ := by
  unfold search
  simp only
  rw [if_pos hblank]

/-- A blank text lists nothing. -/
theorem partitioned_blank_iff (hblank : Text.strip text = "") :
    Partitioned f index results text size ↔ ∀ key, ¬ Matches f index results text key := by
  have hstop : Collected (fun start : ℕ => (search f index results text (size : ℕ) start).map Answer.objects) size 0 [] :=
    .stop (by rw [search_blank hblank]; rfl)
  constructor
  · rintro ⟨listed, total, names, hlisted, -, hnames, -, hmem, -⟩ key hmatches
    rw [hlisted.unique hstop, List.map_nil] at hnames
    have hnil : names = [] := List.map_eq_nil_iff.1 hnames.symm
    have hkey := (hmem key).2 hmatches
    rw [hnil] at hkey
    exact absurd hkey List.not_mem_nil
  · intro hnone
    refine ⟨[], 0, [], hstop, fun start answer hok => ?_, rfl, List.nodup_nil, fun key => ?_, rfl⟩
    · rw [search_blank hblank] at hok
      rw [← Except.ok.inj hok]
    · exact ⟨fun hkey => absurd hkey List.not_mem_nil, fun hmatches => absurd hmatches (hnone key)⟩

theorem listable_of_partitioned (hne : Text.strip text ≠ "") (h : Partitioned f index results text size) :
    Listable f index results text size := by
  obtain ⟨listed, total, names, hlisted, htotal, hnames, hnodup, hmem, hcount⟩ := h
  obtain ⟨page, hpage⟩ := hlisted.answers
  cases hok : search f index results text (size : ℕ) (0 : ℕ) with
  | error why => simp only [hok] at hpage; cases hpage
  | ok answer =>
    obtain ⟨merged, found, hsearch, hfound, hfoundNodup, hfoundMem, hreadable, hhashable⟩ := search_ok hne hok
    have hwindow : ∀ start : ℕ, (search f index results text (size : ℕ) start).map Answer.objects =
        .ok (window merged (pageSize size) start) := fun start => by rw [hsearch]; rfl
    have hpos : 0 < pageSize size := by have := size.pos; unfold pageSize; omega
    have hstep : pageSize size ≤ (size : ℕ) := Nat.min_le_right ..
    have hlength : listed.length = merged.length := by
      have hlisted := congrArg List.length hnames
      rw [List.length_map, List.length_map] at hlisted
      rw [hlisted, ← hcount, ← htotal 0 _ (hsearch 0)]
    have hcomplete := (hlisted.complete_iff hwindow hpos hstep).1 hlength
    obtain ⟨listed', hlisted', hsub⟩ := collected_sublist hwindow hpos hstep 0
    rw [hlisted.unique hlisted'] at hnames hlength
    have hall : listed' = merged := by
      rw [List.drop_zero] at hsub
      exact hsub.eq_of_length hlength
    rw [hall, hfound] at hnames
    have hsame : found = names := List.map_injective_iff.2 (fun a b => Except.ok.inj) hnames
    refine ⟨hreadable, hhashable, fun key hupstream => ?_, ?_⟩
    · rw [← hfoundMem, hsame, hmem]
      exact .inr hupstream
    · rcases hcomplete with heq | hshort
      · left
        unfold pageSize at heq
        omega
      · right
        intro others hothers hmatches
        have hle := (List.subperm_of_subset hothers fun key hkey => (hmem key).2 (hmatches key hkey)).length_le
        have hmerged := congrArg List.length hfound
        rw [List.length_map, List.length_map, hsame] at hmerged
        unfold pageSize at hshort
        omega

theorem partitioned_of_listable (hne : Text.strip text ≠ "") (h : Listable f index results text size) :
    Partitioned f index results text size := by
  obtain ⟨answer, hok⟩ := exists_search hne h.readable h.hashable
  obtain ⟨merged, names, hsearch, hnames, hnodup, hmem, -, -⟩ := search_ok hne hok
  have hwindow : ∀ start : ℕ, (search f index results text (size : ℕ) start).map Answer.objects =
      .ok (window merged (pageSize size) start) := fun start => by rw [hsearch]; rfl
  have hpos : 0 < pageSize size := by have := size.pos; unfold pageSize; omega
  have hstep : pageSize size ≤ (size : ℕ) := Nat.min_le_right ..
  have hcount : merged.length = names.length := by
    have hlength := congrArg List.length hnames
    rwa [List.length_map, List.length_map] at hlength
  have hmatches : ∀ key, key ∈ names ↔ Matches f index results text key := fun key => by
    rw [hmem]
    constructor
    · rintro (hlocal | ⟨item, hitem, hrest⟩)
      · exact .inl hlocal
      · exact .inr ⟨item, List.mem_of_mem_take hitem, hrest⟩
    · rintro (hlocal | hupstream)
      · exact .inl hlocal
      · exact h.first key hupstream
  obtain ⟨listed, hlisted, hsub⟩ := collected_sublist hwindow hpos hstep 0
  have hcomplete : listed.length = merged.length := by
    rw [hlisted.complete_iff hwindow hpos hstep]
    rcases h.fits with hsize | hfew
    · left
      unfold pageSize
      omega
    · by_cases hsize : (size : ℕ) ≤ 250
      · left
        unfold pageSize
        omega
      · right
        have := hfew names hnodup fun key hkey => (hmatches key).1 hkey
        unfold pageSize
        omega
  rw [List.drop_zero] at hsub
  rw [hsub.eq_of_length hcomplete] at hlisted
  refine ⟨merged, merged.length, names, hlisted, fun start answer hanswer => ?_, hnames, hnodup, hmatches, hcount⟩
  rw [hsearch] at hanswer
  rw [← Except.ok.inj hanswer]

end answers

variable (f) in
/-- Nothing is found by a blank text, or what is found fits. -/
def Pageable (index : Index) (results : Option (List Json)) (text : String) (size : ℕ+) : Prop :=
  (Text.strip text = "" → ∀ key, ¬ Matches f index results text key) ∧
    (Text.strip text ≠ "" → Listable f index results text size)

/-- The pages of a search list every package once if and only if the upstream is never needed beyond its first results, and
no page is cut short of the next one. -/
theorem partitioned_iff_pageable (f : Finder) (index : Index) (results : Option (List Json)) (text : String) (size : ℕ+) :
    Partitioned f index results text size ↔ Pageable f index results text size := by
  by_cases hblank : Text.strip text = ""
  · rw [partitioned_blank_iff hblank]
    exact ⟨fun hnone => ⟨fun _ => hnone, fun hne => absurd hblank hne⟩, fun h => h.1 hblank⟩
  · exact ⟨fun h => ⟨fun heq => absurd heq hblank, fun _ => listable_of_partitioned hblank h⟩,
      fun h => partitioned_of_listable hblank (h.2 hblank)⟩

/-! ## Two packages and pages of one -/

/-- A finder for names that are texts. -/
def plainFinder : Finder where
  host := plainHost
  lower := Text.lower
  packageUrl name := "/npm/" ++ name
  publisher := "openfish"
  number _ := 0

/-- The upstream has two packages. -/
def twoResults : List Json :=
  [.obj [("package", .obj [("name", .str "left")])], .obj [("package", .obj [("name", .str "right")])]]

/-- The second one is on no page. -/
theorem twoResults_not_partitioned : ¬ Partitioned plainFinder .empty (some twoResults) "a" 1 := by
  intro h
  have hne : Text.strip "a" ≠ "" := by decide +kernel
  have hright : UpstreamMatch plainFinder twoResults (.text "right") :=
    ⟨_, List.mem_cons_of_mem _ (List.mem_singleton_self _), _, rfl, rfl⟩
  rcases (listable_of_partitioned hne h).first (.text "right") hright with hlocal | ⟨item, hitem, entries, hnamed, hkey⟩
  · obtain ⟨name, record, hget, -⟩ := hlocal
    cases hget
  · rw [List.mem_singleton.1 hitem] at hnamed
    rw [← Option.some.inj hnamed] at hkey
    exact absurd (Except.ok.inj hkey) (by decide)

end OpenFish.Registry
