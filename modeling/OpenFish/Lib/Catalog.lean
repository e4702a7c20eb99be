/-
Catalogs: dictionaries of lists that are kept sorted by the distinct names of their entries. What a catalog shows is
a function of key and name, and two kept catalogs that show the same are the same under every key.
-/
import Mathlib.Data.List.Sort
import OpenFish.Lib.Dict

namespace Lib

abbrev Catalog (κ ε : Type*) := Dict κ (List ε)

namespace Catalog

variable {κ ε ν : Type*} [DecidableEq κ] [LinearOrder ν] (name : ε → ν)

/-! ## Operations -/

/-- `files.sort(key=name)`. -/
def sortByName (files : List ε) : List ε := files.insertionSort fun a b => name a ≤ name b

/-- The entry takes the place of the one of its name. -/
def put (d : Catalog κ ε) (k : κ) (e : ε) : Catalog κ ε :=
  d.set k (sortByName name (((d.get? k).getD []).filter (fun f => name f ≠ name e) ++ [e]))

/-- The entry of the name goes, and its key with the last one. -/
def drop (d : Catalog κ ε) (k : κ) (n : ν) : Catalog κ ε :=
  match d.get? k with
  | none => d
  | some files =>
    let rest := files.filter fun f => name f ≠ n
    if rest.isEmpty then d.erase k else d.set k rest

/-- `d.setdefault(k, []).append(e)`. -/
def append (d : Catalog κ ε) (p : κ × ε) : Catalog κ ε := d.set p.1 ((d.get? p.1).getD [] ++ [p.2])

/-- The entries grouped by their keys, and every group sorted. -/
def group (entries : List (κ × ε)) : Catalog κ ε :=
  (entries.foldl append Dict.empty).mapVals fun _ => sortByName name

/-- Whole lists under their keys, the empty ones left out. -/
def collect (lists : List (κ × List ε)) : Catalog κ ε :=
  lists.foldl (fun d p => if p.2.isEmpty then d else d.set p.1 (sortByName name p.2)) Dict.empty

/-- The entry that stands under a key and a name. -/
def view (d : Catalog κ ε) (k : κ) (n : ν) : Option ε := (d.get? k).bind fun files => files.find? fun e => name e = n

/-! ## Kept catalogs -/

/-- Every list has entries, in the strict order of their names. -/
def Kept (d : Catalog κ ε) : Prop :=
  ∀ k files, d.get? k = some files → files ≠ [] ∧ files.Pairwise fun a b => name a < name b

variable {name} {d : Catalog κ ε} {k k' : κ} {n n' : ν} {e e' : ε}

theorem mem_sortByName {files : List ε} : e ∈ sortByName name files ↔ e ∈ files := List.mem_insertionSort _

theorem sortByName_pairwise {files : List ε} (h : files.Pairwise fun a b => name a ≠ name b) :
    (sortByName name files).Pairwise fun a b => name a < name b := by
  have : Std.Total fun a b : ε => name a ≤ name b := ⟨fun a b => le_total (name a) (name b)⟩
  have : IsTrans ε fun a b => name a ≤ name b := ⟨fun a b c => le_trans⟩
  have hle : (sortByName name files).Pairwise fun a b => name a ≤ name b := List.pairwise_insertionSort _ files
  have hne : (sortByName name files).Pairwise fun a b => name a ≠ name b :=
    ((List.perm_insertionSort _ files).pairwise_iff fun h => Ne.symm h).2 h
  exact hle.imp₂ (fun _ _ hab hne => lt_of_le_of_ne hab hne) hne

theorem pairwise_ne_of_lt {files : List ε} (h : files.Pairwise fun a b => name a < name b) :
    files.Pairwise fun a b => name a ≠ name b := h.imp ne_of_lt

theorem Kept.unique (h : Kept name d) {files : List ε} (hget : d.get? k = some files) (he : e ∈ files) (he' : e' ∈ files)
    (hname : name e = name e') : e = e' := by
  have hnodup : (files.map name).Nodup := List.pairwise_map.2 (pairwise_ne_of_lt (h k files hget).2)
  exact List.inj_on_of_nodup_map hnodup he he' hname

/-- What a kept catalog shows under a key and a name. -/
theorem Kept.view_eq_some (h : Kept name d) :
    view name d k n = some e ↔ ∃ files, d.get? k = some files ∧ e ∈ files ∧ name e = n := by
  rw [view, Option.bind_eq_some_iff]
  constructor
  · rintro ⟨files, hget, hfind⟩
    exact ⟨files, hget, List.mem_of_find?_eq_some hfind, by simpa using List.find?_some hfind⟩
  · rintro ⟨files, hget, he, hname⟩
    refine ⟨files, hget, ?_⟩
    cases hfind : files.find? (fun e => name e = n) with
    | none => simpa [hname] using List.find?_eq_none.1 hfind e he
    | some e' =>
      have hname' : name e' = n := by simpa using List.find?_some hfind
      rw [h.unique hget he (List.mem_of_find?_eq_some hfind) (hname.trans hname'.symm)]

/-- Kept catalogs that show the same hold the same lists. -/
theorem Kept.ext {d' : Catalog κ ε} (h : Kept name d) (h' : Kept name d') (hview : ∀ k n, view name d k n = view name d' k n)
    (k : κ) : d.get? k = d'.get? k := by
  have hmem : ∀ {d d' : Catalog κ ε}, Kept name d → Kept name d' → (∀ n, view name d k n = view name d' k n) →
      ∀ {files}, d.get? k = some files → ∃ files', d'.get? k = some files' ∧ ∀ e ∈ files, e ∈ files' := by
    intro d d' h h' hview files hget
    have hin : ∀ e ∈ files, ∃ files', d'.get? k = some files' ∧ e ∈ files' := by
      intro e he
      have := h.view_eq_some.2 ⟨files, hget, he, rfl⟩
      rw [hview] at this
      obtain ⟨files', hget', he', -⟩ := h'.view_eq_some.1 this
      exact ⟨files', hget', he'⟩
    obtain ⟨e, he⟩ := List.exists_mem_of_ne_nil files (h k files hget).1
    obtain ⟨files', hget', -⟩ := hin e he
    refine ⟨files', hget', fun e he => ?_⟩
    obtain ⟨files'', hget'', he'⟩ := hin e he
    rw [hget'] at hget''
    cases hget''
    exact he'
  cases hget : d.get? k with
  | none =>
    cases hget' : d'.get? k with
    | none => rfl
    | some files' =>
      obtain ⟨files, hfiles, -⟩ := hmem h' h (fun n => (hview k n).symm) hget'
      rw [hget] at hfiles
      cases hfiles
  | some files =>
    obtain ⟨files', hget', hsub⟩ := hmem h h' (hview k) hget
    obtain ⟨files'', hget'', hsub'⟩ := hmem h' h (fun n => (hview k n).symm) hget'
    rw [hget] at hget''
    cases hget''
    rw [hget']
    have : Std.Irrefl fun a b : ε => name a < name b := ⟨fun a => lt_irrefl (name a)⟩
    rw [List.Pairwise.eq_of_mem_iff (h k files hget).2 (h' k files' hget').2 fun e => ⟨hsub e, hsub' e⟩]

/-! ## What the operations show -/

theorem kept_set (h : Kept name d) {files : List ε} (hne : files ≠ []) (hsorted : files.Pairwise fun a b => name a < name b) :
    Kept name (d.set k files) := by
  intro k' files' hget
  rw [Dict.get?_set] at hget
  split at hget
  · cases hget; exact ⟨hne, hsorted⟩
  · exact h k' files' hget

theorem kept_put (h : Kept name d) : Kept name (put name d k e) := by
  refine kept_set h ?_ (sortByName_pairwise ?_)
  · exact List.ne_nil_of_mem (mem_sortByName.2 (List.mem_append_right _ (List.mem_singleton_self e)))
  · refine List.pairwise_append.2 ⟨?_, List.pairwise_singleton _ _, fun a ha b hb => ?_⟩
    · cases hget : d.get? k with
      | none => exact List.Pairwise.nil
      | some files => exact (pairwise_ne_of_lt (h k files hget).2).filter _
    · rw [List.mem_singleton.1 hb]
      simpa using List.of_mem_filter ha

/-- A put shows the entry in its place, and leaves the rest. -/
theorem view_put (h : Kept name d) :
    view name (put name d k e) k' n' = if k' = k ∧ n' = name e then some e else view name d k' n' := by
  ext e'
  have hput : ∀ files, (put name d k e).get? k' = some files ↔ if k' = k then
      sortByName name (((d.get? k).getD []).filter (fun f => name f ≠ name e) ++ [e]) = files else d.get? k' = some files := by
    intro files
    rw [put, Dict.get?_set]
    split
    · exact Option.some_inj
    · exact Iff.rfl
  have hin : ∀ {e'}, e' ∈ (d.get? k).getD [] ↔ ∃ files, d.get? k = some files ∧ e' ∈ files := by
    intro e'
    cases d.get? k with
    | none => simp
    | some files => simp
  rw [(kept_put h).view_eq_some]
  simp only [hput]
  by_cases hk : k' = k
  · subst hk
    simp only [if_true, exists_eq_left', mem_sortByName, List.mem_append, List.mem_filter, List.mem_singleton, true_and,
      decide_eq_true_eq, hin]
    split
    · rename_i hn
      subst hn
      constructor
      · rintro ⟨(⟨-, hne⟩ | rfl), hname⟩
        · exact absurd hname hne
        · rfl
      · intro heq
        cases heq
        exact ⟨.inr rfl, rfl⟩
    · rename_i hn
      rw [h.view_eq_some]
      constructor
      · rintro ⟨(⟨⟨files, hget, he'⟩, -⟩ | rfl), hname⟩
        · exact ⟨files, hget, he', hname⟩
        · exact absurd hname.symm hn
      · rintro ⟨files, hget, he', hname⟩
        exact ⟨.inl ⟨⟨files, hget, he'⟩, fun heq => hn (hname.symm.trans heq)⟩, hname⟩
  · simp only [hk, if_false, false_and]
    exact h.view_eq_some.symm

theorem kept_drop (h : Kept name d) : Kept name (drop name d k n) := by
  unfold drop
  split
  · exact h
  · rename_i files hget
    dsimp only
    split
    · intro k' files' hget'
      rw [Dict.get?_erase] at hget'
      split at hget'
      · cases hget'
      · exact h k' files' hget'
    · rename_i hne
      refine kept_set h (fun hnil => hne (List.isEmpty_iff.2 hnil)) ((h k files hget).2.filter _)

/-- A drop takes the entry away, and leaves the rest. -/
theorem view_drop (h : Kept name d) :
    view name (drop name d k n) k' n' = if k' = k ∧ n' = n then none else view name d k' n' := by
  ext e'
  have hdrop : (∃ files, (drop name d k n).get? k' = some files ∧ e' ∈ files ∧ name e' = n') ↔
      (∃ files, d.get? k' = some files ∧ e' ∈ files ∧ name e' = n') ∧ ¬ (k' = k ∧ n' = n) := by
    unfold drop
    cases hget : d.get? k with
    | none =>
      dsimp only
      refine ⟨fun hex => ⟨hex, ?_⟩, fun hex => hex.1⟩
      rintro ⟨rfl, -⟩
      obtain ⟨files, hfiles, -⟩ := hex
      rw [hget] at hfiles
      cases hfiles
    | some files =>
      dsimp only
      by_cases hk : k' = k
      · subst hk
        simp only [true_and, hget, Option.some_inj, exists_eq_left']
        split
        · rename_i hempty
          rw [Dict.get?_erase, if_pos rfl]
          refine iff_of_false (by rintro ⟨_, h, -⟩; cases h) ?_
          rintro ⟨⟨he', hname⟩, hn⟩
          have : e' ∈ files.filter fun f => name f ≠ n :=
            List.mem_filter.2 ⟨he', decide_eq_true fun heq => hn (hname.symm.trans heq)⟩
          rw [List.isEmpty_iff.1 hempty] at this
          exact List.not_mem_nil this
        · rw [Dict.get?_set, if_pos rfl]
          simp only [Option.some_inj, exists_eq_left', List.mem_filter, decide_eq_true_eq]
          constructor
          · rintro ⟨⟨he', hne⟩, hname⟩
            exact ⟨⟨he', hname⟩, fun hn => hne (hname.trans hn)⟩
          · rintro ⟨⟨he', hname⟩, hn⟩
            exact ⟨⟨he', fun heq => hn (hname.symm.trans heq)⟩, hname⟩
      · simp only [hk, false_and, not_false_eq_true, and_true]
        split
        · rw [Dict.get?_erase, if_neg hk]
        · rw [Dict.get?_set, if_neg hk]
  rw [(kept_drop h).view_eq_some, hdrop]
  split
  · rename_i hin
    exact iff_of_false (fun hex => hex.2 hin) (by rintro ⟨⟩)
  · rename_i hin
    rw [h.view_eq_some, and_iff_left hin]

/-! ## What the scans show -/

theorem get?_foldl_append (entries : List (κ × ε)) (d : Catalog κ ε) (k : κ) :
    (entries.foldl append d).get? k =
      if (entries.filter fun p => p.1 = k) = [] then d.get? k
      else some ((d.get? k).getD [] ++ (entries.filter fun p => p.1 = k).map Prod.snd) := by
  induction entries generalizing d with
  | nil => rfl
  | cons p entries ih =>
    rw [List.foldl_cons, ih, append, Dict.get?_set]
    by_cases hk : p.1 = k
    · rw [List.filter_cons_of_pos (by simpa using hk), if_pos hk.symm, if_neg (List.cons_ne_nil _ _), hk]
      split
      · rename_i hnil
        rw [hnil]
        rfl
      · rw [Option.getD_some, List.map_cons, List.append_assoc, List.singleton_append]
    · have hk' : ¬ k = p.1 := fun h => hk h.symm
      rw [List.filter_cons_of_neg (by simpa using hk), if_neg hk']

theorem get?_group (entries : List (κ × ε)) (k : κ) :
    (group name entries).get? k = if (entries.filter fun p => p.1 = k) = [] then none
      else some (sortByName name ((entries.filter fun p => p.1 = k).map Prod.snd)) := by
  rw [group, Dict.get?_mapVals, get?_foldl_append]
  split
  · rfl
  · rw [Option.map_some, Dict.get?_empty, Option.getD_none, List.nil_append]

/-- No two entries of the same name have the same key. -/
def Apart (name : ε → ν) (entries : List (κ × ε)) : Prop := entries.Pairwise fun p q => p.1 = q.1 → name p.2 ≠ name q.2

theorem kept_group {entries : List (κ × ε)} (h : Apart name entries) : Kept name (group name entries) := by
  intro k files hget
  rw [get?_group] at hget
  split at hget
  · cases hget
  · rename_i hne
    cases hget
    constructor
    · obtain ⟨p, hp⟩ := List.exists_mem_of_ne_nil _ hne
      exact List.ne_nil_of_mem (mem_sortByName.2 (List.mem_map_of_mem hp))
    · refine sortByName_pairwise (List.pairwise_map.2 ?_)
      refine (List.Pairwise.filter _ h).imp_of_mem fun {p q} hp hq hpq => hpq ?_
      have hp : p.1 = k := by simpa using List.of_mem_filter hp
      have hq : q.1 = k := by simpa using List.of_mem_filter hq
      rw [hp, hq]

theorem view_group {entries : List (κ × ε)} (h : Apart name entries) :
    view name (group name entries) k n = some e ↔ (k, e) ∈ entries ∧ name e = n := by
  rw [(kept_group h).view_eq_some]
  constructor
  · rintro ⟨files, hget, he, hname⟩
    rw [get?_group] at hget
    split at hget
    · cases hget
    · cases hget
      obtain ⟨p, hp, rfl⟩ := List.mem_map.1 (mem_sortByName.1 he)
      obtain ⟨hp, hk⟩ := List.mem_filter.1 hp
      rw [decide_eq_true_eq] at hk
      rw [← hk]
      exact ⟨hp, hname⟩
  · rintro ⟨hin, hname⟩
    have hmem : (k, e) ∈ entries.filter fun p => p.1 = k := List.mem_filter.2 ⟨hin, decide_eq_true rfl⟩
    refine ⟨sortByName name ((entries.filter fun p => p.1 = k).map Prod.snd), ?_,
      mem_sortByName.2 (List.mem_map.2 ⟨(k, e), hmem, rfl⟩), hname⟩
    rw [get?_group, if_neg (List.ne_nil_of_mem hmem)]

theorem get?_foldl_collect {lists : List (κ × List ε)} (hnodup : (lists.map Prod.fst).Nodup) (d : Catalog κ ε)
    (hfresh : ∀ p ∈ lists, d.get? p.1 = none) (files : List ε) :
    (lists.foldl (fun d p => if p.2.isEmpty then d else d.set p.1 (sortByName name p.2)) d).get? k = some files ↔
      d.get? k = some files ∨ ∃ list, (k, list) ∈ lists ∧ list ≠ [] ∧ sortByName name list = files := by
  induction lists generalizing d with
  | nil => simp
  | cons p lists ih =>
    rw [List.map_cons, List.nodup_cons] at hnodup
    have hp := hfresh p (List.mem_cons_self ..)
    have hother : ∀ q ∈ lists, q.1 ≠ p.1 := fun q hq heq => hnodup.1 (heq ▸ List.mem_map_of_mem hq)
    rw [List.foldl_cons]
    by_cases hempty : p.2.isEmpty = true
    · rw [if_pos hempty, ih hnodup.2 d fun q hq => hfresh q (List.mem_cons_of_mem _ hq)]
      refine or_congr_right ⟨?_, ?_⟩
      · rintro ⟨list, hlist, hne⟩
        exact ⟨list, List.mem_cons_of_mem _ hlist, hne⟩
      · rintro ⟨list, hlist, hne, heq⟩
        rcases List.mem_cons.1 hlist with hlist | hlist
        · rw [← hlist] at hempty
          exact absurd (List.isEmpty_iff.1 hempty) hne
        · exact ⟨list, hlist, hne, heq⟩
    · rw [if_neg hempty, ih hnodup.2 _ fun q hq => by
        rw [Dict.get?_set, if_neg (hother q hq)]
        exact hfresh q (List.mem_cons_of_mem _ hq), Dict.get?_set]
      constructor
      · rintro (hget | ⟨list, hlist, hne⟩)
        · split at hget
          · rename_i hk
            cases hget
            refine .inr ⟨p.2, ?_, fun hnil => hempty (List.isEmpty_iff.2 hnil), rfl⟩
            rw [hk]
            exact List.mem_cons_self ..
          · exact .inl hget
        · exact .inr ⟨list, List.mem_cons_of_mem _ hlist, hne⟩
      · rintro (hget | ⟨list, hlist, hne, heq⟩)
        · refine .inl ?_
          split
          · rename_i hk
            rw [hk, hp] at hget
            cases hget
          · exact hget
        · rcases List.mem_cons.1 hlist with hlist | hlist
          · subst hlist
            exact .inl (by rw [if_pos rfl, heq])
          · exact .inr ⟨list, hlist, hne, heq⟩

theorem get?_collect {lists : List (κ × List ε)} (hnodup : (lists.map Prod.fst).Nodup) {files : List ε} :
    (collect name lists).get? k = some files ↔ ∃ list, (k, list) ∈ lists ∧ list ≠ [] ∧ sortByName name list = files := by
  rw [collect, get?_foldl_collect hnodup Dict.empty (fun _ _ => rfl) files, Dict.get?_empty]
  simp

theorem kept_collect {lists : List (κ × List ε)} (hnodup : (lists.map Prod.fst).Nodup)
    (h : ∀ p ∈ lists, p.2.Pairwise fun a b => name a ≠ name b) : Kept name (collect name lists) := by
  intro k files hget
  obtain ⟨list, hlist, hne, rfl⟩ := (get?_collect hnodup).1 hget
  obtain ⟨e, he⟩ := List.exists_mem_of_ne_nil list hne
  exact ⟨List.ne_nil_of_mem (mem_sortByName.2 he), sortByName_pairwise (h _ hlist)⟩

theorem view_collect {lists : List (κ × List ε)} (hnodup : (lists.map Prod.fst).Nodup)
    (h : ∀ p ∈ lists, p.2.Pairwise fun a b => name a ≠ name b) :
    view name (collect name lists) k n = some e ↔ ∃ list, (k, list) ∈ lists ∧ e ∈ list ∧ name e = n := by
  rw [(kept_collect hnodup h).view_eq_some]
  constructor
  · rintro ⟨files, hget, he, hname⟩
    obtain ⟨list, hlist, -, rfl⟩ := (get?_collect hnodup).1 hget
    exact ⟨list, hlist, mem_sortByName.1 he, hname⟩
  · rintro ⟨list, hlist, he, hname⟩
    exact ⟨_, (get?_collect hnodup).2 ⟨list, hlist, List.ne_nil_of_mem he, rfl⟩, mem_sortByName.2 he, hname⟩

/-! ## Entries replaced by others of the same name -/

theorem kept_mapEntries (h : Kept name d) {f : ε → ε} (hname : ∀ e, name (f e) = name e) :
    Kept name (d.mapVals fun _ files => files.map f) := by
  intro k files hget
  rw [Dict.get?_mapVals] at hget
  obtain ⟨list, hlist, rfl⟩ := Option.map_eq_some_iff.1 hget
  refine ⟨fun hnil => (h k list hlist).1 (List.map_eq_nil_iff.1 hnil), List.pairwise_map.2 ?_⟩
  exact (h k list hlist).2.imp fun hlt => by rwa [hname, hname]

theorem view_mapEntries {f : ε → ε} (hname : ∀ e, name (f e) = name e) :
    view name (d.mapVals fun _ files => files.map f) k n = (view name d k n).map f := by
  rw [view, view, Dict.get?_mapVals]
  cases d.get? k with
  | none => rfl
  | some files =>
    rw [Option.map_some, Option.bind_some, Option.bind_some, List.find?_map]
    simp only [Function.comp_def, hname]

end Catalog

end Lib
