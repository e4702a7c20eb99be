/-
Dictionaries that keep the order of their keys, as Python's `dict` does: look-up, assignment in
place or at the end, deletion, and what they do to look-up and membership.
-/
import Mathlib.Data.List.Nodup
import Mathlib.Tactic.Common

namespace Lib

/-- Entries with distinct keys, in the order the keys were first assigned. -/
structure Dict (κ ν : Type*) where
  entries : List (κ × ν)
  nodup : (entries.map Prod.fst).Nodup

namespace Dict

variable {κ ν : Type*}

@[ext] theorem ext {d e : Dict κ ν} (h : d.entries = e.entries) : d = e := by
  cases d; cases e; cases h; rfl

/-! ## Operations -/

def empty : Dict κ ν := ⟨[], List.nodup_nil⟩

/-- The entries that meet `p`. -/
def keep (d : Dict κ ν) (p : κ → ν → Bool) : Dict κ ν where
  entries := d.entries.filter fun e => p e.1 e.2
  nodup := d.nodup.sublist (List.filter_sublist.map _)

/-- Every value replaced, the keys as they are. -/
def mapVals (d : Dict κ ν) (f : κ → ν → ν) : Dict κ ν where
  entries := d.entries.map fun e => (e.1, f e.1 e.2)
  nodup := by
    rw [List.map_map]
    exact d.nodup

variable [DecidableEq κ]

/-- `d.get(k)`. -/
def get? (d : Dict κ ν) (k : κ) : Option ν := (d.entries.find? fun e => e.1 = k).map Prod.snd

/-- `d.pop(k, None)`. -/
def erase (d : Dict κ ν) (k : κ) : Dict κ ν := d.keep fun k' _ => k' ≠ k

/-- `d[k] = v`. -/
def set (d : Dict κ ν) (k : κ) (v : ν) : Dict κ ν :=
  if h : k ∈ d.entries.map Prod.fst then d.mapVals fun k' v' => if k' = k then v else v'
  else
    { entries := d.entries ++ [(k, v)]
      nodup := by
        rw [List.map_append, List.nodup_append]
        refine ⟨d.nodup, List.nodup_singleton _, ?_⟩
        intro a ha b hb hab
        rw [List.map_singleton, List.mem_singleton] at hb
        rw [hab, hb] at ha
        exact h ha }

/-! ## Look-up -/

omit [DecidableEq κ] in
theorem mem_unique {d : Dict κ ν} {k : κ} {v v' : ν} (h : (k, v) ∈ d.entries) (h' : (k, v') ∈ d.entries) : v = v' :=
  congrArg Prod.snd (List.inj_on_of_nodup_map d.nodup h h' rfl)

theorem get?_eq_some {d : Dict κ ν} {k : κ} {v : ν} : d.get? k = some v ↔ (k, v) ∈ d.entries := by
  unfold get?
  constructor
  · intro h
    obtain ⟨⟨k', v'⟩, hf, rfl⟩ := Option.map_eq_some_iff.1 h
    have hk : k' = k := by simpa using List.find?_some hf
    exact hk ▸ List.mem_of_find?_eq_some hf
  · intro h
    cases hf : d.entries.find? (fun e => e.1 = k) with
    | none => simpa using List.find?_eq_none.1 hf _ h
    | some e =>
      have hk : e.1 = k := by simpa using List.find?_some hf
      have he : (k, e.2) ∈ d.entries := by rw [← hk]; exact List.mem_of_find?_eq_some hf
      rw [Option.map_some, mem_unique he h]

theorem get?_eq_none {d : Dict κ ν} {k : κ} : d.get? k = none ↔ k ∉ d.entries.map Prod.fst := by
  rw [Option.eq_none_iff_forall_ne_some]
  simp only [ne_eq, get?_eq_some, List.mem_map, Prod.exists, exists_and_right, exists_eq_right, not_exists]

@[simp] theorem get?_empty (k : κ) : (empty : Dict κ ν).get? k = none := rfl

theorem get?_keep (d : Dict κ ν) (p : κ → ν → Bool) (k : κ) :
    (d.keep p).get? k = (d.get? k).filter (p k) := by
  ext v
  rw [get?_eq_some, Option.filter_eq_some_iff, get?_eq_some]
  exact List.mem_filter

theorem get?_erase (d : Dict κ ν) (k k' : κ) : (d.erase k).get? k' = if k' = k then none else d.get? k' := by
  rw [erase, get?_keep]
  by_cases h : k' = k
  · simp [h]
  · rw [if_neg h]
    cases d.get? k' with
    | none => rfl
    | some v => simp [h]

theorem get?_mapVals (d : Dict κ ν) (f : κ → ν → ν) (k : κ) : (d.mapVals f).get? k = (d.get? k).map (f k) := by
  ext v
  rw [get?_eq_some, Option.map_eq_some_iff]
  simp only [mapVals, List.mem_map, Prod.exists, Prod.mk.injEq, get?_eq_some]
  constructor
  · rintro ⟨k', v', h, rfl, rfl⟩; exact ⟨v', h, rfl⟩
  · rintro ⟨v', h, rfl⟩; exact ⟨k, v', h, rfl, rfl⟩

theorem get?_set (d : Dict κ ν) (k k' : κ) (v : ν) : (d.set k v).get? k' = if k' = k then some v else d.get? k' := by
  unfold set
  split
  · rename_i hk
    rw [get?_mapVals]
    by_cases h : k' = k
    · subst h
      cases hg : d.get? k' with
      | none => exact absurd hk (get?_eq_none.1 hg)
      | some v' => simp
    · simp [h]
  · rename_i hk
    by_cases h : k' = k
    · subst h
      rw [if_pos rfl]
      exact get?_eq_some.2 (List.mem_append_right _ (List.mem_singleton_self _))
    · rw [if_neg h]
      ext v'
      rw [get?_eq_some, get?_eq_some]
      simp [h]

/-- The keys stay in their order, and a new one comes last. -/
theorem keys_set (d : Dict κ ν) (k : κ) (v : ν) : (d.set k v).entries.map Prod.fst =
    if k ∈ d.entries.map Prod.fst then d.entries.map Prod.fst else d.entries.map Prod.fst ++ [k] := by
  unfold set
  split
  · rw [mapVals, List.map_map]
    rfl
  · rw [List.map_append, List.map_singleton]

/-- An entry after an assignment is the assigned one, or an old one. -/
theorem mem_set {d : Dict κ ν} {k k' : κ} {v v' : ν} (h : (k', v') ∈ (d.set k v).entries) :
    k' = k ∧ v' = v ∨ (k', v') ∈ d.entries := by
  have hget := get?_eq_some.2 h
  rw [get?_set] at hget
  split at hget
  · exact .inl ⟨‹_›, (Option.some.inj hget).symm⟩
  · exact .inr (get?_eq_some.1 hget)

/-- The entries of a dictionary, assigned one after another, make the dictionary again. -/
theorem foldl_set_entries (d : Dict κ ν) : d.entries.foldl (fun d' e => d'.set e.1 e.2) empty = d := by
  have hfold : ∀ (l : List (κ × ν)) (acc : Dict κ ν), ((acc.entries ++ l).map Prod.fst).Nodup →
      (l.foldl (fun d' e => d'.set e.1 e.2) acc).entries = acc.entries ++ l := by
    intro l
    induction l with
    | nil => exact fun acc _ => (List.append_nil _).symm
    | cons e l ih =>
      intro acc hnodup
      have hnew : e.1 ∉ acc.entries.map Prod.fst := by
        rw [List.map_append, List.map_cons] at hnodup
        exact fun hmem => (List.nodup_append.1 hnodup).2.2 _ hmem _ (List.mem_cons_self ..) rfl
      have hset : (acc.set e.1 e.2).entries = acc.entries ++ [e] := by
        rw [set, dif_neg hnew]
      rw [List.foldl_cons, ih, hset, List.append_assoc, List.singleton_append]
      rw [hset, List.append_assoc, List.singleton_append]
      exact hnodup
  exact ext ((hfold d.entries empty (by simpa [empty] using d.nodup)).trans (List.nil_append _))

/-- Assignments of what each key determines. -/
theorem get?_foldl_set (f : κ → ν) : ∀ (keys : List κ) (d : Dict κ ν) (k : κ),
    (keys.foldl (fun d' k' => d'.set k' (f k')) d).get? k = if k ∈ keys then some (f k) else d.get? k
  | [], _, _ => (if_neg List.not_mem_nil).symm
  | k' :: keys, d, k => by
    rw [List.foldl_cons, get?_foldl_set f keys (d.set k' (f k')) k, get?_set]
    by_cases hmem : k ∈ keys
    · rw [if_pos hmem, if_pos (List.mem_cons_of_mem _ hmem)]
    · rw [if_neg hmem]
      by_cases heq : k = k'
      · subst heq
        rw [if_pos rfl, if_pos (List.mem_cons_self ..)]
      · rw [if_neg heq, if_neg fun hcons => (List.mem_cons.1 hcons).elim heq hmem]

section lookup

variable [BEq κ] [LawfulBEq κ]

omit [DecidableEq κ] in
theorem lookup_eq_some {k : κ} {v : ν} : ∀ {l : List (κ × ν)}, (l.map Prod.fst).Nodup →
    (l.lookup k = some v ↔ (k, v) ∈ l)
  | [], _ => by simp
  | (k', v') :: l, hnodup => by
    obtain ⟨hnew, hnodup⟩ := List.nodup_cons.1 hnodup
    by_cases heq : k = k'
    · subst heq
      rw [List.lookup_cons_self]
      have hrest : (k, v) ∉ l := fun hmem => hnew (List.mem_map.2 ⟨(k, v), hmem, rfl⟩)
      simp [hrest, eq_comm]
    · rw [List.lookup_cons, beq_false_of_ne heq, lookup_eq_some hnodup]
      simp [heq]

theorem lookup_entries (d : Dict κ ν) (k : κ) : d.entries.lookup k = d.get? k := by
  ext v
  rw [lookup_eq_some d.nodup, get?_eq_some]

omit [DecidableEq κ] in
theorem lookup_filter {l : List (κ × ν)} (hnodup : (l.map Prod.fst).Nodup) (p : ν → Bool) (k : κ) :
    (l.filter fun e => p e.2).lookup k = (l.lookup k).filter p := by
  ext v
  rw [lookup_eq_some (hnodup.sublist (List.filter_sublist.map _)), List.mem_filter, Option.filter_eq_some_iff,
    lookup_eq_some hnodup]

/-- A look-up in what a list of the entries, in whatever order, keeps of them. -/
theorem lookup_filterMap {ω : Type*} {d : Dict κ ν} {l : List (κ × ν)} (hperm : l.Perm d.entries) (f : κ → ν → Option ω)
    (k : κ) : (l.filterMap fun e => (f e.1 e.2).map (Prod.mk e.1)).lookup k = (d.get? k).bind (f k) := by
  have hkeys : ((l.filterMap fun e => (f e.1 e.2).map (Prod.mk e.1)).map Prod.fst).Nodup := by
    have hsub : ∀ l' : List (κ × ν),
        ((l'.filterMap fun e => (f e.1 e.2).map (Prod.mk e.1)).map Prod.fst).Sublist (l'.map Prod.fst) := by
      intro l'
      induction l' with
      | nil => exact List.Sublist.slnil
      | cons e l' ih =>
        rw [List.filterMap_cons]
        cases f e.1 e.2 with
        | none => exact ih.cons e.1
        | some w => exact ih.cons_cons e.1
    exact ((hperm.map _).nodup_iff.2 d.nodup).sublist (hsub l)
  ext w
  rw [lookup_eq_some hkeys, List.mem_filterMap, Option.bind_eq_some_iff]
  constructor
  · rintro ⟨⟨k', v⟩, hmem, heq⟩
    obtain ⟨w', hw, heq⟩ := Option.map_eq_some_iff.1 heq
    cases heq
    exact ⟨v, get?_eq_some.2 (hperm.mem_iff.1 hmem), hw⟩
  · rintro ⟨v, hv, hw⟩
    refine ⟨(k, v), hperm.mem_iff.2 (get?_eq_some.1 hv), ?_⟩
    rw [hw]
    rfl

end lookup

theorem keep_of_forall {d : Dict κ ν} {p : κ → ν → Bool} (h : ∀ k v, d.get? k = some v → p k v = true) :
    d.keep p = d :=
  ext (List.filter_eq_self.2 fun e he => h e.1 e.2 (get?_eq_some.2 he))

/-! ## Entries written one after another -/

/-- `d[k] = f(k, a, d.get(k))` for each entry of a list, up to one that fails. -/
def writeAll {α ε : Type*} (f : κ → α → Option ν → Except ε ν) : List (κ × α) → Dict κ ν → Except ε (Dict κ ν)
  | [], d => .ok d
  | (k, a) :: rest, d =>
    match f k a (d.get? k) with
    | .error e => .error e
    | .ok v => writeAll f rest (d.set k v)

/-- When no key is written twice, all is written exactly if each entry alone can be. -/
theorem writeAll_isOk {α ε : Type*} {f : κ → α → Option ν → Except ε ν} : ∀ {l : List (κ × α)} {d : Dict κ ν},
    (l.map Prod.fst).Nodup → ((∃ d', writeAll f l d = .ok d') ↔ ∀ e ∈ l, ∃ v, f e.1 e.2 (d.get? e.1) = .ok v)
  | [], d, _ => ⟨fun _ _ he => absurd he List.not_mem_nil, fun _ => ⟨d, rfl⟩⟩
  | (k, a) :: rest, d, hnodup => by
    obtain ⟨hnew, hnodup⟩ := List.nodup_cons.1 hnodup
    rw [writeAll, List.forall_mem_cons]
    cases hv : f k a (d.get? k) with
    | error e => simp
    | ok v =>
      have hrest : ∀ e ∈ rest, (d.set k v).get? e.1 = d.get? e.1 := by
        intro e he
        have hne : e.1 ≠ k := by
          rintro rfl
          exact hnew (List.mem_map.2 ⟨e, he, rfl⟩)
        rw [get?_set, if_neg hne]
      rw [and_iff_right ⟨v, rfl⟩]
      refine (writeAll_isOk hnodup).trans (forall₂_congr fun e he => ?_)
      rw [hrest e he]

/-- What stands under a key once all is written. -/
theorem get?_writeAll {α ε : Type*} {f : κ → α → Option ν → Except ε ν} : ∀ {l : List (κ × α)} {d d' : Dict κ ν},
    (l.map Prod.fst).Nodup → writeAll f l d = .ok d' →
      (∀ k a, (k, a) ∈ l → ∃ v, f k a (d.get? k) = .ok v ∧ d'.get? k = some v) ∧
        ∀ k, k ∉ l.map Prod.fst → d'.get? k = d.get? k
  | [], d, d', _, h => by
    cases h
    exact ⟨fun _ _ he => absurd he List.not_mem_nil, fun _ _ => rfl⟩
  | (k, a) :: rest, d, d', hnodup, h => by
    obtain ⟨hnew, hnodup⟩ := List.nodup_cons.1 hnodup
    rw [writeAll] at h
    split at h
    · cases h
    · rename_i v hv
      obtain ⟨hin, hout⟩ := get?_writeAll hnodup h
      have hset : ∀ k', k' ≠ k → (d.set k v).get? k' = d.get? k' := fun k' hne => by rw [get?_set, if_neg hne]
      refine ⟨fun k' a' he => ?_, fun k' hk' => ?_⟩
      · rcases List.mem_cons.1 he with heq | hrest
        · cases heq
          exact ⟨v, hv, by rw [hout k hnew, get?_set, if_pos rfl]⟩
        · have hne : k' ≠ k := by
            rintro rfl
            exact hnew (List.mem_map.2 ⟨(k', a'), hrest, rfl⟩)
          rw [← hset k' hne]
          exact hin k' a' hrest
      · rw [List.map_cons, List.mem_cons, not_or] at hk'
        rw [hout k' hk'.2, hset k' hk'.1]

/-! ## Many at once -/

/-- `d.update(entries)`. -/
def update (d : Dict κ ν) (entries : List (κ × ν)) : Dict κ ν := entries.foldl (fun d' e => d'.set e.1 e.2) d

theorem get?_update (d : Dict κ ν) (entries : List (κ × ν)) (k : κ) :
    (d.update entries).get? k = ((entries.reverse.find? fun e => e.1 = k).map Prod.snd).or (d.get? k) := by
  unfold update
  induction entries generalizing d with
  | nil => rfl
  | cons e entries ih =>
    rw [List.foldl_cons, ih, List.reverse_cons, List.find?_append, get?_set]
    cases entries.reverse.find? fun e => e.1 = k with
    | some found => rfl
    | none =>
      by_cases heq : e.1 = k
      · simp [heq]
      · simp [heq, Ne.symm heq]

/-- Every value replaced by one of another type. -/
def image {ω : Type*} (d : Dict κ ν) (f : κ → ν → ω) : Dict κ ω where
  entries := d.entries.map fun e => (e.1, f e.1 e.2)
  nodup := by
    rw [List.map_map]
    exact d.nodup

omit [DecidableEq κ] in
theorem keys_image {ω : Type*} (d : Dict κ ν) (f : κ → ν → ω) : (d.image f).entries.map Prod.fst = d.entries.map Prod.fst := by
  rw [image, List.map_map]
  rfl

theorem get?_image {ω : Type*} (d : Dict κ ν) (f : κ → ν → ω) (k : κ) : (d.image f).get? k = (d.get? k).map (f k) := by
  cases h : d.get? k with
  | some v => exact get?_eq_some.2 (List.mem_map.2 ⟨(k, v), get?_eq_some.1 h, rfl⟩)
  | none =>
    rw [Option.map_none, get?_eq_none, keys_image]
    exact get?_eq_none.1 h

/-- `k in d`. -/
def has (d : Dict κ ν) (k : κ) : Bool := (d.get? k).isSome

theorem has_iff {d : Dict κ ν} {k : κ} : d.has k = true ↔ k ∈ d.entries.map Prod.fst := by
  unfold has
  cases h : d.get? k with
  | none => simpa using get?_eq_none.1 h
  | some v => simpa using ⟨v, get?_eq_some.1 h⟩

@[simp] theorem has_empty (k : κ) : (empty : Dict κ ν).has k = false := rfl

theorem has_set {d : Dict κ ν} {k k' : κ} {v : ν} : (d.set k v).has k' = true ↔ k' = k ∨ d.has k' = true := by
  unfold has
  rw [get?_set]
  split <;> simp [*]

theorem has_erase {d : Dict κ ν} {k k' : κ} : (d.erase k).has k' = true ↔ k' ≠ k ∧ d.has k' = true := by
  rw [has, get?_erase]
  by_cases heq : k' = k <;> simp [heq, has]

/-- A value that is set again leaves the dictionary as it is. -/
theorem set_self {d : Dict κ ν} {k : κ} {v : ν} (h : d.get? k = some v) : d.set k v = d := by
  have hmem := get?_eq_some.1 h
  unfold set
  rw [dif_pos (List.mem_map.2 ⟨_, hmem, rfl⟩)]
  refine ext ?_
  refine (List.map_congr_left fun e he => ?_).trans (List.map_id _)
  by_cases hkey : e.1 = k
  · have hv : (k, e.2) ∈ d.entries := hkey ▸ he
    exact Prod.ext rfl ((if_pos hkey).trans (mem_unique hmem hv))
  · exact Prod.ext rfl (if_neg hkey)

theorem has_update {d : Dict κ ν} {entries : List (κ × ν)} {k : κ} :
    (d.update entries).has k = true ↔ k ∈ entries.map Prod.fst ∨ d.has k = true := by
  unfold has
  rw [get?_update]
  cases h : entries.reverse.find? fun e => e.1 = k with
  | none =>
    have hnone : k ∉ entries.map Prod.fst := fun hmem => by
      obtain ⟨e, he, heq⟩ := List.mem_map.1 hmem
      exact absurd heq (by simpa using List.find?_eq_none.1 h e (List.mem_reverse.2 he))
    simp [hnone]
  | some e =>
    have hmem : k ∈ entries.map Prod.fst :=
      List.mem_map.2 ⟨e, List.mem_reverse.1 (List.mem_of_find?_eq_some h), by simpa using List.find?_some h⟩
    simp [hmem]

theorem mem_update {d : Dict κ ν} {entries : List (κ × ν)} {e : κ × ν} (h : e ∈ (d.update entries).entries) :
    e ∈ entries ∨ e ∈ d.entries := by
  have hget := get?_eq_some.2 h
  rw [get?_update] at hget
  cases hfind : entries.reverse.find? fun e' => e'.1 = e.1 with
  | none =>
    rw [hfind] at hget
    exact .inr (get?_eq_some.1 hget)
  | some found =>
    rw [hfind] at hget
    have hkey : found.1 = e.1 := by simpa using List.find?_some hfind
    have heq : found = e := Prod.ext hkey (Option.some.inj hget)
    exact .inl (heq ▸ List.mem_reverse.1 (List.mem_of_find?_eq_some hfind))

/-! ## Items under their keys -/

section keyed

variable {α : Type*} (key : α → κ) (blank : κ)

/-- `d[key(a)] = a` for each item with a key. -/
def keyed (items : List α) (d : Dict κ α) : Dict κ α :=
  items.foldl (fun d' a => if key a ≠ blank then d'.set (key a) a else d') d

/-- The last item of a key is the one that stands under it. -/
theorem get?_keyed (items : List α) (d : Dict κ α) {k : κ} (hk : k ≠ blank) :
    (keyed key blank items d).get? k = (items.reverse.find? fun a => key a = k).or (d.get? k) := by
  unfold keyed
  induction items generalizing d with
  | nil => rfl
  | cons a items ih =>
    rw [List.foldl_cons, ih, List.reverse_cons, List.find?_append, Option.or_assoc]
    congr 1
    by_cases heq : key a = k
    · rw [if_pos (heq ▸ hk), get?_set, if_pos heq.symm]
      simp [heq]
    · have hget : (if key a ≠ blank then d.set (key a) a else d).get? k = d.get? k := by
        split
        · rw [get?_set, if_neg (Ne.symm heq)]
        · rfl
      rw [hget]
      simp [heq]

/-- What assignments leave under a key is the last of them. -/
theorem get?_foldl_assign {β : Type*} (value : α → β) (items : List α) (d : Dict κ β) (k : κ) :
    (items.foldl (fun d' a => d'.set (key a) (value a)) d).get? k =
      ((items.reverse.find? fun a => key a = k).map value).or (d.get? k) := by
  induction items generalizing d with
  | nil => rfl
  | cons a items ih =>
    rw [List.foldl_cons, ih, List.reverse_cons, List.find?_append, get?_set]
    cases items.reverse.find? fun a => key a = k with
    | some b => rfl
    | none =>
      by_cases heq : key a = k
      · simp [heq]
      · simp [heq, Ne.symm heq]

theorem get?_keyed_blank (items : List α) (d : Dict κ α) : (keyed key blank items d).get? blank = d.get? blank := by
  unfold keyed
  induction items generalizing d with
  | nil => rfl
  | cons a items ih =>
    rw [List.foldl_cons, ih]
    split
    · rename_i hk
      rw [get?_set, if_neg (Ne.symm hk)]
    · rfl

/-- Items whose key may be missing, and is never the blank one. -/
theorem get?_keyed_getD {name : α → Option κ} {items : List α} (hname : ∀ a ∈ items, name a ≠ some blank) (k : κ) :
    (keyed (fun a => (name a).getD blank) blank items empty).get? k =
      items.reverse.find? fun a => name a = some k := by
  by_cases hblank : k = blank
  · subst hblank
    rw [get?_keyed_blank, get?_empty, eq_comm, List.find?_eq_none]
    intro a ha
    simpa using hname a (List.mem_reverse.1 ha)
  · rw [get?_keyed _ _ _ _ hblank, get?_empty, Option.or_none]
    congr 1
    funext a
    cases name a with
    | none => simp [Ne.symm hblank]
    | some text => simp

/-- The keys stand in the order in which they first occur. -/
theorem keys_keyed (items : List α) (d : Dict κ α) : (keyed key blank items d).entries.map Prod.fst =
    d.entries.map Prod.fst ++ (((items.map key).filter (· ≠ blank)).filter (· ∉ d.entries.map Prod.fst)).eraseDups := by
  unfold keyed
  induction items generalizing d with
  | nil => simp
  | cons a items ih =>
    rw [List.foldl_cons, ih, List.map_cons]
    by_cases hk : key a ≠ blank
    · rw [if_pos hk, List.filter_cons_of_pos (by simpa using hk), keys_set]
      by_cases hmem : key a ∈ d.entries.map Prod.fst
      · rw [if_pos hmem, List.filter_cons_of_neg (by simpa using hmem)]
      · rw [if_neg hmem, List.filter_cons_of_pos (by simpa using hmem), List.eraseDups_cons, List.append_assoc,
          List.singleton_append]
        simp only [List.filter_filter]
        congr 3
        refine List.filter_congr fun k _ => ?_
        by_cases heq : k = key a
        · simp [heq]
        · rw [beq_false_of_ne heq]
          simp [List.mem_append, heq, -List.mem_map]
    · rw [if_neg hk, List.filter_cons_of_neg (by simpa using hk)]

/-- Items with keys of their own stand in their order. -/
theorem entries_keyed {items : List α} (hnodup : (items.map key).Nodup) (hkey : ∀ a ∈ items, key a ≠ blank) :
    ∀ {d : Dict κ α}, (∀ a ∈ items, key a ∉ d.entries.map Prod.fst) →
      (keyed key blank items d).entries = d.entries ++ items.map fun a => (key a, a) := by
  unfold keyed
  induction items with
  | nil => simp
  | cons a items ih =>
    intro d hnew
    obtain ⟨hother, hnodup⟩ := List.nodup_cons.1 hnodup
    obtain ⟨hfirst, hkey⟩ := List.forall_mem_cons.1 hkey
    obtain ⟨hnone, hnew⟩ := List.forall_mem_cons.1 hnew
    have hset : (d.set (key a) a).entries = d.entries ++ [(key a, a)] := by rw [set, dif_neg hnone]
    rw [List.foldl_cons, if_pos hfirst, ih hnodup hkey, hset, List.append_assoc, List.map_cons, List.singleton_append]
    intro b hb
    rw [hset, List.map_append, List.mem_append, not_or]
    refine ⟨hnew b hb, fun hmem => hother (List.mem_map.2 ⟨b, hb, ?_⟩)⟩
    simpa using hmem

/-- What stands under a key is the last item that has it. -/
theorem mem_keyed {items : List α} {e : κ × α} (he : e ∈ (keyed key blank items empty).entries) :
    e.1 ≠ blank ∧ key e.2 = e.1 ∧ e.2 ∈ items ∧ items.reverse.find? (fun a => key a = e.1) = some e.2 := by
  have hget := get?_eq_some.2 he
  have hkey : e.1 ≠ blank := fun h => by
    rw [h, get?_keyed_blank, get?_empty] at hget
    cases hget
  rw [get?_keyed _ _ _ _ hkey, get?_empty, Option.or_none] at hget
  exact ⟨hkey, by simpa using List.find?_some hget, List.mem_reverse.1 (List.mem_of_find?_eq_some hget), hget⟩

/-- Items that are read off the entries under some keys: each is there as often as it is given, just where none of them has
a later one of its key. -/
theorem count_keyed_iff {β : Type*} [DecidableEq β] {l : List α} {q : κ → Bool} {p : α → Bool} {f : α → β}
    (hq : ∀ a ∈ l, p a = true → key a ≠ blank → q (key a) = true) (hkey : ∀ a b, f a = f b → key a = key b)
    (hp : ∀ a ∈ l, ∀ b ∈ l, f a = f b → p a = p b) :
    (∀ a ∈ l, p a = true → key a ≠ blank →
        (((keyed key blank l empty).entries.filter fun e => q e.1).map fun e => f e.2).count (f a) =
          ((l.filter p).map f).count (f a)) ↔
      l.Pairwise fun a b => p a = true → key a ≠ blank → key b ≠ key a := by
  have hnodup : (((keyed key blank l empty).entries.filter fun e => q e.1).map fun e => f e.2).Nodup := by
    refine List.Nodup.map_on ?_ ((List.Nodup.of_map _ (keyed key blank l empty).nodup).filter _)
    intro e he e' he' heq
    have hin := (List.mem_filter.1 he).1
    have hin' := (List.mem_filter.1 he').1
    have hsame : e.1 = e'.1 := by
      rw [← (mem_keyed key blank hin).2.1, ← (mem_keyed key blank hin').2.1]
      exact hkey _ _ heq
    exact List.inj_on_of_nodup_map (keyed key blank l empty).nodup hin hin' hsame
  constructor
  · intro h
    rw [List.pairwise_iff_forall_sublist]
    intro a b hsub hpa hblank heq
    obtain ⟨front, back, rfl, ha, hb⟩ := List.cons_sublist_iff.1 hsub
    have hb : b ∈ back := hb.subset (List.mem_singleton_self b)
    have hcount := h a (List.mem_append_left _ ha) hpa hblank
    have hmany : 1 ≤ ((front.filter p).map f).count (f a) :=
      List.count_pos_iff.2 (List.mem_map.2 ⟨a, List.mem_filter.2 ⟨ha, hpa⟩, rfl⟩)
    rw [List.filter_append, List.map_append, List.count_append] at hcount
    obtain ⟨e, he, hfe⟩ := List.mem_map.1 (List.count_pos_iff.1 (show 0 < _ by rw [hcount]; omega))
    -- what stands under the key comes after `a`, and is as good as it
    obtain ⟨-, -, -, hlast⟩ := mem_keyed key blank (List.mem_filter.1 he).1
    have hback : e.2 ∈ back := by
      rw [List.reverse_append, List.find?_append] at hlast
      cases hfind : back.reverse.find? (fun c => key c = e.1) with
      | none =>
        have hnone := List.find?_eq_none.1 hfind b (List.mem_reverse.2 hb)
        rw [heq, ← hkey _ _ hfe, (mem_keyed key blank (List.mem_filter.1 he).1).2.1] at hnone
        simp at hnone
      | some c =>
        rw [hfind, Option.some_or] at hlast
        rw [← Option.some.inj hlast]
        exact List.mem_reverse.1 (List.mem_of_find?_eq_some hfind)
    have hagain : 1 ≤ ((back.filter p).map f).count (f a) :=
      List.count_pos_iff.2 (List.mem_map.2 ⟨e.2, List.mem_filter.2 ⟨hback, (hp _ (List.mem_append_right _ hback) _
        (List.mem_append_left _ ha) hfe).trans hpa⟩, hfe⟩)
    have hone := List.nodup_iff_count_le_one.1 hnodup (f a)
    omega
  · intro h a ha hpa hblank
    have hlast : l.reverse.find? (fun b => key b = key a) = some a := by
      obtain ⟨front, back, rfl⟩ := List.append_of_mem ha
      have hafter := (List.pairwise_cons.1 (List.pairwise_append.1 h).2.1).1
      rw [List.reverse_append, List.reverse_cons, List.append_assoc, List.find?_append, List.find?_eq_none.2, Option.none_or,
        List.singleton_append, List.find?_cons_of_pos (by simp)]
      intro b hb
      simpa using hafter b (List.mem_reverse.1 hb) hpa hblank
    have hentry : (key a, a) ∈ (keyed key blank l empty).entries := by
      rw [← get?_eq_some, get?_keyed _ _ _ _ hblank, hlast, Option.some_or]
    have hleft := List.count_eq_one_of_mem hnodup
      (List.mem_map.2 ⟨(key a, a), List.mem_filter.2 ⟨hentry, hq a ha hpa hblank⟩, rfl⟩)
    have hright : ((l.filter p).map f).count (f a) = 1 := by
      obtain ⟨front, back, rfl⟩ := List.append_of_mem ha
      have hsplit := List.pairwise_append.1 h
      have hafter := (List.pairwise_cons.1 hsplit.2.1).1
      have hbefore : ∀ b ∈ front, p b = true → f b ≠ f a := fun b hb hpb heq =>
        hsplit.2.2 b hb a (List.mem_cons_self ..) hpb (by rw [hkey _ _ heq]; exact hblank) (hkey _ _ heq).symm
      rw [List.filter_append, List.filter_cons_of_pos hpa, List.map_append, List.map_cons, List.count_append,
        List.count_cons_self, List.count_eq_zero.2, List.count_eq_zero.2]
      · intro hmem
        obtain ⟨b, hb, heq⟩ := List.mem_map.1 hmem
        exact hafter b (List.mem_filter.1 hb).1 hpa hblank (hkey _ _ heq)
      · intro hmem
        obtain ⟨b, hb, heq⟩ := List.mem_map.1 hmem
        exact hbefore b (List.mem_filter.1 hb).1 (List.mem_filter.1 hb).2 heq
    rw [hright]
    exact hleft

end keyed

end Dict

end Lib
