/-
JSON with the keys of every object sorted (`json.dumps(sort_keys=True)`). Records with the same fields are told apart by
their values.
-/
import Mathlib.Data.List.Sort
import Mathlib.Data.String.Basic
import OpenFish.Lib.JsonUnique

namespace Lib.Json

mutual

/-- The value with sorted keys, at every level. -/
def sortKeys : Json → Json
  | arr items => arr (sortItems items)
  | obj members => obj ((sortMembers members).insertionSort fun a b => a.1 ≤ b.1)
  | v => v

def sortItems : List Json → List Json
  | [] => []
  | v :: vs => sortKeys v :: sortItems vs

def sortMembers : List (String × Json) → List (String × Json)
  | [] => []
  | (k, v) :: ms => (k, sortKeys v) :: sortMembers ms

end

theorem sortItems_eq : ∀ vs : List Json, sortItems vs = vs.map sortKeys
  | [] => rfl
  | v :: vs => by rw [sortItems, sortItems_eq vs, List.map_cons]

theorem sortMembers_eq : ∀ ms : List (String × Json), sortMembers ms = ms.map fun m => (m.1, sortKeys m.2)
  | [] => rfl
  | (k, v) :: ms => by rw [sortMembers, sortMembers_eq ms, List.map_cons]

theorem floatsMeetItems_iff {good : BitVec 64 → Prop} : ∀ {vs : List Json},
    FloatsMeetItems good vs ↔ ∀ v ∈ vs, FloatsMeet good v
  | [] => by simp [FloatsMeetItems]
  | v :: vs => by rw [FloatsMeetItems, floatsMeetItems_iff, List.forall_mem_cons]

theorem floatsMeetMembers_iff {good : BitVec 64 → Prop} : ∀ {ms : List (String × Json)},
    FloatsMeetMembers good ms ↔ ∀ m ∈ ms, FloatsMeet good m.2
  | [] => by simp [FloatsMeetMembers]
  | (k, v) :: ms => by rw [FloatsMeetMembers, floatsMeetMembers_iff, List.forall_mem_cons]

mutual

/-- Sorting moves no float out of a value and none into it. -/
theorem floatsMeet_sortKeys {good : BitVec 64 → Prop} : ∀ {v : Json}, FloatsMeet good v → FloatsMeet good (sortKeys v)
  | null, h => h
  | bool _, h => h
  | int _, h => h
  | float _, h => h
  | str _, h => h
  | arr items, h => by
    rw [sortKeys, FloatsMeet]
    rw [FloatsMeet] at h
    exact floatsMeetItems_sortItems h
  | obj members, h => by
    rw [FloatsMeet] at h
    rw [sortKeys, FloatsMeet, floatsMeetMembers_iff]
    intro m hm
    exact floatsMeetMembers_iff.1 (floatsMeetMembers_sortMembers h) m ((List.perm_insertionSort _ _).mem_iff.1 hm)

theorem floatsMeetItems_sortItems {good : BitVec 64 → Prop} : ∀ {vs : List Json},
    FloatsMeetItems good vs → FloatsMeetItems good (sortItems vs)
  | [], h => h
  | v :: vs, h => by
    rw [sortItems, FloatsMeetItems]
    rw [FloatsMeetItems] at h
    exact ⟨floatsMeet_sortKeys h.1, floatsMeetItems_sortItems h.2⟩

theorem floatsMeetMembers_sortMembers {good : BitVec 64 → Prop} : ∀ {ms : List (String × Json)},
    FloatsMeetMembers good ms → FloatsMeetMembers good (sortMembers ms)
  | [], h => h
  | (k, v) :: ms, h => by
    rw [sortMembers, FloatsMeetMembers]
    rw [FloatsMeetMembers] at h
    exact ⟨floatsMeet_sortKeys h.1, floatsMeetMembers_sortMembers h.2⟩

end

/-- Two lists with the same entries and the same keys in the same order are the same. -/
theorem eq_of_perm_keys {α β : Type*} {l l' : List (α × β)} (hperm : l.Perm l') (hnodup : (l.map Prod.fst).Nodup)
    (hkeys : l.map Prod.fst = l'.map Prod.fst) : l = l' := by
  refine List.ext_getElem hperm.length_eq fun i hi hi' => ?_
  have hnodup' : (l'.map Prod.fst).Nodup := hkeys ▸ hnodup
  have hkey : l[i].1 = l'[i].1 := by
    have hget := congrArg (fun keys => keys[i]?) hkeys
    simpa [hi, hi'] using hget
  exact List.inj_on_of_nodup_map hnodup' (hperm.mem_iff.1 (List.getElem_mem hi)) (List.getElem_mem hi') hkey

/-- Records with the same fields. -/
theorem sortKeys_record_inj {fields : List String} (hnodup : fields.Nodup) {ms ms' : List (String × Json)}
    (hkeys : ms.map Prod.fst = fields) (hkeys' : ms'.map Prod.fst = fields) (h : sortKeys (obj ms) = sortKeys (obj ms')) :
    ms.map (fun m => sortKeys m.2) = ms'.map fun m => sortKeys m.2 := by
  rw [sortKeys, sortKeys, obj.injEq] at h
  have hperm : (sortMembers ms).Perm (sortMembers ms') := by
    have hsorted := List.perm_insertionSort (fun a b => a.1 ≤ b.1) (sortMembers ms)
    rw [h] at hsorted
    exact hsorted.symm.trans (List.perm_insertionSort _ _)
  have hfst : ∀ l : List (String × Json), (sortMembers l).map Prod.fst = l.map Prod.fst := by
    intro l
    rw [sortMembers_eq, List.map_map]
    rfl
  have heq := eq_of_perm_keys hperm (by rw [hfst, hkeys]; exact hnodup) (by rw [hfst, hfst, hkeys, hkeys'])
  have hvalues := congrArg (List.map Prod.snd) heq
  rw [sortMembers_eq, sortMembers_eq, List.map_map, List.map_map] at hvalues
  exact hvalues

theorem length_of_sortKeys_eq {ms ms' : List (String × Json)} (h : sortKeys (obj ms) = sortKeys (obj ms')) :
    ms.length = ms'.length := by
  rw [sortKeys, sortKeys, obj.injEq] at h
  have hlength := congrArg List.length h
  rw [List.length_insertionSort, List.length_insertionSort, sortMembers_eq, sortMembers_eq, List.length_map,
    List.length_map] at hlength
  exact hlength

theorem sortKeys_arr (vs : List Json) : sortKeys (arr vs) = arr (vs.map sortKeys) := by
  rw [sortKeys, sortItems_eq]

/-- A list of values that sorting tells apart. -/
theorem sortKeys_list_inj {α : Type*} {dump : α → Json} (hdump : ∀ a a', sortKeys (dump a) = sortKeys (dump a') → a = a')
    {as as' : List α} (h : sortKeys (arr (as.map dump)) = sortKeys (arr (as'.map dump))) : as = as' := by
  rw [sortKeys_arr, sortKeys_arr, arr.injEq, List.map_map, List.map_map] at h
  exact List.map_injective_iff.2 (fun a a' heq => hdump a a' heq) h

/-- A value that may be missing. -/
theorem sortKeys_option_inj {α : Type*} {dump : α → Json} (hdump : ∀ a a', sortKeys (dump a) = sortKeys (dump a') → a = a')
    (hnull : ∀ a, sortKeys (dump a) ≠ null) {a a' : Option α}
    (h : sortKeys ((a.map dump).getD null) = sortKeys ((a'.map dump).getD null)) : a = a' := by
  cases a with
  | none =>
    cases a' with
    | none => rfl
    | some a' => exact absurd h.symm (hnull a')
  | some a =>
    cases a' with
    | none => exact absurd h (hnull a)
    | some a' => exact congrArg some (hdump a a' h)

end Lib.Json
