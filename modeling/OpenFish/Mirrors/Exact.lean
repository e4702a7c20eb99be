/-
An import of an overlay is exact and atomic, a second one finds nothing to do, and an export undoes it: what the exporter
leaves out is what the importer reads as absent, so every row comes back under its own identity.
-/
import OpenFish.Mirrors.Overlay

namespace OpenFish.Mirrors

open Lib

variable {h : Host} {m : Mirror}

/-! ## What an import is to do -/

/-- The last entry with this identity. -/
def lastNamed (h : Host) (m : Mirror) (items : List OverlayItem) (path : String) : Option OverlayItem :=
  items.reverse.find? fun item => pathFor h m item = path

/-- The identities of a file in the order in which it first mentions them. -/
def firstMentions (h : Host) (m : Mirror) (items : List OverlayItem) : List String :=
  ((items.map (pathFor h m)).filter (· ≠ "")).eraseDups

/-- What an import of these entries makes of the rows. -/
structure Imported (h : Host) (m : Mirror) (items : List OverlayItem) (prune : Bool) (t t' : Table) : Prop where
  named : ∀ path item, path ≠ "" → lastNamed h m items path = some item →
    ∃ row, t'.get? (m.name, path) = some row ∧ holds (entryFields h m item) row = true
  unnamed : ∀ path, path = "" ∨ lastNamed h m items path = none →
    t'.get? (m.name, path) = if prune then none else t.get? (m.name, path)
  elsewhere : ∀ place path, place ≠ m.name → t'.get? (place, path) = t.get? (place, path)
  /-- In an empty namespace the rows stand as the file first mentions them. -/
  order : entries m t = [] → (entries m t').map Prod.fst = firstMentions h m items

/-! ## One entry for each identity -/

theorem get?_byPath (items : List OverlayItem) {path : String} (hpath : path ≠ "") :
    (byPath h m items).get? path = lastNamed h m items path := by
  rw [byPath, Dict.get?_keyed _ _ _ _ hpath, Dict.get?_empty, Option.or_none, lastNamed]

theorem keys_byPath (items : List OverlayItem) : (byPath h m items).entries.map Prod.fst = firstMentions h m items := by
  rw [byPath, Dict.keys_keyed, firstMentions]
  simp [Dict.empty]

theorem get?_byPath_empty (items : List OverlayItem) : (byPath h m items).get? "" = none := by
  rw [Dict.get?_eq_none, keys_byPath, firstMentions, List.mem_eraseDups]
  simp

/-! ## Rows that are set -/

theorem holds_iff {f : Fields} {row : Row} : holds f row = true ↔ setFields f row = row := by
  obtain ⟨filename, displayName, description, version, tags, flat⟩ := f
  obtain ⟨filename', displayName', description', version', tags', arch', kind'⟩ := row
  cases flat with
  | none =>
    simp only [holds, setFields, Option.all_none, and_true, decide_eq_true_eq, Row.mk.injEq]
    grind
  | some flat =>
    simp only [holds, setFields, Option.all_some, decide_eq_true_eq, Row.mk.injEq]
    grind

theorem holds_setFields (f : Fields) (row : Row) : holds f (setFields f row) = true := by
  rw [holds_iff]
  unfold setFields
  cases f.flat <;> rfl

theorem entries_set_new {t : Table} {path : String} {row : Row} (hnew : t.get? (m.name, path) = none) :
    entries m (t.set (m.name, path) row) = entries m t ++ [(path, row)] := by
  have hkey : (m.name, path) ∉ t.entries.map Prod.fst := Dict.get?_eq_none.1 hnew
  have hset : (t.set (m.name, path) row).entries = t.entries ++ [((m.name, path), row)] := by
    rw [Dict.set, dif_neg hkey]
  unfold entries
  rw [hset, List.filter_append, List.map_append]
  simp

theorem mem_entries {t : Table} {path : String} {row : Row} : (path, row) ∈ entries m t ↔ t.get? (m.name, path) = some row := by
  rw [Dict.get?_eq_some, entries, List.mem_map]
  constructor
  · rintro ⟨⟨⟨place, path'⟩, row'⟩, hmem, heq⟩
    obtain ⟨hentry, hplace⟩ := List.mem_filter.1 hmem
    obtain rfl : place = m.name := of_decide_eq_true hplace
    cases heq
    exact hentry
  · intro hmem
    exact ⟨((m.name, path), row), List.mem_filter.2 ⟨hmem, decide_eq_true rfl⟩, rfl⟩

theorem get?_eq_none_of_entries {t : Table} (hempty : entries m t = []) (path : String) : t.get? (m.name, path) = none := by
  cases hrow : t.get? (m.name, path) with
  | none => rfl
  | some row =>
    have hmem := mem_entries.2 hrow
    rw [hempty] at hmem
    exact absurd hmem List.not_mem_nil

/-! ## The loop -/

section loop

variable {existing : Table} {p : OverlayReport × Table}

/-- The row of an identity after the loop. -/
def wanted (h : Host) (m : Mirror) (existing : Table) (path : String) (item : OverlayItem) : Row :=
  setFields (entryFields h m item) ((existing.get? (m.name, path)).getD {})

/-- One turn sets the row of its identity, which still stands as it stood. -/
theorem importItem_get? {e : String × OverlayItem} (hsame : p.2.get? (m.name, e.1) = existing.get? (m.name, e.1))
    (key : String × String) : (importItem h m false existing p e).2.get? key =
      if key = (m.name, e.1) then some (wanted h m existing e.1 e.2) else p.2.get? key := by
  unfold importItem wanted
  cases hrow : existing.get? (m.name, e.1) with
  | none => exact Dict.get?_set ..
  | some row =>
    by_cases hholds : holds (entryFields h m e.2) row = true
    · simp only [hholds, if_true, Option.getD_some, holds_iff.1 hholds]
      by_cases hkey : key = (m.name, e.1)
      · rw [if_pos hkey, hkey, hsame, hrow]
      · rw [if_neg hkey]
    · simp only [hholds, Bool.false_eq_true, if_false, Option.getD_some]
      exact Dict.get?_set ..

theorem foldl_importItem_get? (existing : Table) (p : OverlayReport × Table) {l : List (String × OverlayItem)} (hnodup : (l.map Prod.fst).Nodup)
    (hsame : ∀ e ∈ l, p.2.get? (m.name, e.1) = existing.get? (m.name, e.1)) (key : String × String) :
    (l.foldl (importItem h m false existing) p).2.get? key =
      if key.1 = m.name then
        match l.lookup key.2 with
        | some item => some (wanted h m existing key.2 item)
        | none => p.2.get? key
      else p.2.get? key := by
  induction l generalizing p with
  | nil => simp
  | cons e l ih =>
    obtain ⟨path, item⟩ := e
    obtain ⟨hnew, hnodup⟩ := List.nodup_cons.1 hnodup
    obtain ⟨hfirst, hrest⟩ := List.forall_mem_cons.1 hsame
    have hget := importItem_get? (h := h) hfirst
    have hother : ∀ e ∈ l, e.1 ≠ path := fun e he heq => hnew (List.mem_map.2 ⟨e, he, heq⟩)
    rw [List.foldl_cons, ih _ hnodup]
    · obtain ⟨place, path'⟩ := key
      rw [hget]
      by_cases hplace : place = m.name
      · subst hplace
        by_cases heq : path' = path
        · subst heq
          have hnone : l.lookup path' = none := List.lookup_eq_none_iff.2 fun e he => by
            simpa using Ne.symm (hother e he)
          simp [hnone]
        · have hcons : ((path, item) :: l).lookup path' = l.lookup path' := by
            rw [List.lookup_cons, beq_false_of_ne heq]
          rw [hcons]
          simp [heq]
      · simp [hplace]
    · intro e he
      rw [hget, if_neg fun heq => hother e he (Prod.mk.inj heq).2]
      exact hrest e he

/-- In an empty namespace every turn adds a row at the end. -/
theorem foldl_importItem_entries {l : List (String × OverlayItem)} (hnodup : (l.map Prod.fst).Nodup)
    (hempty : ∀ e ∈ l, existing.get? (m.name, e.1) = none) (hfree : ∀ e ∈ l, p.2.get? (m.name, e.1) = none) :
    entries m (l.foldl (importItem h m false existing) p).2 =
      entries m p.2 ++ l.map fun e => (e.1, setFields (entryFields h m e.2) {}) := by
  induction l generalizing p with
  | nil => simp
  | cons e l ih =>
    obtain ⟨hnew, hnodup⟩ := List.nodup_cons.1 hnodup
    obtain ⟨hfirst, hempty⟩ := List.forall_mem_cons.1 hempty
    obtain ⟨hfree₁, hfree⟩ := List.forall_mem_cons.1 hfree
    have hstep : (importItem h m false existing p e).2 = p.2.set (m.name, e.1) (setFields (entryFields h m e.2) {}) := by
      simp [importItem, hfirst]
    rw [List.foldl_cons, ih hnodup hempty, hstep, entries_set_new hfree₁, List.append_assoc, List.map_cons, List.singleton_append]
    intro e' he'
    have hne : e'.1 ≠ e.1 := fun heq => hnew (List.mem_map.2 ⟨e', he', heq⟩)
    rw [hstep, Dict.get?_set, if_neg fun heq => hne (Prod.mk.inj heq).2]
    exact hfree e' he'

/-- Where every row has its fields already, the loop only counts. -/
theorem foldl_importItem_held {dryRun : Bool} {l : List (String × OverlayItem)} (hheld : ∀ e ∈ l, ∃ row,
    existing.get? (m.name, e.1) = some row ∧ holds (entryFields h m e.2) row = true) :
    l.foldl (importItem h m dryRun existing) p = ({ p.1 with unchanged := p.1.unchanged + l.length }, p.2) := by
  induction l generalizing p with
  | nil => rfl
  | cons e l ih =>
    obtain ⟨⟨row, hrow, hholds⟩, hheld⟩ := List.forall_mem_cons.1 hheld
    have hstep : importItem h m dryRun existing p e = ({ p.1 with unchanged := p.1.unchanged + 1 }, p.2) := by
      simp [importItem, hrow, hholds]
    rw [List.foldl_cons, hstep, ih hheld, List.length_cons]
    simp only [Nat.add_assoc, Nat.add_comm 1]

/-- A dry run changes no row. -/
theorem foldl_importItem_dry (l : List (String × OverlayItem)) : (l.foldl (importItem h m true existing) p).2 = p.2 := by
  induction l generalizing p with
  | nil => rfl
  | cons e l ih =>
    have hstep : (importItem h m true existing p e).2 = p.2 := by
      unfold importItem
      dsimp only
      split
      · rfl
      · split
        · rfl
        · rfl
    rw [List.foldl_cons, ih, hstep]

end loop

/-! ## One import -/

theorem get?_foldl_erase (paths : List String) (t : Table) (key : String × String) :
    (paths.foldl (fun t path => t.erase (m.name, path)) t).get? key =
      if key.1 = m.name ∧ key.2 ∈ paths then none else t.get? key := by
  induction paths generalizing t with
  | nil => simp
  | cons path paths ih =>
    obtain ⟨place, path'⟩ := key
    rw [List.foldl_cons, ih, Dict.get?_erase]
    by_cases hplace : place = m.name
    · by_cases heq : path' = path
      · simp [hplace, heq]
      · simp [hplace, heq]
    · simp [hplace]

/-- What an import makes of the rows before they are committed. -/
def rowsAfter (h : Host) (m : Mirror) (items : List OverlayItem) (prune : Bool) (report : OverlayReport) (t : Table) : Table :=
  (if prune then unnamed m (byPath h m items) t else []).foldl (fun t path => t.erase (m.name, path))
    ((byPath h m items).entries.foldl (importItem h m false t) (report, t)).2

section one

variable {items : List OverlayItem} {prune : Bool} {report : OverlayReport} {t : Table}

theorem mem_unnamed {named : Dict String OverlayItem} {path : String} :
    path ∈ unnamed m named t ↔ (∃ row, t.get? (m.name, path) = some row) ∧ named.get? path = none := by
  rw [unnamed, List.mem_filter, List.mem_map, Option.isNone_iff_eq_none]
  refine and_congr_left fun _ => ⟨?_, ?_⟩
  · rintro ⟨⟨path', row⟩, hmem, rfl⟩
    exact ⟨row, mem_entries.1 hmem⟩
  · rintro ⟨row, hrow⟩
    exact ⟨(path, row), mem_entries.2 hrow, rfl⟩

theorem rowsAfter_get? (place path : String) : (rowsAfter h m items prune report t).get? (place, path) =
    if place = m.name then
      match (byPath h m items).get? path with
      | some item => some (wanted h m t path item)
      | none => if prune then none else t.get? (m.name, path)
    else t.get? (place, path) := by
  have hloop : ((byPath h m items).entries.foldl (importItem h m false t) (report, t)).2.get? (place, path) = _ :=
    foldl_importItem_get? t (report, t) (byPath h m items).nodup (fun _ _ => rfl) (place, path)
  rw [Dict.lookup_entries] at hloop
  unfold rowsAfter
  rw [get?_foldl_erase, hloop]
  by_cases hplace : place = m.name
  · subst hplace
    cases hitem : (byPath h m items).get? path with
    | some item =>
      have hkept : path ∉ if prune then unnamed m (byPath h m items) t else [] := by
        split
        · intro hmem
          rw [(mem_unnamed.1 hmem).2] at hitem
          cases hitem
        · exact List.not_mem_nil
      simp [hkept]
    | none =>
      cases prune with
      | false => simp
      | true =>
        cases hrow : t.get? (m.name, path) with
        | none => simp
        | some row =>
          have hgone : path ∈ unnamed m (byPath h m items) t := mem_unnamed.2 ⟨⟨row, hrow⟩, hitem⟩
          simp [hgone]
  · simp [hplace]

theorem unnamed_of_entries {named : Dict String OverlayItem} (hempty : entries m t = []) : unnamed m named t = [] := by
  rw [unnamed, hempty]
  rfl

/-- In an empty namespace the rows are those of the file. -/
theorem entries_rowsAfter (hempty : entries m t = []) : entries m (rowsAfter h m items prune report t) =
    (byPath h m items).entries.map fun e => (e.1, setFields (entryFields h m e.2) {}) := by
  have hgone : (if prune then unnamed m (byPath h m items) t else []) = [] := by
    split
    · exact unnamed_of_entries hempty
    · rfl
  rw [rowsAfter, hgone, List.foldl_nil, foldl_importItem_entries (byPath h m items).nodup
    (fun _ _ => get?_eq_none_of_entries hempty _) (fun _ _ => get?_eq_none_of_entries hempty _), hempty, List.nil_append]

theorem imported_rowsAfter : Imported h m items prune t (rowsAfter h m items prune report t) := by
  refine ⟨fun path item hpath hlast => ?_, fun path hnone => ?_, fun place path hplace => ?_, fun hempty => ?_⟩
  · refine ⟨wanted h m t path item, ?_, holds_setFields _ _⟩
    rw [rowsAfter_get?, if_pos rfl, get?_byPath items hpath, hlast]
  · have hget : (byPath h m items).get? path = none := by
      rcases hnone with rfl | hlast
      · exact get?_byPath_empty items
      · by_cases hpath : path = ""
        · rw [hpath]
          exact get?_byPath_empty items
        · rw [get?_byPath items hpath, hlast]
    rw [rowsAfter_get?, if_pos rfl, hget]
  · rw [rowsAfter_get?, if_neg hplace]
  · rw [entries_rowsAfter hempty, List.map_map, ← keys_byPath]
    rfl

/-- What a successful import that is not dry has made. -/
theorem importFile_ok {a : ImportArgs} {t' : Table} (hdry : a.dryRun = false) (hcheck : checkNamespace h a.namespaceName = .ok m)
    (hitems : overlayItems m a = .ok items) (hok : importFile h a t = (.ok report, t')) :
    t' = rowsAfter h m items a.prune { namespaceName := a.namespaceName, path := a.source } t ∧
      commitFails h a.outage t t' = none := by
  unfold importFile at hok
  rw [hcheck] at hok
  dsimp only at hok
  rw [hitems] at hok
  dsimp only at hok
  rw [hdry, if_neg Bool.false_ne_true] at hok
  split at hok
  · cases hok
  · rename_i hcommit
    obtain ⟨-, rfl⟩ := Prod.mk.inj hok
    exact ⟨rfl, hcommit⟩

theorem importFile_run {a : ImportArgs} (hdry : a.dryRun = false) (hcheck : checkNamespace h a.namespaceName = .ok m)
    (hitems : overlayItems m a = .ok items) (hcommit : commitFails h a.outage t
      (rowsAfter h m items a.prune { namespaceName := a.namespaceName, path := a.source } t) = none) :
    ∃ report, importFile h a t =
      (.ok report, rowsAfter h m items a.prune { namespaceName := a.namespaceName, path := a.source } t) := by
  unfold rowsAfter at hcommit ⊢
  unfold importFile
  rw [hcheck]
  dsimp only
  rw [hitems]
  dsimp only
  rw [hdry, if_neg Bool.false_ne_true, hcommit]
  exact ⟨_, rfl⟩

/-- The names and the items of an import that does not fail. -/
theorem exists_items {a : ImportArgs} {t' : Table} (hok : importFile h a t = (.ok report, t')) :
    ∃ m items, checkNamespace h a.namespaceName = .ok m ∧ overlayItems m a = .ok items := by
  unfold importFile at hok
  split at hok
  · cases hok
  · rename_i m hcheck
    split at hok
    · cases hok
    · rename_i items hitems
      exact ⟨m, items, hcheck, hitems⟩

/-- A second import finds every row as it is to be. -/
theorem importFile_again {a : ImportArgs} (hdry : a.dryRun = false) (hcheck : checkNamespace h a.namespaceName = .ok m)
    (hitems : overlayItems m a = .ok items) {t' : Table} (ht : t' = rowsAfter h m items a.prune report t) :
    importFile h { a with outage := none } t' =
      (.ok { namespaceName := a.namespaceName, path := a.source, unchanged := (byPath h m items).entries.length }, t') := by
  have hheld : ∀ e ∈ (byPath h m items).entries, ∃ row,
      t'.get? (m.name, e.1) = some row ∧ holds (entryFields h m e.2) row = true := by
    intro e he
    have hget : (byPath h m items).get? e.1 = some e.2 := Dict.get?_eq_some.2 he
    refine ⟨wanted h m t e.1 e.2, ?_, holds_setFields _ _⟩
    rw [ht, rowsAfter_get?, if_pos rfl, hget]
  have hgone : (if a.prune then unnamed m (byPath h m items) t' else []) = [] := by
    split
    · rename_i hprune
      refine List.eq_nil_iff_forall_not_mem.2 fun path hmem => ?_
      obtain ⟨⟨row, hrow⟩, hnone⟩ := mem_unnamed.1 hmem
      rw [ht, rowsAfter_get?, if_pos rfl, hnone, if_pos hprune] at hrow
      cases hrow
    · rfl
  have hcommit : commitFails h none t' t' = none := by
    refine List.findSome?_eq_none_iff.2 fun e he => if_pos ?_
    exact Dict.get?_eq_some.2 he
  have hitems' : overlayItems m { a with outage := none } = .ok items := hitems
  unfold importFile
  dsimp only
  rw [hcheck]
  dsimp only
  rw [hitems']
  dsimp only
  rw [hdry, foldl_importItem_held hheld, hgone]
  simp only [Bool.false_eq_true, if_false, List.foldl_nil, hcommit, List.length_nil, Nat.zero_add]

end one

/-! ## What an export leaves of a row -/

theorem textOr_isEmpty {value : Json} (hempty : isEmpty value = true) : value.textOr h.render = "" := by
  cases value with
  | null => rfl
  | str s =>
    have hs : s = "" := of_decide_eq_true hempty
    rw [hs]
    rfl
  | arr items =>
    cases items with
    | nil => rfl
    | cons item items => cases hempty
  | bool _ | int _ | float _ | obj _ => cases hempty

theorem fullItem_nodup (row : Row) : ((fullItem h m row).map Prod.fst).Nodup := by
  unfold fullItem
  split
  · show ["filename", "name", "version", "description", "tags"].Nodup
    decide
  · show ["filename", "name", "version", "description", "tags", "arch", "kind"].Nodup
    decide

/-- What is left out is read as if it were there. -/
theorem textOf_exportItem (row : Row) (key : String) : textOf h (exportItem h m row) key = textOf h (fullItem h m row) key := by
  unfold textOf Json.get exportItem
  rw [Dict.lookup_filter (fullItem_nodup row) (fun value => !isEmpty value)]
  cases (fullItem h m row).lookup key with
  | none => rfl
  | some value =>
    by_cases hempty : isEmpty value = true
    · rw [Option.filter_some, if_neg (by simp [hempty]), Option.getD_some, textOr_isEmpty hempty]
      rfl
    · rw [Option.filter_some, if_pos (by simpa using hempty)]

theorem textOr_str (s : String) : (Json.str s).textOr h.render = s := by
  by_cases hs : s = ""
  · rw [hs]
    rfl
  · simp [Json.textOr, Json.truthy, Json.text, hs]

theorem textOr_ofOption (value : Option String) : (ofOption value).textOr h.render = value.getD "" := by
  cases value with
  | none => rfl
  | some s => exact textOr_str s

theorem textOf_fullItem (row : Row) : textOf h (fullItem h m row) "filename" = row.filename ∧
    textOf h (fullItem h m row) "name" = row.displayName.getD "" ∧
    textOf h (fullItem h m row) "version" = row.version.getD "" ∧
    textOf h (fullItem h m row) "description" = row.description.getD "" := by
  refine ⟨?_, ?_, ?_, ?_⟩
  · exact textOr_str row.filename
  · exact textOr_ofOption row.displayName
  · exact textOr_ofOption row.version
  · exact textOr_ofOption row.description

theorem textOf_fullItem_flat (row : Row) (hm : m ≠ .npm) : textOf h (fullItem h m row) "arch" = row.arch.getD "" ∧
    textOf h (fullItem h m row) "kind" = row.kind.getD "" := by
  unfold fullItem
  rw [if_neg hm]
  exact ⟨textOr_ofOption row.arch, textOr_ofOption row.kind⟩

theorem tagsOf_exportItem (row : Row) : tagsOf h (Json.get (exportItem h m row) "tags") =
    if h.tagList row.tags = [] then "[]" else h.dumps (h.tagList row.tags) := by
  have hlookup : (fullItem h m row).lookup "tags" = some (.arr ((h.tagList row.tags).map .str)) := rfl
  unfold Json.get exportItem
  rw [Dict.lookup_filter (fullItem_nodup row) (fun value => !isEmpty value), hlookup]
  by_cases htags : h.tagList row.tags = []
  · rw [htags]
    rfl
  · have htexts : ((h.tagList row.tags).map Json.str).map (·.text h.render) = h.tagList row.tags := by
      rw [List.map_map]
      exact List.map_id'' (fun _ => rfl) _
    rw [if_neg htags, Option.filter_some, if_pos (by simp [isEmpty, htags]), Option.getD_some, tagsOf]
    simp [htags, htexts]

theorem getD_orNone (text : String) : (orNone text).getD "" = text := by
  unfold orNone
  split
  · rename_i hempty
    exact hempty.symm
  · rfl

/-- The row that an entry makes. -/
def rowOf (h : Host) (m : Mirror) (item : OverlayItem) : Row := setFields (entryFields h m item) {}

theorem textOf_exported (item : OverlayItem) (key : String) (hkey : key ∈ ["filename", "name", "version", "description"] ∨
    m ≠ .npm ∧ key ∈ ["arch", "kind"]) : textOf h (exportItem h m (rowOf h m item)) key = textOf h item key := by
  obtain ⟨hfilename, hname, hversion, hdescription⟩ := textOf_fullItem (h := h) (m := m) (rowOf h m item)
  rw [textOf_exportItem]
  have hcolumns : (rowOf h m item).filename = textOf h item "filename" ∧
      (rowOf h m item).displayName = orNone (textOf h item "name") ∧
      (rowOf h m item).version = orNone (textOf h item "version") ∧
      (rowOf h m item).description = orNone (textOf h item "description") := by
    cases m <;> exact ⟨rfl, rfl, rfl, rfl⟩
  rcases hkey with hkey | ⟨hm, hkey⟩
  · simp only [List.mem_cons, List.not_mem_nil, or_false] at hkey
    rcases hkey with rfl | rfl | rfl | rfl
    · rw [hfilename, hcolumns.1]
    · rw [hname, hcolumns.2.1, getD_orNone]
    · rw [hversion, hcolumns.2.2.1, getD_orNone]
    · rw [hdescription, hcolumns.2.2.2, getD_orNone]
  · obtain ⟨harch, hkind⟩ := textOf_fullItem_flat (h := h) (rowOf h m item) hm
    have hflat : (rowOf h m item).arch = orNone (textOf h item "arch") ∧ (rowOf h m item).kind = orNone (textOf h item "kind") := by
      cases m with
      | npm => exact absurd rfl hm
      | debian | dockerImages => exact ⟨rfl, rfl⟩
    simp only [List.mem_cons, List.not_mem_nil, or_false] at hkey
    rcases hkey with rfl | rfl
    · rw [harch, hflat.1, getD_orNone]
    · rw [hkind, hflat.2, getD_orNone]

theorem identity_npm (filename name version arch arch' : String) :
    identity .npm filename name version arch = identity .npm filename name version arch' := by
  unfold identity
  rw [if_pos rfl, if_pos rfl]

/-- A row that was written out comes back under its identity. -/
theorem pathFor_exported (item : OverlayItem) : pathFor h m (exportItem h m (rowOf h m item)) = pathFor h m item := by
  unfold pathFor
  rw [textOf_exported item "filename" (.inl (by simp)), textOf_exported item "name" (.inl (by simp)),
    textOf_exported item "version" (.inl (by simp))]
  by_cases hm : m = .npm
  · rw [hm, identity_npm _ _ _ _ (textOf h item "arch")]
  · rw [textOf_exported item "arch" (.inr ⟨hm, by simp⟩)]

theorem tagsOf_tags (value : Json) : tagsOf h value = "[]" ∨ ∃ tags, tags ≠ [] ∧ tagsOf h value = h.dumps tags := by
  unfold tagsOf
  split
  · rename_i items
    split
    · exact .inl rfl
    · rename_i hne
      refine .inr ⟨_, ?_, rfl⟩
      simpa using hne
  · exact .inl rfl

/-- And with its columns. -/
theorem rowOf_exported (item : OverlayItem) : rowOf h m (exportItem h m (rowOf h m item)) = rowOf h m item := by
  have htags : tagsOf h (Json.get (exportItem h m (rowOf h m item)) "tags") = tagsOf h (Json.get item "tags") := by
    rw [tagsOf_exportItem]
    have hstored : (rowOf h m item).tags = tagsOf h (Json.get item "tags") := by cases m <;> rfl
    rw [hstored]
    rcases tagsOf_tags (h := h) (Json.get item "tags") with hnone | ⟨tags, hne, hsome⟩
    · rw [hnone, h.tagList_empty, if_pos rfl]
    · rw [hsome, h.tagList_dumps, if_neg hne]
  have hfields : entryFields h m (exportItem h m (rowOf h m item)) = entryFields h m item := by
    unfold entryFields
    rw [textOf_exported item "filename" (.inl (by simp)), textOf_exported item "name" (.inl (by simp)),
      textOf_exported item "version" (.inl (by simp)), textOf_exported item "description" (.inl (by simp)), htags]
    by_cases hm : m = .npm
    · rw [if_pos hm, if_pos hm]
    · rw [if_neg hm, if_neg hm, textOf_exported item "arch" (.inr ⟨hm, by simp⟩), textOf_exported item "kind" (.inr ⟨hm, by simp⟩)]
  unfold rowOf at hfields ⊢
  rw [hfields]

/-! ## Every run -/

/-- Each row is one that an entry of its identity makes, and the database takes it. -/
def AllDerived (h : Host) (t : Table) : Prop :=
  ∀ (m : Mirror) path row, t.get? (m.name, path) = some row → path ≠ "" ∧ h.refuses (m.name, path) row = none ∧
    ∃ item, pathFor h m item = path ∧ row = rowOf h m item

theorem setFields_rowOf (item item' : OverlayItem) : setFields (entryFields h m item) (rowOf h m item') = rowOf h m item := by
  cases m <;> rfl

theorem Mirror.name_injective {m m' : Mirror} (heq : m.name = m'.name) : m = m' := by
  cases m <;> cases m' <;> first | rfl | exact absurd heq (by decide)

theorem importFile_error {a : ImportArgs} {t t' : Table} {why : String} (hres : importFile h a t = (.error why, t')) :
    t' = t := by
  unfold importFile at hres
  split at hres
  · exact (Prod.mk.inj hres).2.symm
  · split at hres
    · exact (Prod.mk.inj hres).2.symm
    · dsimp only at hres
      split at hres
      · cases hres
      · split at hres
        · exact (Prod.mk.inj hres).2.symm
        · cases hres

theorem importFile_dry {a : ImportArgs} (hdry : a.dryRun = true) (t : Table) : (importFile h a t).2 = t := by
  unfold importFile
  split
  · rfl
  · split
    · rfl
    · rw [hdry]
      dsimp only
      rw [if_pos rfl, foldl_importItem_dry]

theorem allDerived_importFile {t : Table} (hd : AllDerived h t) (a : ImportArgs) : AllDerived h (importFile h a t).2 := by
  cases hres : importFile h a t with
  | mk result t' =>
    cases result with
    | error why =>
      rw [importFile_error hres]
      exact hd
    | ok report =>
      cases hdry : a.dryRun with
      | true =>
        have hsame := importFile_dry (h := h) hdry t
        rw [hres] at hsame
        rw [hsame]
        exact hd
      | false =>
        obtain ⟨m, items, hcheck, hitems⟩ := exists_items hres
        obtain ⟨rfl, hcommit⟩ := importFile_ok hdry hcheck hitems hres
        generalize hafter : rowsAfter h m items a.prune _ t = t' at hcommit
        intro m' path row hrow
        -- a row that was there before, or one that the commit has let pass
        by_cases hold : t.get? (m'.name, path) = some row
        · exact hd m' path row hold
        · have htaken : h.refuses (m'.name, path) row = none := by
            have hnone := hcommit
            unfold commitFails at hnone
            split at hnone
            · cases hnone
            · have hpass := List.findSome?_eq_none_iff.1 hnone _ (Dict.get?_eq_some.1 hrow)
              rw [if_neg hold] at hpass
              exact hpass
          rw [← hafter, rowsAfter_get?] at hrow
          split at hrow
          · rename_i hplace
            obtain rfl := Mirror.name_injective hplace
            split at hrow
            · rename_i item hitem
              have hpath : path ≠ "" := by
                rintro rfl
                rw [get?_byPath_empty] at hitem
                cases hitem
              have hlast := hitem
              rw [get?_byPath items hpath] at hlast
              have hfor : pathFor h m' item = path := by simpa using List.find?_some hlast
              refine ⟨hpath, htaken, item, hfor, (Option.some.inj hrow).symm.trans ?_⟩
              unfold wanted
              cases hwas : t.get? (m'.name, path) with
              | none => rfl
              | some row' =>
                obtain ⟨-, -, item', -, rfl⟩ := hd m' path row' hwas
                exact setFields_rowOf item item'
            · split at hrow
              · cases hrow
              · exact absurd hrow hold
          · exact absurd hrow hold

theorem allDerived_run (h : Host) (imports : List ImportArgs) : AllDerived h ((overlays h).state imports) :=
  Machine.invariant (M := overlays h) (P := fun _ t => AllDerived h t) (fun _ _ _ hrow => (by cases hrow))
    (fun _ _ a hd => allDerived_importFile hd a) imports

/-- The entries of an exported document. -/
theorem overlayItems_exported {a : ImportArgs} {t : Table}
    (hcontent : a.content = .ok (.obj [(topKey m, .arr ((entries m t).map fun e => Json.obj (exportItem h m e.2)))])) :
    overlayItems m a = .ok ((entries m t).map fun e => exportItem h m e.2) := by
  have hread : readOverlay a = .ok [(topKey m, .arr ((entries m t).map fun e => Json.obj (exportItem h m e.2)))] := by
    rw [readOverlay, hcontent]
  have hget : Json.get [(topKey m, .arr ((entries m t).map fun e => Json.obj (exportItem h m e.2)))] (topKey m) =
      .arr ((entries m t).map fun e => Json.obj (exportItem h m e.2)) := by simp [Json.get]
  have hitems : ((entries m t).map fun e => Json.obj (exportItem h m e.2)).filterMap Json.entries? =
      (entries m t).map fun e => exportItem h m e.2 := by
    rw [List.filterMap_map]
    exact List.filterMap_eq_map.symm ▸ rfl
  rw [overlayItems, hread]
  show itemsOf (Json.get _ (topKey m)) = _
  rw [hget, itemsOf]
  split
  · rw [← hitems]
  · rename_i hfalsy
    cases hrows : entries m t with
    | nil => rfl
    | cons e rest =>
      rw [hrows] at hfalsy
      exact absurd rfl hfalsy

theorem checkNamespace_name (m : Mirror) : checkNamespace h m.name = .ok m := by
  cases m <;> rfl

theorem exportFile_name (path : String) (t : Table) : ∃ report, exportFile h m.name path t =
    .ok (.obj [(topKey m, .arr ((entries m t).map fun e => Json.obj (exportItem h m e.2)))], report) := by
  rw [exportFile, checkNamespace_name]
  exact ⟨_, rfl⟩

/-- The entries of an exported document have the identities of its rows. -/
theorem byPath_exported {t : Table} (hd : AllDerived h t) :
    (byPath h m ((entries m t).map fun e => exportItem h m e.2)).entries =
      (entries m t).map fun e => (e.1, exportItem h m e.2) := by
  have hderived : ∀ e ∈ entries m t, pathFor h m (exportItem h m e.2) = e.1 ∧ e.1 ≠ "" := by
    rintro ⟨path, row⟩ he
    obtain ⟨hpath, -, item, hfor, rfl⟩ := hd m path row (mem_entries.1 he)
    exact ⟨(pathFor_exported item).trans hfor, hpath⟩
  have hpaths : ((entries m t).map fun e => exportItem h m e.2).map (pathFor h m) = (entries m t).map Prod.fst := by
    rw [List.map_map]
    refine List.map_congr_left fun e he => ?_
    rw [Function.comp_apply, (hderived e he).1]
  have hnodup : ((entries m t).map Prod.fst).Nodup := by
    rw [entries, List.map_map]
    refine List.Nodup.of_map (fun path => (m.name, path)) ?_
    rw [List.map_map]
    have hkeys : ((t.entries.filter fun e => e.1.1 = m.name).map Prod.fst).Nodup :=
      t.nodup.sublist (List.filter_sublist.map _)
    convert hkeys using 1
    refine List.map_congr_left fun e he => ?_
    have hplace : e.1.1 = m.name := of_decide_eq_true (List.mem_filter.1 he).2
    show (m.name, e.1.2) = e.1
    rw [← hplace]
  rw [byPath, Dict.entries_keyed _ _ (by rw [hpaths]; exact hnodup)]
  · rw [List.map_map]
    refine List.map_congr_left fun e he => ?_
    rw [Function.comp_apply, (hderived e he).1]
  · intro item hitem
    obtain ⟨e, he, rfl⟩ := List.mem_map.1 hitem
    rw [(hderived e he).1]
    exact (hderived e he).2
  · intro item _
    exact List.not_mem_nil

/-- The import of an exported document into an empty namespace brings the rows back as they stood. -/
theorem importFile_exported {t t₀ : Table} (hd : AllDerived h t) (hempty : entries m t₀ = []) {a : ImportArgs}
    (hname : a.namespaceName = m.name)
    (hcontent : a.content = .ok (.obj [(topKey m, .arr ((entries m t).map fun e => Json.obj (exportItem h m e.2)))]))
    (hdry : a.dryRun = false) (hup : a.outage = none) :
    ∃ report t', importFile h a t₀ = (.ok report, t') ∧ entries m t' = entries m t := by
  have hcheck : checkNamespace h a.namespaceName = .ok m := by rw [hname, checkNamespace_name]
  have hitems := overlayItems_exported hcontent
  have hrows : entries m (rowsAfter h m ((entries m t).map fun e => exportItem h m e.2) a.prune
      { namespaceName := a.namespaceName, path := a.source } t₀) = entries m t := by
    rw [entries_rowsAfter hempty, byPath_exported hd, List.map_map]
    refine (List.map_congr_left fun e he => ?_).trans (List.map_id _)
    obtain ⟨-, -, item, -, hrow⟩ := hd m e.1 e.2 (mem_entries.1 he)
    have hback := rowOf_exported (h := h) (m := m) item
    rw [← hrow] at hback
    exact Prod.ext rfl hback
  have hcommit : commitFails h none t₀ (rowsAfter h m ((entries m t).map fun e => exportItem h m e.2) a.prune
      { namespaceName := a.namespaceName, path := a.source } t₀) = none := by
    refine List.findSome?_eq_none_iff.2 ?_
    rintro ⟨⟨place, path⟩, row⟩ he
    have hrow := Dict.get?_eq_some.2 he
    by_cases hold : t₀.get? (place, path) = some row
    · exact if_pos hold
    · rw [if_neg hold]
      by_cases hplace : place = m.name
      · subst hplace
        have hmem := mem_entries.2 hrow
        rw [hrows] at hmem
        exact (hd m path row (mem_entries.1 hmem)).2.1
      · rw [rowsAfter_get?, if_neg hplace] at hrow
        exact absurd hrow hold
  obtain ⟨report, hrun⟩ := importFile_run hdry hcheck hitems (by rw [hup]; exact hcommit)
  exact ⟨report, _, hrun, hrows⟩

/-- An import of whatever overlay is exact and atomic, and a second one finds nothing to do; whatever imports have made of
the rows, an export brings them back in their order. -/
theorem importFile_exact (h : Host) :
    (∀ a t, (∀ why t', importFile h a t = (.error why, t') → t' = t) ∧ (a.dryRun = true → (importFile h a t).2 = t) ∧
      (∀ m items, checkNamespace h a.namespaceName = .ok m → overlayItems m a = .ok items →
        a.dryRun = true ∨ (a.outage = none ∧ ∀ key row, h.refuses key row = none) →
          ∃ report t', importFile h a t = (.ok report, t')) ∧
      ∀ report t', importFile h a t = (.ok report, t') → a.dryRun = false →
        ∃ m items, checkNamespace h a.namespaceName = .ok m ∧ overlayItems m a = .ok items ∧ Imported h m items a.prune t t' ∧
          ∃ n, importFile h { a with outage := none } t' =
            (.ok { namespaceName := a.namespaceName, path := a.source, unchanged := n }, t')) ∧
    ∀ imports m path, ∃ document report, exportFile h (Mirror.name m) path ((overlays h).state imports) = .ok (document, report) ∧
      ∀ a t, entries m t = [] → a.namespaceName = m.name → a.content = .ok document → a.dryRun = false → a.outage = none →
        ∃ report' t', importFile h a t = (.ok report', t') ∧ entries m t' = entries m ((overlays h).state imports) := by
  refine ⟨fun a t => ⟨fun why t' hres => importFile_error hres, fun hdry => importFile_dry hdry t, ?_, ?_⟩, fun imports m path => ?_⟩
  · intro m items hcheck hitems hcommit
    unfold importFile
    rw [hcheck]
    dsimp only
    rw [hitems]
    dsimp only
    split
    · exact ⟨_, _, rfl⟩
    · rename_i hdry
      obtain ⟨hup, htakes⟩ := hcommit.resolve_left hdry
      have hnone (t' : Table) : commitFails h a.outage t t' = none := by
        rw [hup]
        refine List.findSome?_eq_none_iff.2 fun e _ => ?_
        split
        · rfl
        · exact htakes _ _
      rw [hnone]
      exact ⟨_, _, rfl⟩
  · intro report t' hok hdry
    obtain ⟨m, items, hcheck, hitems⟩ := exists_items hok
    obtain ⟨ht', -⟩ := importFile_ok hdry hcheck hitems hok
    refine ⟨m, items, hcheck, hitems, ?_, _, importFile_again hdry hcheck hitems ht'⟩
    rw [ht']
    exact imported_rowsAfter
  · obtain ⟨report, hexport⟩ := exportFile_name (h := h) (m := m) path ((overlays h).state imports)
    exact ⟨_, report, hexport, fun a t hempty hname hcontent hdry hup =>
      importFile_exported (allDerived_run h imports) hempty hname hcontent hdry hup⟩

end OpenFish.Mirrors
