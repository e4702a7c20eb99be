/-
What every import leaves behind: entries with their objects, whose texts the database takes and which are visible under
their paths, and categories whose texts the database stores as they stand.
-/
import OpenFish.Tools.Shelf
import OpenFish.Tools.Storage

namespace OpenFish.Tools

open Lib

/-- What an overlay says of a row. -/
def fieldsOf (row : CatalogEntry) : ToolMeta := ⟨row.displayName, row.description, row.tags⟩

/-- Texts without white space around them. -/
structure Stripped (fields : ToolMeta) : Prop where
  displayName : ∀ s, fields.displayName = some s → Text.strip s = s
  description : ∀ s, fields.description = some s → Text.strip s = s

/-- A row that an import made under this path. -/
structure Imported (h : ShelfHost) (path : String) (row : CatalogEntry) : Prop where
  relative : stripSlashes path = path
  visible : visible path = true
  stripped : Stripped (fieldsOf row)
  taken : h.refuses (fieldsOf row) = none

structure Kept (h : ShelfHost) (c : Catalog) : Prop where
  backed : Backed h.toHost c
  imported : ∀ path row, c.rows.get? path = some row → Imported h path row

/-- The database stores the texts of a category as they stand. -/
structure Storable (h : ShelfHost) (row : Category) : Prop where
  name : ∀ s, row.name = some s → h.column nameMax (.str s) = .ok (some s)
  description : ∀ s, row.description = some s → h.column descriptionMax (.str s) = .ok (some s)
  icon : ∀ s, row.icon = some s → h.column iconMax (.str s) = .ok (some s)

def AllStorable (h : ShelfHost) (categories : Dict String Category) : Prop :=
  ∀ slug row, categories.get? slug = some row → Storable h row

/-- What holds of the shelf after every import. -/
structure Sound (h : ShelfHost) (s : Shelf) : Prop where
  kept : Kept h s.catalog
  storable : AllStorable h s.categories

/-- What holds within an import. -/
structure SoundSession (h : ShelfHost) (s : Session) : Prop where
  kept : Kept h s.catalog
  saved : AllStorable h s.saved
  current : AllStorable h s.current

/-! ## Entries -/

section entries

variable {h : Host} {c : Catalog}

theorem stripped?_stripped (value : Json) {s : String} (hs : stripped? h value = some s) : Text.strip s = s := by
  unfold stripped? at hs
  split at hs
  · cases hs
    exact Text.strip_strip _
  · cases hs

theorem overlayMetadata_stripped {entry : Json} {fields : ToolMeta} (hok : overlayMetadata h entry = .ok fields) :
    Stripped fields := by
  obtain ⟨name, -, hok⟩ := ok_of_bind hok
  obtain ⟨description, -, hok⟩ := ok_of_bind hok
  obtain ⟨tags, -, hok⟩ := ok_of_bind hok
  obtain ⟨texts, -, hok⟩ := ok_of_bind hok
  cases hok
  exact ⟨fun _ => stripped?_stripped name, fun _ => stripped?_stripped description⟩

theorem metadataOf_stripped {overlay : Json} {path : String} {fields : ToolMeta}
    (hok : metadataOf h overlay path = .ok fields) : Stripped fields := by
  obtain ⟨byPath, -, hok⟩ := ok_of_bind hok
  obtain ⟨byName, -, hok⟩ := ok_of_bind hok
  exact overlayMetadata_stripped hok

/-- The row of a file is as the overlay says. -/
theorem importEntry_rows {overlay : Json} {actor : Option String} {dryRun : Bool} {file : SourceFile} {path : String}
    {row : CatalogEntry} (hrow : (importEntry h overlay actor dryRun file c).2.rows.get? path = some row) :
    c.rows.get? path = some row ∨
      path = stripSlashes file.path ∧ metadataOf h overlay file.path = .ok (fieldsOf row) ∧ h.refuses (fieldsOf row) = none := by
  unfold importEntry at hrow
  split at hrow
  · exact .inl hrow
  · rename_i data hcontent
    split at hrow
    · exact .inl hrow
    · rename_i fields hfields
      split at hrow
      · exact .inl hrow
      · rename_i modified hmtime
        dsimp only at hrow
        split at hrow
        · exact .inl hrow
        · split at hrow
          · exact .inl hrow
          · split at hrow
            · exact .inl hrow
            · rename_i hrefuses
              have hset {saved : CatalogEntry} (hfor : fieldsOf saved = fields)
                  (hget : (c.rows.set (stripSlashes file.path) saved).get? path = some row) :
                  c.rows.get? path = some row ∨ path = stripSlashes file.path ∧
                    metadataOf h overlay file.path = .ok (fieldsOf row) ∧ h.refuses (fieldsOf row) = none := by
                rw [Dict.get?_set] at hget
                split at hget
                · cases hget
                  rw [hfor]
                  exact .inr ⟨by assumption, hfields, hrefuses⟩
                · exact .inl hget
              split at hrow
              · exact hset rfl hrow
              · dsimp only at hrow
                split at hrow
                · exact hset rfl hrow
                · exact hset rfl hrow

theorem deleteEntry_rows {path path' : String} {row : CatalogEntry}
    (hrow : (deleteEntry path c).2.rows.get? path' = some row) : c.rows.get? path' = some row := by
  unfold deleteEntry at hrow
  split at hrow
  · exact hrow
  · rename_i old hold
    have herase : (c.rows.erase (stripSlashes path)).get? path' = some row := hrow
    rw [Dict.get?_erase] at herase
    split at herase
    · cases herase
    · exact herase

end entries

section kept

variable {h : ShelfHost} {c : Catalog}

theorem kept_empty (h : ShelfHost) : Kept h Shelf.empty.catalog :=
  ⟨⟨fun _ _ hrow => (by cases hrow), fun _ _ _ _ hrow => (by cases hrow), fun _ _ hdata => (by cases hdata)⟩,
    fun _ _ hrow => (by cases hrow)⟩

theorem Kept.importEntry (hc : Kept h c) {tree : SourceTree} {file : SourceFile} (hfile : file ∈ tree.seen)
    (actor : Option String) (dryRun : Bool) : Kept h (importEntry h.toHost tree.overlay actor dryRun file c).2 := by
  refine ⟨((importEntry_handled hc.backed tree.overlay actor dryRun file).spec hc.backed).1, fun path row hrow => ?_⟩
  rcases importEntry_rows hrow with hold | ⟨rfl, hfields, htaken⟩
  · exact hc.imported path row hold
  · obtain ⟨hmem, hvisible⟩ := List.mem_filter.1 hfile
    have hrelative := tree.relative file hmem
    exact ⟨by rw [hrelative, hrelative], by rw [hrelative]; exact hvisible, metadataOf_stripped hfields, htaken⟩

theorem Kept.deleteEntries (hc : Kept h c) (paths : List String) :
    Kept h (paths.foldl (fun c path => (deleteEntry path c).2) c) := by
  induction paths generalizing c with
  | nil => exact hc
  | cons path paths ih =>
    exact ih ⟨(deleteEntry_spec hc.backed path).1, fun path' row hrow => hc.imported path' row (deleteEntry_rows hrow)⟩

end kept

/-! ## Categories -/

section categories

variable {h : ShelfHost}

theorem stored_storable {m : CategoryMeta} {row : Category} (hok : stored h m = .ok row) : Storable h row := by
  obtain ⟨name, hname, hok⟩ := ok_of_bind hok
  obtain ⟨description, hdescription, hok⟩ := ok_of_bind hok
  obtain ⟨icon, hicon, hok⟩ := ok_of_bind hok
  cases hok
  constructor
  · rintro s rfl
    exact h.column_str hname
  · rintro s rfl
    exact h.column_str hdescription
  · rintro s rfl
    exact h.column_str hicon

theorem AllStorable.set {categories : Dict String Category} (hall : AllStorable h categories) {row : Category}
    (hrow : Storable h row) (slug : String) : AllStorable h (categories.set slug row) := by
  intro slug' row' hget
  rw [Dict.get?_set] at hget
  split at hget
  · cases hget
    exact hrow
  · exact hall slug' row' hget

variable {s s' : Session}

theorem SoundSession.flush (hs : SoundSession h s) (hok : flush h s = .ok s') : SoundSession h s' := by
  unfold Tools.flush at hok
  split at hok
  · cases hok
    exact hs
  · rename_i slug m hpending
    obtain ⟨row, hrow, hok⟩ := ok_of_bind hok
    cases hok
    exact ⟨hs.kept, hs.saved, hs.current.set (stored_storable hrow) slug⟩

theorem SoundSession.upsertCategory (hs : SoundSession h s) {slug : String} {m : CategoryMeta}
    (hok : upsertCategory h slug m s = .ok s') : SoundSession h s' := by
  obtain ⟨s₁, hflush, hok⟩ := ok_of_bind hok
  cases hok
  have hs₁ := hs.flush hflush
  exact ⟨hs₁.kept, hs₁.saved, hs₁.current⟩

theorem SoundSession.commit (hs : SoundSession h s) (hok : commit h s = .ok s') : SoundSession h s' := by
  obtain ⟨s₁, hflush, hok⟩ := ok_of_bind hok
  cases hok
  have hs₁ := hs.flush hflush
  exact ⟨hs₁.kept, hs₁.current, hs₁.current⟩

theorem SoundSession.importDirectories {overlay : Json} {dryRun : Bool} {slugs : List String} (hs : SoundSession h s)
    (hok : importDirectories h overlay dryRun slugs s = .ok s') : SoundSession h s' := by
  induction slugs generalizing s with
  | nil =>
    cases hok
    exact hs
  | cons slug slugs ih =>
    unfold Tools.importDirectories at hok
    split at hok
    · obtain ⟨entry, -, hok⟩ := ok_of_bind hok
      exact ih hs hok
    · obtain ⟨m, -, hok⟩ := ok_of_bind hok
      obtain ⟨s₁, hupsert, hok⟩ := ok_of_bind hok
      exact ih (hs.upsertCategory hupsert) hok

theorem SoundSession.rollback (hs : SoundSession h s) : SoundSession h (rollback s) := ⟨hs.kept, hs.saved, hs.saved⟩

theorem SoundSession.settle (hs : SoundSession h s) (dryRun : Bool) (fared : Fared) :
    SoundSession h (settle dryRun s fared) := by
  unfold Tools.settle
  split
  · split
    · exact hs
    · exact ⟨hs.kept, hs.current, hs.current⟩
  · split
    · exact hs
    · exact ⟨hs.kept, hs.current, hs.current⟩
  · exact hs.rollback
  · exact hs
  · exact hs

theorem SoundSession.importFile (hs : SoundSession h s) {tree : SourceTree} {file : SourceFile} (hfile : file ∈ tree.seen)
    (actor : Option String) (dryRun : Bool) : SoundSession h (importFile h tree.overlay actor dryRun file s).2 := by
  have hfrom {s₁ : Session} (hs₁ : SoundSession h s₁) (fared : Fared) :
      SoundSession h (Tools.settle dryRun
        { s₁ with catalog := (importEntry h.toHost tree.overlay actor dryRun file s₁.catalog).2 } fared) := by
    have himported : SoundSession h
        { s₁ with catalog := (importEntry h.toHost tree.overlay actor dryRun file s₁.catalog).2 } :=
      ⟨hs₁.kept.importEntry hfile actor dryRun, hs₁.saved, hs₁.current⟩
    exact himported.settle dryRun fared
  unfold Tools.importFile
  dsimp only
  split
  · split
    · exact hs.rollback
    · exact hs
  · rename_i s₁ hflush
    refine hfrom ?_ _
    split at hflush
    · exact hs.flush hflush
    · cases hflush
      exact hs

theorem SoundSession.importOne {p : ImportReport × Session} (hs : SoundSession h p.2) {tree : SourceTree}
    {file : SourceFile} (hfile : file ∈ tree.seen) (actor : Option String) (dryRun : Bool) :
    SoundSession h (importOne h tree.overlay actor dryRun file p).2.2 := by
  have hafter := hs.importFile hfile actor dryRun
  unfold Tools.importOne
  split
  · rename_i why s₁ heq
    rw [heq] at hafter
    exact hafter
  · rename_i fared s₁ _ heq
    rw [heq] at hafter
    exact hafter

theorem SoundSession.finish (hs : SoundSession h s) {dryRun : Bool} {tree : SourceTree}
    (hok : finish h dryRun tree s = .ok s') : SoundSession h s' := by
  unfold Tools.finish at hok
  split at hok
  · cases hok
    exact hs
  · obtain ⟨s₁, hroot, hok⟩ := ok_of_bind hok
    refine SoundSession.commit ?_ hok
    unfold upsertRoot at hroot
    split at hroot
    · exact hs.upsertCategory hroot
    · cases hroot
      exact hs

theorem SoundSession.closed (hs : SoundSession h s) : Sound h s.closed := ⟨hs.kept, hs.saved⟩

end categories

/-! ## Every run -/

theorem Sound.importShelf {h : ShelfHost} {shelf : Shelf} (hs : Sound h shelf) (a : ImportArgs) :
    Sound h (importShelf h a shelf).2 := by
  obtain ⟨source, actor, dryRun, prune⟩ := a
  cases source with
  | none => exact hs
  | some tree =>
    unfold Tools.importShelf
    dsimp only
    split
    · exact hs
    · rename_i s₁ hdirectories
      have hopened : SoundSession h (.opened shelf) := ⟨hs.kept, hs.storable, hs.storable⟩
      have hs₁ := hopened.importDirectories hdirectories
      have hlooped : SoundSession h (loop (importOne h tree.overlay actor dryRun) tree.seen
          ({ categories := (tree.directories.filter visible).length }, s₁)).2.2 :=
        loop_keeps (P := fun p : ImportReport × Session => SoundSession h p.2)
          (fun file hfile p hp => hp.importOne hfile actor dryRun) hs₁
      split
      · rename_i why report s₂ heq
        rw [heq] at hlooped
        exact SoundSession.closed hlooped
      · rename_i report s₂ heq
        rw [heq] at hlooped
        split
        · exact SoundSession.closed hlooped
        · rename_i s₃ hfinish
          have hs₃ := (SoundSession.finish hlooped hfinish).closed
          split
          · split
            · exact hs₃
            · exact ⟨hs₃.kept.deleteEntries _, hs₃.storable⟩
          · exact hs₃

theorem sound_run (h : ShelfHost) (imports : List ImportArgs) : Sound h ((shelf h).state imports) :=
  Machine.invariant (M := shelf h) (P := fun _ s => Sound h s) ⟨kept_empty h, fun _ _ hrow => (by cases hrow)⟩
    (fun _ _ a hs => hs.importShelf a) imports

end OpenFish.Tools
