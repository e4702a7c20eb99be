/-
The catalog that a reader sees, and what every operation keeps: a row has its bytes, no two rows share an object, and the
names of a row are normalised. What an operation does to the catalog is what its name says, and nothing else.
-/
import OpenFish.Docs.Store
import OpenFish.Lib.Effect

namespace OpenFish.Docs

open Lib

variable {τ : Type}

/-! ## The catalog -/

/-- A document as a reader sees it: its Markdown and its assets by their names. -/
structure Entry (τ : Type) where
  title : String
  body : Option ByteArray
  created : τ
  modified : τ
  assets : String → Option ByteArray

abbrev Catalog (τ : Type) := Place → Option (Entry τ)

def assetsOf (c : Store τ) (id : Nat) (name : String) : Option ByteArray := (c.assets.get? (id, name)).bind c.objects.get?

def entryOf (c : Store τ) (row : Document τ) : Entry τ where
  title := row.title
  body := row.storageKey.bind c.objects.get?
  created := row.createdAt
  modified := row.modifiedAt
  assets := assetsOf c row.id

def catalogOf (c : Store τ) : Catalog τ := fun place => (c.documents.get? place).map (entryOf c)

/-- A document in its place, whatever was there. -/
def Catalog.write (v : Catalog τ) (place : Place) (entry : Entry τ) : Catalog τ := Function.update v place (some entry)

def Entry.attach (entry : Entry τ) (name : String) (data : ByteArray) : Entry τ :=
  { entry with assets := Function.update entry.assets name (some data) }

/-! ## What every operation keeps -/

/-- What a row is the owner of: the Markdown of a document, all its revisions included, or one asset. -/
inductive Owner
  | body (id : Nat)
  | asset (id : Nat) (name : String)
  deriving DecidableEq

def Owner.document : Owner → Nat
  | body id => id
  | asset id _ => id

/-- A row of this owner names the object. -/
def Holds (c : Store τ) (key : Nat) : Owner → Prop
  | .body id => (∃ place row, c.documents.get? place = some row ∧ row.id = id ∧ row.storageKey = some key) ∨
      ∃ revision ∈ c.revisions, revision.documentId = id ∧ revision.storageKey = key
  | .asset id name => c.assets.get? (id, name) = some key

/-- No object has two owners; keys to come are new. -/
structure Keyed (c : Store τ) : Prop where
  apart : ∀ {key o o'}, Holds c key o → Holds c key o' → o = o'
  fresh : ∀ {key o}, Holds c key o → key < c.nextKey

structure DocumentOk (h : Host τ) (c : Store τ) (place : Place) (row : Document τ) : Prop where
  ecosystem : place.1 ∈ ecosystems
  slug : normalizeDocId place.2 = .ok place.2
  title : normalizeTitle row.title = .ok row.title
  content : ∃ (key : Nat) (content : String), row.storageKey = some key ∧ c.objects.get? key = some content.toUTF8 ∧
    content.toUTF8.size ≤ maxDocBytes ∧ row.sha256 = some (h.sha256 content.toUTF8)

structure AssetOk (c : Store τ) (name : String) (key : Nat) : Prop where
  name : AssetName name
  data : ∃ data, c.objects.get? key = some data ∧ data.size ≤ maxAssetBytes

structure Sound (h : Host τ) (c : Store τ) : Prop where
  keyed : Keyed c
  ids : ∀ {place place' row row'}, c.documents.get? place = some row → c.documents.get? place' = some row' →
    row.id = row'.id → place = place'
  idLt : ∀ {place row}, c.documents.get? place = some row → row.id < c.nextId
  assetIdLt : ∀ {k key}, c.assets.get? k = some key → k.1 < c.nextId
  document : ∀ {place row}, c.documents.get? place = some row → DocumentOk h c place row
  asset : ∀ {k key}, c.assets.get? k = some key → AssetOk c k.2 key

theorem sound_empty (h : Host τ) : Sound h (Store.empty : Store τ) := by
  have hnone {key : Nat} {o : Owner} : ¬ Holds (Store.empty : Store τ) key o := by
    intro ho
    cases o with
    | body id =>
      rcases ho with ⟨_, _, hrow, -, -⟩ | ⟨_, hmem, -⟩
      · cases hrow
      · cases hmem
    | asset id name => cases ho
  refine ⟨⟨fun ho => absurd ho hnone, fun ho => absurd ho hnone⟩, ?_, ?_, ?_, ?_, ?_⟩ <;> intros <;> contradiction

/-- Whoever holds an object after a step held it before, or holds the one object that is new. -/
theorem Keyed.step {c c' : Store τ} (h : Keyed c) (owner : Owner) (hnext : c.nextKey ≤ c'.nextKey)
    (hholds : ∀ key o, Holds c' key o → Holds c key o ∨ (key = c.nextKey ∧ o = owner ∧ c.nextKey < c'.nextKey)) :
    Keyed c' := by
  constructor
  · intro key o o' ho ho'
    rcases hholds key o ho with hold | ⟨hkey, howner, -⟩ <;> rcases hholds key o' ho' with hold' | ⟨hkey', howner', -⟩
    · exact h.apart hold hold'
    · exact absurd (h.fresh hold) (by omega)
    · exact absurd (h.fresh hold') (by omega)
    · exact howner.trans howner'.symm
  · intro key o ho
    rcases hholds key o ho with hold | ⟨rfl, -, hlt⟩
    · exact Nat.lt_of_lt_of_le (h.fresh hold) hnext
    · exact hlt

/-- The objects that are held before and after a step are as they were. -/
def Kept (c c' : Store τ) : Prop := ∀ key o, Holds c key o → Holds c' key o → c'.objects.get? key = c.objects.get? key

theorem holds_body {c : Store τ} {place : Place} {row : Document τ} {key : Nat} (hrow : c.documents.get? place = some row)
    (hkey : row.storageKey = some key) : Holds c key (.body row.id) := .inl ⟨place, row, hrow, rfl, hkey⟩

/-- A document whose rows a step leaves looks as it did. -/
theorem entryOf_kept {c c' : Store τ} (hkept : Kept c c') {place : Place} {row : Document τ}
    (hrow : c.documents.get? place = some row) (hrow' : c'.documents.get? place = some row)
    (hassets : ∀ name, c'.assets.get? (row.id, name) = c.assets.get? (row.id, name)) : entryOf c' row = entryOf c row := by
  have hbody : row.storageKey.bind c'.objects.get? = row.storageKey.bind c.objects.get? := by
    cases hkey : row.storageKey with
    | none => rfl
    | some key => exact hkept _ _ (holds_body hrow hkey) (holds_body hrow' hkey)
  have hfiles : assetsOf c' row.id = assetsOf c row.id := by
    funext name
    rw [assetsOf, assetsOf, hassets]
    cases hkey : c.assets.get? (row.id, name) with
    | none => rfl
    | some key => exact hkept _ (.asset row.id name) hkey ((hassets name).trans hkey)
  rw [entryOf, entryOf, hbody, hfiles]

theorem DocumentOk.kept {h : Host τ} {c c' : Store τ} (hkept : Kept c c') {place : Place} {row : Document τ}
    (hok : DocumentOk h c place row) (hrow : c.documents.get? place = some row) (hrow' : c'.documents.get? place = some row) :
    DocumentOk h c' place row := by
  obtain ⟨key, content, hkey, hdata, hrest⟩ := hok.content
  exact ⟨hok.ecosystem, hok.slug, hok.title, key, content, hkey,
    (hkept _ _ (holds_body hrow hkey) (holds_body hrow' hkey)).trans hdata, hrest⟩

theorem AssetOk.kept {c c' : Store τ} (hkept : Kept c c') {k : Nat × String} {key : Nat} (hok : AssetOk c k.2 key)
    (hkey : c.assets.get? k = some key) (hkey' : c'.assets.get? k = some key) : AssetOk c' k.2 key := by
  obtain ⟨data, hdata, hsize⟩ := hok.data
  exact ⟨hok.name, data, (hkept _ (.asset k.1 k.2) hkey hkey').trans hdata, hsize⟩

/-! ## A revision is stored -/

/-- The row is that of the place, or the place has none and no row has its id. -/
structure Fits (c : Store τ) (place : Place) (row : Document τ) : Prop where
  idLt : row.id < c.nextId
  same : ∀ {place' row'}, c.documents.get? place' = some row' → (row'.id = row.id ↔ place' = place)

section storedRevision

variable {h : Host τ} {c : Store τ} {place : Place} {row : Document τ} {content title : String}

theorem get?_storedRevision (place' : Place) : (storedRevision h place row content title c).documents.get? place' =
    if place' = place then
      some { row with
        title
        revision := row.revision + 1
        storageKey := some c.nextKey
        sha256 := some (h.sha256 content.toUTF8)
        modifiedAt := h.now c.nextKey }
    else c.documents.get? place' := Dict.get?_set _ _ _ _

theorem holds_storedRevision {key : Nat} {o : Owner} (ho : Holds (storedRevision h place row content title c) key o) :
    Holds c key o ∨ (key = c.nextKey ∧ o = .body row.id) := by
  cases o with
  | asset id name => exact .inl ho
  | body id =>
    rcases ho with ⟨place', row', hrow', rfl, hkey⟩ | ⟨revision, hmem, rfl, rfl⟩
    · rw [get?_storedRevision] at hrow'
      split at hrow'
      · cases hrow'
        cases hkey
        exact .inr ⟨rfl, rfl⟩
      · exact .inl (.inl ⟨place', row', hrow', rfl, hkey⟩)
    · rcases List.mem_append.1 hmem with hmem | hmem
      · exact .inl (.inr ⟨revision, hmem, rfl, rfl⟩)
      · rw [List.mem_singleton.1 hmem]
        exact .inr ⟨rfl, rfl⟩

theorem kept_storedRevision (hk : Keyed c) : Kept c (storedRevision h place row content title c) := by
  intro key o ho _
  show (c.objects.set c.nextKey content.toUTF8).get? key = _
  rw [Dict.get?_set, if_neg (Nat.ne_of_lt (hk.fresh ho))]

theorem entryOf_storedRevision (hk : Keyed c) (row' : Document τ) (hid : row'.id = row.id)
    (hkey : row'.storageKey = some c.nextKey) : entryOf (storedRevision h place row content title c) row' =
      { title := row'.title, body := some content.toUTF8, created := row'.createdAt, modified := row'.modifiedAt,
        assets := assetsOf c row.id } := by
  have hbody : row'.storageKey.bind (storedRevision h place row content title c).objects.get? = some content.toUTF8 := by
    rw [hkey]
    exact (Dict.get?_set _ _ _ _).trans (if_pos rfl)
  have hassets : assetsOf (storedRevision h place row content title c) row'.id = assetsOf c row.id := by
    funext name
    rw [hid]
    show (c.assets.get? (row.id, name)).bind _ = (c.assets.get? (row.id, name)).bind _
    cases hasset : c.assets.get? (row.id, name) with
    | none => rfl
    | some key => exact kept_storedRevision (h := h) hk _ (.asset row.id name) hasset hasset
  rw [entryOf, hbody, hassets]

/-- What a stored revision shows: the new Markdown under the new title, the assets as they were. -/
theorem catalogOf_storedRevision (hk : Keyed c) (place : Place) (row : Document τ) (content title : String) :
    catalogOf (storedRevision h place row content title c) = (catalogOf c).write place
      { title, body := some content.toUTF8, created := row.createdAt, modified := h.now c.nextKey,
        assets := assetsOf c row.id } := by
  funext place'
  rw [catalogOf, get?_storedRevision, Catalog.write, Function.update_apply]
  split
  · rw [Option.map_some, entryOf_storedRevision hk]
    · rfl
    · rfl
  · rename_i hne
    cases hrow' : c.documents.get? place' with
    | none => rw [catalogOf, hrow']; rfl
    | some row' =>
      rw [catalogOf, hrow', Option.map_some, Option.map_some]
      refine congrArg some (entryOf_kept (kept_storedRevision hk) hrow' ?_ fun _ => rfl)
      rw [get?_storedRevision, if_neg hne, hrow']

theorem Sound.storedRevision (hs : Sound h c) (hfits : Fits c place row) (hecosystem : place.1 ∈ ecosystems)
    (hslug : normalizeDocId place.2 = .ok place.2) (htitle : normalizeTitle title = .ok title)
    (hsize : content.toUTF8.size ≤ maxDocBytes) : Sound h (storedRevision h place row content title c) := by
  have hkept : Kept c (Docs.storedRevision h place row content title c) := kept_storedRevision hs.keyed
  refine ⟨hs.keyed.step (.body row.id) (Nat.le_succ _) fun key o ho => ?_, ?_, ?_, hs.assetIdLt, ?_, ?_⟩
  · rcases holds_storedRevision ho with hold | ⟨hkey, howner⟩
    · exact .inl hold
    · exact .inr ⟨hkey, howner, Nat.lt_succ_self _⟩
  · intro place₁ place₂ row₁ row₂ h₁ h₂ hid
    rw [get?_storedRevision] at h₁ h₂
    by_cases heq₁ : place₁ = place <;> by_cases heq₂ : place₂ = place
    · exact heq₁.trans heq₂.symm
    · rw [if_pos heq₁] at h₁
      rw [if_neg heq₂] at h₂
      cases h₁
      exact absurd ((hfits.same h₂).1 hid.symm) heq₂
    · rw [if_neg heq₁] at h₁
      rw [if_pos heq₂] at h₂
      cases h₂
      exact absurd ((hfits.same h₁).1 hid) heq₁
    · rw [if_neg heq₁] at h₁
      rw [if_neg heq₂] at h₂
      exact hs.ids h₁ h₂ hid
  · intro place' row' hrow'
    rw [get?_storedRevision] at hrow'
    split at hrow'
    · cases hrow'
      exact hfits.idLt
    · exact hs.idLt hrow'
  · intro place' row' hrow'
    have hrow := hrow'
    rw [get?_storedRevision] at hrow
    split at hrow
    · rename_i heq
      subst heq
      cases hrow
      refine ⟨hecosystem, hslug, htitle, c.nextKey, content, rfl, ?_, hsize, rfl⟩
      exact (Dict.get?_set _ _ _ _).trans (if_pos rfl)
    · exact (hs.document hrow).kept hkept hrow hrow'
  · intro k key hkey
    exact (hs.asset hkey).kept hkept hkey hkey

end storedRevision

/-- The row of a place fits it, and to look for it shows nothing new. -/
theorem rowFor_spec {h : Host τ} {c : Store τ} (hs : Sound h c) (place : Place) (title : String) :
    Sound h (rowFor h place title c).2 ∧ Fits (rowFor h place title c).2 place (rowFor h place title c).1 ∧
      catalogOf (rowFor h place title c).2 = catalogOf c := by
  unfold rowFor
  cases hrow : c.documents.get? place with
  | some row =>
    refine ⟨hs, ⟨hs.idLt hrow, fun hrow' => ⟨fun hid => hs.ids hrow' hrow hid, fun hplace => ?_⟩⟩, rfl⟩
    subst hplace
    rw [hrow] at hrow'
    cases hrow'
    rfl
  | none =>
    refine ⟨⟨⟨hs.keyed.apart, hs.keyed.fresh⟩, hs.ids, fun hrow' => Nat.lt_succ_of_lt (hs.idLt hrow'),
      fun hkey => Nat.lt_succ_of_lt (hs.assetIdLt hkey), fun hrow' => ?_, fun hkey => ?_⟩, ⟨Nat.lt_succ_self _, ?_⟩, rfl⟩
    · obtain ⟨hecosystem, hslug, htitle, hcontent⟩ := hs.document hrow'
      exact ⟨hecosystem, hslug, htitle, hcontent⟩
    · obtain ⟨hname, hdata⟩ := hs.asset hkey
      exact ⟨hname, hdata⟩
    · intro place' row' hrow'
      have hlt := hs.idLt hrow'
      constructor
      · intro hid
        exact absurd hid (Nat.ne_of_lt hlt)
      · rintro rfl
        exact absurd (hrow.symm.trans hrow') (by simp)

/-! ## An asset is stored -/

section storedAsset

variable {h : Host τ} {c : Store τ} {id : Nat} {name : String} {data : ByteArray}

theorem assets_storedAsset (k : Nat × String) : (storedAsset id name data c).assets.get? k =
    if k = (id, name) then some c.nextKey else c.assets.get? k := Dict.get?_set _ _ _ _

theorem objects_storedAsset {key : Nat} (hne : c.assets.get? (id, name) ≠ some key) :
    (storedAsset id name data c).objects.get? key = if key = c.nextKey then some data else c.objects.get? key := by
  have hput : (put c data).objects.get? key = if key = c.nextKey then some data else c.objects.get? key :=
    Dict.get?_set _ _ _ _
  unfold storedAsset
  dsimp only
  cases hold : c.assets.get? (id, name) with
  | none => exact hput
  | some superseded =>
    have hother : key ≠ superseded := by
      rintro rfl
      exact hne hold
    dsimp only
    split
    · rw [Dict.get?_erase, if_neg hother]
      exact hput
    · exact hput

theorem holds_storedAsset {key : Nat} {o : Owner} (ho : Holds (storedAsset id name data c) key o) :
    (Holds c key o ∧ o ≠ .asset id name) ∨ (key = c.nextKey ∧ o = .asset id name) := by
  cases o with
  | body id' => exact .inl ⟨ho, by simp⟩
  | asset id' name' =>
    have hget : (storedAsset id name data c).assets.get? (id', name') = some key := ho
    rw [assets_storedAsset] at hget
    split at hget
    · rename_i heq
      cases heq
      cases hget
      exact .inr ⟨rfl, rfl⟩
    · rename_i hne
      exact .inl ⟨hget, fun heq => hne (by cases heq; rfl)⟩

theorem kept_storedAsset (hk : Keyed c) : Kept c (storedAsset id name data c) := by
  intro key o ho ho'
  have hlt := Nat.ne_of_lt (hk.fresh ho)
  have hother : o ≠ .asset id name := by
    rcases holds_storedAsset ho' with ⟨-, hne⟩ | ⟨heq, -⟩
    · exact hne
    · exact absurd heq hlt
  rw [objects_storedAsset, if_neg hlt]
  intro hold
  have hheld : Holds c key (.asset id name) := hold
  exact hother (hk.apart ho hheld)

theorem object_storedAsset (hk : Keyed c) : (storedAsset id name data c).objects.get? c.nextKey = some data := by
  rw [objects_storedAsset, if_pos rfl]
  intro hold
  exact absurd (hk.fresh (o := .asset id name) hold) (Nat.lt_irrefl _)

/-- What a stored asset shows: the document has it, and every other document is as it was. -/
theorem catalogOf_storedAsset (hs : Sound h c) {place : Place} {row : Document τ} (hrow : c.documents.get? place = some row) :
    catalogOf (storedAsset row.id name data c) = (catalogOf c).write place ((entryOf c row).attach name data) := by
  have hkept : Kept c (storedAsset row.id name data c) := kept_storedAsset hs.keyed
  funext place'
  rw [Catalog.write, Function.update_apply]
  show (c.documents.get? place').map _ = _
  split
  · rename_i heq
    subst heq
    rw [hrow, Option.map_some]
    have hbody : row.storageKey.bind (storedAsset row.id name data c).objects.get? = row.storageKey.bind c.objects.get? := by
      cases hkey : row.storageKey with
      | none => rfl
      | some key => exact hkept _ _ (holds_body hrow hkey) (holds_body (c := storedAsset row.id name data c) hrow hkey)
    have hassets : assetsOf (storedAsset row.id name data c) row.id = Function.update (assetsOf c row.id) name (some data) := by
      funext name'
      rw [assetsOf, assets_storedAsset, Function.update_apply]
      by_cases hname : name' = name
      · subst hname
        rw [if_pos rfl, if_pos rfl]
        exact object_storedAsset hs.keyed
      · have hne : (row.id, name') ≠ (row.id, name) := fun heq => hname (Prod.mk.inj heq).2
        rw [if_neg hne, if_neg hname, assetsOf]
        cases hkey : c.assets.get? (row.id, name') with
        | none => rfl
        | some key =>
          have hkey' : (storedAsset row.id name data c).assets.get? (row.id, name') = some key := by
            rw [assets_storedAsset, if_neg hne, hkey]
          exact hkept _ (.asset row.id name') hkey hkey'
    rw [entryOf, hbody, hassets]
    rfl
  · rename_i hne
    rw [catalogOf]
    cases hrow' : c.documents.get? place' with
    | none => rfl
    | some row' =>
      refine congrArg some (entryOf_kept hkept hrow' hrow' fun name' => ?_)
      rw [assets_storedAsset, if_neg]
      intro heq
      exact hne (hs.ids hrow' hrow (Prod.mk.inj heq).1)

theorem Sound.storedAsset (hs : Sound h c) (hid : id < c.nextId) (hname : AssetName name)
    (hsize : data.size ≤ maxAssetBytes) : Sound h (storedAsset id name data c) := by
  have hkept : Kept c (Docs.storedAsset id name data c) := kept_storedAsset hs.keyed
  refine ⟨hs.keyed.step (.asset id name) (Nat.le_succ _) fun key o ho => ?_, hs.ids, hs.idLt, ?_, ?_, ?_⟩
  · rcases holds_storedAsset ho with ⟨hold, -⟩ | ⟨hkey, howner⟩
    · exact .inl hold
    · exact .inr ⟨hkey, howner, Nat.lt_succ_self _⟩
  · intro k key hkey
    rw [assets_storedAsset] at hkey
    split at hkey
    · rename_i heq
      rw [heq]
      exact hid
    · exact hs.assetIdLt hkey
  · intro place row hrow
    exact (hs.document hrow).kept hkept hrow hrow
  · intro k key hkey
    have hget := hkey
    rw [assets_storedAsset] at hget
    split at hget
    · rename_i heq
      cases hget
      rw [heq]
      exact ⟨hname, data, object_storedAsset hs.keyed, hsize⟩
    · exact (hs.asset hget).kept hkept hget hkey

end storedAsset

/-! ## What is deleted -/

/-- A step that only takes rows away, and no object that is still held. -/
theorem Sound.fewer {h : Host τ} {c c' : Store τ} (hs : Sound h c)
    (hdocuments : ∀ {place row}, c'.documents.get? place = some row → c.documents.get? place = some row)
    (hassets : ∀ {k key}, c'.assets.get? k = some key → c.assets.get? k = some key)
    (hholds : ∀ {key o}, Holds c' key o → Holds c key o) (hkept : Kept c c') (hid : c'.nextId = c.nextId)
    (hkey : c'.nextKey = c.nextKey) : Sound h c' where
  keyed := hs.keyed.step (.body 0) hkey.ge fun _ _ ho => .inl (hholds ho)
  ids h₁ h₂ := hs.ids (hdocuments h₁) (hdocuments h₂)
  idLt hrow := hid ▸ hs.idLt (hdocuments hrow)
  assetIdLt hasset := hid ▸ hs.assetIdLt (hassets hasset)
  document hrow := (hs.document (hdocuments hrow)).kept hkept (hdocuments hrow) hrow
  asset hasset := (hs.asset (hassets hasset)).kept hkept (hassets hasset) hasset

theorem holds_of_mem_documentKeys {c : Store τ} {id key : Nat} (h : key ∈ documentKeys c id) :
    ∃ o, Holds c key o ∧ o.document = id := by
  rcases List.mem_append.1 h with h | h
  · obtain ⟨revision, hmem, rfl⟩ := List.mem_map.1 h
    obtain ⟨hmem, hid⟩ := List.mem_filter.1 hmem
    exact ⟨.body id, .inr ⟨revision, hmem, of_decide_eq_true hid, rfl⟩, rfl⟩
  · obtain ⟨⟨⟨id', name⟩, key'⟩, hmem, rfl⟩ := List.mem_map.1 h
    obtain ⟨hentry, hid⟩ := List.mem_filter.1 hmem
    exact ⟨.asset id' name, Dict.get?_eq_some.2 hentry, of_decide_eq_true hid⟩

section dropDocument

variable {h : Host τ} {c : Store τ} {place : Place} {row : Document τ}

theorem get?_dropDocument (id : Nat) (place' : Place) :
    (dropDocument place id c).documents.get? place' = if place' = place then none else c.documents.get? place' :=
  Dict.get?_erase _ _ _

theorem assets_dropDocument {id : Nat} {k : Nat × String} {key : Nat} :
    (dropDocument place id c).assets.get? k = some key ↔ c.assets.get? k = some key ∧ k.1 ≠ id := by
  show (c.assets.keep _).get? k = _ ↔ _
  rw [Dict.get?_keep, Option.filter_eq_some_iff, decide_eq_true_eq]

theorem holds_dropDocument (hs : Sound h c) (hrow : c.documents.get? place = some row) {key : Nat} {o : Owner}
    (ho : Holds (dropDocument place row.id c) key o) : Holds c key o ∧ o.document ≠ row.id := by
  cases o with
  | body id =>
    rcases ho with ⟨place', row', hrow', rfl, hkey⟩ | ⟨revision, hmem, rfl, hkey⟩
    · rw [get?_dropDocument] at hrow'
      split at hrow'
      · cases hrow'
      · rename_i hne
        exact ⟨.inl ⟨place', row', hrow', rfl, hkey⟩, fun hid => hne (hs.ids hrow' hrow hid)⟩
    · obtain ⟨hmem, hid⟩ := List.mem_filter.1 hmem
      exact ⟨.inr ⟨revision, hmem, rfl, hkey⟩, of_decide_eq_true hid⟩
  | asset id name => exact assets_dropDocument.1 ho

theorem kept_dropDocument (hs : Sound h c) (hrow : c.documents.get? place = some row) :
    Kept c (dropDocument place row.id c) := by
  intro key o ho ho'
  show (c.objects.keep _).get? key = _
  rw [Dict.get?_keep]
  have hother : key ∉ documentKeys c row.id := by
    intro hmem
    obtain ⟨o', hold, hid⟩ := holds_of_mem_documentKeys hmem
    cases hs.keyed.apart ho hold
    exact (holds_dropDocument hs hrow ho').2 hid
  cases c.objects.get? key with
  | none => rfl
  | some data => simp [hother]

theorem Sound.dropDocument (hs : Sound h c) (hrow : c.documents.get? place = some row) :
    Sound h (dropDocument place row.id c) := by
  refine hs.fewer (fun hrow' => ?_) (fun hkey => (assets_dropDocument.1 hkey).1)
    (fun ho => (holds_dropDocument hs hrow ho).1) (kept_dropDocument hs hrow) rfl rfl
  rw [get?_dropDocument] at hrow'
  split at hrow'
  · cases hrow'
  · exact hrow'

/-- What a deletion shows: the document is gone, and every other is as it was. -/
theorem catalogOf_dropDocument (hs : Sound h c) (hrow : c.documents.get? place = some row) :
    catalogOf (dropDocument place row.id c) = Function.update (catalogOf c) place none := by
  funext place'
  rw [Function.update_apply, catalogOf, get?_dropDocument]
  split
  · rfl
  · rename_i hne
    rw [catalogOf]
    cases hrow' : c.documents.get? place' with
    | none => rfl
    | some row' =>
      refine congrArg some (entryOf_kept (kept_dropDocument hs hrow) hrow' ?_ fun name => ?_)
      · rw [get?_dropDocument, if_neg hne, hrow']
      · ext key
        rw [assets_dropDocument]
        exact and_iff_left fun hid => hne (hs.ids hrow' hrow hid)

end dropDocument

section dropAsset

variable {h : Host τ} {c : Store τ} {k : Nat × String} {key : Nat}

theorem assets_dropAsset (k' : Nat × String) :
    (dropAsset k key c).assets.get? k' = if k' = k then none else c.assets.get? k' := Dict.get?_erase _ _ _

theorem holds_dropAsset {key' : Nat} {o : Owner} (ho : Holds (dropAsset k key c) key' o) :
    Holds c key' o ∧ o ≠ .asset k.1 k.2 := by
  cases o with
  | body id => exact ⟨ho, by simp⟩
  | asset id name =>
    have hget : (dropAsset k key c).assets.get? (id, name) = some key' := ho
    rw [assets_dropAsset] at hget
    split at hget
    · cases hget
    · rename_i hne
      exact ⟨hget, fun heq => hne (by cases heq; rfl)⟩

theorem kept_dropAsset (hk : Keyed c) (hkey : c.assets.get? k = some key) : Kept c (dropAsset k key c) := by
  intro key' o ho ho'
  refine (Dict.get?_erase _ _ _).trans (if_neg ?_)
  rintro rfl
  have hheld : Holds c key' (.asset k.1 k.2) := hkey
  exact (holds_dropAsset ho').2 (hk.apart ho hheld)

theorem Sound.dropAsset (hs : Sound h c) (hkey : c.assets.get? k = some key) : Sound h (dropAsset k key c) := by
  refine hs.fewer id (fun hget => ?_) (fun ho => (holds_dropAsset ho).1) (kept_dropAsset hs.keyed hkey) rfl rfl
  rw [assets_dropAsset] at hget
  split at hget
  · cases hget
  · exact hget

end dropAsset

/-! ## Every run -/

theorem requireEcosystem_ok {ecosystem : String} (h : requireEcosystem ecosystem = .ok ()) : ecosystem ∈ ecosystems := by
  unfold requireEcosystem at h
  split at h
  · assumption
  · cases h

theorem checkDocBytes_ok {encoded : ByteArray} (h : checkDocBytes encoded = .ok ()) : encoded.size ≤ maxDocBytes := by
  unfold checkDocBytes at h
  split at h
  · cases h
  · exact Nat.le_of_not_lt (by assumption)

theorem requireDocument_ok {c : Store τ} {ecosystem docId slug : String} {row : Document τ}
    (h : requireDocument c ecosystem docId = .ok (slug, row)) :
    ecosystem ∈ ecosystems ∧ normalizeDocId docId = .ok slug ∧ c.documents.get? (ecosystem, slug) = some row := by
  obtain ⟨_, hecosystem, h⟩ := ok_of_bind h
  obtain ⟨slug', hslug, h⟩ := ok_of_bind h
  split at h
  · cases h
  · rename_i row' hrow
    cases h
    exact ⟨requireEcosystem_ok hecosystem, hslug, hrow⟩

theorem storeRevision_ok {h : Host τ} {place : Place} {row : Document τ} {content title : String} {c c' : Store τ}
    (hok : storeRevision h place row content title c = .ok c') :
    content.toUTF8.size ≤ maxDocBytes ∧ c' = storedRevision h place row content title c := by
  obtain ⟨_, hsize, hok⟩ := ok_of_bind hok
  exact ⟨checkDocBytes_ok hsize, (Except.ok.inj hok).symm⟩

theorem saveAsset_ok {ecosystem docId name : String} {data : ByteArray} {c c' : Store τ}
    (h : saveAsset ecosystem docId name data c = .ok c') :
    ∃ slug row filename, c.documents.get? (ecosystem, slug) = some row ∧ normalizeAssetName name = .ok filename ∧
      data.size ≤ maxAssetBytes ∧ c' = storedAsset row.id filename data c := by
  unfold saveAsset at h
  split at h
  · cases h
  · rename_i hsize
    obtain ⟨⟨slug, row⟩, hrow, h⟩ := ok_of_bind h
    obtain ⟨filename, hname, h⟩ := ok_of_bind h
    exact ⟨slug, row, filename, (requireDocument_ok hrow).2.2, hname, Nat.le_of_not_lt hsize, (Except.ok.inj h).symm⟩

theorem sound_perform {h : Host τ} {c c' : Store τ} (hs : Sound h c) {op : Op} (hok : perform h c op = .ok c') :
    Sound h c' := by
  cases op with
  | saveDocument ecosystem title content docId =>
    obtain ⟨_, hecosystem, hok⟩ := ok_of_bind hok
    obtain ⟨_, -, hok⟩ := ok_of_bind hok
    obtain ⟨cleanTitle, htitle, hok⟩ := ok_of_bind hok
    obtain ⟨slug, hslug, hok⟩ := ok_of_bind hok
    obtain ⟨hsize, rfl⟩ := storeRevision_ok hok
    obtain ⟨hs', hfits, -⟩ := rowFor_spec hs (ecosystem, slug) cleanTitle
    have hnormal : normalizeDocId slug = .ok slug := by
      unfold slugFor at hslug
      split at hslug
      · exact normalizeDocId_of_ok hslug
      · rw [← Except.ok.inj hslug]
        exact normalizeDocId_slugify _ _
    exact hs'.storedRevision hfits (requireEcosystem_ok hecosystem) hnormal (normalizeTitle_of_ok htitle) hsize
  | saveContent ecosystem docId content revision =>
    obtain ⟨_, -, hok⟩ := ok_of_bind hok
    obtain ⟨⟨slug, row⟩, hrow, hok⟩ := ok_of_bind hok
    obtain ⟨hecosystem, hslug, hrow⟩ := requireDocument_ok hrow
    dsimp only at hok
    split at hok
    · cases hok
    · obtain ⟨title, htitle, hok⟩ := ok_of_bind hok
      obtain ⟨hsize, rfl⟩ := storeRevision_ok hok
      have hfits : Fits c (ecosystem, slug) row := by
        have hfound := (rowFor_spec hs (ecosystem, slug) title).2.1
        rwa [rowFor, hrow] at hfound
      exact hs.storedRevision hfits hecosystem (normalizeDocId_of_ok hslug) (normalizeTitle_of_ok htitle) hsize
  | saveAsset ecosystem docId name data =>
    obtain ⟨slug, row, filename, hrow, hname, hsize, rfl⟩ := saveAsset_ok hok
    exact hs.storedAsset (hs.idLt hrow) (assetName_of_ok hname) hsize
  | delete ecosystem docId =>
    obtain ⟨⟨slug, row⟩, hrow, hok⟩ := ok_of_bind hok
    cases Except.ok.inj hok
    exact hs.dropDocument (requireDocument_ok hrow).2.2
  | deleteAsset ecosystem docId name =>
    obtain ⟨⟨slug, row⟩, hrow, hok⟩ := ok_of_bind hok
    obtain ⟨filename, -, hok⟩ := ok_of_bind hok
    split at hok
    · cases hok
    · rename_i key hkey
      cases Except.ok.inj hok
      exact hs.dropAsset hkey

/-- Whatever is done in the panel, the rows are sound. -/
theorem sound_panel (h : Host τ) (ops : List Op) : Sound h ((panel h).state ops) :=
  Machine.invariant (M := panel h) (P := fun _ c => Sound h c) (sound_empty h) (fun _ c op hs => by
    simp only [panel]
    cases hok : perform h c op with
    | error e => exact hs
    | ok c' => exact sound_perform hs hok) ops

end OpenFish.Docs
