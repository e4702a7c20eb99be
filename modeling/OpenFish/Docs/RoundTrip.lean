/-
Export and import are inverse, as far as the names go: an import shows the catalog that was exported, and again adds no
revision, exactly if the file system takes every name and no asset's name begins with white space.
-/
import OpenFish.Docs.Catalog
import OpenFish.Docs.Transfer

namespace OpenFish.Docs

open Lib

variable {τ : Type}

/-- An import into an empty database of what was exported: it reports no error and shows the same catalog, and to import
once more adds no revision. -/
def RoundTrips (h : TreeHost τ) (c : Store τ) : Prop :=
  ∃ tree count, exportTree h c .empty = .ok (tree, count) ∧
    ∃ p, importTree h false (some tree) .empty = (none, p) ∧ p.report.errors = [] ∧ catalogOf p.docs = catalogOf c ∧
      ∃ p', importTree h false (some tree) p.docs = (none, p') ∧ p'.docs.revisions = p.docs.revisions ∧
        p'.docs.documents = p.docs.documents

/-- The file system takes every slug and every asset's name, and no asset's name begins with white space. -/
def Exportable (h : TreeHost τ) (c : Store τ) : Prop :=
  ∀ place row, c.documents.get? place = some row → h.takes place.2 = true ∧
    ∀ name key, c.assets.get? (row.id, name) = some key → h.takes name = true ∧ beginsBlank name = false

/-! ## What an export writes -/

section exporting

variable {h : TreeHost τ} {c : Store τ}

theorem mem_assetRows {id : Nat} {name : String} {key : Nat} :
    (name, key) ∈ assetRows h c id ↔ c.assets.get? (id, name) = some key := by
  rw [assetRows, (h.ordered_perm _).mem_iff, List.mem_map, Dict.get?_eq_some]
  constructor
  · rintro ⟨⟨⟨id', name'⟩, key'⟩, hmem, heq⟩
    obtain ⟨hentry, hid⟩ := List.mem_filter.1 hmem
    obtain ⟨rfl, rfl⟩ := Prod.mk.inj heq
    obtain rfl : id' = id := of_decide_eq_true hid
    exact hentry
  · intro hmem
    exact ⟨((id, name), key), List.mem_filter.2 ⟨hmem, decide_eq_true rfl⟩, rfl⟩

theorem assetRows_nodup (id : Nat) : ((assetRows h c id).map Prod.fst).Nodup := by
  rw [assetRows, ((h.ordered_perm _).map _).nodup_iff, List.map_map]
  have hkeys : ((c.assets.entries.filter fun e => e.1.1 = id).map Prod.fst).Nodup :=
    c.assets.nodup.sublist (List.filter_sublist.map _)
  refine List.Nodup.of_map (fun name => (id, name)) ?_
  rw [List.map_map]
  convert hkeys using 1
  refine List.map_congr_left fun e he => ?_
  have hid : e.1.1 = id := of_decide_eq_true (List.mem_filter.1 he).2
  show (id, e.1.2) = e.1
  rw [← hid]

/-- The folder holds what the row shows. -/
structure Written (h : TreeHost τ) (c : Store τ) (row : Document τ) (folder : Folder) : Prop where
  document : folder.document = (entryOf c row).body
  metaFile : folder.metaFile = some (metaOf h row)
  assets : ∀ name, folder.assets.get? name = assetsOf c row.id name

theorem openObject_eq_ok {key : Option Nat} {data : ByteArray} :
    openObject c key = .ok data ↔ key.bind c.objects.get? = some data := by
  unfold openObject
  cases key.bind c.objects.get? with
  | none => simp
  | some data' => simp

theorem exportAsset_eq_ok {name : String} {key : Nat} {there : Option ByteArray} {data : ByteArray} :
    exportAsset h c name key there = .ok data ↔ c.objects.get? key = some data ∧ h.takes name = true := by
  unfold exportAsset
  constructor
  · intro hok
    obtain ⟨data', hdata, hok⟩ := ok_of_bind hok
    split at hok
    · cases hok
      exact ⟨openObject_eq_ok.1 hdata, by assumption⟩
    · cases hok
  · rintro ⟨hdata, htakes⟩
    have hopen : openObject c (some key) = .ok data := openObject_eq_ok.2 hdata
    rw [hopen]
    exact if_pos htakes

theorem exportDocument_ok {place : Place} {row : Document τ} {folder : Folder}
    (hok : exportDocument h c place row none = .ok folder) :
    (h.takes place.2 = true ∧ ∀ name key, c.assets.get? (row.id, name) = some key → h.takes name = true) ∧
      Written h c row folder := by
  obtain ⟨body, hbody, hok⟩ := ok_of_bind hok
  split at hok
  · rename_i htakes
    obtain ⟨assets, hassets, hok⟩ := ok_of_bind hok
    cases Except.ok.inj hok
    obtain ⟨hin, hout⟩ := Dict.get?_writeAll (assetRows_nodup row.id) hassets
    refine ⟨⟨htakes, fun name key hkey => ?_⟩, (openObject_eq_ok.1 hbody).symm, rfl, fun name => ?_⟩
    · obtain ⟨data, hdata, -⟩ := hin name key (mem_assetRows.2 hkey)
      exact (exportAsset_eq_ok.1 hdata).2
    · rw [assetsOf]
      cases hkey : c.assets.get? (row.id, name) with
      | none =>
        refine hout name fun hmem => ?_
        obtain ⟨⟨name', key⟩, hrow, rfl⟩ := List.mem_map.1 hmem
        exact absurd (hkey.symm.trans (mem_assetRows.1 hrow)) (by simp)
      | some key =>
        obtain ⟨data, hdata, hget⟩ := hin name key (mem_assetRows.2 hkey)
        exact hget.trans (exportAsset_eq_ok.1 hdata).1.symm
  · cases hok

theorem exportDocument_isOk (hs : Sound h.toHost c) {place : Place} {row : Document τ}
    (hrow : c.documents.get? place = some row) (htakes : h.takes place.2 = true)
    (hnames : ∀ name key, c.assets.get? (row.id, name) = some key → h.takes name = true) :
    ∃ folder, exportDocument h c place row none = .ok folder := by
  obtain ⟨key, content, hkey, hdata, -⟩ := (hs.document hrow).content
  have hbody : openObject c row.storageKey = .ok content.toUTF8 := openObject_eq_ok.2 (by rw [hkey]; exact hdata)
  obtain ⟨assets, hassets⟩ := (Dict.writeAll_isOk (f := exportAsset h c) (d := .empty) (assetRows_nodup row.id)).2 (by
    rintro ⟨name, key⟩ hmem
    have hget := mem_assetRows.1 hmem
    obtain ⟨data, hdata, -⟩ := (hs.asset hget).data
    exact ⟨data, exportAsset_eq_ok.2 ⟨hdata, hnames name key hget⟩⟩)
  refine ⟨{ document := some content.toUTF8, metaFile := some (metaOf h row), assets }, ?_⟩
  rw [exportDocument, hbody]
  refine (if_pos htakes).trans ?_
  show (Dict.writeAll (exportAsset h c) (assetRows h c row.id) Dict.empty >>= _) = _
  rw [hassets]
  rfl

/-- The file system takes the names of every document. -/
def Taken (h : TreeHost τ) (c : Store τ) : Prop :=
  ∀ place row, c.documents.get? place = some row → h.takes place.2 = true ∧
    ∀ name key, c.assets.get? (row.id, name) = some key → h.takes name = true

theorem ordered_documents_nodup : ((h.ordered c.documents.entries).map Prod.fst).Nodup := by
  rw [((h.ordered_perm _).map _).nodup_iff]
  exact c.documents.nodup

/-- An export writes the folder of every document, and no other. -/
theorem exportTree_ok {tree : Tree} {count : Nat} (hok : exportTree h c .empty = .ok (tree, count)) :
    Taken h c ∧ (∀ place row, c.documents.get? place = some row → ∃ folder, tree.get? place = some folder ∧
      Written h c row folder) ∧ ∀ place, c.documents.get? place = none → tree.get? place = none := by
  obtain ⟨tree', htree, hok⟩ := ok_of_bind hok
  cases Except.ok.inj hok
  obtain ⟨hin, hout⟩ := Dict.get?_writeAll ordered_documents_nodup htree
  have hmem {place : Place} {row : Document τ} (hrow : c.documents.get? place = some row) :
      (place, row) ∈ h.ordered c.documents.entries := (h.ordered_perm _).mem_iff.2 (Dict.get?_eq_some.1 hrow)
  refine ⟨fun place row hrow => ?_, fun place row hrow => ?_, fun place hnone => hout place fun hmem => ?_⟩
  · obtain ⟨folder, hfolder, -⟩ := hin place row (hmem hrow)
    exact (exportDocument_ok hfolder).1
  · obtain ⟨folder, hfolder, hget⟩ := hin place row (hmem hrow)
    exact ⟨folder, hget, (exportDocument_ok hfolder).2⟩
  · obtain ⟨⟨place', row⟩, hentry, rfl⟩ := List.mem_map.1 hmem
    have hrow := Dict.get?_eq_some.2 ((h.ordered_perm _).mem_iff.1 hentry)
    exact absurd (hnone.symm.trans hrow) (by simp)

theorem exportTree_isOk (hs : Sound h.toHost c) (htaken : Taken h c) :
    ∃ tree count, exportTree h c .empty = .ok (tree, count) := by
  obtain ⟨tree, htree⟩ := (Dict.writeAll_isOk (f := exportDocument h c) (d := .empty) ordered_documents_nodup).2 (by
    rintro ⟨place, row⟩ hmem
    have hrow := Dict.get?_eq_some.2 ((h.ordered_perm _).mem_iff.1 hmem)
    obtain ⟨htakes, hnames⟩ := htaken place row hrow
    exact exportDocument_isOk hs hrow htakes hnames)
  refine ⟨tree, c.documents.entries.length, ?_⟩
  rw [exportTree, htree]
  rfl

end exporting

/-! ## What an import makes of it -/

def DocDir.place (d : DocDir) : Place := (d.ecosystem, d.name)

/-- The directory stands for the entry, and an import reads all of it as it stands. -/
structure Portable (h : TreeHost τ) (d : DocDir) (entry : Entry τ) : Prop where
  ecosystem : d.ecosystem ∈ ecosystems
  slug : normalizeDocId d.name = .ok d.name
  source : ∃ content : String, readSource h d = .ok ⟨d.name, content, entry.title⟩ ∧ content.toUTF8.size ≤ maxDocBytes ∧
    normalizeTitle entry.title = .ok entry.title ∧ entry.body = some content.toUTF8
  created : treeTimestamp h d.folder "created" = some entry.created
  modified : treeTimestamp h d.folder "modified" = some entry.modified
  assets : d.folder.assets.get? = entry.assets
  files : ∀ file ∈ d.folder.assets.entries, normalizeAssetName file.1 = .ok file.1 ∧ file.2.size ≤ maxAssetBytes

theorem decode_toUTF8 (h : TreeHost τ) (content : String) : decode h content.toUTF8 = .ok content := by
  have hvalid : content.toUTF8.IsValidUTF8 := content.isValidUTF8
  rw [decode, String.fromUTF8?, dif_pos hvalid]
  rfl

section portable

variable {h : TreeHost τ} {c : Store τ} {place : Place} {row : Document τ} {folder : Folder}

theorem treeTimestamp_iso {key : String} {t : τ} (hkey : Json.get (treeMeta folder) key = .str (h.iso t)) :
    treeTimestamp h folder key = some t := by
  have htruthy : (Json.str (h.iso t)).truthy = true := decide_eq_true (h.iso_ne_empty t)
  have hraw : Text.strip (Json.textOr h.render (Json.str (h.iso t))) = h.iso t := by
    rw [Json.textOr, if_pos htruthy]
    exact h.strip_iso t
  rw [treeTimestamp, hkey, hraw]
  exact (if_neg (h.iso_ne_empty t)).trans (h.fromIso_iso t)

/-- What is written for a sound document without a blank name is portable. -/
theorem portable_of_written (hs : Sound h.toHost c) (hrow : c.documents.get? place = some row)
    (hwritten : Written h c row folder)
    (hblank : ∀ name key, c.assets.get? (row.id, name) = some key → beginsBlank name = false) {raw : ByteArray}
    (hraw : folder.document = some raw) : Portable h ⟨place.1, place.2, raw, folder⟩ (entryOf c row) := by
  have hok := hs.document hrow
  have hmeta : treeMeta folder = [("title", .str row.title), ("created", .str (h.iso row.createdAt)),
      ("modified", .str (h.iso row.modifiedAt)), ("revision", .int row.revision)] := by
    rw [treeMeta, hwritten.metaFile]
    rfl
  obtain ⟨htitleStrip, htitleNe⟩ := strip_of_normalizeTitle hok.title
  have htitle (content : String) : treeTitle h folder place.2 content = row.title := by
    have htruthy : (Json.str row.title).truthy = true := decide_eq_true htitleNe
    have hget : Json.get (treeMeta folder) "title" = .str row.title := by rw [hmeta]; rfl
    have hread : Text.strip (Json.textOr h.render (Json.str row.title)) = row.title := by
      rw [Json.textOr, if_pos htruthy]
      exact htitleStrip.symm
    rw [treeTitle, hget, hread]
    exact if_pos htitleNe
  obtain ⟨key, content, hkey, hdata, hsize, -⟩ := hok.content
  have hbody : (entryOf c row).body = some content.toUTF8 := by
    rw [entryOf, hkey]
    exact hdata
  have hrawEq : raw = content.toUTF8 := Option.some.inj (hraw.symm.trans (hwritten.document.trans hbody))
  have hread : readSource h ⟨place.1, place.2, raw, folder⟩ = .ok ⟨place.2, content, row.title⟩ := by
    have hcheck : checkDocBytes content.toUTF8 = .ok () := if_neg (Nat.not_lt.2 hsize)
    simp only [readSource, hok.slug, hrawEq, hcheck, decode_toUTF8, htitle, hok.title, bind, Except.bind, pure, Except.pure]
  refine ⟨hok.ecosystem, hok.slug, ⟨content, hread, hsize, hok.title, hbody⟩, treeTimestamp_iso (by rw [hmeta]; rfl),
    treeTimestamp_iso (by rw [hmeta]; rfl), funext hwritten.assets, ?_⟩
  rintro ⟨name, data⟩ hmem
  have hget := (hwritten.assets name).symm.trans (Dict.get?_eq_some.2 hmem)
  obtain ⟨key, hkey, hobject⟩ := Option.bind_eq_some_iff.1 hget
  have hasset := hs.asset hkey
  obtain ⟨data', hdata', hbound⟩ := hasset.data
  cases hobject.symm.trans hdata'
  exact ⟨hasset.name.normalized (hblank name key hkey), hbound⟩

end portable

/-! ### The files of a document -/

def attachAll (entry : Entry τ) (files : List (String × ByteArray)) : Entry τ :=
  files.foldl (fun entry file => entry.attach file.1 file.2) entry

theorem attachAll_cons (entry : Entry τ) (file : String × ByteArray) (files : List (String × ByteArray)) :
    attachAll entry (file :: files) = attachAll (entry.attach file.1 file.2) files := rfl

/-- Files of distinct names, attached to an entry that has no others, are its assets. -/
theorem assets_attachAll : ∀ (files : List (String × ByteArray)) (entry : Entry τ), (files.map Prod.fst).Nodup →
    (∀ name data, (name, data) ∈ files → (attachAll entry files).assets name = some data) ∧
      ∀ name, name ∉ files.map Prod.fst → (attachAll entry files).assets name = entry.assets name
  | [], entry, _ => ⟨fun _ _ hmem => absurd hmem List.not_mem_nil, fun _ _ => rfl⟩
  | (name, data) :: files, entry, hnodup => by
    obtain ⟨hnew, hnodup⟩ := List.nodup_cons.1 hnodup
    obtain ⟨hin, hout⟩ := assets_attachAll files (entry.attach name data) hnodup
    rw [attachAll_cons]
    refine ⟨fun name' data' hmem => ?_, fun name' hname' => ?_⟩
    · rcases List.mem_cons.1 hmem with heq | hmem
      · cases heq
        rw [hout name hnew]
        exact Function.update_self _ _ _
      · exact hin name' data' hmem
    · rw [List.map_cons, List.mem_cons, not_or] at hname'
      rw [hout name' hname'.2]
      exact Function.update_of_ne hname'.1 _ _

theorem attachAll_rest (files : List (String × ByteArray)) (entry : Entry τ) :
    attachAll entry files = { entry with assets := (attachAll entry files).assets } := by
  induction files generalizing entry with
  | nil => rfl
  | cons file files ih => exact ih (entry.attach file.1 file.2)

/-- To attach what an entry has already changes nothing. -/
theorem attachAll_self {files : List (String × ByteArray)} {entry : Entry τ}
    (h : ∀ file ∈ files, entry.assets file.1 = some file.2) : attachAll entry files = entry := by
  induction files with
  | nil => rfl
  | cons file files ih =>
    have hsame : entry.attach file.1 file.2 = entry := by
      rw [Entry.attach, ← h file (List.mem_cons_self ..), Function.update_eq_self]
    rw [attachAll_cons, hsame, ih fun file' hmem => h file' (List.mem_cons_of_mem _ hmem)]

theorem Catalog.write_write (v : Catalog τ) (place : Place) (entry entry' : Entry τ) :
    (v.write place entry).write place entry' = v.write place entry' := Function.update_idem _ _ _

theorem Catalog.write_self {v : Catalog τ} {place : Place} {entry : Entry τ} (h : v place = some entry) :
    v.write place entry = v := by
  rw [Catalog.write, ← h, Function.update_eq_self]

theorem catalogOf_eq_some {c : Store τ} {place : Place} {row : Document τ} (hrow : c.documents.get? place = some row) :
    catalogOf c place = some (entryOf c row) := by
  rw [catalogOf, hrow]
  rfl

section files

variable {h : TreeHost τ} {ecosystem slug : String}

theorem saveAsset_of_row {c : Store τ} {row : Document τ} (hecosystem : ecosystem ∈ ecosystems)
    (hslug : normalizeDocId slug = .ok slug) (hrow : c.documents.get? (ecosystem, slug) = some row) {name : String}
    (hname : normalizeAssetName name = .ok name) {data : ByteArray} (hsize : data.size ≤ maxAssetBytes) :
    saveAsset ecosystem slug name data c = .ok (storedAsset row.id name data c) := by
  have hrequire : requireDocument c ecosystem slug = .ok (slug, row) := by
    have hknown : requireEcosystem ecosystem = .ok () := if_pos hecosystem
    simp only [requireDocument, hknown, hslug, hrow, bind, Except.bind]
  rw [saveAsset, if_neg (Nat.not_lt.2 hsize), hrequire]
  simp only [hname, bind, Except.bind, pure, Except.pure]

/-- One file becomes an asset of the row. -/
theorem importAsset_spec {row : Document τ} {p : Progress τ} (hecosystem : ecosystem ∈ ecosystems)
    (hslug : normalizeDocId slug = .ok slug) {name : String} {data : ByteArray}
    (hname : normalizeAssetName name = .ok name) (hsize : data.size ≤ maxAssetBytes) (hs : Sound h.toHost p.docs)
    (hrow : p.docs.documents.get? (ecosystem, slug) = some row) :
    ∃ p', importAsset false ecosystem slug (name, data) p = (none, p') ∧ p'.report.errors = p.report.errors ∧
      Sound h.toHost p'.docs ∧ p'.docs.documents = p.docs.documents ∧ p'.docs.revisions = p.docs.revisions ∧
        catalogOf p'.docs = (catalogOf p.docs).write (ecosystem, slug) ((entryOf p.docs row).attach name data) := by
  refine ⟨⟨{ p.report with assets := p.report.assets + 1 }, storedAsset row.id name data p.docs⟩, ?_, rfl,
    hs.storedAsset (hs.idLt hrow) (assetName_of_ok hname) hsize, rfl, rfl, catalogOf_storedAsset hs hrow⟩
  unfold importAsset
  rw [hname]
  dsimp only
  rw [if_neg Bool.false_ne_true, if_neg (Nat.not_lt.2 hsize), saveAsset_of_row hecosystem hslug hrow hname hsize]

/-- The files of a portable directory become assets of the row, and nothing else is touched. -/
theorem importAssets_spec {row : Document τ} (hecosystem : ecosystem ∈ ecosystems)
    (hslug : normalizeDocId slug = .ok slug) {files : List (String × ByteArray)}
    (hfiles : ∀ file ∈ files, normalizeAssetName file.1 = .ok file.1 ∧ file.2.size ≤ maxAssetBytes) {p : Progress τ}
    (hs : Sound h.toHost p.docs) (hrow : p.docs.documents.get? (ecosystem, slug) = some row) :
    ∃ p', loop (importAsset false ecosystem slug) files p = (none, p') ∧ p'.report.errors = p.report.errors ∧
      Sound h.toHost p'.docs ∧ p'.docs.documents = p.docs.documents ∧ p'.docs.revisions = p.docs.revisions ∧
        catalogOf p'.docs = (catalogOf p.docs).write (ecosystem, slug) (attachAll (entryOf p.docs row) files) := by
  induction files generalizing p with
  | nil => exact ⟨p, rfl, rfl, hs, rfl, rfl, (Catalog.write_self (catalogOf_eq_some hrow)).symm⟩
  | cons file files ih =>
    obtain ⟨name, data⟩ := file
    obtain ⟨hname, hsize⟩ := hfiles (name, data) (List.mem_cons_self ..)
    obtain ⟨p₁, hstep, herrors₁, hs₁, hdocuments₁, hrevisions₁, hcatalog₁⟩ :=
      importAsset_spec hecosystem hslug hname hsize hs hrow
    have hrow₁ : p₁.docs.documents.get? (ecosystem, slug) = some row := by rw [hdocuments₁, hrow]
    obtain ⟨p', hrun, herrors, hsound, hdocuments, hrevisions, hcatalog⟩ :=
      ih (fun file hmem => hfiles file (List.mem_cons_of_mem _ hmem)) hs₁ hrow₁
    have hentry : entryOf p₁.docs row = (entryOf p.docs row).attach name data := by
      have hplace := congrFun hcatalog₁ (ecosystem, slug)
      rw [catalogOf_eq_some hrow₁, Catalog.write, Function.update_self] at hplace
      exact Option.some.inj hplace
    refine ⟨p', ?_, herrors.trans herrors₁, hsound, hdocuments.trans hdocuments₁, hrevisions.trans hrevisions₁, ?_⟩
    · rw [loop_cons hstep, hrun]
    · rw [hcatalog, hcatalog₁, hentry, Catalog.write_write, attachAll_cons]

end files

/-! ### A document -/

theorem rowFor_of_none {h : Host τ} {place : Place} {c : Store τ} (hnone : c.documents.get? place = none) (title : String) :
    rowFor h place title c = (newDocument h title c, { c with nextId := c.nextId + 1 }) := by
  rw [rowFor, hnone]

/-- No asset waits for a document to come. -/
theorem assetsOf_nextId {h : Host τ} {c : Store τ} (hs : Sound h c) (name : String) : assetsOf c c.nextId name = none := by
  rw [assetsOf]
  cases hkey : c.assets.get? (c.nextId, name) with
  | none => rfl
  | some key => exact absurd (hs.assetIdLt hkey) (Nat.lt_irrefl _)

section restamp

variable {h : Host τ} {c : Store τ} {place : Place} {row : Document τ} {created modified : Option τ}

theorem get?_restamp (hrow : c.documents.get? place = some row) (created modified : Option τ) (place' : Place) :
    (restamp place created modified c).documents.get? place' = if place' = place then
      some { row with createdAt := created.getD row.createdAt, modifiedAt := modified.getD row.modifiedAt }
    else c.documents.get? place' := by
  rw [restamp, hrow]
  exact Dict.get?_set _ _ _ _

/-- The stamps are all that changes. -/
theorem restamp_row {place' : Place} {row' : Document τ}
    (hrow' : (restamp place created modified c).documents.get? place' = some row') :
    ∃ old, c.documents.get? place' = some old ∧ row'.id = old.id ∧ row'.title = old.title ∧ row'.sha256 = old.sha256 ∧
      row'.storageKey = old.storageKey := by
  cases hrow : c.documents.get? place with
  | none =>
    rw [restamp, hrow] at hrow'
    exact ⟨row', hrow', rfl, rfl, rfl, rfl⟩
  | some row =>
    rw [get?_restamp hrow] at hrow'
    split at hrow'
    · rename_i heq
      cases hrow'
      exact ⟨row, heq ▸ hrow, rfl, rfl, rfl, rfl⟩
    · exact ⟨row', hrow', rfl, rfl, rfl, rfl⟩

theorem restamp_rest (place : Place) (created modified : Option τ) (c : Store τ) :
    ∃ documents, restamp place created modified c = { c with documents } := by
  unfold restamp
  cases c.documents.get? place with
  | none => exact ⟨_, rfl⟩
  | some row => exact ⟨_, rfl⟩

theorem holds_restamp {key : Nat} {o : Owner} (ho : Holds (restamp place created modified c) key o) : Holds c key o := by
  obtain ⟨documents, heq⟩ := restamp_rest place created modified c
  have hrevisions : (restamp place created modified c).revisions = c.revisions := by rw [heq]
  have hassets : (restamp place created modified c).assets = c.assets := by rw [heq]
  cases o with
  | asset id name =>
    have hkey : (restamp place created modified c).assets.get? (id, name) = some key := ho
    rwa [hassets] at hkey
  | body id =>
    rcases ho with ⟨place', row', hrow', rfl, hkey⟩ | hrevision
    · obtain ⟨old, hold, hid, -, -, hsame⟩ := restamp_row hrow'
      exact .inl ⟨place', old, hold, hid.symm, hsame ▸ hkey⟩
    · rw [hrevisions] at hrevision
      exact .inr hrevision

theorem Sound.restamp (hs : Sound h c) : Sound h (restamp place created modified c) := by
  obtain ⟨documents, heq⟩ := restamp_rest place created modified c
  have hobjects : (Docs.restamp place created modified c).objects = c.objects := by rw [heq]
  have hassets : (Docs.restamp place created modified c).assets = c.assets := by rw [heq]
  have hnextId : (Docs.restamp place created modified c).nextId = c.nextId := by rw [heq]
  have hnextKey : (Docs.restamp place created modified c).nextKey = c.nextKey := by rw [heq]
  refine ⟨hs.keyed.step (.body 0) hnextKey.ge fun _ _ ho => .inl (holds_restamp ho), ?_, ?_, ?_, ?_, ?_⟩
  · intro place₁ place₂ row₁ row₂ h₁ h₂ hid
    obtain ⟨old₁, hold₁, hid₁, -⟩ := restamp_row h₁
    obtain ⟨old₂, hold₂, hid₂, -⟩ := restamp_row h₂
    exact hs.ids hold₁ hold₂ (hid₁.symm.trans (hid.trans hid₂))
  · intro place' row' hrow'
    obtain ⟨old, hold, hid, -⟩ := restamp_row hrow'
    rw [hnextId, hid]
    exact hs.idLt hold
  · intro k key hkey
    rw [hassets] at hkey
    rw [hnextId]
    exact hs.assetIdLt hkey
  · intro place' row' hrow'
    obtain ⟨old, hold, -, htitle, hsha, hkey⟩ := restamp_row hrow'
    obtain ⟨hecosystem, hslug, hnormal, hcontent⟩ := hs.document hold
    refine ⟨hecosystem, hslug, by rw [htitle, hnormal], ?_⟩
    rw [hkey, hsha, hobjects]
    exact hcontent
  · intro k key hkey
    rw [hassets] at hkey
    obtain ⟨hname, hdata⟩ := hs.asset hkey
    exact ⟨hname, by rw [hobjects]; exact hdata⟩

/-- What new stamps show. -/
theorem catalogOf_restamp (hrow : c.documents.get? place = some row) (created modified : Option τ) :
    catalogOf (restamp place created modified c) = (catalogOf c).write place
      { entryOf c row with created := created.getD row.createdAt, modified := modified.getD row.modifiedAt } := by
  obtain ⟨documents, heq⟩ := restamp_rest place created modified c
  have hentry : entryOf (restamp place created modified c) = entryOf c := by
    rw [heq]
    rfl
  funext place'
  rw [catalogOf, get?_restamp hrow, hentry, Catalog.write, Function.update_apply]
  split
  · rfl
  · rfl

end restamp

section document

variable {h : TreeHost τ} {d : DocDir} {entry : Entry τ} {p : Progress τ}

/-- The files of a portable directory, attached to a document that has none, or has the same. -/
theorem listing_perm {α : Type} (h : TreeHost τ) (name : α → String) (entries : List α) :
    (listing h name entries).Perm entries := (List.perm_insertionSort _ _).trans (h.iterdir_perm _)

theorem attachAll_listing (files : Dict String ByteArray) {entry : Entry τ} (hnone : ∀ name, entry.assets name = none) :
    attachAll entry (listing h Prod.fst files.entries) = { entry with assets := files.get? } := by
  have hperm := listing_perm h Prod.fst files.entries
  have hnodup : ((listing h Prod.fst files.entries).map Prod.fst).Nodup := by
    rw [(hperm.map _).nodup_iff]
    exact files.nodup
  obtain ⟨hin, hout⟩ := assets_attachAll _ entry hnodup
  rw [attachAll_rest]
  have hassets : (attachAll entry (listing h Prod.fst files.entries)).assets = files.get? := by
    funext name
    cases hget : files.get? name with
    | some data => exact hin name data (hperm.mem_iff.2 (Dict.get?_eq_some.1 hget))
    | none =>
      rw [hout name, hnone]
      rw [(hperm.map Prod.fst).mem_iff]
      exact Dict.get?_eq_none.1 hget
  rw [hassets]

theorem listing_files (hd : Portable h d entry) : ∀ file ∈ listing h Prod.fst d.folder.assets.entries,
    normalizeAssetName file.1 = .ok file.1 ∧ file.2.size ≤ maxAssetBytes :=
  fun file hmem => hd.files file ((listing_perm h Prod.fst _).mem_iff.1 hmem)

/-- The row and the Markdown of a portable directory, where there was no document. -/
theorem importBody_new (hd : Portable h d entry) {content : String} (hsize : content.toUTF8.size ≤ maxDocBytes)
    (htitle : normalizeTitle entry.title = .ok entry.title) (hbody : entry.body = some content.toUTF8)
    (hs : Sound h.toHost p.docs) (hnone : p.docs.documents.get? d.place = none) :
    ∃ p₁ row₁, importBody h false d ⟨d.name, content, entry.title⟩ p = .ok p₁ ∧ p₁.report.errors = p.report.errors ∧
      Sound h.toHost p₁.docs ∧ p₁.docs.documents.get? d.place = some row₁ ∧
        entryOf p₁.docs row₁ = { entry with assets := fun _ => none } ∧
          catalogOf p₁.docs = (catalogOf p.docs).write d.place { entry with assets := fun _ => none } := by
  have hcheck : checkDocBytes content.toUTF8 = .ok () := if_neg (Nat.not_lt.2 hsize)
  have hfor := rowFor_of_none (h := h.toHost) hnone entry.title
  obtain ⟨hs₁, hfits, hcatalog₁⟩ := rowFor_spec hs d.place entry.title
  generalize hrow : newDocument h.toHost entry.title p.docs = row at hfor
  generalize hc₁ : ({ p.docs with nextId := p.docs.nextId + 1 } : Store τ) = c₁ at hfor
  rw [hfor] at hs₁ hfits hcatalog₁
  have hassets : assetsOf c₁ row.id = fun _ => none := by
    funext name
    rw [← hc₁, ← hrow]
    exact assetsOf_nextId hs name
  have hs₂ := hs₁.storedRevision hfits hd.ecosystem hd.slug htitle hsize
  have hcatalog₂ := catalogOf_storedRevision (h := h.toHost) hs₁.keyed d.place row content entry.title
  obtain ⟨row₂, hrow₂⟩ : ∃ row₂, (storedRevision h.toHost d.place row content entry.title c₁).documents.get? d.place =
    some row₂ := ⟨_, (get?_storedRevision _).trans (if_pos rfl)⟩
  have hsaved : storeRevision h.toHost d.place row content entry.title c₁ =
      .ok (storedRevision h.toHost d.place row content entry.title c₁) := by
    rw [storeRevision, hcheck]
    rfl
  generalize storedRevision h.toHost d.place row content entry.title c₁ = c₂ at hs₂ hcatalog₂ hrow₂ hsaved
  have hentry₂ := (catalogOf_eq_some hrow₂).symm.trans (congrFun hcatalog₂ d.place)
  rw [Catalog.write, Function.update_self, hassets] at hentry₂
  have hcatalog₃ := catalogOf_restamp hrow₂ (some entry.created) (some entry.modified)
  have hrow₃ := (get?_restamp hrow₂ (some entry.created) (some entry.modified) d.place).trans (if_pos rfl)
  have hentry : { entryOf c₂ row₂ with created := entry.created, modified := entry.modified } =
      { entry with assets := fun _ => none } := by
    rw [Option.some.inj hentry₂, hbody]
  have hentry₃ := (catalogOf_eq_some hrow₃).symm.trans (congrFun hcatalog₃ d.place)
  rw [Catalog.write, Function.update_self] at hentry₃
  refine ⟨⟨{ p.report with documents := p.report.documents + 1 },
    restamp d.place (some entry.created) (some entry.modified) c₂⟩, _, ?_, rfl, hs₂.restamp, hrow₃,
    (Option.some.inj hentry₃).trans hentry, ?_⟩
  · have hnone' : p.docs.documents.get? (d.ecosystem, d.name) = none := hnone
    have hfor' : rowFor h.toHost (d.ecosystem, d.name) entry.title p.docs = (row, c₁) := hfor
    have hsaved' : storeRevision h.toHost (d.ecosystem, d.name) row content entry.title c₁ = .ok c₂ := hsaved
    simp only [importBody, hnone', hfor', hsaved', hd.created, hd.modified, Option.any_none, Option.isNone_none, if_true,
      Bool.false_eq_true, if_false, bind, Except.bind, pure, Except.pure]
    rfl
  · rw [hcatalog₃, hcatalog₂, hcatalog₁, Catalog.write_write]
    exact congrArg _ hentry

/-- A portable directory becomes the document it stands for. -/
theorem importDir_new (hd : Portable h d entry) (hs : Sound h.toHost p.docs)
    (hnone : p.docs.documents.get? d.place = none) :
    ∃ p', importDir h false d p = (none, p') ∧ p'.report.errors = p.report.errors ∧ Sound h.toHost p'.docs ∧
      catalogOf p'.docs = (catalogOf p.docs).write d.place entry := by
  obtain ⟨content, hread, hsize, htitle, hbody⟩ := hd.source
  obtain ⟨p₁, row₁, himport, herrors₁, hs₁, hrow₁, hentry₁, hcatalog₁⟩ := importBody_new hd hsize htitle hbody hs hnone
  obtain ⟨p', hrun, herrors, hsound, -, -, hcatalog⟩ :=
    importAssets_spec hd.ecosystem hd.slug (listing_files hd) hs₁ hrow₁
  refine ⟨p', ?_, herrors.trans herrors₁, hsound, ?_⟩
  · simp only [importDir, importDocument, hread, himport, hrun]
  · rw [hcatalog, hcatalog₁, hentry₁, attachAll_listing _ fun _ => rfl, hd.assets]
    exact Catalog.write_write _ _ _ _

/-- A portable directory of a document that is there: its files are stored once more, and nothing changes. -/
theorem importDir_again (hd : Portable h d entry) (hs : Sound h.toHost p.docs)
    (hentry : catalogOf p.docs d.place = some entry) :
    ∃ p', importDir h false d p = (none, p') ∧ p'.report.errors = p.report.errors ∧ Sound h.toHost p'.docs ∧
      p'.docs.documents = p.docs.documents ∧ p'.docs.revisions = p.docs.revisions ∧ catalogOf p'.docs = catalogOf p.docs := by
  obtain ⟨content, hread, -, -, hbody⟩ := hd.source
  obtain ⟨row, hrow, rfl⟩ := Option.map_eq_some_iff.1 hentry
  have hstored : isStored h ⟨d.name, content, row.title⟩ row = true := by
    obtain ⟨key, content', hkey, hdata, -, hsha⟩ := (hs.document hrow).content
    have hbody' : (entryOf p.docs row).body = some content'.toUTF8 := by
      rw [entryOf, hkey]
      exact hdata
    have hsame : content.toUTF8 = content'.toUTF8 := Option.some.inj (hbody.symm.trans hbody')
    rw [isStored, hsame, hsha]
    simp
  have himport : importBody h false d ⟨d.name, content, row.title⟩ p =
      .ok { p with report := { p.report with unchanged := p.report.unchanged + 1 } } := by
    have hget : p.docs.documents.get? (d.ecosystem, d.name) = some row := hrow
    rw [importBody, hget]
    exact if_pos hstored
  obtain ⟨p', hrun, herrors, hsound, hdocuments, hrevisions, hcatalog⟩ :=
    importAssets_spec (p := { p with report := { p.report with unchanged := p.report.unchanged + 1 } }) hd.ecosystem hd.slug
      (listing_files hd) hs hrow
  refine ⟨p', ?_, herrors, hsound, hdocuments, hrevisions, ?_⟩
  · have hread' : readSource h d = .ok ⟨d.name, content, row.title⟩ := hread
    simp only [importDir, importDocument, hread', himport, hrun]
  · rw [hcatalog, attachAll_self]
    · exact Catalog.write_self (catalogOf_eq_some hrow)
    · intro file hmem
      have hfile := Dict.get?_eq_some.2 ((listing_perm h Prod.fst _).mem_iff.1 hmem)
      exact (congrFun hd.assets file.1).symm.trans hfile

end document

/-! ### A tree -/

/-- The directories of a list take their places as they are in the catalog `v`. -/
def copied (v : Catalog τ) (w : Catalog τ) (ds : List DocDir) : Catalog τ :=
  ds.foldl (fun w d => Function.update w d.place (v d.place)) w

theorem copied_of_not_mem {v : Catalog τ} : ∀ {ds : List DocDir} {w : Catalog τ} {place : Place},
    place ∉ ds.map DocDir.place → copied v w ds place = w place
  | [], _, _, _ => rfl
  | d :: ds, w, place, h => by
    rw [List.map_cons, List.mem_cons, not_or] at h
    rw [copied, List.foldl_cons]
    exact (copied_of_not_mem h.2).trans (Function.update_of_ne h.1 _ _)

theorem copied_of_mem {v : Catalog τ} : ∀ {ds : List DocDir} {w : Catalog τ} {place : Place},
    place ∈ ds.map DocDir.place → copied v w ds place = v place
  | d :: ds, w, place, h => by
    rw [copied, List.foldl_cons]
    by_cases hrest : place ∈ ds.map DocDir.place
    · exact copied_of_mem hrest
    · rcases List.mem_cons.1 h with rfl | h
      · exact (copied_of_not_mem hrest).trans (Function.update_self _ _ _)
      · exact absurd h hrest

/-- The directory stands for the document of its place, and can be imported. -/
def Stands (h : TreeHost τ) (v : Catalog τ) (d : DocDir) : Prop := ∃ entry, v d.place = some entry ∧ Portable h d entry

section tree

variable {h : TreeHost τ} {v : Catalog τ} {ds : List DocDir}

/-- Directories of distinct places make the documents they stand for. -/
theorem loop_new (hstands : ∀ d ∈ ds, Stands h v d) (hnodup : (ds.map DocDir.place).Nodup) {p : Progress τ}
    (hs : Sound h.toHost p.docs) (hnone : ∀ d ∈ ds, catalogOf p.docs d.place = none) :
    ∃ p', loop (importDir h false) ds p = (none, p') ∧ p'.report.errors = p.report.errors ∧ Sound h.toHost p'.docs ∧
      catalogOf p'.docs = copied v (catalogOf p.docs) ds := by
  induction ds generalizing p with
  | nil => exact ⟨p, rfl, rfl, hs, rfl⟩
  | cons d ds ih =>
    obtain ⟨hnew, hnodup⟩ := List.nodup_cons.1 hnodup
    obtain ⟨entry, hentry, hportable⟩ := hstands d (List.mem_cons_self ..)
    have hfree : p.docs.documents.get? d.place = none := Option.map_eq_none_iff.1 (hnone d (List.mem_cons_self ..))
    obtain ⟨p₁, hstep, herrors₁, hs₁, hcatalog₁⟩ := importDir_new hportable hs hfree
    obtain ⟨p', hrun, herrors, hsound, hcatalog⟩ := ih (fun d' hd' => hstands d' (List.mem_cons_of_mem _ hd')) hnodup hs₁
      fun d' hd' => by
        have hne : d'.place ≠ d.place := fun heq => hnew (heq ▸ List.mem_map_of_mem hd')
        rw [hcatalog₁, Catalog.write, Function.update_of_ne hne]
        exact hnone d' (List.mem_cons_of_mem _ hd')
    refine ⟨p', by rw [loop_cons hstep, hrun], herrors.trans herrors₁, hsound, ?_⟩
    rw [hcatalog, hcatalog₁, copied, copied, List.foldl_cons, hentry]
    rfl

/-- Once more, they change nothing but the keys of the assets. -/
theorem loop_again (hstands : ∀ d ∈ ds, Stands h v d) {p : Progress τ} (hs : Sound h.toHost p.docs)
    (hsame : ∀ d ∈ ds, catalogOf p.docs d.place = v d.place) :
    ∃ p', loop (importDir h false) ds p = (none, p') ∧ p'.docs.revisions = p.docs.revisions ∧
      p'.docs.documents = p.docs.documents := by
  induction ds generalizing p with
  | nil => exact ⟨p, rfl, rfl, rfl⟩
  | cons d ds ih =>
    obtain ⟨entry, hentry, hportable⟩ := hstands d (List.mem_cons_self ..)
    obtain ⟨p₁, hstep, -, hs₁, hdocuments₁, hrevisions₁, hcatalog₁⟩ :=
      importDir_again hportable hs ((hsame d (List.mem_cons_self ..)).trans hentry)
    obtain ⟨p', hrun, hrevisions, hdocuments⟩ := ih (fun d' hd' => hstands d' (List.mem_cons_of_mem _ hd')) hs₁
      fun d' hd' => by rw [hcatalog₁, hsame d' (List.mem_cons_of_mem _ hd')]
    exact ⟨p', by rw [loop_cons hstep, hrun], hrevisions.trans hrevisions₁, hdocuments.trans hdocuments₁⟩

theorem mem_docDirs {tree : Tree} {d : DocDir} : d ∈ docDirs h tree ↔
    d.ecosystem ∈ ecosystems ∧ tree.get? d.place = some d.folder ∧ d.folder.document = some d.raw := by
  rw [docDirs, List.mem_flatMap]
  constructor
  · rintro ⟨ecosystem, hecosystem, hmem⟩
    obtain ⟨⟨⟨ecosystem', name⟩, folder⟩, hentry, hd⟩ := List.mem_filterMap.1 hmem
    obtain ⟨raw, hraw, rfl⟩ := Option.map_eq_some_iff.1 hd
    obtain ⟨hstored, heq⟩ := List.mem_filter.1 ((listing_perm h _ _).mem_iff.1 hentry)
    obtain rfl : ecosystem' = ecosystem := of_decide_eq_true heq
    exact ⟨hecosystem, Dict.get?_eq_some.2 hstored, hraw⟩
  · rintro ⟨hecosystem, hget, hraw⟩
    refine ⟨d.ecosystem, hecosystem, List.mem_filterMap.2 ⟨(d.place, d.folder), ?_, ?_⟩⟩
    · exact (listing_perm h _ _).mem_iff.2 (List.mem_filter.2 ⟨Dict.get?_eq_some.1 hget, decide_eq_true rfl⟩)
    · rw [hraw]
      rfl

theorem places_sublist (ecosystem : String) (l : List (Place × Folder)) (hl : ∀ e ∈ l, e.1.1 = ecosystem) :
    ((l.filterMap fun e => e.2.document.map fun raw => (⟨ecosystem, e.1.2, raw, e.2⟩ : DocDir)).map
      DocDir.place).Sublist (l.map Prod.fst) := by
  induction l with
  | nil => exact List.Sublist.refl _
  | cons e l ih =>
    have hrest := ih fun e' he' => hl e' (List.mem_cons_of_mem _ he')
    have hplace : (ecosystem, e.1.2) = e.1 := by rw [← hl e (List.mem_cons_self ..)]
    cases hdoc : e.2.document with
    | none =>
      rw [List.filterMap_cons_none (by rw [hdoc]; rfl)]
      exact hrest.cons _
    | some raw =>
      rw [List.filterMap_cons_some (by rw [hdoc]; rfl), List.map_cons, List.map_cons]
      exact hplace ▸ hrest.cons_cons _

theorem docDirs_nodup (tree : Tree) : ((docDirs h tree).map DocDir.place).Nodup := by
  rw [docDirs, List.map_flatMap, List.nodup_flatMap]
  constructor
  · intro ecosystem _
    refine List.Nodup.sublist (places_sublist ecosystem _ fun e he => ?_) ?_
    · exact of_decide_eq_true (List.mem_filter.1 ((listing_perm h _ _).mem_iff.1 he)).2
    · rw [((listing_perm h _ _).map _).nodup_iff]
      exact tree.nodup.sublist (List.filter_sublist.map _)
  · have hdistinct : ecosystems.Nodup := by decide
    refine hdistinct.imp fun hne place hmem hmem' => hne ?_
    obtain ⟨d, hd, rfl⟩ := List.mem_map.1 hmem
    obtain ⟨d', hd', heq⟩ := List.mem_map.1 hmem'
    obtain ⟨e, -, he⟩ := List.mem_filterMap.1 hd
    obtain ⟨e', -, he'⟩ := List.mem_filterMap.1 hd'
    obtain ⟨raw, -, rfl⟩ := Option.map_eq_some_iff.1 he
    obtain ⟨raw', -, rfl⟩ := Option.map_eq_some_iff.1 he'
    exact (Prod.mk.inj heq).1.symm

end tree

/-! ## Names that an import stores -/

/-- No asset's name begins with white space. -/
def NoBlank (c : Store τ) : Prop := ∀ k key, c.assets.get? k = some key → beginsBlank k.2 = false

theorem noBlank_importAsset {ecosystem slug : String} {file : String × ByteArray} {p : Progress τ} (h : NoBlank p.docs) :
    NoBlank (importAsset false ecosystem slug file p).2.docs := by
  unfold importAsset
  split
  · exact h
  · rename_i name hname
    simp only [Bool.false_eq_true, if_false]
    split
    · exact h
    · split
      · exact h
      · rename_i c' hsave
        obtain ⟨_, row, filename, -, hfilename, -, rfl⟩ := saveAsset_ok hsave
        intro k key hkey
        rw [assets_storedAsset] at hkey
        split at hkey
        · rename_i heq
          rw [heq]
          exact (assetName_of_ok hname).beginsBlank_of_ok hfilename
        · exact h k key hkey

theorem assets_importBody {h : TreeHost τ} {d : DocDir} {source : Source} {p p' : Progress τ}
    (hok : importBody h false d source p = .ok p') : p'.docs.assets = p.docs.assets := by
  unfold importBody at hok
  dsimp only at hok
  split at hok
  · cases Except.ok.inj hok
    rfl
  · simp only [Bool.false_eq_true, if_false] at hok
    obtain ⟨c', hstore, hok⟩ := ok_of_bind hok
    obtain ⟨-, rfl⟩ := storeRevision_ok hstore
    cases Except.ok.inj hok
    obtain ⟨documents, heq⟩ := restamp_rest (d.ecosystem, source.slug) (treeTimestamp h d.folder "created")
      (treeTimestamp h d.folder "modified") (storedRevision h.toHost (d.ecosystem, source.slug)
        (rowFor h.toHost (d.ecosystem, source.slug) source.title p.docs).1 source.content source.title
          (rowFor h.toHost (d.ecosystem, source.slug) source.title p.docs).2)
    show (restamp _ _ _ _).assets = _
    rw [heq]
    show (rowFor h.toHost (d.ecosystem, source.slug) source.title p.docs).2.assets = _
    unfold rowFor
    cases p.docs.documents.get? (d.ecosystem, source.slug) with
    | none => rfl
    | some row => rfl

theorem noBlank_importDir {h : TreeHost τ} (d : DocDir) {p : Progress τ} (hblank : NoBlank p.docs) :
    NoBlank (importDir h false d p).2.docs := by
  have hdocument : NoBlank (importDocument h false d p).2.docs := by
    unfold importDocument
    split
    · exact hblank
    · split
      · exact hblank
      · rename_i p₁ hbody
        refine loop_keeps (P := fun p : Progress τ => NoBlank p.docs) (fun _ _ _ => noBlank_importAsset) ?_
        rw [NoBlank, assets_importBody hbody]
        exact hblank
  unfold importDir
  split
  · rename_i heq
    rw [heq] at hdocument
    exact hdocument
  · rename_i heq
    rw [heq] at hdocument
    split
    · exact hdocument
    · exact hdocument

/-- Whatever tree is imported into an empty database, no asset's name begins with white space then. -/
theorem noBlank_importTree (h : TreeHost τ) (tree : Tree) : NoBlank (importTree h false (some tree) .empty).2.docs :=
  loop_keeps (P := fun p : Progress τ => NoBlank p.docs) (fun d _ _ => noBlank_importDir d) fun _ _ hkey => (by cases hkey)

/-! ## The round trip -/

/-- The directories of an export stand for the documents, as long as no name begins with white space. -/
theorem stands_of_export {h : TreeHost τ} {c : Store τ} (hs : Sound h.toHost c) (he : Exportable h c) {tree : Tree}
    {count : Nat} (hexport : exportTree h c .empty = .ok (tree, count)) :
    (∀ d ∈ docDirs h tree, Stands h (catalogOf c) d) ∧
      ∀ place, place ∈ (docDirs h tree).map DocDir.place ↔ (catalogOf c place).isSome = true := by
  obtain ⟨-, hfolders, hnone⟩ := exportTree_ok hexport
  have hrowOf {d : DocDir} (hd : d ∈ docDirs h tree) : ∃ row, c.documents.get? d.place = some row := by
    cases hrow : c.documents.get? d.place with
    | some row => exact ⟨row, rfl⟩
    | none => exact absurd ((hnone _ hrow).symm.trans (mem_docDirs.1 hd).2.1) (by simp)
  refine ⟨fun d hd => ?_, fun place => ⟨fun hmem => ?_, fun hsome => ?_⟩⟩
  · obtain ⟨row, hrow⟩ := hrowOf hd
    obtain ⟨-, hget, hraw⟩ := mem_docDirs.1 hd
    obtain ⟨folder, hfolder, hwritten⟩ := hfolders _ row hrow
    obtain rfl : folder = d.folder := Option.some.inj (hfolder.symm.trans hget)
    exact ⟨entryOf c row, catalogOf_eq_some hrow,
      portable_of_written hs hrow hwritten (fun name key hkey => ((he _ row hrow).2 name key hkey).2) hraw⟩
  · obtain ⟨d, hd, rfl⟩ := List.mem_map.1 hmem
    obtain ⟨row, hrow⟩ := hrowOf hd
    rw [catalogOf_eq_some hrow]
    rfl
  · obtain ⟨entry, hentry⟩ := Option.isSome_iff_exists.1 hsome
    obtain ⟨row, hrow, -⟩ := Option.map_eq_some_iff.1 hentry
    obtain ⟨folder, hfolder, hwritten⟩ := hfolders place row hrow
    obtain ⟨key, content, hkey, hdata, -⟩ := (hs.document hrow).content
    have hraw : folder.document = some content.toUTF8 := by
      rw [hwritten.document, entryOf, hkey]
      exact hdata
    exact List.mem_map.2 ⟨⟨place.1, place.2, content.toUTF8, folder⟩,
      mem_docDirs.2 ⟨(hs.document hrow).ecosystem, hfolder, hraw⟩, rfl⟩

theorem roundTrips_of_exportable {h : TreeHost τ} {c : Store τ} (hs : Sound h.toHost c) (he : Exportable h c) :
    RoundTrips h c := by
  obtain ⟨tree, count, hexport⟩ := exportTree_isOk hs fun place row hrow =>
    ⟨(he place row hrow).1, fun name key hkey => ((he place row hrow).2 name key hkey).1⟩
  obtain ⟨hstands, hplaces⟩ := stands_of_export hs he hexport
  obtain ⟨p, himport, herrors, hs₁, hcatalog⟩ := loop_new hstands (docDirs_nodup tree) (p := ⟨{}, .empty⟩)
    (sound_empty h.toHost) fun _ _ => rfl
  have hsame : catalogOf p.docs = catalogOf c := by
    funext place
    rw [hcatalog]
    by_cases hmem : place ∈ (docDirs h tree).map DocDir.place
    · exact copied_of_mem hmem
    · rw [copied_of_not_mem hmem, Option.not_isSome_iff_eq_none.1 (mt (hplaces place).2 hmem)]
      rfl
  obtain ⟨p', hagain, hrevisions, hdocuments⟩ := loop_again hstands (p := ⟨{}, p.docs⟩) hs₁ fun d _ => congrFun hsame d.place
  exact ⟨tree, count, hexport, p, himport, herrors, hsame, p', hagain, hrevisions, hdocuments⟩

theorem exportable_of_roundTrips {h : TreeHost τ} {c : Store τ} (hs : Sound h.toHost c) (hrt : RoundTrips h c) :
    Exportable h c := by
  obtain ⟨tree, count, hexport, p, himport, -, hsame, -⟩ := hrt
  obtain ⟨htaken, -, -⟩ := exportTree_ok hexport
  have hblank : NoBlank p.docs := by
    have := noBlank_importTree h tree
    rwa [himport] at this
  intro place row hrow
  refine ⟨(htaken place row hrow).1, fun name key hkey => ⟨(htaken place row hrow).2 name key hkey, ?_⟩⟩
  -- the asset is there after the import too
  obtain ⟨data, hdata, -⟩ := (hs.asset hkey).data
  have hentry := (congrFun hsame place).trans (catalogOf_eq_some hrow)
  obtain ⟨row', hrow', heq⟩ := Option.map_eq_some_iff.1 hentry
  have hassets : assetsOf p.docs row'.id name = some data := by
    have hfiles : (entryOf p.docs row').assets = (entryOf c row).assets := by rw [heq]
    refine (congrFun hfiles name).trans ?_
    show (c.assets.get? (row.id, name)).bind _ = _
    rw [hkey]
    exact hdata
  obtain ⟨key', hkey', -⟩ := Option.bind_eq_some_iff.1 hassets
  exact hblank _ key' hkey'

/-- In whatever state the panel is left, an export can be imported again exactly if its names allow it. -/
theorem roundTrips_iff (h : TreeHost τ) (ops : List Op) :
    RoundTrips h ((panel h.toHost).state ops) ↔ Exportable h ((panel h.toHost).state ops) :=
  ⟨exportable_of_roundTrips (sound_panel h.toHost ops), roundTrips_of_exportable (sound_panel h.toHost ops)⟩

/-- A deployment whose clock stands still, on a file system that takes every name; all its documents are empty. -/
def stillHost : TreeHost Unit where
  letters := .ascii
  sha256 _ := "e3b0c44298fc1c149afbf4c8996fb92427ae41e4649b934ca495991b7852b855"
  flushed _ := ()
  now _ := ()
  iso _ := "2026-01-01T00:00:00+00:00"
  fromIso _ := some ()
  fromIso_iso _ := rfl
  iso_ne_empty _ := by decide
  strip_iso _ := by decide
  takes _ := true
  ordered rows := rows
  ordered_perm _ := .refl _
  iterdir entries := entries
  iterdir_perm _ := .refl _
  render _ := ""
  decodeError _ := ""

/-- A document, and an asset whose name follows a directory and a blank. -/
def spacedUpload : List Op := [.saveAsset "python" "a" "d/ x.png" .empty, .saveDocument "python" "a" "" none]

theorem spacedUpload_not_roundTrips : ¬ RoundTrips stillHost ((panel stillHost.toHost).state spacedUpload) := by
  intro hrt
  have hid : (((panel stillHost.toHost).state spacedUpload).documents.get? ("python", "a")).map (·.id) = some 1 := by
    decide +kernel
  have hkey : ((panel stillHost.toHost).state spacedUpload).assets.get? (1, " x.png") = some 1 := by decide +kernel
  obtain ⟨row, hrow, hrowId⟩ := Option.map_eq_some_iff.1 hid
  have hblank := ((exportable_of_roundTrips (sound_panel _ _) hrt _ row hrow).2 " x.png" 1 (by rw [hrowId, hkey])).2
  exact absurd hblank (by decide)

end OpenFish.Docs
