/-
The documents of the panel (`services/docs.py`, `models/docs.py`): rows in the database, bytes in the object store. A
save, an asset and a deletion each write both; each is related to what it does to the catalog that a reader sees.
-/
import OpenFish.Docs.Names
import OpenFish.Lib.Dict
import OpenFish.Lib.Machine

namespace OpenFish.Docs

open Lib

/-- `ECOSYSTEMS`. -/
def ecosystems : List String := ["python", "npm", "docker", "debian", "tools", "models"]

def maxDocBytes : Nat := 2 * 1024 * 1024
def maxAssetBytes : Nat := 16 * 1024 * 1024

/-! ## Rows and objects -/

/-- An ecosystem and a slug. -/
abbrev Place := String × String

/-- A row of `documents`, which is found under its place. Until its first revision is stored it has no object. -/
structure Document (τ : Type) where
  id : Nat
  title : String
  revision : Nat := 0
  storageKey : Option Nat := none
  sha256 : Option String := none
  createdAt : τ
  modifiedAt : τ

/-- A row of `document_revisions`. -/
structure DocumentRevision where
  documentId : Nat
  revision : Nat
  storageKey : Nat
  deriving DecidableEq, Repr

/-- The tables and the object store. A row of `document_assets` is the key of its object, under its document and its
name. `nextId` is an id that no row has; `nextKey` is the one that `new_key` makes up next. -/
structure Store (τ : Type) where
  documents : Dict Place (Document τ)
  revisions : List DocumentRevision
  assets : Dict (Nat × String) Nat
  objects : Dict Nat ByteArray
  nextId : Nat
  nextKey : Nat

def Store.empty {τ : Type} : Store τ := ⟨.empty, [], .empty, .empty, 1, 0⟩

/-- What the deployment supplies. The clock is read when an object is written: `flushed` as its row is inserted, `now`
once the object is there. -/
structure Host (τ : Type) where
  letters : Letters
  /-- The hexadecimal SHA-256. -/
  sha256 : ByteArray → String
  flushed : Nat → τ
  now : Nat → τ

variable {τ : Type}

/-- `store.put` under a new key. -/
def put (c : Store τ) (data : ByteArray) : Store τ :=
  { c with objects := c.objects.set c.nextKey data, nextKey := c.nextKey + 1 }

/-! ## Operations -/

/-- `require_ecosystem`. -/
def requireEcosystem (ecosystem : String) : Except Error Unit :=
  if ecosystem ∈ ecosystems then .ok () else .error (.key ecosystem)

/-- `_check_doc_bytes`. -/
def checkDocBytes (encoded : ByteArray) : Except Error Unit :=
  if maxDocBytes < encoded.size then .error (.value s!"文档超过 {maxDocBytes / (1024 * 1024)} MiB 上限") else .ok ()

/-- `require_document`, with the slug of the row. -/
def requireDocument (c : Store τ) (ecosystem docId : String) : Except Error (String × Document τ) := do
  requireEcosystem ecosystem
  let slug ← normalizeDocId docId
  match c.documents.get? (ecosystem, slug) with
  | none => .error (.missing slug)
  | some row => .ok (slug, row)

/-- What `_store_revision` writes. -/
def storedRevision (h : Host τ) (place : Place) (row : Document τ) (content title : String) (c : Store τ) : Store τ :=
  { put c content.toUTF8 with
    documents := c.documents.set place
      { row with
        title
        revision := row.revision + 1
        storageKey := some c.nextKey
        sha256 := some (h.sha256 content.toUTF8)
        modifiedAt := h.now c.nextKey }
    revisions := c.revisions ++ [{ documentId := row.id, revision := row.revision + 1, storageKey := c.nextKey }] }

/-- `_store_revision`. -/
def storeRevision (h : Host τ) (place : Place) (row : Document τ) (content title : String) (c : Store τ) :
    Except Error (Store τ) := do
  checkDocBytes content.toUTF8
  return storedRevision h place row content title c

def newDocument (h : Host τ) (title : String) (c : Store τ) : Document τ :=
  { id := c.nextId, title, createdAt := h.flushed c.nextKey, modifiedAt := h.flushed c.nextKey }

/-- The row of a place, a new one where there is none. -/
def rowFor (h : Host τ) (place : Place) (title : String) (c : Store τ) : Document τ × Store τ :=
  match c.documents.get? place with
  | some row => (row, c)
  | none => (newDocument h title c, { c with nextId := c.nextId + 1 })

/-- The slug of a save: the one that is asked for, else one that the title gives. -/
def slugFor (h : Host τ) (cleanTitle : String) (docId : Option String) : Except Error String :=
  match docId.filter (· ≠ "") with
  | some docId => normalizeDocId docId
  | none => .ok (slugify h.letters cleanTitle)

/-- `save_document`. -/
def saveDocument (h : Host τ) (ecosystem title content : String) (docId : Option String) (c : Store τ) :
    Except Error (Store τ) := do
  requireEcosystem ecosystem
  checkDocBytes content.toUTF8
  let cleanTitle ← normalizeTitle title
  let slug ← slugFor h cleanTitle docId
  let (row, c) := rowFor h (ecosystem, slug) cleanTitle c
  storeRevision h (ecosystem, slug) row content cleanTitle c

/-- The title after a save: the heading, else what it was. -/
def retitled (content slug : String) (row : Document τ) : String :=
  if headingInText content ≠ "" then headingInText content
  else if Text.strip row.title ≠ "" then Text.strip row.title
  else slug

/-- `save_content`. -/
def saveContent (h : Host τ) (ecosystem docId content : String) (revision : Option Int) (c : Store τ) :
    Except Error (Store τ) := do
  checkDocBytes content.toUTF8
  let (slug, row) ← requireDocument c ecosystem docId
  match revision.filter (· ≠ (row.revision : Int)) with
  | some stale => .error (.revisionConflict slug stale row.revision)
  | none =>
    let title ← normalizeTitle (retitled content slug row)
    storeRevision h (ecosystem, slug) row content title c

/-- What `save_asset` writes; the superseded object goes. -/
def storedAsset (id : Nat) (name : String) (data : ByteArray) (c : Store τ) : Store τ :=
  { put c data with
    assets := c.assets.set (id, name) c.nextKey
    objects :=
      match c.assets.get? (id, name) with
      | none => (put c data).objects
      | some superseded =>
        if superseded ≠ c.nextKey then (put c data).objects.erase superseded else (put c data).objects }

/-- `save_asset`. -/
def saveAsset (ecosystem docId name : String) (data : ByteArray) (c : Store τ) : Except Error (Store τ) := do
  if maxAssetBytes < data.size then .error (.value s!"资源超过 {maxAssetBytes / (1024 * 1024)} MiB 上限")
  else
    let (_, row) ← requireDocument c ecosystem docId
    let filename ← normalizeAssetName name
    return storedAsset row.id filename data c

/-- `_document_keys`. -/
def documentKeys (c : Store τ) (id : Nat) : List Nat :=
  (c.revisions.filter (·.documentId = id)).map (·.storageKey) ++
    (c.assets.entries.filter fun e => e.1.1 = id).map Prod.snd

/-- A document goes, with the rows that refer to it and the objects of both. -/
def dropDocument (place : Place) (id : Nat) (c : Store τ) : Store τ :=
  { c with
    documents := c.documents.erase place
    revisions := c.revisions.filter (·.documentId ≠ id)
    assets := c.assets.keep fun k _ => k.1 ≠ id
    objects := c.objects.keep fun key _ => key ∉ documentKeys c id }

/-- `delete`. -/
def delete (ecosystem docId : String) (c : Store τ) : Except Error (Store τ) := do
  let (slug, row) ← requireDocument c ecosystem docId
  return dropDocument (ecosystem, slug) row.id c

/-- An asset goes with its object. -/
def dropAsset (k : Nat × String) (key : Nat) (c : Store τ) : Store τ :=
  { c with assets := c.assets.erase k, objects := c.objects.erase key }

/-- `delete_asset`. -/
def deleteAsset (ecosystem docId name : String) (c : Store τ) : Except Error (Store τ) := do
  let (_, row) ← requireDocument c ecosystem docId
  let filename ← normalizeAssetName name
  match c.assets.get? (row.id, filename) with
  | none => .error (.missing filename)
  | some key => return dropAsset (row.id, filename) key c

inductive Op
  | saveDocument (ecosystem title content : String) (docId : Option String)
  | saveContent (ecosystem docId content : String) (revision : Option Int)
  | saveAsset (ecosystem docId name : String) (data : ByteArray)
  | delete (ecosystem docId : String)
  | deleteAsset (ecosystem docId name : String)

def perform (h : Host τ) (c : Store τ) : Op → Except Error (Store τ)
  | .saveDocument ecosystem title content docId => saveDocument h ecosystem title content docId c
  | .saveContent ecosystem docId content revision => saveContent h ecosystem docId content revision c
  | .saveAsset ecosystem docId name data => saveAsset ecosystem docId name data c
  | .delete ecosystem docId => delete ecosystem docId c
  | .deleteAsset ecosystem docId name => deleteAsset ecosystem docId name c

/-- The panel: what raises leaves everything as it was. -/
def panel (h : Host τ) : Machine (Store τ) Op (Except Error Unit) where
  start := .empty
  step c op :=
    match perform h c op with
    | .error e => (.error e, c)
    | .ok c' => (.ok (), c')

end OpenFish.Docs
