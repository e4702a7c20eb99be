/-
The operations on documents (`services/docs.py`) side by side. Each reads what it needs, writes its object and commits; between
two of these steps the others make theirs, the database and the object store may refuse any of them, and a call may stop where it
stands. The database checks its keys at a commit; an UPDATE goes by the id of a row and writes the fields that the call changed.
-/
import OpenFish.Docs.Store
import OpenFish.Lib.Interleave

namespace OpenFish.Docs

open Lib

/-! ## Rows -/

/-- What a row records of its object. -/
structure Stored where
  key : Nat
  size : Nat
  sha256 : String
  deriving DecidableEq, Repr

/-- A row of `documents`, under its id. -/
structure DocumentRow where
  place : Place
  title : String
  revision : Nat
  body : Stored
  deriving DecidableEq, Repr

/-- A row of `document_revisions`, under its document and its number, which are unique together. -/
structure RevisionRow where
  title : String
  body : Stored
  deriving DecidableEq, Repr

/-- A row of `document_assets`, under its id. -/
structure AssetRow where
  documentId : Nat
  name : String
  body : Stored
  deriving DecidableEq, Repr

/-- The tables and the object store. Of the past it is remembered which ids documents had, and the keys of the revisions that went
with their document: an id may be given again, a key is not. -/
structure Tables where
  documents : Dict Nat DocumentRow
  revisions : Dict (Nat × Nat) RevisionRow
  assets : Dict Nat AssetRow
  objects : Dict Nat ByteArray
  nextKey : Nat
  born : List Nat
  dropped : List Nat

def Tables.empty : Tables := ⟨.empty, .empty, .empty, .empty, 0, [], []⟩

variable {τ : Type}

def stored (h : Host τ) (key : Nat) (data : ByteArray) : Stored := ⟨key, data.size, h.sha256 data⟩

/-- `_find`. -/
def Tables.find (s : Tables) (place : Place) : Option (Nat × DocumentRow) :=
  s.documents.entries.find? fun e => e.2.place = place

def Tables.findAsset (s : Tables) (documentId : Nat) (name : String) : Option (Nat × AssetRow) :=
  s.assets.entries.find? fun e => e.2.documentId = documentId ∧ e.2.name = name

/-- `require_document`. -/
def Tables.require (s : Tables) (ecosystem docId : String) : Except Error (Nat × DocumentRow) := do
  requireEcosystem ecosystem
  let slug ← normalizeDocId docId
  match s.find (ecosystem, slug) with
  | none => .error (.missing slug)
  | some found => .ok found

/-- The row as the store has it that is read and written in one step. -/
def DocumentRow.document (id : Nat) (row : DocumentRow) : Document Unit where
  id := id
  title := row.title
  revision := row.revision
  storageKey := some row.body.key
  sha256 := some row.body.sha256
  createdAt := ()
  modifiedAt := ()

/-! ## Calls -/

/-- The row of a document that is saved: new at its place, or as it was read. -/
inductive Base
  | created (place : Place)
  | loaded (row : DocumentRow)
  deriving DecidableEq, Repr

/-- A revision that is to be stored. `expected` is the one that an editor named. -/
structure Draft where
  id : Nat
  base : Base
  expected : Option Int := none
  revision : Nat
  title : String
  content : String
  deriving DecidableEq, Repr

/-- The bytes of an asset that is to be stored. -/
structure Upload where
  documentId : Nat
  name : String
  data : ByteArray

/-- How a call ended whose save was not committed. -/
inductive Outcome
  | raised | committed
  deriving DecidableEq, Repr

/-- Where a call stands: before its first read, before an INSERT, before it writes its object, before it commits; a deletion
reads the keys of its objects one table after the other. Objects that nothing refers to any more are cleared last. A save that
was committed stays with its revision and its key. -/
inductive Call
  | reading (op : Op)
  | flushing (place : Place) (title content : String)
  | storing (draft : Draft)
  | saving (draft : Draft) (key : Nat)
  | saved (draft : Draft) (key : Nat)
  | uploading (upload : Upload)
  | seeking (upload : Upload) (key : Nat)
  | assigning (upload : Upload) (key : Nat) (found : Option (Nat × Stored))
  | collecting (documentId : Nat)
  | collectingAssets (documentId : Nat) (keys : List Nat)
  | dropping (documentId : Nat) (keys : List Nat)
  | finding (documentId : Nat) (name : String)
  | detaching (assetId key : Nat)
  | clearing (keys : List Nat) (outcome : Outcome)
  | ended (outcome : Outcome)

/-- What a step is answered: whether the database or the store takes it, and the id of a row that it inserts. -/
structure Reply where
  ok : Bool
  id : Nat
  deriving DecidableEq, Repr

def Call.ofExcept {α : Type} (x : Except Error α) (next : α → Call) : Call :=
  match x with
  | .ok a => next a
  | .error _ => .ended .raised

/-! ## Steps -/

section steps

variable (h : Host τ) (s : Tables)

/-- The place, the title and the content of `save_document`. -/
def checkedSave (ecosystem title content : String) (docId : Option String) : Except Error (Place × String) := do
  requireEcosystem ecosystem
  checkDocBytes content.toUTF8
  let cleanTitle ← normalizeTitle title
  let slug ← slugFor h cleanTitle docId
  return ((ecosystem, slug), cleanTitle)

/-- What `save_content` is going to store. -/
def checkedContent (ecosystem docId content : String) (revision : Option Int) : Except Error Draft := do
  checkDocBytes content.toUTF8
  let (id, row) ← s.require ecosystem docId
  match revision.filter (· ≠ (row.revision : Int)) with
  | some stale => .error (.revisionConflict row.place.2 stale row.revision)
  | none =>
    let title ← normalizeTitle (retitled content row.place.2 (row.document id))
    return { id, base := .loaded row, expected := revision, revision := row.revision + 1, title, content }

/-- What `save_asset` is going to store. -/
def checkedUpload (ecosystem docId name : String) (data : ByteArray) : Except Error Upload :=
  if maxAssetBytes < data.size then .error (.value s!"资源超过 {maxAssetBytes / (1024 * 1024)} MiB 上限")
  else do
    let (documentId, _) ← s.require ecosystem docId
    let filename ← normalizeAssetName name
    return { documentId, name := filename, data }

/-- The first read of an operation, and what is checked with it. -/
def opened : Op → Call
  | .saveDocument ecosystem title content docId =>
    .ofExcept (checkedSave h ecosystem title content docId) fun checked =>
      match s.find checked.1 with
      | some (id, row) => .storing { id, base := .loaded row, revision := row.revision + 1, title := checked.2, content }
      | none => .flushing checked.1 checked.2 content
  | .saveContent ecosystem docId content revision => .ofExcept (checkedContent s ecosystem docId content revision) .storing
  | .saveAsset ecosystem docId name data => .ofExcept (checkedUpload s ecosystem docId name data) .uploading
  | .delete ecosystem docId => .ofExcept (s.require ecosystem docId) fun found => .collecting found.1
  | .deleteAsset ecosystem docId name =>
    .ofExcept (do
      let (id, _) ← s.require ecosystem docId
      let filename ← normalizeAssetName name
      return (id, filename)) fun found => .finding found.1 found.2

/-- `store.put`, under a key that nothing has. -/
def Tables.put (data : ByteArray) : Tables :=
  { s with objects := s.objects.set s.nextKey data, nextKey := s.nextKey + 1 }

/-- The value of a field after an UPDATE: an attribute is written if it was set to something else than was read. -/
def assigned {α : Type} [DecidableEq α] (old new current : α) : α := if new = old then current else new

/-- The key is always another, since it is new. -/
def Stored.assigned (old new current : Stored) : Stored :=
  ⟨new.key, Docs.assigned old.size new.size current.size, Docs.assigned old.sha256 new.sha256 current.sha256⟩

/-- The row that the commit of a draft leaves: an INSERT needs a free id and a free place, an UPDATE a row. Its revision is always
another than was read. -/
def Tables.rowFor (d : Draft) (body : Stored) : Option DocumentRow :=
  match d.base with
  | .created place =>
    if (s.documents.get? d.id).isNone ∧ (s.find place).isNone then
      some { place, title := d.title, revision := d.revision, body }
    else none
  | .loaded old =>
    (s.documents.get? d.id).map fun row =>
      { row with title := assigned old.title d.title row.title, revision := d.revision, body := old.body.assigned body row.body }

/-- The commit of `_store_revision`, if the keys of the tables take it. -/
def Tables.commitSave (d : Draft) (key : Nat) : Option Tables :=
  let body := stored h key d.content.toUTF8
  match s.rowFor d body, s.revisions.get? (d.id, d.revision) with
  | some row, none =>
    some { s with
      documents := s.documents.set d.id row
      revisions := s.revisions.set (d.id, d.revision) { title := d.title, body }
      born := d.id :: s.born }
  | _, _ => none

/-- The commit of `save_asset`, if the keys of the tables take it: an UPDATE of the row that was found, or an INSERT. -/
def Tables.commitAsset (u : Upload) (key : Nat) (id : Nat) : Option (Nat × Stored) → Option Tables
  | some (assetId, old) =>
    (s.assets.get? assetId).map fun row =>
      { s with assets := s.assets.set assetId { row with body := old.assigned (stored h key u.data) row.body } }
  | none =>
    if (s.documents.get? u.documentId).isSome ∧ (s.assets.get? id).isNone ∧ (s.findAsset u.documentId u.name).isNone then
      some { s with assets := s.assets.set id { documentId := u.documentId, name := u.name, body := stored h key u.data } }
    else none

def Tables.revisionKeys (documentId : Nat) : List Nat :=
  (s.revisions.entries.filter fun e => e.1.1 = documentId).map (·.2.body.key)

def Tables.assetKeys (documentId : Nat) : List Nat :=
  (s.assets.entries.filter fun e => e.2.documentId = documentId).map (·.2.body.key)

/-- A document is deleted by its id, with the rows that refer to it. -/
def Tables.drop (documentId : Nat) : Tables :=
  { s with
    documents := s.documents.erase documentId
    revisions := s.revisions.keep fun k _ => k.1 ≠ documentId
    assets := s.assets.keep fun _ row => row.documentId ≠ documentId
    dropped := s.revisionKeys documentId ++ s.dropped }

/-- The step of a call that is answered. -/
def answered (reply : Reply) : Call → Tables × Call
  | .reading op => (s, opened h s op)
  | .flushing place title content =>
    if (s.documents.get? reply.id).isNone ∧ (s.find place).isNone then
      (s, .storing { id := reply.id, base := .created place, revision := 1, title, content })
    else (s, .ended .raised)
  | .storing draft => (s.put draft.content.toUTF8, .saving draft s.nextKey)
  | .saving draft key =>
    match s.commitSave h draft key with
    | some s' => (s', .saved draft key)
    | none => (s, .clearing [key] .raised)
  | .saved draft key => (s, .saved draft key)
  | .uploading upload => (s.put upload.data, .seeking upload s.nextKey)
  | .seeking upload key =>
    (s, .assigning upload key ((s.findAsset upload.documentId upload.name).map fun e => (e.1, e.2.body)))
  | .assigning upload key found =>
    match s.commitAsset h upload key reply.id found with
    | some s' => (s', .clearing ((found.map (·.2.key)).toList.filter (· ≠ key)) .committed)
    | none => (s, .clearing [key] .raised)
  | .collecting documentId => (s, .collectingAssets documentId (s.revisionKeys documentId))
  | .collectingAssets documentId keys => (s, .dropping documentId (keys ++ s.assetKeys documentId))
  | .dropping documentId keys => (s.drop documentId, .clearing keys .committed)
  | .finding documentId name =>
    match s.findAsset documentId name with
    | some (assetId, row) => (s, .detaching assetId row.body.key)
    | none => (s, .ended .raised)
  | .detaching assetId key => ({ s with assets := s.assets.erase assetId }, .clearing [key] .committed)
  | .clearing (key :: keys) outcome => ({ s with objects := s.objects.erase key }, .clearing keys outcome)
  | .clearing [] outcome => (s, .ended outcome)
  | .ended outcome => (s, .ended outcome)

/-- The step of a call that is refused: a commit is rolled back and its object cleared, and what cannot be cleared stays. -/
def refused : Call → Call
  | .saving _ key | .assigning _ key _ => .clearing [key] .raised
  | .clearing _ outcome | .ended outcome => .ended outcome
  | .saved draft key => .saved draft key
  | _ => .ended .raised

end steps

/-- The operations, any number of them side by side. -/
def editors (h : Host τ) : Program Tables Call Op Reply Empty where
  start := .empty
  enter _ op := .reading op
  step s call reply := if reply.ok then answered h s reply call else (s, refused call)
  other s _ := s

end OpenFish.Docs
