/-
A publish that is refused, and what it leaves behind: the attachments are stored one after the other, so what was stored
before one of them is refused stays, and so does all of it where `publish.json` cannot be read, merged or written for
another reason than an `OSError`.
-/
import OpenFish.Lib.Json
import OpenFish.Npm.Reading

namespace OpenFish.Npm

open Lib

/-! ## The metadata file -/

/-- `publish.json`. -/
inductive IndexFile
  /-- It is missing, cannot be opened or is no JSON. -/
  | unread
  /-- What reading it raises: it is no UTF-8, or nested too deep. -/
  | raises (why : String)
  | document (value : Json)

/-- The directory with its `publish.json`. -/
structure Home where
  directory : Directory
  index : IndexFile

/-- What comes of writing `publish.json`. -/
inductive Written
  | done
  /-- An `OSError`, which is dropped. -/
  | failed
  /-- Another exception: the document has a lone surrogate, which is not encoded. -/
  | raises (why : String)

/-- A publish, and how the file system takes it. -/
structure Publication where
  request : Request
  description : String
  publisher : String
  now : Json
  stamps : Stamps
  /-- Why no file of this name can be written, if so. -/
  unwritable : String → Option String
  indexWritten : Written

/-- `read_json`, with the empty dictionary as the default. -/
def readIndex : IndexFile → Except String Json
  | .unread => .ok (.obj [])
  | .raises why => .error why
  | .document value => .ok value

/-- The document that `_record_metadata` writes, or what is raised. -/
def mergeIndex (pairs : List Json → Except String (List (String × Json))) (p : Publication) (data : Json) (name : String)
    (tags : List (String × String)) (versions : List String) : Except String Json := do
  let packages := Json.dictOrEmpty (Json.get (Json.dictOrEmpty data) "packages")
  let record := Json.dictOrEmpty (Json.get packages name)
  let recorded ← Json.itemsOrNone (Json.get record "dist-tags")
  let merged := tags.foldl (fun entries tag => Json.assign entries tag.1 (.str tag.2)) (recorded.filter fun e => e.2 matches .str _)
  let times ← Json.dictOf pairs (Json.get record "time")
  let record := Json.assign record "dist-tags" (.obj merged)
  let record := Json.assign record "time" (.obj (versions.foldl (fun entries version => Json.assign entries version p.now) times))
  let record := Json.assign record "modified" p.now
  let record := if p.description = "" then record else Json.assign record "description" (.str p.description)
  let record := if p.publisher = "" then record else Json.assign record "publisher" (.str p.publisher)
  return .obj [("version", .int 1), ("packages", .obj (Json.assign packages name (.obj record)))]

/-- `_record_metadata`: what `publish.json` is then, or what is raised. -/
def recordMetadata (pairs : List Json → Except String (List (String × Json))) (p : Publication) (index : IndexFile)
    (name : String) (tags : List (String × String)) (versions : List String) : Except String IndexFile := do
  let data ← readIndex index
  let merged ← mergeIndex pairs p data name tags versions
  match p.indexWritten with
  | .done => .ok (.document merged)
  | .failed => .ok index
  | .raises why => .error why

/-! ## Publishing -/

section publishing

variable (formats : Formats) (pairs : List Json → Except String (List (String × Json))) (p : Publication)

/-- One turn of the loop, with the write that may fail. -/
def storeOne (d : Directory) (name : String) (versions : List (String × VersionEntry)) (a : String × Attachment) :
    Except Fault (Directory × PublishedVersion) :=
  match storeAttachment formats d name versions p.request.overwrite p.stamps a.1 a.2 with
  | .error fault => .error fault
  | .ok (d', item) =>
    match p.unwritable item.filename with
    | some why => .error (.internal why)
    | none => .ok (d', item)

/-- The loop. -/
def storeEach (name : String) (versions : List (String × VersionEntry)) :
    Directory → List (String × Attachment) → Directory × List PublishedVersion × Option Fault
  | d, [] => (d, [], none)
  | d, a :: rest =>
    match storeOne formats p d name versions a with
    | .error fault => (d, [], some fault)
    | .ok (d', item) =>
      let more := storeEach name versions d' rest
      (more.1, item :: more.2.1, more.2.2)

/-- `publish`, with the whole of `publish.json`. -/
def publishDocument (home : Home) : Except Fault (List PublishedVersion) × Home :=
  match validate p.request with
  | .error fault => (.error fault, home)
  | .ok (name, document) =>
    match storeEach formats p name document.versions home.directory document.attachments with
    | (d', _, some fault) => (.error fault, { home with directory := d' })
    | (d', published, none) =>
      match recordMetadata pairs p home.index name document.distTags (published.map (·.version)) with
      | .error why => (.error (.internal why), { home with directory := d' })
      | .ok index => (.ok published, ⟨d', index⟩)

end publishing

/-! ## What the claim is about -/

def Directory.bytes (d : Directory) (filename : String) : Option Bytes := (d.files.get? filename).map (·.bytes)

/-- The same tarballs with the same bytes, and the same metadata. -/
structure Home.Same (home home' : Home) : Prop where
  bytes : ∀ filename, home'.directory.bytes filename = home.directory.bytes filename
  index : home'.index = home.index

/-- Every refusal leaves all as it was. -/
def Untouched (formats : Formats) (pairs : List Json → Except String (List (String × Json))) (p : Publication) (home : Home) :
    Prop :=
  ∀ fault home', publishDocument formats pairs p home = (.error fault, home') → home.Same home'

/-- The version, the file and the bytes of an attachment that nothing in it refuses, whatever the directory holds. -/
def attached (formats : Formats) (name : String) (versions : List (String × VersionEntry)) (a : String × Attachment) :
    Option (String × String × Bytes) :=
  match a.2 with
  | .notObject => none
  | .object data =>
    match versionForAttachment formats a.1 name versions with
    | .ok (some version) =>
      match versions.lookup version with
      | some (.object _ shasum integrity) =>
        -- in an empty directory every name may be taken
        match checkAttachment formats Directory.empty name version shasum integrity data false with
        | .ok (filename, bytes) => some (version, filename, bytes)
        | .error _ => none
      | _ => none
    | _ => none

/-- Nor does the directory, nor the file system. -/
def fits (formats : Formats) (p : Publication) (d : Directory) (name : String) (versions : List (String × VersionEntry))
    (a : String × Attachment) : Bool :=
  match attached formats name versions a with
  | none => false
  | some (version, filename, _) =>
    (mayTake formats d name version filename p.request.overwrite).isOk && (p.unwritable filename).isNone

/-- The bytes that these attachments last write to a file. -/
def lastBytes (formats : Formats) (name : String) (versions : List (String × VersionEntry)) (as : List (String × Attachment))
    (filename : String) : Option Bytes :=
  (as.reverse.filterMap (attached formats name versions)).findSome? fun t => if t.2.1 = filename then some t.2.2 else none

/-- The record of the package in a document can be merged. -/
def mergeable (pairs : List Json → Except String (List (String × Json))) (data : Json) (name : String) : Bool :=
  let record := Json.dictOrEmpty (Json.get (Json.dictOrEmpty (Json.get (Json.dictOrEmpty data) "packages")) name)
  (Json.itemsOrNone (Json.get record "dist-tags")).isOk && (Json.dictOf pairs (Json.get record "time")).isOk

/-- `publish.json` is missing, no JSON, or has a record that can be merged, and what is written of it can be encoded. -/
def recordable (pairs : List Json → Except String (List (String × Json))) (p : Publication) (index : IndexFile) (name : String) :
    Bool :=
  match index, p.indexWritten with
  | .raises _, _ => false
  | _, .raises _ => false
  | .unread, _ => true
  | .document data, _ => mergeable pairs data name

/-- No attachment is refused, and the record can be written; or what comes before the first one that does not fit repeats
the bytes that are there. -/
def Harmless (formats : Formats) (pairs : List Json → Except String (List (String × Json))) (p : Publication) (home : Home) :
    Prop :=
  ∀ name document, validate p.request = .ok (name, document) →
    ((∀ a ∈ document.attachments, fits formats p home.directory name document.versions a = true) ∧
      (p.request.overwrite = true ∨
        ((document.attachments.filterMap (attached formats name document.versions)).map (·.2.1)).Nodup) ∧
      recordable pairs p home.index name = true) ∨
    ∀ filename bytes, lastBytes formats name document.versions
        (document.attachments.takeWhile (fits formats p home.directory name document.versions)) filename = some bytes →
      home.directory.bytes filename = some bytes

/-! ## What one attachment does -/

section one

variable {formats : Formats} {p : Publication} {d : Directory} {name : String} {versions : List (String × VersionEntry)}

theorem Directory.bytes_write (d : Directory) (filename other : String) (data : Bytes) (stamp : Stamp) :
    (d.write filename data stamp).bytes other = if other = filename then some data else d.bytes other := by
  unfold Directory.bytes Directory.write
  rw [Dict.get?_set]
  split <;> rfl

theorem mayTake_empty (name version filename : String) (overwrite : Bool) :
    mayTake formats Directory.empty name version filename overwrite = .ok () := rfl

/-- The directory decides nothing of a check but its last step. -/
theorem checkAttachment_eq (d : Directory) (name version : String) (shasum integrity data : Option String) (overwrite : Bool) :
    checkAttachment formats d name version shasum integrity data overwrite =
      checkAttachment formats Directory.empty name version shasum integrity data false >>= fun checked =>
        mayTake formats d name version checked.1 overwrite >>= fun _ => pure checked := by
  unfold checkAttachment
  simp only [bind_assoc, pure_bind, mayTake_empty]
  rfl

/-- The version a manifest is read for is only in the messages. -/
theorem readManifest_other (formats : Formats) (data : Bytes) (version other : String) :
    (∃ manifest, readManifest formats data version = .ok manifest ∧ readManifest formats data other = .ok manifest) ∨
      (∃ message message', readManifest formats data version = .error (.badRequest message) ∧
        readManifest formats data other = .error (.badRequest message')) ∨
      ∃ why, readManifest formats data version = .error (.internal why) ∧
        readManifest formats data other = .error (.internal why) := by
  have hfault (damage : Damage) : (∃ message message', readFault version damage = .badRequest message ∧
      readFault other damage = .badRequest message') ∨
        ∃ why, readFault version damage = .internal why ∧ readFault other damage = .internal why := by
    cases damage with
    | tar why => exact .inl ⟨_, _, rfl, rfl⟩
    | truncated why => exact .inl ⟨_, _, rfl, rfl⟩
    | value why => exact .inr ⟨why, rfl, rfl⟩
    | other why => exact .inr ⟨why, rfl, rfl⟩
  unfold readManifest
  simp only
  generalize (if (pickMember (formats.archive data).members none).2 then none else (formats.archive data).broken) = broken
  cases broken with
  | some damage =>
    simp only [Except.error.injEq]
    exact .inr (hfault damage)
  | none =>
    cases (pickMember (formats.archive data).members none).1 with
    | none => exact .inr (.inl ⟨_, _, rfl, rfl⟩)
    | some member =>
      simp only
      by_cases hsize : maxManifestBytes < member.size
      · rw [if_pos hsize, if_pos hsize]
        exact .inr (.inl ⟨_, _, rfl, rfl⟩)
      · rw [if_neg hsize, if_neg hsize]
        cases member.content with
        | error damage =>
          simp only [Except.error.injEq]
          exact .inr (hfault damage)
        | ok content =>
          simp only
          cases formats.parse content with
          | invalid why => exact .inr (.inl ⟨_, _, rfl, rfl⟩)
          | tooDeep why => exact .inr (.inr ⟨why, rfl, rfl⟩)
          | notObject => exact .inr (.inl ⟨_, _, rfl, rfl⟩)
          | object manifest => exact .inl ⟨manifest, rfl, rfl⟩

theorem existingPackageName_other (stored : Stored) (version other : String) :
    existingPackageName formats stored version = existingPackageName formats stored other := by
  unfold existingPackageName
  rcases readManifest_other formats stored.bytes version other with ⟨manifest, hread, hother⟩ | ⟨_, _, hread, hother⟩ |
    ⟨why, hread, hother⟩ <;> rw [hread, hother]

theorem declares_ok {field expected : String} {inner : Field} {u : Unit} (h : declares field inner expected = .ok u)
    (hnamed : inner.isText = true ∧ inner.shown ≠ "") : inner.shown = expected := by
  by_contra hne
  unfold declares at h
  rw [if_pos ⟨hnamed.1, hnamed.2, hne⟩] at h
  cases h

/-- A checked tarball says that it is this package, or says nothing. -/
theorem existingPackageName_of_check {version filename : String} {shasum integrity data : Option String} {bytes : Bytes}
    {overwrite : Bool}
    (h : checkAttachment formats d name version shasum integrity data overwrite = .ok (filename, bytes)) (mtime : Nat)
    (other : String) : existingPackageName formats ⟨bytes, mtime⟩ other = .ok none ∨
      existingPackageName formats ⟨bytes, mtime⟩ other = .ok (some name) := by
  obtain ⟨decoded, -, h⟩ := ok_of_bind h
  obtain ⟨manifest, hread, h⟩ := ok_of_bind h
  obtain ⟨_, hname, h⟩ := ok_of_bind h
  obtain ⟨_, -, h⟩ := ok_of_bind h
  obtain ⟨_, -, h⟩ := ok_of_bind h
  obtain ⟨_, -, h⟩ := ok_of_bind h
  obtain ⟨stem, -, h⟩ := ok_of_bind h
  obtain ⟨_, -, h⟩ := ok_of_bind h
  have hpair : (stem, decoded) = (filename, bytes) := Except.ok.inj h
  obtain ⟨rfl, rfl⟩ := Prod.mk.inj hpair
  rw [existingPackageName_other _ other version]
  unfold existingPackageName
  rw [hread]
  simp only
  split
  · exact .inl rfl
  · split
    · rename_i hnamed
      rw [declares_ok hname hnamed]
      exact .inr rfl
    · exact .inl rfl

theorem storeAttachment_of_not_attached {a : String × Attachment} (h : attached formats name versions a = none)
    (overwrite : Bool) (stamps : Stamps) :
    ∃ fault, storeAttachment formats d name versions overwrite stamps a.1 a.2 = .error fault := by
  unfold attached at h
  unfold storeAttachment
  cases ha : a.2 with
  | notObject => exact ⟨_, rfl⟩
  | object data =>
    rw [ha] at h
    simp only at h ⊢
    cases hversion : versionForAttachment formats a.1 name versions with
    | error fault => exact ⟨_, rfl⟩
    | ok found =>
      cases found with
      | none => exact ⟨_, rfl⟩
      | some version =>
        rw [hversion] at h
        simp only at h ⊢
        cases hentry : versions.lookup version with
        | none => exact ⟨_, rfl⟩
        | some entry =>
          cases entry with
          | notObject => exact ⟨_, rfl⟩
          | object tarball shasum integrity =>
            rw [hentry] at h
            simp only at h ⊢
            rw [checkAttachment_eq]
            split at h
            · cases h
            · rename_i fault hcheck
              rw [hcheck]
              exact ⟨fault, rfl⟩

/-- An attachment with nothing wrong in it is stored where its name may be taken. -/
theorem storeAttachment_of_attached {a : String × Attachment} {version filename : String} {bytes : Bytes}
    (h : attached formats name versions a = some (version, filename, bytes)) (overwrite : Bool) (stamps : Stamps) :
    storeAttachment formats d name versions overwrite stamps a.1 a.2 =
      (mayTake formats d name version filename overwrite).map fun _ =>
        (d.write filename bytes (stamps.attachment a.1),
          ⟨name, version, filename, bytes.length, formats.sha1 bytes, formats.sha512 bytes⟩) := by
  unfold attached at h
  unfold storeAttachment
  cases ha : a.2 with
  | notObject => rw [ha] at h; cases h
  | object data =>
    rw [ha] at h
    simp only at h ⊢
    split at h
    · rename_i found hversion
      rw [hversion]
      simp only
      cases hentry : versions.lookup found with
      | none => rw [hentry] at h; cases h
      | some entry =>
        rw [hentry] at h
        cases entry with
        | notObject => cases h
        | object tarball shasum integrity =>
          simp only at h ⊢
          split at h
          · rename_i filename' bytes' hcheck
            rw [checkAttachment_eq, hcheck]
            obtain ⟨rfl, hpair⟩ := Prod.mk.inj (Option.some.inj h)
            obtain ⟨rfl, rfl⟩ := Prod.mk.inj hpair
            simp only [Bind.bind, Except.bind]
            cases mayTake formats d name found filename' overwrite <;> rfl
          · cases h
    · cases h

theorem existingPackageName_of_attached {a : String × Attachment} {version filename : String} {bytes : Bytes}
    (h : attached formats name versions a = some (version, filename, bytes)) (mtime : Nat) (other : String) :
    existingPackageName formats ⟨bytes, mtime⟩ other = .ok none ∨
      existingPackageName formats ⟨bytes, mtime⟩ other = .ok (some name) := by
  unfold attached at h
  split at h
  · cases h
  · split at h
    · split at h
      · split at h
        · rename_i hcheck
          obtain ⟨rfl, hpair⟩ := Prod.mk.inj (Option.some.inj h)
          obtain ⟨rfl, rfl⟩ := Prod.mk.inj hpair
          exact existingPackageName_of_check hcheck mtime other
        · cases h
      · cases h
    · cases h

/-! ## One turn -/

theorem storeOne_of_fits {a : String × Attachment} (h : fits formats p d name versions a = true) :
    ∃ version filename bytes item, attached formats name versions a = some (version, filename, bytes) ∧
      (mayTake formats d name version filename p.request.overwrite).isOk = true ∧
      storeOne formats p d name versions a = .ok (d.write filename bytes (p.stamps.attachment a.1), item) := by
  unfold fits at h
  split at h
  · cases h
  · rename_i version filename bytes hattached
    obtain ⟨htake, hwritable⟩ := Bool.and_eq_true_iff.1 h
    refine ⟨version, filename, bytes, ⟨name, version, filename, bytes.length, formats.sha1 bytes, formats.sha512 bytes⟩,
      hattached, htake, ?_⟩
    unfold storeOne
    rw [storeAttachment_of_attached hattached]
    cases hmay : mayTake formats d name version filename p.request.overwrite with
    | error fault => rw [hmay] at htake; cases htake
    | ok _ =>
      simp only [Except.map]
      rw [Option.isNone_iff_eq_none.1 hwritable]

theorem storeOne_of_not_fits {a : String × Attachment} (h : fits formats p d name versions a = false) :
    ∃ fault, storeOne formats p d name versions a = .error fault := by
  unfold fits at h
  unfold storeOne
  split at h
  · rename_i hattached
    obtain ⟨fault, hfault⟩ := storeAttachment_of_not_attached (d := d) hattached p.request.overwrite p.stamps
    rw [hfault]
    exact ⟨fault, rfl⟩
  · rename_i version filename bytes hattached
    rw [storeAttachment_of_attached hattached]
    cases hmay : mayTake formats d name version filename p.request.overwrite with
    | error fault => exact ⟨fault, rfl⟩
    | ok _ =>
      rw [hmay] at h
      simp only [Except.map]
      cases hwritable : p.unwritable filename with
      | none => rw [hwritable] at h; cases h
      | some why => exact ⟨_, rfl⟩

/-- After a write, its file is for those that overwrite; the other files are as they were. -/
theorem mayTake_write {a : String × Attachment} {version filename : String} {bytes : Bytes}
    (h : attached formats name versions a = some (version, filename, bytes)) (stamp : Stamp) (other file : String)
    (overwrite : Bool) : (mayTake formats (d.write filename bytes stamp) name other file overwrite).isOk =
      if file = filename then overwrite else (mayTake formats d name other file overwrite).isOk := by
  unfold mayTake Directory.write
  rw [Dict.get?_set]
  by_cases hfile : file = filename
  · rw [if_pos hfile, if_pos hfile]
    cases overwrite with
    | false => rfl
    | true =>
      simp only [Bool.true_eq_false, if_false]
      rcases existingPackageName_of_attached h stamp.mtime other with hexisting | hexisting
      · rw [hexisting]
        rfl
      · rw [hexisting]
        simp only [if_true]
        rfl
  · rw [if_neg hfile, if_neg hfile]

/-- Whether a name may be taken does not depend on the version, which is only in the message. -/
theorem mayTake_other (version other file : String) (overwrite : Bool) :
    (mayTake formats d name version file overwrite).isOk = (mayTake formats d name other file overwrite).isOk := by
  unfold mayTake
  split
  · rfl
  · split
    · rfl
    · rename_i stored _ _
      rw [existingPackageName_other stored version other]
      split
      · rfl
      · rfl
      · split <;> rfl

/-- What still fits after one attachment is stored. -/
theorem fits_write {a b : String × Attachment} {version filename : String} {bytes : Bytes}
    (h : attached formats name versions a = some (version, filename, bytes))
    (htake : (mayTake formats d name version filename p.request.overwrite).isOk = true) (stamp : Stamp) :
    fits formats p (d.write filename bytes stamp) name versions b =
      (fits formats p d name versions b &&
        (p.request.overwrite || ((attached formats name versions b).map (·.2.1)) != some filename)) := by
  unfold fits
  split
  · rfl
  · rename_i other file _ hb
    rw [mayTake_write h, hb]
    simp only [Option.map_some]
    by_cases hfile : file = filename
    · subst hfile
      rw [if_pos rfl, mayTake_other other version, htake]
      cases p.request.overwrite <;> simp
    · rw [if_neg hfile]
      simp [hfile]

end one

/-! ## A whole run of the loop -/

section run

variable {formats : Formats} {p : Publication} {name : String} {versions : List (String × VersionEntry)}

theorem lastBytes_cons {a : String × Attachment} {version filename : String} {bytes : Bytes}
    (h : attached formats name versions a = some (version, filename, bytes)) (as : List (String × Attachment)) (file : String) :
    lastBytes formats name versions (a :: as) file =
      (lastBytes formats name versions as file).or (if filename = file then some bytes else none) := by
  unfold lastBytes
  rw [List.reverse_cons, List.filterMap_append, List.findSome?_append, List.filterMap_cons_some h]
  simp only [List.filterMap_nil, List.findSome?_cons, List.findSome?_nil]
  split <;> rename_i heq <;> rw [heq]

theorem storeEach_cons_of_fits {d : Directory} {a : String × Attachment} {d' : Directory} {item : PublishedVersion}
    (h : storeOne formats p d name versions a = .ok (d', item)) (as : List (String × Attachment)) :
    (storeEach formats p name versions d (a :: as)).1 = (storeEach formats p name versions d' as).1 ∧
      (storeEach formats p name versions d (a :: as)).2.2 = (storeEach formats p name versions d' as).2.2 := by
  rw [storeEach, h]
  exact ⟨rfl, rfl⟩

theorem storeEach_cons_of_not_fits {d : Directory} {a : String × Attachment} {fault : Fault}
    (h : storeOne formats p d name versions a = .error fault) (as : List (String × Attachment)) :
    storeEach formats p name versions d (a :: as) = (d, [], some fault) := by
  rw [storeEach, h]

/-- Where existing files may be overwritten, what fits at first fits throughout. -/
theorem fits_write_of_overwrite {d : Directory} {a : String × Attachment} {version filename : String} {bytes : Bytes}
    (hoverwrite : p.request.overwrite = true) (h : attached formats name versions a = some (version, filename, bytes))
    (htake : (mayTake formats d name version filename p.request.overwrite).isOk = true) (stamp : Stamp) :
    fits formats p (d.write filename bytes stamp) name versions = fits formats p d name versions := by
  funext b
  rw [fits_write h htake, hoverwrite, Bool.true_or, Bool.and_true]

/-- The files are written in order up to the first attachment that does not fit. -/
theorem bytes_storeEach_of_overwrite (hoverwrite : p.request.overwrite = true) :
    ∀ (as : List (String × Attachment)) (d : Directory) (file : String),
      (storeEach formats p name versions d as).1.bytes file =
        (lastBytes formats name versions (as.takeWhile (fits formats p d name versions)) file).or (d.bytes file)
  | [], d, file => rfl
  | a :: as, d, file => by
    cases ha : fits formats p d name versions a with
    | false =>
      obtain ⟨fault, hfault⟩ := storeOne_of_not_fits ha
      rw [storeEach_cons_of_not_fits hfault, List.takeWhile_cons_of_neg (by rw [ha]; exact Bool.false_ne_true)]
      rfl
    | true =>
      obtain ⟨version, filename, bytes, item, hattached, htake, hone⟩ := storeOne_of_fits ha
      rw [(storeEach_cons_of_fits hone as).1, bytes_storeEach_of_overwrite hoverwrite as,
        fits_write_of_overwrite hoverwrite hattached htake, List.takeWhile_cons_of_pos ha, lastBytes_cons hattached,
        Directory.bytes_write, Option.or_assoc]
      congr 1
      by_cases hfile : file = filename
      · rw [if_pos hfile, if_pos hfile.symm]
        rfl
      · rw [if_neg hfile, if_neg (Ne.symm hfile)]
        rfl

theorem storeEach_fault_of_overwrite (hoverwrite : p.request.overwrite = true) :
    ∀ (as : List (String × Attachment)) (d : Directory),
      (storeEach formats p name versions d as).2.2 = none ↔ ∀ a ∈ as, fits formats p d name versions a = true
  | [], d => ⟨fun _ a ha => absurd ha List.not_mem_nil, fun _ => rfl⟩
  | a :: as, d => by
    rw [List.forall_mem_cons]
    cases ha : fits formats p d name versions a with
    | false =>
      obtain ⟨fault, hfault⟩ := storeOne_of_not_fits ha
      rw [storeEach_cons_of_not_fits hfault]
      simp
    | true =>
      obtain ⟨version, filename, bytes, item, hattached, htake, hone⟩ := storeOne_of_fits ha
      rw [(storeEach_cons_of_fits hone as).2, storeEach_fault_of_overwrite hoverwrite as,
        fits_write_of_overwrite hoverwrite hattached htake]
      exact ⟨fun h => ⟨rfl, h⟩, And.right⟩

/-- A file never goes away. -/
theorem isSome_bytes_storeEach : ∀ (as : List (String × Attachment)) (d : Directory) (file : String),
    (d.bytes file).isSome = true → ((storeEach formats p name versions d as).1.bytes file).isSome = true
  | [], d, file, h => h
  | a :: as, d, file, h => by
    cases ha : fits formats p d name versions a with
    | false =>
      obtain ⟨fault, hfault⟩ := storeOne_of_not_fits ha
      rw [storeEach_cons_of_not_fits hfault]
      exact h
    | true =>
      obtain ⟨version, filename, bytes, item, -, -, hone⟩ := storeOne_of_fits ha
      rw [(storeEach_cons_of_fits hone as).1]
      apply isSome_bytes_storeEach
      rw [Directory.bytes_write]
      split
      · rfl
      · exact h

/-- Without it, every file must be a new one. -/
theorem storeEach_fault_of_fresh (hoverwrite : p.request.overwrite = false) :
    ∀ (as : List (String × Attachment)) (d : Directory),
      (storeEach formats p name versions d as).2.2 = none ↔
        (∀ a ∈ as, fits formats p d name versions a = true) ∧
          ((as.filterMap (attached formats name versions)).map (·.2.1)).Nodup
  | [], d => ⟨fun _ => ⟨fun a ha => absurd ha List.not_mem_nil, List.nodup_nil⟩, fun _ => rfl⟩
  | a :: as, d => by
    rw [List.forall_mem_cons]
    cases ha : fits formats p d name versions a with
    | false =>
      obtain ⟨fault, hfault⟩ := storeOne_of_not_fits ha
      rw [storeEach_cons_of_not_fits hfault]
      simp
    | true =>
      obtain ⟨version, filename, bytes, item, hattached, htake, hone⟩ := storeOne_of_fits ha
      rw [(storeEach_cons_of_fits hone as).2, storeEach_fault_of_fresh hoverwrite as, List.filterMap_cons_some hattached,
        List.map_cons, List.nodup_cons]
      constructor
      · rintro ⟨hfit, hnodup⟩
        have hboth : ∀ b ∈ as, fits formats p d name versions b = true ∧
            (attached formats name versions b).map (·.2.1) ≠ some filename := fun b hb => by
          have hb := hfit b hb
          rw [fits_write hattached htake, hoverwrite, Bool.false_or, Bool.and_eq_true_iff, bne_iff_ne] at hb
          exact hb
        refine ⟨⟨rfl, fun b hb => (hboth b hb).1⟩, fun hmem => ?_, hnodup⟩
        obtain ⟨t, ht, hfile⟩ := List.mem_map.1 hmem
        obtain ⟨b, hb, heq⟩ := List.mem_filterMap.1 ht
        exact (hboth b hb).2 (by rw [heq, Option.map_some, hfile])
      · rintro ⟨⟨-, hfit⟩, hfresh, hnodup⟩
        refine ⟨fun b hb => ?_, hnodup⟩
        rw [fits_write hattached htake, hoverwrite, Bool.false_or, Bool.and_eq_true_iff, bne_iff_ne]
        refine ⟨hfit b hb, fun heq => hfresh ?_⟩
        obtain ⟨t, ht, hfile⟩ := Option.map_eq_some_iff.1 heq
        exact List.mem_map.2 ⟨t, List.mem_filterMap.2 ⟨b, hb, ht⟩, hfile⟩

/-- No attachment is refused. -/
theorem storeEach_fault (as : List (String × Attachment)) (d : Directory) :
    (storeEach formats p name versions d as).2.2 = none ↔
      (∀ a ∈ as, fits formats p d name versions a = true) ∧
        (p.request.overwrite = true ∨ ((as.filterMap (attached formats name versions)).map (·.2.1)).Nodup) := by
  cases hoverwrite : p.request.overwrite with
  | true => rw [storeEach_fault_of_overwrite hoverwrite]; simp
  | false => rw [storeEach_fault_of_fresh hoverwrite]; simp

/-- What is stored is what was there, as far as it is seen. -/
theorem bytes_storeEach (as : List (String × Attachment)) (d : Directory) :
    (∀ file, (storeEach formats p name versions d as).1.bytes file = d.bytes file) ↔
      ∀ file bytes, lastBytes formats name versions (as.takeWhile (fits formats p d name versions)) file = some bytes →
        d.bytes file = some bytes := by
  cases hoverwrite : p.request.overwrite with
  | true =>
    constructor
    · intro h file bytes hlast
      rw [← h file, bytes_storeEach_of_overwrite hoverwrite, hlast, Option.some_or]
    · intro h file
      rw [bytes_storeEach_of_overwrite hoverwrite]
      cases hlast : lastBytes formats name versions (as.takeWhile (fits formats p d name versions)) file with
      | none => rfl
      | some bytes => rw [h file bytes hlast, Option.some_or]
  | false =>
    cases as with
    | nil => exact ⟨fun _ _ _ h => (by cases h), fun _ _ => rfl⟩
    | cons a as =>
      cases ha : fits formats p d name versions a with
      | false =>
        obtain ⟨fault, hfault⟩ := storeOne_of_not_fits ha
        rw [storeEach_cons_of_not_fits hfault, List.takeWhile_cons_of_neg (by rw [ha]; exact Bool.false_ne_true)]
        exact ⟨fun _ _ _ h => (by cases h), fun _ _ => rfl⟩
      | true =>
        obtain ⟨version, filename, bytes, item, hattached, htake, hone⟩ := storeOne_of_fits ha
        -- a first file is a new one, and stays
        have hnew : d.bytes filename = none := by
          unfold mayTake at htake
          unfold Directory.bytes
          split at htake
          · rename_i hnone
            rw [hnone]
            rfl
          · rw [if_pos hoverwrite] at htake
            cases htake
        constructor
        · intro h
          have hkept : ((storeEach formats p name versions (d.write filename bytes (p.stamps.attachment a.1)) as).1.bytes
              filename).isSome = true :=
            isSome_bytes_storeEach as _ filename (by rw [Directory.bytes_write, if_pos rfl]; rfl)
          rw [← (storeEach_cons_of_fits hone as).1, h, hnew] at hkept
          cases hkept
        · intro h
          rw [List.takeWhile_cons_of_pos ha] at h
          obtain ⟨last, hlast⟩ : ∃ last, lastBytes formats name versions (a :: as.takeWhile (fits formats p d name versions))
              filename = some last := by
            rw [lastBytes_cons hattached, if_pos rfl]
            cases lastBytes formats name versions (as.takeWhile (fits formats p d name versions)) filename with
            | none => exact ⟨bytes, rfl⟩
            | some last => exact ⟨last, rfl⟩
          have hold := h filename last hlast
          rw [hnew] at hold
          cases hold

end run

/-! ## The publish -/

theorem mergeIndex_isOk (pairs : List Json → Except String (List (String × Json))) (p : Publication) (data : Json)
    (name : String) (tags : List (String × String)) (versions : List String) :
    (mergeIndex pairs p data name tags versions).isOk = mergeable pairs data name := by
  unfold mergeIndex mergeable
  simp only [Bind.bind, Except.bind]
  split
  · rename_i why hitems
    rw [hitems]
    rfl
  · rename_i recorded hitems
    rw [hitems]
    split
    · rename_i why htimes
      rw [htimes]
      rfl
    · rename_i times htimes
      rw [htimes]
      rfl

theorem recordMetadata_isOk (pairs : List Json → Except String (List (String × Json))) (p : Publication) (index : IndexFile)
    (name : String) (tags : List (String × String)) (versions : List String) :
    (recordMetadata pairs p index name tags versions).isOk = recordable pairs p index name := by
  have hread (data : Json) (h : readIndex index = .ok data) : (recordMetadata pairs p index name tags versions).isOk =
      match p.indexWritten with
      | .raises _ => false
      | _ => mergeable pairs data name := by
    rw [← mergeIndex_isOk pairs p data name tags versions, recordMetadata, h]
    simp only [Bind.bind, Except.bind]
    cases mergeIndex pairs p data name tags versions <;> cases p.indexWritten <;> rfl
  unfold recordable
  cases index with
  | unread =>
    rw [hread (.obj []) rfl, show mergeable pairs (.obj []) name = true from rfl]
    cases p.indexWritten <;> rfl
  | raises why => rfl
  | document data =>
    rw [hread data rfl]
    cases p.indexWritten <;> rfl

/-- Only a refused attachment, or a record that cannot be written, leaves more than a whole publish or none. -/
theorem untouched_of_validate {formats : Formats} {pairs : List Json → Except String (List (String × Json))} {p : Publication}
    {home : Home} {name : String} {document : Document} (hvalid : validate p.request = .ok (name, document)) :
    Untouched formats pairs p home ↔
      (storeEach formats p name document.versions home.directory document.attachments).2.2 = none ∧
          recordable pairs p home.index name = true ∨
        ∀ file, (storeEach formats p name document.versions home.directory document.attachments).1.bytes file =
          home.directory.bytes file := by
  unfold Untouched publishDocument
  rw [hvalid]
  simp only
  cases hstore : storeEach formats p name document.versions home.directory document.attachments with
  | mk d' rest =>
    obtain ⟨published, refusal⟩ := rest
    cases refusal with
    | some fault =>
      constructor
      · intro h
        exact .inr (h fault _ rfl).bytes
      · rintro (⟨hnone, -⟩ | hbytes) fault' home' heq
        · cases hnone
        · obtain ⟨-, rfl⟩ := Prod.mk.inj heq
          exact ⟨hbytes, rfl⟩
    | none =>
      simp only
      have hok := recordMetadata_isOk pairs p home.index name document.distTags (published.map (·.version))
      cases hmerge : recordMetadata pairs p home.index name document.distTags (published.map (·.version)) with
      | ok index =>
        rw [hmerge] at hok
        refine ⟨fun _ => .inl ⟨trivial, hok.symm⟩, ?_⟩
        intro _ fault home' heq
        cases (Prod.mk.inj heq).1
      | error why =>
        rw [hmerge] at hok
        constructor
        · intro h
          exact .inr (h _ _ rfl).bytes
        · rintro (⟨-, hrecordable⟩ | hbytes) fault home' heq
          · rw [hrecordable] at hok
            cases hok
          · obtain ⟨-, rfl⟩ := Prod.mk.inj heq
            exact ⟨hbytes, rfl⟩

/-- A refused publish leaves all as it was just where it stored nothing that was not there. -/
theorem untouched_iff_harmless (formats : Formats) (pairs : List Json → Except String (List (String × Json))) (p : Publication)
    (home : Home) : Untouched formats pairs p home ↔ Harmless formats pairs p home := by
  cases hvalid : validate p.request with
  | error fault =>
    constructor
    · intro _ name document h
      rw [hvalid] at h
      cases h
    · intro _ fault' home' h
      unfold publishDocument at h
      rw [hvalid] at h
      obtain ⟨-, rfl⟩ := Prod.mk.inj h
      exact ⟨fun _ => rfl, rfl⟩
  | ok found =>
    obtain ⟨name, document⟩ := found
    rw [untouched_of_validate hvalid, storeEach_fault, bytes_storeEach, and_assoc]
    unfold Harmless
    rw [hvalid]
    constructor
    · intro h name' document' heq
      obtain ⟨rfl, rfl⟩ := Prod.mk.inj (Except.ok.inj heq)
      exact h
    · intro h
      exact h name document rfl

/-- Two versions of a package, of which the second has an attachment without data. -/
def twoAttachments : Publication where
  request :=
    { body := some
        { rawName := some "a"
          versions := [("1.0.0", .object none none none), ("2.0.0", .object none none none)]
          attachments := [("a-1.0.0.tgz", .object (some tarballText)), ("a-2.0.0.tgz", .object none)]
          distTags := [] }
      requested := ""
      overwrite := false }
  description := ""
  publisher := ""
  now := .int 0
  stamps := ⟨fun _ => ⟨1, ⟨1, 4096⟩⟩, ⟨1, ⟨1, 4096⟩⟩, 100⟩
  unwritable _ := none
  indexWritten := .done

/-- The first tarball stays. -/
theorem twoAttachments_not_untouched :
    ¬ Untouched tarballFormats (fun _ => .ok []) twoAttachments ⟨Directory.empty, .unread⟩ := by
  intro h
  have hrun : publishDocument tarballFormats (fun _ => .ok []) twoAttachments ⟨Directory.empty, .unread⟩ =
      (.error (.badRequest "attachment for a@2.0.0 has no base64 'data'"),
        ⟨Directory.empty.write "a-1.0.0.tgz" tarball (twoAttachments.stamps.attachment "a-1.0.0.tgz"), .unread⟩) := by
    rfl
  have hbytes := (h _ _ hrun).bytes "a-1.0.0.tgz"
  rw [Directory.bytes_write, if_pos rfl] at hbytes
  cases hbytes

end OpenFish.Npm
