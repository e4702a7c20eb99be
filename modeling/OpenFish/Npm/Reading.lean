/-
What a publish stores, and when the registry reads it back as what was published: by the manifest inside the tarball, or
by the file name where the manifest leaves the name or the version out.
-/
import OpenFish.Lib.Effect
import OpenFish.Npm.Registry

namespace OpenFish.Npm

open Lib

variable {formats : Formats}

/-! ## File names -/

theorem fileName_toList (name version : String) :
    (fileName name version).toList = (shortName name).toList ++ '-' :: (version.toList ++ ".tgz".toList) := by
  simp [fileName, String.toList_append]

theorem fileName_inj {name version version' : String} (h : fileName name version = fileName name version') :
    version = version' := by
  have hlist := congrArg String.toList h
  rw [fileName_toList, fileName_toList] at hlist
  have htail := List.append_cancel_left hlist
  exact String.toList_inj.1 (List.append_cancel_right (List.cons.inj htail).2)

theorem fileName_ext (name version : String) : Text.endsWith ".tgz" (fileName name version) = true := by
  rw [Text.endsWith, List.isSuffixOf_iff_suffix, fileName_toList]
  exact ⟨(shortName name).toList ++ '-' :: version.toList, by simp⟩

theorem shortName_of_not_mem {name : String} (h : '/' ∉ name.toList) : shortName name = name := by
  have hkept : ∀ c ∈ name.toList, decide (c ≠ '/') = true := fun c hc => decide_eq_true fun heq => h (heq ▸ hc)
  rw [shortName, Text.afterLast, List.rtakeWhile_eq_self_iff.2 hkept, String.ofList_toList]

/-- The file name gives back the name without its scope, and a version that has no dash. -/
theorem parseFilename_fileName {name version : String} (hshort : shortName name ≠ "") (hdash : '-' ∉ version.toList) :
    parseFilename (fileName name version) = (shortName name, version) := by
  have hstem : String.ofList ((fileName name version).toList.rdrop 4) = shortName name ++ String.singleton '-' ++ version := by
    rw [fileName_toList, ← String.toList_inj, String.toList_ofList, ← List.cons_append, ← List.append_assoc,
      show 4 = ".tgz".toList.length from rfl, List.rdrop_append_length]
    simp [String.toList_append]
  rw [parseFilename, hstem, Text.rpartition_append hdash, if_neg hshort]

/-! ## Reading back -/

/-- The registry reads a manifest as what it is published as: by its own words, or where it has none, by the file name,
which has no scope and is cut at its last dash. -/
structure ReadsBack (manifest : Manifest) (name version : String) : Prop where
  name : Text.strip manifest.name.shown = name ∨
    Text.strip manifest.name.shown = "" ∧ '/' ∉ name.toList ∧ '-' ∉ version.toList
  version : Text.strip manifest.version.shown = version ∨
    Text.strip manifest.version.shown = "" ∧ '-' ∉ version.toList

theorem readTarballManifest_of_read {data : Bytes} {version : String} {manifest : Manifest}
    (h : readManifest formats data version = .ok manifest) : readTarballManifest formats data = .ok (some manifest) := by
  unfold readManifest at h
  unfold readTarballManifest
  simp only at h ⊢
  generalize (if (pickMember (formats.archive data).members none).2 = true then none
    else (formats.archive data).broken) = broken at h ⊢
  generalize (pickMember (formats.archive data).members none).1 = picked at h ⊢
  cases broken with
  | some damage => cases h
  | none =>
    cases picked with
    | none => cases h
    | some member =>
      simp only at h ⊢
      by_cases hlarge : maxManifestBytes < member.size
      · rw [if_pos hlarge] at h
        cases h
      · rw [if_neg hlarge] at h
        cases hcontent : member.content with
        | error damage => rw [hcontent] at h; cases h
        | ok content =>
          rw [hcontent] at h
          simp only at h ⊢
          cases hparse : formats.parse content with
          | invalid why => rw [hparse] at h; cases h
          | tooDeep why => rw [hparse] at h; cases h
          | notObject => rw [hparse] at h; cases h
          | object found =>
            rw [hparse] at h
            cases h
            rfl

theorem ReadsBack.identity {data : Bytes} {name version : String} {manifest : Manifest}
    (h : ReadsBack manifest name version) (hread : readManifest formats data version = .ok manifest)
    (hname : name ≠ "") (hshort : shortName name ≠ "") (hversion : version ≠ "") :
    identity formats (fileName name version) data = .ok (some (name, version)) := by
  have hn : (if Text.strip manifest.name.shown = "" then (parseFilename (fileName name version)).1
      else Text.strip manifest.name.shown) = name := by
    rcases h.name with heq | ⟨hempty, hslash, hdash⟩
    · rw [heq, if_neg hname]
    · rw [if_pos hempty, parseFilename_fileName hshort hdash, shortName_of_not_mem hslash]
  have hv : (if Text.strip manifest.version.shown = "" then (parseFilename (fileName name version)).2
      else Text.strip manifest.version.shown) = version := by
    rcases h.version with heq | ⟨hempty, hdash⟩
    · rw [heq, if_neg hversion]
    · rw [if_pos hempty, parseFilename_fileName hshort hdash]
  unfold Npm.identity nameAndVersion
  simp only [readTarballManifest_of_read hread, Except.map, Option.map_some, Option.getD_some, hn, hv]
  rw [if_neg (not_or.2 ⟨hname, hversion⟩)]

/-! ## What is stored -/

/-- The version that an attachment is stored as, and its bytes. -/
def attachmentBytes (formats : Formats) (name : String) (versions : List (String × VersionEntry)) :
    String × Attachment → Option (String × Bytes)
  | (key, .object (some data)) =>
    match versionForAttachment formats key name versions, formats.decode64 data with
    | .ok (some version), .ok bytes => some (version, bytes)
    | _, _ => none
  | _ => none

/-- What a turn of the loop does when it refuses nothing. -/
structure Turn (formats : Formats) (d : Directory) (name : String) (versions : List (String × VersionEntry)) (stamps : Stamps)
    (key : String) (attachment : Attachment) (d' : Directory) (item : PublishedVersion) (bytes : Bytes) (manifest : Manifest) :
    Prop where
  carried : attachmentBytes formats name versions (key, attachment) = some (item.version, bytes)
  read : readManifest formats bytes item.version = .ok manifest
  stored : d' = d.write (fileName name item.version) bytes (stamps.attachment key)
  declared : item.version ∈ versions.map Prod.fst
  short : shortName name ≠ ""
  /-- What is replaced has no name of its own, or this one. -/
  own : ∀ stored, d.files.get? (fileName name item.version) = some stored →
    ∀ existing, existingPackageName formats stored item.version = .ok (some existing) → existing = name

theorem storedFilename_ok {name version filename : String} (h : storedFilename name version = .ok filename) :
    filename = fileName name version ∧ shortName name ≠ "" := by
  unfold storedFilename at h
  simp only at h
  split at h
  · cases h
  · rename_i hshort
    split at h
    · cases h
    · cases h
      exact ⟨rfl, fun hempty => hshort (.inl hempty)⟩

theorem mem_of_lookup {α β : Type} [DecidableEq α] {l : List (α × β)} {a : α} {b : β} (h : l.lookup a = some b) :
    (a, b) ∈ l := by
  obtain ⟨l₁, l₂, rfl, -⟩ := List.lookup_eq_some_iff.1 h
  exact List.mem_append_right _ (List.mem_cons_self ..)

theorem map_ok {ε α β : Type} {x : Except ε α} {f : α → β} {b : β} (h : x.map f = .ok b) : ∃ a, x = .ok a ∧ f a = b := by
  cases x with
  | error why => cases h
  | ok a => exact ⟨a, rfl, Except.ok.inj h⟩

theorem decodeAttachment_ok {name version : String} {data : Option String} {bytes : Bytes}
    (h : decodeAttachment formats name version data = .ok bytes) :
    ∃ encoded, data = some encoded ∧ formats.decode64 encoded = .ok bytes := by
  unfold decodeAttachment at h
  split at h
  · cases h
  · rename_i encoded
    split at h
    · cases h
    · rename_i decoded hdecode
      split at h
      · cases h
      · split at h
        · cases h
        · cases h
          exact ⟨encoded, rfl, hdecode⟩

theorem mayTake_ok {d : Directory} {name version filename : String} {overwrite : Bool}
    (h : mayTake formats d name version filename overwrite = .ok ()) (stored : Stored)
    (hstored : d.files.get? filename = some stored) (existing : String)
    (hexisting : existingPackageName formats stored version = .ok (some existing)) : existing = name := by
  unfold mayTake at h
  simp only [hstored, hexisting] at h
  split at h
  · cases h
  · split at h
    · assumption
    · cases h

theorem storeAttachment_ok {d d' : Directory} {name : String} {versions : List (String × VersionEntry)} {overwrite : Bool}
    {stamps : Stamps} {key : String} {attachment : Attachment} {item : PublishedVersion}
    (h : storeAttachment formats d name versions overwrite stamps key attachment = .ok (d', item)) :
    ∃ bytes manifest, Turn formats d name versions stamps key attachment d' item bytes manifest := by
  unfold storeAttachment at h
  cases attachment with
  | notObject => cases h
  | object data =>
    simp only at h
    split at h
    · cases h
    · cases h
    rename_i version hmatch
    split at h
    · rename_i tarball shasum integrity hentry
      obtain ⟨⟨filename, bytes⟩, hcheck, heq⟩ := map_ok h
      obtain ⟨decoded, hdecode, hcheck⟩ := ok_of_bind hcheck
      obtain ⟨manifest, hread, hcheck⟩ := ok_of_bind hcheck
      obtain ⟨_, _, hcheck⟩ := ok_of_bind hcheck
      obtain ⟨_, _, hcheck⟩ := ok_of_bind hcheck
      obtain ⟨_, _, hcheck⟩ := ok_of_bind hcheck
      obtain ⟨_, _, hcheck⟩ := ok_of_bind hcheck
      obtain ⟨stem, hstem, hcheck⟩ := ok_of_bind hcheck
      obtain ⟨_, htake, hlast⟩ := ok_of_bind hcheck
      obtain ⟨rfl, hshort⟩ := storedFilename_ok hstem
      obtain ⟨encoded, rfl, hencoded⟩ := decodeAttachment_ok hdecode
      have hpair : (fileName name version, decoded) = (filename, bytes) := Except.ok.inj hlast
      obtain ⟨rfl, rfl⟩ := Prod.mk.inj hpair
      obtain ⟨hdirectory, hitem⟩ := Prod.mk.inj heq
      subst hitem
      refine ⟨decoded, manifest, ?_, hread, hdirectory.symm, List.mem_map.2 ⟨_, mem_of_lookup hentry, rfl⟩, hshort,
        mayTake_ok htake⟩
      rw [attachmentBytes, hmatch, hencoded]
    · cases h

/-! ## A tarball that says nothing of itself -/

/-- A gzipped archive with a `package/package.json` that is an empty object. -/
def tarball : Bytes :=
  [31, 139, 8, 0, 0, 0, 0, 0, 2, 3, 43, 72, 76, 206, 78, 76, 79, 213, 47, 128, 208, 122, 89, 197, 249, 121, 12, 84, 6, 6, 64,
    96, 102, 98, 2, 166, 129, 0, 157, 6, 2, 35, 36, 54, 80, 220, 208, 208, 204, 208, 140, 65, 193, 128, 129, 14, 160, 180,
    184, 36, 177, 8, 104, 61, 195, 200, 4, 213, 181, 12, 163, 96, 4, 3, 0, 240, 1, 211, 153, 0, 4, 0, 0]

/-- Its base64. -/
def tarballText : String :=
  "H4sIAAAAAAACAytITM5OTE/VL4DQelnF+XkMVAYGQGBmYgKmgQCdBgIjJDZQ3NDQzNCMQcGAgQ6gtLgksQhoPcPIBNW1DKNgBAMA8AHTmQAEAAA="

/-- What the formats make of it. -/
def tarballFormats : Formats where
  urlBasename _ := .ok ""
  decode64 _ := .ok tarball
  archive _ := ⟨[⟨"package/package.json", true, 2, .ok [123, 125]⟩], none⟩
  parse _ := .object ⟨⟨false, ""⟩, ⟨false, ""⟩⟩
  sha1 _ := "0aa37f2640b43d738e6df0dae226534b5561c54c"
  sha512 _ :=
    "sha512-LgG8fzuCVep0C8XXwA/5XO7w1qOp0+xoLOO4YiAoqAZyk2tjnB+7U1obBsYqnw1TrCspWW2aoYHdmAnMNE4dMQ=="
  isDigit := Char.isDigit
  decimal c := if c.isDigit then some (c.toNat - 48) else none

/-- The publish of a package whose tarball says nothing of itself, which its file name does. -/
def coreDocument : Document where
  rawName := some "core"
  versions := [("1.0.0", .object none none none)]
  attachments := [("core-1.0.0.tgz", .object (some tarballText))]
  distTags := [("latest", "1.0.0")]

def corePublish : Request := ⟨some coreDocument, "", false⟩

end OpenFish.Npm
