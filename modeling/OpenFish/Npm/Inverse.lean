/-
Publishes over an empty npm directory, and lookups between them: what was published last is what is found, in every run whose
publishes store only tarballs that read back as what they are published as, and are stamped later than those before.
-/
import OpenFish.Npm.Refusal
import OpenFish.Npm.Runs

namespace OpenFish.Npm

open Lib

/-! ## What was published -/

/-- The bytes that attachments carry of a version: those of its last one. -/
def lastAttached (formats : Formats) (name : String) (versions : List (String × VersionEntry)) (as : List (String × Attachment))
    (version : String) : Option Bytes :=
  ((as.reverse.filterMap (attachmentBytes formats name versions)).find? fun c => c.1 = version).map Prod.snd

/-- Those that a publish carries. -/
def lastCarried (formats : Formats) (request : Request) (name version : String) : Option Bytes :=
  match validate request with
  | .error _ => none
  | .ok (name', document) =>
    if name' = name then lastAttached formats name document.versions document.attachments version else none

/-- What an entry of the log says of a version. -/
def publishedBy (formats : Formats) (name version : String) : Event × Answer → Option Bytes
  | (.publish request _, .published (.ok _)) => lastCarried formats request name version
  | _ => none

/-- The bytes that the last accepted publish of a version carried. -/
def lastPublished (formats : Formats) (log : List (Event × Answer)) (name version : String) : Option Bytes :=
  log.findSome? (publishedBy formats name version)

/-- Each version is found with the bytes that its last accepted publish carried. -/
def Inverse (formats : Formats) (log : List (Event × Answer)) (s : State) : Prop :=
  ∀ name version bytes, lastPublished formats log name version = some bytes →
    Found formats s.directory s.registry name version bytes

/-! ## Publishes in order -/

/-- The publish of a request, to a file system that takes every write. -/
def Request.publication (request : Request) (stamps : Stamps) : Publication :=
  ⟨request, "", "", .null, stamps, fun _ => none, .done⟩

section tidy

variable (formats : Formats) (d : Directory) (request : Request) (stamps : Stamps) (name : String) (document : Document)

/-- The attachments in front of the first one that is refused by itself. -/
def unrefused : List (String × Attachment) :=
  document.attachments.takeWhile (fits formats (request.publication stamps) d name document.versions)

/-- Nothing is refused. -/
def admitted : Bool :=
  document.attachments.all (fits formats (request.publication stamps) d name document.versions) &&
    (request.overwrite || decide ((document.attachments.filterMap (attached formats name document.versions)).map (·.2.1)).Nodup)

/-- The version is there, or comes with this publish. -/
def Present (version : String) : Prop :=
  Listed formats d name version ∨
    ∃ a ∈ unrefused formats d request stamps name document, (attached formats name document.versions a).map (·.1) = some version

/-- What a tag of the package stands for once the publish is through. -/
def tagAfter (tag : String) : Option String :=
  if admitted formats d request stamps name document then
    (document.distTags.foldl (fun record tag => record.set tag.1 tag.2) ((d.tags.get? name).getD .empty)).get? tag
  else d.tagOf name tag

/-- The attachments may be stored, and the tags recorded. -/
structure Tidy : Prop where
  /-- The registry shows the file, has a key for the version, and reads the tarball as what it is published as. -/
  reads : ∀ a ∈ unrefused formats d request stamps name document, ∀ version filename bytes,
    attached formats name document.versions a = some (version, filename, bytes) →
      visible filename = true ∧ (versionKey formats version).isSome = true ∧
        ∃ manifest, readManifest formats bytes version = .ok manifest ∧ ReadsBack manifest name version
  /-- The file is a new one, or holds this version. -/
  own : ∀ a ∈ unrefused formats d request stamps name document, ∀ version filename bytes,
    attached formats name document.versions a = some (version, filename, bytes) →
      ∀ stored, d.files.get? filename = some stored → identity formats filename stored.bytes = .ok (some (name, version))
  /-- A publish that is refused after all has overwritten nothing with other bytes. -/
  kept : admitted formats d request stamps name document = false → request.overwrite = true → ∀ filename bytes,
    lastBytes formats name document.versions (unrefused formats d request stamps name document) filename = some bytes →
      ∀ old, d.bytes filename = some old → old = bytes
  /-- No tag that is a version of the package stands for another one. -/
  tags : ∀ tag target, tagAfter formats d request stamps name document tag = some target →
    Present formats d request stamps name document tag → Present formats d request stamps name document target → target = tag
  latest : Present formats d request stamps name document latestTag →
    tagAfter formats d request stamps name document latestTag = some latestTag

end tidy

/-- A step of a run: a publish is in order where it takes place. -/
def Orderly (formats : Formats) (s : State) : Event → Prop
  | .publish request stamps =>
    ∀ name document, validate request = .ok (name, document) → Tidy formats s.directory request stamps name document
  | _ => True

/-! ## What a publish stores -/

section stored

variable {formats : Formats} {d : Directory} {request : Request} {stamps : Stamps} {name : String} {document : Document}
  {versions : List (String × VersionEntry)}

theorem storeOne_eq (d : Directory) (name : String) (versions : List (String × VersionEntry)) (a : String × Attachment) :
    storeOne formats (request.publication stamps) d name versions a =
      storeAttachment formats d name versions request.overwrite stamps a.1 a.2 := by
  unfold storeOne
  dsimp only [Request.publication]
  cases storeAttachment formats d name versions request.overwrite stamps a.1 a.2 <;> rfl

theorem storeAll_eq (name : String) (versions : List (String × VersionEntry)) : ∀ (as : List (String × Attachment))
    (d : Directory), storeAll formats name versions request.overwrite stamps d as =
      storeEach formats (request.publication stamps) name versions d as
  | [], d => rfl
  | (key, attachment) :: as, d => by
    rw [storeAll, storeEach, storeOne_eq]
    cases storeAttachment formats d name versions request.overwrite stamps key attachment with
    | error fault => rfl
    | ok done => simp only [storeAll_eq name versions as done.1]

theorem stored_of_bytes {filename : String} {bytes : Bytes} (h : d.bytes filename = some bytes) :
    ∃ stored, d.files.get? filename = some stored ∧ stored.bytes = bytes := by
  unfold Directory.bytes at h
  exact Option.map_eq_some_iff.1 h

theorem mem_takeWhile_mono {α : Type} {p q : α → Bool} (h : ∀ a, p a = true → q a = true) {a : α} :
    ∀ {l : List α}, a ∈ l.takeWhile p → a ∈ l.takeWhile q
  | [], ha => ha
  | b :: l, ha => by
    cases hb : p b with
    | false =>
      rw [List.takeWhile_cons_of_neg (by rw [hb]; exact Bool.false_ne_true)] at ha
      cases ha
    | true =>
      rw [List.takeWhile_cons_of_pos hb] at ha
      rw [List.takeWhile_cons_of_pos (h b hb)]
      rcases List.mem_cons.1 ha with rfl | ha
      · exact List.mem_cons_self ..
      · exact List.mem_cons_of_mem _ (mem_takeWhile_mono h ha)

/-- A file was there, or is one of the attachments in front of the first that does not fit. -/
theorem origin_storeEach {p : Publication} {filename : String} {stored : Stored} : ∀ (as : List (String × Attachment))
    (d : Directory), (storeEach formats p name versions d as).1.files.get? filename = some stored →
      d.files.get? filename = some stored ∨ ∃ a ∈ as.takeWhile (fits formats p d name versions), ∃ version,
        attached formats name versions a = some (version, filename, stored.bytes)
  | [], d, h => .inl h
  | a :: as, d, h => by
    cases ha : fits formats p d name versions a with
    | false =>
      obtain ⟨fault, hfault⟩ := storeOne_of_not_fits ha
      rw [storeEach_cons_of_not_fits hfault] at h
      exact .inl h
    | true =>
      obtain ⟨version, file, bytes, item, hattached, htake, hone⟩ := storeOne_of_fits ha
      rw [(storeEach_cons_of_fits hone as).1] at h
      rw [List.takeWhile_cons_of_pos ha]
      rcases origin_storeEach as _ h with hold | ⟨b, hb, version', hb'⟩
      · rw [Directory.get?_write] at hold
        split at hold
        · rename_i heq
          cases hold
          exact .inr ⟨a, List.mem_cons_self .., version, heq ▸ hattached⟩
        · exact .inl hold
      · refine .inr ⟨b, List.mem_cons_of_mem _ (mem_takeWhile_mono (fun c hc => ?_) hb), version', hb'⟩
        rw [fits_write hattached htake] at hc
        exact (Bool.and_eq_true_iff.1 hc).1

/-- Where nothing is refused, the last attachment of a file is what it holds. -/
theorem bytes_storeEach_of_none {p : Publication} (filename : String) : ∀ (as : List (String × Attachment)) (d : Directory),
    (storeEach formats p name versions d as).2.2 = none →
      (storeEach formats p name versions d as).1.bytes filename =
        (lastBytes formats name versions as filename).or (d.bytes filename)
  | [], d, _ => rfl
  | a :: as, d, h => by
    cases ha : fits formats p d name versions a with
    | false =>
      obtain ⟨fault, hfault⟩ := storeOne_of_not_fits ha
      rw [storeEach_cons_of_not_fits hfault] at h
      cases h
    | true =>
      obtain ⟨version, file, bytes, item, hattached, htake, hone⟩ := storeOne_of_fits ha
      rw [(storeEach_cons_of_fits hone as).2] at h
      rw [(storeEach_cons_of_fits hone as).1, bytes_storeEach_of_none filename as _ h, lastBytes_cons hattached,
        Directory.bytes_write, Option.or_assoc]
      congr 1
      by_cases hfile : filename = file
      · rw [if_pos hfile, if_pos hfile.symm]
        rfl
      · rw [if_neg hfile, if_neg (Ne.symm hfile)]
        rfl

/-- Without overwriting, a file stays as it is. -/
theorem bytes_storeEach_of_fresh {p : Publication} (hoverwrite : p.request.overwrite = false) {filename : String}
    {bytes : Bytes} : ∀ (as : List (String × Attachment)) (d : Directory), d.bytes filename = some bytes →
      (storeEach formats p name versions d as).1.bytes filename = some bytes
  | [], d, h => h
  | a :: as, d, h => by
    cases ha : fits formats p d name versions a with
    | false =>
      obtain ⟨fault, hfault⟩ := storeOne_of_not_fits ha
      rw [storeEach_cons_of_not_fits hfault]
      exact h
    | true =>
      obtain ⟨version, file, data, item, hattached, htake, hone⟩ := storeOne_of_fits ha
      rw [(storeEach_cons_of_fits hone as).1]
      refine bytes_storeEach_of_fresh hoverwrite as _ ?_
      rw [Directory.bytes_write, if_neg, h]
      rintro rfl
      obtain ⟨stored, hstored, -⟩ := stored_of_bytes h
      unfold mayTake at htake
      rw [hstored, hoverwrite] at htake
      cases htake

/-- What passes by itself is stored under the name of its version, with the bytes it carries. -/
theorem attached_ok {a : String × Attachment} {version filename : String} {bytes : Bytes}
    (h : attached formats name versions a = some (version, filename, bytes)) :
    filename = fileName name version ∧ shortName name ≠ "" ∧ version ∈ versions.map Prod.fst ∧
      attachmentBytes formats name versions a = some (version, bytes) := by
  have hstored := storeAttachment_of_attached (d := Directory.empty) h false (stampsAt 1)
  rw [mayTake_empty] at hstored
  obtain ⟨found, manifest, hturn⟩ := storeAttachment_ok hstored
  have hfiles : [(filename, (⟨bytes, 1⟩ : Stored))] = [(fileName name version, ⟨found, 1⟩)] :=
    congrArg (fun d => d.files.entries) hturn.stored
  cases hfiles
  exact ⟨rfl, hturn.short, hturn.declared, hturn.carried⟩

theorem lastAttached_eq : ∀ {as : List (String × Attachment)},
    (∀ a ∈ as, (attached formats name versions a).isSome = true) → ∀ version,
      lastAttached formats name versions as version = lastBytes formats name versions as (fileName name version)
  | [], _, version => rfl
  | a :: as, h, version => by
    obtain ⟨⟨other, filename, bytes⟩, ha⟩ := Option.isSome_iff_exists.1 (h a (List.mem_cons_self ..))
    have hrest := lastAttached_eq (fun b hb => h b (List.mem_cons_of_mem _ hb)) version
    obtain ⟨rfl, -, -, hbytes⟩ := attached_ok ha
    rw [lastBytes_cons ha, ← hrest, lastAttached, lastAttached, List.reverse_cons, List.filterMap_append,
      List.filterMap_cons_some hbytes, List.find?_append, Option.map_or]
    refine congrArg (Option.or _) ?_
    by_cases hversion : other = version
    · simp [hversion]
    · have hfile : fileName name other ≠ fileName name version := fun heq => hversion (fileName_inj heq)
      simp [hversion, hfile]

theorem mem_of_lastBytes {as : List (String × Attachment)} {filename : String} {bytes : Bytes}
    (h : lastBytes formats name versions as filename = some bytes) :
    ∃ a ∈ as, ∃ version, attached formats name versions a = some (version, filename, bytes) := by
  obtain ⟨⟨version, file, data⟩, ht, heq⟩ := List.exists_of_findSome?_eq_some h
  obtain ⟨a, ha, hattached⟩ := List.mem_filterMap.1 ht
  split at heq
  · rename_i hfile
    cases heq
    exact ⟨a, List.mem_reverse.1 ha, version, hfile ▸ hattached⟩
  · cases heq

/-! ## What a publish leaves -/

theorem validate_ok (h : validate request = .ok (name, document)) :
    name ≠ "" ∧ ∀ version ∈ document.versions.map Prod.fst, version ≠ "" := by
  unfold validate at h
  split at h
  · cases h
  split at h
  · cases h
  simp only at h
  split at h
  · cases h
  rename_i hname
  iterate 3
    split at h
    · cases h
  split at h
  · cases h
  rename_i hversions
  iterate 2
    split at h
    · cases h
  cases h
  refine ⟨hname, fun version hmem hempty => hversions (List.any_eq_true.2 ?_)⟩
  obtain ⟨entry, hentry, rfl⟩ := List.mem_map.1 hmem
  exact ⟨entry, hentry, by rw [hempty]; rfl⟩

theorem admitted_iff : admitted formats d request stamps name document = true ↔
    (storeEach formats (request.publication stamps) name document.versions d document.attachments).2.2 = none := by
  rw [storeEach_fault, admitted, Bool.and_eq_true_iff, List.all_eq_true, Bool.or_eq_true_iff, decide_eq_true_iff]
  rfl

theorem unrefused_of_admitted (h : admitted formats d request stamps name document = true) :
    unrefused formats d request stamps name document = document.attachments :=
  List.takeWhile_eq_self_iff.2 (List.all_eq_true.1 (Bool.and_eq_true_iff.1 h).1)

theorem publish_of_refused (hvalid : validate request = .ok (name, document))
    (h : admitted formats d request stamps name document = false) : ∃ fault, publish formats d stamps request =
      (.error fault, (storeEach formats (request.publication stamps) name document.versions d document.attachments).1) := by
  cases hfault : (storeEach formats (request.publication stamps) name document.versions d document.attachments).2.2 with
  | none =>
    rw [admitted_iff.2 hfault] at h
    cases h
  | some fault =>
    refine ⟨fault, ?_⟩
    rw [publish, hvalid]
    simp only [storeAll_eq]
    rw [show storeEach formats (request.publication stamps) name document.versions d document.attachments =
      (_, _, some fault) from Prod.ext rfl (Prod.ext rfl hfault)]

theorem publish_of_admitted (hvalid : validate request = .ok (name, document))
    (h : admitted formats d request stamps name document = true) : ∃ items, publish formats d stamps request =
      (.ok items, (storeEach formats (request.publication stamps) name document.versions d document.attachments).1.recordTags name
        document.distTags stamps) := by
  refine ⟨(storeEach formats (request.publication stamps) name document.versions d document.attachments).2.1, ?_⟩
  rw [publish, hvalid]
  simp only [storeAll_eq]
  rw [show storeEach formats (request.publication stamps) name document.versions d document.attachments =
    (_, _, none) from Prod.ext rfl (Prod.ext rfl (admitted_iff.1 h))]

end stored

section publish

variable {formats : Formats} {d : Directory} {request : Request} {stamps : Stamps} {name : String} {document : Document}
  {n v filename : String} {bytes : Bytes}

theorem files_publish (hvalid : validate request = .ok (name, document)) : (publish formats d stamps request).2.files =
    (storeEach formats (request.publication stamps) name document.versions d document.attachments).1.files := by
  cases hadmitted : admitted formats d request stamps name document with
  | false =>
    obtain ⟨fault, heq⟩ := publish_of_refused hvalid hadmitted
    rw [heq]
  | true =>
    obtain ⟨items, heq⟩ := publish_of_admitted hvalid hadmitted
    rw [heq]
    rfl

theorem bytes_publish (hvalid : validate request = .ok (name, document)) (filename : String) :
    (publish formats d stamps request).2.bytes filename =
      (storeEach formats (request.publication stamps) name document.versions d document.attachments).1.bytes filename := by
  rw [Directory.bytes, files_publish hvalid]
  rfl

theorem tagOf_publish (hvalid : validate request = .ok (name, document)) (other tag : String) :
    (publish formats d stamps request).2.tagOf other tag =
      if other = name then tagAfter formats d request stamps name document tag else d.tagOf other tag := by
  have hsame : (storeEach formats (request.publication stamps) name document.versions d document.attachments).1.tags = d.tags := by
    rw [← storeAll_eq]
    exact storeAll_keeps formats (P := fun d' => d'.tags = d.tags) (fun _ _ _ _ h => h) _ _ _ _ d rfl
  unfold tagAfter
  cases hadmitted : admitted formats d request stamps name document with
  | false =>
    obtain ⟨fault, heq⟩ := publish_of_refused hvalid hadmitted
    rw [heq, Directory.tagOf, hsame]
    split
    · rename_i hname
      rw [hname]
      rfl
    · rfl
  | true =>
    obtain ⟨items, heq⟩ := publish_of_admitted hvalid hadmitted
    rw [heq, Directory.tagOf, Directory.recordTags]
    simp only [hsame, Dict.get?_set]
    split
    · rw [Option.bind_some, if_pos trivial]
    · rfl

theorem origin_publish {stored : Stored} (hvalid : validate request = .ok (name, document))
    (h : (publish formats d stamps request).2.files.get? filename = some stored) : d.files.get? filename = some stored ∨
      ∃ a ∈ unrefused formats d request stamps name document, ∃ version,
        attached formats name document.versions a = some (version, filename, stored.bytes) := by
  rw [files_publish hvalid] at h
  exact origin_storeEach _ d h

/-- A tarball of a publish in order reads back as what it is published as. -/
theorem Tidy.identity (h : Tidy formats d request stamps name document) (hvalid : validate request = .ok (name, document))
    {a : String × Attachment} {version : String} (ha : a ∈ unrefused formats d request stamps name document)
    (hattached : attached formats name document.versions a = some (version, filename, bytes)) :
    identity formats filename bytes = .ok (some (name, version)) := by
  obtain ⟨rfl, hshort, hdeclared, -⟩ := attached_ok hattached
  obtain ⟨hname, hversion⟩ := validate_ok hvalid
  obtain ⟨-, -, manifest, hread, hback⟩ := h.reads a ha _ _ _ hattached
  exact hback.identity hread hname hshort (hversion _ hdeclared)

theorem filed_publish (h : Tidy formats d request stamps name document) (hvalid : validate request = .ok (name, document))
    (hd : Filed formats d) : Filed formats (publish formats d stamps request).2 := by
  intro filename stored hstored
  rcases origin_publish hvalid hstored with hold | ⟨a, ha, version, hattached⟩
  · exact hd _ _ hold
  · obtain ⟨hvisible, hkey, -⟩ := h.reads a ha _ _ _ hattached
    exact ⟨name, version, (attached_ok hattached).1, h.identity hvalid ha hattached, hvisible, hkey⟩

theorem listed_publish (h : Tidy formats d request stamps name document) (hvalid : validate request = .ok (name, document))
    (hlisted : Listed formats (publish formats d stamps request).2 n v) :
    Listed formats d n v ∨ n = name ∧ Present formats d request stamps name document v := by
  obtain ⟨stored, hstored, hidentity⟩ := hlisted
  rcases origin_publish hvalid hstored with hold | ⟨a, ha, version, hattached⟩
  · exact .inl ⟨stored, hold, hidentity⟩
  · have hread := h.identity hvalid ha hattached
    rw [hidentity] at hread
    cases hread
    exact .inr ⟨rfl, .inr ⟨a, ha, by rw [hattached]; rfl⟩⟩

theorem unshadowed_publish (h : Tidy formats d request stamps name document) (hvalid : validate request = .ok (name, document))
    (hd : ∀ n, Unshadowed formats d n) (n : String) : Unshadowed formats (publish formats d stamps request).2 n := by
  by_cases hname : n = name
  · subst hname
    have hpresent {v : String} (hv : Listed formats (publish formats d stamps request).2 n v) :
        Present formats d request stamps n document v := (listed_publish h hvalid hv).elim .inl And.right
    refine ⟨fun tag target htag hown htarget => ?_, fun hlatest => ?_⟩
    · rw [tagOf_publish hvalid, if_pos rfl] at htag
      exact h.tags tag target htag (hpresent hown) (hpresent htarget)
    · rw [tagOf_publish hvalid, if_pos rfl]
      exact h.latest (hpresent hlatest)
  · have hbefore {v : String} (hv : Listed formats (publish formats d stamps request).2 n v) : Listed formats d n v :=
      (listed_publish h hvalid hv).resolve_right fun hboth => hname hboth.1
    refine ⟨fun tag target htag hown htarget => ?_, fun hlatest => ?_⟩
    · rw [tagOf_publish hvalid, if_neg hname] at htag
      exact (hd n).own tag target htag (hbefore hown) (hbefore htarget)
    · rw [tagOf_publish hvalid, if_neg hname]
      exact (hd n).latest (hbefore hlatest)

/-- The file of a version holds these bytes, and they read back as it. -/
def Holds (formats : Formats) (d : Directory) (name version : String) (bytes : Bytes) : Prop :=
  d.bytes (fileName name version) = some bytes ∧ identity formats (fileName name version) bytes = .ok (some (name, version))

theorem holds_of_refused (h : Tidy formats d request stamps name document) (hvalid : validate request = .ok (name, document))
    (hrefused : admitted formats d request stamps name document = false) (hd : Holds formats d n v bytes) :
    Holds formats (publish formats d stamps request).2 n v bytes := by
  refine ⟨?_, hd.2⟩
  rw [bytes_publish hvalid]
  cases hoverwrite : request.overwrite with
  | false => exact bytes_storeEach_of_fresh hoverwrite _ d hd.1
  | true =>
    rw [bytes_storeEach_of_overwrite hoverwrite]
    change (lastBytes formats name document.versions (unrefused formats d request stamps name document) _).or _ = _
    cases hlast : lastBytes formats name document.versions (unrefused formats d request stamps name document) (fileName n v) with
    | none => rw [Option.none_or, hd.1]
    | some new => rw [Option.some_or, h.kept hrefused hoverwrite _ _ hlast _ hd.1]

/-- What an accepted publish carries is held; what it does not, stays. -/
theorem holds_of_admitted (h : Tidy formats d request stamps name document) (hvalid : validate request = .ok (name, document))
    (hadmitted : admitted formats d request stamps name document = true) {old : Option Bytes}
    (hd : ∀ bytes, old = some bytes → Holds formats d n v bytes) (hbytes : (lastCarried formats request n v).or old = some bytes) :
    Holds formats (publish formats d stamps request).2 n v bytes := by
  have hall := unrefused_of_admitted hadmitted
  have hattached : ∀ a ∈ document.attachments, (attached formats name document.versions a).isSome = true := fun a ha => by
    obtain ⟨_, _, _, _, hsome, -⟩ := storeOne_of_fits (List.all_eq_true.1 (Bool.and_eq_true_iff.1 hadmitted).1 a ha)
    rw [hsome]
    rfl
  have hdone : (publish formats d stamps request).2.bytes (fileName n v) =
      (lastBytes formats name document.versions document.attachments (fileName n v)).or (d.bytes (fileName n v)) := by
    rw [bytes_publish hvalid, bytes_storeEach_of_none _ _ _ (admitted_iff.1 hadmitted)]
  have hcarried : lastCarried formats request n v =
      if name = n then lastBytes formats name document.versions document.attachments (fileName name v) else none := by
    rw [lastCarried, hvalid]
    simp only
    split
    · rename_i hname
      subst hname
      exact lastAttached_eq hattached v
    · rfl
  cases hlast : lastCarried formats request n v with
  | some new =>
    rw [hlast, Option.some_or] at hbytes
    cases hbytes
    rw [hcarried] at hlast
    split at hlast
    · rename_i hname
      subst hname
      obtain ⟨a, ha, version, hone⟩ := mem_of_lastBytes hlast
      have hread := h.identity hvalid (by rw [hall]; exact ha) hone
      obtain ⟨hfile, -⟩ := attached_ok hone
      obtain rfl := fileName_inj hfile
      exact ⟨by rw [hdone, hlast, Option.some_or], hread⟩
    · cases hlast
  | none =>
    rw [hlast, Option.none_or] at hbytes
    have hheld := hd bytes hbytes
    refine ⟨?_, hheld.2⟩
    rw [hdone]
    cases hother : lastBytes formats name document.versions document.attachments (fileName n v) with
    | none => rw [Option.none_or, hheld.1]
    | some new =>
      -- a file that holds another version is not taken
      obtain ⟨a, ha, version, hone⟩ := mem_of_lastBytes hother
      obtain ⟨stored, hstored, rfl⟩ := stored_of_bytes hheld.1
      have hown := h.own a (by rw [hall]; exact ha) _ _ _ hone stored hstored
      rw [hheld.2] at hown
      cases hown
      rw [hcarried, if_pos rfl, hother] at hlast
      cases hlast

end publish

/-! ## Runs in order -/

/-- What a run in order keeps. -/
structure Kept (formats : Formats) (log : List (Event × Answer)) (s : State) : Prop where
  filed : Filed formats s.directory
  tags : ∀ name, Unshadowed formats s.directory name
  holds : ∀ name version bytes, lastPublished formats log name version = some bytes →
    Holds formats s.directory name version bytes

section run

variable {formats : Formats} {log : List (Event × Answer)} {s : State}

theorem kept_start (formats : Formats) : Kept formats [] (npm formats).start := by
  have hnone {name version : String} : ¬ Listed formats Directory.empty name version := by
    rintro ⟨stored, hstored, -⟩
    cases hstored
  refine ⟨fun filename stored h => ?_, fun name => ⟨?_, ?_⟩, fun name version bytes h => ?_⟩
  · cases h
  · exact fun tag target _ hown => absurd hown hnone
  · exact fun hlatest => absurd hlatest hnone
  · cases h

/-- A lookup changes nothing but the caches. -/
theorem Kept.lookup (h : Kept formats log s) (r : Registry) (entry : Event × Answer)
    (hentry : ∀ name version, publishedBy formats name version entry = none) :
    Kept formats (entry :: log) { s with registry := r } where
  filed := h.filed
  tags := h.tags
  holds name version bytes hlast := by
    rw [lastPublished, List.findSome?_cons, hentry] at hlast
    exact h.holds name version bytes hlast

theorem Kept.publish (h : Kept formats log s) (request : Request) (stamps : Stamps)
    (horderly : Orderly formats s (.publish request stamps)) :
    Kept formats ((.publish request stamps, ((npm formats).step s (.publish request stamps)).1) :: log)
      ((npm formats).step s (.publish request stamps)).2 := by
  cases hvalid : validate request with
  | error fault =>
    have hdone : Npm.publish formats s.directory stamps request = (.error fault, s.directory) := by
      rw [Npm.publish, hvalid]
    refine ⟨?_, ?_, fun name version bytes hlast => ?_⟩
    · change Filed formats (Npm.publish formats s.directory stamps request).2
      rw [hdone]
      exact h.filed
    · change ∀ name, Unshadowed formats (Npm.publish formats s.directory stamps request).2 name
      rw [hdone]
      exact h.tags
    · change Holds formats (Npm.publish formats s.directory stamps request).2 name version bytes
      change lastPublished formats
        ((.publish request stamps, .published (Npm.publish formats s.directory stamps request).1) :: log) name version =
          some bytes at hlast
      rw [hdone] at hlast ⊢
      exact h.holds name version bytes hlast
  | ok found =>
    obtain ⟨name, document⟩ := found
    have htidy := horderly name document hvalid
    refine ⟨filed_publish htidy hvalid h.filed, unshadowed_publish htidy hvalid h.tags, fun n v bytes hlast => ?_⟩
    change Holds formats (Npm.publish formats s.directory stamps request).2 n v bytes
    change lastPublished formats
      ((.publish request stamps, .published (Npm.publish formats s.directory stamps request).1) :: log) n v = some bytes at hlast
    cases hadmitted : admitted formats s.directory request stamps name document with
    | false =>
      obtain ⟨fault, hdone⟩ := publish_of_refused hvalid hadmitted
      rw [hdone] at hlast
      exact holds_of_refused htidy hvalid hadmitted (h.holds n v bytes hlast)
    | true =>
      obtain ⟨items, hdone⟩ := publish_of_admitted hvalid hadmitted
      rw [hdone, lastPublished, List.findSome?_cons] at hlast
      refine holds_of_admitted htidy hvalid hadmitted (h.holds n v) ?_
      rw [← hlast]
      simp only [publishedBy]
      cases lastCarried formats request n v <;> rfl

theorem kept_step (h : Kept formats log s) (e : Event) (horderly : Orderly formats s e) :
    Kept formats ((e, ((npm formats).step s e).1) :: log) ((npm formats).step s e).2 := by
  cases e with
  | publish request stamps => exact h.publish request stamps horderly
  | index => exact h.lookup _ _ fun _ _ => rfl
  | packument name => exact h.lookup _ _ fun _ _ => rfl
  | manifest name version => exact h.lookup _ _ fun _ _ => rfl
  | tarball package filename => exact h.lookup _ _ fun _ _ => rfl

theorem Kept.inverse (h : Kept formats log s) (hcached : Cached formats s) : Inverse formats log s := by
  intro name version bytes hlast
  obtain ⟨hbytes, hreads⟩ := h.holds name version bytes hlast
  obtain ⟨stored, hstored, rfl⟩ := stored_of_bytes hbytes
  exact found_of_listed h.filed hcached.sound hcached.timed (h.tags name) hstored hreads

end run

/-- In a run whose publishes are in time and in order, each version is found with the bytes of its last accepted publish, at
every moment. -/
theorem inverse_throughout (formats : Formats) {events : List Event}
    (h : (npm formats).AllSteps (fun _ s e => InTime s e ∧ Orderly formats s e) events) :
    (npm formats).AllStates (Inverse formats) events :=
  Machine.AllSteps.allStates
    (fun _ hs => (Machine.AllSteps.invariant (P := Kept formats) (kept_start formats)
      (fun _ _ e hkept hboth => kept_step hkept e hboth.2) hs).inverse
        (cached_throughout (hs.imp fun _ _ _ hboth => hboth.1))) h

theorem tidy_corePublish (stamps : Stamps) : Tidy tarballFormats Directory.empty corePublish stamps "core" coreDocument := by
  have hattached {a : String × Attachment} {version filename : String} {bytes : Bytes}
      (ha : a ∈ unrefused tarballFormats Directory.empty corePublish stamps "core" coreDocument)
      (h : attached tarballFormats "core" coreDocument.versions a = some (version, filename, bytes)) :
      version = "1.0.0" ∧ filename = "core-1.0.0.tgz" ∧ bytes = tarball := by
    obtain rfl := List.mem_singleton.1 (List.takeWhile_subset _ ha)
    have hone : attached tarballFormats "core" coreDocument.versions ("core-1.0.0.tgz", .object (some tarballText)) =
        some ("1.0.0", "core-1.0.0.tgz", tarball) := by rfl
    rw [hone] at h
    cases h
    exact ⟨rfl, rfl, rfl⟩
  have hpresent {version : String} (h : Present tarballFormats Directory.empty corePublish stamps "core" coreDocument version) :
      version = "1.0.0" := by
    rcases h with ⟨stored, hstored, -⟩ | ⟨a, ha, h⟩
    · cases hstored
    · obtain ⟨⟨version, filename, bytes⟩, hsome, rfl⟩ := Option.map_eq_some_iff.1 h
      exact (hattached ha hsome).1
  refine ⟨fun a ha version filename bytes h => ?_, fun _ _ _ _ _ _ _ h => ?_, fun h => ?_, fun _ _ _ hown htarget => ?_,
    fun h => ?_⟩
  · obtain ⟨rfl, rfl, rfl⟩ := hattached ha h
    exact ⟨by decide, by decide, ⟨⟨false, ""⟩, ⟨false, ""⟩⟩, by rfl, .inr (by decide), .inr (by decide)⟩
  · cases h
  · cases h
  · exact (hpresent htarget).trans (hpresent hown).symm
  · exact absurd (hpresent h) (by decide)

theorem corePublish_inverse :
    lastPublished tarballFormats ((npm tarballFormats).log [.index, .publish corePublish (stampsAt 1)]) "core" "1.0.0" =
      some tarball ∧
    (npm tarballFormats).AllStates (Inverse tarballFormats) [.index, .publish corePublish (stampsAt 1)] := by
  have hlater : (stampsAt 1).Later 0 := ⟨fun _ => ⟨Nat.one_pos, Nat.one_pos⟩, Nat.one_pos⟩
  refine ⟨by rfl, inverse_throughout tarballFormats ⟨⟨trivial, trivial⟩, ⟨hlater, fun name document hvalid => ?_⟩, trivial⟩⟩
  have hsome : validate corePublish = .ok ("core", coreDocument) := by rfl
  rw [hsome] at hvalid
  cases hvalid
  exact tidy_corePublish (stampsAt 1)

end OpenFish.Npm
