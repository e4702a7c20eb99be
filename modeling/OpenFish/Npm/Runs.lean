/-
Publishes and lookups over one npm directory, in any order: whatever the caches have seen, a lookup answers what the directory
holds, if a publish is stamped later than those before it.
-/
import OpenFish.Lib.Machine
import OpenFish.Npm.Lookup

namespace OpenFish.Npm

open Lib

/-! ## Runs -/

inductive Event
  | publish (request : Request) (stamps : Stamps)
  | index
  | packument (name : String)
  | manifest (name version : String)
  | tarball (package filename : String)

inductive Answer
  | published (result : Except Fault (List PublishedVersion))
  | index (result : Except String Index)
  | packument (result : Except String (Option Packument))
  | manifest (result : Except String (Option Dist))
  | tarball (result : Except String (Option Bytes))

/-- The directory, and a registry over it. -/
structure State where
  directory : Directory
  registry : Registry

/-- Publishes and lookups, from an empty directory. -/
def npm (formats : Formats) : Machine State Event Answer where
  start := ⟨.empty, .empty⟩
  step s
    | .publish request stamps =>
      let done := publish formats s.directory stamps request
      (.published done.1, { s with directory := done.2 })
    | .index =>
      let found := localIndex formats s.directory s.registry
      (.index found.1, { s with registry := found.2 })
    | .packument name =>
      let found := localPackument formats s.directory s.registry name
      (.packument found.1, { s with registry := found.2 })
    | .manifest name version =>
      let found := versionManifest formats s.directory s.registry name version
      (.manifest found.1, { s with registry := found.2 })
    | .tarball package filename =>
      let found := localTarball formats s.directory s.registry package filename
      (.tarball found.1, { s with registry := found.2 })

/-- These time stamps are later than this. -/
structure Stamps.Later (stamps : Stamps) (clock : Nat) : Prop where
  attachment : ∀ key, clock < (stamps.attachment key).mtime ∧ clock < (stamps.attachment key).directory.mtime
  index : clock < stamps.index.directory.mtime

/-- What is asked of the file system: the stamps of a publish are later than all before it. -/
def InTime (s : State) : Event → Prop
  | .publish _ stamps => stamps.Later s.directory.clock
  | _ => True

/-! ## What a publish keeps -/

section keeps

variable {formats : Formats} {d : Directory} {stamps : Stamps}

/-- What every write keeps, the loop keeps. -/
theorem storeAll_keeps (formats : Formats) {P : Directory → Prop}
    (hwrite : ∀ d filename bytes key, P d → P (d.write filename bytes (stamps.attachment key)))
    (name : String) (versions : List (String × VersionEntry)) (overwrite : Bool) : ∀ (as : List (String × Attachment))
    (d : Directory), P d → P (storeAll formats name versions overwrite stamps d as).1
  | [], d, h => h
  | (key, attachment) :: as, d, h => by
    rw [storeAll]
    cases hone : storeAttachment formats d name versions overwrite stamps key attachment with
    | error fault => exact h
    | ok done =>
      obtain ⟨d', item⟩ := done
      obtain ⟨bytes, manifest, hturn⟩ := storeAttachment_ok hone
      exact storeAll_keeps formats hwrite name versions overwrite as d' (hturn.stored ▸ hwrite d _ bytes key h)

/-- And with the recording of tags, a publish keeps it. -/
theorem publish_keeps {P : Directory → Prop}
    (hwrite : ∀ d filename bytes key, P d → P (d.write filename bytes (stamps.attachment key)))
    (htags : ∀ d name tags, P d → P (d.recordTags name tags stamps)) {request : Request} (h : P d) :
    P (publish formats d stamps request).2 := by
  unfold publish
  cases validate request with
  | error fault => exact h
  | ok found =>
    have hstored := storeAll_keeps formats hwrite found.1 found.2.versions request.overwrite found.2.attachments d h
    simp only
    cases hall : storeAll formats found.1 found.2.versions request.overwrite stamps d found.2.attachments with
    | mk d' rest =>
      rw [hall] at hstored
      obtain ⟨items, refusal⟩ := rest
      cases refusal with
      | some fault => exact hstored
      | none => exact htags _ _ _ hstored

end keeps

/-! ## The caches of a run -/

/-- The caches answer what the directory holds. -/
structure Cached (formats : Formats) (s : State) : Prop where
  timed : s.directory.Timed s.directory.clock
  sound : s.registry.Sound formats s.directory.clock s.directory

theorem cached_start (formats : Formats) : Cached formats (npm formats).start := ⟨timed_empty, sound_empty formats _ _⟩

theorem cached_step {formats : Formats} {s : State} (h : Cached formats s) (e : Event) (htime : InTime s e) :
    Cached formats ((npm formats).step s e).2 := by
  have hindex := h.sound.localIndex h.timed
  have hpackument := h.sound.localPackument h.timed
  cases e with
  | publish request stamps =>
    -- the caches hold nothing that is later than the clock before the publish, and every write of it is
    let P := fun d : Directory =>
      d.Timed d.clock ∧ s.directory.clock ≤ d.clock ∧ s.registry.Sound formats s.directory.clock d
    have hdone : P (publish formats s.directory stamps request).2 := publish_keeps
      (fun d f b key ⟨hd, hle, hr⟩ => ⟨hd.write f b _, hle.trans (d.le_after _).1,
        hr.write f b (htime.attachment key).1 (htime.attachment key).2⟩)
      (fun d n t ⟨hd, hle, hr⟩ => ⟨hd.recordTags n t stamps, hle.trans (d.le_after _).1, hr.recordTags n t htime.index⟩)
      ⟨h.timed, Nat.le_refl _, h.sound⟩
    exact ⟨hdone.1, hdone.2.2.mono hdone.2.1⟩
  | index => exact ⟨h.timed, hindex⟩
  | packument name => exact ⟨h.timed, hpackument name⟩
  | manifest name version => exact ⟨h.timed, hpackument name⟩
  | tarball package filename => exact ⟨h.timed, hindex⟩

theorem cached_throughout {formats : Formats} {events : List Event} (h : (npm formats).AllSteps (fun _ s e => InTime s e) events) :
    Cached formats ((npm formats).state events) :=
  Machine.AllSteps.invariant (P := fun _ s => Cached formats s) (cached_start formats)
    (fun _ _ e hcached htime => cached_step hcached e htime) h

theorem answer_uncached {formats : Formats} {s : State} (h : Cached formats s) (e : Event) :
    ((npm formats).step s e).1 = ((npm formats).step ⟨s.directory, .empty⟩ e).1 := by
  have hempty := sound_empty formats s.directory.clock s.directory
  have hindex := (localIndex_eq h.sound).trans (localIndex_eq hempty).symm
  have hpackument := fun name => (localPackument_eq h.sound h.timed name).trans (localPackument_eq hempty h.timed name).symm
  cases e with
  | publish request stamps => rfl
  | index => exact congrArg Answer.index hindex
  | packument name => exact congrArg Answer.packument (hpackument name)
  | manifest name version =>
    refine congrArg Answer.manifest ?_
    unfold versionManifest
    simp only [hpackument]
  | tarball package filename =>
    exact congrArg Answer.tarball ((localTarball_eq h.sound _ _).trans (localTarball_eq hempty _ _).symm)

/-- Whatever was published in time and looked up before, every answer is the one of a registry that has cached nothing. -/
theorem uncached_throughout (formats : Formats) {events : List Event}
    (h : (npm formats).AllSteps (fun _ s e => InTime s e) events) :
    (npm formats).AllStates
      (fun _ s => ∀ e, ((npm formats).step s e).1 = ((npm formats).step ⟨s.directory, .empty⟩ e).1) events :=
  h.allStates fun _ his => answer_uncached (cached_throughout his)

/-- The stamps of a file system whose clock shows this. -/
def stampsAt (now : Nat) : Stamps := ⟨fun _ => ⟨now, ⟨now, 4096⟩⟩, ⟨now, ⟨now, 4096⟩⟩, 100⟩

/-- A version is published, looked up, overwritten at a later time and looked up again. -/
theorem uncached_throughout_overwritten : (npm tarballFormats).AllStates
    (fun _ s => ∀ e, ((npm tarballFormats).step s e).1 = ((npm tarballFormats).step ⟨s.directory, .empty⟩ e).1)
    [.packument "core", .publish { corePublish with overwrite := true } (stampsAt 2), .packument "core",
      .publish corePublish (stampsAt 1)] := by
  have hlater {clock now : Nat} (h : clock < now) : (stampsAt now).Later clock := ⟨fun _ => ⟨h, h⟩, h⟩
  exact uncached_throughout tarballFormats ⟨trivial, hlater (by decide +kernel), trivial, hlater (by decide +kernel), trivial⟩

end OpenFish.Npm
