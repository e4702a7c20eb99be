/-
What the lookups answer over a directory whose tarballs lie under the file names of what they read back as, whatever was
looked up before: the caches of the index and of the digests answer what the directory holds.
-/
import OpenFish.Npm.Listing

namespace OpenFish.Npm

open Lib

variable {formats : Formats} {clock : Nat} {d : Directory} {r : Registry}

/-! ## The caches -/

/-- No time stamp is later than this. -/
structure Directory.Timed (clock : Nat) (d : Directory) : Prop where
  stat : d.stat.mtime ≤ clock
  files : ∀ filename stored, d.files.get? filename = some stored → stored.mtime ≤ clock

/-- The digests of what lies under the time stamp that they are kept for, which is not later than this. -/
def Accurate (formats : Formats) (clock : Nat) (d : Directory) (cache : Dict (String × Nat × Nat) (String × String)) : Prop :=
  ∀ filename mtime size value, cache.get? (filename, mtime, size) = some value → mtime ≤ clock ∧
    ∀ stored, d.files.get? filename = some stored → stored.mtime = mtime →
      value = (formats.sha1 stored.bytes, formats.sha512 stored.bytes)

/-- The index of the signature that it is kept for, and accurate digests. -/
structure Registry.Sound (formats : Formats) (clock : Nat) (d : Directory) (r : Registry) : Prop where
  index : ∀ key index, r.index = some (key, index) →
    key.1.mtime ≤ clock ∧ (key = signature d → buildIndex formats d = .ok index)
  digests : Accurate formats clock d r.digests

theorem timed_empty : Directory.empty.Timed 0 := by
  refine ⟨Nat.le_refl 0, fun _ _ h => ?_⟩
  cases h

theorem sound_empty (formats : Formats) (clock : Nat) (d : Directory) : Registry.empty.Sound formats clock d := by
  refine ⟨fun _ _ h => ?_, fun _ _ _ _ h => ?_⟩ <;> cases h

theorem Directory.get?_write (d : Directory) (filename other : String) (data : Bytes) (stamp : Stamp) :
    (d.write filename data stamp).files.get? other =
      if other = filename then some ⟨data, stamp.mtime⟩ else d.files.get? other :=
  Dict.get?_set ..

theorem Directory.le_after (d : Directory) (stamp : Stamp) :
    d.clock ≤ d.after stamp ∧ stamp.mtime ≤ d.after stamp ∧ stamp.directory.mtime ≤ d.after stamp := by
  unfold Directory.after
  omega

theorem Directory.Timed.write (h : d.Timed d.clock) (filename : String) (data : Bytes) (stamp : Stamp) :
    (d.write filename data stamp).Timed (d.write filename data stamp).clock := by
  obtain ⟨hclock, hmtime, hdirectory⟩ := d.le_after stamp
  refine ⟨hdirectory, fun other stored hget => ?_⟩
  rw [Directory.get?_write] at hget
  split at hget
  · cases hget
    exact hmtime
  · exact (h.files other stored hget).trans hclock

theorem Directory.Timed.recordTags (h : d.Timed d.clock) (name : String) (tags : List (String × String)) (stamps : Stamps) :
    (d.recordTags name tags stamps).Timed (d.recordTags name tags stamps).clock :=
  have hafter := d.le_after stamps.index
  ⟨hafter.2.2, fun other stored hget => (h.files other stored hget).trans hafter.1⟩

theorem Accurate.mono {cache : Dict (String × Nat × Nat) (String × String)} (h : Accurate formats clock d cache) {later : Nat}
    (hle : clock ≤ later) : Accurate formats later d cache := fun other mtime size value hget =>
  let ⟨hmtime, hvalue⟩ := h other mtime size value hget
  ⟨hmtime.trans hle, hvalue⟩

theorem Registry.Sound.mono (h : r.Sound formats clock d) {later : Nat} (hle : clock ≤ later) : r.Sound formats later d where
  index key index hkey := ⟨(h.index key index hkey).1.trans hle, (h.index key index hkey).2⟩
  digests := h.digests.mono hle

theorem Accurate.write {cache : Dict (String × Nat × Nat) (String × String)} (h : Accurate formats clock d cache)
    (filename : String) (data : Bytes) {stamp : Stamp} (hstamp : clock < stamp.mtime) :
    Accurate formats clock (d.write filename data stamp) cache := by
  intro other mtime size value hget
  obtain ⟨hle, hvalue⟩ := h other mtime size value hget
  refine ⟨hle, fun stored hstored htime => ?_⟩
  rw [Directory.get?_write] at hstored
  split at hstored
  · cases hstored
    -- nothing is kept for the time of the write
    exact absurd hle (by rw [← htime]; exact Nat.not_le.2 hstamp)
  · exact hvalue stored hstored htime

/-- A later write has a later signature. -/
theorem Registry.Sound.of_later {d' : Directory} (h : r.Sound formats clock d) (hmtime : clock < d'.stat.mtime)
    (hdigests : Accurate formats clock d' r.digests) : r.Sound formats clock d' := by
  refine ⟨fun key index hkey => ?_, hdigests⟩
  obtain ⟨hle, -⟩ := h.index key index hkey
  refine ⟨hle, fun heq => ?_⟩
  rw [heq] at hle
  exact absurd hle (Nat.not_le.2 hmtime)

theorem Registry.Sound.write (h : r.Sound formats clock d) (filename : String) (data : Bytes) {stamp : Stamp}
    (hmtime : clock < stamp.mtime) (hdirectory : clock < stamp.directory.mtime) :
    r.Sound formats clock (d.write filename data stamp) :=
  h.of_later hdirectory (h.digests.write filename data hmtime)

theorem Registry.Sound.recordTags (h : r.Sound formats clock d) (name : String) (tags : List (String × String))
    {stamps : Stamps} (hdirectory : clock < stamps.index.directory.mtime) :
    r.Sound formats clock (d.recordTags name tags stamps) :=
  h.of_later hdirectory h.digests

/-! ## The index and its cache -/

theorem localIndex_eq (h : r.Sound formats clock d) : (localIndex formats d r).1 = buildIndex formats d := by
  have hrebuild : (localIndex.rebuild formats d r).1 = buildIndex formats d := by
    unfold localIndex.rebuild
    split <;> rename_i heq <;> rw [heq]
  unfold localIndex
  split
  · rename_i key index hkey
    split
    · rename_i heq
      exact ((h.index key index hkey).2 heq.symm).symm
    · exact hrebuild
  · exact hrebuild

theorem localIndex_digests (formats : Formats) (d : Directory) (r : Registry) :
    (localIndex formats d r).2.digests = r.digests := by
  have hrebuild : (localIndex.rebuild formats d r).2.digests = r.digests := by
    unfold localIndex.rebuild
    split <;> rfl
  unfold localIndex
  split
  · split
    · rfl
    · exact hrebuild
  · exact hrebuild

theorem Registry.Sound.localIndex (h : r.Sound formats clock d) (hd : d.Timed clock) :
    (localIndex formats d r).2.Sound formats clock d := by
  have hrebuild : (localIndex.rebuild formats d r).2.Sound formats clock d := by
    unfold localIndex.rebuild
    split
    · exact h
    · rename_i index hbuild
      refine ⟨fun key found hkey => ?_, h.digests⟩
      obtain ⟨rfl, rfl⟩ := Prod.mk.inj (Option.some.inj hkey)
      exact ⟨hd.stat, fun _ => hbuild⟩
  unfold Npm.localIndex
  split
  · split
    · exact h
    · exact hrebuild
  · exact hrebuild

/-! ## Digests -/

/-- What the manifest of a version says of its tarball. -/
def distOf (formats : Formats) (d : Directory) (name filename : String) : Dist :=
  match d.files.get? filename with
  | none => ⟨(name, filename), "", ""⟩
  | some stored => ⟨(name, filename), formats.sha1 stored.bytes, formats.sha512 stored.bytes⟩

theorem digests_eq {cache : Dict (String × Nat × Nat) (String × String)} (h : Accurate formats clock d cache) {filename : String}
    {stored : Stored} (hstored : d.files.get? filename = some stored) :
    (digests formats cache filename stored).1 = (formats.sha1 stored.bytes, formats.sha512 stored.bytes) := by
  unfold digests
  simp only
  split
  · rename_i value hvalue
    exact (h _ _ _ _ hvalue).2 stored hstored rfl
  · rfl

theorem Accurate.digests {cache : Dict (String × Nat × Nat) (String × String)} (h : Accurate formats clock d cache)
    (hd : d.Timed clock) {filename : String} {stored : Stored} (hstored : d.files.get? filename = some stored) :
    Accurate formats clock d (digests formats cache filename stored).2 := by
  unfold Npm.digests
  simp only
  split
  · exact h
  · intro other mtime size value hget
    rw [Dict.get?_set] at hget
    split at hget
    · rename_i heq
      cases heq
      cases hget
      refine ⟨hd.files _ _ hstored, fun found hfound _ => ?_⟩
      rw [hstored] at hfound
      cases hfound
      rfl
    · split at hget
      · cases hget
      · exact h other mtime size value hget

theorem localManifest_eq {cache : Dict (String × Nat × Nat) (String × String)} (h : Accurate formats clock d cache)
    (hd : d.Timed clock) (name filename : String) :
    (localManifest formats d cache name filename).1 = distOf formats d name filename ∧
      Accurate formats clock d (localManifest formats d cache name filename).2 := by
  unfold localManifest distOf
  cases hstored : d.files.get? filename with
  | none => exact ⟨rfl, h⟩
  | some stored =>
    refine ⟨?_, h.digests hd hstored⟩
    simp only [digests_eq h hstored]

theorem localManifests_eq (hd : d.Timed clock) (name : String) :
    ∀ (entries : List (String × String)) {cache : Dict (String × Nat × Nat) (String × String)}, Accurate formats clock d cache →
      (localManifests formats d name entries cache).1 = entries.map (fun e => (e.1, distOf formats d name e.2)) ∧
        Accurate formats clock d (localManifests formats d name entries cache).2
  | [], _, h => ⟨rfl, h⟩
  | (version, filename) :: rest, cache, h => by
    obtain ⟨hone, hcache⟩ := localManifest_eq h hd name filename
    obtain ⟨hrest, hcache'⟩ := localManifests_eq hd name rest hcache
    refine ⟨?_, hcache'⟩
    rw [localManifests, List.map_cons, hone, hrest]

/-! ## Lookups -/

/-- The packument of a record. -/
def Record.packument (formats : Formats) (d : Directory) (name : String) (record : Record) : Packument :=
  ⟨name, distTagsOf record, record.filenames.entries.map fun e => (e.1, distOf formats d name e.2)⟩

theorem localPackument_eq (h : r.Sound formats clock d) (hd : d.Timed clock) (name : String) :
    (localPackument formats d r name).1 =
      (buildIndex formats d).map fun index => (index.get? name).map (Record.packument formats d name) := by
  have hindex := localIndex_eq h
  have hdigests := localIndex_digests formats d r
  unfold localPackument
  cases hfound : localIndex formats d r with
  | mk result r' =>
    rw [hfound] at hindex hdigests
    rw [← hindex]
    cases result with
    | error why => rfl
    | ok index =>
      simp only [Except.map]
      cases index.get? name with
      | none => rfl
      | some record =>
        have hcache : Accurate formats clock d r'.digests := hdigests ▸ h.digests
        simp only [(localManifests_eq hd name record.filenames.entries hcache).1, Option.map_some, Record.packument]

theorem Registry.Sound.localPackument (h : r.Sound formats clock d) (hd : d.Timed clock) (name : String) :
    (localPackument formats d r name).2.Sound formats clock d := by
  have hr := h.localIndex hd
  unfold Npm.localPackument
  cases hfound : Npm.localIndex formats d r with
  | mk result r' =>
    rw [hfound] at hr
    cases result with
    | error why => exact hr
    | ok index =>
      simp only
      split
      · exact hr
      · exact ⟨hr.index, (localManifests_eq hd name _ hr.digests).2⟩

theorem localTarball_eq (h : r.Sound formats clock d) (package filename : String) :
    (localTarball formats d r package filename).1 = (buildIndex formats d).map fun index =>
      (index.get? package).bind fun record =>
        if record.filenames.entries.any fun entry => entry.2 = filename then (d.files.get? filename).map Stored.bytes
        else none := by
  unfold localTarball
  simp only [localIndex_eq h]

/-! ## Over a directory in order -/

/-- The version that a tag of a package stands for in `publish.json`. -/
def Directory.tagOf (d : Directory) (name tag : String) : Option String := (d.tags.get? name).bind fun tags => tags.get? tag

/-- No tag that is a version of its package stands for another one. -/
structure Unshadowed (formats : Formats) (d : Directory) (name : String) : Prop where
  own : ∀ tag target, d.tagOf name tag = some target → Listed formats d name tag → Listed formats d name target → target = tag
  /-- There is always a tag `latest`. -/
  latest : Listed formats d name latestTag → d.tagOf name latestTag = some latestTag

/-- The lookups of a version find these bytes, and the index lists their file as this version and no other. -/
structure Found (formats : Formats) (d : Directory) (r : Registry) (name version : String) (bytes : Bytes) : Prop where
  index : ∃ index filename, (localIndex formats d r).1 = .ok index ∧
    ∀ name' version', place index name' version' = some filename ↔ name' = name ∧ version' = version
  packument : ∃ document dist, (localPackument formats d r name).1 = .ok (some document) ∧
    document.versions.lookup version = some dist ∧ dist.shasum = formats.sha1 bytes ∧ dist.integrity = formats.sha512 bytes ∧
    (localTarball formats d r name dist.tarball.2).1 = .ok (some bytes)
  manifest : ∃ dist, (versionManifest formats d r name version).1 = .ok (some dist) ∧ dist.shasum = formats.sha1 bytes ∧
    dist.integrity = formats.sha512 bytes

theorem isSome_mapM {α β : Type} {f : α → Option β} : ∀ {l : List α}, (∀ a ∈ l, (f a).isSome = true) →
    (l.mapM f).isSome = true
  | [], _ => rfl
  | a :: l, h => by
    obtain ⟨b, hb⟩ := Option.isSome_iff_exists.1 (h a (List.mem_cons_self ..))
    obtain ⟨bs, hbs⟩ := Option.isSome_iff_exists.1 (isSome_mapM fun a' ha' => h a' (List.mem_cons_of_mem _ ha'))
    rw [List.mapM_cons, hb, hbs]
    rfl

/-- The record of a package as `local_index` completes it. -/
def completed (formats : Formats) (d : Directory) (name : String) (record : Record) : Record :=
  ⟨record.filenames, latestOf formats record.versions, (d.tags.get? name).getD .empty⟩

theorem buildIndex_of_filed (h : Filed formats d) {index : Index} (hscan : scan formats d = .ok index) :
    buildIndex formats d = .ok (index.mapVals (completed formats d)) := by
  unfold buildIndex
  rw [hscan]
  simp only [Bind.bind, Except.bind]
  rw [if_pos]
  · rfl
  rw [List.all_eq_true]
  rintro ⟨name, record⟩ hentry
  have hkeys : ∀ version ∈ record.versions,
      ((versionKey formats version).map fun key => (version, key)).isSome = true := by
    intro version hversion
    obtain ⟨⟨version, filename⟩, hmem, rfl⟩ := List.mem_map.1 hversion
    have hplace : place index name version = some filename := by
      rw [place, Dict.get?_eq_some.2 hentry]
      exact Dict.get?_eq_some.2 hmem
    obtain ⟨-, stored, hstored, hidentity⟩ := (place_scan h hscan).1 hplace
    obtain ⟨name', version', -, hidentity', -, hkey⟩ := h _ _ hstored
    rw [hidentity] at hidentity'
    cases hidentity'
    rw [Option.isSome_map]
    exact hkey
  rw [latestOf, Option.isSome_map]
  exact isSome_mapM hkeys

theorem place_completed (index : Index) (name version : String) :
    place (index.mapVals (completed formats d)) name version = place index name version := by
  unfold place
  rw [Dict.get?_mapVals]
  cases index.get? name <;> rfl

/-- The record that a listed version is found in. -/
theorem record_of_listed (h : Filed formats d) {index : Index} (hscan : scan formats d = .ok index) {name version : String}
    (hlisted : Listed formats d name version) :
    ∃ record, (index.mapVals (completed formats d)).get? name = some record ∧
      (∀ other filename, record.filenames.get? other = some filename ↔
        filename = fileName name other ∧ Listed formats d name other) ∧
      ∀ tag, record.distTags.get? tag = d.tagOf name tag := by
  have hplace : place index name version = some (fileName name version) := (place_scan h hscan).2 ⟨rfl, hlisted⟩
  obtain ⟨found, hfound, -⟩ := Option.bind_eq_some_iff.1 hplace
  refine ⟨completed formats d name found, by rw [Dict.get?_mapVals, hfound]; rfl, fun other filename => ?_, fun tag => ?_⟩
  · rw [← place_scan h hscan, place, hfound]
    rfl
  · simp only [completed, Directory.tagOf]
    cases d.tags.get? name <;> rfl

theorem lookup_packument {name version filename : String} {record : Record}
    (h : record.filenames.get? version = some filename) :
    (record.packument formats d name).versions.lookup version = some (distOf formats d name filename) := by
  have hmap : (record.packument formats d name).versions =
      (record.filenames.image fun _ filename => distOf formats d name filename).entries := rfl
  rw [hmap, Dict.lookup_entries, Dict.get?_image, h]
  rfl

/-- A listed version is not taken for a tag. -/
theorem distTagsOf_of_unshadowed {name version : String} {record : Record} (h : Unshadowed formats d name)
    (hfiles : ∀ other filename, record.filenames.get? other = some filename ↔
      filename = fileName name other ∧ Listed formats d name other)
    (htags : ∀ tag, record.distTags.get? tag = d.tagOf name tag) (hlisted : Listed formats d name version) :
    ((distTagsOf record).get? version).getD version = version := by
  have hkept (tag : String) : (record.distTags.keep fun _ target => (record.filenames.get? target).isSome).get? tag =
      (d.tagOf name tag).filter fun target => (record.filenames.get? target).isSome := by
    rw [Dict.get?_keep, htags]
  have hown : ((d.tagOf name version).filter fun target => (record.filenames.get? target).isSome).getD version = version := by
    cases htag : d.tagOf name version with
    | none => rfl
    | some target =>
      rw [Option.filter_some]
      split
      · rename_i hsome
        obtain ⟨filename, hfile⟩ := Option.isSome_iff_exists.1 hsome
        rw [h.own _ _ htag hlisted ((hfiles target filename).1 hfile).2, Option.getD_some]
      · rfl
  unfold distTagsOf
  simp only
  split
  · rename_i hnone
    rw [Dict.get?_set]
    split
    · rename_i heq
      -- the version `latest` is tagged as itself
      subst heq
      have hself := (hfiles latestTag (fileName name latestTag)).2 ⟨rfl, hlisted⟩
      rw [hkept, h.latest hlisted, Option.filter_some, hself] at hnone
      cases hnone
    · rw [hkept]
      exact hown
  · rw [hkept]
    exact hown

/-- What is listed is found. -/
theorem found_of_listed (h : Filed formats d) (hr : r.Sound formats clock d) (hd : d.Timed clock) {name version : String}
    (htags : Unshadowed formats d name) {stored : Stored} (hstored : d.files.get? (fileName name version) = some stored)
    (hidentity : identity formats (fileName name version) stored.bytes = .ok (some (name, version))) :
    Found formats d r name version stored.bytes := by
  have hlisted : Listed formats d name version := ⟨stored, hstored, hidentity⟩
  obtain ⟨index, hscan⟩ := h.scan
  have hbuild := buildIndex_of_filed h hscan
  obtain ⟨record, hrecord, hfiles, hdistTags⟩ := record_of_listed h hscan hlisted
  have hfile := (hfiles version (fileName name version)).2 ⟨rfl, hlisted⟩
  have hdist : distOf formats d name (fileName name version) =
      ⟨(name, fileName name version), formats.sha1 stored.bytes, formats.sha512 stored.bytes⟩ := by
    rw [distOf, hstored]
  have hpackument : (localPackument formats d r name).1 = .ok (some (record.packument formats d name)) := by
    rw [localPackument_eq hr hd, hbuild]
    simp only [Except.map, hrecord, Option.map_some]
  have hlookup := @lookup_packument formats d name version _ record hfile
  rw [hdist] at hlookup
  refine ⟨⟨_, fileName name version, by rw [localIndex_eq hr, hbuild], fun name' version' => ?_⟩,
    ⟨_, _, hpackument, hlookup, rfl, rfl, ?_⟩,
    ⟨⟨(name, fileName name version), formats.sha1 stored.bytes, formats.sha512 stored.bytes⟩, ?_, rfl, rfl⟩⟩
  · rw [place_completed, place_scan h hscan]
    constructor
    · rintro ⟨heq, other, hother, hidentity'⟩
      rw [← heq] at hother hidentity'
      rw [hstored] at hother
      cases hother
      rw [hidentity] at hidentity'
      cases hidentity'
      exact ⟨rfl, rfl⟩
    · rintro ⟨rfl, rfl⟩
      exact ⟨rfl, hlisted⟩
  · rw [localTarball_eq hr, hbuild]
    simp only [Except.map, hrecord, Option.bind_some]
    have hany : (record.filenames.entries.any fun entry => entry.2 = fileName name version) = true :=
      List.any_eq_true.2 ⟨_, Dict.get?_eq_some.1 hfile, decide_eq_true rfl⟩
    rw [if_pos hany, hstored, Option.map_some]
  · unfold versionManifest
    simp only [hpackument, Except.map, Option.bind_some]
    have hresolved := distTagsOf_of_unshadowed htags hfiles hdistTags hlisted
    rw [show (record.packument formats d name).distTags = distTagsOf record from rfl, hresolved, hlookup]
    rfl

end OpenFish.Npm
