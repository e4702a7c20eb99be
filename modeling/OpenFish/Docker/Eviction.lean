/-
Which repository a blob belongs to is kept in one file of the cache directory, and the budget may evict that file. As long
as it does not, every blob that was linked is served for its repository while it is cached.
-/
import OpenFish.Docker.Registry
import Mathlib.Tactic.FinCases

namespace OpenFish.Docker

open Lib

variable {site : Site}

/-! ## What the index remembers -/

/-- `open_blob` answers from the cache with the bytes of the entry, with no step of the upstream. -/
def Serves (site : Site) (s : Shared) (name digest : String) (content : Content) : Prop :=
  ∀ rangeHeader head worlds, (alone site worlds 3 (s, ⟨.blob name digest rangeHeader head, .asked⟩)).2.stage =
    .done (.cachedBlob content.read rangeHeader)

/-- A blob that was linked to a repository, and is cached, is known to belong there, and is served. -/
def Remembers (site : Site) (s : Scene Shared Request) : Prop :=
  ∀ name digest content, (name, digest) ∈ s.shared.links → contentAt (.entry digest) s.shared.files = some content →
    hasBlob name digest s.shared.files = true ∧ Serves site s.shared name digest content

/-- The files that are older than the index are enough for the budget. -/
def Spared (site : Site) (order : List Path) (files : Files) : Prop :=
  site.maxBytes = 0 ∨ totalBytes files ≤
    site.maxBytes + (((oldestFirst order files).takeWhile fun e => e.1 ≠ .index).map fun e => e.2.size).sum

/-- Where the step enforces the budget, the files that are older than the index are enough for it. -/
def SparesIndex (site : Site) (s : Scene Shared Request) : Move Call World (List Path) → Prop
  | .begin _ => True
  | .other order => Spared site order s.shared.files
  | .step i w => ∀ r ∈ s.calls[i]?, r.stage.enforces = true → Spared site w.order s.shared.files

instance (order : List Path) (files : Files) : Decidable (Spared site order files) :=
  inferInstanceAs (Decidable (_ ∨ _))

instance (s : Scene Shared Request) : ∀ m, Decidable (SparesIndex site s m)
  | .begin _ => .isTrue trivial
  | .other order => inferInstanceAs (Decidable (Spared site order s.shared.files))
  | .step i w => inferInstanceAs (Decidable (∀ r ∈ s.calls[i]?, r.stage.enforces = true → Spared site w.order s.shared.files))

theorem contentAt_of_spared {order : List Path} {files : Files} (h : Spared site order files) :
    contentAt .index (enforceLimit site.maxBytes order files) = contentAt .index files := by
  unfold enforceLimit
  split
  · rfl
  · rename_i hfull
    rcases h with hnone | hspared
    · exact absurd (.inl hnone) hfull
    · exact contentAt_evict_of_spared hspared

/-! ## Only digests are linked -/

theorem isDigest_of_digestOf {value : Json} {digests : List String} (h : digestOf value = some digests) :
    ∀ d ∈ digests, isDigest d = true := by
  intro d hd
  unfold digestOf at h
  split at h
  · split at h
    · rename_i digest _
      split at h
      · cases h
        rename_i hdigest
        exact List.mem_singleton.1 hd ▸ hdigest
      · cases h
        exact absurd hd List.not_mem_nil
    · split at h
      · cases h
      · cases h
        exact absurd hd List.not_mem_nil
  · cases h
    exact absurd hd List.not_mem_nil

theorem isDigest_of_mapM {items : List Json} {found : List (List String)} (h : items.mapM digestOf = some found) :
    ∀ digests ∈ found, ∀ d ∈ digests, isDigest d = true := by
  induction items generalizing found with
  | nil =>
    cases h
    exact fun _ hmem => absurd hmem List.not_mem_nil
  | cons item items ih =>
    rw [List.mapM_cons, Option.bind_eq_bind, Option.bind_eq_some_iff] at h
    obtain ⟨digests, hdigests, h⟩ := h
    rw [Option.bind_eq_bind, Option.bind_eq_some_iff] at h
    obtain ⟨found', hfound', h⟩ := h
    cases h
    exact List.forall_mem_cons.2 ⟨isDigest_of_digestOf hdigests, ih hfound'⟩

theorem isDigest_of_manifest {body : Bytes} {blobs : List String} (h : manifestBlobDigests site body = some blobs) :
    ∀ d ∈ blobs, isDigest d = true := by
  unfold manifestBlobDigests at h
  split at h
  · simp only [Option.bind_eq_bind, Option.bind_eq_some_iff, Option.pure_def, Option.some.injEq] at h
    obtain ⟨config, hconfig, layers, -, found, hfound, rfl⟩ := h
    refine List.forall_mem_append.2 ⟨isDigest_of_digestOf hconfig, fun d hd => ?_⟩
    obtain ⟨digests, hdigests, hd⟩ := List.mem_flatten.1 hd
    exact isDigest_of_mapM hfound digests hdigests d hd
  · cases h
    exact fun _ hd => absurd hd List.not_mem_nil

/-- The blobs that a write links. -/
def Write.links : Write → List (String × String)
  | .recordManifest name _ _ blobs => blobs.map (name, ·)
  | .recordBlob name digest => [(name, digest)]
  | _ => []

/-- The request asks for a digest, where it is past the check, and is going to link digests only. -/
def Digested (r : Request) : Prop :=
  match r.stage with
  | .asked | .done _ => True
  | .writing todo _ => ∀ write ∈ todo, ∀ link ∈ write.links, isDigest link.2 = true
  | _ => ∀ name digest, r.call.blob? = some (name, digest) → isDigest digest = true

theorem digested_fetch {call : Call} {code : String} (h : ∀ name digest, call.blob? = some (name, digest) → isDigest digest = true) :
    Digested ⟨call, fetch site code⟩ := by
  unfold fetch
  split
  · exact h
  · trivial

theorem digested_storeManifest {name reference contentType : String} {accept : Option String} {body : Bytes} :
    Digested ⟨.manifest name reference accept, storeManifest site name reference contentType body⟩ := by
  unfold storeManifest
  split
  · trivial
  · simp only
    split
    · rename_i blobs hblobs
      intro write hwrite link hlink
      rcases List.mem_append.1 hwrite with hput | hrecord
      · fin_cases hput <;> exact absurd hlink List.not_mem_nil
      · rw [List.mem_singleton.1 hrecord] at hlink
        obtain ⟨d, hd, rfl⟩ := List.mem_map.1 hlink
        exact isDigest_of_manifest hblobs d hd
    · intro write hwrite link hlink
      fin_cases hwrite <;> exact absurd hlink List.not_mem_nil

/-- A request for a manifest does not ask for a digest. -/
theorem digested_of_idle {name reference : String} {accept : Option String} {stage : Stage} (h : stage.writes = false) :
    Digested ⟨.manifest name reference accept, stage⟩ := by
  cases stage with
  | writing => cases h
  | asked | done => trivial
  | _ =>
    intro name' digest' hcall
    cases hcall

theorem digested_manifestStep (site : Site) (s : Shared) {name reference : String} {accept : Option String} {stage : Stage} (w : World)
    (h : Digested ⟨.manifest name reference accept, stage⟩) :
    Digested ⟨.manifest name reference accept, (manifestStep site name reference w s stage).2⟩ := by
  cases stage with
  | asked =>
    have hhit (hit : Bool) : Digested ⟨.manifest name reference accept, if hit then .found else fetch site "MANIFEST_UNKNOWN"⟩ := by
      cases hit
      · exact digested_of_idle (writes_fetch ..)
      · exact digested_of_idle rfl
    exact hhit _
  | found =>
    simp only [manifestStep]
    split
    · exact digested_of_idle rfl
    · exact digested_of_idle (writes_fetch ..)
  | read body =>
    simp only [manifestStep]
    split
    · exact digested_of_idle rfl
    · trivial
  | fetching =>
    simp only [manifestStep]
    split
    · exact digested_storeManifest
    · trivial
    · trivial
  | typed body => trivial
  | looked | linked | streaming | writing | done => exact h

theorem digested_blobStep (site : Site) (s : Shared) {name digest : String} {rangeHeader : Option String} {head : Bool} {stage : Stage}
    (w : World) (h : Digested ⟨.blob name digest rangeHeader head, stage⟩) :
    Digested ⟨.blob name digest rangeHeader head, (blobStep site name digest rangeHeader head w s stage).2⟩ := by
  cases stage with
  | asked =>
    simp only [blobStep]
    split
    · rename_i hdigest
      intro name' digest' hcall
      cases hcall
      exact hdigest
    · trivial
  | looked cached =>
    simp only [blobStep]
    split
    · exact h
    · exact digested_fetch h
  | linked =>
    simp only [blobStep]
    split
    · trivial
    · trivial
  | fetching =>
    simp only [blobStep]
    split
    · split
      · trivial
      · exact h
    · trivial
    · trivial
  | streaming written =>
    simp only [blobStep]
    split
    · exact h
    · split
      · simp only [Digested, List.forall_mem_cons, Write.links]
        exact ⟨fun _ hx => absurd hx List.not_mem_nil, ⟨h name digest rfl, fun _ hx => absurd hx List.not_mem_nil⟩,
          fun _ hx => absurd hx List.not_mem_nil, fun _ hx => absurd hx List.not_mem_nil⟩
      · trivial
    · trivial
  | found | read | typed | writing | done => exact h

theorem digested_requestStep {s : Shared} {r : Request} (h : Digested r) (w : World) : Digested (requestStep site s r w).2 := by
  obtain ⟨call, stage⟩ := r
  cases stage with
  | writing todo outcome =>
    cases todo with
    | nil => trivial
    | cons write todo => exact (List.forall_mem_cons.1 h).2
  | _ =>
    cases call with
    | manifest name reference accept => exact digested_manifestStep site s w h
    | blob name digest rangeHeader head => exact digested_blobStep site s w h

/-! ## Links stay -/

/-- What was linked is a digest that the index has. -/
def Linked (s : Shared) : Prop := ∀ name digest, (name, digest) ∈ s.links → isDigest digest = true ∧ hasBlob name digest s.files = true

theorem Linked.congr {s s' : Shared} (h : Linked s) (hlinks : s'.links = s.links)
    (hindex : contentAt .index s'.files = contentAt .index s.files) : Linked s' := by
  intro name digest hlink
  rw [hlinks] at hlink
  rw [hasBlob_congr hindex]
  exact h name digest hlink

theorem Linked.perform {s : Shared} (h : Linked s) {w : World} {write : Write} (hdigests : ∀ link ∈ write.links, isDigest link.2 = true)
    (hspared : write = .enforceLimit → Spared site w.order s.files) : Linked (perform site w s write) := by
  cases write with
  | replace key content => exact h.congr rfl (contentAt_replace.trans (if_neg (by simp)))
  | enforceLimit => exact h.congr rfl (contentAt_of_spared (hspared rfl))
  | recordManifest name reference digest blobs =>
    intro n d hlink
    rw [files_recordManifest, hasBlob_recordManifest]
    rcases List.mem_append.1 hlink with hnew | hold
    · obtain ⟨d', hd', heq⟩ := List.mem_map.1 hnew
      obtain ⟨rfl, rfl⟩ := Prod.mk.inj heq
      have hdigest : isDigest d' = true := hdigests (name, d') (List.mem_map_of_mem hd')
      exact ⟨hdigest, .inr ⟨rfl, hd'⟩⟩
    · obtain ⟨hdigest, hblob⟩ := h n d hold
      exact ⟨hdigest, .inl hblob⟩
  | recordBlob name digest =>
    intro n d hlink
    rw [files_recordBlob, hasBlob_recordBlob]
    rcases List.mem_cons.1 hlink with hnew | hold
    · obtain ⟨rfl, rfl⟩ := Prod.mk.inj hnew
      have hdigest : isDigest d = true := hdigests (n, d) (List.mem_singleton_self _)
      exact ⟨hdigest, .inr ⟨rfl, rfl⟩⟩
    · obtain ⟨hdigest, hblob⟩ := h n d hold
      exact ⟨hdigest, .inl hblob⟩

theorem Linked.requestStep {s : Shared} (h : Linked s) {r : Request} (hdigested : Digested r) {w : World}
    (hspared : r.stage.enforces = true → Spared site w.order s.files) :
    Linked (requestStep site s r w).1 := by
  obtain ⟨call, stage⟩ := r
  cases stage with
  | writing todo outcome =>
    cases todo with
    | nil => exact h
    | cons write todo =>
      exact h.perform (List.forall_mem_cons.1 hdigested).1 fun henforce => hspared (henforce ▸ rfl)
  | _ => exact h.congr (links_requestStep rfl w) (contentAt_requestStep rfl w .index)

/-! ## Runs -/

theorem linked_outline (site : Site) : (registry site).Outline (fun s m => SparesIndex site s m) Linked fun _ r => Digested r where
  start _ _ h := absurd h List.not_mem_nil
  enter _ := trivial
  step hs hi hok := ⟨hs.shared.requestStep (hs.calls hi) (hok _ hi), digested_requestStep (hs.calls hi) _⟩
  others hs _ _ _ hj := hs.calls hj
  world hs hok := ⟨hs.shared.congr rfl (contentAt_of_spared hok), fun hi => hs.calls hi⟩

/-- A cached blob of the repository is answered in three steps: it is found, it belongs there, it is read. -/
theorem serves_of_hasBlob {s : Shared} {name digest : String} {content : Content} (hdigest : isDigest digest = true)
    (hblob : hasBlob name digest s.files = true) (hcontent : contentAt (.entry digest) s.files = some content) :
    Serves site s name digest content := by
  intro rangeHeader head worlds
  have hasked : alone site worlds 1 (s, ⟨.blob name digest rangeHeader head, .asked⟩) =
      ({ s with files := (lookUp digest none (worlds 0).now s.files).2 }, ⟨.blob name digest rangeHeader head, .looked true⟩) := by
    simp only [alone, requestStep, blobStep, hdigest, if_true, lookUp_ageless hcontent]
  have hlooked : alone site worlds 2 (s, ⟨.blob name digest rangeHeader head, .asked⟩) =
      ({ s with files := (lookUp digest none (worlds 0).now s.files).2 }, ⟨.blob name digest rangeHeader head, .linked⟩) := by
    rw [alone, hasked]
    simp only [requestStep, blobStep, hasBlob_congr contentAt_lookUp, hblob, and_self, if_true]
  rw [alone, hlooked]
  simp only [requestStep, blobStep, readBytes, contentAt_lookUp, hcontent, Option.map_some]

/-- In a run where the files older than the index are always enough for the budget, every blob that was linked to a
repository is known to belong there, and is served while it is cached. -/
theorem remembers_of_spared {moves : List (Move Call World (List Path))}
    (h : (registry site).machine.AllSteps (fun _ => SparesIndex site) moves) :
    (registry site).machine.AllStates (fun _ => Remembers site) moves := by
  refine Machine.AllSteps.allStates (fun moves hmoves name digest content hlink hcontent => ?_) h
  obtain ⟨hdigest, hblob⟩ := ((linked_outline site).run hmoves).shared name digest hlink
  exact ⟨hblob, serves_of_hasBlob hdigest hblob hcontent⟩

/-- A blob is downloaded, and linked an instant later. -/
def download : List (Move Call World (List Path)) :=
  [.step 0 ⟨2, [], .cut⟩, .step 0 ⟨2, [], .cut⟩, .step 0 ⟨2, [], .cut⟩, .step 0 ⟨1, [], .cut⟩, .step 0 ⟨1, [], .finished⟩,
    .step 0 ⟨1, [], .chunk [1]⟩, .step 0 ⟨1, [], .accepted⟩, .step 0 ⟨1, [], .cut⟩, .step 0 ⟨1, [], .cut⟩,
    .begin (.blob "app" firstDigest none false)]

/-- A manifest of ten bytes is fetched and written, and the budget is enforced. -/
def fetchManifest (i : ℕ) : List (Move Call World (List Path)) :=
  [.step i ⟨4, [], .cut⟩, .step i ⟨4, [], .cut⟩, .step i ⟨4, [], .document "" (List.replicate 10 2)⟩, .step i ⟨4, [], .cut⟩,
    .begin (.manifest "app" "latest" none)]

/-- The budget takes the blob, which is older than the index. -/
theorem remembers_of_spared_pulledOnce :
    (registry (mirror 105)).machine.AllStates (fun _ => Remembers (mirror 105)) (fetchManifest 1 ++ download) :=
  remembers_of_spared (by decide +kernel)

/-- The blob is asked for again before the manifest is fetched. -/
def pulledAgain : List (Move Call World (List Path)) :=
  fetchManifest 2 ++ .step 1 ⟨3, [], .cut⟩ :: .begin (.blob "app" firstDigest none false) :: download

/-- The blob was linked and is cached, but the budget took the index: the blob was read after it was written. -/
theorem pulledAgain_not_remembered : ¬ (registry (mirror 105)).machine.AllStates (fun _ => Remembers (mirror 105)) pulledAgain := by
  intro h
  have hlink : ("app", firstDigest) ∈ ((registry (mirror 105)).machine.state pulledAgain).shared.links ∧
      (contentAt (.entry firstDigest) ((registry (mirror 105)).machine.state pulledAgain).shared.files).isSome = true ∧
      hasBlob "app" firstDigest ((registry (mirror 105)).machine.state pulledAgain).shared.files = false := by
    decide +kernel
  obtain ⟨hlink, hcached, hforgotten⟩ := hlink
  obtain ⟨content, hcontent⟩ := Option.isSome_iff_exists.1 hcached
  exact Bool.noConfusion (hforgotten.symm.trans (h.now "app" firstDigest content hlink hcontent).1)

end OpenFish.Docker
