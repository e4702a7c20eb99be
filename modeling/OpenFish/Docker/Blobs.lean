/-
The blob cache holds what its digests say, and answers a blob for a repository only when the upstream served it there, or
a manifest that names it. A download that is cut off or does not match its digest writes nothing.
-/
import OpenFish.Docker.Registry

namespace OpenFish.Docker

open Lib

variable {site : Site}

/-! ## What the cache promises -/

/-- The upstream served the blob under the name, or a manifest whose config or layers name it. -/
def Belongs (site : Site) (served : List Served) (name digest : String) : Prop :=
  (∃ body, .blob name digest body ∈ served ∧ matchesDigest site digest body = true) ∨
    ∃ body blobs, .manifest name body ∈ served ∧ manifestBlobDigests site body = some blobs ∧ digest ∈ blobs

/-- Entries under SHA-256 digests hash to them, and the blobs that were answered from the cache belong to their
repositories, and hash to their SHA-256 digests too. -/
structure Sound (site : Site) (s : Scene Shared Request) : Prop where
  hashed : ∀ digest content, isDigest digest = true → isSha256 digest = true →
    contentAt (.entry digest) s.shared.files = some content → Text.lower (sha256Digest site content.read) = Text.lower digest
  answered : ∀ r ∈ s.calls, ∀ name digest content range, r.call.blob? = some (name, digest) →
    r.stage = .done (.cachedBlob content range) → Belongs site s.shared.served name digest ∧
      (isSha256 digest = true → Text.lower (sha256Digest site content) = Text.lower digest)

/-- A step of the request leaves what every file holds. -/
def Leaves (site : Site) (i : ℕ) (s : Scene Shared Request) : Move Call World (List Path) → Prop
  | .step j w => j = i → ∀ path,
    contentAt path ((registry site).next s (.step j w)).shared.files = contentAt path s.shared.files
  | _ => True

/-- The download ended before its last byte, or with bytes that are wrong for its digest. -/
def Failed (wrong : String → Bytes → Prop) (r : Request) : Prop :=
  ∃ name digest body whole, r.call.blob? = some (name, digest) ∧ r.stage = .done (.streamed body whole) ∧
    (whole = false ∨ wrong digest body)

/-- A download that failed has left the files as they were in all its steps. -/
def Discards (site : Site) (wrong : String → Bytes → Prop) (moves : List (Move Call World (List Path))) : Prop :=
  ∀ i r, ((registry site).machine.state moves).calls[i]? = some r → Failed wrong r →
    (registry site).machine.AllSteps (fun _ => Leaves site i) moves

/-! ## What a request is about to write -/

/-- The write is of what the upstream served. -/
def Justified (site : Site) (served : List Served) : Write → Prop
  | .replace key content => isDigest key = true → ∃ body, content = .bytes body ∧ matchesDigest site key body = true
  | .enforceLimit => True
  | .recordManifest name _ _ blobs => ∀ d ∈ blobs, Belongs site served name d
  | .recordBlob name digest => Belongs site served name digest

/-- What a request has read and is going to write is of what the upstream served. -/
def Reasonable (site : Site) (served : List Served) (r : Request) : Prop :=
  match r.stage with
  | .looked _ => ∀ name digest, r.call.blob? = some (name, digest) → isDigest digest = true
  | .linked => ∀ name digest, r.call.blob? = some (name, digest) → isDigest digest = true ∧ Belongs site served name digest
  | .done (.cachedBlob content _) => ∀ name digest, r.call.blob? = some (name, digest) →
    matchesDigest site digest content = true ∧ Belongs site served name digest
  | .writing todo outcome => (∀ write ∈ todo, Justified site served write) ∧
    match outcome with
    | .streamed body whole => whole = true ∧ ∀ name digest, r.call.blob? = some (name, digest) → matchesDigest site digest body = true
    | .cachedBlob _ _ => False
    | _ => True
  | _ => True

/-- The files hold what the upstream served. -/
structure Supplied (site : Site) (s : Shared) : Prop where
  entries : ∀ digest content, isDigest digest = true → contentAt (.entry digest) s.files = some content →
    ∃ body, content = .bytes body ∧ matchesDigest site digest body = true
  links : ∀ name digest, hasBlob name digest s.files = true → Belongs site s.served name digest

/-! ## What is served stays served -/

theorem Belongs.mono {served served' : List Served} {name digest : String} (h : Belongs site served name digest)
    (hsub : served ⊆ served') : Belongs site served' name digest := by
  rcases h with ⟨body, hbody, hmatches⟩ | ⟨body, blobs, hbody, hblobs, hmem⟩
  · exact .inl ⟨body, hsub hbody, hmatches⟩
  · exact .inr ⟨body, blobs, hsub hbody, hblobs, hmem⟩

theorem Justified.mono {served served' : List Served} {write : Write} (h : Justified site served write)
    (hsub : served ⊆ served') : Justified site served' write := by
  cases write with
  | replace key content => exact h
  | enforceLimit => trivial
  | recordManifest name reference digest blobs => exact fun d hd => (h d hd).mono hsub
  | recordBlob name digest => exact Belongs.mono h hsub

theorem Reasonable.mono {served served' : List Served} {r : Request} (h : Reasonable site served r)
    (hsub : served ⊆ served') : Reasonable site served' r := by
  unfold Reasonable at h ⊢
  split at h
  · exact h
  · exact fun name digest hcall => ⟨(h name digest hcall).1, (h name digest hcall).2.mono hsub⟩
  · exact fun name digest hcall => ⟨(h name digest hcall).1, (h name digest hcall).2.mono hsub⟩
  · exact ⟨fun write hwrite => (h.1 write hwrite).mono hsub, h.2⟩
  · trivial

/-- Files that are touched or evicted still hold what was served. -/
theorem Supplied.fewer {s s' : Shared} (h : Supplied site s) (hserved : s.served ⊆ s'.served)
    (hfiles : ∀ path content, contentAt path s'.files = some content → contentAt path s.files = some content) : Supplied site s' where
  entries digest content hdigest hcontent := h.entries digest content hdigest (hfiles _ _ hcontent)
  links name digest hblob := (h.links name digest (hasBlob_of_fewer (hfiles .index) hblob)).mono hserved

/-! ## One step -/

/-- What a step leads to: files, requests and what was served. -/
structure Keeps (site : Site) (s s' : Shared) (r : Request) : Prop where
  supplied : Supplied site s'
  served : s.served ⊆ s'.served
  reasonable : Reasonable site s'.served r

theorem Supplied.perform {s : Shared} (h : Supplied site s) {w : World} {write : Write} (hwrite : Justified site s.served write) :
    Supplied site (perform site w s write) := by
  cases write with
  | replace key content =>
    refine ⟨fun digest content' hdigest hcontent => ?_, fun name digest hblob => ?_⟩
    · rw [files_replace, contentAt_replace] at hcontent
      split at hcontent
      · rename_i heq
        cases heq
        cases hcontent
        exact hwrite hdigest
      · exact h.entries digest content' hdigest hcontent
    · rw [files_replace, hasBlob_congr (contentAt_replace.trans (if_neg (by simp)))] at hblob
      exact (h.links name digest hblob).mono fun _ hx => hx
  | enforceLimit => exact h.fewer (fun _ hx => hx) fun path content hcontent => contentAt_enforceLimit hcontent
  | recordManifest name reference digest blobs =>
    refine ⟨fun key content hkey hcontent => ?_, fun n d hblob => ?_⟩
    · rw [files_recordManifest, contentAt_recordManifest] at hcontent
      exact h.entries key content hkey hcontent
    · rcases hasBlob_recordManifest.1 hblob with hblob | ⟨rfl, hd⟩
      · exact h.links n d hblob
      · exact hwrite d hd
  | recordBlob name digest =>
    refine ⟨fun key content hkey hcontent => ?_, fun n d hblob => ?_⟩
    · rw [files_recordBlob, contentAt_recordBlob] at hcontent
      exact h.entries key content hkey hcontent
    · rcases hasBlob_recordBlob.1 hblob with hblob | ⟨rfl, rfl⟩
      · exact h.links n d hblob
      · exact hwrite

theorem mem_manifestKey (name reference : String) : '@' ∈ (manifestKey name reference).toList := by
  simp [manifestKey, String.toList_append]

theorem not_isDigest_manifestKey (name reference : String) : isDigest (manifestKey name reference) = false :=
  not_isDigest_of_at (mem_manifestKey name reference)

theorem not_isDigest_metaKey (name reference : String) : isDigest (metaKey (manifestKey name reference)) = false := by
  apply not_isDigest_of_at
  rw [metaKey, String.toList_append]
  exact List.mem_append_left _ (mem_manifestKey name reference)

/-- A manifest is not written under the digest of a blob, and links the blobs that it names. -/
theorem reasonable_storeManifest {served : List Served} {name reference contentType : String} {accept : Option String}
    {body : Bytes} (h : .manifest name body ∈ served) :
    Reasonable site served ⟨.manifest name reference accept, storeManifest site name reference contentType body⟩ := by
  unfold storeManifest
  split
  · trivial
  · have hkey (key : String) (hkey : isDigest key = false) (content : Content) : Justified site served (.replace key content) :=
      fun hdigest => Bool.noConfusion (hdigest.symm.trans hkey)
    have hputs (content content' : Content) : ∀ write ∈ [Write.replace (manifestKey name reference) content, .enforceLimit,
        .replace (metaKey (manifestKey name reference)) content', .enforceLimit], Justified site served write := by
      simp only [List.forall_mem_cons]
      exact ⟨hkey _ (not_isDigest_manifestKey name reference) content, trivial,
        hkey _ (not_isDigest_metaKey name reference) content', trivial, fun _ h => absurd h List.not_mem_nil⟩
    simp only
    split
    · rename_i blobs hblobs
      refine ⟨List.forall_mem_append.2 ⟨hputs _ _, List.forall_mem_singleton.2 fun d hd => ?_⟩, trivial⟩
      exact .inr ⟨body, blobs, h, hblobs, hd⟩
    · exact ⟨hputs _ _, trivial⟩

theorem reasonable_fetch {served : List Served} {call : Call} {code : String} : Reasonable site served ⟨call, fetch site code⟩ := by
  unfold fetch
  split
  · trivial
  · trivial

theorem Supplied.lookUp {s : Shared} (h : Supplied site s) (key : String) (maxAge : Option Time) (now : Time) :
    Supplied site { s with files := (lookUp key maxAge now s.files).2 } :=
  h.fewer (fun _ hx => hx) fun _ _ hcontent => contentAt_lookUp.symm.trans hcontent

theorem keeps_manifestStep {s : Shared} (h : Supplied site s) {name reference : String} {accept : Option String} {stage : Stage}
    (hr : Reasonable site s.served ⟨.manifest name reference accept, stage⟩) (w : World) :
    Keeps site s (manifestStep site name reference w s stage).1
      ⟨.manifest name reference accept, (manifestStep site name reference w s stage).2⟩ := by
  cases stage with
  | asked =>
    have hhit (hit : Bool) : Reasonable site s.served
        ⟨.manifest name reference accept, if hit then .found else fetch site "MANIFEST_UNKNOWN"⟩ := by
      cases hit
      · exact reasonable_fetch
      · trivial
    exact ⟨h.lookUp .., fun _ hx => hx, hhit _⟩
  | found =>
    simp only [manifestStep]
    split
    · exact ⟨h, fun _ hx => hx, trivial⟩
    · exact ⟨h, fun _ hx => hx, reasonable_fetch⟩
  | read body =>
    refine ⟨h.lookUp .., fun _ hx => hx, ?_⟩
    simp only [manifestStep]
    split
    · trivial
    · trivial
  | typed body => exact ⟨h, fun _ hx => hx, trivial⟩
  | fetching =>
    simp only [manifestStep]
    split
    · exact ⟨h.fewer (List.subset_cons_self ..) fun _ _ hcontent => hcontent, List.subset_cons_self ..,
        reasonable_storeManifest (List.mem_cons_self ..)⟩
    · exact ⟨h, fun _ hx => hx, trivial⟩
    · exact ⟨h, fun _ hx => hx, trivial⟩
  | looked | linked | streaming | writing | done => exact ⟨h, fun _ hx => hx, hr⟩

/-- The bytes of an entry are those that its digest names. -/
theorem Supplied.matches_of_read {s : Shared} (h : Supplied site s) {digest : String} {content : Bytes}
    (hdigest : isDigest digest = true) (hread : readBytes (.entry digest) s.files = some content) :
    matchesDigest site digest content = true := by
  obtain ⟨whole, hcontent, rfl⟩ := Option.map_eq_some_iff.1 hread
  obtain ⟨body, rfl, hmatches⟩ := h.entries digest whole hdigest hcontent
  exact hmatches

theorem keeps_blobStep {s : Shared} (h : Supplied site s) {name digest : String} {rangeHeader : Option String} {head : Bool}
    {stage : Stage} (hr : Reasonable site s.served ⟨.blob name digest rangeHeader head, stage⟩) (w : World) :
    Keeps site s (blobStep site name digest rangeHeader head w s stage).1
      ⟨.blob name digest rangeHeader head, (blobStep site name digest rangeHeader head w s stage).2⟩ := by
  cases stage with
  | asked =>
    simp only [blobStep]
    split
    · rename_i hdigest
      refine ⟨h.lookUp .., fun _ hx => hx, fun name' digest' hcall => ?_⟩
      cases hcall
      exact hdigest
    · exact ⟨h, fun _ hx => hx, trivial⟩
  | looked cached =>
    simp only [blobStep]
    split
    · rename_i hlinked
      refine ⟨h, fun _ hx => hx, fun name' digest' hcall => ?_⟩
      cases hcall
      exact ⟨hr name digest rfl, h.links name digest hlinked.2⟩
    · exact ⟨h, fun _ hx => hx, reasonable_fetch⟩
  | linked =>
    obtain ⟨hdigest, hbelongs⟩ := hr name digest rfl
    simp only [blobStep]
    split
    · rename_i content hread
      refine ⟨h, fun _ hx => hx, fun name' digest' hcall => ?_⟩
      cases hcall
      exact ⟨h.matches_of_read hdigest hread, hbelongs⟩
    · exact ⟨h, fun _ hx => hx, trivial⟩
  | fetching =>
    simp only [blobStep]
    split
    · split
      · exact ⟨h, fun _ hx => hx, trivial⟩
      · exact ⟨h, fun _ hx => hx, trivial⟩
    · exact ⟨h, fun _ hx => hx, trivial⟩
    · exact ⟨h, fun _ hx => hx, trivial⟩
  | streaming written =>
    simp only [blobStep]
    split
    · exact ⟨h, fun _ hx => hx, trivial⟩
    · refine ⟨h.fewer (List.subset_cons_self ..) fun _ _ hcontent => hcontent, List.subset_cons_self .., ?_⟩
      split
      · rename_i hmatches
        have hbelongs : Belongs site (.blob name digest written :: s.served) name digest :=
          .inl ⟨written, List.mem_cons_self .., hmatches⟩
        refine ⟨?_, rfl, fun name' digest' hcall => ?_⟩
        · simp only [List.forall_mem_cons]
          exact ⟨fun _ => ⟨written, rfl, hmatches⟩, hbelongs, trivial, fun _ hx => absurd hx List.not_mem_nil⟩
        · cases hcall
          exact hmatches
      · trivial
    · exact ⟨h, fun _ hx => hx, trivial⟩
  | found | read | typed | writing | done => exact ⟨h, fun _ hx => hx, hr⟩

/-- One step keeps the files, and what the request is about to write, to what was served. -/
theorem keeps_requestStep {s : Shared} (h : Supplied site s) {r : Request} (hr : Reasonable site s.served r) (w : World) :
    Keeps site s (requestStep site s r w).1 (requestStep site s r w).2 := by
  obtain ⟨call, stage⟩ := r
  cases stage with
  | writing todo outcome =>
    cases todo with
    | nil =>
      refine ⟨h, fun _ hx => hx, ?_⟩
      obtain ⟨-, houtcome⟩ := hr
      cases outcome with
      | cachedBlob content range => exact houtcome.elim
      | _ => trivial
    | cons write todo =>
      obtain ⟨hwrite, htodo⟩ := List.forall_mem_cons.1 hr.1
      refine ⟨h.perform hwrite, fun _ hx => by rwa [requestStep, served_perform], ?_⟩
      exact ⟨fun write' hwrite' => (served_perform site w s write).symm ▸ htodo write' hwrite', hr.2⟩
  | _ =>
    cases call with
    | manifest name reference accept => exact keeps_manifestStep h hr w
    | blob name digest rangeHeader head => exact keeps_blobStep h hr w

/-! ## Runs -/

theorem registry_outline : (registry site).Outline (fun _ _ => True) (Supplied site) fun s r => Reasonable site s.served r where
  start := ⟨fun _ _ _ h => (by cases h), fun _ _ h => (by cases h)⟩
  enter _ := trivial
  step hs hi _ :=
    have hkeeps := keeps_requestStep hs.shared (hs.calls hi) _
    ⟨hkeeps.supplied, hkeeps.reasonable⟩
  others hs hi _ _ hj := (hs.calls hj).mono (keeps_requestStep hs.shared (hs.calls hi) _).served
  world hs _ :=
    ⟨hs.shared.fewer (fun _ hx => hx) fun _ _ hcontent => contentAt_enforceLimit hcontent, fun hi => hs.calls hi⟩

theorem allSteps_true (site : Site) (moves : List (Move Call World (List Path))) :
    (registry site).machine.AllSteps (fun _ _ _ => True) moves :=
  .of_forall fun _ _ => trivial

/-- Every run leads to a sound state. -/
theorem sound (moves : List (Move Call World (List Path))) : Sound site ((registry site).machine.state moves) := by
  have hholds := registry_outline.run (allSteps_true site moves)
  refine ⟨fun digest content hdigest hsha hcontent => ?_, fun r hr name digest content range hcall hstage => ?_⟩
  · obtain ⟨body, rfl, hmatches⟩ := hholds.shared.entries digest content hdigest hcontent
    exact of_decide_eq_true hmatches hsha
  · obtain ⟨i, hi⟩ := List.mem_iff_getElem?.1 hr
    have hreasonable := hholds.calls hi
    unfold Reasonable at hreasonable
    rw [hstage] at hreasonable
    obtain ⟨hmatches, hbelongs⟩ := hreasonable name digest hcall
    exact ⟨hbelongs, of_decide_eq_true hmatches⟩

/-! ## Downloads that fail -/

/-- A request for a blob that has written nothing: it is neither writing, nor done unless its download failed. -/
def Unwritten (wrong : String → Bytes → Prop) (r : Request) : Prop :=
  r.call.blob? ≠ none ∧
    match r.stage with
    | .writing .. => False
    | .done _ => Failed wrong r
    | _ => True

theorem Failed.unwritten {wrong : String → Bytes → Prop} {r : Request} (h : Failed wrong r) : Unwritten wrong r := by
  obtain ⟨name, digest, body, whole, hcall, hstage, hfailed⟩ := h
  refine ⟨by rw [hcall]; exact Option.some_ne_none _, ?_⟩
  rw [hstage]
  exact ⟨name, digest, body, whole, hcall, hstage, hfailed⟩

/-- A request that has written nothing after a step had written nothing before, and did not in the step. -/
theorem unwritten_requestStep {s : Shared} {r : Request} (hr : Reasonable site s.served r) {w : World}
    (h : Unwritten (fun digest body => matchesDigest site digest body = false) (requestStep site s r w).2) :
    Unwritten (fun digest body => matchesDigest site digest body = false) r ∧
      ∀ path, contentAt path (requestStep site s r w).1.files = contentAt path s.files := by
  obtain ⟨hblob, hstage⟩ := h
  rw [call_requestStep] at hblob
  obtain ⟨call, stage⟩ := r
  cases stage with
  | writing todo outcome =>
    cases todo with
    | nil =>
      -- what it has written matched
      obtain ⟨name, digest, body, whole, hcall, hdone, hfailed⟩ := hstage
      cases hdone
      obtain ⟨hwhole, hmatches⟩ := hr.2
      rcases hfailed with hcut | hwrong
      · exact Bool.noConfusion (hcut.symm.trans hwhole)
      · exact Bool.noConfusion (hwrong.symm.trans (hmatches name digest hcall))
    | cons write todo => exact hstage.elim
  | done outcome =>
    have hsame : (requestStep site s ⟨call, .done outcome⟩ w).2 = ⟨call, .done outcome⟩ := by
      cases call <;> rfl
    rw [hsame] at hstage
    exact ⟨⟨hblob, hstage⟩, contentAt_requestStep rfl w⟩
  | _ => exact ⟨⟨hblob, trivial⟩, contentAt_requestStep rfl w⟩

theorem leaves_of_unwritten {i : ℕ} {moves : List (Move Call World (List Path))}
    (h : ∀ r, ((registry site).machine.state moves).calls[i]? = some r →
      Unwritten (fun digest body => matchesDigest site digest body = false) r) :
    (registry site).machine.AllSteps (fun _ => Leaves site i) moves := by
  induction moves with
  | nil => trivial
  | cons m moves ih =>
    have hholds := registry_outline.run (allSteps_true site moves)
    generalize hs : (registry site).machine.state moves = s at ih hholds
    rw [Machine.state_cons, Program.machine_step, hs] at h
    cases m with
    | begin call =>
      refine ⟨trivial, ih fun r hr => h r ?_⟩
      rw [Program.next, List.getElem?_append_left (List.getElem?_eq_some_iff.1 hr).1]
      exact hr
    | other order => exact ⟨trivial, ih h⟩
    | step j w =>
      show Leaves site i ((registry site).machine.state moves) (.step j w) ∧ _
      rw [hs]
      cases hj : s.calls[j]? with
      | none =>
        rw [Program.next_none _ hj] at h
        exact ⟨fun _ path => by rw [Program.next_none _ hj], ih h⟩
      | some r =>
        rw [Program.next_step _ hj] at h
        by_cases hij : j = i
        · subst hij
          have hlt : j < s.calls.length := (List.getElem?_eq_some_iff.1 hj).1
          obtain ⟨hbefore, hsame⟩ := unwritten_requestStep (hholds.calls hj) (h _ (List.getElem?_set_self hlt))
          refine ⟨fun _ path => ?_, ih fun r' hr' => ?_⟩
          · rw [Program.next_step _ hj]
            exact hsame path
          · cases hj.symm.trans hr'
            exact hbefore
        · refine ⟨fun hji => absurd hji hij, ih fun r' hr' => h r' ?_⟩
          exact (List.getElem?_set_ne hij).trans hr'

/-- In every run of any requests, whatever the upstream answers: the entries under SHA-256 digests hash to them, what is
answered from the cache belongs to the repository and hashes to its SHA-256 digest, and a download that was cut off, or
whose bytes do not match its SHA-256 digest, has left every file as it was. -/
theorem entries_match_digests (site : Site) (moves : List (Move Call World (List Path))) :
    (registry site).machine.AllStates (fun _ => Sound site) moves ∧
      Discards site (fun digest body => matchesDigest site digest body = false) moves := by
  refine ⟨Machine.AllSteps.allStates (fun moves _ => sound moves) (allSteps_true site moves), fun i r hi hfailed => ?_⟩
  refine leaves_of_unwritten fun r' hr' => ?_
  cases hi.symm.trans hr'
  exact hfailed.unwritten

/-! ## Digests of other algorithms -/

def md5Digest : String := "md5:00000000000000000000000000000000"

def md5Call : Call := .blob "app" md5Digest none false

/-- The moves of a download up to its last byte. -/
def md5Streamed (body : Bytes) : List (Move Call World (List Path)) :=
  [.step 0 ⟨0, [], .finished⟩, .step 0 ⟨0, [], .chunk body⟩, .step 0 ⟨0, [], .accepted⟩, .step 0 ⟨0, [], .cut⟩,
    .step 0 ⟨0, [], .cut⟩, .begin md5Call]

/-- The whole download. -/
def md5Download (body : Bytes) : List (Move Call World (List Path)) :=
  .step 0 ⟨0, [], .cut⟩ :: .step 0 ⟨0, [], .cut⟩ :: .step 0 ⟨0, [], .cut⟩ :: .step 0 ⟨0, [], .cut⟩ :: md5Streamed body

theorem isDigest_md5Digest : isDigest md5Digest = true := by decide

theorem isSha256_md5Digest : isSha256 md5Digest = false := by decide

theorem state_md5Streamed (body : Bytes) : (registry (mirror 0)).machine.state (md5Streamed body) =
    ⟨⟨Dict.empty, [.blob "app" md5Digest body], []⟩, [⟨md5Call, .writing [.replace md5Digest (.bytes body),
      .recordBlob "app" md5Digest, .enforceLimit] (.streamed body true)⟩]⟩ := by
  have hmatches : matchesDigest (mirror 0) md5Digest body = true := by simp [matchesDigest, isSha256_md5Digest]
  have hconfigured : (mirror 0).configured = true := rfl
  simp [md5Streamed, md5Call, Program.next, requestStep, blobStep, isDigest_md5Digest, lookUp, fetch,
    hconfigured, hmatches]

/-- Whatever it means that bytes match a digest, two downloads that differ do not both match, and neither is discarded. -/
theorem md5Download_not_discarded : ¬ ∃ named : String → Bytes → Prop,
    (∀ digest body body', named digest body → named digest body' → body = body') ∧
      ∀ moves, Discards (mirror 0) (fun digest body => ¬ named digest body) moves := by
  rintro ⟨named, hone, hdiscards⟩
  have hnamed (body : Bytes) : named md5Digest body := by
    by_contra hwrong
    have hdone : ((registry (mirror 0)).machine.state (md5Download body)).calls[0]? =
        some ⟨md5Call, .done (.streamed body true)⟩ := by
      simp only [md5Download, Machine.state_cons, Program.machine_step,
        state_md5Streamed, Program.next, List.getElem?_cons_zero, List.set_cons_zero, registry_step, requestStep]
    have hfailed : Failed (fun digest body => ¬ named digest body) ⟨md5Call, .done (.streamed body true)⟩ :=
      ⟨"app", md5Digest, body, true, rfl, rfl, .inr hwrong⟩
    obtain ⟨-, -, -, hleaves, -⟩ := hdiscards _ 0 _ hdone hfailed
    have hsame := hleaves rfl (.entry md5Digest)
    rw [state_md5Streamed] at hsame
    simp only [Program.next, List.getElem?_cons_zero, registry_step, requestStep, files_replace, contentAt_replace, if_true] at hsame
    cases hsame
  have hequal := hone md5Digest [1] [2] (hnamed [1]) (hnamed [2])
  cases hequal

end OpenFish.Docker
