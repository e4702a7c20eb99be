/-
`get_manifest` between a client and an upstream that negotiates: one call after another, each answered with what the
upstream gives for its repository, reference and `Accept`. The cache knows only the repository and the reference.
-/
import OpenFish.Docker.Registry

namespace OpenFish.Docker

open Lib

/-! ## Calls in turn -/

/-- `expand_name`. -/
def expandName (hub : Bool) (defaultNamespace name : String) : String :=
  let name := String.ofList ((name.toList.dropWhile (· = '/')).rdropWhile (· = '/'))
  if '/' ∈ name.toList ∨ defaultNamespace = "" then name else if hub then defaultNamespace ++ "/" ++ name else name

/-- An upstream registry: the content type and the bytes of a repository's reference under an `Accept`. -/
structure Upstream where
  hub : Bool
  defaultNamespace : String
  manifest : String → String → Option String → String × Bytes

/-- A call of `get_manifest`, with the times of its steps and the directory walks that they meet. -/
structure Pull where
  name : String
  reference : String
  accept : Option String
  times : ℕ → Time := fun _ => 0
  orders : ℕ → List Path := fun _ => []

variable (site : Site) (up : Upstream)

namespace Pull

variable (p : Pull)

abbrev key : String := manifestKey p.name p.reference

/-- What the upstream answers. -/
def answer : String × Bytes := up.manifest (expandName up.hub up.defaultNamespace p.name) p.reference p.accept

/-- The content type of the answer, inferred where it has none. -/
def contentType : String :=
  if (p.answer up).1 = "" then inferManifestType site (p.answer up).2 else (p.answer up).1

/-- The digest of the answer. -/
def digest : String := if isDigest p.reference then p.reference else sha256Digest site (p.answer up).2

/-- What the client gets from the upstream itself. -/
def direct : Outcome := .manifest (p.answer up).2 (.str (p.contentType site up)) (p.digest site up)

def request : Request := ⟨.manifest p.name p.reference p.accept, .asked⟩

def worlds (n : ℕ) : World := ⟨p.times n, p.orders n, .document (p.answer up).1 (p.answer up).2⟩

end Pull

/-- `get_manifest`: all the steps of one call. -/
def getManifest (s : Shared) (p : Pull) : Stage × Shared :=
  let (s', r) := alone site (p.worlds up) 8 (s, p.request)
  (r.stage, s')

/-- Any number of calls, one after another. -/
def pulls : Machine Shared Pull Stage := ⟨⟨Dict.empty, [], []⟩, getManifest site up⟩

/-! ## Transparency -/

/-- Every call was answered as the upstream itself answers it. -/
def Transparent (log : List (Pull × Stage)) : Prop := ∀ e ∈ log, e.2 = .done (e.1.direct site up)

/-- The upstream's answer to the call can be cached, and the calls before it that share its entries asked for the same. -/
structure Agrees (log : List (Pull × Stage)) (s : Shared) (p : Pull) : Prop where
  /-- A manifest that is asked for by digest hashes to it. -/
  named : isDigest p.reference = true → Text.lower (sha256Digest site (p.answer up).2) = Text.lower p.reference
  /-- The digests in the manifest are texts. -/
  readable : (manifestBlobDigests site (p.answer up).2).isSome = true
  /-- An earlier call for the repository and the reference had the same answer, whatever it accepted. -/
  same : ∀ e ∈ log, e.1.key = p.key → e.1.answer up = p.answer up
  /-- No key is that of another's content type. -/
  apart : ∀ e ∈ log, metaKey e.1.key ≠ p.key ∧ e.1.key ≠ metaKey p.key
  /-- The content type was not evicted before the manifest, or is the one that the manifest has. -/
  typed : (contentAt (.entry p.key) s.files).isSome = true →
    (contentAt (.entry (metaKey p.key)) s.files).isSome = true ∨ p.contentType site up = inferManifestType site (p.answer up).2

instance (log : List (Pull × Stage)) (s : Shared) (p : Pull) : Decidable (Agrees site up log s p) :=
  decidable_of_iff ((isDigest p.reference = true → Text.lower (sha256Digest site (p.answer up).2) = Text.lower p.reference) ∧
    (manifestBlobDigests site (p.answer up).2).isSome = true ∧ (∀ e ∈ log, e.1.key = p.key → e.1.answer up = p.answer up) ∧
    (∀ e ∈ log, metaKey e.1.key ≠ p.key ∧ e.1.key ≠ metaKey p.key) ∧
    ((contentAt (.entry p.key) s.files).isSome = true → (contentAt (.entry (metaKey p.key)) s.files).isSome = true ∨
      p.contentType site up = inferManifestType site (p.answer up).2))
    ⟨fun ⟨named, readable, same, apart, typed⟩ => ⟨named, readable, same, apart, typed⟩,
      fun h => ⟨h.named, h.readable, h.same, h.apart, h.typed⟩⟩

/-! ## The steps of one call -/

variable {site : Site} {up : Upstream} {s : Shared} {p : Pull}

/-- A request that is done makes no more steps. -/
theorem alone_of_done {worlds : ℕ → World} {x y : Shared × Request} {n : ℕ} {outcome : Outcome}
    (h : alone site worlds n x = y) (hdone : y.2.stage = .done outcome) (m : ℕ) : alone site worlds (n + m) x = y := by
  induction m with
  | zero => exact h
  | succ m ih =>
    obtain ⟨s, call, stage⟩ := y
    cases hdone
    rw [← Nat.add_assoc, alone, ih]
    cases call <;> rfl

/-- A request that writes is done after its writes. -/
theorem alone_of_writing {worlds : ℕ → World} {x : Shared × Request} {n : ℕ} {call : Call} {todo : List Write} {outcome : Outcome}
    (h : (alone site worlds n x).2 = ⟨call, .writing todo outcome⟩) :
    (alone site worlds (n + todo.length + 1) x).2 = ⟨call, .done outcome⟩ := by
  induction todo generalizing n with
  | nil => rw [List.length_nil, Nat.add_zero, alone, h]; rfl
  | cons write todo ih =>
    have hnext : (alone site worlds (n + 1) x).2 = ⟨call, .writing todo outcome⟩ := by
      rw [alone, h]; rfl
    rw [List.length_cons, Nat.add_comm todo.length 1, ← Nat.add_assoc]
    exact ih hnext

/-- How long the cache may answer for the reference. -/
abbrev Pull.maxAge (p : Pull) : Option Time := if isDigest p.reference then none else some tagTtl

/-- A call that finds the manifest answers with it, and with the content type that is there. -/
theorem getManifest_hit {content : Content} (hhit : (lookUp p.key p.maxAge (p.times 0) s.files).1 = true)
    (hcontent : contentAt (.entry p.key) s.files = some content) :
    (getManifest site up s p).1 = .done (cachedManifest site p.reference content.read
      (((contentAt (.entry (metaKey p.key)) s.files).map (metaType site)).getD .null)) := by
  generalize hfiles : (lookUp p.key p.maxAge (p.times 0) s.files).2 = files
  have hsame (path : Path) : contentAt path files = contentAt path s.files := hfiles ▸ contentAt_lookUp
  have hfound : alone site (p.worlds up) 1 (s, p.request) =
      ({ s with files }, ⟨.manifest p.name p.reference p.accept, .found⟩) := by
    simp only [alone, Pull.request, requestStep, manifestStep, Pull.worlds, hhit, hfiles, if_true]
  have hread : alone site (p.worlds up) 2 (s, p.request) =
      ({ s with files }, ⟨.manifest p.name p.reference p.accept, .read content.read⟩) := by
    rw [alone, hfound]
    simp only [requestStep, manifestStep, readBytes, hsame, hcontent, Option.map_some]
  cases hmeta : contentAt (.entry (metaKey p.key)) s.files with
  | none =>
    have hdone : alone site (p.worlds up) 3 (s, p.request) = ({ s with files }, ⟨.manifest p.name p.reference p.accept,
        .done (cachedManifest site p.reference content.read .null)⟩) := by
      rw [alone, hread]
      simp only [requestStep, manifestStep, lookUp_missing ((hsame _).trans hmeta), Bool.false_eq_true, if_false]
    simp only [getManifest, alone_of_done hdone rfl 5, Option.map_none, Option.getD_none]
  | some metadata =>
    have htyped : alone site (p.worlds up) 3 (s, p.request) =
        ({ s with files := (lookUp (metaKey p.key) none (p.times 2) files).2 },
          ⟨.manifest p.name p.reference p.accept, .typed content.read⟩) := by
      rw [alone, hread]
      simp only [requestStep, manifestStep, Pull.worlds, lookUp_ageless ((hsame _).trans hmeta), if_true]
    have hdone : alone site (p.worlds up) 4 (s, p.request) =
        ({ s with files := (lookUp (metaKey p.key) none (p.times 2) files).2 }, ⟨.manifest p.name p.reference p.accept,
          .done (cachedManifest site p.reference content.read (metaType site metadata))⟩) := by
      rw [alone, htyped]
      simp only [requestStep, manifestStep, contentAt_lookUp, hsame, hmeta, Option.map_some, Option.getD_some]
    simp only [getManifest, alone_of_done hdone rfl 4, Option.map_some, Option.getD_some]

/-- A call that does not find the manifest answers with what the upstream gives. -/
theorem getManifest_miss (hconfigured : site.configured = true) (hmiss : (lookUp p.key p.maxAge (p.times 0) s.files).1 = false)
    (hnamed : isDigest p.reference = true → Text.lower (sha256Digest site (p.answer up).2) = Text.lower p.reference)
    (hreadable : (manifestBlobDigests site (p.answer up).2).isSome = true) :
    (getManifest site up s p).1 = .done (p.direct site up) := by
  obtain ⟨blobs, hblobs⟩ := Option.isSome_iff_exists.1 hreadable
  have hfetching : alone site (p.worlds up) 1 (s, p.request) =
      ({ s with files := (lookUp p.key p.maxAge (p.times 0) s.files).2 }, ⟨.manifest p.name p.reference p.accept, .fetching⟩) := by
    simp only [alone, Pull.request, requestStep, manifestStep, Pull.worlds, hmiss, Bool.false_eq_true, if_false, fetch,
      hconfigured, if_true]
  have hstored : (alone site (p.worlds up) 2 (s, p.request)).2 = ⟨.manifest p.name p.reference p.accept, .writing
      [.replace p.key (.bytes (p.answer up).2), .enforceLimit, .replace (metaKey p.key) (.metadata (p.contentType site up)),
        .enforceLimit, .recordManifest p.name p.reference (p.digest site up) blobs] (p.direct site up)⟩ := by
    have hmatches : ¬ (isDigest p.reference = true ∧
        Text.lower (sha256Digest site (p.answer up).2) ≠ Text.lower p.reference) := fun h => h.2 (hnamed h.1)
    rw [alone, hfetching]
    simp only [requestStep, manifestStep, Pull.worlds, storeManifest, if_neg hmatches, hblobs]
    rfl
  rw [getManifest]
  exact congrArg Request.stage (alone_of_writing hstored)

/-! ## What the entries hold -/

/-- The entry is the manifest of one of the calls, or its content type. -/
def FiledBy (site : Site) (up : Upstream) (log : List (Pull × Stage)) (key : String) (content : Content) : Prop :=
  ∃ e ∈ log, key = e.1.key ∧ content = .bytes (e.1.answer up).2 ∨
    key = metaKey e.1.key ∧ content = .metadata (e.1.contentType site up)

/-- Every entry, and every one that the request is about to write, meets `F`. -/
structure Files.Meets (F : String → Content → Prop) (files : Files) (r : Request) : Prop where
  entries : ∀ key content, contentAt (.entry key) files = some content → F key content
  writes : ∀ todo outcome, r.stage = .writing todo outcome → ∀ key content, .replace key content ∈ todo → F key content

theorem writes_storeManifest {F : String → Content → Prop} (hbody : F p.key (.bytes (p.answer up).2))
    (htype : F (metaKey p.key) (.metadata (p.contentType site up))) {todo : List Write} {outcome : Outcome}
    (h : storeManifest site p.name p.reference (p.answer up).1 (p.answer up).2 = .writing todo outcome) :
    ∀ key content, .replace key content ∈ todo → F key content := by
  have hputs : ∀ key content, Write.replace key content ∈ [Write.replace p.key (.bytes (p.answer up).2), .enforceLimit,
      .replace (metaKey p.key) (.metadata (p.contentType site up)), .enforceLimit] → F key content := by
    intro key content hmem
    simp only [List.mem_cons, Write.replace.injEq, reduceCtorEq, false_or, List.not_mem_nil, or_false] at hmem
    rcases hmem with ⟨rfl, rfl⟩ | ⟨rfl, rfl⟩
    · exact hbody
    · exact htype
  unfold storeManifest at h
  split at h
  · cases h
  · simp only at h
    split at h
    · obtain ⟨rfl, -⟩ := Stage.writing.inj h
      intro key content hmem
      rcases List.mem_append.1 hmem with hput | hrecord
      · exact hputs key content hput
      · cases List.mem_singleton.1 hrecord
    · obtain ⟨rfl, -⟩ := Stage.writing.inj h
      exact hputs

/-- A request that is not writing is about to write nothing. -/
theorem Files.Meets.idle {F : String → Content → Prop} {files : Files}
    (h : ∀ key content, contentAt (.entry key) files = some content → F key content) {r : Request}
    (hidle : r.stage.writes = false) : files.Meets F r := by
  refine ⟨h, fun todo outcome hstage => ?_⟩
  rw [hstage] at hidle
  cases hidle

theorem meets_requestStep {F : String → Content → Prop} (hbody : F p.key (.bytes (p.answer up).2))
    (htype : F (metaKey p.key) (.metadata (p.contentType site up))) {stage : Stage}
    (h : s.files.Meets F ⟨p.request.call, stage⟩) (n : ℕ) :
    (requestStep site s ⟨p.request.call, stage⟩ (p.worlds up n)).1.files.Meets F
      (requestStep site s ⟨p.request.call, stage⟩ (p.worlds up n)).2 := by
  cases stage with
  | writing todo outcome =>
    cases todo with
    | nil => exact .idle h.entries rfl
    | cons write todo =>
      refine ⟨fun key content hcontent => ?_, fun todo' outcome' hstage key content hmem => ?_⟩
      · cases write with
        | replace key' content' =>
          simp only [requestStep, files_replace, contentAt_replace] at hcontent
          split at hcontent
          · rename_i heq
            cases heq
            cases hcontent
            exact h.writes _ _ rfl _ _ (List.mem_cons_self ..)
          · exact h.entries key content hcontent
        | enforceLimit => exact h.entries key content (contentAt_enforceLimit hcontent)
        | recordManifest name reference digest blobs => exact h.entries key content (contentAt_recordManifest.symm.trans hcontent)
        | recordBlob name digest => exact h.entries key content (contentAt_recordBlob.symm.trans hcontent)
      · obtain ⟨rfl, -⟩ := Stage.writing.inj hstage
        exact h.writes _ _ rfl key content (List.mem_cons_of_mem _ hmem)
  | fetching => exact ⟨h.entries, fun _ _ hstage => writes_storeManifest hbody htype hstage⟩
  | asked =>
    have hhit (hit : Bool) : (if hit then Stage.found else fetch site "MANIFEST_UNKNOWN").writes = false := by
      cases hit
      · exact writes_fetch ..
      · rfl
    exact .idle (fun key content hcontent => h.entries key content (contentAt_lookUp.symm.trans hcontent)) (hhit _)
  | found =>
    simp only [requestStep, Pull.request, manifestStep]
    split
    · exact .idle h.entries rfl
    · exact .idle h.entries (writes_fetch ..)
  | read body =>
    refine .idle (fun key content hcontent => h.entries key content (contentAt_lookUp.symm.trans hcontent)) ?_
    simp only [requestStep, Pull.request, manifestStep]
    split <;> rfl
  | _ => exact .idle h.entries rfl

/-- All the steps of a call keep what the entries hold to what was filed, the call's own manifest included. -/
theorem meets_alone {F : String → Content → Prop} (hbody : F p.key (.bytes (p.answer up).2))
    (htype : F (metaKey p.key) (.metadata (p.contentType site up)))
    (h : ∀ key content, contentAt (.entry key) s.files = some content → F key content) (n : ℕ) :
    (alone site (p.worlds up) n (s, p.request)).1.files.Meets F (alone site (p.worlds up) n (s, p.request)).2 ∧
      (alone site (p.worlds up) n (s, p.request)).2.call = p.request.call := by
  induction n with
  | zero => exact ⟨.idle h rfl, rfl⟩
  | succ n ih =>
    rw [alone]
    generalize alone site (p.worlds up) n (s, p.request) = x at ih
    obtain ⟨s', call, stage⟩ := x
    obtain ⟨hmeets, rfl⟩ := ih
    exact ⟨meets_requestStep hbody htype hmeets n, call_requestStep ..⟩

theorem filed_getManifest {log : List (Pull × Stage)} {stage : Stage}
    (h : ∀ key content, contentAt (.entry key) s.files = some content → FiledBy site up log key content) :
    ∀ key content, contentAt (.entry key) (getManifest site up s p).2.files = some content →
      FiledBy site up ((p, stage) :: log) key content := by
  have hself : (p, stage) ∈ (p, stage) :: log := List.mem_cons_self ..
  refine (meets_alone (F := FiledBy site up ((p, stage) :: log)) ⟨_, hself, .inl ⟨rfl, rfl⟩⟩ ⟨_, hself, .inr ⟨rfl, rfl⟩⟩
    (fun key content hcontent => ?_) 8).1.entries
  obtain ⟨e, he, hfiled⟩ := h key content hcontent
  exact ⟨e, List.mem_cons_of_mem _ he, hfiled⟩

/-! ## Answers from the cache -/

theorem metaKey_inj {key key' : String} (h : metaKey key = metaKey key') : key = key' := by
  have hchars := congrArg String.toList h
  rw [metaKey, metaKey, String.toList_append, String.toList_append] at hchars
  exact String.toList_inj.1 (List.append_cancel_right hchars)

theorem inferManifestType_ne {body : Bytes} : inferManifestType site body ≠ "" := by
  have hdefault : defaultManifestType ≠ "" := by decide
  unfold inferManifestType
  split
  · split
    · split
      · exact hdefault
      · assumption
    · exact hdefault
  · exact hdefault

theorem contentType_ne : p.contentType site up ≠ "" := by
  unfold Pull.contentType
  split
  · exact inferManifestType_ne
  · assumption

/-- The content type that the call finds, or infers, is the upstream's. -/
theorem cachedManifest_direct {found : Json}
    (h : found = .str (p.contentType site up) ∨
      found = .null ∧ p.contentType site up = inferManifestType site (p.answer up).2) :
    cachedManifest site p.reference (p.answer up).2 found = p.direct site up := by
  rcases h with rfl | ⟨rfl, hinferred⟩
  · have htruthy : (Json.str (p.contentType site up)).truthy = true := decide_eq_true contentType_ne
    rw [cachedManifest, htruthy, if_pos rfl]
    rfl
  · rw [cachedManifest, Pull.direct, hinferred]
    rfl

/-- A call that agrees with the calls before it is answered as the upstream answers it. -/
theorem getManifest_direct (hconfigured : site.configured = true) {log : List (Pull × Stage)}
    (hfiled : ∀ key content, contentAt (.entry key) s.files = some content → FiledBy site up log key content)
    (h : Agrees site up log s p) : (getManifest site up s p).1 = .done (p.direct site up) := by
  cases hhit : (lookUp p.key p.maxAge (p.times 0) s.files).1 with
  | false => exact getManifest_miss hconfigured hhit h.named h.readable
  | true =>
    obtain ⟨content, hcontent⟩ := lookUp_hit hhit
    have hbody : content = .bytes (p.answer up).2 := by
      obtain ⟨e, he, ⟨hkey, rfl⟩ | ⟨hkey, -⟩⟩ := hfiled _ _ hcontent
      · rw [h.same e he hkey.symm]
      · exact absurd hkey.symm (h.apart e he).1
    rw [getManifest_hit hhit hcontent, hbody]
    refine congrArg Stage.done (cachedManifest_direct ?_)
    cases hmeta : contentAt (.entry (metaKey p.key)) s.files with
    | none =>
      have htyped := h.typed (by rw [hcontent]; rfl)
      rw [hmeta] at htyped
      exact .inr ⟨rfl, htyped.resolve_left Bool.false_ne_true⟩
    | some metadata =>
      obtain ⟨e, he, ⟨hkey, -⟩ | ⟨hkey, rfl⟩⟩ := hfiled _ _ hmeta
      · exact absurd hkey.symm (h.apart e he).2
      · have hsame := h.same e he (metaKey_inj hkey).symm
        exact .inl (by simp only [Option.map_some, Option.getD_some, metaType, Pull.contentType, hsame])

def listType : String := "application/vnd.docker.distribution.manifest.list.v2+json"

/-- A registry with a manifest list for those who accept one, and the manifest of an image. -/
def twoTypes : Upstream where
  hub := true
  defaultNamespace := "library"
  manifest _ _ accept := if accept = some listType then (listType, [1]) else (defaultManifestType, [2])

/-- A client that does not accept a list asks after one that does. -/
def mixedClients : List Pull :=
  [{ name := "nginx", reference := "latest", accept := none }, { name := "nginx", reference := "latest", accept := some listType }]

def Stage.body? : Stage → Option Bytes
  | .done (.manifest body _ _) => some body
  | _ => none

end OpenFish.Docker
