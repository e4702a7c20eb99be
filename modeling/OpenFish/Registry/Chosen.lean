/-
The latest version that the registry computes, where nobody tagged one: the highest of the versions of the upstream, or of
those of the directory, and not of all of them where both have some.
-/
import OpenFish.Registry.Precedence
import OpenFish.Registry.WellFormed

namespace OpenFish.Registry

open Lib

variable {h : Host}

/-! ## What it is computed of -/

/-- A tag called `latest`, of one of these versions. -/
def usableLatest (versions : List String) (tags : Object) : Bool :=
  tags.any fun tag => tag.1 = Npm.latestTag && match tag.2 with
    | .str version => version ∈ versions
    | _ => false

/-- The versions that the registry has to choose `latest` of, if no tag says what it is: those of the upstream, those of the
directory, or all of them where both have some. -/
def candidates (own : Option Record) (document : Option Object) : Option (List String) :=
  let theirs := (document.elim [] objectVersions).map Prod.fst
  let sent : Dict String Json := document.elim .empty fun found => Dict.empty.update (Json.dictOrEmpty (Json.get found "dist-tags"))
  match own with
  | none => if theirs ≠ [] ∧ sent.entries = [] then some theirs else none
  | some record =>
    let ours := record.versions.entries.map Prod.fst
    if usableLatest ours record.distTags = true ∨ (theirs ≠ [] ∧ usableLatest (theirs ++ ours) sent.entries = true) then none
    else some (theirs ++ ours)

/-- Both the directory and the upstream have versions. -/
def Merged (own : Option Record) (document : Option Object) : Prop := own.isSome = true ∧ document.elim [] objectVersions ≠ []

/-! ## The directory -/

/-- The latest of a record is the highest of its versions. -/
def Computed (h : Host) (index : Index) : Prop :=
  ∀ e ∈ index.entries, highest h (e.2.versions.entries.map Prod.fst) = .ok e.2.latest

theorem allLatest_highest : ∀ {entries entries' : List (String × Record)}, allLatest h entries = .ok entries' →
    ∀ e ∈ entries', highest h (e.2.versions.entries.map Prod.fst) = .ok e.2.latest
  | [], entries', hok => by
    cases Except.ok.inj hok
    exact fun e he => absurd he List.not_mem_nil
  | (name, record) :: rest, entries', hok => by
    obtain ⟨first, hfirst, hok⟩ := ok_of_bind hok
    obtain ⟨more, hmore, hok⟩ := ok_of_bind hok
    cases Except.ok.inj hok
    rw [List.forall_mem_cons]
    refine ⟨?_, allLatest_highest hmore⟩
    unfold withLatest at hfirst
    cases hhighest : highest h (record.versions.entries.map Prod.fst) with
    | error why => rw [hhighest] at hfirst; cases hfirst
    | ok latest =>
      rw [hhighest] at hfirst
      cases Except.ok.inj hfirst
      exact hhighest

theorem addPublished_computed {index index' : Index} {e : String × Json} (hindex : Computed h index)
    (hok : addPublished h index e = .ok index') : Computed h index' := by
  unfold addPublished at hok
  split at hok
  · rename_i record published hget _
    cases happly : applyPublished h record published with
    | error why => rw [happly] at hok; cases hok
    | ok record' =>
      rw [happly] at hok
      cases Except.ok.inj hok
      have hrecord := hindex _ (Dict.get?_eq_some.1 hget)
      have hcomputed : highest h (record'.versions.entries.map Prod.fst) = .ok record'.latest := by
        obtain ⟨items, -, happly⟩ := ok_of_bind happly
        obtain ⟨stamps, -, happly⟩ := ok_of_bind happly
        obtain ⟨times, -, happly⟩ := ok_of_bind happly
        cases Except.ok.inj happly
        exact hrecord
      intro e' he'
      rcases Dict.mem_set he' with ⟨-, heq⟩ | hin
      · rw [heq]
        exact hcomputed
      · exact hindex e' hin
  · cases Except.ok.inj hok
    exact hindex

theorem localIndex_computed {files : Option (List Tarball)} {rows : List Hub.Item} {published : Object} {index : Index}
    (hok : localIndex h files rows published = .ok index) : Computed h index := by
  obtain ⟨tarballs, htarballs, hok⟩ := ok_of_bind hok
  obtain ⟨entries, hentries, hok⟩ := ok_of_bind hok
  refine foldlM_keeps (P := Computed h) (fun s a s' hs h => addPublished_computed hs h) (fun e he => ?_) hok
  rcases Dict.mem_update he with he | he
  · exact allLatest_highest hentries e he
  · exact absurd he List.not_mem_nil

/-- Where nobody tagged a version of the directory, its highest one is the latest. -/
theorem localTags_latest {record : Record} (hcomplete : record.Complete)
    (hnone : usableLatest (record.versions.entries.map Prod.fst) record.distTags = false) :
    (localTags record).get? Npm.latestTag = some (.str record.latest) := by
  unfold localTags
  simp only
  split
  · rename_i hhas
    rw [Dict.has_update, Dict.has_empty] at hhas
    obtain ⟨⟨name, value⟩, htag, heq⟩ := List.mem_map.1 (hhas.resolve_right Bool.false_ne_true)
    obtain ⟨hmem, hkeep⟩ := List.mem_filter.1 htag
    cases value with
    | str version =>
      unfold usableLatest at hnone
      rw [List.any_eq_false] at hnone
      exact absurd (Bool.and_eq_true_iff.2 ⟨decide_eq_true heq, decide_eq_true (Dict.has_iff.1 hkeep)⟩) (hnone _ hmem)
    | _ => cases hkeep
  · rw [Dict.get?_set, if_pos rfl, Mirrors.orNone, if_neg (hcomplete.text _ hcomplete.latest), Option.getD_some]

/-! ## What is served -/

theorem tagsOrLatest_empty {tags distTags : Dict String Json} {versions : List String} (hempty : tags.entries = [])
    (hok : tagsOrLatest h tags versions = .ok distTags) :
    ∃ latest, highest h versions = .ok latest ∧ distTags.get? Npm.latestTag = some (.str latest) := by
  unfold tagsOrLatest at hok
  rw [if_pos hempty] at hok
  cases hhighest : highest h versions with
  | error why => rw [hhighest] at hok; cases hok
  | ok latest =>
    rw [hhighest] at hok
    rw [← Except.ok.inj hok]
    exact ⟨latest, rfl, by rw [Dict.get?_set, if_pos rfl]⟩

/-- Where no tag says what it is, `latest` is the highest of the candidates, unless they are those of both sides. -/
theorem packument_latest {q : Query} {index : Index} {d : Packument} {error : Option String}
    (hindex : localIndex h q.files q.rows q.published = .ok index) (hok : packument h q = .ok (some d, error))
    (halone : ¬ Merged (index.get? q.name) q.document) {versions : List String}
    (hcandidates : candidates (index.get? q.name) q.document = some versions) :
    versions ≠ [] ∧ ∃ latest, highest h versions = .ok latest ∧ d.distTags.get? Npm.latestTag = some (.str latest) := by
  have hown : ∀ record, index.get? q.name = some record → record.Complete ∧
      highest h (record.versions.entries.map Prod.fst) = .ok record.latest := fun record hrecord =>
    ⟨localIndex_complete hindex _ (Dict.get?_eq_some.1 hrecord), localIndex_computed hindex _ (Dict.get?_eq_some.1 hrecord)⟩
  have hserved := packument_ok hindex hok
  generalize index.get? q.name = own at hserved hcandidates hown halone
  unfold candidates at hcandidates
  simp only at hcandidates
  cases hserved with
  | directory record hnone =>
    obtain ⟨hcomplete, hlatest⟩ := hown record rfl
    have htheirs : q.document.elim [] objectVersions = [] := by
      cases hdocument : q.document with
      | none => rfl
      | some document => exact hnone document hdocument
    rw [htheirs] at hcandidates
    simp only [List.map_nil, ne_eq, not_true_eq_false, false_and, or_false, List.nil_append] at hcandidates
    split at hcandidates
    · cases hcandidates
    · rename_i husable
      rw [Bool.not_eq_true] at husable
      rw [← Option.some.inj hcandidates]
      refine ⟨fun hnil => ?_, record.latest, hlatest, localTags_latest hcomplete husable⟩
      have hin := Dict.has_iff.1 hcomplete.latest
      rw [hnil] at hin
      exact List.not_mem_nil hin
  | @upstream document _ hdocument hrewrite =>
    rw [hdocument] at hcandidates
    have hspec := rewritePackument_ok hrewrite
    simp only at hcandidates
    split at hcandidates
    · rename_i hempty
      rw [← Option.some.inj hcandidates]
      exact ⟨hempty.1, tagsOrLatest_empty hempty.2 hspec.tags⟩
    · cases hcandidates
  | @both record document rewritten _ hdocument hrewrite hmerge =>
    refine absurd ⟨rfl, ?_⟩ halone
    rw [hdocument]
    exact (rewritePackument_ok hrewrite).some

/-! ## Semantic versions -/

/-- Where `latest` is computed of semantic versions, none of them has a higher precedence. -/
def Respectful (h : Host) (q : Query) : Prop :=
  ∀ index d error (versions : List SemVer), localIndex h q.files q.rows q.published = .ok index →
    packument h q = .ok (some d, error) → candidates (index.get? q.name) q.document = some (versions.map SemVer.text) →
    ∃ v ∈ versions, d.distTags.get? Npm.latestTag = some (.str v.text) ∧ ∀ w ∈ versions, ¬ v.Below w

/-- The `latest` that is computed of one side's versions has the highest core. A version above it is the release of the
prerelease that was taken, or another prerelease where one of the two has a hyphen in an identifier or build metadata. -/
theorem latest_highest_core {h : Host} (hdigits : AsciiDigits h.formats) (q : Query) {index : Index} {d : Packument}
    {error : Option String} (hindex : localIndex h q.files q.rows q.published = .ok index)
    (hok : packument h q = .ok (some d, error)) (halone : ¬ Merged (index.get? q.name) q.document) {versions : List SemVer}
    (hcandidates : candidates (index.get? q.name) q.document = some (versions.map SemVer.text)) :
    ∃ v ∈ versions, d.distTags.get? Npm.latestTag = some (.str v.text) ∧ ∀ w ∈ versions, v.Below w →
      v.SameCore w ∧ v.pre ≠ [] ∧ (w.pre = [] ∨ ¬ Regular v ∨ ¬ Regular w) := by
  obtain ⟨hne, latest, hhighest, htag⟩ := packument_latest hindex hok halone hcandidates
  have hsome : Npm.latestOf h.formats (versions.map SemVer.text) = some latest := by
    unfold highest at hhighest
    split at hhighest
    · rename_i found hfound
      rw [hfound, Except.ok.inj hhighest]
    · cases hhighest
  obtain ⟨hin, key, hkey, hmax⟩ := latestOf_some hsome hne
  obtain ⟨v, hv, rfl⟩ := List.mem_map.1 hin
  refine ⟨v, hv, htag, fun w hw hbelow => ?_⟩
  obtain ⟨key', hkey', hnot⟩ := hmax w.text (List.mem_map.2 ⟨w, hw, rfl⟩)
  exact above_highest hdigits hkey hkey' hnot hbelow

/-! ## Versions that are taken for more than they are -/

/-- A package that only the upstream has, with these versions and no tags. -/
def untagged (versions : List SemVer) : Query where
  name := "a"
  abbreviated := false
  files := some []
  rows := []
  published := []
  proxying := true
  answer := (some [("name", .str "a"), ("versions", .obj (versions.map fun v => (v.text, Json.obj [])))], none)

/-- A version without build metadata. -/
def plainVersion (pre : List Identifier) : SemVer := ⟨1, 0, 0, pre, [], fun _ hb => absurd hb List.not_mem_nil⟩

def release : SemVer := plainVersion []

def candidate : SemVer := plainVersion [.word "rc" (List.all_eq_true.1 (by decide)) (by decide), .number 1]

/-- `1.0.0-alpha-1`, which is read like `1.0.0-alpha.1`. -/
def hyphened : SemVer := plainVersion [.word "alpha-1" (List.all_eq_true.1 (by decide)) (by decide)]

def beta : SemVer :=
  plainVersion [.word "alpha" (List.all_eq_true.1 (by decide)) (by decide),
    .word "beta" (List.all_eq_true.1 (by decide)) (by decide)]

/-- `1.0.0-rc+9`, which is read like `1.0.0-rc.9`. -/
def built : SemVer where
  major := 1
  minor := 0
  patch := 0
  pre := [.word "rc" (List.all_eq_true.1 (by decide)) (by decide)]
  build := ["9"]
  build_chars := List.forall_mem_singleton.2 ⟨by decide, List.all_eq_true.1 (by decide)⟩

example : candidate.text = "1.0.0-rc.1" ∧ hyphened.text = "1.0.0-alpha-1" ∧ built.text = "1.0.0-rc+9" := by decide +kernel

theorem plainHost_asciiDigits : AsciiDigits plainHost.formats where
  isDigit _ _ := rfl
  decimal c hc := by
    show (if c.isDigit then some (c.toNat - 48) else none) = _
    rw [if_pos hc]
    rfl

theorem eq_ok_of_toOption {α : Type} {e : Except String α} {a : α} (hsome : e.toOption = some a) : e = .ok a := by
  cases e with
  | error why => cases hsome
  | ok found => rw [Option.some.inj hsome]

/-- What such a package is served with, if this is the version that comes out highest. -/
theorem untagged_served {versions : List SemVer} {latest : String}
    (hserved : ((rewritePackument plainHost [("name", .str "a"), ("versions", .obj (versions.map fun v => (v.text, Json.obj [])))] "a"
      false).toOption.bind id).isSome = true)
    (hcandidates : candidates none (untagged versions).document = some (versions.map SemVer.text))
    (hlatest : Npm.latestOf plainHost.formats (versions.map SemVer.text) = some latest) :
    ∃ d, packument plainHost (untagged versions) = .ok (some d, none) ∧ d.distTags.get? Npm.latestTag = some (.str latest) := by
  have hindex : localIndex plainHost (untagged versions).files (untagged versions).rows (untagged versions).published =
      .ok Dict.empty := by rfl
  obtain ⟨d, hd⟩ := Option.isSome_iff_exists.1 hserved
  obtain ⟨found, hfound, hsome⟩ := Option.bind_eq_some_iff.1 hd
  have hrewrite : rewritePackument plainHost
      [("name", .str "a"), ("versions", .obj (versions.map fun v => (v.text, Json.obj [])))] "a" false = .ok (some d) :=
    eq_ok_of_toOption (hfound.trans (congrArg some hsome))
  have hok := packument_upstream hindex (q := untagged versions) rfl rfl hrewrite
  obtain ⟨-, chosen, hhighest, htag⟩ := packument_latest hindex hok (fun hmerged => Bool.false_ne_true hmerged.1) hcandidates
  unfold highest at hhighest
  rw [hlatest] at hhighest
  rw [← Except.ok.inj hhighest] at htag
  exact ⟨d, hok, htag⟩

theorem get?_of_usableLatest {version : String} {tags : Dict String Json} (husable : usableLatest [version] tags.entries = true) :
    tags.get? Npm.latestTag = some (.str version) := by
  obtain ⟨⟨name, value⟩, htag, husable⟩ := List.any_eq_true.1 husable
  obtain ⟨hname, hversion⟩ := Bool.and_eq_true_iff.1 husable
  rw [Dict.get?_eq_some, ← of_decide_eq_true hname]
  cases value with
  | str found =>
    rw [← List.mem_singleton.1 (of_decide_eq_true hversion)]
    exact htag
  | _ => cases hversion

/-- The upstream has `1.0.0` and `3.0.0` and tags the latter `next`; the directory has a tarball of `2.0.0`. -/
def surpassed : Query where
  name := "a"
  abbreviated := false
  files := some [⟨⟨["a-2.0.0.tgz"], 1, "1 B", "2026-01-01", none⟩, none, 1, "", ""⟩]
  rows := []
  published := []
  proxying := true
  answer := (some [("name", .str "a"), ("dist-tags", .obj [("next", .str "3.0.0")]),
    ("versions", .obj [("1.0.0", .obj []), ("3.0.0", .obj [])])], none)

/-- A release without build metadata. -/
def plainRelease (major : Nat) : SemVer := ⟨major, 0, 0, [], [], fun _ hb => absurd hb List.not_mem_nil⟩

/-- The highest version of the directory is taken over a higher one of the upstream. -/
theorem surpassed_served : ∃ index d, localIndex plainHost surpassed.files surpassed.rows surpassed.published = .ok index ∧
    packument plainHost surpassed = .ok (some d, none) ∧ d.distTags.get? Npm.latestTag = some (.str (plainRelease 2).text) ∧
    candidates (index.get? surpassed.name) surpassed.document =
      some ([plainRelease 1, plainRelease 3, plainRelease 2].map SemVer.text) := by
  have hfound : ((localIndex plainHost surpassed.files surpassed.rows surpassed.published).toOption.map fun index =>
      candidates (index.get? surpassed.name) surpassed.document) =
        some (some ([plainRelease 1, plainRelease 3, plainRelease 2].map SemVer.text)) := by decide +kernel
  have hserved : ((packument plainHost surpassed).toOption.bind fun found =>
      found.1.map fun d => (usableLatest [(plainRelease 2).text] d.distTags.entries, found.2)) = some (true, none) := by
    decide +kernel
  obtain ⟨index, hindex, hcandidates⟩ := Option.map_eq_some_iff.1 hfound
  obtain ⟨⟨served, error⟩, hok, hserved⟩ := Option.bind_eq_some_iff.1 hserved
  obtain ⟨d, hd, hlatest⟩ := Option.map_eq_some_iff.1 hserved
  cases hd
  obtain ⟨htag, rfl⟩ := Prod.mk.inj hlatest
  refine ⟨index, d, eq_ok_of_toOption hindex, eq_ok_of_toOption hok, get?_of_usableLatest htag, hcandidates⟩

/-- A prerelease is taken over its release, one identifier with a hyphen counts as two, and build metadata counts. A merged
packument does not even have the highest core. -/
theorem latest_not_respectful : ¬ Respectful plainHost (untagged [release, candidate]) ∧
    ¬ Respectful plainHost (untagged [hyphened, beta]) ∧ ¬ Respectful plainHost (untagged [candidate, built]) ∧
    ¬ Respectful plainHost surpassed := by
  have hindex : ∀ versions, localIndex plainHost (untagged versions).files (untagged versions).rows
      (untagged versions).published = .ok Dict.empty := fun _ => by rfl
  -- the version that is taken is the only one with its text, and the other one is above it
  have hrefute : ∀ w v : SemVer,
      (∃ d, packument plainHost (untagged [w, v]) = .ok (some d, none) ∧ d.distTags.get? Npm.latestTag = some (.str v.text)) →
      candidates none (untagged [w, v]).document = some ([w, v].map SemVer.text) → w.text ≠ v.text → v.Below w →
      ¬ Respectful plainHost (untagged [w, v]) := by
    rintro w v ⟨d, hok, htag⟩ hcandidates hne hbelow hrespectful
    obtain ⟨chosen, hchosen, hlatest, hmax⟩ := hrespectful _ d none [w, v] (hindex _) hok hcandidates
    rw [htag] at hlatest
    have heq : v.text = chosen.text := Json.str.inj (Option.some.inj hlatest)
    rcases List.mem_cons.1 hchosen with rfl | hchosen
    · exact hne heq.symm
    · rw [List.mem_singleton.1 hchosen] at hmax
      exact hmax w (List.mem_cons_self ..) hbelow
  refine ⟨hrefute release candidate ?_ ?_ ?_ ?_, hrefute hyphened beta ?_ ?_ ?_ ?_, hrefute candidate built ?_ ?_ ?_ ?_, ?_⟩
  · exact untagged_served (by decide +kernel) (by decide +kernel) (by decide +kernel)
  · decide +kernel
  · decide +kernel
  · exact .inr ⟨⟨rfl, rfl, rfl⟩, List.cons_ne_nil _ _, .inl rfl⟩
  · exact untagged_served (by decide +kernel) (by decide +kernel) (by decide +kernel)
  · decide +kernel
  · decide +kernel
  · exact .inr ⟨⟨rfl, rfl, rfl⟩, List.cons_ne_nil _ _, .inr (by decide +kernel)⟩
  · exact untagged_served (by decide +kernel) (by decide +kernel) (by decide +kernel)
  · decide +kernel
  · decide +kernel
  · exact .inr ⟨⟨rfl, rfl, rfl⟩, List.cons_ne_nil _ _, .inr (by decide +kernel)⟩
  · intro hrespectful
    obtain ⟨index, d, hindex, hok, htag, hcandidates⟩ := surpassed_served
    obtain ⟨chosen, hchosen, hlatest, hmax⟩ := hrespectful index d none _ hindex hok hcandidates
    rw [htag] at hlatest
    have heq : (plainRelease 2).text = chosen.text := Json.str.inj (Option.some.inj hlatest)
    have hmajor : chosen.major < 3 := by
      rcases List.mem_cons.1 hchosen with rfl | hchosen
      · exact by decide
      rcases List.mem_cons.1 hchosen with rfl | hchosen
      · exact absurd heq (by decide +kernel)
      · rw [List.mem_singleton.1 hchosen]
        decide
    exact hmax (plainRelease 3) (List.mem_cons_of_mem _ (List.mem_cons_self ..)) (.inl (.inl hmajor))

/-- Such a run, in which a prerelease is taken over the release above it. -/
theorem latest_highest_core_candidate : ∃ d, packument plainHost (untagged [release, candidate]) = .ok (some d, none) ∧
    ∃ v ∈ [release, candidate], d.distTags.get? Npm.latestTag = some (.str v.text) ∧ ∀ w ∈ [release, candidate], v.Below w →
      v.SameCore w ∧ v.pre ≠ [] ∧ (w.pre = [] ∨ ¬ Regular v ∨ ¬ Regular w) := by
  obtain ⟨d, hok, -⟩ := @untagged_served [release, candidate] candidate.text (by decide +kernel) (by decide +kernel)
    (by decide +kernel)
  have hindex : localIndex plainHost (untagged [release, candidate]).files (untagged [release, candidate]).rows
      (untagged [release, candidate]).published = .ok Dict.empty := by rfl
  refine ⟨d, hok, latest_highest_core plainHost_asciiDigits (untagged [release, candidate]) hindex hok
    (fun hmerged => Bool.false_ne_true hmerged.1) ?_⟩
  decide +kernel

end OpenFish.Registry
