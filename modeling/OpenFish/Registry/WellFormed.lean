/-
Which packuments are well formed: those of the local tarballs and the merged ones always; what only the upstream has is
served with the dist-tags that the upstream sends.
-/
import OpenFish.Lib.Effect
import OpenFish.Registry.Latest
import OpenFish.Registry.Local

namespace OpenFish.Registry

open Lib

variable {h : Host}

/-! ## What the claim is about -/

/-- A packument that npm can work with, of the local record and the upstream's document of a package. -/
structure WellFormed (h : Host) (q : Query) (own : Option Record) (document : Option Object) (d : Packument) : Prop where
  tags : ∀ tag ∈ d.distTags.entries, ∃ version, tag.2 = .str version ∧ d.versions.has version = true
  latest : d.distTags.has Npm.latestTag = true
  listed : ∀ record, own = some record → ∀ version, record.versions.has version = true → d.versions.has version = true
  upstream : ∀ found, document = some found → ∀ e ∈ objectVersions found, d.versions.has e.1 = true
  tarballs : ∀ record, own = some record → ∀ version v, record.versions.get? version = some v → v.file.isSome = true →
    d.versions.get? version = some (shaped q.abbreviated (localManifest h q.name v))
  urls : ∀ e ∈ d.versions.entries, tarballOf e.2 = .str "" ∨
    ∃ package filename, tarballOf e.2 = .str (h.tarballUrl package filename)

/-- The upstream, where it is asked. -/
def Query.document (q : Query) : Option Object := if q.proxying then q.answer.1 else none

/-- Whatever is served is well formed. -/
def Sound (h : Host) (q : Query) : Prop :=
  ∀ index d error, localIndex h q.files q.rows q.published = .ok index → packument h q = .ok (some d, error) →
    WellFormed h q (index.get? q.name) q.document d

/-- Where only the upstream has the package, its dist-tags are none, or are those of versions it has, with `latest`. -/
def Tagged (h : Host) (q : Query) : Prop :=
  ∀ index document, localIndex h q.files q.rows q.published = .ok index → index.get? q.name = none →
    q.document = some document → objectVersions document ≠ [] →
    (∀ e ∈ objectVersions document, (tarballBasename h (tarballOf e.2)).isOk = true) →
    let tags : Dict String Json := Dict.empty.update (Json.dictOrEmpty (Json.get document "dist-tags"))
    tags.entries = [] ∨
      (∀ tag ∈ tags.entries, ∃ version, tag.2 = .str version ∧ version ∈ (objectVersions document).map Prod.fst) ∧
        tags.has Npm.latestTag = true

/-! ## Manifests -/

theorem lookup_update : ∀ (others entries : Object) (key : String),
    (update entries others).lookup key = (others.reverse.lookup key).or (entries.lookup key)
  | [], entries, key => by simp [update]
  | e :: others, entries, key => by
    rw [update, List.foldl_cons]
    have ih := lookup_update others (Json.assign entries e.1 e.2) key
    rw [update] at ih
    rw [ih, Json.lookup_assign, List.reverse_cons, List.lookup_append, Option.or_assoc]
    congr 1
    obtain ⟨k, v⟩ := e
    by_cases hk : key = k
    · simp [hk]
    · simp [List.lookup_cons, beq_false_of_ne hk, hk]

theorem lookup_pick_of_not_mem {keys : List String} {key : String} (hkey : key ∉ keys) (entries : Object) :
    (pick keys entries).lookup key = none ∧ (pick keys entries).reverse.lookup key = none := by
  have hnot : ∀ e ∈ pick keys entries, e.1 ≠ key := by
    intro e he heq
    obtain ⟨k, hk, hsome⟩ := List.mem_filterMap.1 he
    obtain ⟨v, -, rfl⟩ := Option.map_eq_some_iff.1 hsome
    exact hkey (heq ▸ hk)
  rw [List.lookup_eq_none_iff, List.lookup_eq_none_iff]
  exact ⟨fun e he => bne_iff_ne.2 (hnot e he).symm, fun e he => bne_iff_ne.2 (hnot e (List.mem_reverse.1 he)).symm⟩

theorem lookup_pick_of_mem {key : String} (entries : Object) : ∀ {keys : List String}, key ∈ keys →
    (pick keys entries).lookup key = entries.lookup key
  | k :: keys, hkey => by
    unfold pick
    rw [List.filterMap_cons]
    by_cases heq : key = k
    · subst heq
      cases hfound : entries.lookup key with
      | some v => simp
      | none =>
        simp only [Option.map_none]
        by_cases hmem : key ∈ keys
        · have := lookup_pick_of_mem entries hmem
          unfold pick at this
          rw [this, hfound]
        · exact (lookup_pick_of_not_mem hmem entries).1
    · have hmem : key ∈ keys := (List.mem_cons.1 hkey).resolve_left heq
      have ih := lookup_pick_of_mem entries hmem
      unfold pick at ih
      cases entries.lookup k with
      | none => exact ih
      | some v => simp only [Option.map_some, List.lookup_cons, beq_false_of_ne heq]; exact ih

/-- The tarball stays where it is. -/
theorem tarballOf_abbreviated (manifest : Object) : tarballOf (abbreviatedManifest manifest) = tarballOf manifest := by
  have hdist : (abbreviatedManifest manifest).lookup "dist" = manifest.lookup "dist" := by
    unfold abbreviatedManifest
    rw [lookup_update, (lookup_pick_of_not_mem (by decide) manifest).2, Option.none_or,
      lookup_pick_of_mem manifest (by decide)]
  unfold tarballOf Json.get
  rw [hdist]

theorem tarballOf_shaped (abbreviated : Bool) (manifest : Object) :
    tarballOf (shaped abbreviated manifest) = tarballOf manifest := by
  unfold shaped
  split
  · exact tarballOf_abbreviated manifest
  · rfl

theorem tarballOf_localManifest (name : String) (v : LocalVersion) :
    tarballOf (localManifest h name v) = .str (v.file.elim "" fun file => h.tarballUrl name file.1) := by
  unfold tarballOf localManifest
  rw [Json.get_assign, if_pos rfl]
  rfl

theorem lookup_coreManifest_dist (name version : String) (source : Object) (dist : Json) :
    (coreManifest name version source ++ [("dist", dist)]).lookup "dist" = some dist := by
  unfold coreManifest
  simp [List.lookup_cons]

/-- A rewritten manifest has its tarball on this server. -/
theorem tarballOf_rewriteManifest {manifest rewritten : Object} {name version : String} {abbreviated : Bool}
    (hok : rewriteManifest h manifest name version abbreviated = .ok rewritten) :
    ∃ filename, tarballOf rewritten = .str (h.tarballUrl name filename) := by
  obtain ⟨found, -, hlast⟩ := ok_of_bind hok
  refine ⟨if found = "" then Npm.shortName name ++ "-" ++ version ++ ".tgz" else found, ?_⟩
  rw [← Except.ok.inj hlast]
  have hdist : ∀ dist : Json, (if abbreviated then
      update (coreManifest name version manifest ++ [("dist", dist)]) (pick abbreviatedExtraKeys manifest)
      else update manifest (coreManifest name version manifest ++ [("dist", dist)])).lookup "dist" = some dist := by
    intro dist
    split
    · rw [lookup_update, (lookup_pick_of_not_mem (by decide) manifest).2, Option.none_or, lookup_coreManifest_dist]
    · rw [lookup_update, List.reverse_append, List.reverse_singleton, List.singleton_append, List.lookup_cons_self,
        Option.some_or]
  unfold tarballOf Json.get
  rw [hdist, Option.getD_some, Json.dictOrEmpty, Json.entries?, Option.getD_some, lookup_update]
  rfl

theorem rewriteManifest_isOk (manifest : Object) (name version : String) (abbreviated : Bool) :
    (rewriteManifest h manifest name version abbreviated).isOk = (tarballBasename h (tarballOf manifest)).isOk := by
  unfold rewriteManifest tarballOf
  simp only [Bind.bind, Except.bind]
  cases tarballBasename h (Json.get (Json.dictOrEmpty (Json.get manifest "dist")) "tarball") <;> rfl

theorem rewriteAll_ok {name : String} {abbreviated : Bool} : ∀ {versions rewritten : List (String × Object)},
    rewriteAll h name abbreviated versions = .ok rewritten → rewritten.map Prod.fst = versions.map Prod.fst ∧
      ∀ e ∈ rewritten, ∃ filename, tarballOf e.2 = .str (h.tarballUrl name filename)
  | [], rewritten, hok => by
    cases Except.ok.inj hok
    exact ⟨rfl, fun e he => absurd he List.not_mem_nil⟩
  | (version, manifest) :: rest, rewritten, hok => by
    obtain ⟨first, hfirst, hok⟩ := ok_of_bind hok
    obtain ⟨more, hmore, hlast⟩ := ok_of_bind hok
    obtain ⟨hkeys, hurls⟩ := rewriteAll_ok hmore
    rw [← Except.ok.inj hlast]
    refine ⟨by rw [List.map_cons, List.map_cons, hkeys], ?_⟩
    rw [List.forall_mem_cons]
    exact ⟨tarballOf_rewriteManifest hfirst, hurls⟩

theorem rewriteAll_isOk (name : String) (abbreviated : Bool) : ∀ {versions : List (String × Object)},
    (rewriteAll h name abbreviated versions).isOk = true ↔
      ∀ e ∈ versions, (tarballBasename h (tarballOf e.2)).isOk = true
  | [] => ⟨fun _ e he => absurd he List.not_mem_nil, fun _ => rfl⟩
  | (version, manifest) :: rest => by
    rw [List.forall_mem_cons, ← rewriteAll_isOk name abbreviated,
      ← rewriteManifest_isOk manifest name version abbreviated]
    rw [rewriteAll]
    simp only [Bind.bind, Except.bind]
    cases rewriteManifest h manifest name version abbreviated with
    | error why => simp [Except.isOk, Except.toBool]
    | ok first => cases rewriteAll h name abbreviated rest <;> simp [Except.isOk, Except.toBool, pure, Except.pure]

/-! ## The index -/

theorem highest_mem {versions : List String} {version : String} (hok : highest h versions = .ok version) (hne : versions ≠ []) :
    version ∈ versions := by
  unfold highest at hok
  split at hok
  · rename_i found hfound
    cases Except.ok.inj hok
    exact (latestOf_some hfound hne).1
  · cases hok

/-- A record has a version, and none without a text. -/
structure Record.Versioned (record : Record) : Prop where
  some : record.versions.entries ≠ []
  text : ∀ version, record.versions.has version = true → version ≠ ""

def Versioned (index : Index) : Prop := ∀ e ∈ index.entries, e.2.Versioned

theorem versioned_set {index : Index} {name : String} {record : Record} (hindex : Versioned index)
    (hrecord : record.Versioned) : Versioned (index.set name record) := by
  intro e he
  rcases Dict.mem_set he with ⟨-, heq⟩ | hin
  · rw [heq]
    exact hrecord
  · exact hindex e hin

theorem versioned_of_set {record : Record} {versions : Dict String LocalVersion} {version : String} {v : LocalVersion}
    (hold : ∀ other, versions.has other = true → other ≠ "") (hversion : version ≠ "")
    (hset : record.versions = versions.set version v) : record.Versioned := by
  refine ⟨?_, ?_⟩
  · rw [hset]
    intro hempty
    have hhas : (versions.set version v).has version = true := Dict.has_set.2 (.inl rfl)
    rw [Dict.has_iff, hempty] at hhas
    exact absurd hhas List.not_mem_nil
  · intro other hother
    rw [hset, Dict.has_set] at hother
    rcases hother with rfl | hother
    · exact hversion
    · exact hold other hother

theorem addTarball_versioned {index index' : Index} {t : Tarball} (hindex : Versioned index)
    (hok : addTarball h index t = .ok index') : Versioned index' := by
  unfold addTarball at hok
  simp only at hok
  split at hok
  · cases Except.ok.inj hok
    exact hindex
  · rename_i hnamed
    have hold : ∀ other, ((index.get? (identity h t).1).getD .empty).versions.has other = true → other ≠ "" := by
      intro other hother
      cases hget : index.get? (identity h t).1 with
      | none =>
        rw [hget, Option.getD_none, Record.empty, Dict.has_empty] at hother
        exact absurd hother Bool.false_ne_true
      | some record =>
        rw [hget] at hother
        exact (hindex _ (Dict.get?_eq_some.1 hget)).text other hother
    have hversion : (identity h t).2 ≠ "" := fun hempty => hnamed (.inr hempty)
    split at hok
    · obtain ⟨tags, -, hok⟩ := ok_of_bind hok
      rw [← Except.ok.inj hok]
      exact versioned_set hindex (versioned_of_set hold hversion rfl)
    · rw [← Except.ok.inj hok]
      exact versioned_set hindex (versioned_of_set hold hversion rfl)

theorem addEntry_versioned {index : Index} {e : Hub.Entry} (hindex : Versioned index) : Versioned (addEntry h index e) := by
  have hversion : (Mirrors.orNone e.version).getD Npm.latestTag ≠ "" := by
    unfold Mirrors.orNone
    split
    · decide
    · assumption
  unfold addEntry
  split
  · exact hindex
  · have hnone : ∀ other, (Dict.empty : Dict String LocalVersion).has other = true → other ≠ "" := fun other hother => by
      rw [Dict.has_empty] at hother
      exact absurd hother Bool.false_ne_true
    exact versioned_set hindex (versioned_of_set hnone hversion rfl)

/-- What the index has after its loops: versions, and the highest of them. -/
structure Record.Complete (record : Record) : Prop extends record.Versioned where
  latest : record.versions.has record.latest = true

theorem allLatest_complete : ∀ {entries entries' : List (String × Record)}, (∀ e ∈ entries, e.2.Versioned) →
    allLatest h entries = .ok entries' → ∀ e ∈ entries', e.2.Complete
  | [], entries', _, hok => by
    cases Except.ok.inj hok
    exact fun e he => absurd he List.not_mem_nil
  | (name, record) :: rest, entries', hall, hok => by
    obtain ⟨first, hfirst, hok⟩ := ok_of_bind hok
    obtain ⟨more, hmore, hok⟩ := ok_of_bind hok
    cases Except.ok.inj hok
    obtain ⟨hrecord, hrest⟩ := List.forall_mem_cons.1 hall
    rw [List.forall_mem_cons]
    refine ⟨?_, allLatest_complete hrest hmore⟩
    unfold withLatest at hfirst
    cases hhighest : highest h (record.versions.entries.map Prod.fst) with
    | error why => rw [hhighest] at hfirst; cases hfirst
    | ok latest =>
      rw [hhighest] at hfirst
      cases Except.ok.inj hfirst
      have hne : record.versions.entries.map Prod.fst ≠ [] := fun hnil => hrecord.some (List.map_eq_nil_iff.1 hnil)
      exact ⟨⟨hrecord.some, hrecord.text⟩, Dict.has_iff.2 (highest_mem hhighest hne)⟩

theorem addPublished_complete {index index' : Index} {e : String × Json} (hindex : ∀ e ∈ index.entries, e.2.Complete)
    (hok : addPublished h index e = .ok index') : ∀ e ∈ index'.entries, e.2.Complete := by
  unfold addPublished at hok
  split at hok
  · rename_i record published hget _
    cases happly : applyPublished h record published with
    | error why => rw [happly] at hok; cases hok
    | ok record' =>
      rw [happly] at hok
      cases Except.ok.inj hok
      have hrecord := hindex _ (Dict.get?_eq_some.1 hget)
      have hcomplete : record'.Complete := by
        obtain ⟨items, -, happly⟩ := ok_of_bind happly
        obtain ⟨stamps, -, happly⟩ := ok_of_bind happly
        obtain ⟨times, -, happly⟩ := ok_of_bind happly
        cases Except.ok.inj happly
        exact ⟨⟨hrecord.some, hrecord.text⟩, hrecord.latest⟩
      intro e' he'
      rcases Dict.mem_set he' with ⟨-, heq⟩ | hin
      · rw [heq]
        exact hcomplete
      · exact hindex e' hin
  · cases Except.ok.inj hok
    exact hindex

theorem localIndex_complete {files : Option (List Tarball)} {rows : List Hub.Item} {published : Object} {index : Index}
    (hok : localIndex h files rows published = .ok index) : ∀ e ∈ index.entries, e.2.Complete := by
  obtain ⟨tarballs, htarballs, hok⟩ := ok_of_bind hok
  obtain ⟨entries, hentries, hok⟩ := ok_of_bind hok
  have hfirst : Versioned tarballs := foldlM_keeps (P := Versioned) (fun s a s' hs h => addTarball_versioned hs h)
    (fun e he => absurd he List.not_mem_nil) htarballs
  have hlisted : ∀ (l : List Hub.Entry) (index : Index), Versioned index → Versioned (l.foldl (addEntry h) index) := by
    intro l
    induction l with
    | nil => exact fun index hindex => hindex
    | cons e l ih => exact fun index hindex => ih _ (addEntry_versioned hindex)
  refine foldlM_keeps (P := fun index : Index => ∀ e ∈ index.entries, e.2.Complete)
    (fun s a s' hs h => addPublished_complete hs h) ?_ hok
  intro e he
  rcases Dict.mem_update he with he | he
  · exact allLatest_complete (hlisted _ _ hfirst) hentries e he
  · exact absurd he List.not_mem_nil

/-! ## The local packument -/

theorem has_localPackument {name : String} {abbreviated : Bool} {record : Record} (version : String) :
    (localPackument h name abbreviated record).versions.has version = record.versions.has version := by
  unfold localPackument Dict.has
  rw [Dict.get?_image, Option.isSome_map]

/-- The tags that are kept and the default one stand for versions. -/
theorem standing_default {record : Record} {latest : String} (hlatest : record.versions.has latest = true)
    (tags : Dict String Json)
    (htags : ∀ tag ∈ tags.entries, ∃ version, tag.2 = .str version ∧ record.versions.has version = true) :
    (∀ tag ∈ (if tags.has Npm.latestTag then tags else tags.set Npm.latestTag (.str latest)).entries,
      ∃ version, tag.2 = .str version ∧ record.versions.has version = true) ∧
      (if tags.has Npm.latestTag then tags else tags.set Npm.latestTag (.str latest)).has Npm.latestTag = true := by
  by_cases hhas : tags.has Npm.latestTag = true
  · rw [if_pos hhas]
    exact ⟨htags, hhas⟩
  · rw [if_neg hhas]
    refine ⟨fun tag htag => ?_, Dict.has_set.2 (.inl rfl)⟩
    rcases Dict.mem_set htag with ⟨-, heq⟩ | hin
    · exact ⟨latest, heq, hlatest⟩
    · exact htags tag hin

theorem mem_update_filter {tags : List (String × Json)} {p : String × Json → Bool} {tag : String × Json}
    (h : tag ∈ (Dict.empty.update (tags.filter p) : Dict String Json).entries) : p tag = true := by
  rcases Dict.mem_update h with hin | hin
  · exact (List.mem_filter.1 hin).2
  · exact absurd hin List.not_mem_nil

theorem localTags_standing {record : Record} (hcomplete : record.Complete) :
    (∀ tag ∈ (localTags record).entries, ∃ version, tag.2 = .str version ∧ record.versions.has version = true) ∧
      (localTags record).has Npm.latestTag = true := by
  have hlatest : (Mirrors.orNone record.latest).getD Npm.latestTag = record.latest := by
    rw [Mirrors.orNone, if_neg (hcomplete.text _ hcomplete.latest), Option.getD_some]
  unfold localTags
  rw [hlatest]
  refine standing_default hcomplete.latest _ fun tag htag => ?_
  have hkeep := mem_update_filter htag
  cases heq : tag.2 with
  | str version =>
    simp only [heq] at hkeep
    exact ⟨version, rfl, hkeep⟩
  | _ =>
    simp only [heq] at hkeep
    cases hkeep

theorem urls_localPackument {name : String} {abbreviated : Bool} {record : Record} :
    ∀ e ∈ (localPackument h name abbreviated record).versions.entries, tarballOf e.2 = .str "" ∨
      ∃ package filename, tarballOf e.2 = .str (h.tarballUrl package filename) := by
  intro e he
  obtain ⟨v, -, rfl⟩ := List.mem_map.1 he
  rw [tarballOf_shaped, tarballOf_localManifest]
  cases v.2.file with
  | none => exact .inl rfl
  | some file => exact .inr ⟨name, file.1, rfl⟩

theorem get?_localPackument {name : String} {abbreviated : Bool} {record : Record} {version : String} {v : LocalVersion}
    (hv : record.versions.get? version = some v) :
    (localPackument h name abbreviated record).versions.get? version = some (shaped abbreviated (localManifest h name v)) := by
  unfold localPackument
  rw [Dict.get?_image, hv, Option.map_some]

/-- What the directory alone gives is well formed. -/
theorem wellFormed_local {q : Query} {record : Record} (hcomplete : record.Complete) {document : Option Object}
    (hnone : ∀ found, document = some found → objectVersions found = []) :
    WellFormed h q (some record) document (localPackument h q.name q.abbreviated record) := by
  obtain ⟨htags, hlatest⟩ := localTags_standing hcomplete
  refine ⟨fun tag htag => ?_, hlatest, ?_, ?_, ?_, urls_localPackument⟩
  · obtain ⟨version, heq, hhas⟩ := htags tag htag
    exact ⟨version, heq, by rw [has_localPackument, hhas]⟩
  · intro other hother version hhas
    cases hother
    rw [has_localPackument, hhas]
  · intro found hfound e he
    rw [hnone found hfound] at he
    exact absurd he List.not_mem_nil
  · intro other hother version v hv _
    cases hother
    exact get?_localPackument hv

/-! ## The rewritten packument -/

/-- What a rewritten packument is made of. -/
structure Rewritten (h : Host) (document : Object) (d : Packument) : Prop where
  some : objectVersions document ≠ []
  basenames : ∀ e ∈ objectVersions document, (tarballBasename h (tarballOf e.2)).isOk = true
  versions : ∀ version, d.versions.has version = true ↔ version ∈ (objectVersions document).map Prod.fst
  urls : ∀ e ∈ d.versions.entries, ∃ package filename, tarballOf e.2 = .str (h.tarballUrl package filename)
  tags : tagsOrLatest h (Dict.empty.update (Json.dictOrEmpty (Json.get document "dist-tags")))
    ((objectVersions document).map Prod.fst) = .ok d.distTags

theorem rewritePackument_ok {document : Object} {name : String} {abbreviated : Bool} {d : Packument}
    (hok : rewritePackument h document name abbreviated = .ok (some d)) : Rewritten h document d := by
  obtain ⟨versions, hversions, hok⟩ := ok_of_bind hok
  obtain ⟨hkeys, hurls⟩ := rewriteAll_ok hversions
  have hbasenames := (rewriteAll_isOk _ abbreviated).1 (congrArg Except.isOk hversions)
  split at hok
  · cases Except.ok.inj hok
  · rename_i hne
    obtain ⟨distTags, htags, hok⟩ := ok_of_bind hok
    rw [hkeys] at htags
    cases Option.some.inj (Except.ok.inj hok)
    refine ⟨?_, hbasenames, fun version => ?_, fun e he => ?_, htags⟩
    · intro hempty
      rw [hempty, List.map_nil, List.map_eq_nil_iff] at hkeys
      exact hne hkeys
    · rw [Dict.has_update, hkeys, Dict.has_empty]
      simp
    · rcases Dict.mem_update he with he | he
      · obtain ⟨filename, hurl⟩ := hurls e he
        exact ⟨_, filename, hurl⟩
      · exact absurd he List.not_mem_nil

theorem rewritePackument_none {document : Object} {name : String} {abbreviated : Bool}
    (hok : rewritePackument h document name abbreviated = .ok none) : objectVersions document = [] := by
  obtain ⟨versions, hversions, hok⟩ := ok_of_bind hok
  split at hok
  · rename_i hnil
    have hkeys := (rewriteAll_ok hversions).1
    rw [hnil] at hkeys
    exact List.map_eq_nil_iff.1 hkeys.symm
  · obtain ⟨distTags, -, hok⟩ := ok_of_bind hok
    cases Except.ok.inj hok

/-- The dist-tags of an upstream that sends none, or usable ones. -/
theorem tagsOrLatest_standing {tags distTags : Dict String Json} {versions : List String}
    (hok : tagsOrLatest h tags versions = .ok distTags) (hne : versions ≠ []) :
    ((∀ tag ∈ distTags.entries, ∃ version, tag.2 = .str version ∧ version ∈ versions) ∧ distTags.has Npm.latestTag = true) ↔
      (tags.entries = [] ∨
        (∀ tag ∈ tags.entries, ∃ version, tag.2 = .str version ∧ version ∈ versions) ∧ tags.has Npm.latestTag = true) := by
  unfold tagsOrLatest at hok
  split at hok
  · rename_i hempty
    cases hhighest : highest h versions with
    | error why => rw [hhighest] at hok; cases hok
    | ok latest =>
      rw [hhighest] at hok
      rw [← Except.ok.inj hok]
      refine ⟨fun _ => .inl hempty, fun _ => ⟨fun tag htag => ?_, Dict.has_set.2 (.inl rfl)⟩⟩
      rcases Dict.mem_set htag with ⟨-, heq⟩ | hin
      · exact ⟨latest, heq, highest_mem hhighest hne⟩
      · exact absurd hin List.not_mem_nil
  · rename_i hsome
    cases Except.ok.inj hok
    exact ⟨.inr, fun hor => hor.resolve_left hsome⟩

/-! ## The merged packument -/

/-- The manifest of a version after the loop. -/
theorem get?_merge (key : String) : ∀ (es : List (String × Object)) (versions : Dict String Object), (es.map Prod.fst).Nodup →
    (es.foldl mergeVersion versions).get? key =
      match es.lookup key with
      | none => versions.get? key
      | some manifest =>
        if versions.has key = false ∨ (tarballOf manifest).truthy = true then some manifest else versions.get? key
  | [], versions, _ => rfl
  | (k, manifest) :: es, versions, hnodup => by
    rw [List.map_cons, List.nodup_cons] at hnodup
    obtain ⟨hnew, hnodup⟩ := hnodup
    rw [List.foldl_cons, get?_merge key es _ hnodup]
    by_cases heq : key = k
    · subst heq
      have hnone : es.lookup key = none := by
        rw [List.lookup_eq_none_iff]
        exact fun e he => bne_iff_ne.2 fun heq => hnew (List.mem_map.2 ⟨e, he, heq.symm⟩)
      rw [hnone, List.lookup_cons_self]
      simp only
      unfold mergeVersion
      split
      · rw [Dict.get?_set, if_pos rfl]
      · rfl
    · have hget : (mergeVersion versions (k, manifest)).get? key = versions.get? key := by
        unfold mergeVersion
        split
        · rw [Dict.get?_set, if_neg heq]
        · rfl
      rw [List.lookup_cons, beq_false_of_ne heq]
      unfold Dict.has
      rw [hget]

theorem standing_ok {versions : Dict String Object} : ∀ {tags found : Object}, standing versions tags = .ok found →
    ∀ tag ∈ found, ∃ version, tag.2 = .str version ∧ versions.has version = true
  | [], found, hok => by
    cases Except.ok.inj hok
    exact fun tag htag => absurd htag List.not_mem_nil
  | tag :: rest, found, hok => by
    obtain ⟨there, hthere, hok⟩ := ok_of_bind hok
    obtain ⟨more, hmore, hok⟩ := ok_of_bind hok
    rw [← Except.ok.inj hok]
    split
    · rename_i htrue
      rw [List.forall_mem_cons]
      refine ⟨?_, standing_ok hmore⟩
      unfold among at hthere
      split at hthere
      · rename_i version heq
        exact ⟨version, heq, by rw [Except.ok.inj hthere, htrue]⟩
      · cases hthere
      · cases hthere
      · rw [← Except.ok.inj hthere] at htrue
        cases htrue
    · exact standing_ok hmore

theorem withLatestTag_ok {tags distTags : Dict String Json} {versions : List String}
    (hok : withLatestTag h tags versions = .ok distTags) (hne : versions ≠ []) :
    distTags.has Npm.latestTag = true ∧ ∀ tag ∈ distTags.entries, tag ∈ tags.entries ∨ ∃ version, tag.2 = .str version ∧
      version ∈ versions := by
  unfold withLatestTag at hok
  split at hok
  · rename_i hor
    cases Except.ok.inj hok
    exact ⟨hor.resolve_right hne, fun tag htag => .inl htag⟩
  · cases hhighest : highest h versions with
    | error why => rw [hhighest] at hok; cases hok
    | ok latest =>
      rw [hhighest] at hok
      rw [← Except.ok.inj hok]
      refine ⟨Dict.has_set.2 (.inl rfl), fun tag htag => ?_⟩
      rcases Dict.mem_set htag with ⟨-, heq⟩ | hin
      · exact .inr ⟨latest, heq, highest_mem hhighest hne⟩
      · exact .inl hin

/-- What is merged: the versions of both, and dist-tags that stand for them. -/
theorem mergePackuments_ok {upstream own merged : Packument} (hok : mergePackuments h upstream own = .ok merged)
    (hne : upstream.versions.entries ≠ []) :
    merged.versions = own.versions.entries.foldl mergeVersion upstream.versions ∧
      merged.distTags.has Npm.latestTag = true ∧
      ∀ tag ∈ merged.distTags.entries, ∃ version, tag.2 = .str version ∧ merged.versions.has version = true := by
  obtain ⟨upstreamTags, hupstream, hok⟩ := ok_of_bind hok
  obtain ⟨ownTags, hown, hok⟩ := ok_of_bind hok
  obtain ⟨distTags, hlatest, hok⟩ := ok_of_bind hok
  obtain ⟨ownTimes, -, hok⟩ := ok_of_bind hok
  obtain ⟨upstreamTimes, -, hok⟩ := ok_of_bind hok
  rw [← Except.ok.inj hok]
  have hversions : (own.versions.entries.foldl mergeVersion upstream.versions).entries.map Prod.fst ≠ [] := by
    intro hempty
    obtain ⟨e, he⟩ := List.exists_mem_of_ne_nil _ hne
    have hget := get?_merge e.1 own.versions.entries upstream.versions own.versions.nodup
    have he : upstream.versions.get? e.1 = some e.2 := Dict.get?_eq_some.2 he
    rw [Dict.get?_eq_none.2 (by rw [hempty]; exact List.not_mem_nil), he] at hget
    split at hget
    · cases hget
    · split at hget <;> cases hget
  obtain ⟨hhas, htags⟩ := withLatestTag_ok hlatest hversions
  refine ⟨rfl, hhas, fun tag htag => ?_⟩
  rcases htags tag htag with htag | ⟨version, heq, hin⟩
  · rcases Dict.mem_update htag with htag | htag
    · exact standing_ok hown tag htag
    · rcases Dict.mem_update htag with htag | htag
      · exact standing_ok hupstream tag htag
      · exact absurd htag List.not_mem_nil
  · exact ⟨version, heq, Dict.has_iff.2 hin⟩

theorem Rewritten.versions_ne {document : Object} {d : Packument} (hd : Rewritten h document d) : d.versions.entries ≠ [] := by
  intro hempty
  obtain ⟨e, he⟩ := List.exists_mem_of_ne_nil _ hd.some
  have hhas := (hd.versions e.1).2 (List.mem_map.2 ⟨e, he, rfl⟩)
  rw [Dict.has_iff, hempty] at hhas
  exact absurd hhas List.not_mem_nil

/-- What the upstream and the directory give together is well formed. -/
theorem wellFormed_merged {q : Query} {record : Record} {found : Object} {rewritten merged : Packument}
    (hrewritten : Rewritten h found rewritten)
    (hok : mergePackuments h rewritten (localPackument h q.name q.abbreviated record) = .ok merged) :
    WellFormed h q (some record) (some found) merged := by
  obtain ⟨hversions, hlatest, htags⟩ := mergePackuments_ok hok hrewritten.versions_ne
  have hget := fun version => (congrArg (fun versions => versions.get? version) hversions).trans
    (get?_merge version _ rewritten.versions (localPackument h q.name q.abbreviated record).versions.nodup)
  have hlookup : ∀ version, (localPackument h q.name q.abbreviated record).versions.entries.lookup version =
      (record.versions.get? version).map fun v => shaped q.abbreviated (localManifest h q.name v) := fun version =>
    (Dict.lookup_entries _ _).trans (Dict.get?_image _ _ _)
  refine ⟨htags, hlatest, ?_, ?_, ?_, ?_⟩
  · intro other hother version hhas
    cases hother
    obtain ⟨v, hv⟩ := Option.isSome_iff_exists.1 hhas
    unfold Dict.has
    simp only [hget, hlookup, hv, Option.map_some]
    split
    · rfl
    · rename_i hor
      rw [not_or, Bool.not_eq_false] at hor
      exact hor.1
  · intro other hother e he
    cases hother
    have hhas := (hrewritten.versions e.1).2 (List.mem_map.2 ⟨e, he, rfl⟩)
    unfold Dict.has
    simp only [hget]
    split
    · exact hhas
    · split
      · rfl
      · exact hhas
  · intro other hother version v hv hfile
    cases hother
    simp only [hget, hlookup, hv, Option.map_some]
    rw [if_pos (Or.inr ?_)]
    rw [tarballOf_shaped, tarballOf_localManifest]
    obtain ⟨file, hsome⟩ := Option.isSome_iff_exists.1 hfile
    rw [hsome]
    exact decide_eq_true (h.tarballUrl_ne q.name file.1)
  · intro e he
    have hentry : merged.versions.get? e.1 = some e.2 := Dict.get?_eq_some.2 he
    simp only [hget] at hentry
    have hold : rewritten.versions.get? e.1 = some e.2 → tarballOf e.2 = .str "" ∨
        ∃ package filename, tarballOf e.2 = .str (h.tarballUrl package filename) := fun hold =>
      .inr (hrewritten.urls e (Dict.get?_eq_some.1 hold))
    split at hentry
    · exact hold hentry
    · rename_i manifest hmanifest
      split at hentry
      · cases Option.some.inj hentry
        rw [Dict.lookup_entries] at hmanifest
        exact urls_localPackument e (Dict.get?_eq_some.1 hmanifest)
      · exact hold hentry

/-! ## What is served -/

/-- Dist-tags are passed on as they are. -/
theorem rewritePackument_of_tags {document : Object} (hne : objectVersions document ≠ [])
    (hbasenames : ∀ e ∈ objectVersions document, (tarballBasename h (tarballOf e.2)).isOk = true)
    (htags : (Dict.empty.update (Json.dictOrEmpty (Json.get document "dist-tags")) : Dict String Json).entries ≠ [])
    (name : String) (abbreviated : Bool) :
    ∃ d, rewritePackument h document name abbreviated = .ok (some d) ∧
      d.distTags = Dict.empty.update (Json.dictOrEmpty (Json.get document "dist-tags")) := by
  unfold rewritePackument
  have hall := (rewriteAll_isOk ((orElse (Json.get document "name") (.str name)).text h.render) abbreviated).2 hbasenames
  cases hversions : rewriteAll h ((orElse (Json.get document "name") (.str name)).text h.render) abbreviated
      (objectVersions document) with
  | error why => rw [hversions] at hall; cases hall
  | ok versions =>
    have hsome : versions ≠ [] := fun hnil => by
      have hkeys := (rewriteAll_ok hversions).1
      rw [hnil] at hkeys
      exact hne (List.map_eq_nil_iff.1 hkeys.symm)
    simp only [Bind.bind, Except.bind]
    rw [hversions]
    simp only
    rw [if_neg hsome, tagsOrLatest, if_neg htags]
    exact ⟨_, rfl, rfl⟩

theorem document_eq_some {q : Query} {document : Object} (hsome : q.document = some document) :
    q.proxying = true ∧ ∃ error, q.answer = (some document, error) := by
  unfold Query.document at hsome
  split at hsome
  · rename_i hproxying
    exact ⟨hproxying, q.answer.2, Prod.ext hsome rfl⟩
  · cases hsome

/-- Where a packument comes from. -/
inductive Served (h : Host) (q : Query) : Option Record → Packument → Prop
  | directory (record : Record) (none : ∀ document, q.document = some document → objectVersions document = []) :
      Served h q (some record) (localPackument h q.name q.abbreviated record)
  | upstream {document : Object} {d : Packument} (document_eq : q.document = some document)
      (rewritten : rewritePackument h document q.name q.abbreviated = .ok (some d)) : Served h q none d
  | both (record : Record) {document : Object} {rewritten d : Packument} (document_eq : q.document = some document)
      (rewritten_eq : rewritePackument h document q.name q.abbreviated = .ok (some rewritten))
      (merged : mergePackuments h rewritten (localPackument h q.name q.abbreviated record) = .ok d) : Served h q (some record) d

theorem packument_ok {q : Query} {index : Index} {d : Packument} {error : Option String}
    (hindex : localIndex h q.files q.rows q.published = .ok index) (hok : packument h q = .ok (some d, error)) :
    Served h q (index.get? q.name) d := by
  obtain ⟨index', hindex', hok⟩ := ok_of_bind hok
  rw [hindex] at hindex'
  cases Except.ok.inj hindex'
  unfold answered at hok
  cases hproxying : q.proxying with
  | false =>
    -- no upstream is asked
    have hdocument : q.document = none := by rw [Query.document, hproxying]; rfl
    rw [hproxying] at hok
    cases hrecord : index.get? q.name with
    | none => rw [hrecord] at hok; cases Except.ok.inj hok
    | some record =>
      rw [hrecord] at hok
      cases Except.ok.inj hok
      exact .directory record fun document hsome => by rw [hdocument] at hsome; cases hsome
  | true =>
    have hdocument : q.document = q.answer.1 := by rw [Query.document, hproxying]; rfl
    rw [hproxying] at hok
    cases hanswer : q.answer with
    | mk answer why =>
      rw [hanswer] at hok hdocument
      cases answer with
      | none =>
        -- the upstream has no document
        cases hrecord : index.get? q.name with
        | none => rw [hrecord] at hok; cases Except.ok.inj hok
        | some record =>
          rw [hrecord] at hok
          cases Except.ok.inj hok
          exact .directory record fun document hsome => by rw [hdocument] at hsome; cases hsome
      | some document =>
        simp only at hok
        cases hrewrite : rewritePackument h document q.name q.abbreviated with
        | error why' => rw [hrewrite] at hok; cases hok
        | ok found =>
          cases found with
          | none =>
            -- the document has no version
            cases hrecord : index.get? q.name with
            | none => rw [hrewrite, hrecord] at hok; cases Except.ok.inj hok
            | some record =>
              rw [hrewrite, hrecord] at hok
              cases Except.ok.inj hok
              refine .directory record fun other hsome => ?_
              rw [hdocument] at hsome
              cases hsome
              exact rewritePackument_none hrewrite
          | some rewritten =>
            cases hrecord : index.get? q.name with
            | none =>
              rw [hrewrite, hrecord] at hok
              cases Except.ok.inj hok
              exact .upstream hdocument hrewrite
            | some record =>
              rw [hrewrite, hrecord] at hok
              cases hmerge : mergePackuments h rewritten (localPackument h q.name q.abbreviated record) with
              | error why' => simp only [Option.map_some, hmerge] at hok; cases hok
              | ok merged =>
                simp only [Option.map_some, hmerge] at hok
                cases Except.ok.inj hok
                exact .both record hdocument hrewrite hmerge

/-- A package that only the upstream has is served as it is rewritten. -/
theorem packument_upstream {q : Query} {index : Index} {document : Object} {d : Packument}
    (hindex : localIndex h q.files q.rows q.published = .ok index) (hnone : index.get? q.name = none)
    (hdocument : q.document = some document) (hrewrite : rewritePackument h document q.name q.abbreviated = .ok (some d)) :
    packument h q = .ok (some d, none) := by
  obtain ⟨hproxying, error, hanswer⟩ := document_eq_some hdocument
  unfold packument
  simp only [Bind.bind, Except.bind]
  rw [hindex]
  simp only
  unfold answered
  rw [hnone, Option.map_none, hproxying, hanswer]
  simp only
  rw [hrewrite]

/-- A packument is well formed, whatever the directory and the upstream hold, unless only the upstream has the package and
sends dist-tags without `latest`, or with one of a version it does not have. -/
theorem sound_iff_tagged (h : Host) (q : Query) : Sound h q ↔ Tagged h q := by
  constructor
  · intro hsound index document hindex hnone hdocument hne hbasenames
    by_cases htags : (Dict.empty.update (Json.dictOrEmpty (Json.get document "dist-tags")) : Dict String Json).entries = []
    · exact .inl htags
    · obtain ⟨d, hrewrite, hd⟩ := rewritePackument_of_tags hne hbasenames htags q.name q.abbreviated
      have hwell := hsound index d none hindex (packument_upstream hindex hnone hdocument hrewrite)
      have hversions := (rewritePackument_ok hrewrite).versions
      rw [← hd]
      refine .inr ⟨fun tag htag => ?_, hwell.latest⟩
      obtain ⟨version, heq, hhas⟩ := hwell.tags tag htag
      exact ⟨version, heq, (hversions version).1 hhas⟩
  · intro htagged index d error hindex hok
    have hown : ∀ record, index.get? q.name = some record → record.Complete := fun record hrecord =>
      localIndex_complete hindex _ (Dict.get?_eq_some.1 hrecord)
    have hserved := packument_ok hindex hok
    generalize hrecord : index.get? q.name = own at hserved
    cases hserved with
    | directory record hnone => exact wellFormed_local (hown record hrecord) hnone
    | both record hdocument hrewrite hmerge =>
      rw [hdocument]
      exact wellFormed_merged (rewritePackument_ok hrewrite) hmerge
    | @upstream document _ hdocument hrewrite =>
      have hspec := rewritePackument_ok hrewrite
      rw [hdocument]
      have hne : (objectVersions document).map Prod.fst ≠ [] := fun hnil => hspec.some (List.map_eq_nil_iff.1 hnil)
      obtain ⟨htags, hlatest⟩ := (tagsOrLatest_standing hspec.tags hne).2
        (htagged index document hindex hrecord hdocument hspec.some hspec.basenames)
      refine ⟨fun tag htag => ?_, hlatest, fun _ hnone => (by cases hnone), fun found hfound e he => ?_,
        fun _ hnone => (by cases hnone), fun e he => .inr (hspec.urls e he)⟩
      · obtain ⟨version, heq, hin⟩ := htags tag htag
        exact ⟨version, heq, (hspec.versions version).2 hin⟩
      · cases hfound
        exact (hspec.versions e.1).2 (List.mem_map.2 ⟨e, he, rfl⟩)

/-! ## A document without `latest` -/

/-- A registry for packages without tarballs. -/
def plainHost : Host where
  formats :=
    { urlBasename := .ok
      decode64 := .error
      archive := fun _ => ⟨[], some (.tar "not a gzip file")⟩
      parse := fun _ => .invalid "Expecting value"
      sha1 := fun _ => ""
      sha512 := fun _ => ""
      isDigit := Char.isDigit
      decimal := fun c => if c.isDigit then some (c.toNat - 48) else none }
  render _ := ""
  pairs items := if items = [] then .ok [] else .error "cannot convert dictionary update sequence element #0 to a sequence"
  iso _ := "2026-01-01T00:00:00Z"
  now := 0
  utcNow := "2026-01-01T00:00:00Z"
  earlier a b := a < b
  ofInt _ := .ok 0
  quote := id
  tarballUrl name filename := "/npm/" ++ (name ++ "/-/" ++ filename)
  tarballUrl_ne name filename heq := by
    have hlist := congrArg String.toList heq
    simp at hlist

/-- The upstream has one version, and a tag that is not `latest`. -/
def onlyNext : Query where
  name := "a"
  abbreviated := false
  files := some []
  rows := []
  published := []
  proxying := true
  answer := (some [("name", .str "a"), ("dist-tags", .obj [("next", .str "1.0.0")]), ("versions", .obj [("1.0.0", .obj [])])],
    none)

/-- It is served without `latest`. -/
theorem onlyNext_not_sound : ¬ Sound plainHost onlyNext := by
  intro hsound
  have hindex : localIndex plainHost onlyNext.files onlyNext.rows onlyNext.published = .ok Dict.empty := by rfl
  obtain ⟨d, hrewrite, hd⟩ := @rewritePackument_of_tags plainHost
    [("name", .str "a"), ("dist-tags", .obj [("next", .str "1.0.0")]), ("versions", .obj [("1.0.0", .obj [])])]
    (by decide +kernel) (by decide +kernel) (by decide +kernel) "a" false
  have hlatest := (hsound _ d none hindex (packument_upstream hindex rfl rfl hrewrite)).latest
  rw [hd] at hlatest
  exact absurd hlatest (by decide +kernel)

end OpenFish.Registry
