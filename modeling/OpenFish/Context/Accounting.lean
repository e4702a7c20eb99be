/-
How an answer accounts for what it leaves out: a search does so exactly, and the history related to a finding exactly
if no issue is counted twice.
-/
import Mathlib.Data.Finset.Card
import OpenFish.Context.Reading
import OpenFish.Context.Search

namespace OpenFish.Context

open Lib Lib.Like

/-! ## What the claim is about -/

/-- A row of the mirror: its kind and its id. -/
abbrev Entry := String × ℤ

def Row.entry (row : Row) : Entry := (row.kind, row.id)

def Answer.entries (a : Answer) : List Entry := a.items.map fun item => (item.kind, item.id)

/-- The entries of an answer are distinct, and the entries that match and are none of them are counted. -/
structure Accounted (a : Answer) (matching : Finset Entry) : Prop where
  distinct : a.entries.Nodup
  omitted : a.omitted = (matching \ a.entries.toFinset).card
  truncated : a.truncated = true ↔ (matching \ a.entries.toFinset).Nonempty

inductive Request
  | search (args : SearchArgs)
  | related (args : RelatedArgs)

def Request.bounds : Request → Bounds
  | .search args => args.toBounds
  | .related args => args.toBounds

section requests

variable (py : Casing) (db : Dialect) (m : Mirror)

def respond : Request → Except String Answer
  | .search args => search py db m args
  | .related args => relatedToFinding py db m args

/-- The rows of one kind that the filters keep. -/
def matchingOf (args : SearchArgs) : Kind → List Entry
  | .issue => (m.issues.filter (buildIssueQuery py db args.repoId args.filters).keep).map fun r => Row.entry (.issue r.row)
  | .commit =>
    (m.commits.filter (buildCommitQuery py db args.repoId args.filters).keep).map fun r => Row.entry (.commit r.row)
  | .finding =>
    (m.findings.filter (buildFindingQuery py db args.repoId args.filters).keep).map fun r => Row.entry (.finding r.row)

/-- The issues linked to the finding of a request. -/
def linkedIds (args : RelatedArgs) : List ℤ :=
  (args.findingId.map fun id => (linked m id args.repoId).map (·.1.row.id)).getD []

/-- The issues that a probe recalls. -/
def recalledIds (args : RelatedArgs) : List ℤ :=
  let probes := probesOf args.filePath args.symbol args.ruleId
  if probes = [] then []
  else (m.issues.filter (recallQuery py db args.repoId probes).keep).map (·.row.id)

/-- The entries that a request is for. -/
def matching : Request → Finset Entry
  | .search args => (((selected args.kind).getD []).flatMap (matchingOf py db m args)).toFinset
  | .related args =>
    match anchored m args with
    | .error _ => ∅
    | .ok args => ((linkedIds m args ++ recalledIds py db m args).map fun id => ("issue", id)).toFinset

/-- No issue is linked by two relations, and no linked issue is recalled too. -/
def CountedOnce : Request → Prop
  | .search _ => True
  | .related args =>
    match anchored m args with
    | .error _ => True
    | .ok args => (linkedIds m args).Nodup ∧ (linkedIds m args).Disjoint (recalledIds py db m args)

end requests

/-! ## Fitting into the budget -/

theorem entries_zipWith {taken : List Candidate} {chars : List ℕ} (h : taken.length = chars.length) :
    (List.zipWith itemMeta taken chars).map (fun i => (i.kind, i.id)) = taken.map (·.row.entry) := by
  induction taken generalizing chars with
  | nil => simp
  | cons candidate taken ih =>
    cases chars with
    | nil => cases h
    | cons n chars =>
      rw [List.zipWith_cons_cons, List.map_cons, List.map_cons, ih (Nat.succ.inj h)]
      rfl

/-- The entries returned are the first candidates. -/
theorem assemble_entries (candidates : List Candidate) (source : String) (budget : ℕ) :
    (assemble candidates source budget).items.map (fun i => (i.kind, i.id)) <+: candidates.map (·.row.entry) := by
  obtain ⟨taken, hpart, hfits⟩ := fits_assemble candidates source budget
  rw [hfits.items, entries_zipWith (by rw [List.length_map]; exact hfits.count)]
  exact hpart.map _

theorem ranked_perm (candidates : List Ranked) : (ranked candidates).Perm (candidates.map (·.candidate)) :=
  (List.perm_insertionSort _ candidates).map _

/-- Nothing is lost exactly if what was matched is what there is. -/
theorem accounted_iff_card {repoId : ℤ} {query : List (String × String)} {assembled : Assembled} {matched budget : ℕ}
    {source : String} {matching : Finset Entry}
    (hsub : ∀ e ∈ (result repoId query assembled matched budget source).entries, e ∈ matching)
    (hcard : matching.card ≤ matched) :
    Accounted (result repoId query assembled matched budget source) matching ↔
      (result repoId query assembled matched budget source).entries.Nodup ∧ matched = matching.card := by
  set a := result repoId query assembled matched budget source with ha
  have hlen : a.entries.length = assembled.items.length := by rw [ha, Answer.entries, List.length_map]; rfl
  have homitted : a.omitted = matched - a.entries.length := by rw [hlen]; rfl
  have htruncated : a.truncated = true ↔ 0 < a.omitted := decide_eq_true_iff
  have hsubset : a.entries.toFinset ⊆ matching := fun e he => hsub e (List.mem_toFinset.1 he)
  have hrest : (matching \ a.entries.toFinset).card = matching.card - a.entries.toFinset.card :=
    Finset.card_sdiff_of_subset hsubset
  constructor
  · rintro ⟨hnodup, hcount, -⟩
    have hfin : a.entries.toFinset.card = a.entries.length := List.toFinset_card_of_nodup hnodup
    have hle := Finset.card_le_card hsubset
    refine ⟨hnodup, ?_⟩
    omega
  · rintro ⟨hnodup, hmatched⟩
    have hfin : a.entries.toFinset.card = a.entries.length := List.toFinset_card_of_nodup hnodup
    have hcount : a.omitted = (matching \ a.entries.toFinset).card := by omega
    refine ⟨hnodup, hcount, ?_⟩
    rw [htruncated, hcount, Finset.card_pos]

/-! ## Searches -/

theorem page_first {α : Type} (stmt : Statement α) (db : Dialect) (table : List α) (limit : ℕ) :
    ∃ rest, (stmt.page db table limit 0 ++ rest).Perm (table.filter stmt.keep) := by
  rw [Statement.page, List.drop_zero]
  refine ⟨((table.filter stmt.keep).insertionSort fun a b => stmt.key db a ≤ stmt.key db b).drop limit, ?_⟩
  rw [List.take_append_drop]
  exact List.perm_insertionSort _ _

/-- The first page of one kind is part of what matches, and no entry stands in it twice. -/
theorem fetch_first {α : Type} {stmt : Statement α} {db : Dialect} {view : α → Row} {table : List α} (limit : ℕ)
    (hnodup : (table.map fun row => (view row).entry).Nodup) :
    ((fetch db stmt view table limit 0).map (·.candidate.row.entry)).Nodup ∧
      ∀ e ∈ (fetch db stmt view table limit 0).map (·.candidate.row.entry),
        e ∈ (table.filter stmt.keep).map fun row => (view row).entry := by
  obtain ⟨rest, hperm⟩ := page_first stmt db table limit
  have hmap : (fetch db stmt view table limit 0).map (·.candidate.row.entry) =
      (stmt.page db table limit 0).map fun row => (view row).entry := by
    rw [fetch, List.map_map]
    rfl
  have hkept : ((table.filter stmt.keep).map fun row => (view row).entry).Nodup :=
    hnodup.sublist (List.filter_sublist.map _)
  have hperm' := hperm.map fun row => (view row).entry
  rw [List.map_append] at hperm'
  rw [hmap]
  refine ⟨(hperm'.nodup_iff.2 hkept).of_append_left, fun e he => ?_⟩
  exact hperm'.subset (List.mem_append_left _ he)

section search

variable {py : Casing} {db : Dialect} {m : Mirror}

/-- The entries of one kind. -/
def entriesOf (m : Mirror) : Kind → List Entry
  | .issue => m.issues.map fun r => Row.entry (.issue r.row)
  | .commit => m.commits.map fun r => Row.entry (.commit r.row)
  | .finding => m.findings.map fun r => Row.entry (.finding r.row)

theorem entriesOf_spec (m : Mirror) (k : Kind) : (entriesOf m k).Nodup ∧ ∀ e ∈ entriesOf m k, e.1 = k.name := by
  have hpair {α : Type} {l : List α} {f : α → ℤ} (h : (l.map f).Nodup) (name : String) :
      (l.map fun a => (name, f a)).Nodup ∧ ∀ e ∈ l.map fun a => (name, f a), e.1 = name := by
    constructor
    · have := h.map (f := fun n : ℤ => (name, n)) fun a b hab => (Prod.mk.inj hab).2
      rwa [List.map_map] at this
    · intro e he
      obtain ⟨a, -, rfl⟩ := List.mem_map.1 he
      rfl
  cases k with
  | issue => exact hpair m.issueIds "issue"
  | commit => exact hpair m.commitIds "commit"
  | finding => exact hpair m.findingIds "finding"

theorem matchingOf_sublist (args : SearchArgs) (k : Kind) :
    (matchingOf py db m args k).Sublist (entriesOf m k) ∧ (matchingOf py db m args k).length = countOf py db m args k := by
  cases k <;> exact ⟨List.filter_sublist.map _, List.length_map _⟩

theorem fetchOf_spec {args : SearchArgs} (hoffset : args.skipped = 0) (k : Kind) :
    ((fetchOf py db m args k).map (·.candidate.row.entry)).Nodup ∧
      ∀ e ∈ (fetchOf py db m args k).map (·.candidate.row.entry), e ∈ matchingOf py db m args k := by
  have hnodup := (entriesOf_spec m k).1
  cases k with
  | issue => rw [fetchOf, hoffset]; exact fetch_first _ hnodup
  | commit => rw [fetchOf, hoffset]; exact fetch_first _ hnodup
  | finding => rw [fetchOf, hoffset]; exact fetch_first _ hnodup

/-- What is distinct for each kind is distinct for several kinds together. -/
theorem nodup_flatMap_kinds {f : Kind → List Entry} (hnodup : ∀ k, (f k).Nodup) (hkind : ∀ k, ∀ e ∈ f k, e.1 = k.name)
    {chosen : List Kind} (h : chosen.Nodup) : (chosen.flatMap f).Nodup := by
  rw [List.nodup_flatMap]
  refine ⟨fun k _ => hnodup k, h.imp fun {a b} hab e ha hb => hab ?_⟩
  have hname : a.name = b.name := (hkind a e ha).symm.trans (hkind b e hb)
  cases a <;> cases b <;> first | rfl | exact absurd hname (by decide)

theorem selected_nodup {kind : Option String} {chosen : List Kind} (h : selected kind = some chosen) : chosen.Nodup := by
  unfold selected at h
  split at h
  · cases h
    decide
  · obtain ⟨k, -, rfl⟩ := Option.map_eq_some_iff.1 h
    exact List.nodup_singleton k

theorem search_accounted {args : SearchArgs} (hoffset : args.skipped = 0) {a : Answer}
    (h : search py db m args = .ok a) : Accounted a (matching py db m (.search args)) := by
  unfold search at h
  cases hchosen : selected args.kind with
  | none => rw [hchosen] at h; cases h
  | some chosen =>
    rw [hchosen] at h
    cases h
    have hnodup := selected_nodup hchosen
    have hkind (k : Kind) : ∀ e ∈ matchingOf py db m args k, e.1 = k.name := fun e he =>
      (entriesOf_spec m k).2 e ((matchingOf_sublist args k).1.subset he)
    have hmatching : (chosen.flatMap (matchingOf py db m args)).Nodup :=
      nodup_flatMap_kinds (fun k => (entriesOf_spec m k).1.sublist (matchingOf_sublist args k).1) hkind hnodup
    have hcandidates : ((chosen.flatMap (fetchOf py db m args)).map (·.candidate.row.entry)).Nodup := by
      rw [List.map_flatMap]
      exact nodup_flatMap_kinds (fun k => (fetchOf_spec hoffset k).1)
        (fun k e he => hkind k e ((fetchOf_spec hoffset k).2 e he)) hnodup
    have hsub : ∀ e ∈ (chosen.flatMap (fetchOf py db m args)).map (·.candidate.row.entry),
        e ∈ chosen.flatMap (matchingOf py db m args) := by
      intro e he
      rw [List.map_flatMap, List.mem_flatMap] at he
      obtain ⟨k, hk, he⟩ := he
      exact List.mem_flatMap.2 ⟨k, hk, (fetchOf_spec hoffset k).2 e he⟩
    have hperm := (ranked_perm (chosen.flatMap (fetchOf py db m args))).map (·.row.entry)
    rw [List.map_map] at hperm
    have hpart := assemble_entries (ranked (chosen.flatMap (fetchOf py db m args))) args.source args.chars
    have hmatched : (chosen.map (countOf py db m args)).sum = (chosen.flatMap (matchingOf py db m args)).length := by
      rw [List.length_flatMap]
      exact congrArg List.sum (List.map_congr_left fun k _ => (matchingOf_sublist args k).2.symm)
    have hcard : (matching py db m (.search args)).card = (chosen.flatMap (matchingOf py db m args)).length := by
      rw [matching, hchosen, Option.getD_some, List.toFinset_card_of_nodup hmatching]
    refine (accounted_iff_card (fun e he => ?_) (by omega)).2 ⟨?_, by omega⟩
    · rw [matching, hchosen, Option.getD_some, List.mem_toFinset]
      exact hsub e (hperm.subset (hpart.subset he))
    · exact (hperm.nodup_iff.2 hcandidates).sublist hpart.sublist

end search

/-! ## The history related to a finding -/

section related

variable {py : Casing} {db : Dialect} {m : Mirror}

def Ranked.id (r : Ranked) : ℤ := r.candidate.row.id

/-- What is added are distinct hits that were no candidates. -/
theorem addUnseen_spec (candidates hits : List Ranked) :
    ∃ new, addUnseen candidates hits = candidates ++ new ∧ new.Sublist hits ∧ (new.map Ranked.id).Nodup ∧
      (candidates.map Ranked.id).Disjoint (new.map Ranked.id) := by
  induction hits generalizing candidates with
  | nil => exact ⟨[], by simp [addUnseen], List.Sublist.refl _, List.nodup_nil, by simp⟩
  | cons hit hits ih =>
    rw [addUnseen, List.foldl_cons]
    split
    · obtain ⟨new, heq, hsub, hnodup, hdisjoint⟩ := ih candidates
      exact ⟨new, heq, hsub.cons _, hnodup, hdisjoint⟩
    · rename_i hunseen
      obtain ⟨new, heq, hsub, hnodup, hdisjoint⟩ := ih (candidates ++ [hit])
      rw [addUnseen] at heq
      rw [List.map_append, List.map_singleton, List.disjoint_append_left, List.singleton_disjoint] at hdisjoint
      refine ⟨hit :: new, by rw [heq, List.append_assoc]; rfl, hsub.cons_cons _, ?_, ?_⟩
      · rw [List.map_cons, List.nodup_cons]
        exact ⟨hdisjoint.2, hnodup⟩
      · rw [List.map_cons, List.disjoint_cons_right]
        exact ⟨hunseen, hdisjoint.1⟩

/-- The candidates of the links of a finding. -/
def linkHits (db : Dialect) (m : Mirror) (args : RelatedArgs) : List Ranked :=
  (args.findingId.map fun id => evidenceCandidates db m id args.repoId).getD []

theorem linkHits_perm (args : RelatedArgs) : ((linkHits db m args).map Ranked.id).Perm (linkedIds m args) := by
  unfold linkHits linkedIds
  cases args.findingId with
  | none => exact List.Perm.refl _
  | some id =>
    have hperm := (List.perm_insertionSort (fun a b => linkKey db a ≤ linkKey db b) (linked m id args.repoId)).map
      fun link => link.1.row.id
    rw [Option.map_some, Option.getD_some, evidenceCandidates, List.map_map]
    exact hperm

theorem linkHits_entry (args : RelatedArgs) : ∀ r ∈ linkHits db m args, r.candidate.row.entry = ("issue", r.id) := by
  unfold linkHits
  cases args.findingId with
  | none => exact fun r hr => absurd hr List.not_mem_nil
  | some id =>
    intro r hr
    obtain ⟨link, -, rfl⟩ := List.mem_map.1 hr
    rfl

/-- The hits that a probe recalls. -/
def recallHits (py : Casing) (db : Dialect) (m : Mirror) (args : RelatedArgs) : List Ranked :=
  let probes := probesOf args.filePath args.symbol args.ruleId
  if probes = [] then []
  else fetch db (recallQuery py db args.repoId probes) (fun r => .issue r.row) m.issues args.rows args.skipped

theorem recalledIds_nodup (args : RelatedArgs) : (recalledIds py db m args).Nodup := by
  unfold recalledIds
  dsimp only
  split
  · exact List.nodup_nil
  · exact m.issueIds.sublist (List.filter_sublist.map _)

theorem recallHits_spec {args : RelatedArgs} (hoffset : args.skipped = 0) :
    ∀ r ∈ recallHits py db m args, r.id ∈ recalledIds py db m args ∧ r.candidate.row.entry = ("issue", r.id) := by
  unfold recallHits recalledIds
  dsimp only
  split
  · exact fun r hr => absurd hr List.not_mem_nil
  · intro r hr
    rw [hoffset] at hr
    obtain ⟨row, hrow, rfl⟩ := List.mem_map.1 hr
    obtain ⟨rest, hperm⟩ := page_first (recallQuery py db args.repoId _) db m.issues args.rows
    exact ⟨List.mem_map_of_mem (hperm.subset (List.mem_append_left _ hrow)), rfl⟩

theorem recall_count (args : RelatedArgs) :
    (if probesOf args.filePath args.symbol args.ruleId = [] then 0
      else (recallQuery py db args.repoId (probesOf args.filePath args.symbol args.ruleId)).count m.issues) =
        (recalledIds py db m args).length := by
  unfold recalledIds
  dsimp only
  split
  · rfl
  · rw [List.length_map]
    rfl

/-- What is answered: the candidates of the links and then the hits that are no candidates yet, and both counted. -/
theorem relatedToFinding_eq (args : RelatedArgs) :
    relatedToFinding py db m args =
      match anchored m args with
      | .error e => .error e
      | .ok args =>
        .ok (result args.repoId (args.echo (probesOf args.filePath args.symbol args.ruleId))
          (assemble (ranked (addUnseen (linkHits db m args) (recallHits py db m args))) args.source args.chars)
          ((linkedIds m args).length + (recalledIds py db m args).length) args.chars args.source) := by
  unfold relatedToFinding
  cases hanchored : anchored m args with
  | error e => rfl
  | ok args =>
    have hlength := (@linkHits_perm db m args).length_eq
    rw [List.length_map] at hlength
    have hcandidates : addUnseen (linkHits db m args) (recallHits py db m args) =
        if probesOf args.filePath args.symbol args.ruleId = [] then linkHits db m args
        else addUnseen (linkHits db m args) (fetch db
          (recallQuery py db args.repoId (probesOf args.filePath args.symbol args.ruleId)) (fun r => .issue r.row) m.issues
          args.rows args.skipped) := by
      unfold recallHits
      dsimp only
      split <;> rfl
    dsimp only
    rw [recall_count, hcandidates, ← hlength]
    rfl

theorem anchored_bounds {args args' : RelatedArgs} (h : anchored m args = .ok args') :
    args'.toBounds = args.toBounds := by
  unfold anchored at h
  split at h
  · cases h; rfl
  · split at h
    · cases h
    · split at h
      · cases h
      · cases h; rfl

/-- The answer once the anchors are known. -/
theorem anchored_accounted_iff {args : RelatedArgs} (hskipped : args.skipped = 0) (query : List (String × String)) :
    Accounted (result args.repoId query
        (assemble (ranked (addUnseen (linkHits db m args) (recallHits py db m args))) args.source args.chars)
        ((linkedIds m args).length + (recalledIds py db m args).length) args.chars args.source)
        ((linkedIds m args ++ recalledIds py db m args).map fun id => (("issue", id) : Entry)).toFinset ↔
      (linkedIds m args).Nodup ∧ (linkedIds m args).Disjoint (recalledIds py db m args) := by
  obtain ⟨new, hadd, hnew, hnewNodup, hdisjoint⟩ := addUnseen_spec (linkHits db m args) (recallHits py db m args)
  have hlinks := @linkHits_perm db m args
  have hhit (r : Ranked) (hr : r ∈ linkHits db m args ++ new) :
      r.candidate.row.entry = ("issue", r.id) ∧ r.id ∈ linkedIds m args ++ recalledIds py db m args := by
    rw [List.mem_append]
    rcases List.mem_append.1 hr with hr | hr
    · exact ⟨linkHits_entry args r hr, .inl (hlinks.subset (List.mem_map_of_mem hr))⟩
    · have ⟨hid, hentry⟩ := recallHits_spec hskipped r (hnew.subset hr)
      exact ⟨hentry, .inr hid⟩
  have hperm := (ranked_perm (linkHits db m args ++ new)).map (·.row.entry)
  have hentries : ((linkHits db m args ++ new).map (·.candidate)).map (·.row.entry) =
      ((linkHits db m args ++ new).map Ranked.id).map fun id => ("issue", id) := by
    rw [List.map_map, List.map_map]
    exact List.map_congr_left fun r hr => (hhit r hr).1
  rw [hentries] at hperm
  rw [hadd]
  have hpart := assemble_entries (ranked (linkHits db m args ++ new)) args.source args.chars
  have hinj : Function.Injective fun id : ℤ => (("issue", id) : Entry) := fun a b hab => (Prod.mk.inj hab).2
  set all := (linkedIds m args ++ recalledIds py db m args).map fun id => (("issue", id) : Entry) with hall
  have hlength : all.length = (linkedIds m args).length + (recalledIds py db m args).length := by
    rw [hall, List.length_map, List.length_append]
  have hcard : all.toFinset.card = all.length ↔
      (linkedIds m args).Nodup ∧ (linkedIds m args).Disjoint (recalledIds py db m args) := by
    have hnodup : all.Nodup ↔ (linkedIds m args ++ recalledIds py db m args).Nodup := List.nodup_map_iff hinj
    have hcount : all.toFinset.card = all.length ↔ all.Nodup := Multiset.toFinset_card_eq_card_iff_nodup
    rw [hcount, hnodup, List.nodup_append']
    exact ⟨fun h => ⟨h.1, h.2.2⟩, fun h => ⟨h.1, recalledIds_nodup args, h.2⟩⟩
  have hle := List.toFinset_card_le all
  rw [← hlength, ← hcard, accounted_iff_card (fun e he => ?_) hle]
  · constructor
    · rintro ⟨-, hmatched⟩
      exact hmatched.symm
    · intro hmatched
      refine ⟨(hperm.nodup_iff.2 ?_).sublist hpart.sublist, hmatched.symm⟩
      -- links that are distinct stay so, and what is added is distinct from them
      rw [List.nodup_map_iff hinj, List.map_append, List.nodup_append']
      exact ⟨hlinks.nodup_iff.2 (hcard.1 hmatched).1, hnewNodup, hdisjoint⟩
  · have hmem := hperm.subset (hpart.subset he)
    rw [List.map_map] at hmem
    obtain ⟨r, hr, rfl⟩ := List.mem_map.1 hmem
    rw [List.mem_toFinset, hall]
    exact List.mem_map_of_mem (hhit r hr).2

theorem related_accounted_iff {args : RelatedArgs} (hoffset : args.skipped = 0) {a : Answer}
    (h : relatedToFinding py db m args = .ok a) :
    Accounted a (matching py db m (.related args)) ↔ CountedOnce py db m (.related args) := by
  rw [relatedToFinding_eq] at h
  cases hanchored : anchored m args with
  | error e => rw [hanchored] at h; cases h
  | ok found =>
    have hskipped : found.skipped = 0 := by
      rw [← hoffset, Bounds.skipped, anchored_bounds hanchored]
      rfl
    rw [hanchored] at h
    cases h
    simp only [matching, CountedOnce, hanchored]
    exact anchored_accounted_iff hskipped _

/-- From the first row on, an answer has distinct entries and counts exactly the entries it leaves out, if and only if it
is a search or no issue is linked twice or linked and recalled. -/
theorem accounted_iff {r : Request} (hoffset : r.bounds.skipped = 0) {a : Answer} (h : respond py db m r = .ok a) :
    Accounted a (matching py db m r) ↔ CountedOnce py db m r := by
  cases r with
  | search args => exact iff_of_true (search_accounted hoffset h) trivial
  | related args => exact related_accounted_iff hoffset h

end related

/-- One finding with one issue that is linked to it and has the name of its file too. -/
def linkedMirror : Mirror where
  issues := [{
    repoId := 1, labels := some "[]", createdAt := none
    row := {
      id := 1, number := 1, isPullRequest := false, title := "lib", body := none, state := "open", author := none,
      labelList := [], createdAt := none, url := none } }]
  commits := []
  findings := [{
    repoId := 1, createdAt := none
    row := {
      id := 1, ruleId := "r", title := "t", status := "open", level := "l", severity := "low", filePath := "lib",
      symbol := "f", prUrl := none, detail := none } }]
  evidence := [{ findingId := 1, repoIssueId := 1, relation := "mentions" }]
  issueIds := by decide
  commitIds := by decide
  findingIds := by decide
  triples := by decide

/-- The arguments that find it. -/
def linkedArgs : RelatedArgs := { repoId := 1, findingId := some 1 }

theorem search_counted :
    ∃ a, respond Casing.ascii .sqlite linkedMirror (.search { repoId := 1 }) = .ok a ∧
      (Accounted a (matching Casing.ascii .sqlite linkedMirror (.search { repoId := 1 })) ↔
        CountedOnce Casing.ascii .sqlite linkedMirror (.search { repoId := 1 })) :=
  ⟨_, rfl, accounted_iff (by decide) rfl⟩

/-- The issue is returned once and counted twice. -/
theorem linked_counted_twice :
    ¬ ∀ (m : Mirror) (r : Request) (a : Answer), r.bounds.skipped = 0 → respond Casing.ascii .sqlite m r = .ok a →
      Accounted a (matching Casing.ascii .sqlite m r) := by
  intro hall
  have hanchored : anchored linkedMirror linkedArgs =
      .ok { linkedArgs with filePath := some "lib", symbol := some "f", ruleId := some "r" } := by
    decide +kernel
  have hanswer : ∃ a, relatedToFinding Casing.ascii .sqlite linkedMirror linkedArgs = .ok a := by
    rw [relatedToFinding_eq, hanchored]
    exact ⟨_, rfl⟩
  obtain ⟨a, ha⟩ := hanswer
  have hoffset : linkedArgs.skipped = 0 := by decide
  have hcounted := (related_accounted_iff hoffset ha).1 (hall linkedMirror (.related linkedArgs) a hoffset ha)
  simp only [CountedOnce, hanchored] at hcounted
  have hlinked : (1 : ℤ) ∈ linkedIds linkedMirror
      { linkedArgs with filePath := some "lib", symbol := some "f", ruleId := some "r" } := by
    decide +kernel
  have hrecalled : (1 : ℤ) ∈ recalledIds Casing.ascii .sqlite linkedMirror
      { linkedArgs with filePath := some "lib", symbol := some "f", ruleId := some "r" } := by
    decide +kernel
  exact hcounted.2 hlinked hrecalled

end OpenFish.Context
