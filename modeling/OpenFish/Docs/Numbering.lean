/-
The numbers of revisions while operations run side by side: each document has the revisions from one to its current one, shows that,
and a save that names a revision is committed as the next. This rests on ids that are given once; where a database gives the id of a
deleted row again, a save that read the old row leaves a gap in the new one. The rows of assets have no numbers: they are of their
objects as long as no upload writes over another that it has not read.
-/
import OpenFish.Docs.Retention
import OpenFish.Lib.Effect

namespace OpenFish.Docs

open Lib

variable {τ : Type} {h : Host τ} {s s' : Tables} {call : Call}

/-- Each document has the revisions from one to its current one, which it shows, and no other has any. -/
structure Numbered (s : Tables) : Prop where
  born : ∀ {id row}, s.documents.get? id = some row → id ∈ s.born
  revisions : ∀ {id row}, s.documents.get? id = some row → ∀ n, (s.revisions.get? (id, n)).isSome = true ↔ 1 ≤ n ∧ n ≤ row.revision
  owned : ∀ {id n r}, s.revisions.get? (id, n) = some r → ∃ row, s.documents.get? id = some row
  current : ∀ {id row}, s.documents.get? id = some row → s.revisions.get? (id, row.revision) = some ⟨row.title, row.body⟩

/-- A draft follows what its call read: a new document begins with its first revision, and a row that was read is still as it was
or has gone on since; it is the one after the revision that was named. -/
structure Draft.Follows (s : Tables) (d : Draft) : Prop where
  created : ∀ {place}, d.base = .created place → d.revision = 1
  loaded : ∀ {old}, d.base = .loaded old → d.id ∈ s.born ∧ d.revision = old.revision + 1 ∧
    ∀ {row}, s.documents.get? d.id = some row → row = old ∨ old.revision < row.revision
  named : ∀ r, d.expected = some r → (d.revision : Int) = r + 1

def Call.draft? : Call → Option Draft
  | .storing draft | .saving draft _ => some draft
  | _ => none

/-- A call that is going to save follows what it read, and a save that was committed is the revision after the named one. -/
structure Orderly (s : Tables) (call : Call) : Prop where
  follows : ∀ {draft}, call.draft? = some draft → draft.Follows s
  named : ∀ {draft key}, call = .saved draft key → ∀ r, draft.expected = some r → (draft.revision : Int) = r + 1

/-- The id that a commit inserts. -/
def Call.inserts? : Call → Option Nat
  | .saving ⟨id, .created _, _, _, _, _⟩ _ => some id
  | _ => none

/-- No id is given to two documents. -/
def GivenOnce (scene : Scene Tables Call) : Move Op Reply Empty → Bool
  | .step i _ => (scene.calls[i]?.bind Call.inserts?).all fun id => id ∉ scene.shared.born
  | _ => true

/-! ## Steps -/

/-- What other calls rely on. -/
structure Advances (s s' : Tables) : Prop where
  born : ∀ {id}, id ∈ s.born → id ∈ s'.born
  rows : ∀ {id row}, id ∈ s.born → s'.documents.get? id = some row →
    ∃ before, s.documents.get? id = some before ∧ (row = before ∨ before.revision < row.revision)

theorem Draft.Follows.advance {d : Draft} (hd : d.Follows s) (hadvances : Advances s s') : d.Follows s' where
  created := hd.created
  loaded hbase := by
    obtain ⟨hid, hrevision, hrows⟩ := hd.loaded hbase
    refine ⟨hadvances.born hid, hrevision, fun {row} hrow => ?_⟩
    obtain ⟨before, hbefore, rfl | hlt⟩ := hadvances.rows hid hrow
    · exact hrows hbefore
    · rcases hrows hbefore with rfl | hlt'
      · exact .inr hlt
      · exact .inr (hlt'.trans hlt)
  named := hd.named

theorem Advances.of_eq (hborn : s'.born = s.born) (hdocuments : s'.documents = s.documents) : Advances s s' :=
  ⟨fun hid => hborn ▸ hid, fun {_ row} _ hrow => ⟨row, hdocuments ▸ hrow, .inl rfl⟩⟩

theorem Orderly.advance (hcall : Orderly s call) (hadvances : Advances s s') : Orderly s' call :=
  ⟨fun hd => (hcall.follows hd).advance hadvances, hcall.named⟩

theorem Orderly.of_none (hdraft : call.draft? = none) (hsaved : ∀ draft key, call ≠ .saved draft key) : Orderly s call :=
  ⟨fun hd => (by rw [hdraft] at hd; cases hd), fun h => absurd h (hsaved _ _)⟩

theorem Numbered.of_eq (hs : Numbered s) (hborn : s'.born = s.born) (hdocuments : s'.documents = s.documents)
    (hrevisions : s'.revisions = s.revisions) : Numbered s' where
  born hrow := hborn ▸ hs.born (hdocuments ▸ hrow)
  revisions hrow := hrevisions ▸ hs.revisions (hdocuments ▸ hrow)
  owned hr := hdocuments ▸ hs.owned (hrevisions ▸ hr)
  current hrow := hrevisions ▸ hs.current (hdocuments ▸ hrow)

/-- What a draft that was made from the row of a document follows. -/
theorem Draft.Follows.of_row (hs : Numbered s) {d : Draft} {row : DocumentRow} (hrow : s.documents.get? d.id = some row)
    (hbase : d.base = .loaded row) (hrevision : d.revision = row.revision + 1)
    (hnamed : ∀ r, d.expected = some r → r = (row.revision : Int)) : d.Follows s where
  created hcreated := by
    rw [hbase] at hcreated
    cases hcreated
  loaded hloaded := by
    rw [hbase] at hloaded
    cases hloaded
    exact ⟨hs.born hrow, hrevision, fun hrow' => .inl (Option.some.inj (hrow'.symm.trans hrow))⟩
  named r hr := by
    rw [hnamed r hr, hrevision]
    rfl

theorem get?_of_find {place : Place} {id : Nat} {row : DocumentRow} (hfind : s.find place = some (id, row)) :
    s.documents.get? id = some row := Dict.get?_eq_some.2 (List.mem_of_find?_eq_some hfind)

theorem require_ok {ecosystem docId : String} {found : Nat × DocumentRow} (hok : s.require ecosystem docId = .ok found) :
    s.documents.get? found.1 = some found.2 := by
  unfold Tables.require at hok
  obtain ⟨-, -, hok⟩ := ok_of_bind hok
  obtain ⟨slug, -, hok⟩ := ok_of_bind hok
  split at hok
  · cases hok
  · rename_i hfind
    exact Except.ok.inj hok ▸ get?_of_find hfind

theorem checkedContent_follows (hs : Numbered s) {ecosystem docId content : String} {revision : Option Int} {d : Draft}
    (hok : checkedContent s ecosystem docId content revision = .ok d) : d.Follows s := by
  unfold checkedContent at hok
  obtain ⟨-, -, hok⟩ := ok_of_bind hok
  obtain ⟨found, hfound, hok⟩ := ok_of_bind hok
  dsimp only at hok
  split at hok
  · cases hok
  · rename_i hrevision
    obtain ⟨title, -, hok⟩ := ok_of_bind hok
    cases hok
    refine .of_row hs (require_ok hfound) rfl rfl fun r hr => ?_
    have hnone := Option.filter_eq_none_iff.1 hrevision r hr
    simpa using hnone

theorem opened_orderly (hs : Numbered s) (op : Op) : Orderly s (opened h s op) := by
  have hended : Orderly s (.ended .raised) := .of_none rfl fun _ _ h => by cases h
  have hstoring {d : Draft} (hd : d.Follows s) : Orderly s (.storing d) :=
    ⟨fun hdraft => Option.some.inj hdraft ▸ hd, fun h => by cases h⟩
  cases op with
  | saveDocument ecosystem title content docId =>
    unfold opened Call.ofExcept
    dsimp only
    split
    · split
      · rename_i hfind
        exact hstoring (.of_row hs (get?_of_find hfind) rfl rfl fun _ hr => by cases hr)
      · exact .of_none rfl fun _ _ h => by cases h
    · exact hended
  | saveContent ecosystem docId content revision =>
    unfold opened Call.ofExcept
    dsimp only
    split
    · rename_i hok
      exact hstoring (checkedContent_follows hs hok)
    · exact hended
  | saveAsset | delete | deleteAsset =>
    unfold opened Call.ofExcept
    dsimp only
    split
    · exact .of_none rfl fun _ _ h => by cases h
    · exact hended

theorem assigned_self {α : Type} [DecidableEq α] (old new : α) : assigned old new old = new := by
  unfold assigned
  split
  · rename_i heq
    exact heq.symm
  · rfl

theorem Stored.assigned_self (old new : Stored) : old.assigned new old = new := by
  simp only [Stored.assigned, Docs.assigned_self]

/-- A commit stores the next revision of a row that is as it was read, or the first of a new one. -/
theorem rowFor_numbered {draft : Draft} {body : Stored} {row : DocumentRow} (hs : Numbered s) (hd : draft.Follows s)
    (hborn : ∀ {place}, draft.base = .created place → draft.id ∉ s.born) (hrow : s.rowFor draft body = some row)
    (hnone : s.revisions.get? (draft.id, draft.revision) = none) :
    row.title = draft.title ∧ row.body = body ∧ 1 ≤ draft.revision ∧
      (∀ n, (s.revisions.get? (draft.id, n)).isSome = true ↔ 1 ≤ n ∧ n < draft.revision) ∧
      (draft.id ∈ s.born → ∃ before, s.documents.get? draft.id = some before ∧ before.revision < draft.revision) := by
  unfold Tables.rowFor at hrow
  split at hrow
  · rename_i place hbase
    have hnodoc {old : DocumentRow} : s.documents.get? draft.id ≠ some old := fun hold => hborn hbase (hs.born hold)
    split at hrow
    · cases hrow
      refine ⟨rfl, rfl, (hd.created hbase).ge, fun n => ?_, fun hid => absurd hid (hborn hbase)⟩
      rw [hd.created hbase]
      constructor
      · intro hsome
        obtain ⟨r, hr⟩ := Option.isSome_iff_exists.1 hsome
        obtain ⟨old, hold⟩ := hs.owned hr
        exact absurd hold hnodoc
      · omega
    · cases hrow
  · rename_i old hbase
    obtain ⟨before, hbefore, rfl⟩ := Option.map_eq_some_iff.1 hrow
    obtain ⟨-, hrevision, hrows⟩ := hd.loaded hbase
    -- the number is free, so the row has not gone on since it was read
    have hfree := (not_congr (hs.revisions hbefore draft.revision)).1 (by rw [hnone]; exact Bool.false_ne_true)
    have hsame : before = old := by
      rcases hrows hbefore with heq | hlt
      · exact heq
      · omega
    subst hsame
    refine ⟨assigned_self _ _, Stored.assigned_self _ _, by omega, fun n => ?_, fun _ => ⟨before, hbefore, by omega⟩⟩
    rw [hs.revisions hbefore]
    omega

theorem commitSave_numbered {draft : Draft} {key : Nat} (hs : Numbered s) (hd : draft.Follows s)
    (hborn : ∀ {place}, draft.base = .created place → draft.id ∉ s.born) (hcommit : s.commitSave h draft key = some s') :
    Numbered s' ∧ Advances s s' := by
  obtain ⟨new, hnew, hnone, rfl⟩ := commitSave_cases hcommit
  obtain ⟨htitle, hbody, hpos, hnumbers, hbefore⟩ := rowFor_numbered hs hd hborn hnew hnone
  have hrevision := (rowFor_cases hnew).1
  unfold Tables.withRevision
  refine ⟨⟨fun {id row} hrow => ?_, fun {id row} hrow n => ?_, fun {id n r} hr => ?_, fun {id row} hrow => ?_⟩,
    ⟨fun hid => List.mem_cons_of_mem _ hid, fun {id row} hid hrow => ?_⟩⟩
  · rw [Dict.get?_set] at hrow
    split at hrow
    · rename_i heq
      exact heq ▸ List.mem_cons_self ..
    · exact List.mem_cons_of_mem _ (hs.born hrow)
  · rw [Dict.get?_set] at hrow ⊢
    split at hrow
    · rename_i heq
      cases hrow
      subst heq
      rw [hrevision]
      by_cases hn : n = draft.revision
      · rw [if_pos (by rw [hn])]
        simp only [Option.isSome_some, true_iff]
        omega
      · rw [if_neg fun h => hn (congrArg Prod.snd h), hnumbers]
        omega
    · rename_i hne
      rw [if_neg fun h => hne (congrArg Prod.fst h)]
      exact hs.revisions hrow n
  · rw [Dict.get?_set] at hr ⊢
    split
    · exact ⟨_, rfl⟩
    · rename_i hne
      rw [if_neg fun h => hne (congrArg Prod.fst h)] at hr
      exact hs.owned hr
  · rw [Dict.get?_set] at hrow ⊢
    split at hrow
    · rename_i heq
      cases hrow
      rw [heq, hrevision, if_pos rfl, htitle, hbody]
    · rename_i hne
      rw [if_neg fun h => hne (congrArg Prod.fst h)]
      exact hs.current hrow
  · rw [Dict.get?_set] at hrow
    split at hrow
    · rename_i heq
      cases hrow
      subst heq
      obtain ⟨before, hold, hlt⟩ := hbefore hid
      exact ⟨before, hold, .inr (hrevision ▸ hlt)⟩
    · exact ⟨row, hrow, .inl rfl⟩

theorem drop_numbered (hs : Numbered s) (id : Nat) : Numbered (s.drop id) ∧ Advances s (s.drop id) := by
  have hrow {d : Nat} {row : DocumentRow} (hd : (s.drop id).documents.get? d = some row) :
      d ≠ id ∧ s.documents.get? d = some row := by
    rw [Tables.drop, Dict.get?_erase] at hd
    split at hd
    · cases hd
    · rename_i hne
      exact ⟨hne, hd⟩
  have hrevision {d n : Nat} (hne : d ≠ id) : (s.drop id).revisions.get? (d, n) = s.revisions.get? (d, n) := by
    rw [Tables.drop, Dict.get?_keep]
    cases s.revisions.get? (d, n) with
    | none => rfl
    | some r => rw [Option.filter_some, if_pos (decide_eq_true hne)]
  refine ⟨⟨fun hd => hs.born (hrow hd).2, fun hd n => ?_, fun {d n r} hr => ?_, fun hd => ?_⟩, fun hid => hid,
    fun _ hd => ⟨_, (hrow hd).2, .inl rfl⟩⟩
  · rw [hrevision (hrow hd).1]
    exact hs.revisions (hrow hd).2 n
  · have hkept : (s.revisions.get? (d, n)).filter (fun _ => decide (d ≠ id)) = some r := (Dict.get?_keep _ _ _).symm.trans hr
    obtain ⟨hr, hne⟩ := Option.filter_eq_some_iff.1 hkept
    obtain ⟨row, hdoc⟩ := hs.owned hr
    exact ⟨row, by rw [Tables.drop, Dict.get?_erase, if_neg (of_decide_eq_true hne)]; exact hdoc⟩
  · rw [hrevision (hrow hd).1]
    exact hs.current (hrow hd).2

/-- A step that writes no document. -/
theorem numbered_same (hs : Numbered s) (hborn : s'.born = s.born) (hdocuments : s'.documents = s.documents)
    (hrevisions : s'.revisions = s.revisions) : Numbered s' ∧ Advances s s' :=
  ⟨hs.of_eq hborn hdocuments hrevisions, .of_eq hborn hdocuments⟩

/-- What a step does to the numbers and to the call that makes it. -/
theorem answered_numbered (hs : Numbered s) (hcall : Orderly s call) (reply : Reply)
    (hborn : ∀ id, call.inserts? = some id → id ∉ s.born) :
    (Numbered (answered h s reply call).1 ∧ Advances s (answered h s reply call).1) ∧
      Orderly (answered h s reply call).1 (answered h s reply call).2 := by
  have hsame := numbered_same hs rfl rfl rfl
  cases call with
  | reading op => exact ⟨hsame, opened_orderly hs op⟩
  | flushing place title content =>
    simp only [answered]
    split
    · refine ⟨hsame, ⟨fun hd => ?_, fun h => by cases h⟩⟩
      cases hd
      exact ⟨fun _ => rfl, fun hloaded => (by cases hloaded), fun _ hr => (by cases hr)⟩
    · exact ⟨hsame, .of_none rfl fun _ _ h => by cases h⟩
  | storing draft =>
    have hput : Numbered (s.put draft.content.toUTF8) ∧ Advances s (s.put draft.content.toUTF8) := numbered_same hs rfl rfl rfl
    exact ⟨hput, ⟨fun hd => (hcall.advance hput.2).follows hd, fun h => by cases h⟩⟩
  | saving draft key =>
    have hd := hcall.follows rfl
    simp only [answered]
    split
    · rename_i hcommit
      have hinserts {place : Place} (hbase : draft.base = .created place) : draft.id ∉ s.born := by
        obtain ⟨id, base, expected, revision, title, content⟩ := draft
        cases hbase
        exact hborn id rfl
      refine ⟨commitSave_numbered hs hd hinserts hcommit, ⟨fun hdraft => (by cases hdraft), fun hsaved => ?_⟩⟩
      cases hsaved
      exact hd.named
    · exact ⟨hsame, .of_none rfl fun _ _ h => by cases h⟩
  | saved draft key => exact ⟨hsame, hcall⟩
  | uploading upload => exact ⟨numbered_same hs rfl rfl rfl, .of_none rfl fun _ _ h => by cases h⟩
  | assigning upload key found =>
    simp only [answered]
    split
    · rename_i hcommit
      obtain ⟨assetId, row, rfl, -, -⟩ := commitAsset_cases hcommit
      exact ⟨numbered_same hs rfl rfl rfl, .of_none rfl fun _ _ h => by cases h⟩
    · exact ⟨hsame, .of_none rfl fun _ _ h => by cases h⟩
  | dropping documentId keys => exact ⟨drop_numbered hs documentId, .of_none rfl fun _ _ h => by cases h⟩
  | finding documentId name =>
    simp only [answered]
    split <;> exact ⟨hsame, .of_none rfl fun _ _ h => by cases h⟩
  | clearing keys outcome =>
    cases keys with
    | nil => exact ⟨hsame, .of_none rfl fun _ _ h => by cases h⟩
    | cons key keys => exact ⟨numbered_same hs rfl rfl rfl, .of_none rfl fun _ _ h => by cases h⟩
  | detaching | seeking | collecting | collectingAssets | ended =>
    exact ⟨numbered_same hs rfl rfl rfl, .of_none rfl fun _ _ h => by cases h⟩

theorem refused_orderly (hcall : Orderly s call) : Orderly s (refused call) := by
  cases call with
  | saved => exact hcall
  | _ => exact .of_none rfl fun _ _ h => by cases h

/-! ## Runs -/

theorem step_numbered {scene : Scene Tables Call} {i : Nat} {reply : Reply} (hs : scene.Holds Numbered Orderly)
    (hcall : scene.calls[i]? = some call) (honce : GivenOnce scene (.step i reply) = true) :
    (Numbered ((editors h).step scene.shared call reply).1 ∧ Advances scene.shared ((editors h).step scene.shared call reply).1) ∧
      Orderly ((editors h).step scene.shared call reply).1 ((editors h).step scene.shared call reply).2 := by
  by_cases hok : reply.ok = true
  · simp only [editors, if_pos hok]
    refine answered_numbered hs.shared (hs.calls hcall) reply fun id hid => ?_
    rw [GivenOnce, hcall, Option.bind_some, hid] at honce
    exact of_decide_eq_true honce
  · simp only [editors, if_neg hok]
    exact ⟨numbered_same hs.shared rfl rfl rfl, refused_orderly (hs.calls hcall)⟩

theorem outline (h : Host τ) : Program.Outline (editors h) (fun scene m => GivenOnce scene m = true) Numbered Orderly where
  start := ⟨fun h => (by cases h), fun h => (by cases h), fun h => (by cases h), fun h => (by cases h)⟩
  enter _ := .of_none rfl fun _ _ h => by cases h
  step hs hcall honce := ⟨(step_numbered hs hcall honce).1.1, (step_numbered hs hcall honce).2⟩
  others hs hcall honce _ hother := (hs.calls hother).advance (step_numbered hs hcall honce).1.2
  world := fun {_ e} => e.elim

/-- Each document has exactly the revisions from one to its current one, whose title, key, size and digest it shows, and a save that
named a revision was committed as the one after it. -/
structure Gapless (scene : Scene Tables Call) : Prop where
  revisions : ∀ id row, scene.shared.documents.get? id = some row →
    ∀ n, (scene.shared.revisions.get? (id, n)).isSome = true ↔ 1 ≤ n ∧ n ≤ row.revision
  current : ∀ id row, scene.shared.documents.get? id = some row →
    scene.shared.revisions.get? (id, row.revision) = some ⟨row.title, row.body⟩
  named : ∀ (i : Nat) draft key r, scene.calls[i]? = some (.saved draft key) → draft.expected = some r →
    (draft.revision : Int) = r + 1

/-- However operations interleave, and whatever is refused: where no id is given to two documents, no revision is missing, none is
written twice, and none that an editor did not name is overwritten. -/
theorem gapless_throughout (h : Host τ) (moves : List (Move Op Reply Empty))
    (honce : (editors h).machine.AllSteps (fun _ scene m => GivenOnce scene m = true) moves) :
    (editors h).machine.AllStates (fun _ scene => Gapless scene) moves :=
  Machine.AllSteps.allStates (fun _ hsteps =>
    have hs := (outline h).run hsteps
    ⟨fun _ _ => hs.shared.revisions, fun _ _ => hs.shared.current, fun _ _ _ _ hcall => (hs.calls hcall).named rfl _⟩) honce

def plainHost : Host Unit := ⟨.ascii, fun _ => "", fun _ => (), fun _ => ()⟩

def taken (i : Nat) (id : Nat) : Move Op Reply Empty := .step i ⟨true, id⟩

/-- A document is created, and two editors save from its first revision; the latest move first. -/
def twoEditors : List (Move Op Reply Empty) :=
  [taken 2 0, taken 1 0, taken 2 0, taken 1 0, taken 2 0, taken 1 0, .begin (.saveContent "python" "t" "c" (some 1)),
    .begin (.saveContent "python" "t" "b" (some 1)), taken 0 0, taken 0 0, taken 0 7, taken 0 0,
    .begin (.saveDocument "python" "t" "a" none)]

theorem twoEditors_gapless :
    (((editors plainHost).machine.state twoEditors).shared.documents.get? 7).map (·.revision) = some 2 ∧
      (editors plainHost).machine.AllStates (fun _ scene => Gapless scene) twoEditors :=
  ⟨by decide +kernel, gapless_throughout plainHost twoEditors (by decide +kernel)⟩

/-- An editor has read the second revision of a document when it is deleted; its id goes to a new document, and the save to that. -/
def reusedId : List (Move Op Reply Empty) :=
  [taken 2 0, taken 2 0, taken 4 0, taken 4 0, taken 4 1, taken 4 0, .begin (.saveDocument "python" "u" "d" none),
    taken 3 0, taken 3 0, taken 3 0, taken 3 0, .begin (.delete "python" "t"), taken 2 0,
    .begin (.saveContent "python" "t" "c" none), taken 1 0, taken 1 0, taken 1 0, .begin (.saveContent "python" "t" "b" none),
    taken 0 0, taken 0 0, taken 0 1, taken 0 0, .begin (.saveDocument "python" "t" "a" none)]

theorem reusedId_leaves_gap : ¬ Gapless ((editors plainHost).machine.state reusedId) := by
  intro hgapless
  have hrow : (((editors plainHost).machine.state reusedId).shared.documents.get? 1).map (·.revision) = some 3 := by decide +kernel
  have hnone : (((editors plainHost).machine.state reusedId).shared.revisions.get? (1, 2)).isSome = false := by decide +kernel
  obtain ⟨row, hrow, hrevision⟩ := Option.map_eq_some_iff.1 hrow
  have hsome := (hgapless.revisions 1 row hrow 2).2 ⟨by decide, by omega⟩
  rw [hnone] at hsome
  cases hsome

/-! ## Assets -/

/-- The row that an upload is going to UPDATE, as it was read. -/
def Call.updates? : Call → Option (Nat × Stored)
  | .assigning _ _ found => found
  | _ => none

/-- An UPDATE of an asset finds the row as its call read it. -/
def Undisturbed (scene : Scene Tables Call) : Move Op Reply Empty → Bool
  | .step i _ => (scene.calls[i]?.bind Call.updates?).all fun e => (scene.shared.assets.get? e.1).all fun row => row.body = e.2
  | _ => true

/-- What a row records that was there before a step: nothing clears its object, and no object is written twice. -/
theorem Exact.kept {ref : Ref} (hs : Intact h s) (hmeets : Meets s call) (hchange : Change call s s') (hexact : Exact h s ref)
    (hbody : ∀ {b}, s'.body? ref = some b → s.body? ref = some b) : Exact h s' ref := by
  intro b data hb hdata
  obtain ⟨data', hdata'⟩ := hs.backed (hbody hb)
  rcases hchange.objects hdata' with hkept | hgone
  · rw [hkept] at hdata
    exact hexact _ _ (hbody hb) (hdata'.trans hdata)
  · exact ((hmeets.held hgone).2 (hbody hb) rfl).elim

/-- The rows of assets after a step: those before it, and what an upload commits. -/
theorem answered_assets (h : Host τ) (s : Tables) (reply : Reply) (call : Call) :
    (∀ {a row}, (answered h s reply call).1.assets.get? a = some row → s.assets.get? a = some row) ∨
      ∃ upload key found, call = .assigning upload key found ∧
        s.commitAsset h upload key reply.id found = some (answered h s reply call).1 := by
  cases call with
  | saving draft key =>
    refine .inl fun {a row} hrow => ?_
    simp only [answered] at hrow
    split at hrow
    · rename_i hcommit
      obtain ⟨row', -, -, rfl⟩ := commitSave_cases hcommit
      exact hrow
    · exact hrow
  | assigning upload key found =>
    simp only [answered]
    split
    · rename_i hcommit
      exact .inr ⟨upload, key, found, rfl, hcommit⟩
    · exact .inl fun hrow => hrow
  | dropping documentId keys =>
    exact .inl fun hrow => (Option.filter_eq_some_iff.1 ((Dict.get?_keep _ _ _).symm.trans hrow)).1
  | detaching assetId key =>
    refine .inl fun {a row} hrow => ?_
    simp only [answered, Dict.get?_erase] at hrow
    split at hrow
    · cases hrow
    · exact hrow
  | flushing | finding =>
    refine .inl fun {a row} hrow => ?_
    simp only [answered] at hrow
    split at hrow <;> exact hrow
  | clearing keys outcome =>
    cases keys with
    | nil => exact .inl fun hrow => hrow
    | cons => exact .inl fun hrow => hrow
  | _ => exact .inl fun hrow => hrow

theorem body?_asset {documentId a : Nat} {b : Stored} :
    s.body? (.asset documentId a) = some b ↔ ∃ row, s.assets.get? a = some row ∧ row.documentId = documentId ∧ row.body = b := by
  rw [Tables.body?, Option.map_eq_some_iff]
  constructor
  · rintro ⟨row, hrow, rfl⟩
    obtain ⟨hrow, hid⟩ := Option.filter_eq_some_iff.1 hrow
    exact ⟨row, hrow, of_decide_eq_true hid, rfl⟩
  · rintro ⟨row, hrow, rfl, rfl⟩
    exact ⟨row, Option.filter_eq_some_iff.2 ⟨hrow, decide_eq_true rfl⟩, rfl⟩

/-- A commit that finds the row as it was read, or none, leaves one that is of the object of its call. -/
theorem commitAsset_exact {u : Upload} {key id : Nat} {found : Option (Nat × Stored)} (hs : Intact h s)
    (hmeets : Meets s (.assigning u key found)) (hcommit : s.commitAsset h u key id found = some s')
    (hchange : Change (.assigning u key found) s s')
    (hread : ∀ e, found = some e → ∀ row, s.assets.get? e.1 = some row → row.body = e.2)
    (hexact : ∀ d a, Exact h s (.asset d a)) (d a : Nat) : Exact h s' (.asset d a) := by
  obtain ⟨assetId, new, rfl, hkey, hnew⟩ := commitAsset_cases hcommit
  by_cases ha : a = assetId
  · subst ha
    have hbody : new.body = stored h key u.data := by
      rcases hnew with ⟨-, -, hbody⟩ | ⟨old, before, hfound, hbefore, -, hbody⟩
      · exact hbody
      · rw [hbody, hread _ hfound before hbefore, Stored.assigned_self]
    intro b data hb hdata
    obtain ⟨row, hrow, -, rfl⟩ := body?_asset.1 hb
    rw [Dict.get?_set, if_pos rfl] at hrow
    cases hrow
    have hobject : s.objects.get? new.body.key = some u.data := hkey ▸ (hmeets.pending rfl).1
    rw [Option.some.inj (hdata.symm.trans hobject), hkey]
    exact hbody
  · refine (hexact d a).kept hs hmeets hchange fun hb => ?_
    obtain ⟨row, hrow, hid, hbody⟩ := body?_asset.1 hb
    rw [Dict.get?_set, if_neg ha] at hrow
    exact body?_asset.2 ⟨row, hrow, hid, hbody⟩

theorem answered_exact (hs : Intact h s) (hmeets : Meets s call) (reply : Reply)
    (hread : ∀ e, call.updates? = some e → ∀ row, s.assets.get? e.1 = some row → row.body = e.2)
    (hexact : ∀ d a, Exact h s (.asset d a)) (d a : Nat) : Exact h (answered h s reply call).1 (.asset d a) := by
  have hchange := (moved_answered hs hmeets reply).change
  rcases answered_assets h s reply call with hrows | ⟨upload, key, found, rfl, hcommit⟩
  · refine (hexact d a).kept hs hmeets hchange fun hb => ?_
    obtain ⟨row, hrow, hid, hbody⟩ := body?_asset.1 hb
    exact body?_asset.2 ⟨row, hrows hrow, hid, hbody⟩
  · exact commitAsset_exact hs hmeets hcommit hchange hread hexact d a

theorem exact_next {scene : Scene Tables Call} {m : Move Op Reply Empty} (hs : Safe h scene)
    (hexact : ∀ d a, Exact h scene.shared (.asset d a)) (hm : Undisturbed scene m = true) (d a : Nat) :
    Exact h ((editors h).next scene m).shared (.asset d a) := by
  cases m with
  | begin op => exact hexact d a
  | step i reply =>
    cases hcall : scene.calls[i]? with
    | none => rw [Program.next_none _ hcall]; exact hexact d a
    | some call =>
      rw [Program.next_step _ hcall]
      by_cases hok : reply.ok = true
      · simp only [editors, if_pos hok]
        refine answered_exact hs.intact (hs.calls hcall) reply (fun e he row hrow => ?_) hexact d a
        rw [Undisturbed, hcall, Option.bind_some, he, Option.all_some, hrow] at hm
        exact of_decide_eq_true hm
      · simp only [editors, if_neg hok]
        exact hexact d a
  | other e => exact e.elim

/-- Every asset is of the size and the digest that its row records. -/
def Described (h : Host τ) (scene : Scene Tables Call) : Prop :=
  ∀ a row, scene.shared.assets.get? a = some row →
    ∃ data, scene.shared.objects.get? row.body.key = some data ∧ row.body.size = data.size ∧ row.body.sha256 = h.sha256 data

/-- However operations interleave, and whatever is refused: where no upload writes over another that it has not read. -/
theorem described_throughout (h : Host τ) (moves : List (Move Op Reply Empty))
    (hread : (editors h).machine.AllSteps (fun _ scene m => Undisturbed scene m = true) moves) :
    (editors h).machine.AllStates (fun _ scene => Described h scene) moves := by
  refine Machine.AllSteps.allStates (fun moves hsteps a row hrow => ?_) hread
  have hrun : Safe h ((editors h).machine.state moves) ∧ ∀ d a, Exact h ((editors h).machine.state moves).shared (.asset d a) :=
    Machine.AllSteps.invariant (P := fun _ scene => Safe h scene ∧ ∀ d a, Exact h scene.shared (.asset d a))
      ⟨safe_throughout h [], fun d a b data hb => (by cases hb)⟩ (fun _ _ _ hs hm => ⟨hs.1.next _, exact_next hs.1 hs.2 hm⟩) hsteps
  have hbody := body?_asset.2 ⟨row, hrow, rfl, rfl⟩
  obtain ⟨data, hdata⟩ := hrun.1.intact.backed hbody
  refine ⟨data, hdata, ?_⟩
  rw [hrun.2 _ _ _ _ hbody hdata]
  exact ⟨rfl, rfl⟩

/-- A document with a picture of one byte, the latest move first. -/
def picture : List (Move Op Reply Empty) :=
  [taken 1 5, taken 1 0, taken 1 0, taken 1 0, .begin (.saveAsset "python" "t" "p.png" ⟨#[1]⟩),
    taken 0 0, taken 0 0, taken 0 7, taken 0 0, .begin (.saveDocument "python" "t" "a" none)]

/-- It is replaced by one of two bytes. -/
def replacedPicture : List (Move Op Reply Empty) :=
  [taken 2 0, taken 2 0, taken 2 0, taken 2 0, .begin (.saveAsset "python" "t" "p.png" ⟨#[2, 2]⟩)] ++ picture

theorem replacedPicture_described :
    (((editors plainHost).machine.state replacedPicture).shared.assets.get? 5).map (·.body.size) = some 2 ∧
      (editors plainHost).machine.AllStates (fun _ scene => Described plainHost scene) replacedPicture :=
  ⟨by decide +kernel, described_throughout plainHost replacedPicture (by decide +kernel)⟩

/-- Two uploads have read it, and the last to commit is of one byte as well: its size is not written. -/
def overlappingUploads : List (Move Op Reply Empty) :=
  [taken 3 0, taken 2 0, taken 3 0, taken 2 0, taken 3 0, taken 2 0, taken 3 0, taken 2 0,
    .begin (.saveAsset "python" "t" "p.png" ⟨#[3]⟩), .begin (.saveAsset "python" "t" "p.png" ⟨#[2, 2]⟩)] ++ picture

theorem overlappingUploads_misdescribed : ¬ Described plainHost ((editors plainHost).machine.state overlappingUploads) := by
  intro hdescribed
  have hrow : (((editors plainHost).machine.state overlappingUploads).shared.assets.get? 5).map (·.body) = some ⟨3, 2, ""⟩ := by
    decide +kernel
  have hdata : ((editors plainHost).machine.state overlappingUploads).shared.objects.get? 3 = some ⟨#[3]⟩ := by decide +kernel
  obtain ⟨row, hrow, hbody⟩ := Option.map_eq_some_iff.1 hrow
  obtain ⟨data, hobject, hsize, -⟩ := hdescribed 5 row hrow
  rw [hbody, hdata] at hobject
  cases hobject
  rw [hbody] at hsize
  exact absurd hsize (by decide)

end OpenFish.Docs
