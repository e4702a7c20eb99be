/-
What a call does to the findings, one change at a time, and the history its events make.

`Change` lists the ways the tables change: attributes nothing depends on, a finding opened with its
first event, a finding moved with the event of the move. Every call is a sequence of such changes
(`step_evolves`), so an invariant of the findings is one that every change keeps.
-/
import OpenFish.Findings.Operations
import OpenFish.Lib.Trail
import Mathlib.Logic.Relation

namespace OpenFish.Findings

open Lib

/-! ## Changes -/

/-- What stays of a finding for good. -/
structure SameFinding (r r' : Finding) : Prop where
  id : r'.id = r.id
  repoId : r'.repoId = r.repoId
  fingerprint : r'.fingerprint = r.fingerprint
  ruleId : r'.ruleId = r.ruleId
  level : r'.level = r.level

/-- What a re-observation leaves alone beside that. -/
structure Noted (r r' : Finding) : Prop extends SameFinding r r' where
  status : r'.status = r.status
  owner : r'.owner = r.owner
  due : r'.due = r.due

/-- A deferral somebody answers for. -/
structure OwnedDebt (f : Finding) : Prop where
  owner : ∃ o, f.owner = some o ∧ Text.blank o = false
  due : f.due.isSome = true
  level : f.level = .debt

/-- The moves of a finding: deferred only as owned debt. -/
structure Move (r r' : Finding) : Prop extends SameFinding r r' where
  deferral : r'.status ∈ deferredStatuses → OwnedDebt r'

/-- One change of the tables. -/
inductive Change (st : Store) : Store → Prop
  | noted (id : Nat) (f : Finding → Finding) (hf : ∀ r, key (f r) = key r) :
      (∀ r, Noted r (f r)) → Change st (st.assign id f hf)
  | opened (mk : Nat → Finding) (hmk : ∀ k, key (mk k) = k) (t : Transition) :
      (∀ k, (mk k).status = .open) → t.findingId = st.findings.next → t.fromStatus = none → t.toStatus = .open →
      Change st ((st.addFinding mk hmk).recordEvent t)
  | moved (r : Finding) (f : Finding → Finding) (hf : ∀ r, key (f r) = key r) (t : Transition) :
      st.finding? r.id = some r → Move r (f r) →
      t.findingId = r.id → t.fromStatus = some r.status → t.toStatus = (f r).status →
      Change st ((st.assign r.id f hf).recordEvent t)
  | aside (evidence : List FindingEvidence) (runs : Table ReviewRun) :
      Change st { st with evidence := evidence, runs := runs }

/-- Any number of changes. -/
abbrev Evolves : Store → Store → Prop := Relation.ReflTransGen Change

/-! ## Finding a row -/

theorem finding?_of_mem {st : Store} {r : Finding} (h : r ∈ st.findings.rows) : st.finding? r.id = some r :=
  Table.get?_of_mem h

theorem finding?_mem {st : Store} {k : Nat} {r : Finding} (h : st.finding? k = some r) :
    r ∈ st.findings.rows ∧ r.id = k :=
  Table.get?_eq_some.1 h

theorem byFingerprint_mem {st : Store} {repo : Nat} {digest : String} {r : Finding}
    (h : st.byFingerprint repo digest = some r) : r ∈ st.findings.rows :=
  List.mem_of_find?_eq_some h

theorem finding?_assign (st : Store) (id : Nat) (f : Finding → Finding) (hf : ∀ r, key (f r) = key r) (k : Nat) :
    (st.assign id f hf).finding? k = (st.finding? k).map fun r => if r.id == id then f r else r :=
  Table.get?_update hf k

theorem finding?_assign_self {st : Store} {f : Finding → Finding} {hf : ∀ r, key (f r) = key r} {r : Finding}
    (h : st.finding? r.id = some r) : (st.assign r.id f hf).finding? r.id = some (f r) := by
  rw [finding?_assign, h, Option.map_some, if_pos (beq_self_eq_true _)]

/-! ## Moves -/

theorem move_setOpen (r : Finding) : Move r (setOpen r) :=
  ⟨⟨rfl, rfl, rfl, rfl, rfl⟩, fun h => absurd h (show FindingStatus.open ∉ deferredStatuses by decide)⟩

theorem move_setReopened (r : Finding) : Move r (setReopened r) :=
  ⟨⟨rfl, rfl, rfl, rfl, rfl⟩, fun h => absurd h (show FindingStatus.open ∉ deferredStatuses by decide)⟩

theorem requireDebtFields_ok {action : DecisionAction} {owner : Option String} {due : Option Date} :
    requireDebtFields action owner due = .ok () ↔ ownerText owner ≠ "" ∧ due.isSome = true := by
  unfold requireDebtFields missingDebtFields
  by_cases ho : ownerText owner = ""
  · simp [ho]
  · cases due <;> simp [ho]

theorem ownerText_nonblank {owner : Option String} (h : ownerText owner ≠ "") :
    Text.blank (ownerText owner) = false := by
  unfold Text.blank
  rw [show Text.strip (ownerText owner) = ownerText owner from Text.strip_strip _]
  simpa using h

/-- What the migration table admits: a deferral of debt with an owner and a due date, or `fixed`. -/
theorem migration_ok {a : DecideArgs} {f : Finding} {to_ : FindingStatus} {reason : String}
    (h : migration a f = .ok (to_, reason)) :
    (f.level = .debt ∧ ownerText a.owner ≠ "" ∧ a.due.isSome = true) ∨ to_ = .fixed := by
  unfold migration at h
  dsimp only at h
  split at h
  · cases h
  · split at h
    · -- a deferring action
      split at h
      · cases h
      · rename_i hlevel
        split at h
        · cases h
        · rename_i hfields
          split at h
          · cases h
          · refine .inl ⟨?_, requireDebtFields_ok.1 hfields⟩
            cases hl : f.level with
            | blocking => exact absurd hl hlevel
            | debt => rfl
    · -- a closing action
      split at h
      · split at h
        · split at h
          · cases h
          · cases h; exact .inr rfl
        · cases h; exact .inr rfl
      · cases h

theorem sameFinding_setDecided (a : DecideArgs) (to_ : FindingStatus) (r : Finding) :
    SameFinding r (setDecided a to_ r) := by
  unfold setDecided
  dsimp only
  split <;> exact ⟨rfl, rfl, rfl, rfl, rfl⟩

theorem move_setDecided {a : DecideArgs} {f : Finding} {to_ : FindingStatus} {reason : String}
    (h : migration a f = .ok (to_, reason)) : Move f (setDecided a to_ f) := by
  have hsame := sameFinding_setDecided a to_ f
  refine ⟨hsame, fun hd => ?_⟩
  have hto : to_ ∈ deferredStatuses := hd
  rcases migration_ok h with ⟨hlevel, howner, hdue⟩ | rfl
  · have howner' : (setDecided a to_ f).owner = some (ownerText a.owner) := by unfold setDecided; rw [if_pos hto]
    have hdue' : (setDecided a to_ f).due = a.due := by unfold setDecided; rw [if_pos hto]
    exact ⟨⟨_, howner', ownerText_nonblank howner⟩, hdue' ▸ hdue, hsame.level.trans hlevel⟩
  · exact absurd hto (by decide)

/-! ## Every call -/

theorem decide_evolves (a : DecideArgs) (st : Store) : Evolves st (Findings.decide a st).2 := by
  unfold Findings.decide
  split
  · exact .refl
  · rename_i f hf
    split
    · exact .refl
    · rename_i to_ reason hm
      obtain ⟨hmem, -⟩ := finding?_mem hf
      exact .single (.moved f _ _ _ (finding?_of_mem hmem) (move_setDecided hm) rfl rfl rfl)

theorem noted_setObserved (runId : Option Nat) (entry : Entry) (r : Finding) : Noted r (setObserved runId entry r) :=
  ⟨⟨rfl, rfl, rfl, rfl, rfl⟩, rfl, rfl, rfl⟩

theorem noted_setNoisy (detail : String) (r : Finding) : Noted r (setNoisy detail r) :=
  ⟨⟨rfl, rfl, rfl, rfl, rfl⟩, rfl, rfl, rfl⟩

/-- A finding noted and then moved, with the event of the move. -/
theorem evolves_noted_moved {st : Store} {r : Finding} {g f : Finding → Finding} {hg : ∀ r, key (g r) = key r}
    {hf : ∀ r, key (f r) = key r} {t : Transition} (hr : r ∈ st.findings.rows) (hn : ∀ r, Noted r (g r))
    (hm : Move (g r) (f (g r))) (hid : t.findingId = r.id) (hfrom : t.fromStatus = some r.status)
    (hto : t.toStatus = (f (g r)).status) :
    Evolves st (((st.assign r.id g hg).assign r.id f hf).recordEvent t) := by
  have hn' : Change st (st.assign r.id g hg) := .noted r.id g hg hn
  have hrow : (st.assign r.id g hg).finding? r.id = some (g r) := finding?_assign_self (finding?_of_mem hr)
  have hkey : (g r).id = r.id := (hn r).id
  refine .tail (.single hn') ?_
  rw [← hkey] at hrow hid ⊢
  exact .moved (g r) f hf t (by rw [hkey] at hrow ⊢; exact hrow) hm hid (by rw [hfrom, (hn r).status]) hto

theorem matchEntry_evolves (a : IngestArgs) (entry : Entry) {existing : Finding} (t : Tally) {st : Store}
    (h : existing ∈ st.findings.rows) : Evolves st (matchEntry a entry existing t st).2 := by
  have hnoted : Evolves st (st.assign existing.id (setObserved a.runId entry) fun _ => rfl) :=
    .single (.noted _ _ _ (noted_setObserved a.runId entry))
  have hreopen : ∀ now reason, Evolves st (((st.assign existing.id (setObserved a.runId entry) fun _ => rfl).assign
      existing.id setReopened fun _ => rfl).recordEvent
        { findingId := existing.id, at_ := now, actor := "system", fromStatus := some existing.status,
          toStatus := .open, reason := reason, runId := a.runId }) := fun _ _ =>
    evolves_noted_moved h (noted_setObserved a.runId entry) (move_setReopened _) rfl rfl rfl
  unfold matchEntry
  dsimp only
  cases hs : existing.status with
  | «open» | fixed => exact hnoted
  | stale => exact evolves_noted_moved h (noted_setObserved a.runId entry) (move_setOpen _) rfl (by rw [hs]) rfl
  | acknowledged | wontfix =>
    rw [hs] at hreopen
    dsimp only
    split
    · exact hnoted
    · exact hnoted
    · exact hreopen _ _

theorem attachEvidence_aside (findingId : Nat) (rows : List EvidenceRow) (st : Store) :
    Change st (attachEvidence findingId rows st).2 :=
  .aside _ _

theorem ingestEntry_evolves (sha256 : String → String) (a : IngestArgs) (repo : Nat) (entry : Entry) (t : Tally)
    (st : Store) : Evolves st (ingestEntry sha256 a repo entry t st).2 := by
  unfold ingestEntry
  dsimp only
  split
  · exact .refl
  · split
    · split
      · exact .refl
      · exact .tail (.single (.opened _ _ _ (fun _ => rfl) rfl rfl rfl)) (attachEvidence_aside _ _ _)
    · rename_i existing hx
      exact matchEntry_evolves a entry t (byFingerprint_mem hx)

theorem ingestEntries_evolves (sha256 : String → String) (a : IngestArgs) (repo : Nat) (entries : List Entry)
    (t : Tally) (st : Store) : Evolves st (ingestEntries sha256 a repo entries t st).2 := by
  induction entries generalizing t st with
  | nil => exact .refl
  | cons entry entries ih =>
    have h := ingestEntry_evolves sha256 a repo entry t st
    unfold ingestEntries
    split
    · rename_i e st' he; rw [he] at h; exact h
    · rename_i t' st' he; rw [he] at h; exact h.trans (ih t' st')

/-! ## The escalation sweep -/

theorem finding?_escalate {runId : Option Nat} {now : Time} {st : Store} {row : Finding} {k : Nat} (h : k ≠ row.id) :
    (escalate runId now st row).finding? k = st.finding? k := by
  refine (finding?_assign st row.id setReopened (fun _ => rfl) k).trans ?_
  cases hk : st.finding? k with
  | none => rfl
  | some r =>
    have : r.id ≠ row.id := by rw [(finding?_mem hk).2]; exact h
    rw [Option.map_some, if_neg (by simpa using this)]

/-- Rows of distinct findings, read before the sweep, are reopened from the status they were read in. -/
theorem foldl_escalate_evolves (runId : Option Nat) (now : Time) (rows : List Finding) (st : Store)
    (hst : ∀ r ∈ rows, st.finding? r.id = some r) (hnd : (rows.map (·.id)).Nodup) :
    Evolves st (rows.foldl (escalate runId now) st) := by
  induction rows generalizing st with
  | nil => exact .refl
  | cons r rows ih =>
    obtain ⟨hr, hnd⟩ := List.nodup_cons.1 hnd
    have hstep : Change st (escalate runId now st r) :=
      .moved r _ _ _ (hst r (List.mem_cons_self ..)) (move_setReopened r) rfl rfl rfl
    -- the other rows of the sweep are still as they were read
    refine .head hstep (ih _ (fun r' hr' => ?_) hnd)
    have hne : r'.id ≠ r.id := fun heq => hr (List.mem_map.2 ⟨r', hr', heq⟩)
    rw [finding?_escalate hne]
    exact hst r' (List.mem_cons_of_mem _ hr')

theorem mem_deferredFindings {order : List Nat} {repo : Nat} {st : Store} {r : Finding} :
    r ∈ deferredFindings order repo st ↔
      r ∈ st.findings.rows ∧ r.repoId = repo ∧ r.status ∈ deferredStatuses := by
  simp [deferredFindings]

theorem deferredFindings_nodup (order : List Nat) (repo : Nat) (st : Store) :
    ((deferredFindings order repo st).map (·.id)).Nodup := by
  unfold deferredFindings
  rw [((List.perm_insertionSort _ _).map _).nodup_iff]
  exact st.findings.nodup.sublist (List.filter_sublist.map _)

theorem applyEscalation_evolves (a : IngestArgs) (repo : Nat) (exclude : List Nat) (st : Store) :
    Evolves st (applyEscalation a repo exclude st).2 := by
  unfold applyEscalation
  split
  · exact .refl
  · refine foldl_escalate_evolves _ _ _ _ (fun r hr => ?_) ?_
    · exact finding?_of_mem (mem_deferredFindings.1 (List.mem_of_mem_filter hr)).1
    · exact (deferredFindings_nodup a.order repo st).sublist (List.filter_sublist.map _)

theorem ingest_evolves (sha256 : String → String) (a : IngestArgs) (findings : List (Option Entry)) (st : Store) :
    Evolves st (ingest sha256 a findings st).2 := by
  unfold ingest
  split
  · exact .refl
  · rename_i repo _
    dsimp only
    split
    · exact .refl
    · have h := ingestEntries_evolves sha256 a repo findings.reduceOption {} st
      split
      · rename_i e st' he; rw [he] at h; exact h
      · rename_i t st' he
        rw [he] at h
        exact (h.trans (applyEscalation_evolves a repo t.seenIds st')).tail (.aside _ _)

/-! ## Rule governance -/

theorem watchRule_evolves (sha256 : String → String) (a : WatchArgs) (repo : Nat) (w : Watched × Store)
    (rule : String × Nat) : Evolves w.2 (watchRule sha256 a repo w rule).2 := by
  unfold watchRule
  dsimp only
  split
  · exact .single (.opened _ _ _ (fun _ => rfl) rfl rfl rfl)
  · rename_i f hf
    have hmem := byFingerprint_mem hf
    dsimp only
    split
    · rename_i hs
      exact evolves_noted_moved hmem (noted_setNoisy _) (move_setOpen _) rfl (by rw [hs]) rfl
    · exact .single (.noted _ _ _ (noted_setNoisy _))

theorem foldl_watchRule_evolves (sha256 : String → String) (a : WatchArgs) (repo : Nat) (rules : List (String × Nat))
    (w : Watched × Store) : Evolves w.2 (rules.foldl (watchRule sha256 a repo) w).2 := by
  induction rules generalizing w with
  | nil => exact .refl
  | cons rule rules ih => exact (watchRule_evolves sha256 a repo w rule).trans (ih _)

theorem ruleQualityWatch_evolves (sha256 : String → String) (a : WatchArgs) (st : Store) :
    Evolves st (ruleQualityWatch sha256 a st).2 := by
  unfold ruleQualityWatch
  split
  · exact .refl
  · exact foldl_watchRule_evolves sha256 a _ _ ({}, st)

/-- What one call does: a sequence of changes, all of them or, rolled back, none. -/
theorem step_evolves (sha256 : String → String) (st : Store) (c : Call) : Evolves st (step sha256 st c).2 := by
  have h : Evolves st (perform sha256 st c.op).2 := by
    cases c.op with
    | ingest a findings => exact ingest_evolves sha256 a findings st
    | decide a => exact decide_evolves a st
    | ruleQualityWatch a => exact ruleQualityWatch_evolves sha256 a st
  show Evolves st (if c.commit then _ else st)
  split
  · exact h
  · exact .refl

/-- The rule of changes: what holds of the empty tables and is kept by every change holds after every
run. -/
theorem evolves_invariant {sha256 : String → String} {runs : Table ReviewRun} {repos : List Repo} {P : Store → Prop}
    (h0 : P (findings sha256 runs repos).start) (hc : ∀ st st', P st → Change st st' → P st') (cs : List Call) :
    P ((findings sha256 runs repos).state cs) := by
  refine Machine.invariant (M := findings sha256 runs repos) (P := fun _ st => P st) h0 (fun _ st c hP => ?_) cs
  exact (step_evolves sha256 st c).head_induction_on (motive := fun st _ => P st → P _) id
    (fun hch _ ih hP => ih (hc _ _ hP hch)) hP

end OpenFish.Findings
