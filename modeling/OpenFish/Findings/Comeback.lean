/-
A fixed finding that a review reports again: the batch leaves it fixed and records nothing, whatever the run before it did.
-/
import OpenFish.Findings.Escalation

namespace OpenFish.Findings

open Lib

/-! ## What the batch is to do -/

/-- The last event that took a finding out of `open`. -/
def lastClosing (st : Store) (id : Nat) : Option FindingEvent :=
  ((st.eventsFor id).filter fun e => e.toStatus ≠ .open).getLast?

/-- The last closing decision is a fix, and not of a false positive. -/
def ReallyFixed (st : Store) (f : Finding) : Prop :=
  ∃ e, lastClosing st f.id = some e ∧ e.toStatus = .fixed ∧ e.reason ≠ reasonFalsePositive

/-- The events of a finding that were recorded since. -/
def newEvents (st st' : Store) (id : Nat) : List FindingEvent := (st'.eventsFor id).drop (st.eventsFor id).length

/-- A batch into its repository reports a finding that was fixed. -/
structure ReportsFixed (sha256 : String → String) (a : IngestArgs) (entries : List (Option Entry)) (st : Store) (f : Finding) :
    Prop where
  row : f ∈ st.findings.rows
  repo : resolveRepoId st.repos a.repo = .ok f.repoId
  reported : Reported sha256 entries.reduceOption f
  fixed : ReallyFixed st f

/-- The finding is visible again, and one event records that it was reopened. -/
def ComesBack (st st' : Store) (f : Finding) : Prop :=
  (∀ f', st'.finding? f.id = some f' → f'.status ≠ .fixed) ∧
    ∃ e, (newEvents st st' f.id).filter (fun e => e.toStatus = .open) = [e]

/-! ## The status of a fixed finding -/

/-- After its last closing decision a finding can only have been opened. -/
theorem status_of_lastClosing {st : Store} (h : Recorded st) {f : Finding} (hf : f ∈ st.findings.rows) {e : FindingEvent}
    (he : lastClosing st f.id = some e) : f.status = e.toStatus ∨ f.status = .open := by
  obtain ⟨z, hz, hstatus⟩ := (h.trail f hf).last
  obtain ⟨before, hbefore⟩ := List.getLast?_eq_some_iff.1 hz
  by_cases hopen : z.toStatus = .open
  · exact .inr (hstatus ▸ hopen)
  · have hkeep : [z].filter (fun e => e.toStatus ≠ .open) = [z] := List.filter_cons_of_pos (by simpa using hopen)
    rw [lastClosing, hbefore, List.filter_append, hkeep, List.getLast?_concat] at he
    rw [← Option.some.inj he]
    exact .inl hstatus.symm

/-! ## What a batch leaves as it is -/

/-- A finding stands at a status with its events. -/
structure Standing (id : Nat) (status : FindingStatus) (events : List FindingEvent) (st : Store) : Prop where
  row : ∃ f, st.finding? id = some f ∧ f.status = status
  events : st.eventsFor id = events

section Standing

variable {id : Nat} {status : FindingStatus} {events : List FindingEvent} {st : Store}

theorem Standing.noted (h : Standing id status events st) (k : Nat) (g : Finding → Finding) (hg : ∀ r, key (g r) = key r)
    (hstatus : ∀ r, (g r).status = r.status) : Standing id status events (st.assign k g hg) := by
  obtain ⟨f, hf, hs⟩ := h.row
  refine ⟨⟨_, by rw [finding?_assign, hf, Option.map_some], ?_⟩, h.events⟩
  split
  · rw [hstatus, hs]
  · exact hs

theorem Standing.moved (h : Standing id status events st) {k : Nat} (hk : k ≠ id) (g : Finding → Finding)
    (hg : ∀ r, key (g r) = key r) (t : Transition) (ht : t.findingId = k) :
    Standing id status events ((st.assign k g hg).recordEvent t) := by
  obtain ⟨f, hf, hs⟩ := h.row
  have hid := (finding?_mem hf).2
  refine ⟨⟨f, ?_, hs⟩, ?_⟩
  · refine (finding?_assign st k g hg id).trans ?_
    rw [hf, Option.map_some, if_neg (by rw [hid]; simpa using Ne.symm hk)]
  · rw [eventsFor_recordEvent, if_neg (by rw [ht]; exact hk), List.append_nil]
    exact h.events

theorem Standing.opened (h : Standing id status events st) (mk : Nat → Finding) (hmk : ∀ k, key (mk k) = k) (t : Transition)
    (ht : t.findingId = st.findings.next) : Standing id status events ((st.addFinding mk hmk).recordEvent t) := by
  obtain ⟨f, hf, hs⟩ := h.row
  obtain ⟨hmem, hid⟩ := finding?_mem hf
  have hne : id ≠ st.findings.next := fun heq => Nat.ne_of_lt (st.findings.below f hmem) (hid.trans heq)
  refine ⟨⟨f, ?_, hs⟩, ?_⟩
  · refine (@Table.get?_insert Finding _ st.findings mk hmk id).trans ?_
    rw [if_neg hne]
    exact hf
  · rw [eventsFor_recordEvent, if_neg (by rw [ht]; exact Ne.symm hne), List.append_nil]
    exact h.events

/-- The evidence and the runs are kept apart from the findings and their events. -/
theorem Standing.aside (h : Standing id status events st) (evidence : List FindingEvidence) (runs : Table ReviewRun) :
    Standing id status events { st with evidence := evidence, runs := runs } :=
  ⟨h.row, h.events⟩

theorem matchEntry_standing (hstatus : status = .open ∨ status = .fixed) (a : IngestArgs) (entry : Entry) {existing : Finding}
    (t : Tally) (hexisting : existing ∈ st.findings.rows) (h : Standing id status events st) :
    Standing id status events (matchEntry a entry existing t st).2 := by
  have hnoted : Standing id status events (st.assign existing.id (setObserved a.runId entry) fun _ => rfl) :=
    h.noted _ (setObserved a.runId entry) (fun _ => rfl) fun _ => rfl
  -- a finding that the entry moves is another one
  have hother : existing.status ≠ .open → existing.status ≠ .fixed → existing.id ≠ id := fun hopen hfixed heq => by
    obtain ⟨f, hf, hs⟩ := h.row
    obtain ⟨hmem, hid⟩ := finding?_mem hf
    rw [Table.eq_of_key hexisting hmem (heq.trans hid.symm)] at hopen hfixed
    exact hstatus.elim (fun heq => hopen (hs.trans heq)) fun heq => hfixed (hs.trans heq)
  unfold matchEntry
  dsimp only
  cases hs : existing.status with
  | «open» | fixed => exact hnoted
  | stale => exact hnoted.moved (hother (by rw [hs]; decide) (by rw [hs]; decide)) setOpen _ _ rfl
  | acknowledged | wontfix =>
    have hne := hother (by rw [hs]; decide) (by rw [hs]; decide)
    dsimp only
    split
    · exact hnoted
    · exact hnoted
    · exact hnoted.moved hne setReopened _ _ rfl

theorem ingestEntry_standing (hstatus : status = .open ∨ status = .fixed) (sha256 : String → String) (a : IngestArgs) (repo : Nat)
    (entry : Entry) (t : Tally) (h : Standing id status events st) :
    Standing id status events (ingestEntry sha256 a repo entry t st).2 := by
  unfold ingestEntry
  dsimp only
  split
  · exact h
  · split
    · split
      · exact h
      · exact (h.opened (newFinding repo _ _ _ _ _ a.runId entry) (fun _ => rfl)
          ⟨st.findings.next, a.clock t.seenIds.length, "agent", none, .open, reasonMatched, a.runId⟩ rfl).aside _ _
    · rename_i existing hx
      exact matchEntry_standing hstatus a entry t (byFingerprint_mem hx) h

theorem ingestEntries_standing (hstatus : status = .open ∨ status = .fixed) (sha256 : String → String) (a : IngestArgs)
    (repo : Nat) (entries : List Entry) (t : Tally) (h : Standing id status events st) :
    Standing id status events (ingestEntries sha256 a repo entries t st).2 := by
  induction entries generalizing t st with
  | nil => exact h
  | cons entry entries ih =>
    have hentry := ingestEntry_standing hstatus sha256 a repo entry t h
    unfold ingestEntries
    split
    · rename_i e st' he
      rw [he] at hentry
      exact hentry
    · rename_i t' st' he
      rw [he] at hentry
      exact ih t' hentry

theorem foldl_escalate_standing {rows : List Finding} (hrows : ∀ r ∈ rows, r.id ≠ id) (runId : Option Nat) (now : Time)
    (h : Standing id status events st) : Standing id status events (rows.foldl (escalate runId now) st) := by
  induction rows generalizing st with
  | nil => exact h
  | cons r rows ih =>
    obtain ⟨hr, hrest⟩ := List.forall_mem_cons.1 hrows
    exact ih hrest (h.moved hr setReopened (fun _ => rfl) _ rfl)

theorem applyEscalation_standing (hstatus : status = .open ∨ status = .fixed) (a : IngestArgs) (repo : Nat) (exclude : List Nat)
    (h : Standing id status events st) : Standing id status events (applyEscalation a repo exclude st).2 := by
  unfold applyEscalation
  split
  · exact h
  · refine foldl_escalate_standing (fun r hr heq => ?_) _ _ h
    -- only deferred findings are swept
    obtain ⟨hmem, -, hdeferred⟩ := mem_deferredFindings.1 (List.mem_of_mem_filter hr)
    obtain ⟨f, hf, hs⟩ := h.row
    obtain ⟨hfmem, hid⟩ := finding?_mem hf
    rw [Table.eq_of_key hmem hfmem (heq.trans hid.symm), hs] at hdeferred
    rcases hstatus with rfl | rfl <;> exact absurd hdeferred (by decide)

/-- A batch leaves the status and the events of a finding that is open or fixed as they are. -/
theorem ingest_standing (hstatus : status = .open ∨ status = .fixed) (sha256 : String → String) (a : IngestArgs)
    (entries : List (Option Entry)) (h : Standing id status events st) :
    Standing id status events (ingest sha256 a entries st).2 := by
  unfold ingest
  split
  · exact h
  · rename_i repo _
    dsimp only
    split
    · exact h
    · have hentries := ingestEntries_standing hstatus sha256 a repo entries.reduceOption {} h
      split
      · rename_i e st' he
        rw [he] at hentries
        exact hentries
      · rename_i t st' he
        rw [he] at hentries
        have hswept := applyEscalation_standing hstatus a repo t.seenIds hentries
        exact hswept.aside _ _

end Standing

/-! ## Every batch -/

/-- From any state calls lead to, no batch that reports a fixed finding brings it back. -/
theorem reported_not_comesBack (sha256 : String → String) (runs : Table ReviewRun) (repos : List Repo) (cs : List Call)
    (a : IngestArgs) (entries : List (Option Entry)) (f : Finding)
    (h : ReportsFixed sha256 a entries ((findings sha256 runs repos).state cs) f) :
    ¬ ComesBack ((findings sha256 runs repos).state cs) (ingest sha256 a entries ((findings sha256 runs repos).state cs)).2 f := by
  have hrecorded := recorded_reachable sha256 runs repos cs
  generalize (findings sha256 runs repos).state cs = st at h hrecorded ⊢
  obtain ⟨e, he, hto, -⟩ := h.fixed
  have hstatus : f.status = .open ∨ f.status = .fixed := by
    rcases status_of_lastClosing hrecorded h.row he with hclosed | hopen
    · exact .inr (hclosed.trans hto)
    · exact .inl hopen
  have hstanding : Standing f.id f.status (st.eventsFor f.id) st := ⟨⟨f, finding?_of_mem h.row, rfl⟩, rfl⟩
  have hafter := (ingest_standing hstatus sha256 a entries hstanding).events
  rintro ⟨-, e', hnew⟩
  rw [newEvents, hafter, List.drop_length] at hnew
  cases hnew

/-- Alice fixes the finding of `oneDebt`. -/
def oneFixed : List Call := ⟨.decide { findingId := 1, action := "fixed", actor := "alice" }, true⟩ :: oneDebt

/-- The batch of `oneDebt` again. -/
def reportAgain : IngestArgs × List (Option Entry) :=
  ({ repo := .id 1, runId := none, clock := fun _ => 1 },
   [some { ruleId := some ⟨"r", true⟩, filePath := some ⟨"a.py", true⟩, symbol := some ⟨"f", true⟩ }])

theorem oneFixed_reported : ∃ f, ReportsFixed id reportAgain.1 reportAgain.2 ((findings id Table.empty []).state oneFixed) f ∧
    ¬ ComesBack ((findings id Table.empty []).state oneFixed)
      (ingest id reportAgain.1 reportAgain.2 ((findings id Table.empty []).state oneFixed)).2 f := by
  obtain ⟨f, hf, hrepo, hreported, e, he, hfixed⟩ : ∃ f ∈ ((findings id Table.empty []).state oneFixed).findings.rows,
      f.repoId = 1 ∧ (∃ e ∈ reportAgain.2.reduceOption, e.digest id = f.fingerprint) ∧
      ∃ e ∈ lastClosing ((findings id Table.empty []).state oneFixed) f.id, e.toStatus = .fixed ∧ e.reason ≠ reasonFalsePositive := by
    decide +kernel
  have h : ReportsFixed id reportAgain.1 reportAgain.2 ((findings id Table.empty []).state oneFixed) f :=
    ⟨hf, by rw [hrepo]; rfl, hreported, e, he, hfixed⟩
  exact ⟨f, h, reported_not_comesBack id Table.empty [] oneFixed reportAgain.1 reportAgain.2 f h⟩

/-- The finding that is reported again stays fixed. -/
theorem oneFixed_stays_fixed : ∃ f, ReportsFixed id reportAgain.1 reportAgain.2 ((findings id Table.empty []).state oneFixed) f ∧
    ∃ f', (ingest id reportAgain.1 reportAgain.2 ((findings id Table.empty []).state oneFixed)).2.finding? f.id = some f' ∧
      f'.status = .fixed := by
  obtain ⟨f, hf, hrepo, hreported, ⟨e, he, hfixed⟩, f', hf', hstays⟩ :
      ∃ f ∈ ((findings id Table.empty []).state oneFixed).findings.rows,
      f.repoId = 1 ∧ (∃ e ∈ reportAgain.2.reduceOption, e.digest id = f.fingerprint) ∧
      (∃ e ∈ lastClosing ((findings id Table.empty []).state oneFixed) f.id,
        e.toStatus = .fixed ∧ e.reason ≠ reasonFalsePositive) ∧
      ∃ f' ∈ (ingest id reportAgain.1 reportAgain.2 ((findings id Table.empty []).state oneFixed)).2.finding? f.id,
        f'.status = .fixed := by
    decide +kernel
  exact ⟨f, ⟨hf, by rw [hrepo]; rfl, hreported, e, he, hfixed⟩, f', hf', hstays⟩

end OpenFish.Findings
