/-
The ledger of false positives: `_false_positive_counts` counts events, and counts every finding once exactly as long as no
finding that has a `false_positive` event is decided on that reason again.
-/
import OpenFish.Findings.Activation
import OpenFish.Findings.Decisions

namespace OpenFish.Findings

open Lib

/-! ## What the claim is about -/

/-- The findings of a rule with a `false_positive` event since a moment. -/
def falsePositives (repo : Nat) (rule : String) (since : Time) (st : Store) : List Finding :=
  st.findings.rows.filter fun f => f.repoId == repo && f.ruleId == rule &&
    st.events.rows.any fun e => e.findingId == f.id && e.reason == reasonFalsePositive && decide (since ≤ e.at_)

/-- The ledger counts no more than there are findings. -/
def CountsFindings (st : Store) : Prop :=
  ∀ repo since rule n, (rule, n) ∈ falsePositiveCounts repo since st → n ≤ (falsePositives repo rule since st).length

/-- Every finding that a watch opens is the governance finding of a rule of which as many findings as the threshold
asks for are false positives within the window. -/
def OpensOnNoise (sha256 : String → String) (st : Store) : Prop :=
  ∀ a repo report, resolveRepoId st.repos a.repo = .ok repo → (ruleQualityWatch sha256 a st).1 = .ok report →
    ∀ f ∈ (ruleQualityWatch sha256 a st).2.findings.rows, f.status = .open →
      (∀ old ∈ st.findings.rows, old.id = f.id → old.status ≠ .open) →
      ∃ rule, f.fingerprint = fingerprint sha256 ruleQualityRuleId policyEntryPath ruleQualitySymbol rule ∧
        noiseThreshold a.policy ≤
          (falsePositives repo rule (a.now.getD a.clock - a.windowDays * 86400000000) st).length

/-- The ledger does not double-count, and a watch acts on no double count. -/
structure LedgerSound (sha256 : String → String) (st : Store) : Prop where
  counts : CountsFindings st
  opens : OpensOnNoise sha256 st

/-- A decision that records a `false_positive` event: it closes the finding and a second person confirms, or it defers
it as the invariants allow. -/
def RecordsFalsePositive (a : DecideArgs) (f : Finding) : Prop :=
  a.reason = some reasonFalsePositive ∧
    ((a.parsed = some .fix ∨ a.parsed = some .fixed) ∧
        (∃ c, a.confirmedBy = some c ∧ c ≠ "" ∧ Text.strip c ≠ a.decider) ∨
      (a.parsed = some .acknowledge ∨ a.parsed = some .wontfix) ∧ ¬ DeferralRefused a f)

/-- The call is no committed decision that records a `false_positive` event of a finding that has one. -/
def RedecidesNone (st : Store) (c : Call) : Prop :=
  c.commit = true → ∀ a, c.op = .decide a → ∀ f, st.finding? a.findingId = some f →
    (∃ e ∈ st.events.rows, e.findingId = f.id ∧ e.reason = reasonFalsePositive) → ¬ RecordsFalsePositive a f

/-- No finding has two `false_positive` events. -/
def OnceEach (st : Store) : Prop :=
  ∀ e ∈ st.events.rows, ∀ e' ∈ st.events.rows, e.reason = reasonFalsePositive → e'.reason = reasonFalsePositive →
    e.findingId = e'.findingId → e = e'

/-! ## The count of a rule -/

/-- An event of the window is about a false positive of the rule. -/
def countsAgainst (repo : Nat) (rule : String) (since : Time) (st : Store) (e : FindingEvent) : Bool :=
  decide (e.reason = reasonFalsePositive ∧ since ≤ e.at_) &&
    ((st.findings.rows.find? fun f => f.id == e.findingId && f.repoId == repo).map (·.ruleId) == some rule)

/-- The finding of each event that counts against a rule. -/
def ledger (repo : Nat) (rule : String) (since : Time) (st : Store) : List Nat :=
  (st.events.rows.filter (countsAgainst repo rule since st)).map (·.findingId)

theorem ruleOf_iff {st : Store} {repo k : Nat} {rule : String} :
    (st.findings.rows.find? fun f => f.id == k && f.repoId == repo).map (·.ruleId) = some rule ↔
      ∃ f ∈ st.findings.rows, f.id = k ∧ f.repoId = repo ∧ f.ruleId = rule := by
  constructor
  · intro h
    obtain ⟨f, hf, hrule⟩ := Option.map_eq_some_iff.1 h
    have hat := List.find?_some hf
    simp only [Bool.and_eq_true, beq_iff_eq] at hat
    exact ⟨f, List.mem_of_find?_eq_some hf, hat.1, hat.2, hrule⟩
  · rintro ⟨f, hmem, hid, hrepo, hrule⟩
    cases hf : st.findings.rows.find? fun f => f.id == k && f.repoId == repo with
    | none => exact absurd (List.find?_eq_none.1 hf f hmem) (by simp [hid, hrepo])
    | some f' =>
      have hat := List.find?_some hf
      simp only [Bool.and_eq_true, beq_iff_eq] at hat
      have heq : f' = f := Table.eq_of_key (List.mem_of_find?_eq_some hf) hmem (hat.1.trans hid.symm)
      rw [Option.map_some, heq, hrule]

theorem countsAgainst_iff {repo : Nat} {rule : String} {since : Time} {st : Store} {e : FindingEvent} :
    countsAgainst repo rule since st e = true ↔ (e.reason = reasonFalsePositive ∧ since ≤ e.at_) ∧
      ∃ f ∈ st.findings.rows, f.id = e.findingId ∧ f.repoId = repo ∧ f.ruleId = rule := by
  rw [countsAgainst, Bool.and_eq_true, decide_eq_true_eq, beq_iff_eq, ruleOf_iff]

theorem count_ledger (repo : Nat) (since : Time) (st : Store) (rule : String) :
    (st.events.rows.filterMap fun e =>
      if e.reason = reasonFalsePositive ∧ since ≤ e.at_ then
        (st.findings.rows.find? fun f => f.id == e.findingId && f.repoId == repo).map (·.ruleId)
      else none).count rule = (ledger repo rule since st).length := by
  rw [ledger, List.length_map, ← List.countP_eq_length_filter, List.count, List.countP_filterMap]
  refine List.countP_congr fun e _ => ?_
  rw [countsAgainst]
  by_cases hcounts : e.reason = reasonFalsePositive ∧ since ≤ e.at_
  · rw [if_pos hcounts, decide_eq_true hcounts, Bool.true_and]
    cases (st.findings.rows.find? fun f => f.id == e.findingId && f.repoId == repo).map (·.ruleId) <;> simp
  · rw [if_neg hcounts, decide_eq_false hcounts, Bool.false_and]
    simp

theorem mem_falsePositiveCounts {repo : Nat} {since : Time} {st : Store} {rule : String} {n : Nat} :
    (rule, n) ∈ falsePositiveCounts repo since st ↔ n = (ledger repo rule since st).length ∧ 0 < n := by
  unfold falsePositiveCounts
  rw [List.mem_map]
  constructor
  · rintro ⟨r, hr, heq⟩
    obtain ⟨rfl, rfl⟩ := Prod.mk.inj heq
    exact ⟨count_ledger .., List.count_pos_iff.2 (List.mem_dedup.1 hr)⟩
  · rintro ⟨rfl, hpos⟩
    refine ⟨rule, List.mem_dedup.2 (List.count_pos_iff.1 ?_), Prod.ext rfl (count_ledger ..)⟩
    rw [count_ledger]
    exact hpos

theorem mem_ledger {repo : Nat} {rule : String} {since : Time} {st : Store} {k : Nat} :
    k ∈ ledger repo rule since st ↔ k ∈ (falsePositives repo rule since st).map (·.id) := by
  simp only [ledger, falsePositives, List.mem_map, List.mem_filter, countsAgainst_iff, Bool.and_eq_true,
    decide_eq_true_eq, beq_iff_eq, List.any_eq_true]
  constructor
  · rintro ⟨e, ⟨he, ⟨hreason, hsince⟩, f, hf, hid, hrepo, hrule⟩, rfl⟩
    exact ⟨f, ⟨hf, ⟨hrepo, hrule⟩, e, he, ⟨hid.symm, hreason⟩, hsince⟩, hid⟩
  · rintro ⟨f, ⟨hf, ⟨hrepo, hrule⟩, e, he, ⟨hid, hreason⟩, hsince⟩, rfl⟩
    exact ⟨e, ⟨he, ⟨hreason, hsince⟩, f, hf, hid.symm, hrepo, hrule⟩, hid⟩

theorem falsePositives_nodup (repo : Nat) (rule : String) (since : Time) (st : Store) :
    ((falsePositives repo rule since st).map (·.id)).Nodup :=
  st.findings.nodup.sublist (List.filter_sublist.map _)

/-- The count is the number of findings exactly when none is counted twice. -/
theorem ledger_length_le_iff {repo : Nat} {rule : String} {since : Time} {st : Store} :
    (ledger repo rule since st).length ≤ (falsePositives repo rule since st).length ↔
      (ledger repo rule since st).Nodup := by
  have hlength : (falsePositives repo rule since st).length = ((falsePositives repo rule since st).map (·.id)).length :=
    (List.length_map _).symm
  rw [hlength]
  have hnodup := falsePositives_nodup repo rule since st
  constructor
  · intro h
    have hsub : List.Subperm ((falsePositives repo rule since st).map (·.id)) (ledger repo rule since st) :=
      hnodup.subperm fun k hk => mem_ledger.2 hk
    exact (hsub.perm_of_length_le h).nodup_iff.1 hnodup
  · intro h
    exact (h.subperm fun k hk => mem_ledger.1 hk).length_le

/-! ## The whole ledger -/

/-- Every event is about a finding there is. -/
def Sourced (st : Store) : Prop := ∀ e ∈ st.events.rows, ∃ f ∈ st.findings.rows, f.id = e.findingId

theorem Sourced.change {st st' : Store} (h : Sourced st) (hc : Change st st') : Sourced st' := by
  have hassign : ∀ (id : Nat) (f : Finding → Finding) (hf : ∀ r, key (f r) = key r) (k : Nat),
      (∃ r ∈ st.findings.rows, r.id = k) → ∃ r ∈ (st.assign id f hf).findings.rows, r.id = k := by
    rintro id f hf k ⟨r, hr, rfl⟩
    refine ⟨if r.id == id then f r else r, mem_assign.2 ⟨r, hr, rfl⟩, ?_⟩
    split
    · exact hf r
    · rfl
  cases hc with
  | noted id f hf _ => exact fun e he => hassign id f hf _ (h e he)
  | opened mk hmk t _ hid _ _ =>
    intro e he
    rcases mem_recordEvent.1 he with he | rfl
    · obtain ⟨f, hf, hfid⟩ := h e he
      exact ⟨f, (mem_addFinding hmk).2 (.inl hf), hfid⟩
    · exact ⟨_, (mem_addFinding hmk).2 (.inr rfl), (hmk _).trans hid.symm⟩
  | moved r f hf t hr _ hid _ _ =>
    intro e he
    rcases mem_recordEvent.1 he with he | rfl
    · exact hassign r.id f hf _ (h e he)
    · exact hassign r.id f hf _ ⟨r, (finding?_mem hr).1, hid.symm⟩
  | aside => exact h

theorem OnceEach.ledger_nodup {st : Store} (h : OnceEach st) (repo : Nat) (rule : String) (since : Time) :
    (ledger repo rule since st).Nodup := by
  have hrows : st.events.rows.Nodup := List.Nodup.of_map _ st.events.nodup
  refine List.Nodup.map_on (fun e he e' he' heq => ?_) (hrows.filter _)
  simp only [List.mem_filter, countsAgainst_iff] at he he'
  exact h e he.1 e' he'.1 he.2.1.1 he'.2.1.1 heq

/-- The counts are right for every rule and every window exactly when no finding has two events. -/
theorem countsFindings_iff {st : Store} (hs : Sourced st) : CountsFindings st ↔ OnceEach st := by
  constructor
  · intro h e he e' he' hreason hreason' heq
    obtain ⟨f, hf, hid⟩ := hs e he
    -- a window that both events lie in
    have hnodup : (ledger f.repoId f.ruleId (min e.at_ e'.at_) st).Nodup := by
      by_cases hnil : ledger f.repoId f.ruleId (min e.at_ e'.at_) st = []
      · rw [hnil]
        exact List.nodup_nil
      · exact ledger_length_le_iff.1
          (h _ _ _ _ (mem_falsePositiveCounts.2 ⟨rfl, List.length_pos_of_ne_nil hnil⟩))
    have hin : ∀ x ∈ st.events.rows, x.reason = reasonFalsePositive → min e.at_ e'.at_ ≤ x.at_ → f.id = x.findingId →
        x ∈ st.events.rows.filter (countsAgainst f.repoId f.ruleId (min e.at_ e'.at_) st) := fun x hx hr hat hfid =>
      List.mem_filter.2 ⟨hx, countsAgainst_iff.2 ⟨⟨hr, hat⟩, f, hf, hfid, rfl, rfl⟩⟩
    exact List.inj_on_of_nodup_map hnodup (hin e he hreason (min_le_left ..) hid)
      (hin e' he' hreason' (min_le_right ..) (hid.trans heq)) heq
  · intro h repo since rule n hn
    rw [(mem_falsePositiveCounts.1 hn).1]
    exact ledger_length_le_iff.2 (h.ledger_nodup repo rule since)

/-! ## What a call records -/

/-- Between two states only events of other reasons are recorded. -/
def RecordsNone (st st' : Store) : Prop :=
  ∃ new, st'.events.rows = st.events.rows ++ new ∧ ∀ e ∈ new, e.reason ≠ reasonFalsePositive

theorem RecordsNone.refl (st : Store) : RecordsNone st st := ⟨[], (List.append_nil _).symm, by simp⟩

theorem RecordsNone.trans {st st' st'' : Store} (h : RecordsNone st st') (h' : RecordsNone st' st'') :
    RecordsNone st st'' := by
  obtain ⟨new, hrows, hnew⟩ := h
  obtain ⟨new', hrows', hnew'⟩ := h'
  refine ⟨new ++ new', by rw [hrows', hrows, List.append_assoc], fun e he => ?_⟩
  rcases List.mem_append.1 he with he | he
  · exact hnew e he
  · exact hnew' e he

theorem recordsNone_of_events {st st' : Store} (h : st'.events = st.events) : RecordsNone st st' := by
  rw [RecordsNone, h]
  exact RecordsNone.refl st

theorem recordsNone_recordEvent (st : Store) {t : Transition} (h : t.reason ≠ reasonFalsePositive) :
    RecordsNone st (st.recordEvent t) :=
  ⟨[t.event st.events.next], rfl, fun e he => by rw [List.mem_singleton.1 he]; exact h⟩

theorem RecordsNone.onceEach_iff {st st' : Store} (h : RecordsNone st st') : OnceEach st' ↔ OnceEach st := by
  obtain ⟨new, hrows, hnew⟩ := h
  have hold : ∀ e ∈ st'.events.rows, e.reason = reasonFalsePositive → e ∈ st.events.rows := by
    intro e he hr
    rw [hrows] at he
    exact (List.mem_append.1 he).resolve_right fun hin => hnew e hin hr
  constructor
  · intro ho e he e' he'
    exact ho e (hrows ▸ List.mem_append_left _ he) e' (hrows ▸ List.mem_append_left _ he')
  · intro ho e he e' he' hr hr'
    exact ho e (hold e he hr) e' (hold e' he' hr') hr hr'

theorem matchEntry_recordsNone (a : IngestArgs) (entry : Entry) (existing : Finding) (t : Tally) (st : Store) :
    RecordsNone st (matchEntry a entry existing t st).2 := by
  have hseen : RecordsNone st (st.assign existing.id (setObserved a.runId entry) fun _ => rfl) :=
    recordsNone_of_events rfl
  unfold matchEntry
  dsimp only
  cases existing.status with
  | «open» | fixed => exact hseen
  | stale => exact hseen.trans ((recordsNone_of_events rfl).trans (recordsNone_recordEvent _ (show reasonDrift ≠ _ by decide)))
  | acknowledged | wontfix =>
    dsimp only
    split
    · exact hseen
    · exact hseen
    · rename_i reason hreason
      have hne : reason ≠ reasonFalsePositive := by
        rcases shouldReactivate_reason rfl hreason with rfl | rfl | rfl <;> decide
      exact hseen.trans ((recordsNone_of_events rfl).trans (recordsNone_recordEvent _ hne))

theorem ingestEntry_recordsNone (sha256 : String → String) (a : IngestArgs) (repo : Nat) (entry : Entry) (t : Tally)
    (st : Store) : RecordsNone st (ingestEntry sha256 a repo entry t st).2 := by
  unfold ingestEntry
  dsimp only
  split
  · exact .refl st
  · split
    · split
      · exact .refl st
      · refine (recordsNone_of_events rfl).trans ((recordsNone_recordEvent _ ?_).trans (recordsNone_of_events rfl))
        exact show reasonMatched ≠ _ by decide
    · exact matchEntry_recordsNone ..

theorem ingestEntries_recordsNone (sha256 : String → String) (a : IngestArgs) (repo : Nat) (entries : List Entry)
    (t : Tally) (st : Store) : RecordsNone st (ingestEntries sha256 a repo entries t st).2 := by
  induction entries generalizing t st with
  | nil => exact .refl st
  | cons entry entries ih =>
    have h := ingestEntry_recordsNone sha256 a repo entry t st
    unfold ingestEntries
    split
    · rename_i e st' he; rw [he] at h; exact h
    · rename_i t' st' he; rw [he] at h; exact h.trans (ih t' st')

theorem applyEscalation_recordsNone (a : IngestArgs) (repo : Nat) (exclude : List Nat) (st : Store) :
    RecordsNone st (applyEscalation a repo exclude st).2 := by
  unfold applyEscalation
  split
  · exact .refl st
  · dsimp only
    generalize overThreshold _ _ _ = rows
    generalize a.clock exclude.length = now
    induction rows generalizing st with
    | nil => exact .refl st
    | cons row rows ih =>
      have hrow : RecordsNone st (escalate a.runId now st row) :=
        (recordsNone_of_events rfl).trans (recordsNone_recordEvent _ (show reasonEscalation ≠ _ by decide))
      exact hrow.trans (ih _)

theorem ingest_recordsNone (sha256 : String → String) (a : IngestArgs) (findings : List (Option Entry)) (st : Store) :
    RecordsNone st (ingest sha256 a findings st).2 := by
  unfold ingest
  split
  · exact .refl st
  · rename_i repo _
    dsimp only
    split
    · exact .refl st
    · have h := ingestEntries_recordsNone sha256 a repo findings.reduceOption {} st
      split
      · rename_i e st' he; rw [he] at h; exact h
      · rename_i t st' he
        rw [he] at h
        exact h.trans ((applyEscalation_recordsNone a repo t.seenIds st').trans (recordsNone_of_events rfl))

/-! ## What a watch records -/

/-- No event is about a finding yet to be opened. -/
def Known (st : Store) : Prop := ∀ e ∈ st.events.rows, e.findingId < st.findings.next

theorem Sourced.known {st : Store} (h : Sourced st) : Known st := by
  intro e he
  obtain ⟨f, hf, hid⟩ := h e he
  rw [← hid]
  exact st.findings.below f hf

theorem onceEach_recordEvent (st : Store) {t : Transition} (h : OnceEach st) :
    OnceEach (st.recordEvent t) ↔ t.reason = reasonFalsePositive →
      ¬ ∃ e ∈ st.events.rows, e.findingId = t.findingId ∧ e.reason = reasonFalsePositive := by
  constructor
  · rintro ho hr ⟨e, he, hid, hreason⟩
    have heq := ho e (mem_recordEvent.2 (.inl he)) _ (mem_recordEvent.2 (.inr rfl)) hreason hr hid
    exact Nat.lt_irrefl _ (heq ▸ st.events.below e he)
  · intro hnone e he e' he' hr hr' heq
    rcases mem_recordEvent.1 he with he | rfl
    · rcases mem_recordEvent.1 he' with he' | rfl
      · exact h e he e' he' hr hr' heq
      · exact absurd ⟨e, he, heq, hr⟩ (hnone hr')
    · rcases mem_recordEvent.1 he' with he' | rfl
      · exact absurd ⟨e', he', heq.symm, hr'⟩ (hnone hr)
      · rfl

theorem watchRule_onceEach (sha256 : String → String) (a : WatchArgs) (repo : Nat) (w : Watched × Store)
    (rule : String × Nat) (hs : Sourced w.2) (h : OnceEach w.2) : OnceEach (watchRule sha256 a repo w rule).2 := by
  unfold watchRule
  dsimp only
  split
  · refine (onceEach_recordEvent (w.2.addFinding _ fun _ => rfl) h).2 ?_
    rintro - ⟨e, he, hid, -⟩
    exact Nat.ne_of_lt (hs.known e he) hid
  · rename_i f _
    dsimp only
    split
    · -- reopened, and logged as an escalation
      have hnone := recordsNone_recordEvent
        ((w.2.assign f.id (setNoisy (noiseDetail a rule.1 rule.2)) fun _ => rfl).assign f.id setOpen fun _ => rfl)
        (t := { findingId := f.id, at_ := a.now.getD a.clock, actor := a.actor, fromStatus := some .fixed,
                toStatus := .open, reason := reasonEscalation, runId := none })
        (show reasonEscalation ≠ reasonFalsePositive by decide)
      exact ((recordsNone_of_events rfl).trans hnone).onceEach_iff.2 h
    · exact h

theorem foldl_watchRule_onceEach (sha256 : String → String) (a : WatchArgs) (repo : Nat) (rules : List (String × Nat))
    (w : Watched × Store) (hs : Sourced w.2) (h : OnceEach w.2) :
    OnceEach (rules.foldl (watchRule sha256 a repo) w).2 := by
  induction rules generalizing w with
  | nil => exact h
  | cons rule rules ih =>
    refine ih _ ?_ (watchRule_onceEach sha256 a repo w rule hs h)
    exact (watchRule_evolves sha256 a repo w rule).head_induction_on (motive := fun st _ => Sourced st → Sourced _) id
      (fun hch _ ih hP => ih (hP.change hch)) hs

/-- A finding of some state as an open one of an earlier state. -/
def WasOpen (st : Store) (f : Finding) : Prop :=
  ∃ old ∈ st.findings.rows, old.id = f.id ∧ old.fingerprint = f.fingerprint ∧ old.status = .open

/-- A finding that is open after a turn of the watch was open before, or is the governance finding of the rule. -/
theorem open_watchRule {sha256 : String → String} {a : WatchArgs} {repo : Nat} {w : Watched × Store}
    {rule : String × Nat} {f : Finding} (hf : f ∈ (watchRule sha256 a repo w rule).2.findings.rows)
    (hopen : f.status = .open) :
    WasOpen w.2 f ∨
      f.fingerprint = fingerprint sha256 ruleQualityRuleId policyEntryPath ruleQualitySymbol rule.1 := by
  unfold watchRule at hf
  dsimp only at hf
  split at hf
  · rcases (mem_addFinding fun _ => rfl).1 hf with hf | rfl
    · exact .inl ⟨f, hf, rfl, rfl, hopen⟩
    · exact .inr rfl
  · rename_i g hg
    have hat := List.find?_some hg
    simp only [Bool.and_eq_true, beq_iff_eq] at hat
    have hgmem := byFingerprint_mem hg
    dsimp only at hf
    split at hf
    · obtain ⟨r, hr, rfl⟩ := mem_assign.1 (show f ∈ (Store.assign _ g.id setOpen fun _ => rfl).findings.rows from hf)
      obtain ⟨old, hold, rfl⟩ := mem_assign.1 hr
      by_cases hid : old.id = g.id
      · have : old = g := Table.eq_of_key hold hgmem hid
        subst this
        exact .inr (by simpa [setOpen, setNoisy] using hat.2)
      · exact .inl ⟨old, hold, by simp [hid], by simp [hid], by simpa [hid] using hopen⟩
    · obtain ⟨old, hold, rfl⟩ := mem_assign.1 hf
      by_cases hid : old.id = g.id
      · exact .inl ⟨old, hold, by simp [hid, setNoisy], by simp [hid, setNoisy], by simpa [hid, setNoisy] using hopen⟩
      · exact .inl ⟨old, hold, by simp [hid], by simp [hid], by simpa [hid] using hopen⟩

theorem open_foldl_watchRule {sha256 : String → String} {a : WatchArgs} {repo : Nat} (rules : List (String × Nat))
    {w : Watched × Store} {f : Finding} (hf : f ∈ (rules.foldl (watchRule sha256 a repo) w).2.findings.rows)
    (hopen : f.status = .open) :
    WasOpen w.2 f ∨ ∃ rule ∈ rules,
      f.fingerprint = fingerprint sha256 ruleQualityRuleId policyEntryPath ruleQualitySymbol rule.1 := by
  induction rules generalizing w with
  | nil => exact .inl ⟨f, hf, rfl, rfl, hopen⟩
  | cons rule rules ih =>
    rcases ih hf with ⟨g, hg, hid, hdigest, hgopen⟩ | ⟨r, hr, hdigest⟩
    · rcases open_watchRule hg hgopen with ⟨old, hold, hold'⟩ | hrule
      · exact .inl ⟨old, hold, hold'.1.trans hid, hold'.2.1.trans hdigest, hold'.2.2⟩
      · exact .inr ⟨rule, List.mem_cons_self .., hdigest.symm.trans hrule⟩
    · exact .inr ⟨r, List.mem_cons_of_mem _ hr, hdigest⟩

/-- A watch opens on the counts it reads. -/
theorem CountsFindings.opensOnNoise {st : Store} (h : CountsFindings st) (sha256 : String → String) :
    OpensOnNoise sha256 st := by
  intro a repo report hrepo hok f hf hopen hbefore
  unfold ruleQualityWatch at hf
  rw [hrepo] at hf
  rcases open_foldl_watchRule _ hf hopen with ⟨old, hold, hid, -, hold'⟩ | ⟨rule, hrule, hdigest⟩
  · exact absurd hold' (hbefore old hold hid)
  · refine ⟨rule.1, hdigest, ?_⟩
    unfold noisyRules at hrule
    obtain ⟨hcount, hnoisy⟩ := List.mem_filter.1 ((List.mem_insertionSort _).1 hrule)
    have hle := h repo _ rule.1 rule.2 hcount
    exact le_trans (of_decide_eq_true hnoisy).2.2 (Int.ofNat_le.2 hle)

theorem ledgerSound_iff {st : Store} (sha256 : String → String) (hs : Sourced st) :
    LedgerSound sha256 st ↔ OnceEach st :=
  ⟨fun h => (countsFindings_iff hs).1 h.counts,
    fun h => have hc := (countsFindings_iff hs).2 h; ⟨hc, hc.opensOnNoise sha256⟩⟩

/-! ## Every run -/

/-- The decisions that the migration table admits under the reason `false_positive`. -/
theorem recordsFalsePositive_iff {a : DecideArgs} {f : Finding} :
    RecordsFalsePositive a f ↔ ∃ to_, migration a f = .ok (to_, reasonFalsePositive) := by
  unfold RecordsFalsePositive
  cases hp : a.parsed with
  | none => exact iff_of_false (by simp) fun ⟨_, hm⟩ => migration_refuses (.inl hp) _ hm
  | some action =>
    cases action with
    | falsePositive => exact iff_of_false (by simp) fun ⟨_, hm⟩ => migration_refuses (.inr hp) _ hm
    | acknowledge | wontfix =>
      rw [migration_defers hp rfl]
      simp
    | fix | fixed =>
      rw [migration_closes (by simp [hp])]
      simp

theorem decide_onceEach {a : DecideArgs} {st : Store} (h : OnceEach st) :
    OnceEach (Findings.decide a st).2 ↔ RedecidesNone st ⟨.decide a, true⟩ := by
  have hcall : RedecidesNone st ⟨.decide a, true⟩ ↔ ∀ f, st.finding? a.findingId = some f →
      (∃ e ∈ st.events.rows, e.findingId = f.id ∧ e.reason = reasonFalsePositive) → ¬ RecordsFalsePositive a f :=
    ⟨fun hnone => hnone rfl a rfl, fun hnone _ b hb => by cases hb; exact hnone⟩
  rw [hcall]
  unfold Findings.decide
  cases hf : st.finding? a.findingId with
  | none => exact iff_of_true h fun f hf' => by cases hf'
  | some f =>
    dsimp only
    cases hm : migration a f with
    | error e =>
      refine iff_of_true h fun f' hf' _ hrec => ?_
      cases hf'
      obtain ⟨to_, hm'⟩ := recordsFalsePositive_iff.1 hrec
      rw [hm] at hm'
      cases hm'
    | ok r =>
      obtain ⟨to_, reason⟩ := r
      refine (onceEach_recordEvent (st.assign f.id (setDecided a to_) (setDecided_id a to_)) h).trans ?_
      constructor
      · intro hnone f' hf' hev hrec
        cases hf'
        obtain ⟨to', hm'⟩ := recordsFalsePositive_iff.1 hrec
        rw [hm] at hm'
        cases hm'
        exact hnone rfl hev
      · intro hnone hr hev
        refine hnone f rfl hev (recordsFalsePositive_iff.2 ⟨to_, ?_⟩)
        rw [hm, show reason = reasonFalsePositive from hr]

theorem ruleQualityWatch_onceEach (sha256 : String → String) (a : WatchArgs) {st : Store} (hs : Sourced st)
    (h : OnceEach st) : OnceEach (ruleQualityWatch sha256 a st).2 := by
  unfold ruleQualityWatch
  split
  · exact h
  · exact foldl_watchRule_onceEach sha256 a _ _ ({}, st) hs h

theorem step_committed (sha256 : String → String) (st : Store) (op : Op) :
    (step sha256 st ⟨op, true⟩).2 = (perform sha256 st op).2 := rfl

/-- A call leads from a ledger without repetitions to one exactly if it decides nothing again. -/
theorem step_onceEach {sha256 : String → String} {st : Store} {c : Call} (hs : Sourced st) (h : OnceEach st) :
    OnceEach (step sha256 st c).2 ↔ RedecidesNone st c := by
  obtain ⟨op, commit⟩ := c
  cases commit with
  | false => exact iff_of_true h fun hno => Bool.noConfusion hno
  | true =>
    rw [step_committed]
    unfold perform
    cases op with
    | decide a =>
      simp only [Prod.map_snd, id]
      exact decide_onceEach h
    | ingest a findings =>
      refine iff_of_true ?_ (fun _ b hb => by cases hb)
      exact (ingest_recordsNone sha256 a findings st).onceEach_iff.2 h
    | ruleQualityWatch a =>
      exact iff_of_true (ruleQualityWatch_onceEach sha256 a hs h) (fun _ b hb => by cases hb)

/-- The ledger does not double-count: throughout a run of any calls it counts no rule more often than it has findings
that are false positives in the window, and a watch opens a governance finding on no less than the threshold of
them, if and only if no decision of the run records a `false_positive` event of a finding that has one already. -/
theorem ledger_sound_iff (sha256 : String → String) (runs : Table ReviewRun) (repos : List Repo) (cs : List Call) :
    (findings sha256 runs repos).AllStates (fun _ st => LedgerSound sha256 st) cs ↔
      (findings sha256 runs repos).AllSteps (fun _ st c => RedecidesNone st c) cs := by
  have hsourced : ∀ cs, Sourced ((findings sha256 runs repos).state cs) := fun cs =>
    evolves_invariant (fun _ he => (by cases he)) (fun _ _ h hc => h.change hc) cs
  refine Machine.allStates_iff_allSteps ?_ (fun is i h => ?_) cs
  · exact (ledgerSound_iff sha256 (hsourced [])).2 fun _ he => (by cases he)
  · rw [ledgerSound_iff sha256 (hsourced is)] at h
    rw [ledgerSound_iff sha256 (hsourced (i :: is))]
    exact step_onceEach (hsourced is) h

/-- A finding closed as a false positive, with its second person. -/
def closedFalsePositive : DecideArgs :=
  { findingId := 1, action := "fixed", actor := "alice", reason := some "false_positive", confirmedBy := some "bob" }

/-- `closedFalsePositive`, sent twice. -/
def closedTwice : List Call := ⟨.decide closedFalsePositive, true⟩ :: ⟨.decide closedFalsePositive, true⟩ :: oneDebt

/-- One finding that is decided twice counts as two false positives of its rule. -/
theorem closedTwice_not_sound :
    ¬ (findings id Table.empty []).AllStates (fun _ st => LedgerSound id st) closedTwice := by
  intro h
  have hmem : ("r", 2) ∈ falsePositiveCounts 1 0 ((findings id Table.empty []).state closedTwice) := by decide +kernel
  have hone : (falsePositives 1 "r" 0 ((findings id Table.empty []).state closedTwice)).length = 1 := by decide +kernel
  have hle := h.now.counts 1 0 "r" 2 hmem
  rw [hone] at hle
  exact absurd hle (by decide)

end OpenFish.Findings
