/-
What decisions may do: in every state a deferred finding is debt that somebody owns until a date, a
refused decision changes nothing, and a decision logged as a false positive has its second person
exactly when it neither defers on that reason nor is confirmed by white space.
-/
import OpenFish.Findings.Ledger

namespace OpenFish.Findings

open Lib

/-! ## Deferrals (I2 and I3) -/

/-- Every deferred finding is owned debt. -/
def DeferralsOwned (st : Store) : Prop :=
  ∀ f ∈ st.findings.rows, f.status ∈ deferredStatuses → OwnedDebt f

/-- Every change keeps the deferrals owned. -/
theorem DeferralsOwned.change {st st' : Store} (h : DeferralsOwned st) (hc : Change st st') : DeferralsOwned st' := by
  cases hc with
  | noted id f hf hn =>
    intro r' hr' hd
    obtain ⟨r, hr, rfl⟩ := mem_assign.1 hr'
    split at hd
    · rename_i hid
      rw [if_pos hid]
      have hn := hn r
      obtain ⟨howner, hdue, hlevel⟩ := h r hr (hn.status ▸ hd)
      exact ⟨hn.owner ▸ howner, hn.due ▸ hdue, hn.level ▸ hlevel⟩
    · rename_i hid
      rw [if_neg hid]; exact h r hr hd
  | opened mk hmk t hopen =>
    intro r hr hd
    rcases Table.mem_insert.1 (show r ∈ (st.findings.insert mk hmk).rows from hr) with hr | rfl
    · exact h r hr hd
    · rw [hopen] at hd; exact absurd hd (by decide)
  | moved r f hf t hr hm =>
    intro r' hr' hd
    obtain ⟨s, hs, rfl⟩ := mem_assign.1 (show r' ∈ (st.assign r.id f hf).findings.rows from hr')
    split at hd
    · rename_i hid
      have : s = r := Table.eq_of_key hs (finding?_mem hr).1 (by simpa using hid)
      subst this
      rw [if_pos hid]; exact hm.deferral hd
    · rename_i hid
      rw [if_neg hid]; exact h s hs hd
  | aside => exact h

/-- A refused decision leaves every table as it was. -/
theorem decide_refused {a : DecideArgs} {st : Store} {e : FindingsError} (h : (Findings.decide a st).1 = .error e) :
    (Findings.decide a st).2 = st := by
  unfold Findings.decide at h ⊢
  split at h
  · rfl
  · split at h
    · rfl
    · cases h

/-- Invariants I2 and I3: after any calls every acknowledged or wontfix finding has a non-blank owner, a
due date and level `debt`, and a decision refused next, whatever it asks, leaves the tables as they
were. -/
theorem deferrals_owned (sha256 : String → String) (runs : Table ReviewRun) (repos : List Repo) (cs : List Call) :
    let st := (findings sha256 runs repos).state cs
    (∀ f ∈ st.findings.rows, f.status ∈ deferredStatuses → OwnedDebt f) ∧
      ∀ a e, (Findings.decide a st).1 = .error e → (Findings.decide a st).2 = st :=
  ⟨evolves_invariant (P := DeferralsOwned) (fun _ hf => (by cases hf)) (fun _ _ h hc => h.change hc) cs,
    fun _ _ he => decide_refused he⟩

/-! ## The second person -/

/-- The action of a decision, if it is one of `DECISION_ACTIONS`. -/
def DecideArgs.parsed (a : DecideArgs) : Option DecisionAction :=
  DecisionAction.ofString? (Text.lower (Text.strip a.action))

/-- A decision that closes as `fixed` and is confirmed by a non-blank account that is not the decider's. -/
structure SecondPerson (a : DecideArgs) : Prop where
  closes : a.parsed = some .fix ∨ a.parsed = some .fixed
  confirmed : ∃ c, a.confirmedBy = some c ∧ Text.blank c = false ∧ Text.strip c ≠ a.decider

/-- An accepted decision whose event counts against the rule has its second person. -/
def FalsePositiveConfirmed (a : DecideArgs) (st : Store) : Prop :=
  ∀ d, (Findings.decide a st).1 = .ok d →
    ∀ e ∈ (Findings.decide a st).2.events.rows, e ∉ st.events.rows →
      e.reason = reasonFalsePositive → SecondPerson a

/-- The deferral asked for is refused. -/
def DeferralRefused (a : DecideArgs) (f : Finding) : Prop :=
  f.level = .blocking ∨ ownerText a.owner = "" ∨ a.due = none ∨ f.status = .fixed

/-- With the reason `false_positive`, a decision on an existing finding asks for no deferral but one
that is refused, and a closing one is not confirmed by white space. -/
def ReasonScreened (a : DecideArgs) (st : Store) : Prop :=
  a.reason = some reasonFalsePositive → ∀ f, st.finding? a.findingId = some f →
    ((a.parsed = some .acknowledge ∨ a.parsed = some .wontfix) → DeferralRefused a f) ∧
      ((a.parsed = some .fix ∨ a.parsed = some .fixed) →
        ∀ c, a.confirmedBy = some c → c = "" ∨ Text.blank c = false)

/-- Neither default reason counts against a rule. -/
theorem orElse_eq_falsePositive {reason : Option String} {default : String} (hd : default ≠ reasonFalsePositive) :
    orElse reason default = reasonFalsePositive ↔ reason = some reasonFalsePositive := by
  cases reason with
  | none => exact iff_of_false hd (by simp)
  | some r =>
    unfold orElse
    by_cases hr : r = ""
    · subst hr
      exact iff_of_false (by simpa using hd) (by decide)
    · simp [hr]

theorem decider_ne_empty (a : DecideArgs) : a.decider ≠ "" := by
  unfold DecideArgs.decider
  split
  · decide
  · assumption

/-- The second confirmation is asked for of everyone but white space. -/
theorem requireSecondPerson_ok {a : DecideArgs} :
    requireSecondPerson a = .ok () ↔ ∃ c, a.confirmedBy = some c ∧ c ≠ "" ∧ Text.strip c ≠ a.decider := by
  unfold requireSecondPerson
  cases hc : a.confirmedBy with
  | none => simp [truthy]
  | some c =>
    by_cases hne : c = ""
    · simp [truthy, hne]
    · by_cases hs : Text.strip c = a.decider <;> simp [truthy, hne, hs]

/-- The deferring branch of the migration table, under the reason `false_positive`. -/
theorem migration_defers {a : DecideArgs} {f : Finding} {action : DecisionAction} {to_ : FindingStatus}
    (hp : a.parsed = some action) (hd : deferActions action = some to_) :
    (∃ t, migration a f = .ok (t, reasonFalsePositive)) ↔
      a.reason = some reasonFalsePositive ∧ ¬ DeferralRefused a f := by
  unfold DecideArgs.parsed at hp
  unfold migration DeferralRefused
  dsimp only
  rw [hp]
  dsimp only
  rw [hd]
  dsimp only
  have hdefault : (if to_ = .wontfix then reasonWontfix else reasonAccepted) ≠ reasonFalsePositive := by
    split <;> decide
  by_cases hl : f.level = .blocking
  · simp [hl]
  · rw [if_neg hl]
    cases hr : requireDebtFields action a.owner a.due with
    | error e =>
      have hno : ¬ (ownerText a.owner ≠ "" ∧ a.due.isSome = true) := fun hyes => by
        rw [requireDebtFields_ok.2 hyes] at hr; cases hr
      have hmiss : ownerText a.owner = "" ∨ a.due = none := by
        by_cases ho : ownerText a.owner = ""
        · exact .inl ho
        · exact .inr (Option.not_isSome_iff_eq_none.1 fun hs => hno ⟨ho, hs⟩)
      refine iff_of_false (by simp) (fun hyes => hyes.2 (.inr ?_))
      exact hmiss.imp_right .inl
    | ok =>
      obtain ⟨ho, hdue⟩ := requireDebtFields_ok.1 hr
      have hdue' : a.due ≠ none := Option.isSome_iff_ne_none.1 hdue
      by_cases hs : f.status = .fixed
      · simp [hs]
      · simp [hs, hl, ho, hdue', orElse_eq_falsePositive hdefault]

/-- The closing branch of the migration table, under the reason `false_positive`. -/
theorem migration_closes {a : DecideArgs} {f : Finding} (hp : a.parsed = some .fix ∨ a.parsed = some .fixed) :
    (∃ t, migration a f = .ok (t, reasonFalsePositive)) ↔
      a.reason = some reasonFalsePositive ∧
        ∃ c, a.confirmedBy = some c ∧ c ≠ "" ∧ Text.strip c ≠ a.decider := by
  have heq : migration a f =
      if orElse a.reason reasonAccepted = reasonFalsePositive then
        (requireSecondPerson a).map fun _ => (.fixed, orElse a.reason reasonAccepted)
      else .ok (.fixed, orElse a.reason reasonAccepted) := by
    unfold DecideArgs.parsed at hp
    unfold migration
    dsimp only
    rcases hp with hp | hp <;> rw [hp] <;> cases requireSecondPerson a <;> rfl
  rw [heq, ← requireSecondPerson_ok, ← orElse_eq_falsePositive (show reasonAccepted ≠ reasonFalsePositive by decide)]
  by_cases hr : orElse a.reason reasonAccepted = reasonFalsePositive
  · rw [if_pos hr]
    cases requireSecondPerson a with
    | error e => simp [Except.map]
    | ok => simp [Except.map, hr]
  · rw [if_neg hr]
    simp [hr]

/-- An accepted decision adds one event, of the status and reason the migration table gives. -/
theorem falsePositiveConfirmed_iff {a : DecideArgs} {st : Store} :
    FalsePositiveConfirmed a st ↔
      ∀ f, st.finding? a.findingId = some f → (∃ t, migration a f = .ok (t, reasonFalsePositive)) → SecondPerson a := by
  unfold FalsePositiveConfirmed Findings.decide
  constructor
  · rintro h f hf ⟨to_, hm⟩
    rw [hf] at h
    dsimp only at h
    rw [hm] at h
    refine h _ rfl _ (mem_recordEvent.2 (.inr rfl)) (fun he => ?_) rfl
    -- its id is still to be issued
    exact Nat.lt_irrefl _ (st.events.below _ he)
  · intro h d hd e he hne hr
    split at hd
    · cases hd
    · rename_i f hf
      rw [hf] at he
      dsimp only at he
      split at hd
      · cases hd
      · rename_i to_ reason hm
        rw [hm] at he
        rcases mem_recordEvent.1 he with he | rfl
        · exact absurd he hne
        · exact h f hf ⟨to_, hm.trans (by rw [show reason = reasonFalsePositive from hr])⟩

/-- An action the migration table does not list is refused. -/
theorem migration_refuses {a : DecideArgs} {f : Finding} (hp : a.parsed = none ∨ a.parsed = some .falsePositive)
    (r : FindingStatus × String) : migration a f ≠ .ok r := by
  intro hm
  unfold DecideArgs.parsed at hp
  unfold migration at hm
  dsimp only at hm
  rcases hp with hp | hp <;> rw [hp] at hm <;> cases hm

/-- White space is nobody's name. -/
theorem blank_ne_decider {c : String} (hb : Text.blank c = true) (a : DecideArgs) : Text.strip c ≠ a.decider := by
  have hstrip : Text.strip c = "" := by simpa [Text.blank] using hb
  rw [hstrip]; exact (decider_ne_empty a).symm

/-- A deferring action has no second person. -/
theorem SecondPerson.not_defers {a : DecideArgs} (h : SecondPerson a) :
    ¬ (a.parsed = some .acknowledge ∨ a.parsed = some .wontfix) := by
  intro hact
  rcases h.closes with hp | hp <;> rw [hp] at hact <;> simp at hact

/-- The two-person rule: on any tables, a decision whose event counts against the rule has its second
person if and only if it does not defer under that reason and is not confirmed by white space. -/
theorem falsePositive_confirmed_iff (a : DecideArgs) (st : Store) :
    FalsePositiveConfirmed a st ↔ ReasonScreened a st := by
  rw [falsePositiveConfirmed_iff]
  constructor
  · intro h hr f hf
    refine ⟨fun hact => ?_, fun hact c hc => ?_⟩
    · by_contra hno
      refine (h f hf ?_).not_defers hact
      rcases hact with hp | hp
      · exact (migration_defers hp rfl).2 ⟨hr, hno⟩
      · exact (migration_defers hp rfl).2 ⟨hr, hno⟩
    · by_cases hne : c = ""
      · exact .inl hne
      · cases hb : Text.blank c with
        | false => exact .inr rfl
        | true =>
          -- white space is let through, and confirms nothing
          have hmig := (migration_closes (f := f) hact).2 ⟨hr, c, hc, hne, blank_ne_decider hb a⟩
          obtain ⟨c', hc', hb', -⟩ := (h f hf hmig).confirmed
          rw [hc] at hc'; cases hc'
          rw [hb] at hb'; cases hb'
  · rintro h f hf ⟨to_, hm⟩
    cases hp : a.parsed with
    | none => exact absurd hm (migration_refuses (.inl hp) _)
    | some action =>
      cases action with
      | acknowledge | wontfix =>
        obtain ⟨hr, hno⟩ := (migration_defers hp rfl).1 ⟨to_, hm⟩
        exact absurd ((h hr f hf).1 (by simp [hp])) hno
      | falsePositive => exact absurd hm (migration_refuses (.inr hp) _)
      | fix | fixed =>
        obtain ⟨hr, c, hc, hne, hdiff⟩ := (migration_closes (by simp [hp])).1 ⟨to_, hm⟩
        refine ⟨by simp [hp], c, hc, ?_, hdiff⟩
        exact ((h hr f hf).2 (by simp [hp]) c hc).resolve_left hne

/-- A run opens one debt finding. -/
def oneDebt : List Call :=
  [⟨.ingest { repo := .id 1, runId := none, clock := fun _ => 0 }
    [some { ruleId := some ⟨"r", true⟩, filePath := some ⟨"a.py", true⟩, symbol := some ⟨"f", true⟩ }], true⟩]

/-- One account defers a finding with an owner, a due date and the reason `false_positive`. -/
def loneFalsePositive : DecideArgs :=
  { findingId := 1, action := "acknowledge", actor := "alice", owner := some "alice", due := some 20000,
    reason := some "false_positive" }

/-- The deferral of `loneFalsePositive` is logged against the rule without a second person. -/
theorem loneFalsePositive_unconfirmed :
    ¬ FalsePositiveConfirmed loneFalsePositive ((findings id Table.empty []).state oneDebt) := by
  intro h
  obtain ⟨d, hd⟩ : ∃ d, (Findings.decide loneFalsePositive ((findings id Table.empty []).state oneDebt)).1 = .ok d :=
    ⟨_, rfl⟩
  have hall : ∃ e ∈ (Findings.decide loneFalsePositive ((findings id Table.empty []).state oneDebt)).2.events.rows,
      e ∉ ((findings id Table.empty []).state oneDebt).events.rows ∧ e.reason = reasonFalsePositive := by decide
  obtain ⟨e, he, hne, hr⟩ := hall
  exact absurd (h _ hd e he hne hr).closes (by decide)

end OpenFish.Findings
