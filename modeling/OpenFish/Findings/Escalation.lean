/-
Condition 3 across a batch: what the count of each rule is while the entries are folded in, which deferred findings are
reopened on the way, and when the rules are settled after the sweep.
-/
import OpenFish.Findings.Decisions
import OpenFish.Findings.Sweep
import OpenFish.Findings.Uniqueness

namespace OpenFish.Findings

open Lib

/-! ## What a batch asks for -/

/-- The finding is reported by one of the entries. -/
def Reported (sha256 : String → String) (entries : List Entry) (f : Finding) : Prop :=
  ∃ e ∈ entries, e.digest sha256 = f.fingerprint

/-- An entry, the first of its digest, raises the count of a rule: it opens a new finding of the rule or a stale one. -/
def raises (sha256 : String → String) (repo : Nat) (rule : String) (st : Store) (before : List Entry) (e : Entry) :
    Bool :=
  !before.any (fun e' => e'.digest sha256 == e.digest sha256) &&
    match st.byFingerprint repo (e.digest sha256) with
    | none => e.identity.ruleId == rule
    | some f => f.ruleId == rule && decide (f.status = .stale)

/-- How many entries raise the count of a rule, after some others. -/
def gainedFrom (sha256 : String → String) (repo : Nat) (rule : String) (st : Store) :
    List Entry → List Entry → Nat
  | _, [] => 0
  | before, e :: entries =>
    (if raises sha256 repo rule st before e then 1 else 0) +
      gainedFrom sha256 repo rule st (before ++ [e]) entries

/-- The count of a rule after some entries of a batch. -/
def countAfter (sha256 : String → String) (repo : Nat) (rule : String) (st : Store) (entries : List Entry) : Nat :=
  liveCount repo rule st + gainedFrom sha256 repo rule st [] entries

/-- What the activation conditions are tested against for a finding that is reported after some entries. -/
def contextAfter (sha256 : String → String) (a : IngestArgs) (st : Store) (f : Finding) (before : List Entry) :
    ReactivationContext :=
  { reactivationContext a f st with ruleOpenCount := some (countAfter sha256 f.repoId f.ruleId st before) }

/-- A finding is reopened by one of the entries that report it. -/
def Woken (sha256 : String → String) (a : IngestArgs) (st : Store) (entries : List Entry) (f : Finding) : Prop :=
  ∃ before e after, entries = before ++ e :: after ∧ e.digest sha256 = f.fingerprint ∧
    ∃ reason, shouldReactivate f (contextAfter sha256 a st f before) (a.clock before.length) = .ok (some reason)

theorem reported_append {sha256 : String → String} {entries : List Entry} {e : Entry} {f : Finding} :
    Reported sha256 (entries ++ [e]) f ↔ Reported sha256 entries f ∨ e.digest sha256 = f.fingerprint := by
  simp [Reported, or_and_right, exists_or]

theorem gainedFrom_append (sha256 : String → String) (repo : Nat) (rule : String) (st : Store)
    (before entries : List Entry) (e : Entry) : gainedFrom sha256 repo rule st before (entries ++ [e]) =
      gainedFrom sha256 repo rule st before entries +
        if raises sha256 repo rule st (before ++ entries) e then 1 else 0 := by
  induction entries generalizing before with
  | nil => simp [gainedFrom]
  | cons first rest ih =>
    rw [List.cons_append, gainedFrom, gainedFrom, ih, List.append_assoc, List.singleton_append, Nat.add_assoc]

theorem countAfter_append (sha256 : String → String) (repo : Nat) (rule : String) (st : Store)
    (entries : List Entry) (e : Entry) : countAfter sha256 repo rule st (entries ++ [e]) =
      countAfter sha256 repo rule st entries + if raises sha256 repo rule st entries e then 1 else 0 := by
  rw [countAfter, gainedFrom_append, List.nil_append, ← Nat.add_assoc, countAfter]

theorem woken_append {sha256 : String → String} {a : IngestArgs} {st : Store} {entries : List Entry} {e : Entry}
    {f : Finding} : Woken sha256 a st (entries ++ [e]) f ↔ Woken sha256 a st entries f ∨
      e.digest sha256 = f.fingerprint ∧ ∃ reason,
        shouldReactivate f (contextAfter sha256 a st f entries) (a.clock entries.length) = .ok (some reason) := by
  constructor
  · rintro ⟨before, e', after, heq, hdigest, hreason⟩
    rcases List.eq_nil_or_concat after with rfl | ⟨after, last, rfl⟩
    · obtain ⟨rfl, hlast⟩ := List.append_inj' heq rfl
      cases hlast
      exact .inr ⟨hdigest, hreason⟩
    · rw [List.concat_eq_append, ← List.cons_append, ← List.append_assoc] at heq
      obtain ⟨rfl, -⟩ := List.append_inj' heq rfl
      exact .inl ⟨before, e', after, rfl, hdigest, hreason⟩
  · rintro (⟨before, e', after, rfl, hdigest, hreason⟩ | ⟨hdigest, hreason⟩)
    · exact ⟨before, e', after ++ [e], by simp, hdigest, hreason⟩
    · exact ⟨entries, e, [], rfl, hdigest, hreason⟩

/-! ## One match -/

/-- What a match makes of a finding, with the activation conditions tested in a context. -/
structure Revisited (ctx : ReactivationContext) (now : Time) (f g : Finding) : Prop where
  same : SameFinding f g
  filePath : g.filePath = f.filePath
  symbol : g.symbol = f.symbol
  deferred : g.status ∈ deferredStatuses ↔
    f.status ∈ deferredStatuses ∧ ¬ ∃ reason, shouldReactivate f ctx now = .ok (some reason)
  stale : g.status ≠ .stale
  due : g.status ∈ deferredStatuses → g.due = f.due
  live : g.live = (f.live || decide (f.status = .stale))
  opens : f.status = .open → g.status = .open

theorem revisited_observed {ctx : ReactivationContext} {now : Time} {runId : Option Nat} {entry : Entry} {f : Finding}
    (hstale : f.status ≠ .stale)
    (hquiet : f.status ∈ deferredStatuses → ¬ ∃ reason, shouldReactivate f ctx now = .ok (some reason)) :
    Revisited ctx now f (setObserved runId entry f) where
  same := (noted_setObserved runId entry f).toSameFinding
  filePath := rfl
  symbol := rfl
  deferred := ⟨fun h => ⟨h, hquiet h⟩, fun h => h.1⟩
  stale := hstale
  due := fun _ => rfl
  live := by rw [decide_eq_false hstale, Bool.or_false]; rfl
  opens := id

theorem revisited_reopened {ctx : ReactivationContext} {now : Time} {f g : Finding} (hsame : SameFinding f g)
    (hpath : g.filePath = f.filePath) (hsymbol : g.symbol = f.symbol) (hopen : g.status = .open)
    (hwas : f.status = .stale ∨ f.status ∈ deferredStatuses ∧ ∃ reason, shouldReactivate f ctx now = .ok (some reason)) :
    Revisited ctx now f g where
  same := hsame
  filePath := hpath
  symbol := hsymbol
  deferred := by
    refine iff_of_false (by rw [hopen]; decide) fun hd => ?_
    rcases hwas with hstale | hwoken
    · rw [hstale] at hd
      exact absurd hd.1 (by decide)
    · exact hd.2 hwoken.2
  stale := by rw [hopen]; decide
  due := fun hd => by rw [hopen] at hd; exact absurd hd (by decide)
  live := by
    have hg : g.live = true := by unfold Finding.live; rw [hopen]; decide
    rw [hg]
    rcases hwas with hstale | hwoken
    · rw [hstale]; simp
    · rw [live_of_deferred hwoken.1, Bool.true_or]
  opens := fun _ => hopen

theorem matchEntry_revisited {a : IngestArgs} {entry : Entry} {existing : Finding} {t t' : Tally} {st st' : Store}
    (h : matchEntry a entry existing t st = (.ok t', st')) :
    ∃ (g : Finding → Finding) (hg : ∀ r, key (g r) = key r),
      st'.findings = st.findings.update (·.id == existing.id) g hg ∧ (∀ r, SameFinding r (g r)) ∧
        Revisited (reactivationContext a existing (st.assign existing.id (setObserved a.runId entry) fun _ => rfl))
          (a.clock t.seenIds.length) existing (g existing) := by
  have hsame : ∀ r, SameFinding r (setObserved a.runId entry r) := fun r =>
    (noted_setObserved a.runId entry r).toSameFinding
  have htwice : ∀ (f : Finding → Finding) (hf : ∀ r, key (f r) = key r),
      ((st.assign existing.id (setObserved a.runId entry) fun _ => rfl).assign existing.id f hf).findings =
        st.findings.update (·.id == existing.id) (fun r => f (setObserved a.runId entry r)) fun r => hf _ :=
    fun f hf => Table.update_update (f := setObserved a.runId entry) (fun _ => rfl) hf fun _ hr => hr
  unfold matchEntry at h
  dsimp only at h
  cases hs : existing.status with
  | «open» | fixed =>
    rw [hs] at h
    cases h
    refine ⟨setObserved a.runId entry, fun _ => rfl, rfl, hsame, revisited_observed (by rw [hs]; decide) ?_⟩
    rw [hs]
    exact fun hd => absurd hd (by decide)
  | stale =>
    rw [hs] at h
    cases h
    refine ⟨fun r => setOpen (setObserved a.runId entry r), fun _ => rfl, htwice setOpen fun _ => rfl,
      fun r => (hsame r).trans (sameFinding_setOpen _), ?_⟩
    exact revisited_reopened ((hsame _).trans (sameFinding_setOpen _)) rfl rfl rfl (.inl hs)
  | acknowledged | wontfix =>
    have hd : existing.status ∈ deferredStatuses := by rw [hs]; decide
    have hstale : existing.status ≠ .stale := by rw [hs]; decide
    rw [hs] at h
    dsimp only at h
    split at h
    · cases h
    · rename_i hquiet
      cases h
      refine ⟨setObserved a.runId entry, fun _ => rfl, rfl, hsame, revisited_observed hstale fun _ => ?_⟩
      rintro ⟨reason, hreason⟩
      rw [hquiet] at hreason
      cases hreason
    · rename_i reason hreason
      cases h
      refine ⟨fun r => setReopened (setObserved a.runId entry r), fun _ => rfl, htwice setReopened fun _ => rfl,
        fun r => (hsame r).trans (sameFinding_setReopened _), ?_⟩
      exact revisited_reopened ((hsame _).trans (sameFinding_setReopened _)) rfl rfl rfl (.inr ⟨hd, reason, hreason⟩)

/-! ## The loop -/

/-- What some entries of a batch make of a finding there was before it. -/
structure Follows (sha256 : String → String) (a : IngestArgs) (repo : Nat) (st : Store) (entries : List Entry)
    (f₀ f : Finding) : Prop where
  same : SameFinding f₀ f
  filePath : f.filePath = f₀.filePath
  symbol : f.symbol = f₀.symbol
  deferred : f.status ∈ deferredStatuses ↔
    f₀.status ∈ deferredStatuses ∧ ¬ (f₀.repoId = repo ∧ Woken sha256 a st entries f₀)
  stale : f.status = .stale ↔ f₀.status = .stale ∧ ¬ (f₀.repoId = repo ∧ Reported sha256 entries f₀)
  due : f.status ∈ deferredStatuses → f.due = f₀.due

/-- Some entries of a batch are folded in. -/
structure Folded (sha256 : String → String) (a : IngestArgs) (repo : Nat) (st₀ : Store) (entries : List Entry)
    (st : Store) : Prop where
  one : OneUnder st
  old : ∀ f₀ ∈ st₀.findings.rows, ∃ f ∈ st.findings.rows, Follows sha256 a repo st₀ entries f₀ f
  new : ∀ f ∈ st.findings.rows, (∃ f₀ ∈ st₀.findings.rows, f₀.id = f.id) ∨ f.status = .open ∧ Reported sha256 entries f
  seen : ∀ e ∈ entries, st.byFingerprint repo (e.digest sha256) ≠ none
  count : ∀ rule, liveCount repo rule st = countAfter sha256 repo rule st₀ entries

theorem Follows.start (sha256 : String → String) (a : IngestArgs) (repo : Nat) (st : Store) (f : Finding) :
    Follows sha256 a repo st [] f f where
  same := .refl f
  filePath := rfl
  symbol := rfl
  deferred := by
    have hnone : ¬ Woken sha256 a st [] f := by
      rintro ⟨before, e, after, heq, -⟩
      cases before <;> cases heq
    simp [hnone]
  stale := by simp [Reported]
  due := fun _ => rfl

theorem Folded.start {sha256 : String → String} {a : IngestArgs} {repo : Nat} {st : Store} (h : OneUnder st) :
    Folded sha256 a repo st [] st where
  one := h
  old := fun f hf => ⟨f, hf, .start ..⟩
  new := fun f hf => .inl ⟨f, hf, rfl⟩
  seen := fun _ he => absurd he List.not_mem_nil
  count := fun _ => rfl

/-- An entry of another digest or repository says nothing of a finding. -/
theorem Follows.skip {sha256 : String → String} {a : IngestArgs} {repo : Nat} {st : Store} {entries : List Entry}
    {f₀ f : Finding} (h : Follows sha256 a repo st entries f₀ f) {e : Entry}
    (hne : ¬ (f₀.repoId = repo ∧ e.digest sha256 = f₀.fingerprint)) :
    Follows sha256 a repo st (entries ++ [e]) f₀ f := by
  have hwoken : f₀.repoId = repo ∧ Woken sha256 a st (entries ++ [e]) f₀ ↔ f₀.repoId = repo ∧ Woken sha256 a st entries f₀ :=
    and_congr_right fun hrepo => woken_append.trans (or_iff_left fun hat => hne ⟨hrepo, hat.1⟩)
  have hreported : f₀.repoId = repo ∧ Reported sha256 (entries ++ [e]) f₀ ↔
      f₀.repoId = repo ∧ Reported sha256 entries f₀ :=
    and_congr_right fun hrepo => reported_append.trans (or_iff_left fun hat => hne ⟨hrepo, hat⟩)
  exact ⟨h.same, h.filePath, h.symbol, by rw [hwoken]; exact h.deferred, by rw [hreported]; exact h.stale, h.due⟩

theorem OneUnder.byFingerprint {st : Store} (h : OneUnder st) {f : Finding} (hf : f ∈ st.findings.rows) :
    st.byFingerprint f.repoId f.fingerprint = some f := by
  have hmem := mem_under.2 ⟨hf, rfl, rfl⟩
  have hone := h f.repoId f.fingerprint
  rw [← head?_under]
  match hl : under f.repoId f.fingerprint st with
  | [] => rw [hl] at hmem; cases hmem
  | [g] => rw [hl, List.mem_singleton] at hmem; rw [hmem]; rfl
  | _ :: _ :: _ => rw [hl] at hone; simp at hone

theorem byFingerprint_eq_some {st : Store} {repo : Nat} {digest : String} {f : Finding}
    (h : st.byFingerprint repo digest = some f) :
    f ∈ st.findings.rows ∧ f.repoId = repo ∧ f.fingerprint = digest := by
  refine mem_under.1 (List.mem_of_head? ?_)
  rw [head?_under, h]

/-- The conditions are tested on the path, the symbol and the due date. -/
theorem shouldReactivate_congr {f g : Finding} (hpath : g.filePath = f.filePath) (hsymbol : g.symbol = f.symbol)
    (hdue : g.due = f.due) (ctx : ReactivationContext) (now : Time) :
    shouldReactivate g ctx now = shouldReactivate f ctx now := by
  unfold shouldReactivate driftReason
  rw [hpath, hsymbol, hdue]

theorem byFingerprint_ne_none {st : Store} {repo : Nat} {digest : String} :
    st.byFingerprint repo digest ≠ none ↔
      ∃ f ∈ st.findings.rows, f.repoId = repo ∧ f.fingerprint = digest := by
  constructor
  · intro h
    obtain ⟨f, hf⟩ := Option.ne_none_iff_exists'.1 h
    exact ⟨f, byFingerprint_eq_some hf⟩
  · rintro ⟨f, hf, hrepo, hdigest⟩ hnone
    exact List.find?_eq_none.1 hnone f hf (by simp [hrepo, hdigest])

/-- A digest that no entry has is looked up as before the batch. -/
theorem Folded.byFingerprint_start {sha256 : String → String} {a : IngestArgs} {repo : Nat} {st₀ st : Store}
    {entries : List Entry} (h : Folded sha256 a repo st₀ entries st) {digest : String}
    (hnone : st.byFingerprint repo digest = none) : st₀.byFingerprint repo digest = none := by
  by_contra hsome
  obtain ⟨f₀, hf₀, hrepo, hdigest⟩ := byFingerprint_ne_none.1 hsome
  obtain ⟨f, hf, hfollows⟩ := h.old f₀ hf₀
  exact byFingerprint_ne_none.2
    ⟨f, hf, hfollows.same.repoId.trans hrepo, hfollows.same.fingerprint.trans hdigest⟩ hnone

theorem Folded.opened {sha256 : String → String} {a : IngestArgs} {repo : Nat} {st₀ st st' : Store}
    {entries : List Entry} (h : Folded sha256 a repo st₀ entries st) {e : Entry}
    (hnone : st.byFingerprint repo (e.digest sha256) = none) {mk : Nat → Finding} (hmk : ∀ k, key (mk k) = k)
    (hnew : ∀ k, (mk k).repoId = repo ∧ (mk k).fingerprint = e.digest sha256 ∧ (mk k).ruleId = e.identity.ruleId ∧
      (mk k).status = .open) (hst' : st'.findings = (st.addFinding mk hmk).findings) :
    Folded sha256 a repo st₀ (entries ++ [e]) st' := by
  have hrow := hnew st.findings.next
  have hmem : ∀ {f}, f ∈ st'.findings.rows ↔ f ∈ st.findings.rows ∨ f = mk st.findings.next := by
    rw [hst']
    exact mem_addFinding hmk
  have hunseen : entries.any (fun e' => e'.digest sha256 == e.digest sha256) = false := by
    refine List.any_eq_false.2 fun e' he' hdigest => h.seen e' he' ?_
    rw [beq_iff_eq.1 hdigest, hnone]
  refine ⟨?_, fun f₀ hf₀ => ?_, fun f hf => ?_, fun e' he' => ?_, fun rule => ?_⟩
  · refine (h.one.addFinding hmk ?_).of_findings hst'
    rw [hrow.1, hrow.2.1, hnone]
  · obtain ⟨f, hf, hfollows⟩ := h.old f₀ hf₀
    refine ⟨f, hmem.2 (.inl hf), hfollows.skip fun hat => ?_⟩
    exact byFingerprint_ne_none.2 ⟨f, hf, hfollows.same.repoId.trans hat.1,
      hfollows.same.fingerprint.trans hat.2.symm⟩ hnone
  · rcases hmem.1 hf with hf | rfl
    · exact (h.new f hf).imp_right fun hopen => ⟨hopen.1, reported_append.2 (.inl hopen.2)⟩
    · exact .inr ⟨hrow.2.2.2, reported_append.2 (.inr hrow.2.1.symm)⟩
  · rcases List.mem_append.1 he' with he' | he'
    · obtain ⟨f, hf, hat⟩ := byFingerprint_ne_none.1 (h.seen e' he')
      exact byFingerprint_ne_none.2 ⟨f, hmem.2 (.inl hf), hat⟩
    · rw [List.mem_singleton.1 he']
      exact byFingerprint_ne_none.2 ⟨_, hmem.2 (.inr rfl), hrow.1, hrow.2.1⟩
  · have hlive : (mk st.findings.next).live = true := by unfold Finding.live; rw [hrow.2.2.2]; decide
    rw [countAfter_append, ← h.count rule, raises, hunseen, h.byFingerprint_start hnone, liveCount, hst']
    show List.countP _ (st.findings.rows ++ [mk st.findings.next]) = _
    rw [List.countP_append, List.countP_singleton, hrow.1, hrow.2.2.1, hlive]
    simp [liveCount]

/-- The row a digest is found under raises the count of its rule exactly if it is stale. -/
theorem Folded.raises_existing {sha256 : String → String} {a : IngestArgs} {repo : Nat} {st₀ st : Store}
    {entries : List Entry} (h₀ : OneUnder st₀) (h : Folded sha256 a repo st₀ entries st) {e : Entry}
    {existing : Finding} (hx : st.byFingerprint repo (e.digest sha256) = some existing) (rule : String) :
    raises sha256 repo rule st₀ entries e = (existing.ruleId == rule && decide (existing.status = .stale)) := by
  obtain ⟨hxmem, hxrepo, hxdigest⟩ := byFingerprint_eq_some hx
  have hany : entries.any (fun e' => e'.digest sha256 == e.digest sha256) = true ↔ Reported sha256 entries existing := by
    rw [List.any_eq_true, hxdigest.symm]
    exact exists_congr fun e' => and_congr_right fun _ => beq_iff_eq
  unfold raises
  rcases h.new existing hxmem with ⟨f₀, hf₀, hid⟩ | ⟨hopen, hreported⟩
  · obtain ⟨f, hf, hfollows⟩ := h.old f₀ hf₀
    have : f = existing := Table.eq_of_key hf hxmem (hfollows.same.id.trans hid)
    subst this
    have hrepo₀ : f₀.repoId = repo := hfollows.same.repoId.symm.trans hxrepo
    have hdigest₀ : f₀.fingerprint = e.digest sha256 := hfollows.same.fingerprint.symm.trans hxdigest
    have hfound := h₀.byFingerprint hf₀
    rw [hrepo₀, hdigest₀] at hfound
    have hreported : Reported sha256 entries f₀ ↔ Reported sha256 entries f := by
      rw [Reported, Reported, hfollows.same.fingerprint]
    rw [hfound]
    dsimp only
    rw [hfollows.same.ruleId]
    by_cases hr : Reported sha256 entries f
    · have hfresh : f.status ≠ .stale := fun hs => (hfollows.stale.1 hs).2 ⟨hrepo₀, hreported.2 hr⟩
      rw [hany.2 hr, decide_eq_false hfresh, Bool.and_false]
      rfl
    · have hstale : f.status = .stale ↔ f₀.status = .stale :=
        hfollows.stale.trans (and_iff_left fun hat => hr (hreported.1 hat.2))
      rw [Bool.eq_false_iff.2 (mt hany.1 hr), decide_eq_decide.2 hstale]
      rfl
  · rw [hany.2 hreported, hopen]
    simp

theorem liveCount_observed (repo : Nat) (rule : String) (st : Store) (id : Nat) (runId : Option Nat) (entry : Entry) :
    liveCount repo rule (st.assign id (setObserved runId entry) fun _ => rfl) = liveCount repo rule st := by
  show List.countP _ (st.findings.rows.map _) = _
  rw [List.countP_map]
  refine List.countP_congr fun f _ => ?_
  dsimp only [Function.comp]
  split <;> rfl

/-- The conditions are tested with the count of the rule at that moment. -/
theorem Folded.context {sha256 : String → String} {a : IngestArgs} {repo : Nat} {st₀ st : Store}
    {entries : List Entry} (h : Folded sha256 a repo st₀ entries st) {f₀ existing : Finding}
    (hsame : SameFinding f₀ existing) (hrepo : existing.repoId = repo) (id : Nat) (entry : Entry) :
    reactivationContext a existing (st.assign id (setObserved a.runId entry) fun _ => rfl) =
      contextAfter sha256 a st₀ f₀ entries := by
  have hcount : liveCount existing.repoId existing.ruleId (st.assign id (setObserved a.runId entry) fun _ => rfl) =
      countAfter sha256 f₀.repoId f₀.ruleId st₀ entries := by
    rw [liveCount_observed, ← hsame.repoId, ← hsame.ruleId, hrepo, h.count]
  unfold contextAfter
  rw [← hcount]
  rfl

theorem Follows.revisited {sha256 : String → String} {a : IngestArgs} {repo : Nat} {st₀ : Store}
    {entries : List Entry} {f₀ f g : Finding} (h : Follows sha256 a repo st₀ entries f₀ f) {e : Entry}
    (hrepo : f.repoId = repo) (hdigest : e.digest sha256 = f.fingerprint)
    (hrev : Revisited (contextAfter sha256 a st₀ f₀ entries) (a.clock entries.length) f g) :
    Follows sha256 a repo st₀ (entries ++ [e]) f₀ g := by
  have hrepo₀ : f₀.repoId = repo := h.same.repoId.symm.trans hrepo
  have hdigest₀ : e.digest sha256 = f₀.fingerprint := hdigest.trans h.same.fingerprint
  refine ⟨h.same.trans hrev.same, hrev.filePath.trans h.filePath, hrev.symbol.trans h.symbol, ?_, ?_, fun hd => ?_⟩
  · rw [hrev.deferred, woken_append]
    constructor
    · rintro ⟨hd, hquiet⟩
      rw [shouldReactivate_congr h.filePath h.symbol (h.due hd)] at hquiet
      obtain ⟨hd₀, hasleep⟩ := h.deferred.1 hd
      refine ⟨hd₀, fun hat => ?_⟩
      rcases hat.2 with hwoken | hreason
      · exact hasleep ⟨hat.1, hwoken⟩
      · exact hquiet hreason.2
    · rintro ⟨hd₀, hasleep⟩
      have hd := h.deferred.2 ⟨hd₀, fun hat => hasleep ⟨hat.1, .inl hat.2⟩⟩
      refine ⟨hd, fun hreason => hasleep ⟨hrepo₀, .inr ⟨hdigest₀, ?_⟩⟩⟩
      rw [shouldReactivate_congr h.filePath h.symbol (h.due hd)] at hreason
      exact hreason
  · exact iff_of_false hrev.stale fun hat => hat.2 ⟨hrepo₀, reported_append.2 (.inr hdigest₀)⟩
  · exact (hrev.due hd).trans (h.due (hrev.deferred.1 hd).1)

theorem Folded.matched {sha256 : String → String} {a : IngestArgs} {repo : Nat} {st₀ st st' : Store}
    {entries : List Entry} (h₀ : OneUnder st₀) (h : Folded sha256 a repo st₀ entries st) {e : Entry}
    {existing : Finding} (hx : st.byFingerprint repo (e.digest sha256) = some existing) {t t' : Tally}
    (hm : matchEntry a e existing t st = (.ok t', st')) (hlen : t.seenIds.length = entries.length) :
    Folded sha256 a repo st₀ (entries ++ [e]) st' := by
  obtain ⟨hxmem, hxrepo, hxdigest⟩ := byFingerprint_eq_some hx
  obtain ⟨g, hg, hst', hsame, hrev⟩ := matchEntry_revisited hm
  have hmem : ∀ {f}, f ∈ st'.findings.rows ↔
      ∃ r ∈ st.findings.rows, (if r.id == existing.id then g r else r) = f := by
    rw [hst']
    exact Table.mem_update hg
  have hself : g existing ∈ st'.findings.rows := hmem.2 ⟨existing, hxmem, if_pos (beq_self_eq_true _)⟩
  have hother : ∀ f ∈ st.findings.rows, f.id ≠ existing.id → f ∈ st'.findings.rows := fun f hf hne =>
    hmem.2 ⟨f, hf, if_neg (by simpa using hne)⟩
  refine ⟨?_, fun f₀ hf₀ => ?_, fun f' hf' => ?_, fun e' he' => ?_, fun rule => ?_⟩
  · exact (h.one.assign existing.id g hg hsame).of_findings hst'
  · -- the matched finding is visited again, and all others are left alone
    obtain ⟨f, hf, hfollows⟩ := h.old f₀ hf₀
    by_cases hid : f.id = existing.id
    · have : f = existing := Table.eq_of_key hf hxmem hid
      subst this
      rw [h.context hfollows.same hxrepo, hlen] at hrev
      exact ⟨g f, hself, hfollows.revisited hxrepo hxdigest.symm hrev⟩
    · refine ⟨f, hother f hf hid, hfollows.skip fun hat => hid ?_⟩
      have hrepo : f.repoId = existing.repoId := (hfollows.same.repoId.trans hat.1).trans hxrepo.symm
      have hdigest : f.fingerprint = existing.fingerprint :=
        (hfollows.same.fingerprint.trans hat.2.symm).trans hxdigest.symm
      rw [h.one.eq hf hxmem hrepo hdigest]
  · obtain ⟨r, hr, rfl⟩ := hmem.1 hf'
    by_cases hid : r.id = existing.id
    · have : r = existing := Table.eq_of_key hr hxmem hid
      subst this
      rw [if_pos (beq_self_eq_true _)]
      rcases h.new r hr with ⟨f₀, hf₀, hid₀⟩ | ⟨hopen, hreported⟩
      · exact .inl ⟨f₀, hf₀, hid₀.trans (hsame r).id.symm⟩
      · refine .inr ⟨hrev.opens hopen, reported_append.2 (.inr ?_)⟩
        rw [(hsame r).fingerprint, hxdigest]
    · rw [if_neg (by simpa using hid)]
      exact (h.new r hr).imp_right fun hopen => ⟨hopen.1, reported_append.2 (.inl hopen.2)⟩
  · have hfound : st.byFingerprint repo (e'.digest sha256) ≠ none := by
      rcases List.mem_append.1 he' with he' | he'
      · exact h.seen e' he'
      · rw [List.mem_singleton.1 he', hx]
        exact Option.some_ne_none _
    obtain ⟨f, hf, hrepo, hdigest⟩ := byFingerprint_ne_none.1 hfound
    refine byFingerprint_ne_none.2 ⟨_, hmem.2 ⟨f, hf, rfl⟩, ?_⟩
    split
    · exact ⟨(hsame f).repoId.trans hrepo, (hsame f).fingerprint.trans hdigest⟩
    · exact ⟨hrepo, hdigest⟩
  · -- one row changes, and it counts anew only if it was stale
    have hcount := Table.countP_update_key hg (finding?_of_mem hxmem)
      fun f => f.repoId == repo && f.ruleId == rule && f.live
    rw [countAfter_append, ← h.count rule, h.raises_existing h₀ hx rule, liveCount, hst']
    have hlive : (f : Finding) → f.status = .stale → f.live = false := fun f hs => by
      unfold Finding.live; rw [hs]; decide
    rw [hrev.same.repoId, hrev.same.ruleId, hrev.live, hxrepo] at hcount
    by_cases hrule : existing.ruleId = rule
    · by_cases hs : existing.status = .stale
      · simp [hrule, hs, hlive existing hs] at hcount ⊢
        exact hcount
      · simp [hrule, hs] at hcount ⊢
        exact hcount
    · simp [hrule] at hcount ⊢
      exact hcount

theorem ingestEntry_folded {sha256 : String → String} {a : IngestArgs} {repo : Nat} {st₀ st st' : Store}
    {entries : List Entry} (h₀ : OneUnder st₀) (h : Folded sha256 a repo st₀ entries st) {e : Entry} {t t' : Tally}
    (hlen : t.seenIds.length = entries.length) (hok : ingestEntry sha256 a repo e t st = (.ok t', st')) :
    Folded sha256 a repo st₀ (entries ++ [e]) st' := by
  unfold ingestEntry at hok
  dsimp only at hok
  split at hok
  · cases hok
  · split at hok
    · rename_i hnone
      split at hok
      · cases hok
      · cases hok
        exact h.opened hnone (fun _ => rfl) (fun _ => ⟨rfl, rfl, rfl, rfl⟩) rfl
    · rename_i existing hx
      exact h.matched h₀ hx hok hlen

theorem Tallies.length {sha256 : String → String} {repo : Nat} {st : Store} {entries : List Entry} {t t' : Tally}
    (h : Tallies sha256 repo st entries t t') : t'.seenIds.length = t.seenIds.length + entries.length := by
  obtain ⟨ids, hids, hnames⟩ := h.ids
  rw [hids, List.length_append, hnames.length_eq]

theorem ingestEntries_folded {sha256 : String → String} {a : IngestArgs} {repo : Nat} {st₀ : Store}
    (h₀ : OneUnder st₀) (entries : List Entry) {before : List Entry} {t t' : Tally} {st st' : Store}
    (h : Folded sha256 a repo st₀ before st) (hlen : t.seenIds.length = before.length)
    (hok : ingestEntries sha256 a repo entries t st = (.ok t', st')) :
    Folded sha256 a repo st₀ (before ++ entries) st' := by
  induction entries generalizing before t st with
  | nil => cases hok; rw [List.append_nil]; exact h
  | cons e entries ih =>
    unfold ingestEntries at hok
    split at hok
    · cases hok
    · rename_i t₁ st₁ he
      have hlen₁ : t₁.seenIds.length = (before ++ [e]).length := by
        rw [(ingestEntry_tallies he).length, hlen, List.length_append]
      have hrest := ih (ingestEntry_folded h₀ h hlen he) hlen₁ hok
      rw [List.append_assoc, List.singleton_append] at hrest
      exact hrest

/-! ## After the sweep -/

/-- The deferred findings of a rule that no entry reports. -/
def unreportedCount (sha256 : String → String) (repo : Nat) (rule : String) (entries : List Entry) (st : Store) : Nat :=
  st.findings.rows.countP fun f => f.repoId == repo && f.ruleId == rule && decide (f.status ∈ deferredStatuses) &&
    !entries.any fun e => e.digest sha256 == f.fingerprint

/-- For a rule whose count exceeds the threshold after the batch: each deferred finding the batch reports is reopened
by one of the entries that report it, and those it does not report are none or more than the threshold. -/
def RulesReached (sha256 : String → String) (a : IngestArgs) (repo : Nat) (threshold : Int) (entries : List Entry)
    (st : Store) : Prop :=
  ∀ rule, threshold < countAfter sha256 repo rule st entries → ∀ f ∈ st.findings.rows, f.repoId = repo →
    f.ruleId = rule → f.status ∈ deferredStatuses →
      (Reported sha256 entries f → Woken sha256 a st entries f) ∧
        (¬ Reported sha256 entries f → threshold < unreportedCount sha256 repo rule entries st)

theorem any_digest_iff {sha256 : String → String} {entries : List Entry} {f : Finding} :
    entries.any (fun e => e.digest sha256 == f.fingerprint) = true ↔ Reported sha256 entries f := by
  rw [List.any_eq_true]
  exact exists_congr fun e => and_congr_right fun _ => beq_iff_eq

/-- The ids the sweep leaves out are those of the findings that are reported. -/
theorem mem_seenIds {sha256 : String → String} {repo : Nat} {st : Store} {entries : List Entry} {t : Tally}
    (h : Tallies sha256 repo st entries {} t) (hone : OneUnder st) {f : Finding} (hf : f ∈ st.findings.rows)
    (hrepo : f.repoId = repo) : f.id ∈ t.seenIds ↔ Reported sha256 entries f := by
  obtain ⟨ids, hids, hnames⟩ := h.ids
  rw [hids]
  show f.id ∈ ids ↔ _
  clear h hids
  unfold Reported
  induction hnames with
  | nil => simp
  | @cons e id entries ids hname _ ih =>
    obtain ⟨g, hg, rfl⟩ := hname
    have hg := mem_under.1 hg
    have hfirst : f.id = g.id ↔ e.digest sha256 = f.fingerprint := by
      constructor
      · intro hid
        rw [Table.eq_of_key hf hg.1 hid, hg.2.2]
      · intro hdigest
        rw [hone.eq hf hg.1 (hrepo.trans hg.2.1.symm) (hdigest.symm.trans hg.2.2.symm)]
    rw [List.mem_cons, ih, hfirst, List.exists_mem_cons_iff]

theorem Woken.reported {sha256 : String → String} {a : IngestArgs} {st : Store} {entries : List Entry} {f : Finding}
    (h : Woken sha256 a st entries f) : Reported sha256 entries f := by
  obtain ⟨before, e, after, rfl, hdigest, -⟩ := h
  exact ⟨e, List.mem_append_right _ (List.mem_cons_self ..), hdigest⟩

/-- A finding that is deferred after the entries was deferred before, and none of them reopened it. -/
theorem Folded.deferred_start {sha256 : String → String} {a : IngestArgs} {repo : Nat} {st₀ st : Store}
    {entries : List Entry} (h : Folded sha256 a repo st₀ entries st) {f : Finding} (hf : f ∈ st.findings.rows)
    (hrepo : f.repoId = repo) (hd : f.status ∈ deferredStatuses) :
    ∃ f₀ ∈ st₀.findings.rows, SameFinding f₀ f ∧ f₀.status ∈ deferredStatuses ∧ ¬ Woken sha256 a st₀ entries f₀ := by
  rcases h.new f hf with ⟨f₀, hf₀, hid⟩ | ⟨hopen, -⟩
  · obtain ⟨g, hg, hfollows⟩ := h.old f₀ hf₀
    have : g = f := Table.eq_of_key hg hf (hfollows.same.id.trans hid)
    subst this
    obtain ⟨hd₀, hasleep⟩ := hfollows.deferred.1 hd
    exact ⟨f₀, hf₀, hfollows.same, hd₀, fun hwoken => hasleep ⟨hfollows.same.repoId.symm.trans hrepo, hwoken⟩⟩
  · rw [hopen] at hd
    exact absurd hd (by decide)

theorem SameFinding.reported {f g : Finding} (h : SameFinding f g) (sha256 : String → String) (entries : List Entry) :
    Reported sha256 entries g ↔ Reported sha256 entries f := by
  rw [Reported, Reported, h.fingerprint]

/-- A deferred finding that no entry reports stays as it is. -/
theorem unreportedCount_le_deferredCount {sha256 : String → String} {a : IngestArgs} {repo : Nat} {st₀ st : Store}
    {entries : List Entry} (h : Folded sha256 a repo st₀ entries st) (rule : String) :
    unreportedCount sha256 repo rule entries st₀ ≤ deferredCount repo rule st := by
  refine Table.countP_le (t := st.findings) (u := st₀.findings) [] fun f₀ hf₀ hq => .inr ?_
  simp only [Bool.and_eq_true, beq_iff_eq, decide_eq_true_eq, Bool.not_eq_true'] at hq
  obtain ⟨⟨⟨hrepo, hrule⟩, hd⟩, hunreported⟩ := hq
  obtain ⟨f, hf, hfollows⟩ := h.old f₀ hf₀
  have hasleep : ¬ Woken sha256 a st₀ entries f₀ := fun hwoken => by
    rw [any_digest_iff.2 hwoken.reported] at hunreported
    cases hunreported
  refine ⟨f, hf, hfollows.same.id, ?_⟩
  simp only [Bool.and_eq_true, beq_iff_eq, decide_eq_true_eq]
  exact ⟨⟨hfollows.same.repoId.trans hrepo, hfollows.same.ruleId.trans hrule⟩,
    hfollows.deferred.2 ⟨hd, fun hat => hasleep hat.2⟩⟩

theorem deferredCount_le_unreportedCount {sha256 : String → String} {a : IngestArgs} {repo : Nat} {st₀ st : Store}
    {entries : List Entry} (h : Folded sha256 a repo st₀ entries st) (rule : String)
    (hnone : ∀ f ∈ st.findings.rows, f.repoId = repo → f.ruleId = rule → f.status ∈ deferredStatuses →
      ¬ Reported sha256 entries f) : deferredCount repo rule st ≤ unreportedCount sha256 repo rule entries st₀ := by
  refine Table.countP_le (t := st₀.findings) (u := st.findings) [] fun f hf hq => .inr ?_
  simp only [Bool.and_eq_true, beq_iff_eq, decide_eq_true_eq] at hq
  obtain ⟨⟨hrepo, hrule⟩, hd⟩ := hq
  obtain ⟨f₀, hf₀, hsame, hd₀, -⟩ := h.deferred_start hf hrepo hd
  have hunreported : entries.any (fun e => e.digest sha256 == f₀.fingerprint) = false :=
    Bool.eq_false_iff.2 fun hany =>
      hnone f hf hrepo hrule hd ((hsame.reported sha256 entries).2 (any_digest_iff.1 hany))
  refine ⟨f₀, hf₀, hsame.id.symm, ?_⟩
  simp only [Bool.and_eq_true, beq_iff_eq, decide_eq_true_eq, hunreported]
  exact ⟨⟨⟨hsame.repoId.symm.trans hrepo, hsame.ruleId.symm.trans hrule⟩, hd₀⟩, rfl⟩

/-- What the sweep meets after the entries, in terms of what there was before them. -/
theorem rulesReached_iff {sha256 : String → String} {a : IngestArgs} {repo : Nat} {threshold : Int} {st₀ st : Store}
    {entries : List Entry} (h : Folded sha256 a repo st₀ entries st) {t : Tally}
    (ht : Tallies sha256 repo st entries {} t) :
    (∀ rule, threshold < liveCount repo rule st → ∀ f ∈ st.findings.rows, f.repoId = repo → f.ruleId = rule →
        f.status ∈ deferredStatuses → f.id ∉ t.seenIds ∧ threshold < deferredCount repo rule st) ↔
      RulesReached sha256 a repo threshold entries st₀ := by
  unfold RulesReached
  refine forall_congr' fun rule => ?_
  rw [h.count rule]
  refine forall_congr' fun hover => ?_
  constructor
  · intro hall f₀ hf₀ hrepo hrule hd₀
    obtain ⟨f, hf, hfollows⟩ := h.old f₀ hf₀
    have hreached := fun hasleep : ¬ Woken sha256 a st₀ entries f₀ =>
      hall f hf (hfollows.same.repoId.trans hrepo) (hfollows.same.ruleId.trans hrule)
        (hfollows.deferred.2 ⟨hd₀, fun hat => hasleep hat.2⟩)
    constructor
    · intro hreported
      by_contra hasleep
      refine (hreached hasleep).1 ((mem_seenIds ht h.one hf (hfollows.same.repoId.trans hrepo)).2 ?_)
      exact (hfollows.same.reported sha256 entries).2 hreported
    · intro hunreported
      have hdeferred := (hreached fun hwoken => hunreported hwoken.reported).2
      have hle := deferredCount_le_unreportedCount h rule fun f' hf' hrepo' hrule' hd' hreported' =>
        (hall f' hf' hrepo' hrule' hd').1 ((mem_seenIds ht h.one hf' hrepo').2 hreported')
      exact lt_of_lt_of_le hdeferred (Int.ofNat_le.2 hle)
  · intro hreach f hf hrepo hrule hd
    obtain ⟨f₀, hf₀, hsame, hd₀, hasleep⟩ := h.deferred_start hf hrepo hd
    have hreached := hreach f₀ hf₀ (hsame.repoId.symm.trans hrepo) (hsame.ruleId.symm.trans hrule) hd₀
    have hunreported : ¬ Reported sha256 entries f₀ := fun hreported => hasleep (hreached.1 hreported)
    refine ⟨fun hseen => hunreported ?_, ?_⟩
    · exact (hsame.reported sha256 entries).1 ((mem_seenIds ht h.one hf hrepo).1 hseen)
    · exact lt_of_lt_of_le (hreached.2 hunreported) (Int.ofNat_le.2 (unreportedCount_le_deferredCount h rule))

/-- Condition 3 on the rule: from any state calls lead to, a batch that returns settles every rule of its repository if
and only if, for each rule it brings over the threshold, it reopens the deferred findings it reports and leaves
unreported none or more than the threshold. -/
theorem rulesSettled_iff (sha256 : String → String) (runs : Table ReviewRun) (repos : List Repo) (cs : List Call)
    (a : IngestArgs) (entries : List (Option Entry)) (t : Tally) (repo : Nat) (threshold : Int)
    (hrepo : resolveRepoId ((findings sha256 runs repos).state cs).repos a.repo = .ok repo)
    (ht : countThreshold a.policy = some threshold)
    (hok : (ingest sha256 a entries ((findings sha256 runs repos).state cs)).1 = .ok t) :
    RulesSettled threshold repo (ingest sha256 a entries ((findings sha256 runs repos).state cs)).2 ↔
      RulesReached sha256 a repo threshold entries.reduceOption ((findings sha256 runs repos).state cs) := by
  have hone := oneUnder_reachable sha256 runs repos cs
  generalize (findings sha256 runs repos).state cs = st at hrepo hok hone ⊢
  unfold ingest at hok ⊢
  rw [hrepo] at hok ⊢
  dsimp only at hok ⊢
  split at hok
  · cases hok
  · rename_i hrun
    rw [if_neg hrun]
    cases hentries : ingestEntries sha256 a repo entries.reduceOption {} st with
    | mk result st' =>
      rw [hentries] at hok
      cases result with
      | error e => cases hok
      | ok t' =>
        have hfolded := ingestEntries_folded hone entries.reduceOption (Folded.start hone) rfl hentries
        exact (settled_applyEscalation_iff ht).trans
          (rulesReached_iff hfolded (ingestEntries_tallies entries.reduceOption hentries))

/-- Alice acknowledges the finding of `oneDebt`. -/
def oneAcknowledged : List Call :=
  ⟨.decide { findingId := 1, action := "acknowledge", actor := "alice", owner := some "alice", due := some 20000 },
    true⟩ :: oneDebt

/-- A batch under the threshold 1 that reports one symbol. -/
def reportsSymbol (symbol : String) : IngestArgs × List (Option Entry) :=
  ({ repo := .id 1, runId := none, clock := fun _ => 0,
     policy := some { escalation := some { ruleCountThreshold := some 1 } } },
   [some { ruleId := some ⟨"r", true⟩, filePath := some ⟨"a.py", true⟩, symbol := some ⟨symbol, true⟩ }])

/-- The batch reports the finding that is acknowledged: the rule stays at the threshold. -/
theorem rulesSettled_reported :
    RulesSettled 1 1 (ingest id (reportsSymbol "f").1 (reportsSymbol "f").2
        ((findings id Table.empty []).state oneAcknowledged)).2 ↔
      RulesReached id (reportsSymbol "f").1 1 1 (reportsSymbol "f").2.reduceOption
        ((findings id Table.empty []).state oneAcknowledged) :=
  rulesSettled_iff id Table.empty [] oneAcknowledged (reportsSymbol "f").1 (reportsSymbol "f").2 ⟨0, 1, 0, [1]⟩ 1 1 rfl rfl
    (by decide +kernel)

/-- A second finding of the rule brings it over the threshold, and the acknowledged one is left. -/
theorem reportsOther_not_settled :
    ¬ RulesSettled 1 1 (ingest id (reportsSymbol "g").1 (reportsSymbol "g").2
      ((findings id Table.empty []).state oneAcknowledged)).2 := by
  intro h
  have hdeferred : ∃ f ∈ (ingest id (reportsSymbol "g").1 (reportsSymbol "g").2
      ((findings id Table.empty []).state oneAcknowledged)).2.findings.rows,
      f.repoId = 1 ∧ f.ruleId = "r" ∧ f.status ∈ deferredStatuses := by decide +kernel
  have hcount : (1 : Int) < liveCount 1 "r" (ingest id (reportsSymbol "g").1 (reportsSymbol "g").2
      ((findings id Table.empty []).state oneAcknowledged)).2 := by decide +kernel
  obtain ⟨f, hf, hrepo, hrule, hd⟩ := hdeferred
  rcases h "r" with hnone | hle
  · exact hnone f hf hrepo hrule hd
  · omega

end OpenFish.Findings
