/-
The constraint `uq_findings_repo_fingerprint`, as a fact of the calls: they look a digest up before they open a finding
under it, so that no two findings of a repository have one digest.
-/
import OpenFish.Findings.Identity

namespace OpenFish.Findings

open Lib

/-- A repository has at most one finding of each digest. -/
def OneUnder (st : Store) : Prop := ∀ repo digest, (under repo digest st).length ≤ 1

theorem OneUnder.of_findings {st st' : Store} (h : OneUnder st) (heq : st'.findings = st.findings) : OneUnder st' := by
  intro repo digest
  rw [under_of_findings heq]
  exact h repo digest

theorem OneUnder.assign {st : Store} (h : OneUnder st) (id : Nat) (f : Finding → Finding)
    (hf : ∀ r, key (f r) = key r) (hs : ∀ r, SameFinding r (f r)) : OneUnder (st.assign id f hf) := by
  intro repo digest
  rw [under_assign _ _ hf repo digest hs, List.length_map]
  exact h repo digest

theorem OneUnder.addFinding {st : Store} (h : OneUnder st) {mk : Nat → Finding} (hmk : ∀ k, key (mk k) = k)
    (hnone : st.byFingerprint (mk st.findings.next).repoId (mk st.findings.next).fingerprint = none) :
    OneUnder (st.addFinding mk hmk) := by
  intro repo digest
  rw [under_addFinding _ hmk, List.length_append]
  split
  · rename_i hat
    rw [← head?_under, hat.1, hat.2] at hnone
    rw [List.head?_eq_none_iff.1 hnone]
    exact Nat.le_refl 1
  · exact h repo digest

/-- The one finding of a digest. -/
theorem OneUnder.eq {st : Store} (h : OneUnder st) {f g : Finding} (hf : f ∈ st.findings.rows) (hg : g ∈ st.findings.rows)
    (hrepo : f.repoId = g.repoId) (hdigest : f.fingerprint = g.fingerprint) : f = g := by
  have hone := h g.repoId g.fingerprint
  have hmf : f ∈ under g.repoId g.fingerprint st := mem_under.2 ⟨hf, hrepo, hdigest⟩
  have hmg : g ∈ under g.repoId g.fingerprint st := mem_under.2 ⟨hg, rfl, rfl⟩
  match hl : under g.repoId g.fingerprint st with
  | [] => rw [hl] at hmf; cases hmf
  | [k] =>
    rw [hl, List.mem_singleton] at hmf hmg
    rw [hmf, hmg]
  | _ :: _ :: _ =>
    rw [hl] at hone
    simp at hone

/-! ## Every call -/

theorem matchEntry_oneUnder {a : IngestArgs} {entry : Entry} {existing : Finding} {t : Tally} {st : Store}
    (h : OneUnder st) : OneUnder (matchEntry a entry existing t st).2 := by
  have hseen : OneUnder (st.assign existing.id (setObserved a.runId entry) fun _ => rfl) :=
    h.assign existing.id (setObserved a.runId entry) (fun _ => rfl) fun r => (noted_setObserved a.runId entry r).toSameFinding
  unfold matchEntry
  dsimp only
  cases existing.status with
  | «open» | fixed => exact hseen
  | stale => exact (hseen.assign existing.id setOpen (fun _ => rfl) sameFinding_setOpen).of_findings rfl
  | acknowledged | wontfix =>
    dsimp only
    split
    · exact hseen
    · exact hseen
    · exact (hseen.assign existing.id setReopened (fun _ => rfl) sameFinding_setReopened).of_findings rfl

theorem ingestEntry_oneUnder (sha256 : String → String) (a : IngestArgs) (repo : Nat) (e : Entry) (t : Tally)
    {st : Store} (h : OneUnder st) : OneUnder (ingestEntry sha256 a repo e t st).2 := by
  unfold ingestEntry
  dsimp only
  split
  · exact h
  · split
    · rename_i hnone
      split
      · exact h
      · exact (h.addFinding (fun _ => rfl) hnone).of_findings rfl
    · exact matchEntry_oneUnder h

theorem ingestEntries_oneUnder (sha256 : String → String) (a : IngestArgs) (repo : Nat) (entries : List Entry)
    {t : Tally} {st : Store} (h : OneUnder st) : OneUnder (ingestEntries sha256 a repo entries t st).2 := by
  induction entries generalizing t st with
  | nil => exact h
  | cons e entries ih =>
    have hfirst := ingestEntry_oneUnder sha256 a repo e t h
    unfold ingestEntries
    split
    · rename_i he; rw [he] at hfirst; exact hfirst
    · rename_i he; rw [he] at hfirst; exact ih hfirst

theorem applyEscalation_oneUnder {a : IngestArgs} {repo : Nat} {exclude : List Nat} {st : Store} (h : OneUnder st) :
    OneUnder (applyEscalation a repo exclude st).2 := by
  unfold applyEscalation
  split
  · exact h
  · dsimp only
    generalize overThreshold _ _ _ = rows
    generalize a.clock exclude.length = now
    induction rows generalizing st with
    | nil => exact h
    | cons row rows ih => exact ih ((h.assign row.id setReopened (fun _ => rfl) sameFinding_setReopened).of_findings rfl)

theorem ingest_oneUnder {sha256 : String → String} {a : IngestArgs} {findings : List (Option Entry)} {st : Store}
    (h : OneUnder st) : OneUnder (ingest sha256 a findings st).2 := by
  unfold ingest
  split
  · exact h
  · rename_i repo _
    dsimp only
    split
    · exact h
    · have hentries := ingestEntries_oneUnder sha256 a repo findings.reduceOption
        (t := {}) h
      split
      · rename_i he; rw [he] at hentries; exact hentries
      · rename_i he
        rw [he] at hentries
        exact (applyEscalation_oneUnder hentries).of_findings rfl

theorem decide_oneUnder {a : DecideArgs} {st : Store} (h : OneUnder st) : OneUnder (Findings.decide a st).2 := by
  unfold Findings.decide
  split
  · exact h
  · split
    · exact h
    · exact (h.assign _ _ (setDecided_id a _) (sameFinding_setDecided a _)).of_findings rfl

theorem watchRule_oneUnder {sha256 : String → String} {a : WatchArgs} {repo : Nat} {w : Watched × Store}
    {rule : String × Nat} (h : OneUnder w.2) : OneUnder (watchRule sha256 a repo w rule).2 := by
  unfold watchRule
  dsimp only
  split
  · rename_i hnone
    exact (h.addFinding (fun _ => rfl) hnone).of_findings rfl
  · rename_i f _
    have hnoisy : OneUnder (w.2.assign f.id (setNoisy (noiseDetail a rule.1 rule.2)) fun _ => rfl) :=
      h.assign f.id (setNoisy _) (fun _ => rfl) fun r => (noted_setNoisy _ r).toSameFinding
    dsimp only
    split
    · exact (hnoisy.assign f.id setOpen (fun _ => rfl) sameFinding_setOpen).of_findings rfl
    · exact hnoisy

theorem ruleQualityWatch_oneUnder {sha256 : String → String} {a : WatchArgs} {st : Store} (h : OneUnder st) :
    OneUnder (ruleQualityWatch sha256 a st).2 := by
  have hfold : ∀ (repo : Nat) (rules : List (String × Nat)) (w : Watched × Store), OneUnder w.2 →
      OneUnder (rules.foldl (watchRule sha256 a repo) w).2 := by
    intro repo rules
    induction rules with
    | nil => exact fun w hw => hw
    | cons rule rules ih => exact fun w hw => ih _ (watchRule_oneUnder hw)
  unfold ruleQualityWatch
  split
  · exact h
  · exact hfold _ _ ({}, st) h

/-- After any calls no two findings of a repository have one digest. -/
theorem oneUnder_reachable (sha256 : String → String) (runs : Table ReviewRun) (repos : List Repo) (cs : List Call) :
    OneUnder ((findings sha256 runs repos).state cs) := by
  refine Machine.invariant (M := findings sha256 runs repos) (P := fun _ st => OneUnder st)
    (fun _ _ => Nat.zero_le 1) (fun _ st c h => ?_) cs
  have hperform : OneUnder (perform sha256 st c.op).2 := by
    unfold perform
    cases c.op with
    | ingest a findings => simp only [Prod.map_snd, id]; exact ingest_oneUnder h
    | decide a => simp only [Prod.map_snd, id]; exact decide_oneUnder h
    | ruleQualityWatch a => simp only [Prod.map_snd, id]; exact ruleQualityWatch_oneUnder h
  show OneUnder (if c.commit then _ else st)
  split
  · exact hperform
  · exact h

end OpenFish.Findings
