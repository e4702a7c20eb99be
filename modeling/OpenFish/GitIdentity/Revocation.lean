/-
A revoked identity has no live token, as long as no revocation overlooks a token that the row does not know of
and no token is made behind a revocation.
-/
import OpenFish.GitIdentity.Service

namespace OpenFish.GitIdentity

open Lib

variable {lifetime : Time}

/-- Every live token was made by a call that began after the last revocation that returned `True`. -/
def NoneSinceRevoked (s : Scene Account Call) : Prop := ∀ t, s.shared.live = some t → t.begun = s.shared.revocations

/-- A revocation that will not ask Forgejo to delete the token any more. -/
def Call.cutsOff : Call → Bool
  | .removing _ | .finishing _ => true
  | _ => false

/-- A revocation overlooks a live token because the row holds no ciphertext, or a token is made behind a
revocation: by a call that began before one that has returned, or once one is past its deletion. -/
def overlooks (s : Scene Account Call) : Move Request Fate Nat → Bool
  | .step i fate =>
    match s.calls[i]? with
    | some (.revoking _) => fate ≠ .crash ∧ s.shared.row.any (·.sealed.isNone) = true ∧ s.shared.live ≠ none
    | some (.creating m ..) =>
      (fate.effective = true ∧ s.shared.onForgejo = true ∧ s.shared.live = none) ∧
        (m.begun ≠ s.shared.revocations ∨ s.calls.any (·.cutsOff) = true)
    | _ => false
  | _ => false

/-! ## The invariant -/

def BegunSince (s : Account) : Prop := ∀ t, s.live = some t → t.begun = s.revocations

/-- A revocation past its deletion has cut the account off. -/
def CutOff (s : Account) (k : Call) : Prop := k.cutsOff = true → s.live = none

theorem cutsOff_underLock (m : Mint) (loaded current : Option Row) : (underLock m loaded current).cutsOff = false := by
  unfold underLock
  split
  · split <;> rfl
  · rfl

/-- What one step does to Forgejo: it makes a token, or revokes with none live, or makes and counts nothing. -/
theorem step_cases (s : Account) (k : Call) (fate : Fate) :
    (∃ m loaded now, k = .creating m loaded now ∧ fate.effective = true ∧
      (step lifetime s k fate).1 = s.createToken m ∧ (step lifetime s k fate).2.cutsOff = false) ∨
    (∃ loaded, k = .finishing loaded ∧ (step lifetime s k fate).1.live = s.live ∧
      (step lifetime s k fate).2.cutsOff = false) ∨
    ((step lifetime s k fate).1.revocations = s.revocations ∧
      ((step lifetime s k fate).1.live = s.live ∨ (step lifetime s k fate).1.live = none) ∧
      ((step lifetime s k fate).2.cutsOff = true → (step lifetime s k fate).1.live = none ∨ k.cutsOff = true ∨
        ∃ deleteForgejoUser row, k = .revoking deleteForgejoUser ∧ s.row = some row ∧ row.sealed = none)) := by
  cases k with
  | finding m =>
    refine .inr (.inr ?_)
    simp only [step]
    split
    · exact ⟨rfl, .inl rfl, fun h => (nomatch h)⟩
    · split
      · refine ⟨rfl, .inl rfl, fun h => ?_⟩
        split at h <;> exact nomatch h
      · refine ⟨rfl, .inl rfl, fun h => ?_⟩
        split at h <;> exact nomatch h
  | ensuring m loaded =>
    refine .inr (.inr ?_)
    have hnot := cutsOff_underLock m loaded s.row
    simp only [step]
    split
    · refine ⟨rfl, .inl rfl, fun h => ?_⟩
      split at h <;> exact nomatch h
    · refine ⟨rfl, .inl rfl, fun h => ?_⟩
      split at h
      · exact nomatch h
      · exact absurd h (Bool.eq_false_iff.1 hnot)
  | provisioning m loaded =>
    refine .inr (.inr ?_)
    simp only [step]
    split
    · exact ⟨rfl, .inl rfl, fun h => (nomatch h)⟩
    · split
      · exact ⟨rfl, .inl rfl, fun h => (nomatch h)⟩
      · split <;> exact ⟨rfl, .inl rfl, fun h => (nomatch h)⟩
  | deciding m loaded =>
    refine .inr (.inr ?_)
    simp only [step]
    split
    · exact ⟨rfl, .inl rfl, fun h => (nomatch h)⟩
    · split
      · exact ⟨rfl, .inl rfl, fun h => (nomatch h)⟩
      · refine ⟨rfl, .inl rfl, fun h => ?_⟩
        split at h <;> exact nomatch h
  | deleting m loaded now =>
    refine .inr (.inr ?_)
    simp only [step]
    -- the one step of a mint that takes a live token away
    refine ⟨by split <;> rfl, ?_, fun h => ?_⟩
    · split
      · exact .inr rfl
      · exact .inl rfl
    · split at h <;> exact nomatch h
  | creating m loaded now =>
    simp only [step]
    split
    · rename_i heffective
      refine .inl ⟨m, loaded, now, rfl, heffective.1, rfl, ?_⟩
      show (if fate = .done then Call.committing m loaded now s.made else .ended).cutsOff = false
      split <;> rfl
    · exact .inr (.inr ⟨rfl, .inl rfl, fun h => (nomatch h)⟩)
  | committing m loaded now secret =>
    refine .inr (.inr ?_)
    simp only [step]
    split <;> exact ⟨rfl, .inl rfl, fun h => (nomatch h)⟩
  | credential m secret => exact .inr (.inr ⟨rfl, .inl rfl, fun h => (nomatch h)⟩)
  | revoking deleteForgejoUser =>
    refine .inr (.inr ?_)
    cases hrow : s.row with
    | none =>
      simp only [step, hrow]
      split <;> exact ⟨rfl, .inl rfl, fun h => (nomatch h)⟩
    | some row =>
      simp only [step, hrow]
      split
      · exact ⟨rfl, .inl rfl, fun h => (nomatch h)⟩
      · -- a row without a sealed token has none to delete
        refine ⟨rfl, .inl rfl, fun h => .inr (.inr ⟨deleteForgejoUser, row, rfl, rfl, ?_⟩)⟩
        split at h
        · exact nomatch h
        · exact Option.not_isSome_iff_eq_none.1 ‹_›
  | cutting deleteForgejoUser loaded =>
    refine .inr (.inr ?_)
    cases fate with
    | done | failsAfter => exact ⟨rfl, .inr rfl, fun _ => .inl rfl⟩
    | failsBefore | crash => exact ⟨rfl, .inl rfl, fun h => (nomatch h)⟩
  | removing loaded =>
    refine .inr (.inr ?_)
    cases fate with
    | done | failsAfter => exact ⟨rfl, .inr rfl, fun _ => .inl rfl⟩
    -- the removal fails, but the call stood behind the deletion already
    | failsBefore | crash => exact ⟨rfl, .inl rfl, fun _ => .inr (.inl rfl)⟩
  | finishing loaded =>
    refine .inr (.inl ⟨loaded, rfl, ?_⟩)
    simp only [step]
    split <;> exact ⟨rfl, rfl⟩
  | revoked found => exact .inr (.inr ⟨rfl, .inl rfl, fun h => (nomatch h)⟩)
  | ended => exact .inr (.inr ⟨rfl, .inl rfl, fun h => (nomatch h)⟩)

theorem outline (lifetime : Time) :
    (service lifetime).Outline (fun s m => overlooks s m = false) BegunSince CutOff where
  start := fun t h => by cases h
  enter := by
    intro s a _ h
    cases a <;> exact nomatch h
  step := by
    intro s i k fate hs hi hok
    have hI := hs.shared
    have hQ := hs.calls hi
    rcases @step_cases lifetime s.shared k fate with
      ⟨m, loaded, now, rfl, heffective, hstep, hnot⟩ | ⟨loaded, rfl, hlive, hnot⟩ | ⟨hcount, hlive, hcut⟩
    · refine ⟨?_, fun h => absurd h (Bool.eq_false_iff.1 hnot)⟩
      show BegunSince (step lifetime s.shared (.creating m loaded now) fate).1
      by_cases htakes : fate.effective = true ∧ s.shared.onForgejo = true ∧ s.shared.live = none
      · -- a token is made: a step that overlooks nothing belongs to a call that began since the last revocation
        simp only [overlooks, hi, decide_eq_false_iff_not] at hok
        rw [hstep]
        intro t ht
        cases ht
        by_contra hbegun
        exact hok ⟨htakes, .inl hbegun⟩
      · simp only [step, if_neg htakes]
        exact hI
    · have hnone := hQ rfl
      refine ⟨fun t ht => ?_, fun h => absurd h (Bool.eq_false_iff.1 hnot)⟩
      rw [show ((service lifetime).step s.shared (.finishing loaded) fate).1.live = s.shared.live from hlive, hnone] at ht
      cases ht
    · refine ⟨fun t ht => ?_, fun h => ?_⟩
      · rcases hlive with hlive | hlive
        · exact (hI t (hlive ▸ ht)).trans hcount.symm
        · exact absurd (hlive.symm.trans ht) (by simp)
      · -- nothing is live: the step deletes, the call was cut off before, or the row is bare
        rcases hcut h with hnone | hk | ⟨deleteForgejoUser, row, rfl, hrow, hsealed⟩
        · exact hnone
        · rcases hlive with hlive | hlive
          · exact hlive.trans (hQ hk)
          · exact hlive
        · have hnone : s.shared.live = none := by
            by_contra hne
            simp only [overlooks, hi, decide_eq_false_iff_not] at hok
            refine hok ⟨?_, by rw [hrow]; simp [hsealed], hne⟩
            rintro rfl
            exact nomatch h
          rcases hlive with hlive | hlive
          · exact hlive.trans hnone
          · exact hlive
  others := by
    intro s i k fate j k' hs hi hok _ hj hcut
    have hnone := hs.calls hj hcut
    rcases @step_cases lifetime s.shared k fate with
      ⟨m, loaded, now, rfl, heffective, hstep, -⟩ | ⟨-, -, hlive, -⟩ | ⟨-, hlive | hlive, -⟩
    · show (step lifetime s.shared (.creating m loaded now) fate).1.live = none
      by_cases htakes : fate.effective = true ∧ s.shared.onForgejo = true ∧ s.shared.live = none
      · simp only [overlooks, hi, decide_eq_false_iff_not] at hok
        exact absurd ⟨htakes, .inr (List.any_eq_true.2 ⟨k', List.mem_of_getElem? hj, hcut⟩)⟩ hok
      · simp only [step, if_neg htakes]
        exact hnone
    · exact hlive.trans hnone
    · exact hlive.trans hnone
    · exact hlive
  world := fun hs _ => ⟨hs.shared, fun hk => hs.calls hk⟩

/-- From the moment a `revoke` returns `True` no token of the account is live until a `token_for` that began
later makes one, in every run whose steps overlook none. -/
theorem none_since_revoked (lifetime : Time) {ms : List (Move Request Fate Nat)}
    (h : (service lifetime).machine.AllSteps (fun _ s m => overlooks s m = false) ms) :
    (service lifetime).machine.AllStates (fun _ => NoneSinceRevoked) ms :=
  h.allStates fun _ hs => ((outline lifetime).run hs).shared

/-! ## The token that outlives its revocation -/

def steps (i : ℕ) (fates : List Fate) : List (Move Request Fate Nat) := (fates.map (.step i)).reverse

/-- A credential is minted to its end, and then the identity is revoked. -/
def mintedThenRevoked : List (Move Request Fate Nat) :=
  steps 1 [.done, .done, .done] ++ .begin (.revoke false) :: steps 0 (List.replicate 6 .done) ++
    [.begin (.tokenFor false true)]

theorem none_since_revoked_mintedThenRevoked :
    (service 30).machine.AllSteps (fun _ s m => overlooks s m = false) mintedThenRevoked ∧
      (service 30).machine.AllStates (fun _ => NoneSinceRevoked) mintedThenRevoked :=
  have h : (service 30).machine.AllSteps (fun _ s m => overlooks s m = false) mintedThenRevoked := by decide
  ⟨h, none_since_revoked 30 h⟩

/-- The first credential is being minted, Forgejo has made its token, and the identity is revoked before the
row remembers it. -/
def revokedWhileMinting : List (Move Request Fate Nat) :=
  steps 1 [.done, .done] ++ .begin (.revoke false) :: steps 0 (List.replicate 5 .done) ++
    [.begin (.tokenFor false true)]

theorem revokedWhileMinting_live :
    ((service 30).machine.state revokedWhileMinting).calls[1]? = some (.revoked true) ∧
      ¬ (service 30).machine.AllStates (fun _ => NoneSinceRevoked) revokedWhileMinting := by
  refine ⟨by decide, fun h => ?_⟩
  have hlive : ((service 30).machine.state revokedWhileMinting).shared.live = some ⟨0, false, 0⟩ := by decide
  exact absurd (h.now _ hlive) (by decide)

end OpenFish.GitIdentity
