/-
Minting recovers: after a history of calls one after another, whose remote calls fail and which are cut short,
the next `token_for` on its own hands out a live token of its scope, unless an earlier call left Forgejo and the
row apart: one that stopped after it had touched the token, when the row it read held none that had expired.
-/
import OpenFish.GitIdentity.Service
import Mathlib.Algebra.Order.Ring.Int

namespace OpenFish.GitIdentity

open Lib

/-! ## Histories -/

section
variable (lifetime : Time)

/-- A call on its own, with how each of its steps ends; it is cut short where the list ends. -/
def solo (s : Account) (k : Call) : List Fate → Account × Call
  | [] => (s, k)
  | fate :: fates => solo (step lifetime s k fate).1 (step lifetime s k fate).2 fates

inductive Event
  | call (request : Request) (fates : List Fate)
  | wait (d : Nat)
  deriving DecidableEq, Repr

def Account.after (s : Account) : Event → Account
  | .call request fates => (solo lifetime s (enter s request) fates).1
  | .wait d => { s with clock := s.clock + d }

/-- The calls of one account, one after another, from before its first credential. -/
def histories : Machine Account Event Unit := ⟨{}, fun s e => ((), s.after lifetime e)⟩

/-- No call takes more steps than this. -/
def undisturbed : List Fate := List.replicate 7 .done

/-- The next `token_for`, on its own and with Forgejo answering, hands out a live token of its scope. -/
def Recovers (s : Account) : Prop :=
  ∀ readOnly, ∃ secret begun,
    (solo lifetime s (enter s (.tokenFor readOnly true)) undisturbed).2 = .credential ⟨readOnly, true, s.revocations⟩ secret ∧
      (solo lifetime s (enter s (.tokenFor readOnly true)) undisturbed).1.live = some ⟨secret, readOnly, begun⟩

end

/-- The call came to its end. -/
def Call.completed : Call → Bool
  | .credential .. | .revoked _ => true
  | _ => false

/-- The row holds a token that has expired. -/
def Account.heldExpired (s : Account) : Bool :=
  s.row.any fun row => row.sealed.isSome && isExpired row.tokenExpiresAt s.clock

/-- The row is there and not revoked. -/
def Account.active (s : Account) : Bool := s.row.any fun row => row.revokedAt.isNone

/-- A call that does not come to its end has not touched the token, or the row held an expired one before it;
and it has not removed the Forgejo account of an identity that is not revoked. -/
def Restores (lifetime : Time) (s : Account) : Event → Prop
  | .wait _ => True
  | .call request fates =>
    (solo lifetime s (enter s request) fates).2.completed = true ∨
      (((solo lifetime s (enter s request) fates).1.touches = s.touches ∨ s.heldExpired = true) ∧
        (s.active = true → (solo lifetime s (enter s request) fates).1.onForgejo = true))

instance (lifetime : Time) (s : Account) : (e : Event) → Decidable (Restores lifetime s e)
  | .wait _ => .isTrue trivial
  | .call request fates => inferInstanceAs (Decidable
    ((solo lifetime s (enter s request) fates).2.completed = true ∨
      (((solo lifetime s (enter s request) fates).1.touches = s.touches ∨ s.heldExpired = true) ∧
        (s.active = true → (solo lifetime s (enter s request) fates).1.onForgejo = true))))

/-! ## The invariant -/

/-- The row says what is live on Forgejo. -/
def Row.Tells (row : Row) (clock : Time) (live : Option Token) : Prop :=
  match row.sealed with
  | none => live = none
  | some c => isExpired row.tokenExpiresAt clock = true ∨ ∃ begun, live = some ⟨c.token, c.readOnly, begun⟩

/-- The two sides agree, as far as the next call needs them to. -/
structure Sound (s : Account) : Prop where
  unknown : s.row = none → s.live = none
  tells : ∀ row, s.row = some row → row.Tells s.clock s.live
  bare : ∀ row, s.row = some row → row.revokedAt ≠ none → row.sealed = none
  account : ∀ row, s.row = some row → row.revokedAt = none → s.onForgejo = true

variable {lifetime : Time}

theorem merge_self (loaded after : Row) : loaded.merge after loaded = after := by
  obtain ⟨c, e, r⟩ := after
  simp only [Row.merge]
  congr 1 <;> split <;> simp_all

theorem commit_row {s : Account} {loaded : Row} (h : s.row = some loaded) (after : Row) :
    (s.commit loaded after).row = some after := by
  rw [Account.commit, h, Option.map_some, merge_self]

/-- With an expired token in the row any token may be live. -/
theorem Sound.of_expired {s : Account} (hexpired : s.heldExpired = true) (hbare : ∀ row, s.row = some row →
    row.revokedAt ≠ none → row.sealed = none) (haccount : ∀ row, s.row = some row → row.revokedAt = none →
    s.onForgejo = true) : Sound s := by
  refine ⟨fun h => ?_, fun row hrow => ?_, hbare, haccount⟩
  · rw [Account.heldExpired, h] at hexpired
    cases hexpired
  · rw [Account.heldExpired, hrow, Option.any_some, Bool.and_eq_true] at hexpired
    obtain ⟨c, hc⟩ := Option.isSome_iff_exists.1 hexpired.1
    unfold Row.Tells
    rw [hc]
    exact .inl hexpired.2

theorem Sound.live_none {s : Account} (h : Sound s) (hrevoked : ∀ row, s.row = some row → row.revokedAt ≠ none) :
    s.live = none := by
  cases hrow : s.row with
  | none => exact h.unknown hrow
  | some row =>
    have htells := h.tells row hrow
    unfold Row.Tells at htells
    rw [h.bare row hrow (hrevoked row hrow)] at htells
    exact htells

/-! ## What a call leaves -/

/-- What a call that stops here leaves, if it may. -/
def Leaves (s₀ s : Account) : Prop :=
  s.touches = s₀.touches ∨ s₀.heldExpired = true → (s₀.active = true → s.onForgejo = true) → Sound s

/-- A `token_for` that has its row. -/
structure Minting (s₀ s : Account) (loaded : Row) : Prop where
  row : s.row = some loaded
  unrevoked : loaded.revokedAt = none
  account : s.onForgejo = true
  expired : s₀.heldExpired = true → s.heldExpired = true
  touches : s₀.touches ≤ s.touches

/-- A `revoke` that has the remote token out of the way. -/
structure Cutting (s₀ s : Account) (loaded : Row) : Prop where
  before : s₀.row = some loaded
  row : s.row = some loaded
  live : s.live = none
  clock : s.clock = s₀.clock
  untouched : s.touches = s₀.touches → loaded.sealed = none

/-- Where a call stands, and what it has done since it began in the state `s₀`. -/
def During (s₀ s : Account) : Call → Prop
  | .finding _ | .revoking _ => s = s₀
  | .ensuring _ loaded => s = s₀ ∧ loaded = s₀.row ∧ ∀ row, s₀.row = some row → row.revokedAt ≠ none
  | .provisioning _ loaded =>
    s = { s₀ with onForgejo := true } ∧ loaded = s₀.row ∧ ∀ row, s₀.row = some row → row.revokedAt ≠ none
  | .deciding _ loaded | .deleting _ loaded _ => Minting s₀ s loaded ∧ Sound s ∧ s.touches = s₀.touches
  | .creating _ loaded _ => Minting s₀ s loaded ∧ (s.touches = s₀.touches → Sound s)
  | .committing m loaded _ secret =>
    Minting s₀ s loaded ∧ s₀.touches < s.touches ∧ s.live = some ⟨secret, m.readOnly, m.begun⟩
  | .cutting _ loaded => s = s₀ ∧ s₀.row = some loaded ∧ loaded.sealed.isSome = true
  | .removing loaded | .finishing loaded => Cutting s₀ s loaded
  | .credential .. | .revoked _ => Sound s
  | .ended => Leaves s₀ s

theorem Minting.sound {s₀ s : Account} {loaded : Row} (h : Minting s₀ s loaded) (hexpired : s₀.heldExpired = true) :
    Sound s := by
  refine .of_expired (h.expired hexpired) (fun row hrow hne => ?_) fun _ _ _ => h.account
  rw [h.row] at hrow
  cases hrow
  exact absurd h.unrevoked hne

theorem Minting.leaves {s₀ s : Account} {loaded : Row} (h : Minting s₀ s loaded)
    (hs : s.touches = s₀.touches → Sound s) : Leaves s₀ s := by
  rintro (htouches | hexpired) -
  · exact hs htouches
  · exact h.sound hexpired

theorem Cutting.leaves {s₀ s : Account} {loaded : Row} (hs₀ : Sound s₀) (h : Cutting s₀ s loaded) : Leaves s₀ s := by
  intro hstop haccount
  have hbare : ∀ row, s.row = some row → row.revokedAt ≠ none → row.sealed = none := by
    intro row hrow
    rw [h.row] at hrow
    cases hrow
    exact hs₀.bare _ h.before
  have hactive : ∀ row, s.row = some row → row.revokedAt = none → s.onForgejo = true := by
    intro row hrow hnone
    rw [h.row] at hrow
    cases hrow
    refine haccount ?_
    rw [Account.active, h.before, Option.any_some, hnone]
    rfl
  rcases hstop with htouches | hexpired
  · refine ⟨fun _ => h.live, fun row hrow => ?_, hbare, hactive⟩
    rw [h.row] at hrow
    cases hrow
    unfold Row.Tells
    rw [h.untouched htouches]
    exact h.live
  · refine .of_expired ?_ hbare hactive
    rw [Account.heldExpired, h.row, h.clock]
    rw [Account.heldExpired, h.before] at hexpired
    exact hexpired

/-- A call that stops where it stands leaves a sound state, if it may stop there. -/
theorem During.leaves {s₀ s : Account} {k : Call} (hs₀ : Sound s₀) (h : During s₀ s k) (hk : k.completed = false) :
    Leaves s₀ s := by
  cases k with
  | finding m | revoking d => rw [show s = s₀ from h]; exact fun _ _ => hs₀
  | ensuring m loaded => rw [h.1]; exact fun _ _ => hs₀
  | provisioning m loaded =>
    obtain ⟨rfl, -, hrevoked⟩ := h
    exact fun _ _ => ⟨hs₀.unknown, hs₀.tells, hs₀.bare, fun _ _ _ => rfl⟩
  | deciding m loaded | deleting m loaded now => exact h.1.leaves fun _ => h.2.1
  | creating m loaded now => exact h.1.leaves h.2
  | committing m loaded now secret => exact h.1.leaves fun heq => absurd heq (Nat.ne_of_gt h.2.1)
  | cutting d loaded => rw [h.1]; exact fun _ _ => hs₀
  | removing loaded | finishing loaded => exact Cutting.leaves hs₀ h
  | ended => exact h
  | credential m secret => cases hk
  | revoked found => cases hk

/-! ## One step -/

theorem Minting.of_start {s₀ : Account} {row : Row} (hs₀ : Sound s₀) (hrow : s₀.row = some row)
    (hnone : row.revokedAt = none) : Minting s₀ s₀ row :=
  ⟨hrow, hnone, hs₀.account row hrow hnone, id, Nat.le_refl _⟩

/-- The row of a first or a revived identity. -/
theorem Minting.of_bare {s₀ s : Account} {row : Row} (hrow : s.row = some row) (hnone : row.revokedAt = none)
    (haccount : s.onForgejo = true) (hheld : s₀.heldExpired = false) (htouches : s.touches = s₀.touches) :
    Minting s₀ s row :=
  ⟨hrow, hnone, haccount, fun h => (by rw [hheld] at h; cases h), Nat.le_of_eq htouches.symm⟩

theorem Sound.of_bare {s : Account} {row : Row} (hrow : s.row = some row) (hsealed : row.sealed = none)
    (haccount : s.onForgejo = true) (hlive : s.live = none) : Sound s := by
  refine ⟨fun _ => hlive, fun row' hrow' => ?_, fun row' hrow' _ => ?_, fun _ _ _ => haccount⟩
  · rw [hrow] at hrow'
    cases hrow'
    unfold Row.Tells
    rw [hsealed]
    exact hlive
  · rw [hrow] at hrow'
    cases hrow'
    exact hsealed

/-- An identity that is new or revoked is provisioned under the lock. -/
theorem underLock_revoked (m : Mint) {row? : Option Row} (hrevoked : ∀ row, row? = some row → row.revokedAt ≠ none) :
    underLock m row? row? = .ensuring m row? := by
  unfold underLock
  cases row? with
  | none => rfl
  | some row => exact if_neg fun h => hrevoked row rfl (Option.isNone_iff_eq_none.1 h)

theorem During.provision {s₀ : Account} {m : Mint} {loaded : Option Row} (hs₀ : Sound s₀) (hloaded : loaded = s₀.row)
    (hrevoked : ∀ row, s₀.row = some row → row.revokedAt ≠ none) (fate : Fate) :
    During s₀ (step lifetime { s₀ with onForgejo := true } (.provisioning m loaded) fate).1
      (step lifetime { s₀ with onForgejo := true } (.provisioning m loaded) fate).2 := by
  have hlive := hs₀.live_none hrevoked
  have hstart : During s₀ { s₀ with onForgejo := true } (.provisioning m loaded) := ⟨rfl, hloaded, hrevoked⟩
  by_cases hfate : fate = .done
  · subst hfate
    rcases Option.eq_none_or_eq_some s₀.row with hrow | ⟨row, hrow⟩
    · obtain rfl : loaded = none := hloaded.trans hrow
      simp only [step, hrow, ne_eq, not_true, if_false]
      have hheld : s₀.heldExpired = false := by rw [Account.heldExpired, hrow]; rfl
      exact ⟨.of_bare rfl rfl rfl hheld rfl, .of_bare rfl rfl rfl hlive, rfl⟩
    · obtain rfl : loaded = some row := hloaded.trans hrow
      have hsealed := hs₀.bare row hrow (hrevoked row hrow)
      have hheld : s₀.heldExpired = false := by rw [Account.heldExpired, hrow, Option.any_some, hsealed]; rfl
      simp only [step, ne_eq, not_true, if_false]
      have hrow' := @commit_row { s₀ with onForgejo := true } row hrow { row with revokedAt := none }
      exact ⟨.of_bare hrow' rfl rfl hheld rfl, .of_bare hrow' hsealed rfl hlive, rfl⟩
  · simp only [step, ne_eq, hfate, not_false_eq_true, if_true]
    exact hstart.leaves hs₀ rfl

/-- One step of a call that began in a sound state. -/
theorem During.step {s₀ s : Account} {k : Call} (hs₀ : Sound s₀) (h : During s₀ s k) (fate : Fate) :
    During s₀ (GitIdentity.step lifetime s k fate).1 (GitIdentity.step lifetime s k fate).2 := by
  cases k with
  | finding m =>
    have hstop : Leaves s₀ s := h.leaves hs₀ rfl
    obtain rfl : s = s₀ := h
    simp only [GitIdentity.step]
    split
    · exact hstop
    · cases hrow : s.row with
      | none =>
        dsimp only
        split
        · exact ⟨rfl, hrow.symm, fun row hrow' => by rw [hrow] at hrow'; cases hrow'⟩
        · exact hstop
      | some row =>
        dsimp only
        cases hrevoked : row.revokedAt with
        | none => exact ⟨.of_start hs₀ hrow hrevoked, hs₀, rfl⟩
        | some t =>
          refine ⟨rfl, hrow.symm, fun row' hrow' => ?_⟩
          rw [hrow] at hrow'
          cases hrow'
          rw [hrevoked]
          exact Option.some_ne_none t
  | ensuring m loaded =>
    obtain ⟨rfl, rfl, hrevoked⟩ := h
    have hstop : ∀ a : Bool, (s.onForgejo = true → a = true) → Leaves s { s with onForgejo := a } := fun a ha _ _ =>
      ⟨hs₀.unknown, hs₀.tells, hs₀.bare, fun row hrow hnone => absurd hnone (hrevoked row hrow)⟩
    simp only [GitIdentity.step, underLock_revoked m hrevoked]
    split
    · rename_i hdone
      subst hdone
      exact ⟨by rw [Fate.effective, Bool.or_true], rfl, hrevoked⟩
    · exact hstop _ fun ha => by rw [ha, Bool.true_or]
  | provisioning m loaded =>
    obtain ⟨rfl, hloaded, hrevoked⟩ := h
    exact .provision hs₀ hloaded hrevoked fate
  | deciding m loaded =>
    have hstop : Leaves s₀ s := h.leaves hs₀ rfl
    obtain ⟨hmint, hsound, htouches⟩ := h
    simp only [GitIdentity.step]
    split
    · exact hstop
    · split
      · exact hsound
      · split
        · exact ⟨hmint, hsound, htouches⟩
        · exact ⟨hmint, fun _ => hsound⟩
  | deleting m loaded now =>
    have hstop : Leaves s₀ s := h.leaves hs₀ rfl
    obtain ⟨hmint, hsound, htouches⟩ := h
    have hdeleted : Minting s₀ s.deleteToken loaded :=
      ⟨hmint.row, hmint.unrevoked, hmint.account, hmint.expired, Nat.le_succ_of_le hmint.touches⟩
    -- a deletion that took place counts as a touch
    have htouched : s.deleteToken.touches = s₀.touches → Sound s.deleteToken := fun heq => by
      have : s.touches + 1 = s₀.touches := heq
      omega
    cases fate with
    | done | failsAfter => exact ⟨hdeleted, htouched⟩
    | failsBefore => exact ⟨hmint, fun _ => hsound⟩
    | crash => exact hstop
  | creating m loaded now =>
    have hstop : Leaves s₀ s := h.leaves hs₀ rfl
    obtain ⟨hmint, hsound⟩ := h
    have hcreated : Minting s₀ (s.createToken m) loaded :=
      ⟨hmint.row, hmint.unrevoked, hmint.account, hmint.expired, Nat.le_succ_of_le hmint.touches⟩
    have htouched : s₀.touches < (s.createToken m).touches := Nat.lt_succ_of_le hmint.touches
    simp only [GitIdentity.step]
    split
    · split
      · exact ⟨hcreated, htouched, rfl⟩
      · exact hcreated.leaves fun heq => absurd heq (Nat.ne_of_gt htouched)
    · exact hstop
  | committing m loaded now secret =>
    have hstop : Leaves s₀ s := h.leaves hs₀ rfl
    obtain ⟨hmint, -, hlive⟩ := h
    simp only [GitIdentity.step]
    split
    · exact hstop
    · have hrow := commit_row hmint.row ⟨some ⟨secret, m.readOnly⟩, some (now + lifetime), none⟩
      refine ⟨fun hnone => ?_, fun row hrow' => ?_, fun row hrow' hne => ?_, fun _ _ _ => hmint.account⟩
      · rw [hrow] at hnone
        cases hnone
      · rw [hrow] at hrow'
        cases hrow'
        exact .inr ⟨m.begun, hlive⟩
      · rw [hrow] at hrow'
        cases hrow'
        exact absurd rfl hne
  | credential m secret => exact h
  | revoking d =>
    have hstop : Leaves s₀ s := h.leaves hs₀ rfl
    obtain rfl : s = s₀ := h
    simp only [GitIdentity.step]
    split
    · exact hstop
    · cases hrow : s.row with
      | none => exact hs₀
      | some row =>
        dsimp only
        split
        · rename_i hsealed
          exact ⟨rfl, hrow, hsealed⟩
        · rename_i hsealed
          -- a row without a sealed token tells that none is live
          have hnone := Option.not_isSome_iff_eq_none.1 hsealed
          have hlive : s.live = none := by
            have htells := hs₀.tells row hrow
            unfold Row.Tells at htells
            rw [hnone] at htells
            exact htells
          unfold afterDelete
          split <;> exact ⟨hrow, hrow, hlive, rfl, fun _ => hnone⟩
  | cutting d loaded =>
    have hstop : Leaves s₀ s := h.leaves hs₀ rfl
    obtain ⟨rfl, hrow, -⟩ := h
    have hcut : Cutting s s.deleteToken loaded :=
      ⟨hrow, hrow, rfl, rfl, fun heq => absurd heq (Nat.ne_of_gt (Nat.lt_succ_self _))⟩
    cases fate with
    | done =>
      show During s s.deleteToken (afterDelete d loaded)
      unfold afterDelete
      split <;> exact hcut
    | failsAfter => exact hcut.leaves hs₀
    | failsBefore | crash => exact hstop
  | removing loaded =>
    have hcut : Cutting s₀ s loaded := h
    have hremoved : Cutting s₀ { s with onForgejo := false, live := none } loaded :=
      ⟨hcut.before, hcut.row, rfl, hcut.clock, hcut.untouched⟩
    cases fate with
    | done | failsAfter => exact hremoved
    | failsBefore => exact hcut
    | crash => exact hcut.leaves hs₀
  | finishing loaded =>
    have hcut : Cutting s₀ s loaded := h
    simp only [GitIdentity.step]
    split
    · exact hcut.leaves hs₀
    · have hrow := commit_row hcut.row ⟨none, none, some s.clock⟩
      refine ⟨fun _ => hcut.live, fun row hrow' => ?_, fun row hrow' _ => ?_, fun row hrow' hnone => ?_⟩
      · rw [show ({ s.commit loaded ⟨none, none, some s.clock⟩ with revocations := s.revocations + 1 } : Account).row =
          some ⟨none, none, some s.clock⟩ from hrow] at hrow'
        cases hrow'
        exact hcut.live
      · rw [show ({ s.commit loaded ⟨none, none, some s.clock⟩ with revocations := s.revocations + 1 } : Account).row =
          some ⟨none, none, some s.clock⟩ from hrow] at hrow'
        cases hrow'
        rfl
      · rw [show ({ s.commit loaded ⟨none, none, some s.clock⟩ with revocations := s.revocations + 1 } : Account).row =
          some ⟨none, none, some s.clock⟩ from hrow] at hrow'
        cases hrow'
        cases hnone
  | revoked found => exact h
  | ended => exact h

/-- A whole call, wherever it stops. -/
theorem During.solo {s₀ : Account} (hs₀ : Sound s₀) : ∀ (fates : List Fate) {s : Account} {k : Call}, During s₀ s k →
    During s₀ (GitIdentity.solo lifetime s k fates).1 (GitIdentity.solo lifetime s k fates).2
  | [], _, _, h => h
  | fate :: fates, _, _, h => During.solo hs₀ fates (h.step hs₀ fate)

/-- An event of a history leaves a sound state, if it restores. -/
theorem Sound.after {s : Account} (h : Sound s) {e : Event} (he : Restores lifetime s e) :
    Sound (s.after lifetime e) := by
  cases e with
  | wait d =>
    refine ⟨h.unknown, fun row hrow => ?_, h.bare, h.account⟩
    have htells := h.tells row hrow
    unfold Row.Tells at htells ⊢
    cases hsealed : row.sealed with
    | none => rw [hsealed] at htells; exact htells
    | some c =>
      rw [hsealed] at htells
      refine htells.imp_left fun hexpired => ?_
      unfold isExpired at hexpired ⊢
      cases ht : row.tokenExpiresAt with
      | none => rfl
      | some t =>
        rw [ht] at hexpired
        have hle : t ≤ s.clock := of_decide_eq_true hexpired
        exact decide_eq_true (le_trans hle (Int.le_add_of_nonneg_right (Int.natCast_nonneg d)))
  | call request fates =>
    have hstart : During s s (enter s request) := by cases request <;> rfl
    have hend := @During.solo lifetime s h fates _ _ hstart
    cases hk : (GitIdentity.solo lifetime s (enter s request) fates).2.completed with
    | true =>
      show Sound (GitIdentity.solo lifetime s (enter s request) fates).1
      generalize GitIdentity.solo lifetime s (enter s request) fates = r at hend hk ⊢
      obtain ⟨s', k⟩ := r
      cases k <;> first | exact hend | cases hk
    | false =>
      rcases he with hdone | ⟨htouches, haccount⟩
      · rw [hk] at hdone
        cases hdone
      · exact hend.leaves h hk htouches haccount

/-! ## Forgejo answers again -/

theorem solo_credential (s : Account) (m : Mint) (secret : Nat) :
    ∀ fates, solo lifetime s (.credential m secret) fates = (s, .credential m secret)
  | [] => rfl
  | _ :: fates => solo_credential s m secret fates

/-- A mint that has its row and the way free hands out the token it makes. -/
theorem solo_creating {s : Account} {m : Mint} {loaded : Row} {now : Time} (haccount : s.onForgejo = true)
    (hlive : s.live = none) (fates : List Fate) :
    ∃ s', solo lifetime s (.creating m loaded now) (.done :: .done :: fates) = (s', .credential m s.made) ∧
      s'.live = some ⟨s.made, m.readOnly, m.begun⟩ := by
  have htakes : Fate.done.effective = true ∧ s.onForgejo = true ∧ s.live = none := ⟨rfl, haccount, hlive⟩
  refine ⟨(s.createToken m).commit loaded ⟨some ⟨s.made, m.readOnly⟩, some (now + lifetime), none⟩, ?_, rfl⟩
  rw [solo]
  simp only [step, if_pos htakes, if_true]
  exact solo_credential _ _ _ fates

/-- From a sound state, with its row in hand and Forgejo answering, a `token_for` hands out a live token. -/
theorem solo_deciding {s : Account} {m : Mint} {row : Row} (hs : Sound s) (hrow : s.row = some row)
    (hnone : row.revokedAt = none) (fates : List Fate) :
    ∃ secret begun s', solo lifetime s (.deciding m row) (.done :: .done :: .done :: .done :: fates) =
        (s', .credential m secret) ∧ s'.live = some ⟨secret, m.readOnly, begun⟩ := by
  have haccount := hs.account row hrow hnone
  have htells := hs.tells row hrow
  unfold Row.Tells at htells
  cases hsealed : row.sealed with
  | none =>
    rw [hsealed] at htells
    have hreuse : reusableToken row s.clock m.readOnly = none := by
      unfold reusableToken
      rw [hnone, hsealed]
      rfl
    obtain ⟨s', hsolo, hlive⟩ := @solo_creating lifetime s m row s.clock haccount htells (.done :: fates)
    refine ⟨s.made, m.begun, s', ?_, hlive⟩
    rw [solo]
    simp only [step, hreuse, hsealed]
    exact hsolo
  | some c =>
    rw [hsealed] at htells
    by_cases hkeeps : isExpired row.tokenExpiresAt s.clock = false ∧ c.readOnly = m.readOnly
    · obtain ⟨hunexpired, hscope⟩ := hkeeps
      have hreuse : reusableToken row s.clock m.readOnly = some c.token := by
        unfold reusableToken
        simp [hnone, hsealed, hunexpired, hscope]
      rcases htells with hexpired | ⟨begun, hlive⟩
      · rw [hunexpired] at hexpired
        cases hexpired
      · refine ⟨c.token, begun, s, ?_, by rw [hlive, hscope]⟩
        rw [solo]
        simp only [step, hreuse]
        exact solo_credential _ _ _ _
    · have hreuse : reusableToken row s.clock m.readOnly = none := by
        unfold reusableToken
        simp only [hnone, hsealed, Option.isSome_none, Bool.false_eq_true, if_false]
        split
        · rfl
        · rename_i hunexpired
          exact if_pos fun hscope => hkeeps ⟨Bool.eq_false_iff.2 hunexpired, hscope⟩
      obtain ⟨s', hsolo, hlive⟩ := @solo_creating lifetime s.deleteToken m row s.clock haccount rfl fates
      refine ⟨s.made, m.begun, s', ?_, hlive⟩
      rw [solo]
      simp only [step, hreuse, hsealed]
      exact hsolo

/-- A new or revoked identity is provisioned in three steps. -/
theorem solo_provisioning {s : Account} {m : Mint} (hs : Sound s) (hnamed : m.named = true)
    (hrevoked : ∀ row, s.row = some row → row.revokedAt ≠ none) (fates : List Fate) :
    ∃ s' row, Sound s' ∧ s'.row = some row ∧ row.revokedAt = none ∧
      solo lifetime s (.finding m) (.done :: .done :: .done :: fates) = solo lifetime s' (.deciding m row) fates := by
  have hfind : step lifetime s (.finding m) .done = (s, .ensuring m s.row) := by
    cases hrow : s.row with
    | none => simp [step, hrow, hnamed]
    | some row => simp [step, hrow, hrevoked row hrow]
  have hensure : step lifetime s (.ensuring m s.row) .done = ({ s with onForgejo := true }, .provisioning m s.row) := by
    simp [step, underLock_revoked m hrevoked, Fate.effective]
  have hprovision := @During.provision lifetime s m s.row hs rfl hrevoked .done
  have hdecides : ∃ row, (step lifetime { s with onForgejo := true } (.provisioning m s.row) .done).2 = .deciding m row := by
    rcases Option.eq_none_or_eq_some s.row with hrow | ⟨row, hrow⟩
    · exact ⟨{}, by simp [step, hrow]⟩
    · exact ⟨{ row with revokedAt := none }, by simp [step, hrow]⟩
  obtain ⟨row, hrow⟩ := hdecides
  rw [hrow] at hprovision
  obtain ⟨hmint, hsound, -⟩ := hprovision
  refine ⟨_, row, hsound, hmint.row, hmint.unrevoked, ?_⟩
  rw [solo, hfind, solo, hensure, solo, hrow]

/-- With Forgejo answering, the next `token_for` succeeds from every sound state. -/
theorem Sound.recovers {s : Account} (hs : Sound s) : Recovers lifetime s := by
  intro readOnly
  have hgo : ∃ secret begun s',
      solo lifetime s (.finding ⟨readOnly, true, s.revocations⟩) undisturbed =
        (s', .credential ⟨readOnly, true, s.revocations⟩ secret) ∧ s'.live = some ⟨secret, readOnly, begun⟩ := by
    by_cases hactive : ∃ row, s.row = some row ∧ row.revokedAt = none
    · obtain ⟨row, hrow, hnone⟩ := hactive
      obtain ⟨secret, begun, s', hsolo, hlive⟩ :=
        @solo_deciding lifetime s ⟨readOnly, true, s.revocations⟩ row hs hrow hnone [.done, .done]
      refine ⟨secret, begun, s', ?_, hlive⟩
      rw [← hsolo]
      simp [undisturbed, List.replicate_succ, solo, step, hrow, hnone]
    · have hrevoked : ∀ row, s.row = some row → row.revokedAt ≠ none := fun row hrow hnone => hactive ⟨row, hrow, hnone⟩
      obtain ⟨sp, row, hsound, hrow, hnone, hprovision⟩ :=
        @solo_provisioning lifetime s ⟨readOnly, true, s.revocations⟩ hs rfl hrevoked (List.replicate 4 .done)
      obtain ⟨secret, begun, s', hsolo, hlive⟩ :=
        @solo_deciding lifetime sp ⟨readOnly, true, s.revocations⟩ row hsound hrow hnone []
      exact ⟨secret, begun, s', hprovision.trans hsolo, hlive⟩
  obtain ⟨secret, begun, s', hsolo, hlive⟩ := hgo
  exact ⟨secret, begun, by rw [enter, hsolo], by rw [enter, hsolo]; exact hlive⟩

/-- After every history whose events restore what they touch, the next `token_for`, on its own and with Forgejo
answering, hands out a live token of exactly the scope it was asked for. -/
theorem recovers_throughout (lifetime : Time) {es : List Event}
    (h : (histories lifetime).AllSteps (fun _ => Restores lifetime) es) :
    (histories lifetime).AllStates (fun _ => Recovers lifetime) es :=
  h.allStates fun _ hs => by
    have hsound := hs.invariant (P := fun _ => Sound) ⟨fun _ => rfl, fun _ h => (by cases h), fun _ h => (by cases h),
      fun _ h => (by cases h)⟩ fun _ _ _ hs he => hs.after he
    exact hsound.recovers

/-! ## The token nobody remembers -/

/-- A first mint fails before it reaches Forgejo, the next one succeeds, and the identity is revoked. -/
def failedThenRevoked : List Event :=
  [.call (.revoke false) [.done, .done, .done], .call (.tokenFor false true) (List.replicate 7 .done),
    .call (.tokenFor false true) [.done, .done, .done, .done, .failsBefore]]

theorem recovers_throughout_failedThenRevoked :
    (histories 30).AllSteps (fun _ => Restores 30) failedThenRevoked ∧
      (histories 30).AllStates (fun _ => Recovers 30) failedThenRevoked :=
  have h : (histories 30).AllSteps (fun _ => Restores 30) failedThenRevoked := by decide
  ⟨h, recovers_throughout 30 h⟩

/-- Forgejo makes the first token, and the call ends before the row remembers it. -/
def cutShortBeforeCommit : List Event := [.call (.tokenFor false true) [.done, .done, .done, .done, .done]]

/-- From then on every `token_for` is refused the name. -/
theorem cutShortBeforeCommit_locked_out :
    ¬ (histories 30).AllStates (fun _ => Recovers 30) cutShortBeforeCommit := by
  intro h
  obtain ⟨secret, begun, hends, -⟩ := h.now false
  have hover : (solo 30 ((histories 30).state cutShortBeforeCommit)
      (enter ((histories 30).state cutShortBeforeCommit) (.tokenFor false true)) undisturbed).2 = .ended := by decide
  rw [hover] at hends
  cases hends

end OpenFish.GitIdentity
