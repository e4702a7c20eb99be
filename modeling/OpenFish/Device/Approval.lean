/-
`approve_device` of `routes/device.py`: the request is described, a key is minted, and the store binds the key
to the request, in three steps of any number of calls. Every minted key is bound exactly as long as every call
finds its request still pending when it comes to bind its key.
-/
import OpenFish.Lib.Interleave
import OpenFish.Device.Store

namespace OpenFish.Device

open Lib

/-- The store, the keys that approvals have minted, and the clock. -/
structure Desk where
  requests : Requests := Dict.empty
  keys : List Key := []
  now : Time := 0

/-- What the signed-in account sends. -/
structure Form where
  userCode : String
  user : String
  displayName : Option String
  deriving DecidableEq, Repr

inductive Refusal
  /-- 400: no code. -/
  | badRequest
  /-- 409: the code has been used. -/
  | alreadyApproved
  /-- 410: unknown or expired. -/
  | unknown
  /-- `create_key` raised and rolled back. -/
  | notMinted
  deriving DecidableEq, Repr

/-- Where a call stands. -/
inductive Approving
  | describing (f : Form)
  | minting (f : Form)
  | binding (f : Form) (key : Key)
  | approved (f : Form) (key : Key)
  /-- Answered with an error before a key was minted. -/
  | refused (refusal : Refusal)
  /-- `store.approve` raised: the key it was given is not taken back. -/
  | raised (key : Key)
  deriving DecidableEq, Repr

/-- What else goes on: requests begin, clients poll, and the time passes. -/
inductive Elsewhere
  | create (deviceCode : DeviceCode) (rolls : List (Half × Half)) (baseUrl : String)
  | redeem (deviceCode : String)
  | countPending
  | wait (d : Nat)

/-- `(request.form.get("user_code") or "").strip().upper()`. -/
def Form.code (f : Form) : String := Text.upper (Text.strip f.userCode)

/-- One step of `approve_device`; `minted` is the key that `create_key` makes, none when it raises. -/
def approveDevice (s : Desk) (k : Approving) (minted : Option Key) : Desk × Approving :=
  match k with
  | .describing f =>
    if f.code = "" then (s, .refused .badRequest)
    else
      match describeUserCode f.code s.now s.requests with
      | (.described _, requests) => ({ s with requests }, .minting f)
      | (.alreadyApproved _, requests) => ({ s with requests }, .refused .alreadyApproved)
      | (_, requests) => ({ s with requests }, .refused .unknown)
  | .minting f =>
    match minted with
    | none => (s, .refused .notMinted)
    | some key =>
      -- the key's id is a primary key
      if key.id ∈ s.keys.map (·.id) then (s, .refused .notMinted)
      else ({ s with keys := s.keys ++ [key] }, .binding f key)
  | .binding f key =>
    match approve f.code ⟨key, f.user, f.displayName⟩ s.now s.now s.requests with
    | (.accepted .., requests) => ({ s with requests }, .approved f key)
    | (_, requests) => ({ s with requests }, .raised key)
  | .approved .. | .refused _ | .raised _ => (s, k)

section
variable (hash : String → String) (ttl : Time)

def Desk.elsewhere (s : Desk) : Elsewhere → Desk
  | .create deviceCode rolls baseUrl =>
    { s with requests := (create hash ttl deviceCode rolls baseUrl s.now s.now s.requests).2 }
  | .redeem deviceCode => { s with requests := (redeem hash deviceCode s.now s.requests).2 }
  | .countPending => { s with requests := (countPending s.now s.requests).2 }
  | .wait d => { s with now := s.now + d }

def approvals : Program Desk Approving Form (Option Key) Elsewhere where
  start := {}
  enter _ f := .describing f
  step := approveDevice
  other := Desk.elsewhere hash ttl

end

/-! ## What the claim is about -/

/-- The call is over. -/
def Approving.answered : Approving → Bool
  | .approved .. | .refused _ | .raised _ => true
  | .describing _ | .minting _ | .binding .. => false

/-- The key that the call has minted. -/
def Approving.minted : Approving → Option Key
  | .binding _ key | .approved _ key | .raised key => some key
  | .describing _ | .minting _ | .refused _ => none

/-- While no approval is in progress every minted key is bound to one approved request, and no call that was
answered with an error has minted one. -/
structure NoOrphan (s : Scene Desk Approving) : Prop where
  bound : (∀ (i : ℕ) (k : Approving), s.calls[i]? = some k → k.answered = true) → ∀ key ∈ s.shared.keys,
    ∃! i : ℕ, ∃ f, s.calls[i]? = some (Approving.approved f key)
  errors : ∀ (i : ℕ) (key : Key), s.calls[i]? ≠ some (Approving.raised key)

/-- A call that comes to bind its key finds its request on file and pending. -/
def FindsPending (s : Scene Desk Approving) : Move Form (Option Key) Elsewhere → Prop
  | .step i _ => ∀ f key, s.calls[i]? = some (Approving.binding f key) →
    ∃ e, carrying (normalizeUserCode f.code) (purge s.shared.now s.shared.requests) = some e ∧ e.2.status ≠ .approved
  | _ => True

/-! ## The invariant -/

/-- Every minted key was minted by one call. -/
def MintedOnce (s : Scene Desk Approving) : Prop :=
  ∀ key, (key ∈ s.shared.keys ↔ ∃ (i : ℕ) (k : Approving), s.calls[i]? = some k ∧ k.minted = some key) ∧
    ∀ (i j : ℕ) (k l : Approving), s.calls[i]? = some k → s.calls[j]? = some l → k.minted = some key →
      l.minted = some key → i = j

/-- What a step of a call does to the keys: a mint adds one, no other step adds or drops any. -/
theorem approveDevice_cases (s : Desk) (k : Approving) (minted : Option Key) :
    (∃ f key, k = .minting f ∧ key ∉ s.keys ∧ approveDevice s k minted = ({ s with keys := s.keys ++ [key] }, .binding f key)) ∨
      ((approveDevice s k minted).1.keys = s.keys ∧ (approveDevice s k minted).2.minted = k.minted) := by
  cases k with
  | describing f =>
    refine .inr ?_
    simp only [approveDevice]
    split
    · exact ⟨rfl, rfl⟩
    · split <;> exact ⟨rfl, rfl⟩
  | minting f =>
    simp only [approveDevice]
    cases minted with
    | none => exact .inr ⟨rfl, rfl⟩
    | some key =>
      dsimp only
      split
      · exact .inr ⟨rfl, rfl⟩
      · rename_i hid
        exact .inl ⟨f, key, rfl, fun hmem => hid (List.mem_map_of_mem hmem), rfl⟩
  | binding f key =>
    refine .inr ?_
    simp only [approveDevice]
    split <;> exact ⟨rfl, rfl⟩
  | approved f key => exact .inr ⟨rfl, rfl⟩
  | refused refusal => exact .inr ⟨rfl, rfl⟩
  | raised key => exact .inr ⟨rfl, rfl⟩

variable {hash : String → String} {ttl : Time}

theorem elsewhere_keys (s : Desk) (e : Elsewhere) : (s.elsewhere hash ttl e).keys = s.keys := by
  cases e <;> rfl

theorem mintedOnce_next {s : Scene Desk Approving} (hs : MintedOnce s) (m : Move Form (Option Key) Elsewhere) :
    MintedOnce ((approvals hash ttl).next s m) := by
  cases m with
  | begin f =>
    intro key
    obtain ⟨hmem, honce⟩ := hs key
    refine ⟨hmem.trans ⟨?_, ?_⟩, ?_⟩
    · rintro ⟨i, k, hi, hk⟩
      exact ⟨i, k, (List.getElem?_append_left (List.getElem?_eq_some_iff.1 hi).1).trans hi, hk⟩
    · rintro ⟨i, k, hi, hk⟩
      rcases getElem?_append_cases hi with ⟨-, rfl⟩ | hi
      · cases hk
      · exact ⟨i, k, hi, hk⟩
    · intro i j k l hi hj hk hl
      rcases getElem?_append_cases hi with ⟨-, rfl⟩ | hi
      · cases hk
      · rcases getElem?_append_cases hj with ⟨-, rfl⟩ | hj
        · cases hl
        · exact honce i j k l hi hj hk hl
  | step i w =>
    cases hi : s.calls[i]? with
    | none => rw [Program.next_none _ hi]; exact hs
    | some k =>
      rw [Program.next_step _ hi]
      show MintedOnce ⟨(approveDevice s.shared k w).1, s.calls.set i (approveDevice s.shared k w).2⟩
      have hlt := (List.getElem?_eq_some_iff.1 hi).1
      -- a step mints one fresh key, or it mints none and leaves the keys as they are
      rcases approveDevice_cases s.shared k w with ⟨f, new, rfl, hnew, hstep⟩ | ⟨hkeys, hminted⟩
      · rw [hstep]
        intro key
        obtain ⟨hmem, honce⟩ := hs key
        have hfresh : ∀ {j : ℕ} {l : Approving}, s.calls[j]? = some l → l.minted ≠ some new := fun hj hl =>
          hnew ((hs new).1.2 ⟨_, _, hj, hl⟩)
        refine ⟨⟨fun h => ?_, ?_⟩, ?_⟩
        · rcases List.mem_append.1 h with h | h
          · obtain ⟨j, l, hj, hl⟩ := hmem.1 h
            have hji : i ≠ j := by
              rintro rfl
              rw [hi] at hj
              cases hj
              cases hl
            exact ⟨j, l, (List.getElem?_set_ne hji).trans hj, hl⟩
          · rw [List.mem_singleton] at h
            exact ⟨i, .binding f new, List.getElem?_set_self hlt, by rw [h]; rfl⟩
        · rintro ⟨j, l, hj, hl⟩
          rcases getElem?_set_cases hj with ⟨-, rfl⟩ | ⟨-, hj'⟩
          · cases hl
            exact List.mem_append_right _ (List.mem_singleton_self _)
          · exact List.mem_append_left _ (hmem.2 ⟨j, l, hj', hl⟩)
        · intro j l k' l' hj hl hk' hl'
          rcases getElem?_set_cases hj with ⟨rfl, rfl⟩ | ⟨-, hj'⟩ <;>
            rcases getElem?_set_cases hl with ⟨rfl, rfl⟩ | ⟨-, hl''⟩
          · rfl
          · cases hk'
            exact absurd hl' (hfresh hl'')
          · cases hl'
            exact absurd hk' (hfresh hj')
          · exact honce j l k' l' hj' hl'' hk' hl'
      · intro key
        obtain ⟨hmem, honce⟩ := hs key
        -- whatever has minted a key now had minted it before
        have hback : ∀ {j : ℕ} {l : Approving}, (s.calls.set i (approveDevice s.shared k w).2)[j]? = some l →
            ∃ l', s.calls[j]? = some l' ∧ l'.minted = l.minted := by
          intro j l hj
          rcases getElem?_set_cases hj with ⟨rfl, rfl⟩ | ⟨-, hj'⟩
          · exact ⟨k, hi, hminted.symm⟩
          · exact ⟨l, hj', rfl⟩
        refine ⟨?_, ?_⟩
        · show key ∈ (approveDevice s.shared k w).1.keys ↔ _
          rw [hkeys, hmem]
          constructor
          · rintro ⟨j, l, hj, hl⟩
            by_cases hji : i = j
            · subst hji
              rw [hi] at hj
              cases hj
              exact ⟨i, _, List.getElem?_set_self hlt, hminted.trans hl⟩
            · exact ⟨j, l, (List.getElem?_set_ne hji).trans hj, hl⟩
          · rintro ⟨j, l, hj, hl⟩
            obtain ⟨l', hj', hl'⟩ := hback hj
            exact ⟨j, l', hj', hl'.trans hl⟩
        · intro j l k' l' hj hl hk' hl'
          obtain ⟨a, ha, ha'⟩ := hback hj
          obtain ⟨b, hb, hb'⟩ := hback hl
          exact honce j l a b ha hb (ha'.trans hk') (hb'.trans hl')
  | other e =>
    intro key
    show (key ∈ (s.shared.elsewhere hash ttl e).keys ↔ _) ∧ _
    rw [elsewhere_keys]
    exact hs key

/-- As long as no call raised after its mint, a quiet desk has every key bound. -/
theorem MintedOnce.bound {s : Scene Desk Approving} (hs : MintedOnce s)
    (herrors : ∀ (i : ℕ) (key : Key), s.calls[i]? ≠ some (Approving.raised key)) : NoOrphan s := by
  refine ⟨fun hquiet key hkey => ?_, herrors⟩
  obtain ⟨hmem, honce⟩ := hs key
  obtain ⟨i, k, hi, hk⟩ := hmem.1 hkey
  have happroved : ∃ f, k = .approved f key := by
    cases k with
    | approved f key' => cases hk; exact ⟨f, rfl⟩
    | raised key' => exact absurd hi (herrors i key')
    | binding f key' => exact absurd (hquiet i _ hi) Bool.false_ne_true
    | describing f => cases hk
    | minting f => cases hk
    | refused refusal => cases hk
  obtain ⟨f, rfl⟩ := happroved
  exact ⟨i, ⟨f, hi⟩, fun j ⟨g, hj⟩ => honce j i _ _ hj hi rfl rfl⟩

/-- `store.approve` accepts exactly what is on file and pending. -/
theorem approve_accepted_iff (code : String) (approval : Approval) (now : Time) (requests : Requests) :
    (∃ wanted keyId requests', approve code approval now now requests = (.accepted wanted keyId, requests')) ↔
      ∃ e, carrying (normalizeUserCode code) (purge now requests) = some e ∧ e.2.status ≠ .approved := by
  unfold approve
  dsimp only
  cases hfound : carrying (normalizeUserCode code) (purge now requests) with
  | none => simp
  | some e =>
    obtain ⟨digest, item⟩ := e
    by_cases happroved : item.status = .approved <;> simp [happroved]

/-- A call raises after its mint exactly when it does not find its request pending. -/
theorem binding_raises_iff (s : Desk) (f : Form) (key : Key) (minted : Option Key) :
    (∃ key', (approveDevice s (.binding f key) minted).2 = .raised key') ↔
      ¬ ∃ e, carrying (normalizeUserCode f.code) (purge s.now s.requests) = some e ∧ e.2.status ≠ .approved := by
  rw [← approve_accepted_iff f.code ⟨key, f.user, f.displayName⟩]
  simp only [approveDevice]
  split
  · rename_i wanted keyId requests' h
    simp [h]
  · rename_i answer requests' hnot h
    rw [h]
    refine iff_of_true ⟨key, rfl⟩ ?_
    rintro ⟨wanted, keyId, requests'', heq⟩
    cases heq
    exact hnot wanted keyId rfl

/-- Only a call that binds its key raises after its mint. -/
theorem approveDevice_raised {s : Desk} {k : Approving} {minted : Option Key} {key : Key}
    (h : (approveDevice s k minted).2 = .raised key) : k = .raised key ∨ ∃ f key', k = .binding f key' := by
  cases k with
  | binding f key' => exact .inr ⟨f, key', rfl⟩
  | raised key' => cases h; exact .inl rfl
  | approved f key' => cases h
  | refused refusal => cases h
  | describing f =>
    simp only [approveDevice] at h
    split at h
    · cases h
    · split at h <;> cases h
  | minting f =>
    simp only [approveDevice] at h
    split at h
    · cases h
    · split at h <;> cases h

/-- No key is orphaned in a run exactly as long as every call that comes to bind its key finds its request on
file and pending. -/
theorem noOrphan_iff_findsPending (hash : String → String) (ttl : Time) (ms : List (Move Form (Option Key) Elsewhere)) :
    (approvals hash ttl).machine.AllStates (fun _ => NoOrphan) ms ↔
      (approvals hash ttl).machine.AllSteps (fun _ => FindsPending) ms := by
  have honce : ∀ ms, MintedOnce ((approvals hash ttl).machine.state ms) :=
    Machine.invariant (P := fun _ => MintedOnce) (fun key => by simp [approvals])
      fun _ s m hs => mintedOnce_next hs m
  refine Machine.allStates_iff_allSteps ⟨fun _ key hkey => (by cases hkey), fun i key hi => by simp at hi⟩
    (fun ms m hs => ?_) ms
  have hmint : MintedOnce ((approvals hash ttl).next ((approvals hash ttl).machine.state ms) m) := honce (m :: ms)
  show NoOrphan ((approvals hash ttl).next ((approvals hash ttl).machine.state ms) m) ↔ _
  generalize (approvals hash ttl).machine.state ms = s at hs hmint ⊢
  cases m with
  | begin f =>
    refine iff_of_true (hmint.bound fun i key hi => ?_) trivial
    rcases getElem?_append_cases hi with ⟨-, h⟩ | hi
    · cases h
    · exact hs.errors i key hi
  | other e => exact iff_of_true (hmint.bound hs.errors) trivial
  | step i w =>
    constructor
    · intro h f key hi
      by_contra hnot
      obtain ⟨key', hraised⟩ := (binding_raises_iff s.shared f key w).2 hnot
      refine h.errors i key' ?_
      rw [Program.next_step _ hi]
      have hlt := (List.getElem?_eq_some_iff.1 hi).1
      exact (List.getElem?_set_self hlt).trans (congrArg some hraised)
    · intro h
      refine hmint.bound fun j key hj => ?_
      cases hi : s.calls[i]? with
      | none => rw [Program.next_none _ hi] at hj; exact hs.errors j key hj
      | some k =>
        rw [Program.next_step _ hi] at hj
        rcases getElem?_set_cases hj with ⟨-, hraised⟩ | ⟨-, hj'⟩
        · rcases approveDevice_raised hraised.symm with rfl | ⟨f, key', rfl⟩
          · exact hs.errors i key hi
          · exact (binding_raises_iff s.shared f key' w).1 ⟨key, hraised.symm⟩ (h f key' hi)
        · exact hs.errors j key hj'

/-! ## Two approvals of one request -/

/-- A client asks for a key, and its user presses the button twice. -/
def twoClicks : List (Move Form (Option Key) Elsewhere) :=
  let half : Half := fun _ => ⟨1, by decide⟩
  let key (id : String) : Key := ⟨some id, some id, none, none, none⟩
  let form : Form := ⟨"CCCC-CCCC", "alice", none⟩
  [.step 1 none, .step 0 none, .step 1 (some (key "k_2")), .step 0 (some (key "k_1")), .step 1 none, .step 0 none,
    .begin form, .begin form, .other (.create ⟨"kiosk", by decide⟩ [(half, half)] "https://x.io")]

/-- Both calls find the request pending and mint a key, and the store binds the first one only. -/
theorem twoClicks_orphan :
    ¬ (approvals id 900).machine.AllStates (fun _ => NoOrphan) twoClicks := by
  intro h
  have hraised : ((approvals id 900).machine.state twoClicks).calls[1]? =
      some (.raised ⟨some "k_2", some "k_2", none, none, none⟩) := by decide +kernel
  exact h.now.errors 1 _ hraised

end OpenFish.Device
