/-
A device key is delivered at most once and only to its device, in every history whose clock does not
run back and whose device codes neither repeat nor collide.
-/
import OpenFish.Device.Store
import Mathlib.Tactic.Linarith

namespace OpenFish.Device

open Lib

variable {hash : String → String} {ttl : Time}

/-! ## What a history says about a device -/

def Approval.payload (a : Approval) : Payload where
  apiKey := a.key.key
  keyId := a.key.id
  keyName := a.key.name
  keyPrefix := a.key.keyPrefix
  keyExpiresAt := a.key.expiresAt
  user := some a.user
  displayName := a.displayName

/-- What an answered call says about requests. -/
inductive Mark
  | issued (device userCode : String) (expiresAt : Time)
  | approved (userCode : String) (payload : Payload) (at_ : Time)
  | delivered (device : String)

def mark (ttl : Time) (e : Event) : Option Mark :=
  match e.1.op, e.2 with
  | .create device .., .created p => some (.issued device.text p.userCode (e.1.now + ttl))
  | .approve code approval, .accepted .. =>
    some (.approved (normalizeUserCode code) approval.payload e.1.now)
  | .redeem device, .poll (.approved _) => some (.delivered device)
  | _, _ => none

/-- What became of a request; an approval is known by the number of calls made before it. -/
inductive Fate
  | pending
  | approved (approval : Nat) (payload : Payload)
  | delivered (approval : Nat)
  deriving DecidableEq

structure Request where
  userCode : String
  expiresAt : Time
  fate : Fate := .pending
  deriving DecidableEq

/-- An approval reaches the pending request that carries the code it names and has not expired. -/
def Request.Waits (r : Request) (userCode : String) (now : Time) : Prop :=
  r.userCode = userCode ∧ r.fate = .pending ∧ now ≤ r.expiresAt

instance (r : Request) (userCode : String) (now : Time) : Decidable (r.Waits userCode now) := by
  unfold Request.Waits; infer_instance

def Fate.deliver : Fate → Fate
  | .approved n _ => .delivered n
  | f => f

/-- The approval whose key is still to be delivered. -/
def Fate.undelivered : Fate → Option Nat
  | .approved n _ => some n
  | _ => none

/-- What a call, made after `n` others, does to the request of a device. -/
def requestAfter (n : Nat) (device : String) (m : Option Mark) (r : Option Request) : Option Request :=
  match m with
  | none => r
  | some (.issued device' code expiresAt) => if device' = device then some ⟨code, expiresAt, .pending⟩ else r
  | some (.approved code payload now) =>
    r.map fun r => if r.Waits code now then { r with fate := .approved n payload } else r
  | some (.delivered device') =>
    if device' = device then r.map fun r => { r with fate := r.fate.deliver } else r

/-- The request issued to a device. -/
def request (ttl : Time) : List Event → String → Option Request
  | [], _ => none
  | e :: h, device => requestAfter h.length device (mark ttl e) (request ttl h device)

/-- The approval whose key a call delivers, with the device it goes to. -/
def delivery (ttl : Time) (h : List Event) (e : Event) : Option (String × Nat) :=
  match mark ttl e with
  | some (.delivered device) =>
    (request ttl h device).bind fun r => r.fate.undelivered.map fun n => (device, n)
  | _ => none

def deliveries (ttl : Time) : List Event → List (String × Nat)
  | [] => []
  | e :: h => (delivery ttl h e).toList ++ deliveries ttl h

/-- The device a call paid a key out to. -/
def paidTo (e : Event) : Option String :=
  match e.1.op, e.2 with
  | .redeem device, .poll (.approved _) => some device
  | _, _ => none

/-- The device codes of the `create` calls. -/
def Op.issues : Op → Option String
  | .create device .. => some device.text
  | _ => none

/-- The device code a call presents or issues. -/
def Op.device : Op → Option String
  | .create device .. => some device.text
  | .redeem device => some device
  | _ => none

def issued (h : List Event) : List String := h.filterMap fun e => e.1.op.issues

/-! ## What the claim is about -/

/-- The clock does not run back, no device code is issued twice, and none presented or issued has the
digest of another one issued before. -/
structure Orderly (hash : String → String) (h : List Event) (c : Call) : Prop where
  clock : ∀ e ∈ h, e.1.now + e.1.lag ≤ c.now
  fresh : ∀ device, c.op.issues = some device → device ∉ issued h
  digests : ∀ device, c.op.device = some device → ∀ device' ∈ issued h, hash device = hash device' → device = device'

/-- What a call answers, given what its history says. -/
structure Delivers (hash : String → String) (ttl : Time) (h : List Event) (requests : Requests) (c : Call) :
    Prop where
  /-- A key goes only to the device of a request that an accepted approval reached, not after it expired. -/
  rightful : ∀ device payload, c.op = .redeem device → (step hash ttl requests c).1 = .poll (.approved payload) →
    ∃ r n, request ttl h device = some r ∧ r.fate = .approved n payload ∧ c.now ≤ r.expiresAt
  /-- An approved request pays out until it expires. -/
  redeemable : ∀ device r n payload, c.op = .redeem device → request ttl h device = some r →
    r.fate = .approved n payload → c.now ≤ r.expiresAt →
    (step hash ttl requests c).1 = .poll (.approved payload)
  /-- After that, or once it expired, it is unknown or expired. -/
  gone : ∀ device r, c.op = .redeem device → request ttl h device = some r →
    ((∃ n, r.fate = .delivered n) ∨ r.expiresAt < c.now) →
    (step hash ttl requests c).1 = .poll .unknown ∨ (step hash ttl requests c).1 = .poll .expired
  /-- An approval is accepted exactly if a request waits for it. -/
  accepted : ∀ code approval, c.op = .approve code approval →
    ((step hash ttl requests c).1 = .accepted (normalizeUserCode code) approval.key.id ↔
      ∃ device r, request ttl h device = some r ∧ r.Waits (normalizeUserCode code) c.now)
  /-- No two requests wait for the same approval. -/
  named : ∀ code device device' r r', request ttl h device = some r → request ttl h device' = some r' →
    r.Waits code c.now → r'.Waits code c.now → device = device'

/-- The keys paid out are deliveries of approvals, to distinct devices and of distinct approvals. -/
structure PaidOnce (ttl : Time) (h : List Event) : Prop where
  paid : (deliveries ttl h).map Prod.fst = h.filterMap paidTo
  devices : ((deliveries ttl h).map Prod.fst).Nodup
  approvals : ((deliveries ttl h).map Prod.snd).Nodup

/-- No two requests on file share a user code. -/
def CodesDistinct (requests : Requests) : Prop :=
  ∀ k i k' i', requests.get? k = some i → requests.get? k' = some i' → i.userCode = i'.userCode → k = k'

/-! ## One call -/

theorem get?_purge {cutoff : Time} {requests : Requests} {k : String} {i : Item} :
    (purge cutoff requests).get? k = some i ↔ requests.get? k = some i ∧ cutoff ≤ i.expiresAt := by
  rw [purge, Dict.get?_keep, Option.filter_eq_some_iff]
  simp only [not_lt, decide_eq_true_eq]

theorem carrying_some {wanted : String} {requests : Requests} {k : String} {i : Item}
    (h : carrying wanted requests = some (k, i)) : requests.get? k = some i ∧ i.userCode = wanted :=
  ⟨Dict.get?_eq_some.2 (List.mem_of_find?_eq_some h), by simpa using List.find?_some h⟩

theorem carrying_none {wanted : String} {requests : Requests} (h : carrying wanted requests = none) :
    ∀ k i, requests.get? k = some i → i.userCode ≠ wanted := by
  intro k i hi
  simpa using List.find?_eq_none.1 h (k, i) (Dict.get?_eq_some.1 hi)

/-- The same request, however often it was polled. -/
def Item.Same (i i' : Item) : Prop :=
  i'.userCode = i.userCode ∧ i'.expiresAt = i.expiresAt ∧ i'.status = i.status ∧ i'.payload = i.payload

/-- The same requests on file, but for some that expired before `cutoff`. -/
structure Kept (cutoff : Time) (requests requests' : Requests) : Prop where
  same : ∀ k i', requests'.get? k = some i' → ∃ i, requests.get? k = some i ∧ i.Same i'
  dropped : ∀ k i, requests.get? k = some i → requests'.get? k = none → i.expiresAt < cutoff

theorem Kept.refl (cutoff : Time) (requests : Requests) : Kept cutoff requests requests :=
  ⟨fun _ i h => ⟨i, h, rfl, rfl, rfl, rfl⟩, fun _ _ h h' => by rw [h] at h'; cases h'⟩

theorem kept_purge {cutoff now : Time} (h : cutoff ≤ now) (requests : Requests) :
    Kept now requests (purge cutoff requests) := by
  refine ⟨fun k i hi => ⟨i, (get?_purge.1 hi).1, rfl, rfl, rfl, rfl⟩, fun k i hi hn => ?_⟩
  by_contra hlt
  rw [get?_purge.2 ⟨hi, by linarith⟩] at hn
  cases hn

theorem kept_erase {now : Time} {requests : Requests} {k : String} {i : Item} (hi : requests.get? k = some i)
    (hlt : i.expiresAt < now) : Kept now requests (requests.erase k) := by
  refine ⟨fun k' i' h' => ?_, fun k' i' h' hn => ?_⟩
  · rw [Dict.get?_erase] at h'
    split at h'
    · cases h'
    · exact ⟨i', h', rfl, rfl, rfl, rfl⟩
  · rw [Dict.get?_erase] at hn
    split at hn
    · rename_i hk
      rw [hk, hi] at h'; cases h'; exact hlt
    · rw [h'] at hn; cases hn

theorem kept_polled {now : Time} {requests : Requests} {k : String} {i i' : Item} (hi : requests.get? k = some i)
    (hs : i.Same i') : Kept now requests (requests.set k i') := by
  refine ⟨fun k' j h' => ?_, fun k' j h' hn => ?_⟩
  · rw [Dict.get?_set] at h'
    split at h'
    · rename_i hk
      cases h'; exact ⟨i, hk ▸ hi, hs⟩
    · exact ⟨j, h', rfl, rfl, rfl, rfl⟩
  · rw [Dict.get?_set] at hn
    split at hn
    · cases hn
    · rw [h'] at hn; cases hn

/-- What a call does to the requests on file, and what it says about them. -/
inductive Does (hash : String → String) (ttl : Time) (requests : Requests) (c : Call) :
    Option Mark → Requests → Prop
  | keeps {requests' : Requests} (hk : Kept (c.now + c.lag) requests requests') : Does hash ttl requests c none requests'
  | issues {live : Requests} {device code : String} (hd : c.op.issues = some device)
      (hk : Kept (c.now + c.lag) requests live) (hfree : ∀ k i, live.get? k = some i → i.userCode ≠ code) :
      Does hash ttl requests c (some (.issued device code (c.now + ttl)))
        (live.set (hash device) { userCode := code, createdAt := c.now, expiresAt := c.now + ttl })
  | approves {live : Requests} {k : String} {item : Item} {code : String} {approval : Approval}
      (hk : Kept c.now requests live) (hi : live.get? k = some item) (hlive : c.now ≤ item.expiresAt)
      (hc : item.userCode = code) (hp : item.status = .pending) :
      Does hash ttl requests c (some (.approved code approval.payload c.now))
        (live.set k (item.approve approval (c.now + c.lag)))
  | delivers {device : String} {item : Item} (hd : c.op = .redeem device)
      (hi : requests.get? (hash device) = some item) (hs : item.status = .approved) :
      Does hash ttl requests c (some (.delivered device)) (requests.erase (hash device))

theorem now_le_later (c : Call) : c.now ≤ c.now + c.lag := by
  have := Int.natCast_nonneg c.lag
  linarith

theorem Status.pending_of_ne {s : Status} (h : s ≠ .approved) : s = .pending := by
  cases s with
  | pending => rfl
  | approved => exact absurd rfl h

theorem step_does (hash : String → String) (ttl : Time) (requests : Requests) (c : Call) :
    Does hash ttl requests c (mark ttl (c, (step hash ttl requests c).1)) (step hash ttl requests c).2 := by
  obtain ⟨op, now, lag⟩ := c
  have hlag : now ≤ now + lag := now_le_later ⟨op, now, lag⟩
  cases op with
  | create device rolls baseUrl =>
    simp only [step, create]
    split
    · exact .keeps (Kept.refl _ _)
    · rename_i code hfind
      have hfree := List.find?_some hfind
      simp only [Option.isNone_iff_eq_none] at hfree
      exact .issues rfl (kept_purge le_rfl _) (carrying_none hfree)
  | describeUserCode code =>
    simp only [step, describeUserCode]
    split
    · exact .keeps (kept_purge hlag _)
    · split
      · exact .keeps (kept_purge hlag _)
      · exact .keeps (kept_purge hlag _)
  | approve code approval =>
    simp only [step, approve]
    split
    · exact .keeps (Kept.refl _ _)
    · rename_i k item hc
      obtain ⟨hi, hcode⟩ := carrying_some hc
      split
      · exact .keeps (Kept.refl _ _)
      · rename_i hs
        exact .approves (kept_purge le_rfl _) hi (get?_purge.1 hi).2 hcode (Status.pending_of_ne hs)
  | redeem device =>
    simp only [step, redeem]
    split
    · exact .keeps (Kept.refl _ _)
    · split
      · exact .keeps (Kept.refl _ _)
      · rename_i item hi
        split
        · rename_i hlt
          exact .keeps (kept_erase hi (lt_of_lt_of_le hlt hlag))
        · split
          · exact .keeps (kept_polled hi ⟨rfl, rfl, rfl, rfl⟩)
          · rename_i hs
            exact .delivers rfl hi (not_not.1 hs)
  | countPending => exact .keeps (kept_purge hlag _)

/-! ## The document and the history -/

/-- A request on file in the state its history gives it. -/
def Fate.Shows (item : Item) : Fate → Prop
  | .pending => item.status = .pending
  | .approved _ payload => item.status = .approved ∧ item.payload = payload
  | .delivered _ => False

/-- A request of the history is on file as it is, or was delivered, or expired in the past. -/
def Request.Agrees (past : Time → Prop) (r : Request) : Option Item → Prop
  | some item => r.userCode = item.userCode ∧ r.expiresAt = item.expiresAt ∧ r.fate.Shows item
  | none => (∃ n, r.fate = .delivered n) ∨ past r.expiresAt

/-- The requests on file are those of a ledger, under the digests of their devices, save those
delivered or expired in the past. -/
structure Filed (hash : String → String) (past : Time → Prop) (ledger : String → Option Request)
    (requests : Requests) : Prop where
  distinct : CodesDistinct requests
  apart : ∀ d d' r r', ledger d = some r → ledger d' = some r' → hash d = hash d' → d = d'
  owner : ∀ k i, requests.get? k = some i → ∃ d r, ledger d = some r ∧ hash d = k
  agrees : ∀ d r, ledger d = some r → r.Agrees past (requests.get? (hash d))

variable {past past' : Time → Prop} {ledger : String → Option Request} {requests live : Requests}

theorem Fate.Shows.same {f : Fate} {i i' : Item} (h : f.Shows i) (hs : i.Same i') : f.Shows i' := by
  obtain ⟨-, -, hst, hp⟩ := hs
  cases f with
  | pending => exact hst.trans h
  | approved => exact ⟨hst.trans h.1, hp.trans h.2⟩
  | delivered => exact h

/-- Dropping what expired and counting polls keeps a file. -/
theorem Filed.kept {cutoff : Time} (hf : Filed hash past ledger requests) (hk : Kept cutoff requests live)
    (hp : ∀ x, past x → past' x) (hc : ∀ x, x < cutoff → past' x) : Filed hash past' ledger live where
  distinct := by
    intro k i k' i' hi hi' hcode
    obtain ⟨j, hj, hs⟩ := hk.same k i hi
    obtain ⟨j', hj', hs'⟩ := hk.same k' i' hi'
    exact hf.distinct k j k' j' hj hj' (by rw [← hs.1, ← hs'.1, hcode])
  apart := hf.apart
  owner := by
    intro k i hi
    obtain ⟨j, hj, -⟩ := hk.same k i hi
    exact hf.owner k j hj
  agrees := by
    intro d r hr
    have ha := hf.agrees d r hr
    cases hl : live.get? (hash d) with
    | some i' =>
      obtain ⟨i, hi, hs⟩ := hk.same _ i' hl
      rw [hi] at ha
      exact ⟨ha.1.trans hs.1.symm, ha.2.1.trans hs.2.1.symm, ha.2.2.same hs⟩
    | none =>
      cases hi : requests.get? (hash d) with
      | none => rw [hi] at ha; exact ha.imp_right (hp _)
      | some i =>
        rw [hi] at ha
        right; rw [ha.2.1]; exact hc _ (hk.dropped _ i hi hl)

/-- A new request goes on file under the digest of a new device. -/
theorem Filed.issue {device code : String} {now expiresAt : Time} (hf : Filed hash past ledger live)
    (hnew : ledger device = none) (hdig : ∀ d r, ledger d = some r → hash device = hash d → device = d)
    (hfree : ∀ k i, live.get? k = some i → i.userCode ≠ code) :
    Filed hash past (fun d => if device = d then some ⟨code, expiresAt, .pending⟩ else ledger d)
      (live.set (hash device) { userCode := code, createdAt := now, expiresAt := expiresAt }) := by
  have hother : ∀ d r, ledger d = some r → device ≠ d ∧ hash d ≠ hash device := by
    intro d r hr
    have hne : device ≠ d := by rintro rfl; rw [hnew] at hr; cases hr
    exact ⟨hne, fun h => hne (hdig d r hr h.symm)⟩
  refine ⟨?_, ?_, ?_, ?_⟩
  · intro k i k' i' hi hi' hcode
    rw [Dict.get?_set] at hi hi'
    split at hi <;> split at hi'
    · rename_i hk hk'; rw [hk, hk']
    · cases hi; exact absurd hcode.symm (hfree k' i' hi')
    · cases hi'; exact absurd hcode (hfree k i hi)
    · exact hf.distinct k i k' i' hi hi' hcode
  · intro d d' r r' hr hr' hh
    split at hr <;> split at hr'
    · rename_i hd hd'; rw [← hd, hd']
    · rename_i hd _; subst hd; exact hdig d' r' hr' hh
    · rename_i _ hd'; subst hd'; exact (hdig d r hr hh.symm).symm
    · exact hf.apart d d' r r' hr hr' hh
  · intro k i hi
    rw [Dict.get?_set] at hi
    split at hi
    · rename_i hk
      exact ⟨device, _, if_pos rfl, hk.symm⟩
    · obtain ⟨d, r, hr, hd⟩ := hf.owner k i hi
      exact ⟨d, r, by rw [if_neg (hother d r hr).1]; exact hr, hd⟩
  · intro d r hr
    rw [Dict.get?_set]
    split at hr
    · rename_i hd
      cases hr; rw [if_pos (by rw [hd])]; exact ⟨rfl, rfl, rfl⟩
    · rw [if_neg (hother d r hr).2]; exact hf.agrees d r hr

/-- While no request of the past is unexpired, a request waits for a code exactly if it is on file
as pending under it. -/
theorem Filed.waits_iff {d code : String} {r : Request} {now : Time} (hf : Filed hash past ledger live)
    (hpast : ∀ x, past x → x < now) (hr : ledger d = some r) :
    r.Waits code now ↔
      ∃ item, live.get? (hash d) = some item ∧ item.userCode = code ∧ item.status = .pending ∧
        now ≤ item.expiresAt := by
  have ha := hf.agrees d r hr
  constructor
  · rintro ⟨hcode, hfate, hlive⟩
    cases hi : live.get? (hash d) with
    | none =>
      rw [hi] at ha
      rcases ha with ⟨n, hn⟩ | hx
      · rw [hfate] at hn; cases hn
      · have := hpast _ hx; linarith
    | some item =>
      rw [hi] at ha
      obtain ⟨hc, hx, hshow⟩ := ha
      rw [hfate] at hshow
      exact ⟨item, rfl, hc ▸ hcode, hshow, hx ▸ hlive⟩
  · rintro ⟨item, hi, hcode, hpend, hlive⟩
    rw [hi] at ha
    obtain ⟨hc, hx, hshow⟩ := ha
    refine ⟨hc.trans hcode, ?_, hx ▸ hlive⟩
    cases hfate : r.fate with
    | pending => rfl
    | approved n p => rw [hfate] at hshow; rw [hshow.1] at hpend; cases hpend
    | delivered n => rw [hfate] at hshow; exact hshow.elim

/-- At most one request waits for a code. -/
theorem Filed.waits_unique {d d' code : String} {r r' : Request} {now : Time} (hf : Filed hash past ledger live)
    (hpast : ∀ x, past x → x < now) (hr : ledger d = some r) (hr' : ledger d' = some r') (hw : r.Waits code now)
    (hw' : r'.Waits code now) : d = d' := by
  obtain ⟨i, hi, hc, -, -⟩ := (hf.waits_iff hpast hr).1 hw
  obtain ⟨i', hi', hc', -, -⟩ := (hf.waits_iff hpast hr').1 hw'
  exact hf.apart d d' r r' hr hr' (hf.distinct _ i _ i' hi hi' (hc.trans hc'.symm))

/-- An approval reaches the one request that waits for it. -/
theorem Filed.approve {k : String} {item : Item} {now : Time} (hf : Filed hash past ledger live) (approval : Approval)
    (n : Nat) (at_ : Time) (hpast : ∀ x, past x → x < now) (hi : live.get? k = some item)
    (hlive : now ≤ item.expiresAt) (hp : item.status = .pending) :
    Filed hash past
      (fun d => (ledger d).map fun r =>
        if r.Waits item.userCode now then { r with fate := .approved n approval.payload } else r)
      (live.set k (item.approve approval at_)) := by
  refine ⟨?_, ?_, ?_, ?_⟩
  · -- the user codes are as they were
    have hback : ∀ k' i', (live.set k (item.approve approval at_)).get? k' = some i' →
        ∃ j, live.get? k' = some j ∧ j.userCode = i'.userCode := by
      intro k' i' h'
      rw [Dict.get?_set] at h'
      split at h'
      · rename_i hk
        cases h'; exact ⟨item, hk ▸ hi, rfl⟩
      · exact ⟨i', h', rfl⟩
    intro k₁ i₁ k₂ i₂ h₁ h₂ hcode
    obtain ⟨j₁, hj₁, hc₁⟩ := hback k₁ i₁ h₁
    obtain ⟨j₂, hj₂, hc₂⟩ := hback k₂ i₂ h₂
    exact hf.distinct k₁ j₁ k₂ j₂ hj₁ hj₂ (by rw [hc₁, hc₂, hcode])
  · intro d d' r r' hr hr' hh
    obtain ⟨s, hs, -⟩ := Option.map_eq_some_iff.1 hr
    obtain ⟨s', hs', -⟩ := Option.map_eq_some_iff.1 hr'
    exact hf.apart d d' s s' hs hs' hh
  · intro k' i' h'
    have hsome : ∃ j, live.get? k' = some j := by
      rw [Dict.get?_set] at h'
      split at h'
      · rename_i hk; exact ⟨item, hk ▸ hi⟩
      · exact ⟨i', h'⟩
    obtain ⟨j, hj⟩ := hsome
    obtain ⟨d, r, hr, hd⟩ := hf.owner k' j hj
    exact ⟨d, _, by rw [hr]; rfl, hd⟩
  · intro d r' hr'
    obtain ⟨r, hr, rfl⟩ := Option.map_eq_some_iff.1 hr'
    have ha := hf.agrees d r hr
    rw [Dict.get?_set]
    by_cases hk : hash d = k
    · have hw : r.Waits item.userCode now := (hf.waits_iff hpast hr).2 ⟨item, hk ▸ hi, rfl, hp, hlive⟩
      rw [hk, hi] at ha
      rw [if_pos hk, if_pos hw]
      exact ⟨ha.1, ha.2.1, rfl, rfl⟩
    · have hw : ¬ r.Waits item.userCode now := by
        intro hw
        obtain ⟨j, hj, hc, -, -⟩ := (hf.waits_iff hpast hr).1 hw
        exact hk (hf.distinct _ j _ item hj hi hc)
      rw [if_neg hk, if_neg hw]; exact ha

/-- A request on file as approved is so in the ledger, with its payload. -/
theorem Filed.approved {device : String} {item : Item} (hf : Filed hash past ledger requests)
    (hdig : ∀ d r, ledger d = some r → hash device = hash d → device = d)
    (hi : requests.get? (hash device) = some item) (hs : item.status = .approved) :
    ∃ n r, ledger device = some r ∧ r.fate = .approved n item.payload ∧ r.expiresAt = item.expiresAt := by
  obtain ⟨d, r, hr, hd⟩ := hf.owner _ item hi
  obtain rfl := hdig d r hr hd.symm
  have ha := hf.agrees device r hr
  rw [hi] at ha
  obtain ⟨-, hx, hshow⟩ := ha
  cases hfate : r.fate with
  | approved n payload => rw [hfate] at hshow; exact ⟨n, r, hr, by rw [hfate, hshow.2], hx⟩
  | pending => rw [hfate] at hshow; exact absurd (hshow.symm.trans hs) (by decide)
  | delivered n => rw [hfate] at hshow; exact hshow.elim

/-- A delivered request leaves the file. -/
theorem Filed.deliver {device : String} {item : Item} (hf : Filed hash past ledger requests)
    (hdig : ∀ d r, ledger d = some r → hash device = hash d → device = d)
    (hi : requests.get? (hash device) = some item) (hs : item.status = .approved) :
    Filed hash past
      (fun d => if device = d then (ledger d).map fun r => { r with fate := r.fate.deliver } else ledger d)
      (requests.erase (hash device)) := by
  have hledger : ∀ d r', (if device = d then (ledger d).map fun r => { r with fate := r.fate.deliver }
      else ledger d) = some r' → ∃ r, ledger d = some r ∧
        ((device = d ∧ r' = { r with fate := r.fate.deliver }) ∨ (device ≠ d ∧ r' = r)) := by
    intro d r' h
    split at h
    · rename_i hd
      obtain ⟨r, hr, rfl⟩ := Option.map_eq_some_iff.1 h
      exact ⟨r, hr, .inl ⟨hd, rfl⟩⟩
    · rename_i hd
      exact ⟨r', h, .inr ⟨hd, rfl⟩⟩
  refine ⟨?_, ?_, ?_, ?_⟩
  · intro k i k' i' h h' hcode
    rw [Dict.get?_erase] at h h'
    split at h
    · cases h
    · split at h'
      · cases h'
      · exact hf.distinct k i k' i' h h' hcode
  · intro d d' r r' hr hr' hh
    obtain ⟨s, hs, -⟩ := hledger d r hr
    obtain ⟨s', hs', -⟩ := hledger d' r' hr'
    exact hf.apart d d' s s' hs hs' hh
  · intro k i h
    rw [Dict.get?_erase] at h
    split at h
    · cases h
    · rename_i hk
      obtain ⟨d, r, hr, hd⟩ := hf.owner k i h
      have hne : device ≠ d := by rintro rfl; exact hk hd.symm
      exact ⟨d, r, by rw [if_neg hne]; exact hr, hd⟩
  · intro d r' h
    obtain ⟨r, hr, hcase⟩ := hledger d r' h
    have ha := hf.agrees d r hr
    rw [Dict.get?_erase]
    rcases hcase with ⟨rfl, rfl⟩ | ⟨hne, rfl⟩
    · rw [hi] at ha
      rw [if_pos rfl]
      left
      cases hfate : r.fate with
      | approved n p => exact ⟨n, rfl⟩
      | delivered n => exact ⟨n, rfl⟩
      | pending =>
        have := ha.2.2
        rw [hfate] at this
        exact absurd (this.symm.trans hs) (by decide)
    · rw [if_neg fun h => hne (hdig d r' hr h.symm)]; exact ha

/-! ## Approvals are delivered once -/

def Fate.approval : Fate → Option Nat
  | .approved n _ => some n
  | .delivered n => some n
  | .pending => none

/-- Every approval reached one device, and those delivered are its devices', each once. -/
structure Once (n : Nat) (ledger : String → Option Request) (ds : List (String × Nat)) : Prop where
  below : ∀ d r m, ledger d = some r → r.fate.approval = some m → m < n
  one : ∀ d d' r r' m, ledger d = some r → ledger d' = some r' → r.fate.approval = some m →
    r'.fate.approval = some m → d = d'
  delivered : ∀ p ∈ ds, ∃ r, ledger p.1 = some r ∧ r.fate = .delivered p.2
  nodup : (ds.map Prod.fst).Nodup

variable {n : Nat} {ds : List (String × Nat)}

theorem Once.skip (ho : Once n ledger ds) : Once (n + 1) ledger ds :=
  ⟨fun d r m hr hm => Nat.lt_succ_of_lt (ho.below d r m hr hm), ho.one, ho.delivered, ho.nodup⟩

theorem Once.issue {device code : String} {expiresAt : Time} (ho : Once n ledger ds) (hnew : ledger device = none) :
    Once (n + 1) (fun d => if device = d then some ⟨code, expiresAt, .pending⟩ else ledger d) ds := by
  have hledger : ∀ d r m, (if device = d then some ⟨code, expiresAt, .pending⟩ else ledger d) = some r →
      r.fate.approval = some m → ledger d = some r := by
    intro d r m h hm
    split at h
    · cases h; cases hm
    · exact h
  refine ⟨?_, ?_, ?_, ho.nodup⟩
  · intro d r m h hm
    exact Nat.lt_succ_of_lt (ho.below d r m (hledger d r m h hm) hm)
  · intro d d' r r' m h h' hm hm'
    exact ho.one d d' r r' m (hledger d r m h hm) (hledger d' r' m h' hm') hm hm'
  · intro p hp
    obtain ⟨r, hr, hfate⟩ := ho.delivered p hp
    have hne : device ≠ p.1 := by rintro h; rw [← h, hnew] at hr; cases hr
    exact ⟨r, by rw [if_neg hne]; exact hr, hfate⟩

theorem Once.approve {code : String} {now : Time} {payload : Payload} (ho : Once n ledger ds)
    (huniq : ∀ d d' r r', ledger d = some r → ledger d' = some r' → r.Waits code now → r'.Waits code now → d = d') :
    Once (n + 1)
      (fun d => (ledger d).map fun r => if r.Waits code now then { r with fate := .approved n payload } else r)
      ds := by
  have hledger : ∀ d r', (ledger d).map (fun r =>
      if r.Waits code now then { r with fate := .approved n payload } else r) = some r' →
      ∃ r, ledger d = some r ∧ ((r.Waits code now ∧ r'.fate = .approved n payload) ∨ (¬ r.Waits code now ∧ r' = r)) := by
    intro d r' h
    obtain ⟨r, hr, rfl⟩ := Option.map_eq_some_iff.1 h
    by_cases hw : r.Waits code now
    · exact ⟨r, hr, .inl ⟨hw, by rw [if_pos hw]⟩⟩
    · exact ⟨r, hr, .inr ⟨hw, if_neg hw⟩⟩
  refine ⟨?_, ?_, ?_, ho.nodup⟩
  · intro d r' m h hm
    obtain ⟨r, hr, ⟨-, hfate⟩ | ⟨-, rfl⟩⟩ := hledger d r' h
    · rw [hfate] at hm; cases hm; exact Nat.lt_succ_self n
    · exact Nat.lt_succ_of_lt (ho.below d r' m hr hm)
  · intro d d' r r' m h h' hm hm'
    obtain ⟨s, hs, hc⟩ := hledger d r h
    obtain ⟨s', hs', hc'⟩ := hledger d' r' h'
    rcases hc with ⟨hw, hfate⟩ | ⟨-, rfl⟩ <;> rcases hc' with ⟨hw', hfate'⟩ | ⟨-, rfl⟩
    · exact huniq d d' s s' hs hs' hw hw'
    · -- the approval of this call is later than all others
      rw [hfate] at hm; cases hm
      exact absurd (ho.below d' r' _ hs' hm') (Nat.lt_irrefl _)
    · rw [hfate'] at hm'; cases hm'
      exact absurd (ho.below d r _ hs hm) (Nat.lt_irrefl _)
    · exact ho.one d d' r r' m hs hs' hm hm'
  · intro p hp
    obtain ⟨r, hr, hfate⟩ := ho.delivered p hp
    have hw : ¬ r.Waits code now := by rintro ⟨-, h, -⟩; rw [hfate] at h; cases h
    exact ⟨r, by rw [hr, Option.map_some, if_neg hw], hfate⟩

theorem Once.deliver {device : String} (ho : Once n ledger ds) :
    Once (n + 1)
      (fun d => if device = d then (ledger d).map fun r => { r with fate := r.fate.deliver } else ledger d)
      (((ledger device).bind fun r => r.fate.undelivered.map fun m => (device, m)).toList ++ ds) := by
  have hledger : ∀ d r', (if device = d then (ledger d).map fun r => { r with fate := r.fate.deliver }
      else ledger d) = some r' → ∃ r, ledger d = some r ∧ r'.fate.approval = r.fate.approval := by
    intro d r' h
    split at h
    · obtain ⟨r, hr, rfl⟩ := Option.map_eq_some_iff.1 h
      refine ⟨r, hr, ?_⟩
      cases r.fate <;> rfl
    · exact ⟨r', h, rfl⟩
  have hnew : ∀ p ∈ ((ledger device).bind fun r => r.fate.undelivered.map fun m => (device, m)),
      ∃ r payload, ledger device = some r ∧ p.1 = device ∧ r.fate = .approved p.2 payload := by
    intro p hp
    obtain ⟨r, hr, hp⟩ := Option.bind_eq_some_iff.1 hp
    obtain ⟨m, hm, rfl⟩ := Option.map_eq_some_iff.1 hp
    cases hfate : r.fate with
    | approved m' payload => rw [hfate] at hm; cases hm; exact ⟨r, payload, hr, rfl, hfate⟩
    | pending => rw [hfate] at hm; cases hm
    | delivered => rw [hfate] at hm; cases hm
  refine ⟨?_, ?_, ?_, ?_⟩
  · intro d r' m h hm
    obtain ⟨r, hr, he⟩ := hledger d r' h
    exact Nat.lt_succ_of_lt (ho.below d r m hr (he ▸ hm))
  · intro d d' r r' m h h' hm hm'
    obtain ⟨s, hs, he⟩ := hledger d r h
    obtain ⟨s', hs', he'⟩ := hledger d' r' h'
    exact ho.one d d' s s' m hs hs' (he ▸ hm) (he' ▸ hm')
  · intro p hp
    rcases List.mem_append.1 hp with hp | hp
    · obtain ⟨r, payload, hr, hd, hfate⟩ := hnew p (Option.mem_toList.1 hp)
      exact ⟨{ r with fate := .delivered p.2 }, by rw [hd, if_pos rfl, hr]; simp [hfate, Fate.deliver], rfl⟩
    · obtain ⟨r, hr, hfate⟩ := ho.delivered p hp
      by_cases hd : device = p.1
      · exact ⟨{ r with fate := r.fate.deliver }, by rw [if_pos hd, hr]; rfl, by rw [hfate]; rfl⟩
      · exact ⟨r, by rw [if_neg hd]; exact hr, hfate⟩
  · rw [List.map_append]
    refine List.nodup_append.2 ⟨?_, ho.nodup, ?_⟩
    · cases (ledger device).bind fun r => r.fate.undelivered.map fun m => (device, m) with
      | none => exact List.nodup_nil
      | some p => exact List.nodup_singleton _
    · intro d hd d' hd'
      obtain ⟨p, hp, rfl⟩ := List.mem_map.1 hd
      obtain ⟨p', hp', rfl⟩ := List.mem_map.1 hd'
      obtain ⟨r, payload, hr, hd, hfate⟩ := hnew p (Option.mem_toList.1 hp)
      obtain ⟨r', hr', hfate'⟩ := ho.delivered p' hp'
      rintro heq
      -- what is on its way was not delivered before
      rw [← heq, hd, hr] at hr'; cases hr'
      rw [hfate] at hfate'; cases hfate'

/-- The approvals delivered are distinct as well. -/
theorem Once.approvals_nodup (ho : Once n ledger ds) : (ds.map Prod.snd).Nodup := by
  refine ho.nodup.of_map _ |>.map_on fun p hp p' hp' heq => ?_
  obtain ⟨r, hr, hfate⟩ := ho.delivered p hp
  obtain ⟨r', hr', hfate'⟩ := ho.delivered p' hp'
  have hd : p.1 = p'.1 := ho.one _ _ r r' p.2 hr hr' (by rw [hfate]; rfl) (by rw [hfate', heq]; rfl)
  exact Prod.ext hd heq

/-! ## Every run -/

/-- An instant the clock has passed. -/
def Past (h : List Event) (x : Time) : Prop := ∃ e ∈ h, x < e.1.now + e.1.lag

theorem mark_issued {e : Event} {device code : String} {x : Time} (h : mark ttl e = some (.issued device code x)) :
    e.1.op.issues = some device := by
  unfold mark at h
  split at h
  · rename_i heq _
    cases h; rw [heq]; rfl
  all_goals cases h

theorem request_issued {h : List Event} {device : String} {r : Request} (hr : request ttl h device = some r) :
    device ∈ issued h := by
  induction h generalizing r with
  | nil => cases hr
  | cons e h ih =>
    have hold : ∀ r, request ttl h device = some r → device ∈ issued (e :: h) := by
      intro r hr
      obtain ⟨e', he', hd⟩ := List.mem_filterMap.1 (ih hr)
      exact List.mem_filterMap.2 ⟨e', List.mem_cons_of_mem _ he', hd⟩
    unfold request requestAfter at hr
    split at hr
    · exact hold r hr
    · rename_i hm
      split at hr
      · rename_i hd
        exact List.mem_filterMap.2 ⟨e, List.mem_cons_self .., hd ▸ mark_issued hm⟩
      · exact hold r hr
    · obtain ⟨r', hr', -⟩ := Option.map_eq_some_iff.1 hr
      exact hold r' hr'
    · split at hr
      · obtain ⟨r', hr', -⟩ := Option.map_eq_some_iff.1 hr
        exact hold r' hr'
      · exact hold r hr

theorem ne_of_issued {h : List Event} {device : String} (hd : device ∈ issued h) : device ≠ "" := by
  obtain ⟨e, -, he⟩ := List.mem_filterMap.1 hd
  cases hop : e.1.op with
  | create d => rw [hop] at he; cases he; exact d.nonempty
  | describeUserCode | approve | redeem | countPending => rw [hop] at he; cases he

/-- The device a key goes to. -/
def Mark.paysTo : Mark → Option String
  | .delivered device => some device
  | _ => none

theorem paidTo_eq (ttl : Time) (e : Event) : paidTo e = (mark ttl e).bind Mark.paysTo := by
  unfold paidTo mark
  split
  · rename_i hop ha; rw [hop, ha]; rfl
  · rename_i hne
    split
    · rfl
    · rfl
    · rename_i hop ha; exact absurd ha (hne _ _ hop)
    · rfl

/-- The document agrees with the history, and the history delivers once. -/
structure Tracked (hash : String → String) (ttl : Time) (h : List Event) (requests : Requests) : Prop where
  filed : Filed hash (Past h) (request ttl h) requests
  once : Once h.length (request ttl h) (deliveries ttl h)
  paid : (deliveries ttl h).map Prod.fst = h.filterMap paidTo

theorem tracked_step (h : List Event) (requests : Requests) (c : Call) (ht : Tracked hash ttl h requests)
    (ho : Orderly hash h c) :
    Tracked hash ttl ((c, (step hash ttl requests c).1) :: h) (step hash ttl requests c).2 := by
  have hpast : ∀ x, Past h x → x < c.now := by
    rintro x ⟨e, he, hx⟩
    have := ho.clock e he
    linarith
  have hmono : ∀ a x, Past h x → Past ((c, a) :: h) x := fun a x ⟨e, he, hx⟩ => ⟨e, List.mem_cons_of_mem _ he, hx⟩
  have hnow : ∀ a x, x < c.now + c.lag → Past ((c, a) :: h) x := fun a x hx => ⟨_, List.mem_cons_self .., hx⟩
  have hdig : ∀ device, c.op.device = some device → ∀ d r, request ttl h d = some r → hash device = hash d →
      device = d := fun device hd d r hr => ho.digests device hd d (request_issued hr)
  have hdoes := step_does hash ttl requests c
  -- the two histories, one event longer
  have hreq : ∀ e, request ttl (e :: h) = fun d => requestAfter h.length d (mark ttl e) (request ttl h d) :=
    fun e => rfl
  have hdel : ∀ e, deliveries ttl (e :: h) = (delivery ttl h e).toList ++ deliveries ttl h := fun e => rfl
  have hpaid : ∀ e, (delivery ttl h e).map Prod.fst = (mark ttl e).bind Mark.paysTo →
      (deliveries ttl (e :: h)).map Prod.fst = (e :: h).filterMap paidTo := by
    intro e he
    rw [hdel, List.map_append, ht.paid, List.filterMap_cons, paidTo_eq ttl, ← he]
    cases delivery ttl h e <;> rfl
  generalize (step hash ttl requests c).1 = a at hdoes ⊢
  generalize (step hash ttl requests c).2 = requests' at hdoes ⊢
  generalize hm : mark ttl (c, a) = m at hdoes
  cases hdoes with
  | keeps hk =>
    refine ⟨?_, ?_, hpaid _ (by rw [delivery, hm]; rfl)⟩
    · rw [hreq, hm]; exact ht.filed.kept hk (hmono a) (hnow a)
    · rw [hreq, hdel, delivery, hm]; exact ht.once.skip
  | @issues live device code hd hk hfree =>
    have hdev : c.op.device = some device := by
      cases hop : c.op with
      | create d => rw [hop] at hd; exact hd
      | describeUserCode | approve | redeem | countPending => rw [hop] at hd; cases hd
    have hnew : request ttl h device = none :=
      Option.eq_none_iff_forall_ne_some.2 fun r hr => ho.fresh device hd (request_issued hr)
    refine ⟨?_, ?_, hpaid _ (by rw [delivery, hm]; rfl)⟩
    · rw [hreq, hm]
      exact (ht.filed.kept hk (hmono a) (hnow a)).issue hnew (hdig device hdev) hfree
    · rw [hreq, hdel, delivery, hm]; exact ht.once.issue hnew
  | @approves live k item code approval hk hi hlive hc hp =>
    have hlater : ∀ x, Past h x ∨ x < c.now → x < c.now := fun x hx => hx.elim (hpast x) id
    have hf : Filed hash (fun x => Past h x ∨ x < c.now) (request ttl h) live :=
      ht.filed.kept hk (fun _ => .inl) fun _ => .inr
    refine ⟨?_, ?_, hpaid _ (by rw [delivery, hm]; rfl)⟩
    · rw [hreq, hm]
      subst hc
      have := hf.approve approval h.length (c.now + c.lag) hlater hi hlive hp
      refine this.kept (Kept.refl (c.now + c.lag) _) ?_ (hnow a)
      rintro x (hx | hx)
      · exact hmono a x hx
      · exact hnow a x (lt_of_lt_of_le hx (now_le_later c))
    · rw [hreq, hdel, delivery, hm]
      exact ht.once.approve fun d d' r r' hr hr' hw hw' => hf.waits_unique hlater hr hr' hw hw'
  | @delivers device item hd hi hs =>
    have hdig' := hdig device (by rw [hd]; rfl)
    obtain ⟨n, r, hr, hfate, -⟩ := ht.filed.approved hdig' hi hs
    refine ⟨?_, ?_, hpaid _ (by simp [delivery, hm, hr, hfate, Fate.undelivered, Mark.paysTo])⟩
    · rw [hreq, hm]
      have := ht.filed.kept (Kept.refl (c.now + c.lag) requests) (hmono a) (hnow a)
      exact this.deliver hdig' hi hs
    · rw [hreq, hdel, delivery, hm]; exact ht.once.deliver

theorem tracked {cs : List Call} (ho : (deviceAuthStore hash ttl).AllSteps (fun h _ c => Orderly hash h c) cs) :
    Tracked hash ttl ((deviceAuthStore hash ttl).log cs) ((deviceAuthStore hash ttl).state cs) := by
  refine Machine.AllSteps.invariant (P := Tracked hash ttl) ?_ tracked_step ho
  refine ⟨⟨?_, ?_, ?_, ?_⟩, ⟨?_, ?_, ?_, List.nodup_nil⟩, rfl⟩
  · intro k i k' i' hi; cases hi
  · intro d d' r r' hr; cases hr
  · intro k i hi; cases hi
  · intro d r hr; cases hr
  · intro d r m hr; cases hr
  · intro d d' r r' m hr; cases hr
  · intro p hp; cases hp

theorem redeem_of_none {device : String} {now : Time} {requests : Requests}
    (hi : requests.get? (hash device) = none) : (redeem hash device now requests).1 = .unknown := by
  unfold redeem
  dsimp only
  split
  · rfl
  · rw [hi]

theorem redeem_of_some {device : String} {now : Time} {requests : Requests} {item : Item} (hd : device ≠ "")
    (hi : requests.get? (hash device) = some item) :
    (redeem hash device now requests).1 =
      if item.expiresAt < now then .expired
      else if item.status = .approved then .approved item.payload else .pending := by
  unfold redeem
  dsimp only
  rw [if_neg hd, hi]
  dsimp only
  split
  · rfl
  · cases item.status <;> rfl

theorem step_redeem {c : Call} {device : String} {requests : Requests} (hop : c.op = .redeem device) :
    (step hash ttl requests c).1 = .poll (redeem hash device c.now requests).1 := by
  unfold step
  rw [hop]; rfl

theorem delivers_of_tracked {h : List Event} {requests : Requests} {c : Call} (ht : Tracked hash ttl h requests)
    (ho : Orderly hash h c) : Delivers hash ttl h requests c := by
  have hpast : ∀ x, Past h x ∨ x < c.now → x < c.now := by
    rintro x (⟨e, he, hx⟩ | hx)
    · have := ho.clock e he; linarith
    · exact hx
  have hf : Filed hash (fun x => Past h x ∨ x < c.now) (request ttl h) (purge c.now requests) :=
    ht.filed.kept (kept_purge le_rfl _) (fun _ => .inl) fun _ => .inr
  obtain ⟨op, now, lag⟩ := c
  refine ⟨?_, ?_, ?_, ?_, ?_⟩
  · -- what a poll hands over was approved for this device
    rintro device payload rfl hans
    have hans' : (redeem hash device now requests).1 = .approved payload := Answer.poll.inj hans
    cases hi : requests.get? (hash device) with
    | none => rw [redeem_of_none hi] at hans'; cases hans'
    | some item =>
      have hd : device ≠ "" := by rintro rfl; cases hans'
      rw [redeem_of_some hd hi] at hans'
      split at hans'
      · cases hans'
      · rename_i hlive
        split at hans'
        · rename_i hs
          cases hans'
          have hdig : ∀ d r, request ttl h d = some r → hash device = hash d → device = d :=
            fun d r hr => ho.digests device rfl d (request_issued hr)
          obtain ⟨n, r, hr, hfate, hx⟩ := ht.filed.approved hdig hi hs
          exact ⟨r, n, hr, hfate, by rw [hx]; exact not_lt.1 hlive⟩
        · cases hans'
  · -- what was approved and has not expired is handed over
    rintro device r n payload rfl hr hfate hlive
    have ha := ht.filed.agrees device r hr
    cases hi : requests.get? (hash device) with
    | none =>
      rw [hi] at ha
      rcases ha with ⟨m, hm⟩ | hx
      · rw [hfate] at hm; cases hm
      · exact absurd (hpast _ (.inl hx)) (not_lt.2 hlive)
    | some item =>
      rw [hi, Request.Agrees, hfate] at ha
      obtain ⟨-, hx, hs, hp⟩ := ha
      rw [step_redeem rfl, redeem_of_some (ne_of_issued (request_issued hr)) hi, if_neg (by rw [← hx]; exact not_lt.2 hlive),
        if_pos hs, hp]
  · -- what was handed over or has expired is not
    rintro device r rfl hr hgone
    have ha := ht.filed.agrees device r hr
    cases hi : requests.get? (hash device) with
    | none => left; rw [step_redeem rfl, redeem_of_none hi]
    | some item =>
      right
      rw [hi] at ha
      rcases hgone with ⟨n, hn⟩ | hx
      · have := ha.2.2
        rw [hn] at this; exact this.elim
      · rw [step_redeem rfl, redeem_of_some (ne_of_issued (request_issued hr)) hi, if_pos (by rw [← ha.2.1]; exact hx)]
  · -- an approval finds a request just where one waits under its code
    rintro code approval rfl
    simp only [step, approve]
    constructor
    · intro hans
      split at hans
      · cases hans
      · rename_i k item hc
        obtain ⟨hi, hcode⟩ := carrying_some hc
        split at hans
        · cases hans
        · rename_i hs
          obtain ⟨d, r, hr, rfl⟩ := hf.owner k item hi
          exact ⟨d, r, hr, (hf.waits_iff hpast hr).2
            ⟨item, hi, hcode, Status.pending_of_ne hs, (get?_purge.1 hi).2⟩⟩
    · rintro ⟨d, r, hr, hw⟩
      obtain ⟨item, hi, hcode, hs, -⟩ := (hf.waits_iff hpast hr).1 hw
      split
      · rename_i hc
        exact absurd hcode (carrying_none hc _ item hi)
      · rename_i k item' hc
        obtain ⟨hi', hcode'⟩ := carrying_some hc
        have hk := hf.distinct _ item k item' hi hi' (hcode.trans hcode'.symm)
        rw [← hk, hi] at hi'; cases hi'
        rw [if_neg (by rw [hs]; decide)]
  · intro code device device' r r' hr hr' hw hw'
    exact hf.waits_unique hpast hr hr' hw hw'

/-- A device key is delivered at most once and only to its device: in every run in which the clock does
not run back and the device codes neither repeat nor collide, every call answers as its history says,
the keys paid out are distinct approvals to distinct devices, and at every moment the user codes on file
are distinct. -/
theorem keys_delivered_once (hash : String → String) (ttl : Time) (cs : List Call)
    (ho : (deviceAuthStore hash ttl).AllSteps (fun h _ c => Orderly hash h c) cs) :
    (deviceAuthStore hash ttl).AllSteps (Delivers hash ttl) cs ∧
      PaidOnce ttl ((deviceAuthStore hash ttl).log cs) ∧
      (deviceAuthStore hash ttl).AllStates (fun _ requests => CodesDistinct requests) cs := by
  refine ⟨ho.imp fun cs c hcs hc => delivers_of_tracked (tracked hcs) hc, ?_,
    Machine.AllSteps.allStates (fun cs hcs => (tracked hcs).filed.distinct) ho⟩
  have ht := tracked ho
  exact ⟨ht.paid, ht.once.nodup, ht.once.approvals_nodup⟩

/-- A request is created, approved in another spelling of its user code, and redeemed twice (read from
the last call to the first). -/
def handOver : List Call :=
  [⟨.redeem "device", 30, 0⟩, ⟨.redeem "device", 20, 0⟩,
    ⟨.approve " bbbb bbbb " ⟨⟨some "key", none, none, none, none⟩, "ann", none⟩, 10, 1⟩,
    ⟨.create ⟨"device", by decide⟩ [(fun _ => ⟨0, by decide⟩, fun _ => ⟨0, by decide⟩)] "https://host/", 0, 1⟩]

theorem handOver_orderly : (deviceAuthStore id 900).AllSteps (fun h _ c => Orderly id h c) handOver := by
  have hdig : ∀ (h : List Event) (c : Call) device, c.op.device = some device → ∀ device' ∈ issued h,
      id device = id device' → device = device' := fun _ _ _ _ _ _ h => h
  refine ⟨⟨by decide, ?_, hdig _ _⟩, ⟨by decide, ?_, hdig _ _⟩, ⟨by decide, ?_, hdig _ _⟩, ⟨by decide, ?_, hdig _ _⟩,
    trivial⟩
  · intro device hd; cases hd
  · intro device hd; cases hd
  · intro device hd; cases hd
  · intro device _ hd; cases hd

/-- In `handOver` the key goes to the device once, and the second poll finds nothing. -/
theorem handOver_delivered_once :
    ((deviceAuthStore id 900).log handOver).map Prod.snd =
        [.poll .unknown, .poll (.approved ⟨some "key", none, none, none, none, some "ann", none⟩),
          .accepted "BBBB-BBBB" none,
          .created ⟨"device", "BBBB-BBBB", "https://host/device", "https://host/device?user_code=BBBB-BBBB", 900, 2⟩] ∧
      (deviceAuthStore id 900).AllSteps (Delivers id 900) handOver ∧
      PaidOnce 900 ((deviceAuthStore id 900).log handOver) ∧
      (deviceAuthStore id 900).AllStates (fun _ requests => CodesDistinct requests) handOver :=
  ⟨by decide, keys_delivered_once id 900 handOver handOver_orderly⟩

end OpenFish.Device
