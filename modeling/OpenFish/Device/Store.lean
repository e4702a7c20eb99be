/-
`DeviceAuthStore` of `services/device_auth.py`: the requests of clients without a browser, kept under
the digests of their device codes until a signed-in user approves them by their user codes and the
client redeems the key.
-/
import Mathlib.Data.Bool.AllAny
import OpenFish.Lib.Machine
import OpenFish.Lib.Dict
import OpenFish.Lib.Text
import Mathlib.Algebra.Order.Ring.Int

namespace OpenFish.Device

open Lib

/-- An instant or a duration, in microseconds. -/
abbrev Time := Int

/-! ## User codes -/

def alphabet : List Char := "BCDFGHJKLMNPQRSTVWXZ23456789".toList

def codeLen : Nat := 4

def pollInterval : Nat := 2

/-- The random choices behind one half of a user code. -/
abbrev Half := Fin codeLen → Fin alphabet.length

def pick (choice : Half) : List Char := List.ofFn fun i => alphabet.get (choice i)

def newUserCode (roll : Half × Half) : String := String.ofList (pick roll.1 ++ '-' :: pick roll.2)

def normalizeUserCode (value : String) : String :=
  let text := Text.replaceChar '_' '-' (Text.removeChar ' ' (Text.upper (Text.strip value)))
  if '-' ∉ text.toList ∧ text.toList.length = codeLen * 2 then
    String.ofList (text.toList.take codeLen ++ '-' :: text.toList.drop codeLen)
  else text

/-- The characters that a user code is made of are kept by every step of `normalizeUserCode`. -/
theorem plain_of_mem_newUserCode {roll : Half × Half} {c : Char} (hc : c ∈ (newUserCode roll).toList) :
    Text.upperChar c = [c] ∧ Text.isSpace c = false ∧ c ≠ ' ' ∧ c ≠ '_' := by
  have halphabet : ∀ c ∈ alphabet, Text.upperChar c = [c] ∧ Text.isSpace c = false ∧ c ≠ ' ' ∧ c ≠ '_' :=
    List.all_iff_forall_prop.1 (by decide)
  have hpick : ∀ choice, c ∈ pick choice → c ∈ alphabet := by
    intro choice h
    obtain ⟨i, rfl⟩ := List.mem_ofFn.1 h
    exact List.get_mem ..
  rw [newUserCode, String.toList_ofList, List.mem_append, List.mem_cons] at hc
  rcases hc with hc | rfl | hc
  · exact halphabet c (hpick _ hc)
  · decide
  · exact halphabet c (hpick _ hc)

/-- A user code typed as it is shown names itself. -/
theorem normalizeUserCode_newUserCode (roll : Half × Half) :
    normalizeUserCode (newUserCode roll) = newUserCode roll := by
  have hplain : ∀ c ∈ (newUserCode roll).toList, _ := fun c => plain_of_mem_newUserCode
  have hdash : '-' ∈ (newUserCode roll).toList := by
    rw [newUserCode, String.toList_ofList]
    exact List.mem_append_right _ (List.mem_cons_self ..)
  have hstrip : Text.strip (newUserCode roll) = newUserCode roll :=
    Text.strip_of_forall fun c hc => (hplain c hc).2.1
  have hupper : Text.upper (newUserCode roll) = newUserCode roll :=
    Text.upper_of_forall fun c hc => (hplain c hc).1
  have hremove : Text.removeChar ' ' (newUserCode roll) = newUserCode roll :=
    Text.removeChar_of_not_mem fun hc => (hplain ' ' hc).2.2.1 rfl
  have hreplace : Text.replaceChar '_' '-' (newUserCode roll) = newUserCode roll :=
    Text.replaceChar_of_not_mem fun hc => (hplain '_' hc).2.2.2 rfl
  unfold normalizeUserCode
  rw [hstrip, hupper, hremove, hreplace, if_neg fun h => h.1 hdash]

/-! ## Requests -/

inductive Status
  | pending
  | approved
  deriving DecidableEq, Repr

/-- A request on file. -/
structure Item where
  userCode : String
  status : Status := .pending
  createdAt : Time
  expiresAt : Time
  approvedAt : Option Time := none
  polls : Nat := 0
  keyCredential : Option String := none
  keyId : Option String := none
  keyName : Option String := none
  keyPrefix : Option String := none
  keyExpiresAt : Option String := none
  user : Option String := none
  displayName : Option String := none
  deriving DecidableEq, Repr

/-- The document: requests by the digests of their device codes. -/
abbrev Requests := Dict String Item

/-- A key as it was minted for the account that approves. -/
structure Key where
  key : Option String
  id : Option String
  name : Option String
  keyPrefix : Option String
  expiresAt : Option String
  deriving DecidableEq, Repr

/-- Who approves: the key, the user and the name shown. -/
structure Approval where
  key : Key
  user : String
  displayName : Option String
  deriving DecidableEq, Repr

/-- What an approved request pays out. -/
structure Payload where
  apiKey : Option String
  keyId : Option String
  keyName : Option String
  keyPrefix : Option String
  keyExpiresAt : Option String
  user : Option String
  displayName : Option String
  deriving DecidableEq, Repr

/-- A secret as `token_urlsafe` makes it: never empty. -/
structure DeviceCode where
  text : String
  nonempty : text ≠ ""
  deriving DecidableEq

/-- The payload of `create` for the client. -/
structure Created where
  deviceCode : String
  userCode : String
  verificationUri : String
  verificationUriComplete : String
  expiresIn : Time
  interval : Nat
  deriving DecidableEq, Repr

structure Described where
  userCode : String
  createdAt : Time
  expiresAt : Time
  status : Status
  deriving DecidableEq, Repr

inductive Poll
  | unknown
  | expired
  | pending
  | approved (payload : Payload)
  deriving DecidableEq, Repr

inductive Answer
  | created (payload : Created)
  /-- Every code rolled so far is taken: `create` is still rolling. -/
  | rolling
  | described (request : Described)
  | accepted (userCode : String) (keyId : Option String)
  | alreadyApproved (wanted : String)
  | unknownUserCode (wanted : String)
  | poll (answer : Poll)
  | count (pending : Nat)
  deriving DecidableEq, Repr

/-! ## Operations -/

/-- `_purge`: drop expired entries. -/
def purge (cutoff : Time) (requests : Requests) : Requests := requests.keep fun _ item => ¬ item.expiresAt < cutoff

/-- The entry that carries a user code. -/
def carrying (wanted : String) (requests : Requests) : Option (String × Item) :=
  requests.entries.find? fun e => e.2.userCode = wanted

def Item.approve (item : Item) (approval : Approval) (now : Time) : Item :=
  { item with
    status := .approved
    approvedAt := some now
    keyCredential := approval.key.key
    keyId := approval.key.id
    keyName := approval.key.name
    keyPrefix := approval.key.keyPrefix
    keyExpiresAt := approval.key.expiresAt
    user := some approval.user
    displayName := approval.displayName }

def Item.payload (item : Item) : Payload where
  apiKey := item.keyCredential
  keyId := item.keyId
  keyName := item.keyName
  keyPrefix := item.keyPrefix
  keyExpiresAt := item.keyExpiresAt
  user := item.user
  displayName := item.displayName

section
variable (hash : String → String) (ttl : Time)

/-- `create`, with the codes the dice give: the clock is read before the lock is taken (`now`) and
again by the purge (`cutoff`). -/
def create (deviceCode : DeviceCode) (rolls : List (Half × Half)) (baseUrl : String) (now cutoff : Time)
    (requests : Requests) : Answer × Requests :=
  let live := purge cutoff requests
  -- re-roll a code collision rather than shadowing a live request
  match (rolls.map newUserCode).find? fun code => (carrying code live).isNone with
  | none => (.rolling, requests)
  | some userCode =>
    let verify := Text.rstrip '/' baseUrl ++ "/device"
    (.created
      { deviceCode := deviceCode.text
        userCode
        verificationUri := verify
        verificationUriComplete := verify ++ "?user_code=" ++ userCode
        expiresIn := ttl
        interval := pollInterval },
     live.set (hash deviceCode.text) { userCode, createdAt := now, expiresAt := now + ttl })

def describeUserCode (userCode : String) (now : Time) (requests : Requests) : Answer × Requests :=
  let wanted := normalizeUserCode userCode
  let live := purge now requests
  match carrying wanted live with
  | none => (.unknownUserCode wanted, live)
  | some (_, item) =>
    if item.status = .approved then (.alreadyApproved wanted, live)
    else (.described ⟨wanted, item.createdAt, item.expiresAt, item.status⟩, live)

/-- `approve`: nothing is written when it refuses. -/
def approve (userCode : String) (approval : Approval) (cutoff now : Time) (requests : Requests) :
    Answer × Requests :=
  let wanted := normalizeUserCode userCode
  let live := purge cutoff requests
  match carrying wanted live with
  | none => (.unknownUserCode wanted, requests)
  | some (digest, item) =>
    if item.status = .approved then (.alreadyApproved wanted, requests)
    else (.accepted wanted approval.key.id, live.set digest (item.approve approval now))

/-- `redeem`: one poll. -/
def redeem (deviceCode : String) (now : Time) (requests : Requests) : Poll × Requests :=
  if deviceCode = "" then (.unknown, requests)
  else
    let digest := hash deviceCode
    match requests.get? digest with
    | none => (.unknown, requests)
    | some item =>
      if item.expiresAt < now then (.expired, requests.erase digest)
      else if item.status ≠ .approved then
        (.pending, requests.set digest { item with polls := item.polls + 1 })
      else (.approved item.payload, requests.erase digest)

def countPending (now : Time) (requests : Requests) : Nat × Requests :=
  let live := purge now requests
  (live.entries.length, live)

end

/-! ## The store as a machine -/

inductive Op
  | create (deviceCode : DeviceCode) (rolls : List (Half × Half)) (baseUrl : String)
  | describeUserCode (userCode : String)
  | approve (userCode : String) (approval : Approval)
  | redeem (deviceCode : String)
  | countPending

/-- A call, its first reading of the clock, and how much later it reads it again. -/
structure Call where
  op : Op
  now : Time
  lag : Nat := 0

/-- One call. -/
def step (hash : String → String) (ttl : Time) (requests : Requests) (c : Call) : Answer × Requests :=
  match c.op with
  | .create device rolls baseUrl => create hash ttl device rolls baseUrl c.now (c.now + c.lag) requests
  | .describeUserCode code => describeUserCode code c.now requests
  | .approve code approval => approve code approval c.now (c.now + c.lag) requests
  | .redeem device => (redeem hash device c.now requests).map .poll id
  | .countPending => (countPending c.now requests).map .count id

/-- A store without a document, then any calls. -/
def deviceAuthStore (hash : String → String) (ttl : Time) : Machine Requests Call Answer :=
  ⟨Dict.empty, step hash ttl⟩

abbrev Event := Call × Answer

end OpenFish.Device
