/-
`services/urlsafety.py`: the guard on outbound URLs. It refuses what resolves to a blocked network, but compares IPv6
addresses with IPv6 networks only, and asks the resolver about an IPv6 literal in its brackets.
-/
import OpenFish.Lib.Address
import OpenFish.Lib.Text

namespace OpenFish.Outbound

open Lib

/-- `AnyHttpUrl`: what it makes of a text, and the parts and the text of a URL. The text of a URL is read as that URL. -/
structure UrlParser (υ : Type) where
  validate : String → Except String υ
  username : υ → Option String
  password : υ → Option String
  host : υ → Option String
  port : υ → Option Nat
  text : υ → String
  validate_text : ∀ {s : String} {u : υ}, validate s = .ok u → validate (text u) = .ok u

/-- `socket.getaddrinfo`: the texts of the addresses, unless it raises. -/
abbrev Resolver := String → Option (List String)

inductive Refusal
  /-- `URL 不是合法的 http(s) 地址`. -/
  | invalid (reason : String)
  /-- `URL 不能携带用户名或口令`. -/
  | credentials
  /-- `主机 … 不在探测白名单内`. -/
  | notAllowed (host : String)
  /-- `主机 … 是云元数据服务，禁止访问`. -/
  | metadataHost (host : String)
  /-- `无法解析主机：…`. -/
  | unresolved (host : String)
  /-- `禁止访问的地址：… 属于禁止的地址段 …`. -/
  | blocked (address : Address) (network : Network)
  deriving DecidableEq, Repr

/-- `_BLOCKED_NETWORKS`. -/
def blockedNetworks : List Network :=
  [.v4 0xa9fe0000#32 16, .v6 (0xfe80#16 ++ 0#112) 10, .v4 0x64400000#32 10, .v4 0xe0000000#32 4,
    .v6 (0xff00#16 ++ 0#112) 8, .v4 0#32 32, .v6 0#128 128, .v4 0xf0000000#32 4]

/-- `_BLOCKED_HOSTS`. -/
def blockedHosts : List String :=
  ["metadata", "metadata.google.internal", "metadata.goog", "instance-data", "instance-data.ec2.internal"]

/-- `_addresses`. -/
def addresses (resolve : Resolver) (host : String) : Except Refusal (List Address) :=
  match ipAddress host with
  | some address => .ok [address]
  | none =>
    match resolve host with
    | none => .error (.unresolved host)
    | some infos =>
      let found := infos.filterMap ipAddress
      if found = [] then .error (.unresolved host) else .ok found

/-- `_blocked_reason`. -/
def blockedReason (address : Address) : Option Network := blockedNetworks.find? fun network => network.has address

/-- The first address that is refused. -/
def firstBlocked : List Address → Option (Address × Network)
  | [] => none
  | address :: rest =>
    match blockedReason address with
    | some network => some (address, network)
    | none => firstBlocked rest

variable {υ : Type} (parser : UrlParser υ)

/-- `check_outbound_url`, up to where it resolves the host: the URL and its host. -/
def checkHost (url : String) (allowedHosts : List String) : Except Refusal (υ × String) :=
  match parser.validate (Text.strip url) with
  | .error reason => .error (.invalid reason)
  | .ok parsed =>
    if (parser.username parsed).getD "" ≠ "" ∨ (parser.password parsed).getD "" ≠ "" then .error .credentials
    else
      let allowed := (allowedHosts.filter fun host => Text.strip host ≠ "").map fun host => Text.lower (Text.strip host)
      let host := (parser.host parsed).getD ""
      let port := ((parser.port parsed).map toString).getD "None"
      if allowed ≠ [] ∧ Text.lower host ∉ allowed ∧ Text.lower (host ++ ":" ++ port) ∉ allowed then .error (.notAllowed host)
      else if Text.lower host ∈ blockedHosts then .error (.metadataHost host)
      else .ok (parsed, host)

/-- `check_outbound_url`. -/
def checkOutboundUrl (resolve : Resolver) (url : String) (allowedHosts : List String) : Except Refusal String := do
  let (parsed, host) ← checkHost parser url allowedHosts
  let found ← addresses resolve host
  match firstBlocked found with
  | some (address, network) => throw (.blocked address network)
  | none => return parser.text parsed

/-! ## What must not be reached -/

/-- An address in a blocked network, or the IPv6 spelling of one. -/
def Forbidden (address : Address) : Prop :=
  (∃ network ∈ blockedNetworks, network.has address = true) ∨
    ∃ value, address.ipv4Mapped = some value ∧ ∃ network ∈ blockedNetworks, network.has (.v4 value) = true

/-- An IPv6 address as a URL spells it. -/
def bracketed (host : String) : Option Address :=
  match host.toList with
  | '[' :: rest => if rest.getLast? = some ']' then ipAddress (String.ofList rest.dropLast) else none
  | _ => none

/-- What a host is, or resolves to. -/
def targets (resolve : Resolver) (host : String) : List Address :=
  match ipAddress host with
  | some address => [address]
  | none => (bracketed host).toList ++ ((resolve host).getD []).filterMap ipAddress

/-- The URL that is returned has the host that was checked, and that leads to nothing forbidden. -/
def Safe (resolve : Resolver) (url : String) (allowedHosts : List String) : Prop :=
  ∀ returned, checkOutboundUrl parser resolve url allowedHosts = .ok returned →
    ∃ parsed host, checkHost parser url allowedHosts = .ok (parsed, host) ∧
      (∃ again, parser.validate returned = .ok again ∧ (parser.host again).getD "" = host) ∧
      ∀ address ∈ targets resolve host, ¬ Forbidden address

/-- Whatever the resolver answers that is let through is no IPv6 spelling of a blocked IPv4 address, and a host that is
asked about in its brackets is not forbidden. -/
def NothingUnseen (resolve : Resolver) (url : String) (allowedHosts : List String) : Prop :=
  ∀ parsed host found, checkHost parser url allowedHosts = .ok (parsed, host) → addresses resolve host = .ok found →
    (∀ address ∈ found, blockedReason address = none) →
      (∀ address ∈ found, ∀ value, address.ipv4Mapped = some value → blockedReason (.v4 value) = none) ∧
        (ipAddress host = none → ∀ address, bracketed host = some address → ¬ Forbidden address)

/-! ## What the check lets through -/

theorem blockedReason_eq_none {address : Address} :
    blockedReason address = none ↔ ¬ ∃ network ∈ blockedNetworks, network.has address = true := by
  rw [blockedReason, List.find?_eq_none]
  simp

/-- No IPv6 spelling of an IPv4 address is refused, whatever the address. -/
theorem blockedReason_mapped (value : BitVec 32) (scope : Option String) :
    blockedReason (.v6 (mapped value) scope) = none := by
  have hhigh (base : BitVec 128) (length : Nat) (hlength : 1 ≤ length) (hbase : base.getLsbD 127 = true) :
      (Network.v6 base length).has (.v6 (mapped value) scope) = false := by
    refine decide_eq_false (and_netmask_ne (i := 127) (by omega) ?_)
    rw [getLsbD_mapped (by decide), hbase]
    decide
  have hzero : (Network.v6 0#128 128).has (.v6 (mapped value) scope) = false := by
    refine decide_eq_false (and_netmask_ne (i := 32) (by decide) ?_)
    rw [getLsbD_mapped (by decide)]
    decide
  rw [blockedReason_eq_none]
  rintro ⟨network, hmem, hhas⟩
  simp only [blockedNetworks, List.mem_cons, List.not_mem_nil, or_false] at hmem
  rcases hmem with rfl | rfl | rfl | rfl | rfl | rfl | rfl | rfl
  · cases hhas
  · rw [hhigh _ _ (by decide) (by decide)] at hhas
    cases hhas
  · cases hhas
  · cases hhas
  · rw [hhigh _ _ (by decide) (by decide)] at hhas
    cases hhas
  · cases hhas
  · rw [hzero] at hhas
    cases hhas
  · cases hhas

theorem firstBlocked_eq_none : ∀ {found : List Address},
    firstBlocked found = none ↔ ∀ address ∈ found, blockedReason address = none
  | [] => iff_of_true rfl fun _ h => absurd h List.not_mem_nil
  | address :: rest => by
    rw [firstBlocked]
    cases hreason : blockedReason address with
    | some network =>
      refine iff_of_false (by simp) fun h => ?_
      rw [h address (List.mem_cons_self ..)] at hreason
      cases hreason
    | none =>
      simp only [List.mem_cons, forall_eq_or_imp, hreason, true_and]
      exact firstBlocked_eq_none

variable {parser} {resolve : Resolver} {url : String} {allowedHosts : List String}

theorem checkOutboundUrl_ok {returned : String} :
    checkOutboundUrl parser resolve url allowedHosts = .ok returned ↔
      ∃ parsed host found, checkHost parser url allowedHosts = .ok (parsed, host) ∧ addresses resolve host = .ok found ∧
        (∀ address ∈ found, blockedReason address = none) ∧ returned = parser.text parsed := by
  unfold checkOutboundUrl
  cases hcheck : checkHost parser url allowedHosts with
  | error why => exact iff_of_false (fun h => by cases h) fun ⟨_, _, _, h, _⟩ => by cases h
  | ok checked =>
    obtain ⟨parsed, host⟩ := checked
    cases hfound : addresses resolve host with
    | error why =>
      refine iff_of_false (fun h => ?_) fun ⟨_, _, _, h, h', _⟩ => ?_
      · simp only [bind, Except.bind, hfound] at h
        cases h
      · cases h
        rw [hfound] at h'
        cases h'
    | ok found =>
      simp only [bind, Except.bind, hfound]
      cases hblocked : firstBlocked found with
      | some refused =>
        refine iff_of_false (fun h => by cases h) fun ⟨_, _, found', h, h', hnone, _⟩ => ?_
        cases h
        rw [hfound] at h'
        cases h'
        rw [firstBlocked_eq_none.2 hnone] at hblocked
        cases hblocked
      | none =>
        constructor
        · intro h
          exact ⟨parsed, host, found, rfl, hfound, firstBlocked_eq_none.1 hblocked, (Except.ok.inj h).symm⟩
        · rintro ⟨parsed', host', found', h, -, -, rfl⟩
          cases h
          rfl

theorem checkHost_host {parsed : υ} {host : String} (h : checkHost parser url allowedHosts = .ok (parsed, host)) :
    parser.validate (Text.strip url) = .ok parsed ∧ host = (parser.host parsed).getD "" := by
  unfold checkHost at h
  cases hparse : parser.validate (Text.strip url) with
  | error why =>
    rw [hparse] at h
    cases h
  | ok parsed' =>
    rw [hparse] at h
    simp only at h
    split at h
    · cases h
    · split at h
      · cases h
      · split at h
        · cases h
        · cases h
          exact ⟨rfl, rfl⟩

/-- What the host leads to is what was found, and an IPv6 literal that was asked about in its brackets. -/
theorem mem_targets {host : String} {found : List Address} (hfound : addresses resolve host = .ok found)
    {address : Address} : address ∈ targets resolve host ↔
      address ∈ found ∨ ipAddress host = none ∧ bracketed host = some address := by
  unfold addresses at hfound
  unfold targets
  cases hliteral : ipAddress host with
  | some literal =>
    rw [hliteral] at hfound
    cases hfound
    simp
  | none =>
    rw [hliteral] at hfound
    cases hinfos : resolve host with
    | none =>
      rw [hinfos] at hfound
      cases hfound
    | some infos =>
      rw [hinfos] at hfound
      simp only at hfound
      split at hfound
      · cases hfound
      · cases hfound
        simp only [List.mem_append, Option.mem_toList, Option.getD_some, true_and]
        exact or_comm

/-- The guard keeps a URL from all that is forbidden exactly if nothing of it is unseen. -/
theorem safe_iff_nothingUnseen (parser : UrlParser υ) (resolve : Resolver) (url : String) (allowedHosts : List String) :
    Safe parser resolve url allowedHosts ↔ NothingUnseen parser resolve url allowedHosts := by
  constructor
  · intro hsafe parsed host found hcheck hfound hnone
    obtain ⟨parsed', host', hcheck', -, hkept⟩ :=
      hsafe _ (checkOutboundUrl_ok.2 ⟨parsed, host, found, hcheck, hfound, hnone, rfl⟩)
    rw [hcheck] at hcheck'
    cases hcheck'
    refine ⟨fun address hmem value hvalue => ?_, fun hliteral address hbracketed => ?_⟩
    · rw [blockedReason_eq_none]
      exact fun hblocked => hkept address ((mem_targets hfound).2 (.inl hmem)) (.inr ⟨value, hvalue, hblocked⟩)
    · exact hkept address ((mem_targets hfound).2 (.inr ⟨hliteral, hbracketed⟩))
  · intro hseen returned hreturned
    obtain ⟨parsed, host, found, hcheck, hfound, hnone, rfl⟩ := checkOutboundUrl_ok.1 hreturned
    obtain ⟨hmaps, hbracketed⟩ := hseen parsed host found hcheck hfound hnone
    obtain ⟨hparse, hhost⟩ := checkHost_host hcheck
    refine ⟨parsed, host, hcheck, ⟨parsed, parser.validate_text hparse, hhost.symm⟩, fun address hmem => ?_⟩
    rcases (mem_targets hfound).1 hmem with hmem | ⟨hliteral, hbracket⟩
    · rintro (hblocked | ⟨value, hvalue, hblocked⟩)
      · exact blockedReason_eq_none.1 (hnone address hmem) hblocked
      · exact blockedReason_eq_none.1 (hmaps address hmem value hvalue) hblocked
    · exact hbracketed hliteral address hbracket

/-- URLs of the form `http://host/`. -/
def hostUrls : UrlParser String where
  validate s :=
    match s.toList with
    | 'h' :: 't' :: 't' :: 'p' :: ':' :: '/' :: '/' :: rest =>
      if rest.getLast? = some '/' then .ok (String.ofList rest.dropLast) else .error "url_parsing"
    | _ => .error "url_scheme"
  username _ := none
  password _ := none
  host u := some u
  port _ := some 80
  text u := String.ofList ("http://".toList ++ u.toList ++ ['/'])
  validate_text {_ u} _ := by
    simp

/-- A name that resolves to the IPv6 spelling of the cloud metadata address is let through. -/
theorem metadataSpelled_not_safe :
    ¬ Safe hostUrls (fun _ => some ["::ffff:169.254.169.254"]) "http://intranet/" [] := by
  intro hsafe
  have hfound : addresses (fun _ => some ["::ffff:169.254.169.254"]) "intranet" =
      .ok [.v6 (mapped 0xa9fea9fe#32) none] := by decide
  obtain ⟨parsed, host, hcheck, -, hkept⟩ := hsafe (hostUrls.text "intranet") (checkOutboundUrl_ok.2
    ⟨"intranet", "intranet", _, by decide, hfound,
      fun address hmem => by rw [List.mem_singleton.1 hmem]; exact blockedReason_mapped _ _, rfl⟩)
  have hhost : checkHost hostUrls "http://intranet/" [] = .ok ("intranet", "intranet") := by decide
  rw [hhost] at hcheck
  cases hcheck
  refine hkept _ ((mem_targets hfound).2 (.inl (List.mem_singleton_self _))) (.inr ⟨_, ipv4Mapped_mapped _ _, ?_⟩)
  exact ⟨.v4 0xa9fe0000#32 16, List.mem_cons_self .., by decide⟩

end OpenFish.Outbound
