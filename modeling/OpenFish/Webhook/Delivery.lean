/-
The webhook route, with the table of the deliveries that were accepted: a request looks its body's digest up, finds its
repository, claims the digest and only then acts, while other requests do the same. The database may fail any of these steps:
then nothing was seen and the claim is let through. Of the requests with one body that were not let through like that, one acts
at most.
-/
import OpenFish.Lib.Interleave
import OpenFish.Webhook.Event

namespace OpenFish.Webhook

open Lib

/-! ## The database -/

/-- A row of `repos`, as far as a webhook reads it. -/
structure Repo where
  id : Nat
  slug : String
  forgejoRepo : Option String := none
  /-- `none` where the policy was never read. -/
  autoReview : Option Bool := none
  curator : Option String := none
  deriving DecidableEq, Repr

/-- A row of `webhook_deliveries`. -/
structure WebhookDelivery where
  deliveryKey : String
  repoId : Nat
  event : String
  deriving DecidableEq, Repr

structure Database where
  repos : List Repo
  /-- `none` where the database predates the table. -/
  deliveries : Option (List WebhookDelivery)
  deriving DecidableEq, Repr

/-- What the deployment supplies. -/
structure Deployment where
  secret : String
  /-- The hexadecimal HMAC-SHA256. -/
  computeSignature : String → Body → String
  /-- `json.loads` of the decoded body, or why it fails. -/
  loads : Body → Except String Json
  /-- `str` of a value that is no string. -/
  render : Json → String
  /-- The SHA-256 of the body. -/
  digest : Body → String

/-- `delivery_seen`: without the table, or if the database fails the look-up, nothing was seen. -/
def deliverySeen (db : Database) (key : String) (fault : Bool) : Bool :=
  match db.deliveries with
  | none => false
  | some rows => !fault && rows.any fun row => row.deliveryKey = key

/-- `resolve_repo`: the one row that has one of the names. -/
def resolveRepo (repos : List Repo) (event : WebhookEvent) : Option Repo :=
  let candidates := [event.forgejoRepo, event.repoSlug].filter (· ≠ "")
  let found := (candidates.flatMap fun value => (repos.filter fun row => row.forgejoRepo = some value).take 2) ++
    candidates.flatMap fun value => (repos.filter fun row => row.slug = value).take 2
  match found with
  | [] => none
  | row :: rest => if rest.all fun other => other.id = row.id then some row else none

/-- `claim_delivery`: the insert that the unique key refuses for a copy. Without the table every delivery is claimed, and so it
is, without a row, where the database fails the insert or its commit. -/
def claimDelivery (db : Database) (key : String) (repoId : Nat) (event : String) (fault : Bool) : Bool × Database :=
  match db.deliveries with
  | none => (true, db)
  | some rows =>
    if fault then (true, db)
    else if rows.any fun row => row.deliveryKey = key then (false, db)
    else (true, { db with deliveries := some (rows ++ [⟨key, repoId, event⟩]) })

/-! ## The route -/

/-- What a request does beyond the deliveries. -/
inductive Effect
  | enqueueTask (action : QueuedAction)
  | backfillPrUrl (repoId : Nat) (number : Int) (url : String)

inductive Response
  | refused (status : Nat) (error description : String)
  | duplicate
  | unknownRepository
  | accepted (handled : Bool) (note : Option String)
  /-- What was raised is answered by the application, with 500. -/
  | raised
  deriving DecidableEq, Repr

inductive Stage
  | arrived
  | unseen
  | resolved (repo : Repo)
  | claimed (repo : Repo)
  | acting (repo : Repo) (todo : List Effect)
  | answered (response : Response)

structure Request where
  body : Body
  event : WebhookEvent
  stage : Stage
  /-- Its claim was let through by a database that failed it. -/
  letThrough : Bool := false
  /-- The side effects that it had, the latest last. -/
  ran : List Effect := []

/-- `_repo_curator_policy`, its mode. -/
def curatorMode (repo : Repo) : String :=
  match repo.curator with
  | some mode => if mode ∈ ["off", "bootstrap", "auto"] then mode else "bootstrap"
  | none => "bootstrap"

/-- The tasks that are queued and the findings that are updated. -/
def effects (render : Json → String) (event : WebhookEvent) (repo : Repo) (curatorAllowed : Bool) : List Effect :=
  (planActions render event repo.id (repo.autoReview.getD true) (curatorMode repo)
      (if event.kind = .push ∧ event.isDefaultBranch then curatorAllowed else true)).map .enqueueTask ++
    if event.kind = .pullRequest ∧ event.merged then [.backfillPrUrl repo.id (event.prNumber.getD 0) event.prUrl] else []

/-- The answer once all is done. -/
def answer (event : WebhookEvent) (ran : List Effect) : Response :=
  if event.kind = .push ∧ event.isDefaultBranch = false then .accepted false (some "push 目标不是默认分支，未入队")
  else if ran.isEmpty then .accepted false (some "事件已接受，但没有匹配的动作")
  else .accepted true none

def eventHeaders : List String := ["X-Forgejo-Event", "X-Gitea-Event", "X-GitHub-Event"]

/-- `forgejo_webhook`, up to its first look at the database. -/
def receive (d : Deployment) (body : Body) (headers : Headers) : Request :=
  let event payload := parseEvent d.render ((firstHeader eventHeaders headers).getD "") payload
  if verifySignature d.computeSignature d.secret body (signatureHeader headers) = false then
    { body, event := event [], stage := .answered (.refused 401 "invalid_signature" "webhook 签名校验失败") }
  else
    match if body = [] then .ok (.obj []) else d.loads body with
    | .error why =>
      { body, event := event [],
        stage := .answered (.refused 400 "invalid_payload" ("webhook 请求体不是合法 JSON：" ++ why)) }
    | .ok payload =>
      match payload.entries? with
      | none =>
        { body, event := event [],
          stage := .answered (.refused 400 "invalid_payload" "webhook 请求体必须是 JSON 对象") }
      | some entries => { body, event := event entries, stage := .arrived }

/-- What a step is answered: by `curator_enqueue_allowed`, and whether the database fails it. -/
structure Reply where
  curatorAllowed : Bool := true
  fault : Bool := false
  deriving DecidableEq, Repr

/-- The next step of `forgejo_webhook`. -/
def proceed (d : Deployment) (db : Database) (request : Request) (reply : Reply) : Database × Request :=
  match request.stage with
  | .arrived =>
    if deliverySeen db (d.digest request.body) reply.fault then (db, { request with stage := .answered .duplicate })
    else (db, { request with stage := .unseen })
  | .unseen =>
    if reply.fault then (db, { request with stage := .answered .raised })
    else
      match resolveRepo db.repos request.event with
      | none => (db, { request with stage := .answered .unknownRepository })
      | some repo => (db, { request with stage := .resolved repo })
  | .resolved repo =>
    match claimDelivery db (d.digest request.body) repo.id request.event.kind.name reply.fault with
    | (false, db') => (db', { request with stage := .answered .duplicate })
    | (true, db') => (db', { request with stage := .claimed repo, letThrough := reply.fault })
  | .claimed repo =>
    (db, { request with stage := .acting repo (effects d.render request.event repo reply.curatorAllowed) })
  | .acting repo (effect :: todo) => (db, { request with stage := .acting repo todo, ran := request.ran ++ [effect] })
  | .acting _ [] => (db, { request with stage := .answered (answer request.event request.ran) })
  | .answered _ => (db, request)

/-- Any number of requests, while the imports make the repositories what they please. -/
def webhook (d : Deployment) (repos : List Repo) (deliveries : Option (List WebhookDelivery)) :
    Program Database Request (Body × Headers) Reply (List Repo) where
  start := ⟨repos, deliveries⟩
  enter _ arrival := receive d arrival.1 arrival.2
  step := proceed d
  other db repos := { db with repos }

/-! ## At most once -/

/-- The request has claimed its delivery, with a row. -/
def Request.won (request : Request) : Bool :=
  !request.letThrough &&
    match request.stage with
    | .claimed _ | .acting .. | .answered (.accepted ..) => true
    | _ => false

/-- A step that leaves the deliveries as they are. -/
structure Quiet (db : Database) (request request' : Request) : Prop where
  body : request'.body = request.body
  event : request'.event = request.event
  won : request'.won = request.won
  ran : request'.ran ≠ [] → request'.letThrough = false → request.letThrough = false ∧ (request.ran ≠ [] ∨ request.won = true)
  resolved : ∀ repo, request'.stage = .resolved repo → resolveRepo db.repos request.event = some repo

/-- A step that records the delivery, which nobody had recorded. -/
structure Claims (d : Deployment) (rows : List WebhookDelivery) (db : Database) (request : Request) (repo : Repo)
    (db' : Database) (request' : Request) : Prop where
  resolved : request.stage = .resolved repo
  fresh : ∀ row ∈ rows, row.deliveryKey ≠ d.digest request.body
  db : db' = { db with deliveries := some (rows ++ [⟨d.digest request.body, repo.id, request.event.kind.name⟩]) }
  request : request' = { request with stage := .claimed repo, letThrough := false }

theorem answer_accepted (event : WebhookEvent) (ran : List Effect) :
    ∃ handled note, answer event ran = .accepted handled note := by
  unfold answer
  split
  · exact ⟨_, _, rfl⟩
  · split
    · exact ⟨_, _, rfl⟩
    · exact ⟨_, _, rfl⟩

theorem proceed_cases {d : Deployment} {db : Database} {rows : List WebhookDelivery} (hdb : db.deliveries = some rows)
    (request : Request) (reply : Reply) :
    (proceed d db request reply).1 = db ∧ Quiet db request (proceed d db request reply).2 ∨
      ∃ repo, Claims d rows db request repo (proceed d db request reply).1 (proceed d db request reply).2 := by
  obtain ⟨body, event, stage, letThrough, ran⟩ := request
  have hsame {request' : Request} (hlet : request'.letThrough = letThrough) (heq : request'.ran = ran) :
      request'.ran ≠ [] → request'.letThrough = false →
        letThrough = false ∧ (ran ≠ [] ∨ Request.won ⟨body, event, stage, letThrough, ran⟩ = true) :=
    fun hne hfalse => ⟨hlet ▸ hfalse, .inl (heq ▸ hne)⟩
  cases stage with
  | arrived =>
    left
    simp only [proceed]
    split
    · exact ⟨rfl, rfl, rfl, rfl, hsame rfl rfl, fun _ h => by cases h⟩
    · exact ⟨rfl, rfl, rfl, rfl, hsame rfl rfl, fun _ h => by cases h⟩
  | unseen =>
    left
    simp only [proceed]
    split
    · exact ⟨rfl, rfl, rfl, rfl, hsame rfl rfl, fun _ h => by cases h⟩
    · split
      · exact ⟨rfl, rfl, rfl, rfl, hsame rfl rfl, fun _ h => by cases h⟩
      · rename_i repo hrepo
        refine ⟨rfl, rfl, rfl, rfl, hsame rfl rfl, fun repo' h => ?_⟩
        cases h
        exact hrepo
  | resolved repo =>
    obtain ⟨allowed, fault⟩ := reply
    simp only [proceed, claimDelivery, hdb]
    cases fault with
    | true =>
      -- the claim fails open
      refine .inl ⟨rfl, rfl, rfl, ?_, fun _ hlet => (by cases hlet), fun _ h => by cases h⟩
      cases letThrough <;> rfl
    | false =>
      by_cases hseen : rows.any fun row => row.deliveryKey = d.digest body
      · rw [if_neg Bool.false_ne_true, if_pos hseen]
        exact .inl ⟨rfl, rfl, rfl, rfl, hsame rfl rfl, fun _ h => by cases h⟩
      · rw [if_neg Bool.false_ne_true, if_neg hseen]
        refine .inr ⟨repo, rfl, fun row hrow heq => hseen ?_, rfl, rfl⟩
        exact List.any_eq_true.2 ⟨row, hrow, decide_eq_true heq⟩
  | claimed repo => exact .inl ⟨rfl, rfl, rfl, rfl, hsame rfl rfl, fun _ h => by cases h⟩
  | acting repo todo =>
    left
    cases todo with
    | nil =>
      obtain ⟨handled, note, hanswer⟩ := answer_accepted event ran
      refine ⟨rfl, rfl, rfl, ?_, hsame rfl rfl, fun _ h => by cases h⟩
      simp only [proceed, Request.won, hanswer]
    | cons effect todo =>
      refine ⟨rfl, rfl, rfl, rfl, fun _ hlet => ⟨hlet, .inr ?_⟩, fun _ h => by cases h⟩
      rw [Request.won, show letThrough = false from hlet]
      rfl
  | answered response => exact .inl ⟨rfl, rfl, rfl, rfl, hsame rfl rfl, fun _ h => by cases h⟩

/-- A request that arrives has claimed nothing and done nothing. -/
theorem receive_fresh (d : Deployment) (body : Body) (headers : Headers) :
    (receive d body headers).won = false ∧ (receive d body headers).ran = [] ∧
      ∀ repo, (receive d body headers).stage ≠ .resolved repo := by
  simp only [receive]
  split
  · exact ⟨rfl, rfl, fun _ h => by cases h⟩
  · split
    · exact ⟨rfl, rfl, fun _ h => by cases h⟩
    · split
      · exact ⟨rfl, rfl, fun _ h => by cases h⟩
      · exact ⟨rfl, rfl, fun _ h => by cases h⟩

section runs

variable (d : Deployment) (repos : List Repo) (accepted : List WebhookDelivery)

/-- The webhook with a table of deliveries. -/
abbrev route : Machine (Scene Database Request) (Move (Body × Headers) Reply (List Repo)) Unit :=
  (webhook d repos (some accepted)).machine

/-- At some moment of the run the event's repository was known, and this one. -/
def KnownAs (moves : List (Move (Body × Headers) Reply (List Repo))) (event : WebhookEvent) (repo : Repo) : Prop :=
  ∃ earlier, earlier <:+ moves ∧ resolveRepo ((route d repos accepted).state earlier).shared.repos event = some repo

/-- What holds after a run of the webhook. -/
structure Once (moves : List (Move (Body × Headers) Reply (List Repo))) (rows : List WebhookDelivery)
    (s : Scene Database Request) : Prop where
  table : s.shared.deliveries = some rows
  key : ∀ {i : ℕ} {r : Request}, s.calls[i]? = some r → r.won = true → ∃ row ∈ rows, row.deliveryKey = d.digest r.body
  unique : ∀ {i j : ℕ} {r r' : Request}, s.calls[i]? = some r → s.calls[j]? = some r' → r.won = true → r'.won = true →
    r.body = r'.body → i = j
  ran : ∀ {i : ℕ} {r : Request}, s.calls[i]? = some r → r.ran ≠ [] → r.letThrough = false → r.won = true
  resolved : ∀ {i : ℕ} {r : Request} {repo : Repo}, s.calls[i]? = some r → r.stage = .resolved repo →
    KnownAs d repos accepted moves r.event repo
  known : ∀ row ∈ rows, row ∈ accepted ∨ ∃ (i : ℕ) (r : Request) (repo : Repo), s.calls[i]? = some r ∧
    d.digest r.body = row.deliveryKey ∧ row.repoId = repo.id ∧ KnownAs d repos accepted moves r.event repo

end runs

section rules

variable {d : Deployment} {repos : List Repo} {accepted : List WebhookDelivery}
  {moves : List (Move (Body × Headers) Reply (List Repo))} {rows : List WebhookDelivery} {s : Scene Database Request}

theorem KnownAs.cons {event : WebhookEvent} {repo : Repo} (h : KnownAs d repos accepted moves event repo)
    (move : Move (Body × Headers) Reply (List Repo)) : KnownAs d repos accepted (move :: moves) event repo :=
  let ⟨earlier, hsuffix, hrepo⟩ := h
  ⟨earlier, hsuffix.trans (List.suffix_cons ..), hrepo⟩

/-- A row of the table stays known when the calls go on with the same bodies and events. -/
theorem Once.known_cons (h : Once d repos accepted moves rows s) (move : Move (Body × Headers) Reply (List Repo))
    {calls : List Request} (hcalls : ∀ {i : ℕ} {r : Request}, s.calls[i]? = some r →
      ∃ r', calls[i]? = some r' ∧ r'.body = r.body ∧ r'.event = r.event) :
    ∀ row ∈ rows, row ∈ accepted ∨ ∃ (i : ℕ) (r : Request) (repo : Repo), calls[i]? = some r ∧
      d.digest r.body = row.deliveryKey ∧ row.repoId = repo.id ∧ KnownAs d repos accepted (move :: moves) r.event repo := by
  intro row hrow
  rcases h.known row hrow with hold | ⟨i, r, repo, hi, hkey, hid, hknown⟩
  · exact .inl hold
  · obtain ⟨r', hi', hbody, hevent⟩ := hcalls hi
    exact .inr ⟨i, r', repo, hi', hbody ▸ hkey, hid, hevent ▸ hknown.cons move⟩

theorem Once.begin (h : Once d repos accepted moves rows s) (arrival : Body × Headers) :
    Once d repos accepted (.begin arrival :: moves) rows ((webhook d repos (some accepted)).next s (.begin arrival)) := by
  have hcalls {i : ℕ} {r : Request}
      (hi : ((webhook d repos (some accepted)).next s (.begin arrival)).calls[i]? = some r) :
      (r.won = false ∧ r.ran = [] ∧ ∀ repo, r.stage ≠ .resolved repo) ∨ s.calls[i]? = some r := by
    rcases getElem?_append_cases hi with ⟨-, rfl⟩ | hi
    · exact .inl (receive_fresh d arrival.1 arrival.2)
    · exact .inr hi
  have hwon {i : ℕ} {r : Request}
      (hi : ((webhook d repos (some accepted)).next s (.begin arrival)).calls[i]? = some r) (hr : r.won = true) :
      s.calls[i]? = some r := by
    rcases hcalls hi with ⟨hfresh, -⟩ | hi
    · rw [hfresh] at hr
      cases hr
    · exact hi
  constructor
  · exact h.table
  · exact fun hi hr => h.key (hwon hi hr) hr
  · exact fun hi hj hr hr' hbody => h.unique (hwon hi hr) (hwon hj hr') hr hr' hbody
  · intro i r hi hr
    rcases hcalls hi with ⟨-, hran, -⟩ | hi
    · exact absurd hran hr
    · exact h.ran hi hr
  · intro i r repo hi hr
    rcases hcalls hi with ⟨-, -, hstage⟩ | hi
    · exact absurd hr (hstage repo)
    · exact (h.resolved hi hr).cons _
  · refine h.known_cons _ fun {i r} hi => ⟨r, ?_, rfl, rfl⟩
    exact (List.getElem?_append_left (List.getElem?_eq_some_iff.1 hi).1).trans hi

theorem Once.other (h : Once d repos accepted moves rows s) (repos' : List Repo) :
    Once d repos accepted (.other repos' :: moves) rows ((webhook d repos (some accepted)).next s (.other repos')) where
  table := h.table
  key := h.key
  unique := h.unique
  ran := h.ran
  resolved hi hr := (h.resolved hi hr).cons _
  known := h.known_cons _ fun {_ r} hi => ⟨r, hi, rfl, rfl⟩

/-- A step of one request that leaves the deliveries. -/
theorem Once.quiet (h : Once d repos accepted moves rows s) {i : ℕ} {r r' : Request} (hi : s.calls[i]? = some r)
    (hquiet : Quiet s.shared r r') (hmoves : s = (route d repos accepted).state moves)
    (move : Move (Body × Headers) Reply (List Repo)) :
    Once d repos accepted (move :: moves) rows ⟨s.shared, s.calls.set i r'⟩ := by
  -- a request that has claimed had claimed before, with the same body
  have hwon {j : ℕ} {r₁ : Request} (hj : (s.calls.set i r')[j]? = some r₁) (hr₁ : r₁.won = true) :
      ∃ r₀, s.calls[j]? = some r₀ ∧ r₀.won = true ∧ r₀.body = r₁.body := by
    rcases getElem?_set_cases hj with ⟨rfl, rfl⟩ | ⟨-, hj⟩
    · exact ⟨r, hi, hquiet.won ▸ hr₁, hquiet.body.symm⟩
    · exact ⟨r₁, hj, hr₁, rfl⟩
  constructor
  · exact h.table
  · intro j r₁ hj hr₁
    obtain ⟨r₀, hj₀, hr₀, hbody⟩ := hwon hj hr₁
    exact hbody ▸ h.key hj₀ hr₀
  · intro j k r₁ r₂ hj hk hr₁ hr₂ hsame
    obtain ⟨r₀, hj₀, hr₀, hbody⟩ := hwon hj hr₁
    obtain ⟨r₀', hk₀, hr₀', hbody'⟩ := hwon hk hr₂
    exact h.unique hj₀ hk₀ hr₀ hr₀' (hbody.trans (hsame.trans hbody'.symm))
  · intro j r₁ hj hr₁ hlet
    rcases getElem?_set_cases hj with ⟨rfl, rfl⟩ | ⟨-, hj⟩
    · rw [hquiet.won]
      obtain ⟨hlet', hran⟩ := hquiet.ran hr₁ hlet
      exact hran.elim (fun hne => h.ran hi hne hlet') id
    · exact h.ran hj hr₁ hlet
  · intro j r₁ repo hj hr₁
    rcases getElem?_set_cases hj with ⟨rfl, rfl⟩ | ⟨-, hj⟩
    · rw [hquiet.event]
      refine ⟨moves, List.suffix_cons .., ?_⟩
      rw [← hmoves]
      exact hquiet.resolved repo hr₁
    · exact (h.resolved hj hr₁).cons _
  · refine h.known_cons _ fun {j r₀} hj => ?_
    by_cases hij : i = j
    · subst hij
      rw [hi] at hj
      cases hj
      exact ⟨r', List.getElem?_set_self (List.getElem?_eq_some_iff.1 hi).1, hquiet.body, hquiet.event⟩
    · exact ⟨r₀, (List.getElem?_set_ne hij).trans hj, rfl, rfl⟩

/-- A step of one request that claims its delivery. -/
theorem Once.claims (h : Once d repos accepted moves rows s) {i : ℕ} {r r' : Request} (hi : s.calls[i]? = some r)
    {repo : Repo} {db' : Database} (hclaims : Claims d rows s.shared r repo db' r')
    (move : Move (Body × Headers) Reply (List Repo)) :
    Once d repos accepted (move :: moves) (rows ++ [⟨d.digest r.body, repo.id, r.event.kind.name⟩])
      ⟨db', s.calls.set i r'⟩ := by
  obtain ⟨hresolved, hfresh, rfl, rfl⟩ := hclaims
  -- nobody else has claimed a delivery with this body: its digest was not in the table
  have hother {j : ℕ} {r₁ : Request} (hj : s.calls[j]? = some r₁) (hr₁ : r₁.won = true) : r₁.body ≠ r.body := by
    intro hbody
    obtain ⟨row, hrow, hkey⟩ := h.key hj hr₁
    exact hfresh row hrow (hkey.trans (congrArg d.digest hbody))
  constructor
  · rfl
  · intro j r₁ hj hr₁
    rcases getElem?_set_cases hj with ⟨rfl, rfl⟩ | ⟨-, hj⟩
    · exact ⟨_, List.mem_append_right _ (List.mem_singleton_self _), rfl⟩
    · obtain ⟨row, hrow, hkey⟩ := h.key hj hr₁
      exact ⟨row, List.mem_append_left _ hrow, hkey⟩
  · intro j k r₁ r₂ hj hk hr₁ hr₂ hsame
    rcases getElem?_set_cases hj with ⟨hji, hrj⟩ | ⟨-, hj'⟩
    · rcases getElem?_set_cases hk with ⟨hki, -⟩ | ⟨-, hk'⟩
      · exact hji.trans hki.symm
      · rw [hrj] at hsame
        exact absurd hsame.symm (hother hk' hr₂)
    · rcases getElem?_set_cases hk with ⟨-, hrk⟩ | ⟨-, hk'⟩
      · rw [hrk] at hsame
        exact absurd hsame (hother hj' hr₁)
      · exact h.unique hj' hk' hr₁ hr₂ hsame
  · intro j r₁ hj hr₁ hlet
    rcases getElem?_set_cases hj with ⟨rfl, rfl⟩ | ⟨-, hj⟩
    · rfl
    · exact h.ran hj hr₁ hlet
  · intro j r₁ repo' hj hr₁
    rcases getElem?_set_cases hj with ⟨rfl, rfl⟩ | ⟨-, hj⟩
    · cases hr₁
    · exact (h.resolved hj hr₁).cons _
  · intro row hrow
    have hcalls {j : ℕ} {r₀ : Request} (hj : s.calls[j]? = some r₀) :
        ∃ r₁, (s.calls.set i { r with stage := .claimed repo, letThrough := false })[j]? = some r₁ ∧ r₁.body = r₀.body ∧
          r₁.event = r₀.event := by
      by_cases hij : i = j
      · subst hij
        rw [hi] at hj
        cases hj
        exact ⟨_, List.getElem?_set_self (List.getElem?_eq_some_iff.1 hi).1, rfl, rfl⟩
      · exact ⟨r₀, (List.getElem?_set_ne hij).trans hj, rfl, rfl⟩
    rcases List.mem_append.1 hrow with hrow | hrow
    · exact h.known_cons _ hcalls row hrow
    · rw [List.mem_singleton.1 hrow]
      obtain ⟨r₁, hi₁, hbody, hevent⟩ := hcalls hi
      exact .inr ⟨i, r₁, repo, hi₁, congrArg d.digest hbody, rfl, hevent ▸ (h.resolved hi hresolved).cons _⟩

/-- Every run of the webhook, by its moves. -/
theorem once_run (d : Deployment) (repos : List Repo) (accepted : List WebhookDelivery)
    (moves : List (Move (Body × Headers) Reply (List Repo))) :
    ∃ rows, Once d repos accepted moves rows ((route d repos accepted).state moves) := by
  induction moves with
  | nil =>
    have hnone {i : ℕ} {r : Request} (hi : ((route d repos accepted).state []).calls[i]? = some r) : False := by
      cases hi
    exact ⟨accepted, rfl, fun hi => (hnone hi).elim, fun hi => (hnone hi).elim, fun hi => (hnone hi).elim,
      fun hi => (hnone hi).elim, fun _ hrow => .inl hrow⟩
  | cons move moves ih =>
    obtain ⟨rows, h⟩ := ih
    cases move with
    | begin arrival => exact ⟨rows, h.begin arrival⟩
    | other repos' => exact ⟨rows, h.other repos'⟩
    | step i reply =>
      show ∃ rows, Once d repos accepted _ rows
        ((webhook d repos (some accepted)).next ((route d repos accepted).state moves) (.step i reply))
      cases hi : ((route d repos accepted).state moves).calls[i]? with
      | none =>
        rw [Program.next_none _ hi]
        refine ⟨rows, h.table, h.key, h.unique, h.ran, fun hj hr => (h.resolved hj hr).cons _, ?_⟩
        exact h.known_cons _ fun {_ r} hj => ⟨r, hj, rfl, rfl⟩
      | some r =>
        rw [Program.next_step _ hi]
        rcases proceed_cases (d := d) h.table r reply with ⟨hdb, hquiet⟩ | ⟨repo, hclaims⟩
        · refine ⟨rows, ?_⟩
          rw [show ((webhook d repos (some accepted)).step _ r reply).1 = _ from hdb]
          exact h.quiet hi hquiet rfl _
        · exact ⟨_, h.claims hi hclaims _⟩

end rules

/-- The side effects of a body run for one request at most. -/
def OncePerBody (s : Scene Database Request) : Prop :=
  ∀ (i j : ℕ) (r r' : Request), s.calls[i]? = some r → s.calls[j]? = some r' → r.body = r'.body → r.ran ≠ [] →
    r'.ran ≠ [] → i = j

/-- Of the requests with one body whose claims the database did not let through by failing them, the side effects run for one at
most; and a body is recorded for a request with this body that found its repository. -/
structure ActsOnce (d : Deployment) (repos : List Repo) (accepted : List WebhookDelivery)
    (moves : List (Move (Body × Headers) Reply (List Repo))) (s : Scene Database Request) : Prop where
  once : ∀ {i j : ℕ} {r r' : Request}, s.calls[i]? = some r → s.calls[j]? = some r' → r.body = r'.body →
    r.ran ≠ [] → r'.ran ≠ [] → r.letThrough = false → r'.letThrough = false → i = j
  recorded : ∃ rows, s.shared.deliveries = some rows ∧ ∀ row ∈ rows, row ∉ accepted →
    ∀ body, row.deliveryKey = d.digest body → ∃ (i : ℕ) (r : Request) (repo : Repo), s.calls[i]? = some r ∧ r.body = body ∧
      row.repoId = repo.id ∧ KnownAs d repos accepted moves r.event repo

/-- Whatever the requests, their headers, the imports and the failures of the database: a webhook delivery acts at most once, but
for the requests that such a failure lets through. -/
theorem acts_at_most_once (d : Deployment) (hdigest : Function.Injective d.digest) (repos : List Repo)
    (accepted : List WebhookDelivery) (moves : List (Move (Body × Headers) Reply (List Repo))) :
    ActsOnce d repos accepted moves ((route d repos accepted).state moves) := by
  obtain ⟨rows, h⟩ := once_run d repos accepted moves
  refine ⟨fun hi hj hbody hr hr' hlet hlet' => h.unique hi hj (h.ran hi hr hlet) (h.ran hj hr' hlet') hbody, rows,
    h.table, ?_⟩
  intro row hrow hnew body hkey
  rcases h.known row hrow with hold | ⟨i, r, repo, hi, hr, hid, hknown⟩
  · exact absurd hold hnew
  · exact ⟨i, r, repo, hi, hdigest (hr.trans hkey), hid, hknown⟩

/-- A signature, of 64 times the digit a. -/
def plainSignature : String := String.ofList (List.replicate 64 'a')

/-- The headers of a signed push. -/
def signedHeaders : Headers := fun name =>
  if name = "X-Forgejo-Signature" then some plainSignature else if name = "X-Forgejo-Event" then some "push" else none

/-- A signed push with an object for its body has arrived. -/
theorem receive_signedHeaders {d : Deployment} (hsecret : d.secret ≠ "")
    (hcompute : ∀ secret body, d.computeSignature secret body = plainSignature) {body : Body} (hbody : body ≠ [])
    {entries : List (String × Json)} (hloads : d.loads body = .ok (.obj entries)) :
    receive d body signedHeaders = { body, event := parseEvent d.render "push" entries, stage := .arrived } := by
  have hchars : plainSignature.toList = List.replicate 64 'a' := String.toList_ofList
  have hlength : plainSignature.toList.length = 64 := by rw [hchars, List.length_replicate]
  have hne : plainSignature ≠ "" := by
    intro hempty
    rw [hempty] at hlength
    exact absurd hlength (by decide)
  have hheader : signatureHeader signedHeaders = some plainSignature := by
    simp [signatureHeader, firstHeader, signedHeaders, hne]
  have hevent : firstHeader eventHeaders signedHeaders = some "push" := by
    simp [eventHeaders, firstHeader, signedHeaders]
  have hhex : ∀ c ∈ plainSignature.toList, c ∈ hexDigits := by
    intro c hc
    rw [hchars] at hc
    rw [List.eq_of_mem_replicate hc]
    decide
  have hsigned : verifySignature d.computeSignature d.secret body (signatureHeader signedHeaders) = true := by
    rw [hheader, verifySignature_hex hsecret hlength hhex]
    exact decide_eq_true (hcompute _ _)
  unfold receive
  dsimp only
  rw [hsigned, if_neg Bool.noConfusion, if_neg hbody, hloads, hevent]
  rfl

/-- A deployment whose digest is the body. -/
def plainDeployment : Deployment where
  secret := "secret"
  computeSignature _ _ := plainSignature
  loads _ := .ok (.obj [("ref", .str "refs/heads/main"), ("after", .str "c0ffee"),
    ("repository", .obj [("full_name", .str "team/app")])])
  render _ := ""
  digest body := String.ofList (body.map Char.ofUInt8)

theorem plainDeployment_digest : Function.Injective plainDeployment.digest := by
  intro body body' h
  have hchar : Function.Injective Char.ofUInt8 := fun a b hab =>
    UInt8.toNat_inj.1 (congrArg (fun c => c.val.toNat) hab)
  exact List.map_injective_iff.2 hchar (String.ofList_injective h)

/-- A signed push. -/
def signedPush : Move (Body × Headers) Reply (List Repo) := .begin ([1], signedHeaders)

/-- A step that the database takes. -/
def taken (i : ℕ) : Move (Body × Headers) Reply (List Repo) := .step i {}

/-- Two copies of a push, the second under another event header, looked up before either is claimed. -/
def twoCopies : List (Move (Body × Headers) Reply (List Repo)) :=
  [taken 1, taken 0, taken 0, taken 0, taken 0, taken 1, taken 0, taken 1, taken 0,
    .begin ([1], fun name => if name = "X-Forgejo-Signature" then some plainSignature else none),
    signedPush]

theorem acts_at_most_once_twoCopies :
    ActsOnce plainDeployment [⟨1, "team/app", none, none, none⟩] [] twoCopies
      ((route plainDeployment [⟨1, "team/app", none, none, none⟩] []).state twoCopies) :=
  acts_at_most_once plainDeployment plainDeployment_digest _ _ _

/-- Two copies of a push; the database fails the insert of the second one, which then acts as well. -/
def failedInsert : List (Move (Body × Headers) Reply (List Repo)) :=
  [taken 1, taken 0, taken 1, taken 0, .step 1 { fault := true }, taken 0, taken 1, taken 0, taken 1, taken 0] ++
    [signedPush, signedPush]

theorem failedInsert_acts_twice :
    ¬ OncePerBody ((route plainDeployment [⟨1, "team/app", none, none, none⟩] []).state failedInsert) := by
  intro honce
  have harrived : receive plainDeployment [1] signedHeaders = _ :=
    receive_signedHeaders (by decide) (fun _ _ => rfl) (List.cons_ne_nil _ _) rfl
  have hstart : (route plainDeployment [⟨1, "team/app", none, none, none⟩] []).state [signedPush, signedPush] =
      ⟨⟨[⟨1, "team/app", none, none, none⟩], some []⟩, [receive plainDeployment [1] signedHeaders,
        receive plainDeployment [1] signedHeaders]⟩ := rfl
  have hboth : ((route plainDeployment [⟨1, "team/app", none, none, none⟩] []).state failedInsert).calls.map
      (fun r => (r.body, r.ran.isEmpty)) = [([1], false), ([1], false)] := by
    rw [failedInsert, Machine.state_append, hstart, harrived]
    decide +kernel
  have hacts (i : ℕ) (hi : ([([1], false), ([1], false)] : List (Body × Bool))[i]? = some ([1], false)) :
      ∃ r, ((route plainDeployment [⟨1, "team/app", none, none, none⟩] []).state failedInsert).calls[i]? = some r ∧
        r.body = [1] ∧ r.ran ≠ [] := by
    rw [← hboth, List.getElem?_map] at hi
    obtain ⟨r, hr, heq⟩ := Option.map_eq_some_iff.1 hi
    exact ⟨r, hr, congrArg Prod.fst heq, fun hnil => by simp [hnil] at heq⟩
  obtain ⟨r, hr, hbody, hran⟩ := hacts 0 rfl
  obtain ⟨r', hr', hbody', hran'⟩ := hacts 1 rfl
  exact Nat.zero_ne_one (honce 0 1 r r' hr hr' (hbody.trans hbody'.symm) hran hran')

end OpenFish.Webhook
