/-
The part of `routes/repo_webhook.py` that decides what a webhook means: its signature, its event and the tasks that are
planned for it.
-/
import OpenFish.Lib.Json
import OpenFish.Lib.Text

namespace OpenFish.Webhook

open Lib

abbrev Body := List UInt8

/-- `request.headers.get`. -/
abbrev Headers := String → Option String

/-- The first header of a family that the request carries. -/
def firstHeader (names : List String) (headers : Headers) : Option String :=
  names.findSome? fun name => (headers name).filter (· ≠ "")

/-! ## Signature -/

/-- `signature_header`. -/
def signatureHeader : Headers → Option String :=
  firstHeader ["X-Forgejo-Signature", "X-Gitea-Signature", "X-Hub-Signature-256"]

/-- `verify_signature`. -/
def verifySignature (computeSignature : String → Body → String) (secret : String) (body : Body) (header : Option String) :
    Bool :=
  if secret = "" then false
  else
    match Text.partition '=' (Text.strip (header.getD "")) with
    | (candidate, none) => agrees candidate
    | (algorithm, some value) =>
      if Text.lower (Text.strip algorithm) ∈ ["sha256", "sha-256"] then agrees (Text.strip value) else false
where
  agrees (candidate : String) : Bool :=
    candidate.toList.length = 64 ∧ (Text.lower candidate).toList.all (·.toNat < 128) ∧
      computeSignature secret body = Text.lower candidate

/-- The digits that a signature is written in. -/
def hexDigits : List Char := ['0', '1', '2', '3', '4', '5', '6', '7', '8', '9', 'a', 'b', 'c', 'd', 'e', 'f']

/-- A text of 64 hexadecimal digits is compared as it stands. -/
theorem verifySignature_hex {computeSignature : String → Body → String} {secret candidate : String} {body : Body}
    (hsecret : secret ≠ "") (hlength : candidate.toList.length = 64) (hhex : ∀ c ∈ candidate.toList, c ∈ hexDigits) :
    verifySignature computeSignature secret body (some candidate) = decide (computeSignature secret body = candidate) := by
  have hdigit : hexDigits.all (fun c => !Text.isSpace c && c != '=' && decide (c.toNat < 128) &&
      decide ((if c.toNat = 0x212a then 'k' else c.toLower) = c)) = true := by decide
  have hplain : ∀ c ∈ candidate.toList, Text.isSpace c = false ∧ c ≠ '=' ∧ c.toNat < 128 ∧
      (if c.toNat = 0x212a then 'k' else c.toLower) = c := by
    intro c hc
    simpa [and_assoc] using List.all_eq_true.1 hdigit c (hhex c hc)
  have hlower : Text.lower candidate = candidate := by
    rw [Text.lower, List.map_congr_left (g := id) fun c hc => (hplain c hc).2.2.2, List.map_id, String.ofList_toList]
  have hascii : candidate.toList.all (·.toNat < 128) = true :=
    List.all_eq_true.2 fun c hc => decide_eq_true (hplain c hc).2.2.1
  have hsplit : Text.partition '=' candidate = (candidate, none) :=
    Text.partition_of_not_mem fun hc => (hplain _ hc).2.1 rfl
  unfold verifySignature
  rw [if_neg hsecret, Option.getD_some, Text.strip_of_forall fun c hc => (hplain c hc).1, hsplit]
  simp only [verifySignature.agrees, hlower, hlength, hascii, true_and]

/-! ## Events -/

inductive EventKind
  | push
  | issues
  | pullRequest
  | other
  deriving DecidableEq, Repr

def EventKind.name : EventKind → String
  | push => "push"
  | issues => "issues"
  | pullRequest => "pull_request"
  | other => "other"

abbrev Payload := List (String × Json)

structure WebhookEvent where
  kind : EventKind
  action : String := ""
  repoSlug : String := ""
  forgejoRepo : String := ""
  defaultBranch : String := ""
  ref : String := ""
  branch : String := ""
  labels : List String := []
  issueNumber : Option Int := none
  prNumber : Option Int := none
  prUrl : String := ""
  merged : Bool := false
  sender : String := ""
  commits : List Payload := []
  raw : Payload := []

def WebhookEvent.isDefaultBranch (event : WebhookEvent) : Bool :=
  event.branch ≠ "" ∧ event.defaultBranch ≠ "" ∧ event.branch = event.defaultBranch

def agentLabel : String := "agent"

def WebhookEvent.hasAgentLabel (event : WebhookEvent) : Bool := agentLabel ∈ event.labels.map Text.lower

section parse

-- Python's `str` of a value that is no string
variable (render : Json → String)

/-- A label: a dictionary with a name, or a text. -/
def labelName (item : Json) : Option String :=
  match item with
  | .obj entries => if (Json.get entries "name").truthy then some ((Json.get entries "name").text render) else none
  | .str s => if s = "" then none else some s
  | _ => none

/-- `_labels_of`. -/
def labelsOf (payload : Payload) : List String :=
  let listed := ((Json.get payload "labels").items?.getD []).filterMap (labelName render)
  (listed ++ (labelName render (Json.get payload "label")).toList).eraseDups

/-- The login of an account that is a dictionary or a text. -/
def login (node : Json) : String :=
  match node with
  | .obj entries =>
    if (Json.get entries "login").truthy then (Json.get entries "login").text render
    else (Json.get entries "username").textOr render
  | .str s => s
  | _ => ""

/-- `_repo_names`: the slug, which is the name on the forge too, and the default branch. -/
def repoNames (payload : Payload) : String × String :=
  let node := ((Json.get payload "repository").entries?.or (Json.get payload "repo").entries?).getD []
  let fullName := Text.strip ((Json.get node "full_name").textOr render)
  let owner := login render (Json.get node "owner")
  let name := (Json.get node "name").textOr render
  let slug := if fullName ≠ "" then fullName else if owner ≠ "" ∧ name ≠ "" then owner ++ "/" ++ name else ""
  (slug, if (Json.get node "default_branch").truthy then (Json.get node "default_branch").text render else "main")

def branchOf (ref : String) : String :=
  if Text.startsWith "refs/heads/" ref then String.ofList (ref.toList.drop "refs/heads/".toList.length) else ref

/-- What every kind of event has. -/
def commonEvent (payload : Payload) (kind : EventKind) : WebhookEvent where
  kind
  action := Text.lower (Text.strip ((Json.get payload "action").textOr render))
  repoSlug := (repoNames render payload).1
  forgejoRepo := (repoNames render payload).1
  defaultBranch := (repoNames render payload).2
  sender := login render (Json.get payload "sender")
  raw := payload

def pushEvent (payload : Payload) : WebhookEvent :=
  let ref := (Json.get payload "ref").textOr render
  { commonEvent render payload .push with
    action := "pushed"
    ref
    branch := branchOf ref
    commits := ((Json.get payload "commits").items?.getD []).filterMap Json.entries? }

def issuesEvent (payload : Payload) : WebhookEvent :=
  let common := commonEvent render payload .issues
  let issue := (Json.get payload "issue").entries?.getD []
  { common with
    action := if common.action = "" then "opened" else common.action
    labels := if labelsOf render issue = [] then labelsOf render payload else labelsOf render issue
    issueNumber := (Json.get issue "number").int? }

def mergedStates : List String := ["merged", "merged_and_closed"]

def pullRequestEvent (payload : Payload) : WebhookEvent :=
  let common := commonEvent render payload .pullRequest
  let pr := (Json.get payload "pull_request").entries?.getD []
  let number := if (Json.get pr "number").truthy then Json.get pr "number" else Json.get payload "number"
  let state := Text.lower ((Json.get pr "state").textOr render)
  { common with
    action := if common.action = "" then state else common.action
    issueNumber := number.int?
    prNumber := number.int?
    prUrl := if (Json.get pr "html_url").truthy then (Json.get pr "html_url").text render else (Json.get pr "url").textOr render
    merged := (Json.get pr "merged").truthy || state ∈ mergedStates
    labels := labelsOf render pr }

/-- `parse_event`. -/
def parseEvent (eventName : String) (payload : Payload) : WebhookEvent :=
  let name := Text.lower (Text.strip (Text.partition ',' eventName).1)
  if name = "push" then pushEvent render payload
  else if name ∈ ["issues", "issue"] then issuesEvent render payload
  else if name ∈ ["pull_request", "pullrequest", "pull-request"] then pullRequestEvent render payload
  else commonEvent render payload .other

/-! ## Actions -/

structure QueuedAction where
  kind : String
  repoId : Nat
  priority : Nat
  payload : List (String × Json)
  reason : String
  dedupKey : String

def priorityCurator : Nat := 4
def priorityReview : Nat := 5
def priorityFix : Nat := 8

/-- `_head_sha`. -/
def headSha (event : WebhookEvent) : String :=
  let after := Text.strip ((Json.get event.raw "after").textOr render)
  if after ≠ "" ∧ ¬ after.toList.all (· = '0') then after
  else
    (event.commits.reverse.findSome? fun commit =>
      if (Json.get commit "id").truthy then some ((Json.get commit "id").text render)
      else if (Json.get commit "sha").truthy then some ((Json.get commit "sha").text render)
      else none).getD ""

def reviewAction (event : WebhookEvent) (repoId : Nat) (sha : String) : QueuedAction where
  kind := "review"
  repoId
  priority := priorityReview
  payload := [("commit_sha", .str sha), ("branch", .str event.branch), ("trigger", .str "push"), ("sender", .str event.sender)]
  reason := "push to default branch with auto_review"
  dedupKey := sha

def checksAction (event : WebhookEvent) (repoId : Nat) (sha curatorMode : String) : QueuedAction where
  kind := "checks"
  repoId
  priority := priorityCurator
  payload := [("commit_sha", .str sha), ("branch", .str event.branch), ("trigger", .str "push"),
    ("suite_scope", .str curatorMode), ("sender", .str event.sender)]
  reason := "curator=" ++ curatorMode ++ " on push to default branch"
  dedupKey := "checks:" ++ curatorMode ++ ":" ++ sha

def fixAction (event : WebhookEvent) (repoId : Nat) : QueuedAction where
  kind := "fix"
  repoId
  priority := priorityFix
  payload := [("issue_number", (event.issueNumber.map Json.int).getD .null), ("labels", .arr (event.labels.map .str)),
    ("trigger", .str "issue-label"), ("sender", .str event.sender)]
  reason := "issue carries the agent label"
  dedupKey :=
    match event.issueNumber with
    | some number => if number ≠ 0 then "issue:" ++ toString number else ""
    | none => ""

/-- `plan_actions`, with the repository's policy. -/
def planActions (event : WebhookEvent) (repoId : Nat) (autoReview : Bool) (curatorMode : String) (curatorAllowed : Bool) :
    List QueuedAction :=
  match event.kind with
  | .push =>
    let sha := headSha render event
    if event.isDefaultBranch = false ∨ (Json.get event.raw "deleted").truthy ∨ sha = "" then []
    else
      (if autoReview then [reviewAction event repoId sha] else []) ++
        if curatorMode ∈ ["bootstrap", "auto"] ∧ curatorAllowed then [checksAction event repoId sha curatorMode] else []
  | .issues =>
    if event.hasAgentLabel = false ∨ event.action ∈ ["closed", "deleted"] then [] else [fixAction event repoId]
  | _ => []

end parse

end OpenFish.Webhook
