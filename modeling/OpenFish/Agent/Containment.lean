/-
What a run raises. A failure of the task becomes the outcome of its run; what a run does raise is an interrupt, a name it has no
directory for, or the answer to one of the few requests it has no way to answer for.
-/
import OpenFish.Agent.Laws

namespace OpenFish.Agent

open Lib

open Gates (Assurance CheckSuite GateSummary)

/-- The requests of setting and dropping the credential and of failing the task. -/
def Request.vital : Request → Bool
  | .setModelEnv _ | .markFailed .. => true
  | _ => false

/-- The requests whose system errors are passed over. -/
def Request.passedOver : Request → Bool
  | .protectSuite .. | .protectPaths .. | .markFinished _ => true
  | _ => false

def Raised.system : Raised → Bool
  | .os .. => true
  | _ => false

variable (R : AgentRunner) (task : TaskRequest)

/-- Why a run raises an error, after what it asked. The last two are answers to the clean-up, and the run ends with them; the
same answers to the locks of a fix are failures of the task. -/
inductive Uncontained : Raised → History → Prop
  | refused {message : String} {past : History}
      (h : Queue.workdirFor R.workRoot task.taskId task.attempt = .error message) : Uncontained (.agent message) past
  | unread {parser : Option String → Except Raised PolicyView} {text : Option String} {past : History}
      (hparser : R.policyParser = some parser) (h : parser text = .error .interrupt) : Uncontained .interrupt past
  | interrupted {r : Request} {past : History} (h : ⟨r, .error .interrupt⟩ ∈ past) : Uncontained .interrupt past
  | vital {r : Request} {e : Raised} {past : History} (hvital : r.vital = true) (h : ⟨r, .error e⟩ ∈ past) : Uncontained e past
  | unlisted {suite : CheckSuite} {w : String} {e : Raised} {past : History} :
      Uncontained e (⟨.suiteProtectedPaths suite w, .error e⟩ :: past)
  | passedOver {r : Request} {e : Raised} {past : History} (hpassed : r.passedOver = true) (hsystem : e.system = false) :
      Uncontained e (⟨r, .error e⟩ :: past)

/-- It stays so, whatever is asked after it. -/
def Settled (e : Raised) (past : History) : Prop := ∀ new : History, Uncontained R task e (new ++ past)

variable {R task} {w : String} {s : Locals}

theorem Settled.vital {r : Request} {e : Raised} {past : History} (hvital : r.vital = true) (h : ⟨r, .error e⟩ ∈ past) :
    Settled R task e past := fun _ => .vital hvital (List.mem_append_right _ h)

/-! ## The body of the `try` -/

/-- Of what is raised only an interrupt goes through the handlers. -/
def Passing (R : AgentRunner) (task : TaskRequest) (e : Raised) (s : Locals) : Prop :=
  e = .interrupt → Settled R task e s.history

abbrev Contains {α : Type} (R : AgentRunner) (task : TaskRequest) (x : Program α) : Prop := Raises (Passing R task) x

variable {α : Type}

theorem contains_ask (r : Request) : Contains R task (ask R r) := fun _ =>
  wp_ask (fun _ _ => trivial) fun _ _ he _ => he ▸ .interrupted (List.mem_append_right _ (List.mem_cons_self ..))

theorem contains_agent (message : String) : Contains R task (throw (.agent message) : Program α) :=
  .throw fun _ h => by cases h

/-- A handler that lets an interrupt through. -/
theorem contains_handling {x : Program α} {h : Raised → Program α} (hx : Contains R task x)
    (hinterrupt : h .interrupt = throw .interrupt) (hh : ∀ e, e ≠ .interrupt → Contains R task (h e)) :
    Contains R task (handling x h) :=
  Raises.handling hx fun e s he => by
    by_cases hint : e = .interrupt
    · rw [hint] at he ⊢
      rw [hinterrupt]
      exact he
    · exact hh e hint s

theorem contains_raising {x : Except Raised α} (h : x ≠ .error .interrupt) : Contains R task (raising x) :=
  Raises.raising fun _ he _ hint => absurd (hint ▸ he) h

theorem contains_mapError {x : Except String α} : Contains R task (Lib.raising (x.mapError Raised.agent)) :=
  contains_raising fun h => by
    unfold Except.mapError at h
    split at h <;> cases h

theorem contains_bestEffort {x : Program Unit} (hx : Contains R task x) : Contains R task (bestEffort x) :=
  contains_handling hx rfl fun e he => by
    cases e with
    | os => exact .pure ()
    | agent | other => exact .throw fun _ h => absurd h he
    | interrupt => exact absurd rfl he

theorem contains_lockSuites (suite : CheckSuite) (readonly : Bool) : Contains R task (lockSuites R w suite readonly) :=
  .bind (.ite (contains_bestEffort (contains_ask _)) (.pure ())) fun _ => .bind (contains_ask _) fun _ =>
    .ite (contains_bestEffort (contains_ask _)) (.pure ())

theorem contains_prepareUntrusted : Contains R task (prepareUntrusted R task w) :=
  contains_handling (contains_ask _) rfl fun e he => by
    split
    · exact contains_agent _
    · exact .throw fun _ h => absurd h he

theorem contains_loadPolicy (text : Option String) : Contains R task (raising (R.loadPolicy text)) := by
  refine Raises.raising fun e he s hint => ?_
  rw [hint] at he ⊢
  unfold AgentRunner.loadPolicy at he
  split at he
  · rename_i parser hparser
    split at he
    · cases he
    · rename_i h
      exact fun _ => .unread hparser h
    · cases he
  · split at he <;> cases he

theorem contains_runAiGates (suite : CheckSuite) : Contains R task (runAiGates R w suite) := .ite (contains_ask _) (.pure _)

theorem contains_searchAll (context : ReadContext) : ∀ findings, Contains R task (searchAll R task w context findings)
  | [] => .pure _
  | _ :: rest => .bind (contains_ask _) fun _ => .bind (contains_searchAll context rest) fun _ => .pure _

theorem contains_now : Contains R task (now R) := .bind .get fun _ => .pure _

theorem contains_gather (startedAt : String) : Contains R task (R.gather task w startedAt) := by
  unfold AgentRunner.gather
  refine .bind (contains_ask _) fun _ => .bind (contains_ask _) fun _ => .bind (.modify _) fun _ => .bind (contains_ask _) fun _ => ?_
  refine .bind contains_prepareUntrusted fun _ => .bind (.modify _) fun _ => .bind (contains_ask _) fun _ => ?_
  refine .bind (contains_loadPolicy _) fun _ => .bind (contains_ask _) fun _ => .bind (.modify _) fun _ => ?_
  refine .bind (.ite (contains_lockSuites _ _) (.pure _)) fun _ => .bind (.modify _) fun _ => .bind (contains_ask _) fun _ => ?_
  refine .bind (contains_runAiGates _) fun _ => .bind (.modify _) fun _ => .bind (contains_ask _) fun _ => ?_
  refine .bind (.ite (contains_ask _) (.pure _)) fun _ => .bind (.modify _) fun _ => ?_
  refine .bind (contains_searchAll _ _) fun _ => .bind (.modify _) fun _ => ?_
  exact .bind contains_now fun _ => .pure _

/-! ## Publication -/

section proposal

variable (c : Conversions)

theorem elements_ne_interrupt (value : Json) : elements value ≠ .error .interrupt := by
  unfold elements
  split
  · split <;> exact fun h => by cases h
  · exact fun h => by cases h

theorem integer_ne_interrupt (value : Json) : c.integer value ≠ .error .interrupt := by
  have hother (name message : String) : (Except.error (.other name message) : Except Raised Int) ≠ .error .interrupt := fun h =>
    Raised.noConfusion (Except.error.inj h)
  unfold Conversions.integer
  split
  · split
    · exact fun h => by cases h
    · exact fun h => by cases h
    · split
      · exact fun h => by cases h
      · exact hother _ _
    · split
      · exact fun h => by cases h
      · exact hother _ _
    · exact hother _ _
  · exact fun h => by cases h

theorem proposal_ne_interrupt (report : List (String × Json)) (baseSha : String) :
    c.proposal report baseSha ≠ .error .interrupt := by
  have hvalidation (members : List (String × Json)) : c.validation members ≠ .error .interrupt :=
    bind_ne_error (integer_ne_interrupt c _) fun _ => bind_ne_error (integer_ne_interrupt c _) fun _ =>
      bind_ne_error (elements_ne_interrupt _) fun _ h => by cases h
  have hread (payload : List (String × Json)) : c.fromPayload payload ≠ .error .interrupt :=
    bind_ne_error (elements_ne_interrupt _) fun _ => bind_ne_error (mapM_ne_error hvalidation _) fun _ =>
      bind_ne_error (elements_ne_interrupt _) fun _ => bind_ne_error (elements_ne_interrupt _) fun _ h => by cases h
  exact bind_ne_error (integer_ne_interrupt c _) fun _ => bind_ne_error (integer_ne_interrupt c _) fun _ =>
    bind_ne_error (hread _) fun _ h => by cases h

end proposal

theorem contains_guardTaskPaths (suite : CheckSuite) : Contains R task (guardTaskPaths R task w suite) := by
  unfold guardTaskPaths adapterChangedPaths
  refine .bind (.ite (contains_ask _) (contains_agent _)) fun _ => .ite (.pure _) ?_
  exact .ite (contains_agent _) (contains_agent _)

theorem contains_publishGuard (branch : String) : Contains R task (publishGuard R branch) := by
  refine .ite (contains_handling (contains_ask _) rfl fun e he => ?_) (.pure _)
  cases e with
  | agent | os | other => exact contains_agent _
  | interrupt => exact absurd rfl he

theorem contains_deliver (p : Prepared) (branch : String) (document result : Result) (assurance : Assurance)
    (summary aiSummary : GateSummary) :
    Contains R task (R.deliver task w branch p document result assurance summary aiSummary) := by
  unfold AgentRunner.deliver
  refine .bind (contains_ask _) fun _ => .bind (contains_ask _) fun _ => .bind (contains_publishGuard branch) fun _ => ?_
  refine .bind (contains_ask _) fun _ => .bind (contains_publishGuard branch) fun _ => ?_
  refine .bind (contains_raising ?_) fun _ => .bind (contains_ask _) fun _ => .pure _
  unfold AgentRunner.pullRequest
  split
  · exact proposal_ne_interrupt _ _ _
  · exact fun h => by cases h

theorem contains_publish (p : Prepared) (document result : Result) :
    Contains R task (R.publish task w p document result) := by
  have hgreen (branch : String) : Contains R task (R.publishOnGreen task w branch p document) := by
    unfold AgentRunner.publishOnGreen revalidate
    refine .bind (contains_ask _) fun _ => .bind (contains_runAiGates _) fun _ => .bind contains_mapError fun _ => ?_
    refine .ite (.bind (contains_deliver _ _ _ _ _ _ _) fun _ => .pure _) ?_
    exact .bind (contains_ask _) fun _ => .bind .get fun _ => .pure _
  unfold AgentRunner.publish
  refine .bind contains_mapError fun _ => .bind (contains_guardTaskPaths _) fun _ => .ite (.pure _) ?_
  exact .bind (contains_ask _) fun _ => .ite (hgreen _) (.bind (contains_deliver _ _ _ _ _ _ _) fun _ => .pure _)

theorem contains_settle (published : Published) : Contains R task (R.settle task w published) := by
  unfold AgentRunner.settle AgentRunner.resultRef
  refine .bind ?_ fun _ => .bind (contains_ask _) fun _ => .bind .get fun _ => .pure _
  split
  · exact .pure _
  · exact .bind (contains_ask _) fun _ => .bind (contains_ask _) fun _ => .pure _

theorem contains_attempt (startedAt : String) : Contains R task (R.attempt task w startedAt) := by
  unfold AgentRunner.attempt AgentRunner.conclude revalidate
  refine .bind (contains_gather startedAt) fun p => ?_
  split
  · exact .bind (contains_ask _) fun _ => .bind .get fun _ => .pure _
  · refine .bind contains_mapError fun _ => .ite (.bind (contains_publish _ _ _) fun published => ?_) (contains_settle _)
    split
    · exact contains_settle _
    · exact .pure _

/-! ## The run -/

abbrev Blamed (R : AgentRunner) (task : TaskRequest) (e : Raised) (s : Locals) : Prop := Uncontained R task e s.history

/-- The last request was answered by an error. -/
def Refused (r : Request) (e : Raised) (s : Locals) : Prop := ∃ past, s.history = ⟨r, .error e⟩ :: past

theorem raises_ask (r : Request) : Raises (Refused r) (ask R r) := fun s =>
  wp_ask (fun _ _ => trivial) fun _ _ => ⟨s.history, rfl⟩

theorem blamed_dropping : Raises (Blamed R task) (ask R (.setModelEnv Dict.empty)) := fun s =>
  wp_mono (raises_ask _ s) (fun _ _ _ => trivial) fun _ _ ⟨_, h⟩ => .vital rfl (h ▸ List.mem_cons_self ..)

theorem blamed_listing (suite : CheckSuite) : Raises (Blamed R task) (ask R (.suiteProtectedPaths suite w)) := fun s =>
  wp_mono (raises_ask _ s) (fun _ _ _ => trivial) fun e s' ⟨_, h⟩ => by
    rw [Blamed, h]
    exact .unlisted

theorem blamed_bestEffort {r : Request} (h : r.passedOver = true) {x : Program Unit} (hx : Raises (Refused r) x) :
    Raises (Blamed R task) (bestEffort x) :=
  Raises.handling hx fun e s ⟨past, he⟩ => by
    cases e with
    | os => trivial
    | agent | other | interrupt =>
      rw [wp_throw, Blamed, he]
      exact .passedOver h rfl

theorem blamed_cleanUp : Raises (Blamed R task) (R.cleanUp task w) := by
  have hlock (suite : CheckSuite) (readonly : Bool) : Raises (Blamed R task) (lockSuites R w suite readonly) :=
    .bind (.ite (blamed_bestEffort rfl (raises_ask (.protectSuite w readonly))) (.pure ())) fun _ =>
      .bind (blamed_listing suite) fun paths =>
        .ite (blamed_bestEffort rfl (raises_ask (.protectPaths w paths readonly))) (.pure ())
  unfold AgentRunner.cleanUp unlockSuites
  refine .bind blamed_dropping fun _ => .bind .get fun s => .bind ?_ fun _ =>
    blamed_bestEffort rfl (raises_ask (.markFinished w))
  split
  · exact .ite (hlock _ _) (.pure ())
  · exact .pure ()

theorem settled_failing {r : Request} (h : r.vital = true) :
    Raises (fun e s => Settled R task e s.history) (ask R r) := fun s =>
  wp_mono (raises_ask r s) (fun _ _ _ => trivial) fun _ _ ⟨_, heq⟩ => .vital h (heq ▸ List.mem_cons_self ..)

theorem settled_rescue {e : Raised} (he : Passing R task e s) :
    wp (R.rescue task e) (fun _ _ => True) (fun e s => Settled R task e s.history) s := by
  have hfailed (error : String) : Raises (fun e s => Settled R task e s.history) (failedOutcome task error) :=
    .bind .get fun _ => .pure _
  unfold AgentRunner.rescue
  split
  · exact he rfl
  · exact Raises.bind (settled_failing rfl) (fun _ => hfailed _) s
  · exact Raises.bind (settled_failing rfl) (fun _ => hfailed _) s

/-- A failure of the task becomes the outcome of its run: a run raises nothing but an interrupt, a name it has no directory for,
an answer to a vital request, or the answer to the clean-up that ended it: to its listing, or to a lock or a mark and not an error
of the system. -/
theorem run_raises_only (R : AgentRunner) (task : TaskRequest) :
    wp (R.run task) (fun _ _ => True) (fun e s => Uncontained R task e s.history) {} := by
  unfold AgentRunner.run
  refine wp_then <| wp_raising (fun w _ => ?_) fun e hname => ?_
  · refine wp_then <| wp_ask (fun _ _ => ?_) fun e _ => .vital rfl (List.mem_cons_self ..)
    refine wp_then <| wp_then <| (wp_get).2 ?_
    rw [wp_pure, wp_ensuring, wp_handling]
    have hclean {s : Locals} : wp (R.cleanUp task w) (fun _ _ => True) (Blamed R task) s := blamed_cleanUp s
    refine wp_mono (contains_attempt _ _) (fun _ _ _ => hclean) fun e s he => ?_
    refine wp_mono (settled_rescue he) (fun _ _ _ => hclean) fun e s he => ?_
    refine wp_mono (wp_and hclean (wp_cleanUp (w := w))) (fun _ s' hcleaned => ?_) fun _ _ h => h.1
    obtain ⟨new, answer, heq, -⟩ := hcleaned.2
    rw [heq, ← List.singleton_append, ← List.append_assoc]
    exact he _
  · cases hname' : Queue.workdirFor R.workRoot task.taskId task.attempt with
    | ok w =>
      rw [hname'] at hname
      cases hname
    | error message =>
      rw [hname'] at hname
      exact Except.error.inj hname ▸ .refused hname'

end OpenFish.Agent
