/-
Every run keeps to the protocol, whatever its world answers: what each part of a run asks is permitted where it asks it, and
where a part stops the task is still to be settled.
-/
import OpenFish.Agent.Protocol

namespace OpenFish.Agent

open Lib

open Gates (CheckSuite GateSummary)

variable {R : AgentRunner} {task : TaskRequest} {w : String} {s : Locals}

theorem wp_then {α β : Type} {x : Program α} {f : α → Program β} {Q : β → Locals → Prop} {E : Raised → Locals → Prop}
    (h : wp x (fun a s' => wp (f a) Q E s') E s) : wp (x >>= f) Q E s := (wp_bind x f).2 h

/-! ## Gathering -/

section gathering

/-- A program that takes no step, where only the steps matter once it stops. -/
theorem wp_asks {α : Type} {P : Request → Prop} {x : Program α} (h : Asks P x) {Q : α → Locals → Prop}
    (hQ : ∀ a s' new, s'.history = new ++ s.history → s'.steps = s.steps → Q a s') (hs : s.steps <+: steps) :
    wp x Q (fun _ s' => s'.steps <+: steps) s :=
  wp_mono (h s) (fun a s' ⟨⟨new, heq, _⟩, hsteps⟩ => hQ a s' new heq hsteps) fun _ _ ⟨_, hsteps⟩ => hsteps ▸ hs

theorem wp_prepareUntrusted {Q : Unit → Locals → Prop} (hQ : Q () (s.saw (.prepareUntrustedWorkdir w) (.ok ())))
    (hs : s.steps <+: steps) : wp (prepareUntrusted R task w) Q (fun _ s' => s'.steps <+: steps) s := by
  rw [prepareUntrusted, wp_handling]
  refine wp_ask (fun _ _ => hQ) fun e _ => ?_
  split <;> exact hs

theorem wp_take {step : Step} {Q : Unit → Locals → Prop} {E : Raised → Locals → Prop}
    (hQ : Q () { s with steps := s.steps ++ [step] }) : wp (take step) Q E s := hQ

/-- A run that gathered took all its steps, and one that stopped before took some of them in order. -/
theorem wp_gather {startedAt : String} (hs : s.history = [⟨.setModelEnv R.modelEnv, .ok ()⟩]) (hsteps : s.steps = []) :
    wp (R.gather task w startedAt) (fun p s' => Gathered R task w p s'.history ∧ s'.steps = steps)
      (fun _ s' => (∀ e ∈ s'.history, Quiet e.request) ∧ s'.steps <+: steps) s := by
  have hquiet : wp (R.gather task w startedAt) (fun _ s' => ∀ e ∈ s'.history, Quiet e.request)
      (fun _ s' => ∀ e ∈ s'.history, Quiet e.request) s := by
    have hall : ∀ s', Grew Quiet s s' → ∀ e ∈ s'.history, Quiet e.request := by
      rintro s' ⟨new, heq, hnew⟩ e he
      rw [heq, hs, List.mem_append, List.mem_singleton] at he
      rcases he with he | rfl
      · exact hnew e he
      · rfl
    exact wp_mono (grows_gather task w startedAt s) (fun _ s' => hall s') fun _ s' => hall s'
  suffices h : wp (R.gather task w startedAt)
      (fun p s' => ((∀ e ∈ s'.history, Quiet e.request) → Gathered R task w p s'.history) ∧ s'.steps = steps)
      (fun _ s' => s'.steps <+: steps) s from
    wp_mono (wp_and hquiet h) (fun _ _ h => ⟨h.2.1 h.1, h.2.2⟩) fun _ _ h => h
  -- wherever the run stops, these are the steps it has taken
  have h₀ : s.steps <+: steps := by rw [hsteps]; decide
  have h₁ : s.steps ++ [.clone] <+: steps := by rw [hsteps]; decide
  have h₂ : s.steps ++ [.clone] ++ [.read] <+: steps := by rw [hsteps]; decide
  unfold AgentRunner.gather
  refine wp_then <| wp_ask (fun _ _ => ?_) fun _ _ => h₀
  refine wp_then <| wp_ask (fun _ _ => wp_then <| wp_take ?_) fun _ _ => h₀
  refine wp_then <| wp_ask (fun _ _ => ?_) fun _ _ => h₁
  refine wp_then <| wp_prepareUntrusted (wp_then <| wp_take ?_) h₁
  refine wp_then <| wp_ask (fun context _ => ?_) fun _ _ => h₂
  refine wp_then <| wp_raising (fun policy hpolicy => ?_) fun _ _ => h₂
  refine wp_then <| wp_ask (fun pairs _ => ?_) fun _ _ => h₂
  refine wp_then <| (wp_modify _).2 ?_
  refine wp_then <| wp_asks (asks_lockForFix task w _) (fun _ s₁ locking hlocking hs₁ => wp_then <| wp_take ?_) h₂
  have h₃ : s₁.steps ++ [.gates] <+: steps := by
    rw [hs₁]
    simp only [Locals.steps_saw, hsteps]
    decide
  refine wp_then <| wp_ask (fun summary _ => ?_) fun _ _ => h₃
  refine wp_then <| wp_asks (asks_runAiGates w _) (fun aiSummary s₂ judging hjudging hs₂ => wp_then <| wp_take ?_) h₃
  have h₄ : s₂.steps ++ [.review] <+: steps := by
    rw [hs₂]
    simp only [Locals.steps_saw, hs₁, hsteps]
    decide
  refine wp_then <| wp_ask (fun raw _ => ?_) fun _ _ => h₄
  refine wp_then <| wp_asks (asks_curate task w) (fun report s₃ curating hcurating hs₃ => wp_then <| wp_take ?_) h₄
  have h₅ : s₃.steps ++ [.search] <+: steps := by
    rw [hs₃]
    simp only [Locals.steps_saw, hs₂, hs₁, hsteps]
    decide
  refine wp_then <| wp_asks (asks_searchAll task w context _) (fun enriched s₄ searching hsearching hs₄ => wp_then <| wp_take ?_) h₅
  have h₆ : s₄.steps ++ [.emit] = steps := by
    rw [hs₄]
    simp only [Locals.steps_saw, hs₃, hs₂, hs₁, hsteps]
    rfl
  refine wp_then <| wp_asks asks_now (fun finishedAt s₅ asking hasking hs₅ => ?_) ⟨[], by rw [List.append_nil]; exact h₆⟩
  refine ⟨fun hquiet => ?_, hs₅.trans h₆⟩
  -- what was asked and answered, the last first
  have hhistory : s₅.history = asking ++ (searching ++ (curating ++ (⟨.review w policy task.commitSha context task.kind, .ok raw⟩ ::
      (judging ++ (⟨.runGates w R.gateTimeout (R.freezeSuite pairs.1 task.commitSha).suite, .ok summary⟩ :: (locking ++
        [⟨.resolveSuites w policy.checks, .ok pairs⟩, ⟨.readContext w, .ok context⟩,
          ⟨.prepareUntrustedWorkdir w, .ok ()⟩, ⟨.clone w task.repoUrl task.commitSha, .ok ()⟩, ⟨.prepare w, .ok ()⟩,
          ⟨.markRunning task.taskId, .ok ()⟩, ⟨.setModelEnv R.modelEnv, .ok ()⟩])))))) := by
    rw [hasking, hsearching, hcurating]
    simp only [Locals.history_saw]
    rw [hjudging]
    simp only [Locals.history_saw]
    rw [hlocking, ← hs]
    rfl
  refine ⟨hquiet, ⟨asking ++ (searching ++ (curating ++ (⟨.review w policy task.commitSha context task.kind, .ok raw⟩ ::
    (judging ++ (⟨.runGates w R.gateTimeout (R.freezeSuite pairs.1 task.commitSha).suite, .ok summary⟩ :: locking))))), context,
    pairs, ?_, hpolicy, rfl, rfl⟩, ?_, ⟨_, rfl⟩⟩
  · rw [hhistory]
    simp only [List.append_assoc, List.cons_append]
  · rw [hhistory]
    simp only [List.mem_append, List.mem_cons, true_or, or_true]

end gathering

/-! ## Soundness -/

theorem not_settles_of_quiet {e : Event} (h : Quiet e.request) : ¬ e.settles := by
  obtain ⟨r, answer⟩ := e
  cases r <;> cases answer <;> first | exact absurd h Bool.false_ne_true | exact not_false

theorem not_settles_error (r : Request) (e : Raised) : ¬ Event.settles ⟨r, .error e⟩ := by
  cases r <;> exact not_false

theorem permitted_of_quiet {r : Request} (h : Quiet r) (past : History) : Permitted R task w past r := by
  cases r <;> first | exact absurd h Bool.false_ne_true | exact trivial

theorem lawful_of_quiet : ∀ {past : History}, (∀ e ∈ past, Quiet e.request) → Lawful R task w past
  | [], _ => trivial
  | e :: past, h => ⟨permitted_of_quiet (h e (List.mem_cons_self ..)) past,
    lawful_of_quiet fun e he => h e (List.mem_cons_of_mem _ he)⟩

theorem sound_of_quiet (h : ∀ e ∈ s.history, Quiet e.request) (hs : s.steps <+: steps) : Sound R task w s :=
  ⟨lawful_of_quiet h, fun e he => not_settles_of_quiet (h e he), hs⟩

/-- What is permitted may be asked, unless it settles the task. -/
theorem Sound.saw (h : Sound R task w s) {r : Request} (hpermitted : Permitted R task w s.history r)
    {answer : Except Raised (Answer r)} (hsettles : ¬ Event.settles ⟨r, answer⟩) : Sound R task w (s.saw r answer) :=
  ⟨⟨hpermitted, h.lawful⟩, List.forall_mem_cons.2 ⟨hsettles, h.unsettled⟩, h.ordered⟩

/-- What raises settles nothing. -/
theorem Sound.raised (h : Sound R task w s) (r : Request) (hpermitted : Permitted R task w s.history r) (e : Raised) :
    Sound R task w (s.saw r (.error e)) := h.saw hpermitted (not_settles_error r e)

/-! ## Publishing -/

section publishing

variable {p : Prepared} {branch : String} {document : Result}

theorem wp_ask_sound {r : Request} {Q : Answer r → Locals → Prop} (hs : Sound R task w s)
    (hpermitted : Permitted R task w s.history r) (hsettles : ∀ a, ¬ Event.settles ⟨r, .ok a⟩)
    (hok : ∀ a, Sound R task w (s.saw r (.ok a)) → Q a (s.saw r (.ok a))) :
    wp (ask R r) Q (fun _ s' => Sound R task w s') s :=
  wp_ask (fun a _ => hok a (hs.saw hpermitted (hsettles a))) fun e _ => hs.raised r hpermitted e

theorem wp_guardTaskPaths (hs : Sound R task w s) (h : Reached R task w p branch .drafted document s.history)
    (writes : R.writesSource task p = true) (pushable : assertPushable (some task.branchName) = .ok branch) :
    wp (guardTaskPaths R task w p.user.suite)
      (fun _ s' => Sound R task w s' ∧ s'.steps = s.steps ∧ Reached R task w p branch .cleared document s'.history)
      (fun _ s' => Sound R task w s') s := by
  unfold guardTaskPaths adapterChangedPaths
  refine wp_then <| wp_ite.2 ⟨fun _ => ?_, fun _ => hs⟩
  refine wp_ask_sound hs ⟨rfl, p, branch, document, h, writes, pushable⟩ (fun _ => not_false) fun changed hsound => ?_
  dsimp only
  refine wp_ite.2 ⟨fun hclean => ⟨hsound, rfl, .cleared h writes pushable hclean⟩, fun _ => ?_⟩
  exact wp_ite.2 ⟨fun _ => hsound, fun _ => hsound⟩

theorem wp_publishGuard (hs : Sound R task w s)
    (h : ∃ p branch document, Reached R task w p branch (.recorded true) document s.history ∨
      Reached R task w p branch .pushed document s.history) {Q : Unit → Locals → Prop}
    (hQ : ∀ s', s'.history = leaseCheck R ++ s.history → s'.steps = s.steps → Sound R task w s' → Q () s') :
    wp (publishGuard R branch) Q (fun _ s' => Sound R task w s') s := by
  unfold publishGuard
  refine wp_ite.2 ⟨fun hleased => ?_, fun hleased => hQ s (by rw [leaseCheck, if_neg hleased]; rfl) rfl hs⟩
  rw [wp_handling]
  have hasked := wp_ask_sound (Q := Q) hs (r := .publishGuard) ⟨hleased, h⟩ (fun _ => not_false) fun _ hsound =>
    hQ _ (by rw [leaseCheck, if_pos hleased]; rfl) rfl hsound
  refine wp_mono hasked (fun _ _ hq => hq) fun e s' hsound => ?_
  split
  · exact hsound
  · exact hsound
  · exact hsound

/-- What a delivery leaves: a pull request is open for the document. -/
def Delivered (R : AgentRunner) (task : TaskRequest) (w : String) (p : Prepared) (branch : String) (document : Result)
    (published : Published) (s : Locals) : Prop :=
  published.document = document ∧ published.resultRef ≠ none ∧ published.prUrl ≠ none ∧
    Reached R task w p branch .opened document s.history

theorem wp_deliver (hs : Sound R task w s) (h : Reached R task w p branch (.final true) document s.history)
    (assurance : Gates.Assurance) (summary aiSummary : GateSummary) :
    wp (R.deliver task w branch p document document assurance summary aiSummary)
      (fun published s' => Sound R task w s' ∧ s'.steps = s.steps ∧ Delivered R task w p branch document published s')
      (fun _ s' => Sound R task w s') s := by
  unfold AgentRunner.deliver
  refine wp_then <| wp_ask_sound hs ⟨rfl, p, branch, true, document, h, rfl⟩ (fun _ => not_false) fun ref hsound => ?_
  have hemitted : Reached R task w p branch (.emitted true) document (⟨.emit w document.modelDump, .ok ref⟩ :: s.history) :=
    .emitted h
  refine wp_then <| wp_ask_sound hsound ⟨rfl, p, branch, true, hemitted⟩ (fun _ => not_false) fun _ hsound => ?_
  have hrecorded := Reached.recorded hemitted
  refine wp_then <| wp_publishGuard hsound ⟨p, branch, document, .inl hrecorded⟩ fun s₁ hs₁ hst₁ hsound => ?_
  have hadmitted : Reached R task w p branch .admitted document s₁.history := hs₁ ▸ .admitted hrecorded
  refine wp_then <| wp_ask_sound hsound ⟨rfl, rfl, rfl, p, document, hadmitted⟩ (fun _ => not_false) fun _ hsound => ?_
  have hpushed := Reached.pushed hadmitted
  refine wp_then <| wp_publishGuard hsound ⟨p, branch, document, .inr hpushed⟩ fun s₂ hs₂ hst₂ hsound => ?_
  have hreadmitted : Reached R task w p branch .readmitted document s₂.history := hs₂ ▸ .readmitted hpushed
  refine wp_then <| wp_raising (fun text _ => ?_) fun _ _ => hsound
  refine wp_then <| wp_ask_sound hsound ⟨rfl, rfl, p, document, hreadmitted⟩ (fun _ => not_false) fun url hsound => ?_
  exact ⟨hsound, hst₂.trans hst₁, rfl, Option.some_ne_none _, Option.some_ne_none _, .opened hreadmitted⟩

theorem Delivered.ready {published : Published} (h : Delivered R task w p branch document published s) :
    Ready R task w published s.history := by
  obtain ⟨hdocument, href, hurl, hopened⟩ := h
  exact ⟨p, branch, .inr ⟨href, hurl, hdocument ▸ hopened⟩⟩

theorem wp_revalidate {Q : Result → Locals → Prop} {E : Raised → Locals → Prop} (hQ : Q document s) :
    wp (revalidate R document) Q E s := by
  rw [revalidate, validateResult_modelDump]
  exact hQ

theorem wp_runAiGates {suite : CheckSuite} {Q : GateSummary → Locals → Prop} (hs : Sound R task w s)
    (hQ : ∀ summary s', s'.history = aiEvents R w suite summary ++ s.history → s'.steps = s.steps → Sound R task w s' →
      (R.runsAiGates = false → summary = noAiGates) → Q summary s') :
    wp (runAiGates R w suite) Q (fun _ s' => Sound R task w s') s := by
  unfold runAiGates
  refine wp_ite.2 ⟨fun hruns => ?_, fun hruns => hQ _ s (by rw [aiEvents, if_neg hruns]; rfl) rfl hs fun _ => rfl⟩
  refine wp_ask_sound hs trivial (fun _ => not_false) fun summary hsound => hQ summary _ ?_ rfl hsound fun hunrun =>
    absurd hruns (by rw [hunrun]; exact Bool.false_ne_true)
  rw [aiEvents, if_pos hruns]
  rfl

/-- A task fails where it is not settled. -/
theorem wp_markFailed {reason : String} {Q : Unit → Locals → Prop} (hs : Sound R task w s)
    (hQ : Q () (s.saw (.markFailed task.taskId reason) (.ok ()))) :
    wp (ask R (.markFailed task.taskId reason)) Q (fun _ s' => Sound R task w s') s :=
  wp_ask (fun _ _ => hQ) fun e _ => hs.raised (.markFailed task.taskId reason) ⟨rfl, hs.unsettled⟩ e

/-- What the part that writes leaves: something to be settled, or a failed task. -/
def Left (R : AgentRunner) (task : TaskRequest) (w : String) (s : Locals) (result : Published ⊕ RunOutcome) (s' : Locals) :
    Prop :=
  result.elim (fun published => Sound R task w s' ∧ s'.steps = s.steps ∧ Ready R task w published s'.history)
    fun outcome => Ended R task w outcome s'.history

theorem wp_publishOnGreen (hs : Sound R task w s) (h : Reached R task w p branch .committed document s.history)
    (policy : R.effectivePrPolicy p.policy = .onGreen ∧ task.kind ≠ .checks) :
    wp (R.publishOnGreen task w branch p document) (Left R task w s) (fun _ s' => Sound R task w s') s := by
  unfold AgentRunner.publishOnGreen
  refine wp_then <| wp_ask_sound hs trivial (fun _ => not_false) fun fresh hsound => ?_
  refine wp_then <| wp_runAiGates hsound fun freshAi s₁ hs₁ hst₁ hsound hunrun => ?_
  refine wp_then <| wp_revalidate <| wp_ite.2 ⟨fun hopens => ?_, fun hopens => ?_⟩
  · have hfinal : Reached R task w p branch (.final true) (document.rejudged fresh freshAi (assess fresh freshAi)) s₁.history :=
      hs₁ ▸ .rejudged h policy hunrun hopens
    refine wp_then <| wp_mono (wp_deliver hsound hfinal _ _ _) (fun published s' hq => ?_) fun _ _ hsound => hsound
    exact ⟨hq.1, hq.2.1.trans hst₁, hq.2.2.ready⟩
  · exact wp_then <| wp_markFailed hsound <| .failed hsound rfl rfl rfl

theorem pushable_of_mapError {branch? : Option String} {branch : String}
    (h : (assertPushable branch?).mapError Raised.agent = .ok branch) : assertPushable branch? = .ok branch := by
  cases hassert : assertPushable branch? with
  | ok name =>
    rw [hassert] at h
    rw [Except.ok.inj h]
  | error e =>
    rw [hassert] at h
    exact absurd h (by simp [Except.mapError])

theorem wp_publish (hs : Sound R task w s) (h : ∀ branch, Reached R task w p branch .drafted document s.history)
    (writes : R.writesSource task p = true) :
    wp (R.publish task w p document document) (Left R task w s) (fun _ s' => Sound R task w s') s := by
  unfold AgentRunner.publish
  refine wp_then <| wp_raising (fun branch hbranch => ?_) fun _ _ => hs
  refine wp_then <| wp_mono (wp_guardTaskPaths hs (h branch) writes (pushable_of_mapError hbranch)) (fun _ s₁ hq => ?_)
    fun _ _ hsound => hsound
  obtain ⟨hsound, hst₁, hcleared⟩ := hq
  refine wp_ite.2 ⟨fun hnever => ⟨hsound, hst₁, p, branch, .inl ⟨rfl, rfl, rfl, .unpublished hcleared hnever⟩⟩, fun hpolicy => ?_⟩
  refine wp_then <| wp_ask_sound hsound ⟨rfl, rfl, p, document, hcleared, hpolicy, rfl⟩ (fun _ => not_false) fun made hsound => ?_
  have hcommitted : Reached R task w p branch .committed document
      (⟨.commit w branch task.commitSha (commitMessage document), .ok made⟩ :: s₁.history) := .committed hcleared hpolicy
  refine wp_ite.2 ⟨fun hgreen => ?_, fun hgreen => ?_⟩
  · refine wp_mono (wp_publishOnGreen hsound hcommitted hgreen) (fun result s' hq => ?_) fun _ _ hsound => hsound
    cases result with
    | inl published => exact ⟨hq.1, hq.2.1.trans hst₁, hq.2.2⟩
    | inr outcome => exact hq
  · refine wp_then <| wp_mono (wp_deliver hsound (.unjudged hcommitted hgreen) _ _ _) (fun published s' hq => ?_)
      fun _ _ hsound => hsound
    exact ⟨hq.1, hq.2.1.trans hst₁, hq.2.2.ready⟩

/-! ## The end of a run -/

theorem wp_settle {published : Published} (hs : Sound R task w s) (hsteps : s.steps = steps)
    (h : Ready R task w published s.history) :
    wp (R.settle task w published) (fun outcome s' => Ended R task w outcome s'.history) (fun _ s' => Sound R task w s') s := by
  unfold AgentRunner.settle AgentRunner.resultRef
  obtain ⟨p, branch, ⟨href, hurl, hresult, hfinal⟩ | ⟨href, hurl, hopened⟩⟩ := h
  · rw [href, hresult]
    refine wp_then <| wp_then <| wp_ask_sound hs ⟨rfl, p, branch, false, _, hfinal, rfl⟩ (fun _ => not_false) fun ref hsound => ?_
    have hemitted : Reached R task w p branch (.emitted false) published.document
        (⟨.emit w published.document.modelDump, .ok ref⟩ :: s.history) := .emitted hfinal
    refine wp_then <| wp_ask_sound hsound ⟨rfl, p, branch, false, hemitted⟩ (fun _ => not_false) fun _ hsound => ?_
    have hrecorded := Reached.recorded hemitted
    rw [hurl]
    refine wp_then <| wp_ask (fun _ _ => ?_) fun e _ => ?_
    · exact .done hsound rfl hsteps (.inl ⟨rfl, hrecorded⟩) rfl rfl rfl rfl rfl rfl
    · exact hsound.raised (.markDone task.taskId ref none) ⟨rfl, p, branch, _, .inl ⟨rfl, hrecorded⟩⟩ e
  · obtain ⟨ref, href⟩ := Option.ne_none_iff_exists'.1 href
    rw [href]
    refine wp_then <| wp_then <| wp_ask (fun _ _ => ?_) fun e _ => ?_
    · exact .done hs rfl hsteps (.inr ⟨hurl, hopened⟩) rfl rfl rfl rfl rfl rfl
    · exact hs.raised (.markDone task.taskId ref published.prUrl) ⟨rfl, p, branch, _, .inr ⟨hurl, hopened⟩⟩ e

theorem wp_attempt {startedAt : String} (hs : s.history = [⟨.setModelEnv R.modelEnv, .ok ()⟩]) (hsteps : s.steps = []) :
    wp (R.attempt task w startedAt) (fun outcome s' => Ended R task w outcome s'.history)
      (fun _ s' => Sound R task w s') s := by
  unfold AgentRunner.attempt AgentRunner.conclude
  refine wp_then <| wp_mono (wp_gather hs hsteps) (fun p s₁ hgathered => ?_) fun _ _ h => sound_of_quiet h.1 h.2
  obtain ⟨hgathered, hst₁⟩ := hgathered
  have hsound : Sound R task w s₁ := sound_of_quiet hgathered.quiet ⟨[], by rw [List.append_nil, hst₁]⟩
  split
  · exact wp_then <| wp_markFailed hsound <| .failed hsound rfl rfl rfl
  · rename_i first hvalid
    have hdrafted (branch : String) : Reached R task w p branch .drafted (first.assured (assess p.summary p.aiSummary)) s₁.history :=
      .drafted hgathered hvalid
    refine wp_then <| wp_revalidate <| wp_ite.2 ⟨fun hwrites => ?_, fun hwrites => ?_⟩
    · refine wp_then <| wp_mono (wp_publish hsound hdrafted hwrites) (fun result s₂ hq => ?_) fun _ _ hsound => hsound
      cases result with
      | inl published => exact wp_settle hq.1 (hq.2.1.trans hst₁) hq.2.2
      | inr outcome => exact hq
    · refine wp_settle hsound hst₁ ⟨p, "", .inl ⟨rfl, rfl, rfl, .reviewed (hdrafted "") ?_⟩⟩
      exact Bool.eq_false_iff.2 hwrites

theorem wp_rescue {e : Raised} (hs : Sound R task w s) :
    wp (R.rescue task e) (fun outcome s' => Ended R task w outcome s'.history) (fun _ s' => Sound R task w s') s := by
  unfold AgentRunner.rescue failedOutcome
  split
  · exact hs
  · exact wp_then <| wp_markFailed hs <| .failed hs rfl rfl rfl
  · exact wp_then <| wp_markFailed hs <| .failed hs rfl rfl rfl

end publishing

/-! ## Cleaning up -/

/-- What the `finally` clause asks. -/
def Request.cleans : Request → Bool
  | .setModelEnv env => env.entries.isEmpty
  | .protectSuite _ readonly | .protectPaths _ _ readonly => !readonly
  | .suiteProtectedPaths .. | .markFinished _ => true
  | _ => false

theorem asks_unlockSuites (frozen : Option FrozenSuite) :
    Asks (fun r => r.cleans = true) (unlockSuites R task w frozen) := by
  unfold unlockSuites
  split
  · exact .ite (asks_lockSuites rfl rfl fun _ => rfl) (.pure ())
  · exact .pure ()

theorem permitted_of_cleans {r : Request} (h : r.cleans = true) (past : History) : Permitted R task w past r := by
  cases r <;> first | exact absurd h Bool.false_ne_true | exact trivial

theorem Lawful.cleaned {past : History} (h : Lawful R task w past) : ∀ {new : History}, (∀ e ∈ new, e.request.cleans = true) →
    Lawful R task w (new ++ past)
  | [], _ => h
  | e :: new, hnew => by
    obtain ⟨he, hnew⟩ := List.forall_mem_cons.1 hnew
    exact ⟨permitted_of_cleans he _, Lawful.cleaned h hnew⟩

theorem Ended.lawful {outcome : RunOutcome} {past : History} (h : Ended R task w outcome past) : Lawful R task w past := by
  cases h with
  | done sound isDone complete reached => exact ⟨⟨rfl, _, _, _, reached⟩, sound.lawful⟩
  | failed sound => exact ⟨⟨rfl, sound.unsettled⟩, sound.lawful⟩

/-- A run cleaned up after a history: the credential was dropped first, and nothing but the clean-up followed. -/
def Cleaned (past after : History) : Prop :=
  ∃ new answer, after = new ++ ⟨.setModelEnv Dict.empty, answer⟩ :: past ∧ ∀ e ∈ new, e.request.cleans = true

theorem Cleaned.lawful {past after : History} (hcleaned : Cleaned past after) (h : Lawful R task w past) :
    Lawful R task w after := by
  obtain ⟨new, answer, rfl, hnew⟩ := hcleaned
  have hdropped : Lawful R task w (⟨.setModelEnv Dict.empty, answer⟩ :: past) := ⟨trivial, h⟩
  exact hdropped.cleaned hnew

theorem wp_cleanUp : wp (R.cleanUp task w) (fun _ s' => Cleaned s.history s'.history) (fun _ s' => Cleaned s.history s'.history) s := by
  unfold AgentRunner.cleanUp
  have hrest : ∀ answer s', Grew (fun r => r.cleans = true) (s.saw (.setModelEnv Dict.empty) answer) s' →
      Cleaned s.history s'.history := fun answer s' ⟨new, heq, hnew⟩ => ⟨new, answer, heq, hnew⟩
  refine wp_then <| wp_ask (fun a _ => ?_) fun e _ => ⟨[], _, rfl, fun _ h => absurd h List.not_mem_nil⟩
  have hasks : Asks (fun r => r.cleans = true) (get >>= fun s => unlockSuites R task w s.frozen >>= fun _ =>
      bestEffort (ask R (.markFinished w))) :=
    .bind (Along.get Stayed.refl) fun s => .bind (asks_unlockSuites s.frozen) fun _ => .bestEffort (.ask rfl)
  exact wp_mono (hasks _) (fun _ s' h => hrest _ s' h.1) fun _ s' h => hrest _ s' h.1

end OpenFish.Agent
