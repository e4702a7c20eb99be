/-
What a run may have asked before its document is validated: nothing that leaves a trace outside, and the suites are frozen
before any code of the repository runs.
-/
import OpenFish.Agent.Run

namespace OpenFish.Agent

open Lib

open Gates (CheckSuite GateSummary unverifiedSummary)

variable (R : AgentRunner) (task : TaskRequest)

/-! ## Asking -/

def Locals.saw (s : Locals) (r : Request) (answer : Except Raised (Answer r)) : Locals :=
  { s with history := ⟨r, answer⟩ :: s.history }

@[simp] theorem Locals.history_saw (s : Locals) (r : Request) (answer : Except Raised (Answer r)) :
    (s.saw r answer).history = ⟨r, answer⟩ :: s.history := rfl

@[simp] theorem Locals.steps_saw (s : Locals) (r : Request) (answer : Except Raised (Answer r)) :
    (s.saw r answer).steps = s.steps := rfl

@[simp] theorem Locals.frozen_saw (s : Locals) (r : Request) (answer : Except Raised (Answer r)) :
    (s.saw r answer).frozen = s.frozen := rfl

variable {R} {r : Request} {E : Raised → Locals → Prop} {s : Locals}

theorem wp_ask {Q : Answer r → Locals → Prop}
    (hok : ∀ a, R.world.answer s.history r = .ok a → Q a (s.saw r (.ok a)))
    (herr : ∀ e, R.world.answer s.history r = .error e → E e (s.saw r (.error e))) : wp (ask R r) Q E s := by
  unfold wp ask
  dsimp only
  cases hanswer : R.world.answer s.history r with
  | ok a =>
    have := hok a hanswer
    simpa only [Locals.saw, hanswer] using this
  | error e =>
    have := herr e hanswer
    simpa only [Locals.saw, hanswer] using this

/-- Between two states nothing was asked but what meets `P`. -/
def Grew (P : Request → Prop) (s s' : Locals) : Prop := ∃ new, s'.history = new ++ s.history ∧ ∀ e ∈ new, P e.request

/-- Nor was a step taken. -/
def Stayed (P : Request → Prop) (s s' : Locals) : Prop := Grew P s s' ∧ s'.steps = s.steps

section asks

variable {P : Request → Prop}

theorem Grew.refl (s : Locals) : Grew P s s := ⟨[], rfl, fun _ h => absurd h List.not_mem_nil⟩

theorem Grew.trans (a b c : Locals) (h : Grew P a b) (h' : Grew P b c) : Grew P a c := by
  obtain ⟨new, heq, hnew⟩ := h
  obtain ⟨new', heq', hnew'⟩ := h'
  refine ⟨new' ++ new, by rw [heq', heq, List.append_assoc], fun e he => ?_⟩
  rcases List.mem_append.1 he with he | he
  · exact hnew' e he
  · exact hnew e he

theorem Stayed.refl (s : Locals) : Stayed P s s := ⟨Grew.refl s, rfl⟩

theorem Stayed.trans (a b c : Locals) (h : Stayed P a b) (h' : Stayed P b c) : Stayed P a c :=
  ⟨Grew.trans a b c h.1 h'.1, h'.2.trans h.2⟩

/-- Whatever it does, a program asks nothing but what meets `P`, and takes no step. -/
abbrev Asks (P : Request → Prop) {α : Type} (x : Program α) : Prop := Along (Stayed P) x

variable {α β : Type}

theorem Asks.pure (a : α) : Asks P (pure a : Program α) := Along.pure Stayed.refl a

theorem Asks.throw (e : Raised) : Asks P (throw e : Program α) := Along.throw Stayed.refl e

theorem Asks.bind {x : Program α} {f : α → Program β} (hx : Asks P x) (hf : ∀ a, Asks P (f a)) : Asks P (x >>= f) :=
  Along.bind Stayed.trans hx hf

theorem Asks.ask (h : P r) : Asks P (ask R r) := fun _ =>
  wp_ask (fun a _ => ⟨⟨[⟨r, .ok a⟩], rfl, fun _ he => List.mem_singleton.1 he ▸ h⟩, rfl⟩)
    fun e _ => ⟨⟨[⟨r, .error e⟩], rfl, fun _ he => List.mem_singleton.1 he ▸ h⟩, rfl⟩

theorem Asks.handling {x : Program α} {h : Raised → Program α} (hx : Asks P x) (hh : ∀ e, Asks P (h e)) :
    Asks P (handling x h) := Along.handling Stayed.trans hx hh

theorem Asks.ite {c : Prop} [Decidable c] {x y : Program α} (hx : Asks P x) (hy : Asks P y) :
    Asks P (if c then x else y) := Along.ite hx hy

theorem Asks.bestEffort {x : Program Unit} (hx : Asks P x) : Asks P (bestEffort x) := by
  refine hx.handling fun e => ?_
  cases e with
  | os => exact .pure ()
  | agent | other | interrupt => exact .throw _

/-- Steps apart, a program asks nothing but what meets `P`. -/
abbrev Grows (P : Request → Prop) (x : Program α) : Prop := Along (Grew P) x

theorem Asks.grows {x : Program α} (hx : Asks P x) : Grows P x := Along.mono (fun _ _ h => h.1) hx

theorem Grows.bind {x : Program α} {f : α → Program β} (hx : Grows P x) (hf : ∀ a, Grows P (f a)) : Grows P (x >>= f) :=
  Along.bind Grew.trans hx hf

theorem Grows.ask (h : P r) : Grows P (ask R r) := (Asks.ask h).grows

theorem Grows.modify {f : Locals → Locals} (h : ∀ s, (f s).history = s.history) : Grows P (modify f) := fun s =>
  ⟨[], h s, fun _ he => absurd he List.not_mem_nil⟩

end asks

/-! ## Quiet requests -/

/-- A request that leaves no trace outside of the work directory, before what is to be published is checked. -/
def Request.quiet : Request → Bool
  | .changedPaths _ | .commit .. | .emit .. | .recordFindings .. | .publishGuard | .push .. | .openPr .. | .markDone ..
  | .markFailed .. | .markFinished _ => false
  | _ => true

/-- A request that is quiet. -/
abbrev Quiet (r : Request) : Prop := r.quiet = true

theorem asks_protectSuite {P : Request → Prop} {w : String} {readonly : Bool} (h : P (.protectSuite w readonly)) :
    Asks P (protectSuite R w readonly) := .ite (.bestEffort (.ask h)) (.pure ())

theorem asks_lockSuites {P : Request → Prop} {w : String} {suite : CheckSuite} {readonly : Bool}
    (hsuite : P (.protectSuite w readonly)) (hpaths : P (.suiteProtectedPaths suite w))
    (hlock : ∀ paths, P (.protectPaths w paths readonly)) : Asks P (lockSuites R w suite readonly) :=
  .bind (asks_protectSuite hsuite) fun _ => .bind (.ask hpaths) fun paths => .ite (.bestEffort (.ask (hlock paths))) (.pure ())

theorem asks_runAiGates (w : String) (suite : CheckSuite) : Asks Quiet (runAiGates R w suite) := .ite (.ask rfl) (.pure _)

theorem asks_searchAll (w : String) (context : ReadContext) :
    ∀ findings, Asks Quiet (searchAll R task w context findings)
  | [] => .pure _
  | _ :: rest => .bind (.ask rfl) fun _ => .bind (asks_searchAll w context rest) fun _ => .pure _

theorem asks_prepareUntrusted (w : String) : Asks Quiet (prepareUntrusted R task w) := by
  refine .handling (.ask rfl) fun e => ?_
  split <;> exact .throw _

theorem asks_lockForFix (w : String) (suite : CheckSuite) : Asks Quiet (lockForFix R task w suite) :=
  .ite (asks_lockSuites rfl rfl fun _ => rfl) (.pure ())

theorem asks_curate (w : String) : Asks Quiet (curate R task w) := .ite (.ask rfl) (.pure _)

theorem asks_now : Asks Quiet (now R) := .bind (Along.get Stayed.refl) fun _ => .pure _

/-- Up to its payload a run asks nothing that is not quiet. -/
theorem grows_gather (w startedAt : String) : Grows Quiet (R.gather task w startedAt) := by
  unfold AgentRunner.gather
  refine .bind (.ask rfl) fun _ => .bind (.ask rfl) fun _ => .bind (.modify fun _ => rfl) fun _ => .bind (.ask rfl) fun _ => ?_
  refine .bind (asks_prepareUntrusted task w).grows fun _ => .bind (.modify fun _ => rfl) fun _ => .bind (.ask rfl) fun _ => ?_
  refine .bind (Along.raising Grew.refl _) fun _ => .bind (.ask rfl) fun _ => .bind (.modify fun _ => rfl) fun _ => ?_
  refine .bind (asks_lockForFix task w _).grows fun _ => .bind (.modify fun _ => rfl) fun _ => .bind (.ask rfl) fun _ => ?_
  refine .bind (asks_runAiGates w _).grows fun _ => .bind (.modify fun _ => rfl) fun _ => .bind (.ask rfl) fun _ => ?_
  refine .bind (asks_curate task w).grows fun _ => .bind (.modify fun _ => rfl) fun _ => ?_
  refine .bind (asks_searchAll task w _ _).grows fun _ => .bind (.modify fun _ => rfl) fun _ => ?_
  exact .bind asks_now.grows fun _ => Along.pure Grew.refl _

end OpenFish.Agent
