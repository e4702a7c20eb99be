/-
Machines that answer: a step function from states and inputs to answers and states, the runs it
makes, and the rules that carry a property of one step over every run.

A run is a list of inputs, the latest first, so that a history is read backwards from the present
and a property of the past ("the last lease issued", "since the last retry") is a recursion on it.
-/
import Mathlib.Tactic.Common

namespace Lib

/-- A machine: where it starts, and what it answers and becomes on an input. -/
structure Machine (σ ι ω : Type*) where
  start : σ
  step : σ → ι → ω × σ

namespace Machine

variable {σ ι ω : Type*} (M : Machine σ ι ω)

/-- The state a run ends in. -/
def state : List ι → σ
  | [] => M.start
  | i :: is => (M.step (state is) i).2

/-- The inputs of a run with their answers, the latest first. -/
def log : List ι → List (ι × ω)
  | [] => []
  | i :: is => (i, (M.step (M.state is) i).1) :: log is

/-- Every step of the run meets `ok` at the log and the state it is made in. -/
def AllSteps (ok : List (ι × ω) → σ → ι → Prop) : List ι → Prop
  | [] => True
  | i :: is => ok (M.log is) (M.state is) i ∧ AllSteps ok is

/-- `P` holds of the log and the state at every moment of the run, its start included. -/
def AllStates (P : List (ι × ω) → σ → Prop) : List ι → Prop
  | [] => P [] M.start
  | i :: is => P (M.log (i :: is)) (M.state (i :: is)) ∧ AllStates P is

instance AllSteps.decidable {M : Machine σ ι ω} {ok : List (ι × ω) → σ → ι → Prop}
    [∀ log s i, Decidable (ok log s i)] : ∀ is, Decidable (M.AllSteps ok is)
  | [] => .isTrue trivial
  | i :: is =>
    haveI : Decidable (M.AllSteps ok is) := AllSteps.decidable is
    inferInstanceAs (Decidable (ok (M.log is) (M.state is) i ∧ M.AllSteps ok is))

@[simp] theorem state_nil : M.state [] = M.start := rfl

@[simp] theorem state_cons (i : ι) (is : List ι) : M.state (i :: is) = (M.step (M.state is) i).2 := rfl

theorem state_append (is js : List ι) : M.state (is ++ js) = is.foldr (fun i s => (M.step s i).2) (M.state js) := by
  induction is with
  | nil => rfl
  | cons i is ih => rw [List.cons_append, state_cons, ih, List.foldr_cons]

@[simp] theorem log_nil : M.log [] = [] := rfl

@[simp] theorem log_cons (i : ι) (is : List ι) :
    M.log (i :: is) = (i, (M.step (M.state is) i).1) :: M.log is := rfl

variable {M}

/-- The rule of guarded runs: what holds at the start, and is kept by every step that meets `ok`,
holds after every run whose steps all meet `ok`. -/
theorem AllSteps.invariant {ok : List (ι × ω) → σ → ι → Prop} {P : List (ι × ω) → σ → Prop}
    (h0 : P [] M.start)
    (hs : ∀ log s i, P log s → ok log s i → P ((i, (M.step s i).1) :: log) (M.step s i).2) :
    ∀ {is : List ι}, M.AllSteps ok is → P (M.log is) (M.state is)
  | [], _ => h0
  | _ :: _, h => hs _ _ _ (AllSteps.invariant h0 hs h.2) h.1

theorem AllSteps.of_forall {p : ι → Prop} : ∀ {is : List ι}, (∀ i ∈ is, p i) → M.AllSteps (fun _ _ i => p i) is
  | [], _ => trivial
  | i :: _, h => ⟨h i (List.mem_cons_self ..), .of_forall fun j hj => h j (List.mem_cons_of_mem _ hj)⟩

/-- What every step does that meets `ok` after such steps only, every step of a guarded run does. -/
theorem AllSteps.imp {ok ok' : List (ι × ω) → σ → ι → Prop}
    (h : ∀ is i, M.AllSteps ok is → ok (M.log is) (M.state is) i → ok' (M.log is) (M.state is) i) :
    ∀ {is : List ι}, M.AllSteps ok is → M.AllSteps ok' is
  | [], _ => trivial
  | _ :: _, hs => ⟨h _ _ hs.2 hs.1, AllSteps.imp h hs.2⟩

/-- What holds after every guarded run holds at every moment of it. -/
theorem AllSteps.allStates {ok : List (ι × ω) → σ → ι → Prop} {P : List (ι × ω) → σ → Prop}
    (h : ∀ is, M.AllSteps ok is → P (M.log is) (M.state is)) : ∀ {is : List ι}, M.AllSteps ok is → M.AllStates P is
  | [], hs => h [] hs
  | i :: is, hs => ⟨h (i :: is) hs, AllSteps.allStates h hs.2⟩

/-- The rule of invariants: what holds at the start and is kept by every step holds after every
run. -/
theorem invariant {P : List (ι × ω) → σ → Prop} (h0 : P [] M.start)
    (hs : ∀ log s i, P log s → P ((i, (M.step s i).1) :: log) (M.step s i).2) (is : List ι) :
    P (M.log is) (M.state is) := by
  induction is with
  | nil => exact h0
  | cons i is ih => exact hs _ _ _ ih

/-- Two conditions on a step that agree wherever the machine can be hold of the same runs. -/
theorem allSteps_congr {ok ok' : List (ι × ω) → σ → ι → Prop}
    (h : ∀ is i, ok (M.log is) (M.state is) i ↔ ok' (M.log is) (M.state is) i) (is : List ι) :
    M.AllSteps ok is ↔ M.AllSteps ok' is := by
  induction is with
  | nil => exact Iff.rfl
  | cons i is ih => exact and_congr (h is i) ih

theorem AllStates.now {P : List (ι × ω) → σ → Prop} :
    ∀ {is : List ι}, M.AllStates P is → P (M.log is) (M.state is)
  | [], h => h
  | _ :: _, h => h.1

/-- When, from a state of `P`, a step leads to `P` exactly if it meets `ok`, then `P` holds
throughout a run exactly if every step of it meets `ok`. -/
theorem allStates_iff_allSteps {P : List (ι × ω) → σ → Prop} {ok : List (ι × ω) → σ → ι → Prop}
    (h0 : P [] M.start)
    (hs : ∀ is i, P (M.log is) (M.state is) →
      (P (M.log (i :: is)) (M.state (i :: is)) ↔ ok (M.log is) (M.state is) i)) (is : List ι) :
    M.AllStates P is ↔ M.AllSteps ok is := by
  induction is with
  | nil => exact ⟨fun _ => trivial, fun _ => h0⟩
  | cons i is ih =>
    constructor
    · rintro ⟨hP, hall⟩
      exact ⟨(hs is i hall.now).1 hP, ih.1 hall⟩
    · rintro ⟨hok, hall⟩
      have hst := ih.2 hall
      exact ⟨(hs is i hst.now).2 hok, hst⟩

end Machine

end Lib
