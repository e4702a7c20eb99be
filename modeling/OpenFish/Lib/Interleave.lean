/-
Calls that run side by side over one shared state: a call begins, then makes its steps one at a time, and
between two of its steps the other calls make theirs and the world moves on. The rule here proves an
assertion about every call from what each step does to the state, to the call that makes it and to the others.
-/
import OpenFish.Lib.Machine

namespace Lib

/-- What happens next: a call begins, a call makes its next step with what the world answers it, or the
world moves by itself. -/
inductive Move (α ω ε : Type*)
  | begin (a : α)
  | step (i : ℕ) (w : ω)
  | other (e : ε)
  deriving DecidableEq, Repr

/-- The shared state, and where each call stands, in the order the calls began. -/
structure Scene (σ κ : Type*) where
  shared : σ
  calls : List κ
  deriving DecidableEq, Repr

/-- What a call is when it begins, what one step of it does, and what the world does. -/
structure Program (σ κ α ω ε : Type*) where
  start : σ
  enter : σ → α → κ
  step : σ → κ → ω → σ × κ
  other : σ → ε → σ

namespace Program

variable {σ κ α ω ε : Type*} (P : Program σ κ α ω ε)

def next (s : Scene σ κ) : Move α ω ε → Scene σ κ
  | .begin a => { s with calls := s.calls ++ [P.enter s.shared a] }
  | .step i w =>
    match s.calls[i]? with
    | none => s
    | some k => ⟨(P.step s.shared k w).1, s.calls.set i (P.step s.shared k w).2⟩
  | .other e => { s with shared := P.other s.shared e }

/-- The runs of any number of calls, in any order of their steps. -/
def machine : Machine (Scene σ κ) (Move α ω ε) Unit := ⟨⟨P.start, []⟩, fun s m => ((), P.next s m)⟩

@[simp] theorem machine_start : P.machine.start = ⟨P.start, []⟩ := rfl

@[simp] theorem machine_step (s : Scene σ κ) (m : Move α ω ε) : P.machine.step s m = ((), P.next s m) := rfl

theorem next_step {s : Scene σ κ} {i : ℕ} {k : κ} (h : s.calls[i]? = some k) (w : ω) :
    P.next s (.step i w) = ⟨(P.step s.shared k w).1, s.calls.set i (P.step s.shared k w).2⟩ := by
  simp only [next, h]

theorem next_none {s : Scene σ κ} {i : ℕ} (h : s.calls[i]? = none) (w : ω) : P.next s (.step i w) = s := by
  simp only [next, h]

end Program

variable {σ κ : Type*}

/-- The state meets `I`, and every call meets `Q` at it. -/
structure Scene.Holds (I : σ → Prop) (Q : σ → κ → Prop) (s : Scene σ κ) : Prop where
  shared : I s.shared
  calls : ∀ {i : ℕ} {k : κ}, s.calls[i]? = some k → Q s.shared k

/-- The calls after one of them moved. -/
theorem getElem?_set_cases {l : List κ} {i j : ℕ} {k k' : κ} (h : (l.set i k')[j]? = some k) :
    (j = i ∧ k = k') ∨ (j ≠ i ∧ l[j]? = some k) := by
  rw [List.getElem?_set] at h
  split at h
  · rename_i hij
    split at h
    · cases h; exact .inl ⟨hij.symm, rfl⟩
    · cases h
  · rename_i hij
    exact .inr ⟨fun hji => hij hji.symm, h⟩

/-- The calls after another one began. -/
theorem getElem?_append_cases {l : List κ} {j : ℕ} {k k' : κ} (h : (l ++ [k'])[j]? = some k) :
    (j = l.length ∧ k = k') ∨ l[j]? = some k := by
  rcases Nat.lt_trichotomy j l.length with hlt | heq | hgt
  · rw [List.getElem?_append_left hlt] at h; exact .inr h
  · subst heq
    rw [List.getElem?_concat_length] at h
    cases h; exact .inl ⟨rfl, rfl⟩
  · rw [List.getElem?_eq_none (by rw [List.length_append, List.length_singleton]; omega)] at h
    cases h

namespace Program

variable {α ω ε : Type*} {P : Program σ κ α ω ε} {ok : Scene σ κ → Move α ω ε → Prop} {I : σ → Prop}
  {Q : σ → κ → Prop}

/-- The assertions of a program whose steps meet `ok`: a step keeps `I`, brings the call that makes it to
`Q`, and does not disturb `Q` of any other call. -/
structure Outline (P : Program σ κ α ω ε) (ok : Scene σ κ → Move α ω ε → Prop) (I : σ → Prop)
    (Q : σ → κ → Prop) : Prop where
  start : I P.start
  enter : ∀ {s a}, I s → Q s (P.enter s a)
  step : ∀ {s : Scene σ κ} {i : ℕ} {k : κ} {w : ω}, s.Holds I Q → s.calls[i]? = some k → ok s (.step i w) →
    I (P.step s.shared k w).1 ∧ Q (P.step s.shared k w).1 (P.step s.shared k w).2
  others : ∀ {s : Scene σ κ} {i : ℕ} {k : κ} {w : ω} {j : ℕ} {k' : κ}, s.Holds I Q → s.calls[i]? = some k → ok s (.step i w) → j ≠ i →
    s.calls[j]? = some k' → Q (P.step s.shared k w).1 k'
  world : ∀ {s : Scene σ κ} {e}, s.Holds I Q → ok s (.other e) →
    I (P.other s.shared e) ∧ ∀ {i : ℕ} {k : κ}, s.calls[i]? = some k → Q (P.other s.shared e) k

/-- One move keeps the assertions. -/
theorem Outline.next (h : Outline P ok I Q) {s : Scene σ κ} (hs : s.Holds I Q) {m : Move α ω ε} (hok : ok s m) :
    (P.next s m).Holds I Q := by
  cases m with
  | begin a =>
    refine ⟨hs.shared, fun hk => ?_⟩
    rcases getElem?_append_cases hk with ⟨-, rfl⟩ | hk
    · exact h.enter hs.shared
    · exact hs.calls hk
  | step i w =>
    cases hi : s.calls[i]? with
    | none => rw [next_none P hi]; exact hs
    | some k =>
      rw [next_step P hi]
      obtain ⟨hI, hQ⟩ := h.step hs hi hok
      refine ⟨hI, fun hj => ?_⟩
      rcases getElem?_set_cases hj with ⟨-, rfl⟩ | ⟨hne, hj⟩
      · exact hQ
      · exact h.others hs hi hok hne hj
  | other e => exact ⟨(h.world hs hok).1, (h.world hs hok).2⟩

/-- The assertions hold after every run whose moves all meet `ok`. -/
theorem Outline.run (h : Outline P ok I Q) {ms : List (Move α ω ε)} (hok : P.machine.AllSteps (fun _ => ok) ms) :
    (P.machine.state ms).Holds I Q :=
  Machine.AllSteps.invariant (M := P.machine) (P := fun _ s => s.Holds I Q)
    ⟨h.start, fun hk => by simp at hk⟩ (fun _ _ _ hs hm => h.next hs hm) hok

end Program

end Lib
