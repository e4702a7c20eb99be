/-
Programs with a state that may stop: weakest preconditions for `EStateM`, one rule for each way a program
is put together.

A state is not rolled back when a program stops, so a postcondition has two parts: for an answer, and for
what a stop leaves behind.
-/
import Mathlib.Tactic.Common

namespace Lib

variable {ε σ α β : Type}

/-- Whatever `x` does from `s`: `Q` holds of its answer and the state with it, or `E` of its stop. -/
def wp (x : EStateM ε σ α) (Q : α → σ → Prop) (E : ε → σ → Prop) (s : σ) : Prop :=
  match x s with
  | .ok a s' => Q a s'
  | .error e s' => E e s'

/-- An `Except` program that answers: so did its first part, and the rest on that answer. -/
theorem ok_of_bind {x : Except ε α} {f : α → Except ε β} {b : β} (h : (x >>= f) = .ok b) :
    ∃ a, x = .ok a ∧ f a = .ok b := by
  cases x with
  | error e => cases h
  | ok a => exact ⟨a, rfl, h⟩

/-- What every turn of a loop keeps, the loop keeps. -/
theorem foldlM_keeps {f : σ → α → Except ε σ} {P : σ → Prop} (hstep : ∀ s a s', P s → f s a = .ok s' → P s') :
    ∀ {as : List α} {s s' : σ}, P s → as.foldlM f s = .ok s' → P s'
  | [], s, s', hs, h => by
    cases Except.ok.inj h
    exact hs
  | a :: as, s, s', hs, h => by
    rw [List.foldlM_cons] at h
    obtain ⟨next, hnext, h⟩ := ok_of_bind h
    exact foldlM_keeps hstep (hstep s a next hs hnext) h

theorem bind_ok {x : EStateM ε σ α} {s s' : σ} {a : α} (hx : x s = .ok a s') (f : α → EStateM ε σ β) :
    (x >>= f) s = f a s' := by
  simp only [Bind.bind, EStateM.bind, hx]

theorem bind_error {x : EStateM ε σ α} {s s' : σ} {e : ε} (hx : x s = .error e s') (f : α → EStateM ε σ β) :
    (x >>= f) s = .error e s' := by
  simp only [Bind.bind, EStateM.bind, hx]

theorem get_bind (f : σ → EStateM ε σ β) (s : σ) : (get >>= f) s = f s s := rfl

section rules

variable {Q : α → σ → Prop} {R : β → σ → Prop} {E : ε → σ → Prop} {s : σ}

@[simp] theorem wp_pure (a : α) : wp (pure a : EStateM ε σ α) Q E s ↔ Q a s := Iff.rfl

@[simp] theorem wp_bind (x : EStateM ε σ α) (f : α → EStateM ε σ β) :
    wp (x >>= f) R E s ↔ wp x (fun a => wp (f a) R E) E s := by
  simp only [wp, Bind.bind, EStateM.bind]
  cases x s <;> rfl

@[simp] theorem wp_map (f : α → β) (x : EStateM ε σ α) :
    wp (f <$> x) R E s ↔ wp x (fun a => R (f a)) E s := by
  simp only [wp, Functor.map, EStateM.map]
  cases x s <;> rfl

@[simp] theorem wp_get {Q : σ → σ → Prop} : wp (get : EStateM ε σ σ) Q E s ↔ Q s s := Iff.rfl

@[simp] theorem wp_modify (f : σ → σ) {Q : Unit → σ → Prop} :
    wp (modify f : EStateM ε σ Unit) Q E s ↔ Q () (f s) := Iff.rfl

@[simp] theorem wp_modifyGet (f : σ → α × σ) : wp (modifyGet f : EStateM ε σ α) Q E s ↔ Q (f s).1 (f s).2 := Iff.rfl

@[simp] theorem wp_throw (e : ε) : wp (throw e : EStateM ε σ α) Q E s ↔ E e s := Iff.rfl

theorem wp_ite {c : Prop} [Decidable c] {x y : EStateM ε σ α} :
    wp (if c then x else y) Q E s ↔ (c → wp x Q E s) ∧ (¬ c → wp y Q E s) := by
  by_cases h : c
  · simp [h]
  · simp [h]

theorem wp_mono {x : EStateM ε σ α} {Q' : α → σ → Prop} {E' : ε → σ → Prop} (h : wp x Q E s)
    (hQ : ∀ a s', Q a s' → Q' a s') (hE : ∀ e s', E e s' → E' e s') : wp x Q' E' s := by
  unfold wp at h ⊢
  cases hx : x s with
  | ok a s' => rw [hx] at h; exact hQ a s' h
  | error e s' => rw [hx] at h; exact hE e s' h

theorem wp_and {x : EStateM ε σ α} {Q' : α → σ → Prop} {E' : ε → σ → Prop} (h : wp x Q E s) (h' : wp x Q' E' s) :
    wp x (fun a s' => Q a s' ∧ Q' a s') (fun e s' => E e s' ∧ E' e s') s := by
  unfold wp at h h' ⊢
  cases hx : x s with
  | ok a s' => rw [hx] at h h'; exact ⟨h, h'⟩
  | error e s' => rw [hx] at h h'; exact ⟨h, h'⟩

end rules

/-! ## What a program never undoes -/

/-- `r` holds between the state a program begins in and the one it ends in, also when it stops. -/
def Along (r : σ → σ → Prop) (x : EStateM ε σ α) : Prop := ∀ s, wp x (fun _ => r s) (fun _ => r s) s

section along

variable {r : σ → σ → Prop}

theorem Along.pure (hrefl : ∀ s, r s s) (a : α) : Along r (pure a : EStateM ε σ α) := fun s => hrefl s

theorem Along.get (hrefl : ∀ s, r s s) : Along r (get : EStateM ε σ σ) := fun s => hrefl s

theorem Along.bind (htrans : ∀ a b c, r a b → r b c → r a c) {x : EStateM ε σ α} {f : α → EStateM ε σ β}
    (hx : Along r x) (hf : ∀ a, Along r (f a)) : Along r (x >>= f) := by
  intro s
  rw [wp_bind]
  refine wp_mono (hx s) (fun a s' hs' => ?_) fun _ _ hs' => hs'
  exact wp_mono (hf a s') (fun _ s'' => htrans s s' s'' hs') fun _ s'' => htrans s s' s'' hs'

theorem Along.ite {c : Prop} [Decidable c] {x y : EStateM ε σ α} (hx : Along r x) (hy : Along r y) :
    Along r (if c then x else y) := by
  split
  · exact hx
  · exact hy

end along

/-! ## Loops -/

/-- A loop over a list whose steps change a state. The first step that raises ends it, and what was done stays done. -/
def loop (step : α → σ → Option ε × σ) : List α → σ → Option ε × σ
  | [], s => (none, s)
  | a :: as, s =>
    match step a s with
    | (some e, s') => (some e, s')
    | (none, s') => loop step as s'

theorem loop_cons {step : α → σ → Option ε × σ} {a : α} {s s' : σ} (h : step a s = (none, s')) (as : List α) :
    loop step (a :: as) s = loop step as s' := by
  rw [loop, h]

/-- What every step keeps, the loop keeps. -/
theorem loop_keeps {step : α → σ → Option ε × σ} {P : σ → Prop} {as : List α}
    (hstep : ∀ a ∈ as, ∀ s, P s → P (step a s).2) {s : σ} (hs : P s) : P (loop step as s).2 := by
  induction as generalizing s with
  | nil => exact hs
  | cons a as ih =>
    have hone := hstep a (List.mem_cons_self ..) s hs
    rw [loop]
    cases hres : step a s with
    | mk raised s' =>
      rw [hres] at hone
      cases raised with
      | some e => exact hone
      | none => exact ih (fun b hb => hstep b (List.mem_cons_of_mem _ hb)) hone

end Lib
