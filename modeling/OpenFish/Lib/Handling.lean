/-
`try`, `except` and `finally` for programs with a state that is not rolled back, and their weakest preconditions.
-/
import OpenFish.Lib.Effect

namespace Lib

variable {ε σ α β : Type}

/-- `try: x` with the handler `h`. -/
def handling (x : EStateM ε σ α) (h : ε → EStateM ε σ α) : EStateM ε σ α := fun s =>
  match x s with
  | .ok a s' => .ok a s'
  | .error e s' => h e s'

/-- `try: x finally: f`: what `f` raises takes the place of what `x` did. -/
def ensuring (x : EStateM ε σ α) (f : EStateM ε σ Unit) : EStateM ε σ α := fun s =>
  match x s with
  | .ok a s' => (f *> pure a) s'
  | .error e s' => (f *> throw e) s'

/-- An answer, or an error raised. -/
def raising (x : Except ε α) : EStateM ε σ α := fun s =>
  match x with
  | .ok a => .ok a s
  | .error e => .error e s

section rules

variable {Q : α → σ → Prop} {E : ε → σ → Prop} {s : σ}

@[simp] theorem wp_handling (x : EStateM ε σ α) (h : ε → EStateM ε σ α) :
    wp (handling x h) Q E s ↔ wp x Q (fun e => wp (h e) Q E) s := by
  unfold wp handling
  cases x s with
  | ok a s' => exact Iff.rfl
  | error e s' => exact Iff.rfl

@[simp] theorem wp_ensuring (x : EStateM ε σ α) (f : EStateM ε σ Unit) :
    wp (ensuring x f) Q E s ↔ wp x (fun a => wp f (fun _ => Q a) E) (fun e => wp f (fun _ => E e) E) s := by
  have hseq {γ : Type} (g : EStateM ε σ γ) (P : γ → σ → Prop) (s' : σ) :
      wp (f *> g) P E s' ↔ wp f (fun _ => wp g P E) E s' := wp_bind f fun _ => g
  rw [wp, ensuring]
  cases hx : x s with
  | ok a s' =>
    refine (hseq (pure a) Q s').trans ?_
    conv_rhs => rw [wp, hx]
    exact Iff.rfl
  | error e s' =>
    refine (hseq (throw e) Q s').trans ?_
    conv_rhs => rw [wp, hx]
    exact Iff.rfl

theorem wp_raising {x : Except ε α} (hok : ∀ a, x = .ok a → Q a s) (herr : ∀ e, x = .error e → E e s) :
    wp (raising x) Q E s := by
  cases x with
  | ok a => exact hok a rfl
  | error e => exact herr e rfl

end rules

section along

variable {r : σ → σ → Prop}

theorem Along.throw (hrefl : ∀ s, r s s) (e : ε) : Along r (throw e : EStateM ε σ α) := fun s => hrefl s

theorem Along.raising (hrefl : ∀ s, r s s) (x : Except ε α) : Along r (raising x) := fun s =>
  wp_raising (fun _ _ => hrefl s) fun _ _ => hrefl s

theorem Along.handling (htrans : ∀ a b c, r a b → r b c → r a c) {x : EStateM ε σ α} {h : ε → EStateM ε σ α}
    (hx : Along r x) (hh : ∀ e, Along r (h e)) : Along r (handling x h) := by
  intro s
  rw [wp_handling]
  exact wp_mono (hx s) (fun _ _ hs => hs) fun e s' hs => wp_mono (hh e s') (fun _ s'' => htrans s s' s'' hs)
    fun _ s'' => htrans s s' s'' hs

theorem Along.mono {r' : σ → σ → Prop} (h : ∀ s s', r s s' → r' s s') {x : EStateM ε σ α} (hx : Along r x) : Along r' x :=
  fun s => wp_mono (hx s) (fun _ => h s) fun _ => h s

end along

/-! ## What a program raises -/

/-- Whatever state it begins in, a program raises nothing but what meets `E`, of the error and the state it stops in. -/
def Raises (E : ε → σ → Prop) (x : EStateM ε σ α) : Prop := ∀ s, wp x (fun _ _ => True) E s

section raises

variable {E E' : ε → σ → Prop}

theorem Raises.pure (a : α) : Raises E (pure a : EStateM ε σ α) := fun _ => trivial

theorem Raises.get : Raises E (get : EStateM ε σ σ) := fun _ => trivial

theorem Raises.modify (f : σ → σ) : Raises E (modify f : EStateM ε σ Unit) := fun _ => trivial

theorem Raises.throw {e : ε} (h : ∀ s, E e s) : Raises E (throw e : EStateM ε σ α) := fun s => h s

theorem Raises.raising {x : Except ε α} (h : ∀ e, x = .error e → ∀ s, E e s) : Raises E (raising x) := fun s =>
  wp_raising (fun _ _ => trivial) fun e he => h e he s

theorem Raises.bind {x : EStateM ε σ α} {f : α → EStateM ε σ β} (hx : Raises E x) (hf : ∀ a, Raises E (f a)) :
    Raises E (x >>= f) := fun s =>
  (wp_bind x f).2 (wp_mono (hx s) (fun a s' _ => hf a s') fun _ _ h => h)

theorem Raises.ite {c : Prop} [Decidable c] {x y : EStateM ε σ α} (hx : Raises E x) (hy : Raises E y) :
    Raises E (if c then x else y) := by
  split
  · exact hx
  · exact hy

/-- The handler is left with what its program raises. -/
theorem Raises.handling {x : EStateM ε σ α} {h : ε → EStateM ε σ α} (hx : Raises E' x)
    (hh : ∀ e s, E' e s → wp (h e) (fun _ _ => True) E s) : Raises E (handling x h) := fun s =>
  (wp_handling x h).2 (wp_mono (hx s) (fun _ _ _ => trivial) hh)

end raises

/-! ## What an answer is not -/

theorem bind_ne_error {x : Except ε α} {f : α → Except ε β} {e : ε} (hx : x ≠ .error e) (hf : ∀ a, f a ≠ .error e) :
    (x >>= f) ≠ .error e := by
  cases x with
  | ok a => exact hf a
  | error e' => exact fun h => hx (congrArg Except.error (Except.error.inj h))

theorem mapM_ne_error {f : α → Except ε β} {e : ε} (hf : ∀ a, f a ≠ .error e) : ∀ as : List α, as.mapM f ≠ .error e
  | [] => fun h => by cases h
  | a :: as => by
    rw [List.mapM_cons]
    exact bind_ne_error (hf a) fun _ => bind_ne_error (mapM_ne_error hf as) fun _ h => by cases h

end Lib
