/-
Append-only transition logs: a log is the trail of a value when its entries link up one after the
other, from nothing to a first value and on to the value as it stands.
-/
import Mathlib.Data.List.Chain

namespace Lib

variable {ε σ : Type*} (src : ε → Option σ) (dst : ε → σ)

/-- The log leads to `now`: it starts from nothing to `init`, every entry starts where the one before
it ended, and the last one ended at `now`. -/
structure Trail (init : σ) (log : List ε) (now : σ) : Prop where
  first : ∃ e, log.head? = some e ∧ src e = none ∧ dst e = init
  linked : log.IsChain fun a b => src b = some (dst a)
  last : ∃ e, log.getLast? = some e ∧ dst e = now

namespace Trail

variable {src dst} {init now : σ} {log : List ε}

theorem start {e : ε} (hs : src e = none) (hd : dst e = init) : Trail src dst init [e] init :=
  ⟨⟨e, rfl, hs, hd⟩, List.isChain_singleton e, ⟨e, rfl, hd⟩⟩

/-- An entry that starts where the trail stands moves it on. -/
theorem append (h : Trail src dst init log now) {e : ε} (hs : src e = some now) :
    Trail src dst init (log ++ [e]) (dst e) := by
  obtain ⟨a, ha, ha', ha''⟩ := h.first
  obtain ⟨z, hz, hz'⟩ := h.last
  refine ⟨⟨a, by rw [List.head?_append, ha, Option.some_or], ha', ha''⟩, ?_, ⟨e, by simp, rfl⟩⟩
  refine List.isChain_append.2 ⟨h.linked, List.isChain_singleton e, fun x hx y hy => ?_⟩
  rw [hz] at hx
  cases hx; cases hy
  rw [hs, hz']

end Trail

end Lib
