/-
Calls side by side that hold keys from one step to the next, as a transaction holds the rows it has inserted: a call
learns at each step which keys the others hold. The rule here proves an assertion about every call as for calls without
keys, and that no two calls hold one key; and calls that wait in one order of their ranks do not wait for ever.
-/
import OpenFish.Lib.Interleave

namespace Lib

/-- A program whose calls hold keys. A step is told which keys other calls hold. -/
structure LockProgram (σ κ α ω ε τ : Type*) where
  start : σ
  enter : σ → α → κ
  step : σ → (τ → Bool) → κ → ω → σ × κ
  other : σ → ε → σ
  holds : κ → List τ

namespace LockProgram

variable {σ κ α ω ε τ : Type*} [DecidableEq τ] (P : LockProgram σ κ α ω ε τ)

/-- Another call than `i` holds the key. -/
def taken (s : Scene σ κ) (i : ℕ) (key : τ) : Bool := (s.calls.eraseIdx i).any fun k => key ∈ P.holds k

def next (s : Scene σ κ) : Move α ω ε → Scene σ κ
  | .begin a => { s with calls := s.calls ++ [P.enter s.shared a] }
  | .step i w =>
    match s.calls[i]? with
    | none => s
    | some k => ⟨(P.step s.shared (P.taken s i) k w).1, s.calls.set i (P.step s.shared (P.taken s i) k w).2⟩
  | .other e => { s with shared := P.other s.shared e }

/-- The runs of any number of calls, in any order of their steps. -/
def machine : Machine (Scene σ κ) (Move α ω ε) Unit := ⟨⟨P.start, []⟩, fun s m => ((), P.next s m)⟩

@[simp] theorem machine_start : P.machine.start = ⟨P.start, []⟩ := rfl

@[simp] theorem machine_step (s : Scene σ κ) (m : Move α ω ε) : P.machine.step s m = ((), P.next s m) := rfl

theorem next_step {s : Scene σ κ} {i : ℕ} {k : κ} (h : s.calls[i]? = some k) (w : ω) :
    P.next s (.step i w) =
      ⟨(P.step s.shared (P.taken s i) k w).1, s.calls.set i (P.step s.shared (P.taken s i) k w).2⟩ := by
  simp only [next, h]

theorem next_none {s : Scene σ κ} {i : ℕ} (h : s.calls[i]? = none) (w : ω) : P.next s (.step i w) = s := by
  simp only [next, h]

theorem taken_eq_true {s : Scene σ κ} {i : ℕ} {key : τ} :
    P.taken s i key = true ↔ ∃ j k, j ≠ i ∧ s.calls[j]? = some k ∧ key ∈ P.holds k := by
  simp only [taken, List.any_eq_true, List.mem_eraseIdx_iff_getElem?, decide_eq_true_eq]
  constructor
  · rintro ⟨k, ⟨j, hne, hj⟩, hkey⟩; exact ⟨j, k, hne, hj, hkey⟩
  · rintro ⟨j, k, hne, hj, hkey⟩; exact ⟨k, ⟨j, hne, hj⟩, hkey⟩

/-- The keys two calls hold are different. -/
def Apart (s : Scene σ κ) : Prop :=
  ∀ {i j : ℕ} {k k' : κ}, i ≠ j → s.calls[i]? = some k → s.calls[j]? = some k' → List.Disjoint (P.holds k) (P.holds k')

variable {P} {I : σ → Prop} {Q : σ → κ → Prop}

/-- The assertions of a program: a call begins without keys and takes none that is held, a step keeps `I`, brings the
call that makes it to `Q`, and does not disturb `Q` of a call that holds other keys. -/
structure Outline (P : LockProgram σ κ α ω ε τ) (I : σ → Prop) (Q : σ → κ → Prop) : Prop where
  start : I P.start
  enter : ∀ {s a}, I s → Q s (P.enter s a)
  free : ∀ s a, P.holds (P.enter s a) = []
  locks : ∀ {s taken k w key}, key ∈ P.holds (P.step s taken k w).2 → key ∈ P.holds k ∨ taken key = false
  step : ∀ {s taken k w}, I s → Q s k → I (P.step s taken k w).1 ∧ Q (P.step s taken k w).1 (P.step s taken k w).2
  others : ∀ {s taken k w k'}, I s → Q s k → Q s k' → List.Disjoint (P.holds k) (P.holds k') →
    Q (P.step s taken k w).1 k'
  world : ∀ {s e}, I s → I (P.other s e)
  away : ∀ {s e k}, I s → Q s k → Q (P.other s e) k

/-- One move keeps the assertions, and the calls apart. -/
theorem Outline.next (h : Outline P I Q) {s : Scene σ κ} (hs : s.Holds I Q) (hapart : P.Apart s) (m : Move α ω ε) :
    (P.next s m).Holds I Q ∧ P.Apart (P.next s m) := by
  cases m with
  | begin a =>
    refine ⟨⟨hs.shared, fun hk => ?_⟩, fun hne hi hj => ?_⟩
    · rcases getElem?_append_cases hk with ⟨-, rfl⟩ | hk
      · exact h.enter hs.shared
      · exact hs.calls hk
    · rcases getElem?_append_cases hi with ⟨rfl, rfl⟩ | hi
      · rw [h.free]; exact fun _ hkey => absurd hkey List.not_mem_nil
      · rcases getElem?_append_cases hj with ⟨rfl, rfl⟩ | hj
        · rw [h.free]; exact fun _ _ hkey => absurd hkey List.not_mem_nil
        · exact hapart hne hi hj
  | step i w =>
    cases hi : s.calls[i]? with
    | none => rw [next_none P hi]; exact ⟨hs, hapart⟩
    | some k =>
      have hQ := hs.calls hi
      have hstep : I (P.step s.shared (P.taken s i) k w).1 ∧
          Q (P.step s.shared (P.taken s i) k w).1 (P.step s.shared (P.taken s i) k w).2 := h.step hs.shared hQ
      have hfresh {j : ℕ} {k' : κ} (hne : j ≠ i) (hj : s.calls[j]? = some k') :
          List.Disjoint (P.holds (P.step s.shared (P.taken s i) k w).2) (P.holds k') := by
        intro key hkey hkey'
        rcases h.locks hkey with hold | hfree
        · exact hapart (Ne.symm hne) hi hj hold hkey'
        · have htaken : P.taken s i key = true := (taken_eq_true P).2 ⟨j, k', hne, hj, hkey'⟩
          rw [hfree] at htaken
          cases htaken
      rw [next_step P hi]
      refine ⟨⟨hstep.1, fun hj => ?_⟩, fun hne ha hb => ?_⟩
      · rcases getElem?_set_cases hj with ⟨-, rfl⟩ | ⟨hne, hj⟩
        · exact hstep.2
        · exact h.others hs.shared hQ (hs.calls hj) (hapart (Ne.symm hne) hi hj)
      · rcases getElem?_set_cases ha with ⟨hai, hak⟩ | ⟨hnea, holda⟩
        · rcases getElem?_set_cases hb with ⟨hbi, -⟩ | ⟨hneb, holdb⟩
          · exact absurd (hai.trans hbi.symm) hne
          · rw [hak]; exact hfresh hneb holdb
        · rcases getElem?_set_cases hb with ⟨-, hbk⟩ | ⟨-, holdb⟩
          · rw [hbk]; exact fun key h h' => hfresh hnea holda h' h
          · exact hapart hne holda holdb
  | other e => exact ⟨⟨h.world hs.shared, fun hk => h.away hs.shared (hs.calls hk)⟩, fun hne hi hj => hapart hne hi hj⟩

/-- The assertions hold after every run, and the calls are apart. -/
theorem Outline.run (h : Outline P I Q) (ms : List (Move α ω ε)) :
    (P.machine.state ms).Holds I Q ∧ P.Apart (P.machine.state ms) :=
  P.machine.invariant (P := fun _ s => s.Holds I Q ∧ P.Apart s)
    ⟨⟨h.start, fun hk => by simp at hk⟩, fun _ hi => by simp at hi⟩ (fun _ _ m hs => h.next hs.1 hs.2 m) ms

/-- If every busy call advances, or waits for a key that only busy calls of lower rank hold, some call advances. -/
theorem exists_advance (P : LockProgram σ κ α ω ε τ) {s : Scene σ κ} {busy : κ → Prop} (rank : κ → ℕ) {advances : ℕ → κ → Prop}
    (h : ∀ (i : ℕ) (k : κ), s.calls[i]? = some k → busy k →
      advances i k ∨ ∃ key, P.taken s i key = true ∧
        ∀ (j : ℕ) (k' : κ), s.calls[j]? = some k' → key ∈ P.holds k' → busy k' ∧ rank k' < rank k)
    {i : ℕ} {k : κ} (hi : s.calls[i]? = some k) (hk : busy k) :
    ∃ (j : ℕ) (k' : κ), s.calls[j]? = some k' ∧ busy k' ∧ advances j k' := by
  induction hrank : rank k using Nat.strongRecOn generalizing i k with
  | ind n ih =>
    rcases h i k hi hk with hadvances | ⟨key, htaken, hholder⟩
    · exact ⟨i, k, hi, hk, hadvances⟩
    · obtain ⟨j, k', -, hj, hkey⟩ := (taken_eq_true P).1 htaken
      obtain ⟨hbusy, hlt⟩ := hholder j k' hj hkey
      exact ih (rank k') (by omega) hj hbusy rfl

end LockProgram

end Lib
