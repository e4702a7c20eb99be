/-
Kahn's algorithm over names of any type: what one finished name does to the counters of its neighbours, the invariant of
the loop, and what an empty queue then says: all names are finished in an order that respects the dependencies, or some
name depends on itself.
-/
import Mathlib.Data.Fintype.Pigeonhole
import Mathlib.Data.List.Nodup
import Mathlib.Data.Set.Finite.List
import Mathlib.Logic.Function.Iterate
import Mathlib.Logic.Relation
import Mathlib.Order.Fin.Basic

namespace Lib.Kahn

variable {α : Type*}

/-- Every name comes after all its dependencies. -/
def Ordered (deps : α → List α) (order : List α) : Prop :=
  ∀ before x after, order = before ++ x :: after → ∀ d ∈ deps x, d ∈ before

theorem Ordered.nil (deps : α → List α) : Ordered deps [] :=
  fun _ _ _ h => absurd h.symm (by simp)

/-- A name whose dependencies are all there may come next. -/
theorem Ordered.concat {deps : α → List α} {order : List α} {x : α} (h : Ordered deps order)
    (hx : ∀ d ∈ deps x, d ∈ order) : Ordered deps (order ++ [x]) := by
  intro before y after heq d hd
  rcases List.eq_nil_or_concat after with rfl | ⟨rest, last, rfl⟩
  · obtain ⟨rfl, hyx⟩ := List.append_inj' heq rfl
    cases hyx
    exact hx d hd
  · have hsplit : order ++ [x] = (before ++ y :: rest) ++ [last] := by simpa using heq
    obtain ⟨rfl, -⟩ := List.append_inj' hsplit rfl
    exact h before y rest rfl d hd

section Cycles

/-- In a finite set without a last element there is a cycle. -/
theorem exists_cycle {rel : α → α → Prop} {names : List α} {x : α} (hx : x ∈ names)
    (h : ∀ x ∈ names, ∃ y ∈ names, rel x y) : ∃ y, Relation.TransGen rel y y := by
  choose! next hmem hrel using h
  let walk : ℕ → α := fun n => next^[n] x
  have hwalk : ∀ n, walk n ∈ names := by
    intro n
    induction n with
    | zero => exact hx
    | succ n ih =>
      rw [show walk (n + 1) = next (walk n) from Function.iterate_succ_apply' next n x]
      exact hmem _ ih
  have hreach : ∀ m n, Relation.TransGen rel (walk m) (walk (m + n + 1)) := by
    intro m n
    have hstep : ∀ k, rel (walk k) (walk (k + 1)) := by
      intro k
      rw [show walk (k + 1) = next (walk k) from Function.iterate_succ_apply' next k x]
      exact hrel _ (hwalk k)
    induction n with
    | zero => exact .single (hstep m)
    | succ n ih => exact ih.tail (hstep (m + n + 1))
  have hfinite : Finite {y // y ∈ names} := (List.finite_toSet names).to_subtype
  obtain ⟨m, n, hne, heq⟩ :=
    Finite.exists_ne_map_eq_of_infinite fun n : ℕ => (⟨walk n, hwalk n⟩ : {y // y ∈ names})
  have heq : walk m = walk n := congrArg Subtype.val heq
  rcases Nat.lt_or_gt_of_ne hne with hlt | hlt
  · obtain ⟨k, rfl⟩ := Nat.exists_eq_add_of_lt hlt
    exact ⟨walk m, by simpa [← heq] using hreach m k⟩
  · obtain ⟨k, rfl⟩ := Nat.exists_eq_add_of_lt hlt
    exact ⟨walk n, by simpa [heq] using hreach n k⟩

variable [DecidableEq α]

/-- Where an order has all names, no name depends on itself, however many steps there are between. -/
theorem Ordered.acyclic {deps : α → List α} {order : List α} (h : Ordered deps order) {rel : α → α → Prop}
    (hrel : ∀ x y, rel x y → x ∈ order ∧ y ∈ deps x) (x : α) : ¬ Relation.TransGen rel x x := by
  have hearlier : ∀ x y, rel x y → order.idxOf y < order.idxOf x := by
    intro x y hxy
    obtain ⟨hx, hy⟩ := hrel x y hxy
    obtain ⟨before, after, rfl, hnot⟩ := List.eq_append_cons_of_mem hx
    have hbefore : y ∈ before := h before x after rfl y hy
    rw [List.idxOf_append_of_mem hbefore, List.idxOf_append_of_notMem hnot, List.idxOf_cons_self]
    have := List.idxOf_lt_length_of_mem hbefore
    omega
  have htrans : ∀ y, Relation.TransGen rel x y → order.idxOf y < order.idxOf x := by
    intro y hxy
    induction hxy with
    | single hstep => exact hearlier _ _ hstep
    | tail _ hstep ih => exact (hearlier _ _ hstep).trans ih
  exact fun hcycle => lt_irrefl _ (htrans x hcycle)

end Cycles

section Loop

variable [DecidableEq α]

/-- One neighbour of a finished name has a dependency less, and is queued if that was the last one. -/
def release (s : (α → ℤ) × List α) (x : α) : (α → ℤ) × List α :=
  (Function.update s.1 x (s.1 x - 1), if s.1 x - 1 = 0 then s.2 ++ [x] else s.2)

/-- The neighbours of a finished name: every counter falls by the number of edges, and the names whose counter reaches
zero are queued, each once. -/
theorem foldl_release : ∀ (xs : List α) (degree : α → ℤ) (queue : List α), (∀ x ∈ xs, (xs.count x : ℤ) ≤ degree x) →
    (∀ x, (xs.foldl release (degree, queue)).1 x = degree x - xs.count x) ∧
    ∃ fresh, (xs.foldl release (degree, queue)).2 = queue ++ fresh ∧ fresh.Nodup ∧
      ∀ x, x ∈ fresh ↔ x ∈ xs ∧ degree x = xs.count x
  | [], degree, queue, _ => by simp
  | y :: ys, degree, queue, hle => by
    have hlower : ∀ x ∈ ys, (ys.count x : ℤ) ≤ Function.update degree y (degree y - 1) x := by
      intro x hx
      have := hle x (List.mem_cons_of_mem _ hx)
      rw [List.count_cons] at this
      by_cases hxy : x = y
      · subst hxy
        rw [Function.update_self]
        simp only [beq_self_eq_true, if_true] at this
        push_cast at this
        omega
      · rw [Function.update_of_ne hxy]
        omega
    have hself : (ys.count y : ℤ) + 1 ≤ degree y := by
      have := hle y (List.mem_cons_self ..)
      rw [List.count_cons_self] at this
      push_cast at this
      exact this
    have hcount : ∀ x, ((y :: ys).count x : ℤ) = ys.count x + if x = y then 1 else 0 := by
      intro x
      rw [List.count_cons]
      by_cases hxy : x = y
      · simp [hxy]
      · rw [if_neg hxy, if_neg fun h => hxy (beq_iff_eq.1 h).symm]
        rfl
    obtain ⟨hdegree, fresh, hqueue, hnodup, hfresh⟩ := foldl_release ys (Function.update degree y (degree y - 1))
      (if degree y - 1 = 0 then queue ++ [y] else queue) hlower
    rw [List.foldl_cons, release]
    refine ⟨fun x => ?_, ?_⟩
    · rw [hdegree, hcount]
      by_cases hxy : x = y
      · subst hxy
        rw [Function.update_self, if_pos rfl]
        omega
      · rw [Function.update_of_ne hxy, if_neg hxy]
        omega
    by_cases hlast : degree y - 1 = 0
    · -- the last edge into `y`: it is queued here and not again
      have hy : y ∉ ys := by
        intro hmem
        have := List.count_pos_iff.2 hmem
        omega
      refine ⟨y :: fresh, ?_, List.nodup_cons.2 ⟨fun hmem => hy ((hfresh y).1 hmem).1, hnodup⟩, fun x => ?_⟩
      · rw [hqueue, if_pos hlast, List.append_assoc, List.singleton_append]
      · rw [List.mem_cons, List.mem_cons, hfresh, hcount]
        by_cases hxy : x = y
        · subst hxy
          have := List.count_eq_zero_of_not_mem hy
          simp only [true_or, true_and, if_true, true_iff]
          omega
        · simp [hxy]
    · refine ⟨fresh, by rw [hqueue, if_neg hlast], hnodup, fun x => ?_⟩
      rw [List.mem_cons, hfresh, hcount]
      by_cases hxy : x = y
      · subst hxy
        rw [Function.update_self, if_pos rfl]
        simp only [true_or, true_and]
        constructor
        · rintro ⟨-, heq⟩
          omega
        · intro heq
          refine ⟨List.count_pos_iff.1 ?_, by omega⟩
          omega
      · simp [hxy]

/-- The loop of the algorithm: what is finished comes in order, a counter holds the number of dependencies that are not
finished, and the names without any are finished or queued. -/
structure Inv (names : List α) (deps : α → List α) (degree : α → ℤ) (queue finished : List α) : Prop where
  nodup : (finished ++ queue).Nodup
  known : ∀ x ∈ finished ++ queue, x ∈ names
  counter : ∀ x ∈ names, degree x = ((deps x).countP (· ∉ finished) : ℤ)
  ready : ∀ x ∈ names, x ∈ finished ++ queue ↔ degree x = 0
  ordered : Ordered deps finished

/-- The edges out of a name: each name has one to each place where it is a dependency. -/
structure Neighbors (names : List α) (deps : α → List α) (neighbors : α → List α) : Prop where
  known : ∀ d, ∀ x ∈ neighbors d, x ∈ names
  count : ∀ d, ∀ x ∈ names, (neighbors d).count x = (deps x).count d

variable {names : List α} {deps neighbors : α → List α} {degree : α → ℤ} {queue finished : List α}

/-- A name leaves the dependencies that are not finished. -/
theorem countP_finished (finished : List α) (name : α) (hname : name ∉ finished) : ∀ ds : List α,
    ds.countP (· ∉ finished ++ [name]) + ds.count name = ds.countP (· ∉ finished)
  | [] => rfl
  | d :: ds => by
    have ih := countP_finished finished name hname ds
    rw [List.countP_cons, List.countP_cons, List.count_cons]
    by_cases hd : d = name
    · subst hd
      simp only [List.mem_append, List.mem_singleton, hname] at ih ⊢
      simp at ih ⊢
      omega
    · by_cases hmem : d ∈ finished <;> simp [hd, hmem] at ih ⊢ <;> omega

theorem Inv.next {name : α} (h : Inv names deps degree (name :: queue) finished) (hn : Neighbors names deps neighbors) :
    Inv names deps ((neighbors name).foldl release (degree, queue)).1
      ((neighbors name).foldl release (degree, queue)).2 (finished ++ [name]) := by
  have hmid : name ∈ finished ++ name :: queue := List.mem_append_right _ (List.mem_cons_self ..)
  have hname : name ∉ finished := by
    intro hmem
    exact (List.disjoint_of_nodup_append h.nodup) hmem (List.mem_cons_self ..)
  -- a counter is never below the number of edges that are taken away
  have hsplit : ∀ x ∈ names, degree x = ((deps x).countP (· ∉ finished ++ [name]) : ℤ) + (neighbors name).count x := by
    intro x hx
    rw [h.counter x hx, hn.count name x hx, ← countP_finished finished name hname (deps x)]
    push_cast
    rfl
  obtain ⟨hdegree, fresh, hqueue, hnodup, hfresh⟩ := foldl_release (neighbors name) degree queue fun x hx => by
    have := hsplit x (hn.known name x hx)
    omega
  have hlist : finished ++ [name] ++ (queue ++ fresh) = (finished ++ name :: queue) ++ fresh := by simp
  -- what is queued now had dependencies left
  have hwaiting : ∀ x ∈ fresh, x ∉ finished ++ name :: queue := by
    intro x hx hold
    obtain ⟨hmem, heq⟩ := (hfresh x).1 hx
    have hzero := (h.ready x (h.known x hold)).1 hold
    have := List.count_pos_iff.2 hmem
    omega
  rw [hqueue]
  refine ⟨?_, ?_, ?_, ?_, ?_⟩
  · rw [hlist]
    exact h.nodup.append hnodup fun x hold hx => hwaiting x hx hold
  · intro x hx
    rw [hlist, List.mem_append] at hx
    exact hx.elim (h.known x) fun hx => hn.known name x ((hfresh x).1 hx).1
  · intro x hx
    rw [hdegree, hsplit x hx]
    omega
  · intro x hx
    rw [hlist, List.mem_append, hfresh, h.ready x hx, hdegree]
    have := hsplit x hx
    constructor
    · rintro (hzero | ⟨-, heq⟩) <;> omega
    · intro hzero
      by_cases hmem : x ∈ neighbors name
      · exact Or.inr ⟨hmem, by omega⟩
      · rw [List.count_eq_zero_of_not_mem hmem] at hzero
        exact Or.inl (by simpa using hzero)
  · refine h.ordered.concat fun d hd => ?_
    have hzero : (deps name).countP (· ∉ finished) = 0 := by
      have hknown := h.known name hmid
      have := h.counter name hknown
      rw [(h.ready name hknown).1 hmid] at this
      omega
    by_contra hnot
    exact (List.countP_eq_zero.1 hzero) d hd (decide_eq_true hnot)

/-- What the counters hold at the start, when nothing is finished. -/
theorem Inv.start (hnodup : queue.Nodup) (hqueue : ∀ x, x ∈ queue ↔ x ∈ names ∧ degree x = 0)
    (hdegree : ∀ x ∈ names, degree x = (deps x).length) : Inv names deps degree queue [] where
  nodup := hnodup
  known x hx := ((hqueue x).1 hx).1
  counter x hx := by simp [hdegree x hx]
  ready x hx := by simp [hqueue, hx]
  ordered := Ordered.nil deps

/-- There are never more finished names than names. -/
theorem Inv.length_le (h : Inv names deps degree queue finished) :
    finished.length + queue.length ≤ names.length := by
  rw [← List.length_append]
  exact (List.subperm_of_subset h.nodup h.known).length_le

/-- With an empty queue, either all names are finished or some name depends on itself. -/
theorem Inv.complete (h : Inv names deps degree [] finished) (hdeps : ∀ x ∈ names, ∀ d ∈ deps x, d ∈ names)
    (hlength : finished.length ≠ names.length) (hnames : names.Nodup) :
    ∃ x, Relation.TransGen (fun x d => x ∈ names ∧ d ∈ deps x) x x := by
  have hleft : ∃ x, x ∈ names.filter (· ∉ finished) := by
    by_contra hnone
    push Not at hnone
    apply hlength
    have hsub : names ⊆ finished := by
      intro x hx
      by_contra hnot
      exact hnone x (List.mem_filter.2 ⟨hx, decide_eq_true hnot⟩)
    have hle := (List.subperm_of_subset hnames hsub).length_le
    have hge := h.length_le
    rw [List.length_nil] at hge
    omega
  obtain ⟨x, hx⟩ := hleft
  refine exists_cycle hx fun y hy => ?_
  obtain ⟨hy, hnot⟩ := List.mem_filter.1 hy
  have hnot : y ∉ finished := of_decide_eq_true hnot
  have hpos : ¬ (deps y).countP (· ∉ finished) = 0 := by
    intro hzero
    have hdegree := h.counter y hy
    rw [hzero] at hdegree
    have := (h.ready y hy).2 hdegree
    rw [List.append_nil] at this
    exact hnot this
  rw [List.countP_eq_zero] at hpos
  push Not at hpos
  obtain ⟨d, hd, hleft⟩ := hpos
  exact ⟨d, List.mem_filter.2 ⟨hdeps y hy d hd, hleft⟩, hy, hd⟩

end Loop

end Lib.Kahn
