/-
Regular expressions as Python's `re` matches them: by backtracking, alternatives from the left, greedy repetition the
longest first and lazy repetition the shortest first, with what the groups capture.
-/
import Mathlib.Data.List.Basic
import Mathlib.Tactic.Common

namespace Lib

inductive Regex
  | empty
  | char (p : Char → Bool)
  | seq (a b : Regex)
  | alt (a b : Regex)
  /-- `a*`, and `a*?` when lazy. -/
  | many (isLazy : Bool) (a : Regex)
  | group (name : String) (a : Regex)
  /-- `$`. -/
  | dollar

namespace Regex

/-- What is left to read, and what the groups have captured, the latest first. -/
structure Reading where
  rest : List Char
  groups : List (String × String)
  deriving DecidableEq, Repr

/-- The iterations of a repeated expression. One that reads nothing ends the repetition. -/
def iterate (isLazy : Bool) (once : Reading → List Reading) : ℕ → Reading → List Reading
  | 0, s => [s]
  | n + 1, s =>
    let more := ((once s).filter fun t => t.rest.length < s.rest.length).flatMap (iterate isLazy once n)
    if isLazy then s :: more else more ++ [s]

/-- The ways to match, in the order in which they are tried. -/
def runs : Regex → Reading → List Reading
  | empty, s => [s]
  | char p, s =>
    match s.rest with
    | [] => []
    | c :: rest => if p c then [{ s with rest }] else []
  | seq a b, s => (runs a s).flatMap (runs b)
  | alt a b, s => runs a s ++ runs b s
  | many isLazy a, s => iterate isLazy (runs a) s.rest.length s
  | group name a, s => (runs a s).map fun t =>
      { t with groups := (name, String.ofList (s.rest.take (s.rest.length - t.rest.length))) :: t.groups }
  | dollar, s => if s.rest = [] ∨ s.rest = ['\n'] then [s] else []

/-- The first way to match. -/
def first (r : Regex) (s : Reading) : Option Reading := (runs r s).head?

/-- `pattern.match(text)`: the captures. -/
def capture (r : Regex) (text : String) : Option (List (String × String)) :=
  (first r ⟨text.toList, []⟩).map Reading.groups

/-- `a+`, and `a+?` when lazy. -/
def some (isLazy : Bool) (a : Regex) : Regex := seq a (many isLazy a)

/-- `a{n,}`. -/
def atLeast : ℕ → Regex → Regex
  | 0, a => many false a
  | n + 1, a => seq a (atLeast n a)

/-- `a?`. -/
def opt (a : Regex) : Regex := alt a empty

def lit : List Char → Regex
  | [] => empty
  | c :: cs => seq (char (· = c)) (lit cs)

/-- One of several texts. -/
def oneOf : List (List Char) → Regex
  | [] => char fun _ => false
  | cs :: more => alt (lit cs) (oneOf more)

/-- `.`. -/
def dot : Regex := char (· ≠ '\n')

/-! ## Which ways there are -/

variable {s t : Reading}

@[simp] theorem mem_runs_empty : t ∈ runs empty s ↔ t = s := List.mem_singleton

theorem mem_runs_char {p : Char → Bool} :
    t ∈ runs (char p) s ↔ ∃ c, p c = true ∧ s.rest = c :: t.rest ∧ t.groups = s.groups := by
  unfold runs
  split
  · rename_i hnil
    simp [hnil]
  · rename_i c rest hcons
    rw [hcons]
    split
    · rename_i hp
      rw [List.mem_singleton]
      constructor
      · rintro rfl; exact ⟨c, hp, rfl, rfl⟩
      · rintro ⟨c', -, heq, hgroups⟩
        cases heq
        cases t
        cases hgroups
        rfl
    · rename_i hp
      refine iff_of_false List.not_mem_nil ?_
      rintro ⟨c', hp', heq, -⟩
      cases heq
      exact hp hp'

@[simp] theorem mem_runs_seq {a b : Regex} : t ∈ runs (seq a b) s ↔ ∃ u ∈ runs a s, t ∈ runs b u := List.mem_flatMap

@[simp] theorem mem_runs_alt {a b : Regex} : t ∈ runs (alt a b) s ↔ t ∈ runs a s ∨ t ∈ runs b s := List.mem_append

@[simp] theorem mem_runs_opt {a : Regex} : t ∈ runs (opt a) s ↔ t ∈ runs a s ∨ t = s := by
  rw [opt, mem_runs_alt, mem_runs_empty]

theorem mem_runs_group {name : String} {a : Regex} : t ∈ runs (group name a) s ↔
    ∃ u ∈ runs a s, t = { u with groups :=
      (name, String.ofList (s.rest.take (s.rest.length - u.rest.length))) :: u.groups } := by
  simp only [runs, List.mem_map, eq_comm]

theorem mem_runs_dollar : t ∈ runs dollar s ↔ t = s ∧ (s.rest = [] ∨ s.rest = ['\n']) := by
  unfold runs
  split
  · rename_i h
    rw [List.mem_singleton]
    exact ⟨fun ht => ⟨ht, h⟩, fun ht => ht.1⟩
  · rename_i h
    exact iff_of_false List.not_mem_nil fun ht => h ht.2

theorem mem_runs_lit {cs : List Char} : t ∈ runs (lit cs) s ↔ s.rest = cs ++ t.rest ∧ t.groups = s.groups := by
  induction cs generalizing s with
  | nil =>
    rw [lit, mem_runs_empty, List.nil_append]
    constructor
    · rintro rfl; exact ⟨rfl, rfl⟩
    · rintro ⟨hrest, hgroups⟩
      cases s; cases t; cases hrest; cases hgroups
      rfl
  | cons c cs ih =>
    rw [lit, mem_runs_seq]
    constructor
    · rintro ⟨u, hu, ht⟩
      obtain ⟨c', hc, hrest, hgroups⟩ := mem_runs_char.1 hu
      obtain ⟨hrest', hgroups'⟩ := ih.1 ht
      rw [decide_eq_true_eq] at hc
      exact ⟨by rw [hrest, hrest', hc, List.cons_append], hgroups'.trans hgroups⟩
    · rintro ⟨hrest, hgroups⟩
      exact ⟨⟨cs ++ t.rest, s.groups⟩, mem_runs_char.2 ⟨c, decide_eq_true rfl, hrest, rfl⟩, ih.2 ⟨rfl, hgroups⟩⟩

theorem mem_runs_oneOf {texts : List (List Char)} :
    t ∈ runs (oneOf texts) s ↔ ∃ cs ∈ texts, s.rest = cs ++ t.rest ∧ t.groups = s.groups := by
  induction texts with
  | nil =>
    rw [oneOf, mem_runs_char]
    simp
  | cons cs more ih => rw [oneOf, mem_runs_alt, ih, mem_runs_lit, List.exists_mem_cons_iff]

/-- Repeating a character class reads a text of the class. -/
theorem mem_iterate_char {isLazy : Bool} {p : Char → Bool} {n : ℕ} (hn : s.rest.length ≤ n) :
    t ∈ iterate isLazy (runs (char p)) n s ↔
      ∃ pre, (∀ c ∈ pre, p c = true) ∧ s.rest = pre ++ t.rest ∧ t.groups = s.groups := by
  have hself : t = s ↔ s.rest = t.rest ∧ t.groups = s.groups := by
    cases s; cases t
    simp only [Reading.mk.injEq, eq_comm]
  induction n generalizing s with
  | zero =>
    have hnil : s.rest = [] := List.length_eq_zero_iff.1 (Nat.le_zero.1 hn)
    rw [iterate, List.mem_singleton, hself]
    constructor
    · rintro ⟨hrest, hgroups⟩
      exact ⟨[], fun c hc => absurd hc List.not_mem_nil, hrest, hgroups⟩
    · rintro ⟨pre, -, hrest, hgroups⟩
      have := List.append_eq_nil_iff.1 (hrest.symm.trans hnil)
      exact ⟨by rw [hrest, this.1, List.nil_append], hgroups⟩
  | succ n ih =>
    have hmore : t ∈ iterate isLazy (runs (char p)) (n + 1) s ↔
        t = s ∨ ∃ u ∈ runs (char p) s, u.rest.length < s.rest.length ∧ t ∈ iterate isLazy (runs (char p)) n u := by
      simp only [iterate]
      cases isLazy <;>
        simp only [Bool.false_eq_true, if_true, if_false, List.mem_append, List.mem_cons, List.mem_flatMap,
          List.mem_filter, decide_eq_true_eq, List.not_mem_nil, or_false, and_assoc]
      exact or_comm
    rw [hmore, hself]
    constructor
    · rintro (⟨hrest, hgroups⟩ | ⟨u, hu, hlt, ht⟩)
      · exact ⟨[], fun c hc => absurd hc List.not_mem_nil, hrest, hgroups⟩
      · obtain ⟨c, hc, hrest, hgroups⟩ := mem_runs_char.1 hu
        obtain ⟨pre, hpre, hrest', hgroups'⟩ := (ih (by omega) (by
          cases u; cases t
          simp only [Reading.mk.injEq, eq_comm])).1 ht
        refine ⟨c :: pre, ?_, by rw [hrest, hrest', List.cons_append], hgroups'.trans hgroups⟩
        intro c' hc'
        rcases List.mem_cons.1 hc' with rfl | hc'
        · exact hc
        · exact hpre c' hc'
    · rintro ⟨pre, hpre, hrest, hgroups⟩
      cases pre with
      | nil => exact .inl ⟨hrest, hgroups⟩
      | cons c pre =>
        refine .inr ⟨⟨pre ++ t.rest, s.groups⟩,
          mem_runs_char.2 ⟨c, hpre c (List.mem_cons_self ..), by rw [hrest, List.cons_append], rfl⟩, ?_, ?_⟩
        · rw [hrest, List.cons_append, List.length_cons]
          exact Nat.lt_succ_self _
        · have hlen : (pre ++ t.rest).length ≤ n := by
            rw [hrest, List.cons_append, List.length_cons] at hn
            omega
          exact (ih hlen (by cases t; simp only [Reading.mk.injEq, eq_comm])).2
            ⟨pre, fun c' hc' => hpre c' (List.mem_cons_of_mem _ hc'), rfl, hgroups⟩

theorem mem_runs_many_char {isLazy : Bool} {p : Char → Bool} :
    t ∈ runs (many isLazy (char p)) s ↔
      ∃ pre, (∀ c ∈ pre, p c = true) ∧ s.rest = pre ++ t.rest ∧ t.groups = s.groups := by
  rw [runs]
  exact mem_iterate_char (Nat.le_refl _)

theorem mem_runs_some_char {isLazy : Bool} {p : Char → Bool} :
    t ∈ runs (some isLazy (char p)) s ↔
      ∃ pre, pre ≠ [] ∧ (∀ c ∈ pre, p c = true) ∧ s.rest = pre ++ t.rest ∧ t.groups = s.groups := by
  rw [some, mem_runs_seq]
  constructor
  · rintro ⟨u, hu, ht⟩
    obtain ⟨c, hc, hrest, hgroups⟩ := mem_runs_char.1 hu
    obtain ⟨pre, hpre, hrest', hgroups'⟩ := mem_runs_many_char.1 ht
    refine ⟨c :: pre, List.cons_ne_nil _ _, ?_, by rw [hrest, hrest', List.cons_append], hgroups'.trans hgroups⟩
    intro c' hc'
    rcases List.mem_cons.1 hc' with rfl | hc'
    · exact hc
    · exact hpre c' hc'
  · rintro ⟨pre, hne, hpre, hrest, hgroups⟩
    cases pre with
    | nil => exact absurd rfl hne
    | cons c pre =>
      exact ⟨⟨pre ++ t.rest, s.groups⟩,
        mem_runs_char.2 ⟨c, hpre c (List.mem_cons_self ..), by rw [hrest, List.cons_append], rfl⟩,
        mem_runs_many_char.2 ⟨pre, fun c' hc' => hpre c' (List.mem_cons_of_mem _ hc'), rfl, hgroups⟩⟩

/-- A captured text that a group reads. -/
theorem mem_runs_group_text {name : String} {a : Regex} {P : List Char → Prop}
    (h : ∀ u, u ∈ runs a s ↔ ∃ pre, P pre ∧ s.rest = pre ++ u.rest ∧ u.groups = s.groups) :
    t ∈ runs (group name a) s ↔
      ∃ pre, P pre ∧ s.rest = pre ++ t.rest ∧ t.groups = (name, String.ofList pre) :: s.groups := by
  have htake : ∀ {pre rest : List Char}, s.rest = pre ++ rest → s.rest.take (s.rest.length - rest.length) = pre := by
    intro pre rest heq
    rw [heq, List.length_append, Nat.add_sub_cancel, List.take_left]
  rw [mem_runs_group]
  constructor
  · rintro ⟨u, hu, rfl⟩
    obtain ⟨pre, hpre, hrest, hgroups⟩ := (h u).1 hu
    exact ⟨pre, hpre, hrest, by rw [htake hrest, hgroups]⟩
  · rintro ⟨pre, hpre, hrest, hgroups⟩
    refine ⟨⟨t.rest, s.groups⟩, (h _).2 ⟨pre, hpre, hrest, rfl⟩, ?_⟩
    cases t
    rw [htake hrest]
    exact congrArg _ hgroups

theorem mem_runs_group_some {name : String} {isLazy : Bool} {p : Char → Bool} :
    t ∈ runs (group name (some isLazy (char p))) s ↔
      ∃ pre, (pre ≠ [] ∧ ∀ c ∈ pre, p c = true) ∧ s.rest = pre ++ t.rest ∧ t.groups = (name, String.ofList pre) :: s.groups := by
  refine mem_runs_group_text fun u => ?_
  rw [mem_runs_some_char]
  simp only [and_assoc]

theorem mem_runs_group_oneOf {name : String} {texts : List (List Char)} : t ∈ runs (group name (oneOf texts)) s ↔
    ∃ cs, cs ∈ texts ∧ s.rest = cs ++ t.rest ∧ t.groups = (name, String.ofList cs) :: s.groups :=
  mem_runs_group_text fun _ => mem_runs_oneOf

/-! ## Which characters are read -/

/-- Every character class of the expression is within `p`. -/
def Within (p : Char → Prop) : Regex → Prop
  | empty | dollar => True
  | char q => ∀ c, q c = true → p c
  | seq a b | alt a b => a.Within p ∧ b.Within p
  | many _ a | group _ a => a.Within p

theorem within_atLeast {p : Char → Prop} {a : Regex} (h : a.Within p) : ∀ n, (atLeast n a).Within p
  | 0 => h
  | n + 1 => ⟨h, within_atLeast h n⟩

/-- `t` is reached from `s` by reading characters of `p`. -/
def Reads (p : Char → Prop) (s t : Reading) : Prop := ∃ pre, (∀ c ∈ pre, p c) ∧ s.rest = pre ++ t.rest

theorem Reads.refl {p : Char → Prop} (s : Reading) : Reads p s s :=
  ⟨[], fun _ hc => absurd hc List.not_mem_nil, (List.nil_append _).symm⟩

theorem Reads.trans {p : Char → Prop} {s u t : Reading} (h : Reads p s u) (h' : Reads p u t) : Reads p s t := by
  obtain ⟨pre, hpre, hrest⟩ := h
  obtain ⟨pre', hpre', hrest'⟩ := h'
  exact ⟨pre ++ pre', List.forall_mem_append.2 ⟨hpre, hpre'⟩, by rw [hrest, hrest', List.append_assoc]⟩

theorem reads_iterate {p : Char → Prop} {isLazy : Bool} {once : Reading → List Reading}
    (honce : ∀ {s t}, t ∈ once s → Reads p s t) {n : ℕ} (ht : t ∈ iterate isLazy once n s) : Reads p s t := by
  induction n generalizing s with
  | zero =>
    rw [iterate, List.mem_singleton] at ht
    exact ht ▸ .refl t
  | succ n ih =>
    have hmore : t = s ∨ ∃ u ∈ once s, t ∈ iterate isLazy once n u := by
      simp only [iterate] at ht
      split at ht
      · rcases List.mem_cons.1 ht with hself | hmore
        · exact .inl hself
        · obtain ⟨u, hu, hmore⟩ := List.mem_flatMap.1 hmore
          exact .inr ⟨u, List.mem_of_mem_filter hu, hmore⟩
      · rcases List.mem_append.1 ht with hmore | hself
        · obtain ⟨u, hu, hmore⟩ := List.mem_flatMap.1 hmore
          exact .inr ⟨u, List.mem_of_mem_filter hu, hmore⟩
        · exact .inl (List.mem_singleton.1 hself)
    rcases hmore with rfl | ⟨u, hu, hmore⟩
    · exact .refl t
    · exact (honce hu).trans (ih hmore)

/-- An expression reads characters of its classes only. -/
theorem reads_of_within {p : Char → Prop} {r : Regex} (h : r.Within p) (ht : t ∈ runs r s) : Reads p s t := by
  induction r generalizing s t with
  | empty => exact mem_runs_empty.1 ht ▸ .refl t
  | dollar => exact (mem_runs_dollar.1 ht).1 ▸ .refl t
  | char q =>
    obtain ⟨c, hc, hrest, -⟩ := mem_runs_char.1 ht
    exact ⟨[c], by simpa using h c hc, hrest⟩
  | seq a b iha ihb =>
    obtain ⟨u, hu, hb⟩ := mem_runs_seq.1 ht
    exact (iha h.1 hu).trans (ihb h.2 hb)
  | alt a b iha ihb =>
    rcases mem_runs_alt.1 ht with ha | hb
    · exact iha h.1 ha
    · exact ihb h.2 hb
  | many isLazy a ih => exact reads_iterate (ih h) ht
  | group name a ih =>
    obtain ⟨u, hu, rfl⟩ := mem_runs_group.1 ht
    exact ih (t := u) h hu

/-! ## Which way comes first -/

theorem first_seq (a b : Regex) (s : Reading) : first (seq a b) s = (runs a s).findSome? (first b) := by
  rw [first, runs, List.head?_flatMap]
  rfl

theorem first_eq_none {r : Regex} : first r s = none ↔ ∀ t, t ∉ runs r s := by
  rw [first, List.head?_eq_none_iff, List.eq_nil_iff_forall_not_mem]

theorem mem_of_first {r : Regex} (h : first r s = .some t) : t ∈ runs r s := List.mem_of_head? h

theorem exists_first {r : Regex} (h : t ∈ runs r s) : ∃ x, first r s = .some x := by
  rw [← Option.ne_none_iff_exists']
  intro hnone
  exact first_eq_none.1 hnone t h

theorem capture_eq_none {r : Regex} {text : String} : capture r text = none ↔ ∀ t, t ∉ runs r ⟨text.toList, []⟩ := by
  rw [capture, Option.map_eq_none_iff, first_eq_none]

theorem exists_of_capture {r : Regex} {text : String} {groups : List (String × String)} (h : capture r text = .some groups) :
    ∃ t ∈ runs r ⟨text.toList, []⟩, t.groups = groups := by
  obtain ⟨t, ht, rfl⟩ := Option.map_eq_some_iff.1 h
  exact ⟨t, mem_of_first ht, rfl⟩

/-- A lazy repetition reads up to the first place from where the rest matches. -/
theorem findSome?_iterate_lazy {β : Type*} {p : Char → Bool} {f : Reading → Option β} {x : β} {rest : List Char}
    {pre : List Char} {n : ℕ} (hn : s.rest.length ≤ n) (hrest : s.rest = pre ++ rest) (hpre : ∀ c ∈ pre, p c = true)
    (hfound : f ⟨rest, s.groups⟩ = .some x)
    (hshorter : ∀ pre' post, post ≠ [] → pre = pre' ++ post → f ⟨post ++ rest, s.groups⟩ = none) :
    (iterate true (runs (char p)) n s).findSome? f = .some x := by
  induction pre generalizing s n with
  | nil =>
    have hs : s = ⟨rest, s.groups⟩ := by
      rw [List.nil_append] at hrest
      rw [← hrest]
    cases n with
    | zero => rw [iterate, List.findSome?_cons, hs, hfound]
    | succ n =>
      simp only [iterate, if_true]
      rw [List.findSome?_cons, show f s = .some x from by rw [hs]; exact hfound]
  | cons c pre ih =>
    have hs : f s = none := by
      have := hshorter [] (c :: pre) (List.cons_ne_nil _ _) rfl
      rwa [← hrest] at this
    cases n with
    | zero =>
      rw [hrest] at hn
      simp at hn
    | succ n =>
      have hstep : (runs (char p) s).filter (fun t => t.rest.length < s.rest.length) = [⟨pre ++ rest, s.groups⟩] := by
        simp only [runs, hrest, List.cons_append, hpre c (List.mem_cons_self ..), if_true]
        rw [List.filter_cons_of_pos (by simp), List.filter_nil]
      simp only [iterate, if_true, hstep, List.flatMap_cons, List.flatMap_nil, List.append_nil]
      rw [List.findSome?_cons, hs]
      refine ih (s := ⟨pre ++ rest, s.groups⟩) (n := n) ?_ rfl (fun c' hc' => hpre c' (List.mem_cons_of_mem _ hc')) hfound ?_
      · rw [hrest, List.cons_append, List.length_cons] at hn
        exact Nat.le_of_succ_le_succ hn
      · intro pre' post hpost heq
        exact hshorter (c :: pre') post hpost (by rw [heq, List.cons_append])

/-- The same of a captured lazy repetition that reads at least one character. -/
theorem first_lazy_group {name : String} {p : Char → Bool} {r : Regex} {x : Reading} {pre rest : List Char}
    (hrest : s.rest = pre ++ rest) (hne : pre ≠ []) (hpre : ∀ c ∈ pre, p c = true)
    (hfound : first r ⟨rest, (name, String.ofList pre) :: s.groups⟩ = .some x)
    (hshorter : ∀ pre' post, pre' ≠ [] → post ≠ [] → pre = pre' ++ post →
      first r ⟨post ++ rest, (name, String.ofList pre') :: s.groups⟩ = none) :
    first (seq (group name (some true (char p))) r) s = .some x := by
  cases pre with
  | nil => exact absurd rfl hne
  | cons c pre =>
    rw [first_seq, runs, List.findSome?_map, some, runs]
    have hstep : runs (char p) s = [⟨pre ++ rest, s.groups⟩] := by
      simp only [runs, hrest, List.cons_append, hpre c (List.mem_cons_self ..), if_true]
    have htake : ∀ pre' post : List Char, pre = pre' ++ post →
        s.rest.take (s.rest.length - (post ++ rest).length) = c :: pre' := by
      intro pre' post heq
      have : s.rest = (c :: pre') ++ (post ++ rest) := by
        rw [hrest, heq, List.cons_append, List.append_assoc, List.cons_append]
      rw [this, List.length_append, Nat.add_sub_cancel, List.take_left]
    rw [hstep, List.flatMap_cons, List.flatMap_nil, List.append_nil, runs]
    refine findSome?_iterate_lazy (Nat.le_refl _) rfl (fun c' hc' => hpre c' (List.mem_cons_of_mem _ hc')) ?_ ?_
    · have := htake pre [] (List.append_nil _).symm
      rw [List.nil_append] at this
      simp only [Function.comp_apply, this]
      exact hfound
    · intro pre' post hpost heq
      simp only [Function.comp_apply, htake pre' post heq]
      exact hshorter (c :: pre') post (List.cons_ne_nil _ _) hpost (by rw [heq, List.cons_append])

end Regex

end Lib
