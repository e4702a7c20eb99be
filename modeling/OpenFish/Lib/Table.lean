/-
Database tables with an auto-increment primary key: rows in the order of their keys, all below the
next one to issue, `INSERT`, the guarded `UPDATE … WHERE`, and what they do to membership, look-up by
key and row counts.
-/
import Mathlib.Data.List.Nodup
import Mathlib.Data.List.Count
import Mathlib.Data.List.Perm.Subperm
import Mathlib.Tactic.Common

namespace Lib

/-- Rows with a primary key. -/
class Keyed (ρ : Type*) where
  key : ρ → Nat

export Keyed (key)

/-- A table: rows with increasing keys, all below the next key to issue, which is never 0. -/
structure Table (ρ : Type*) [Keyed ρ] where
  rows : List ρ
  next : Nat
  pos : 0 < next
  below : ∀ r ∈ rows, key r < next
  sorted : (rows.map key).Pairwise (· < ·)

namespace Table

variable {ρ : Type*} [Keyed ρ]

@[ext] theorem ext {t u : Table ρ} (hr : t.rows = u.rows) (hn : t.next = u.next) : t = u := by
  cases t; cases u; cases hr; cases hn; rfl

/-! ## Operations -/

/-- The empty table; keys start at 1. -/
def empty : Table ρ := ⟨[], 1, Nat.one_pos, by simp, by simp⟩

/-- `SELECT … WHERE key = k`. -/
def get? (t : Table ρ) (k : Nat) : Option ρ := t.rows.find? (key · == k)

/-- `INSERT`: the new row, built from the key it is given, goes last. -/
def insert (t : Table ρ) (mk : Nat → ρ) (hmk : ∀ k, key (mk k) = k) : Table ρ where
  rows := t.rows ++ [mk t.next]
  next := t.next + 1
  pos := Nat.succ_pos _
  below := by
    intro r hr
    rcases List.mem_append.1 hr with hr | hr
    · exact Nat.lt_succ_of_lt (t.below r hr)
    · rw [List.mem_singleton] at hr; subst hr; rw [hmk]; exact Nat.lt_succ_self _
  sorted := by
    rw [List.map_append, List.pairwise_append]
    refine ⟨t.sorted, List.pairwise_singleton .., ?_⟩
    intro a ha b hb
    obtain ⟨r, hr, rfl⟩ := List.mem_map.1 ha
    simp only [List.map_cons, List.map_nil, List.mem_singleton, hmk] at hb
    subst hb; exact t.below r hr

/-- A key of the sequence is lost, as with an insertion that is rolled back. -/
def skip (t : Table ρ) : Table ρ where
  rows := t.rows
  next := t.next + 1
  pos := Nat.succ_pos _
  below r hr := Nat.lt_succ_of_lt (t.below r hr)
  sorted := t.sorted

/-- `UPDATE … SET f WHERE p`. -/
def update (t : Table ρ) (p : ρ → Bool) (f : ρ → ρ) (hf : ∀ r, key (f r) = key r) : Table ρ where
  rows := t.rows.map fun r => if p r then f r else r
  next := t.next
  pos := t.pos
  below := by
    intro r' hr'
    obtain ⟨r, hr, rfl⟩ := List.mem_map.1 hr'
    split
    · rw [hf]; exact t.below r hr
    · exact t.below r hr
  sorted := by
    have hk : ∀ r : ρ, key (if p r then f r else r) = key r := by
      intro r; split
      · exact hf r
      · rfl
    rw [List.map_map]
    have : (key ∘ fun r => if p r then f r else r) = (key : ρ → Nat) := funext hk
    rw [this]; exact t.sorted

/-- Whether an `UPDATE … WHERE p` reports a row (`bool(result.rowcount)`). -/
def rowcount (t : Table ρ) (p : ρ → Bool) : Bool := t.rows.any p

/-! ## Keys -/

theorem nodup (t : Table ρ) : (t.rows.map key).Nodup := t.sorted.imp Nat.ne_of_lt

theorem eq_of_key {t : Table ρ} {r r' : ρ} (hr : r ∈ t.rows) (hr' : r' ∈ t.rows) (h : key r = key r') :
    r = r' :=
  List.inj_on_of_nodup_map t.nodup hr hr' h

theorem get?_eq_some {t : Table ρ} {k : Nat} {r : ρ} : t.get? k = some r ↔ r ∈ t.rows ∧ key r = k := by
  unfold get?
  constructor
  · intro h
    exact ⟨List.mem_of_find?_eq_some h, by simpa using List.find?_some h⟩
  · rintro ⟨hr, hk⟩
    cases hf : t.rows.find? (key · == k) with
    | none => exact absurd hk (by simpa using List.find?_eq_none.1 hf r hr)
    | some r' =>
      -- the first row found is `r` itself
      have hk' : key r' = k := by simpa using List.find?_some hf
      rw [eq_of_key (List.mem_of_find?_eq_some hf) hr (hk'.trans hk.symm)]

theorem get?_eq_none {t : Table ρ} {k : Nat} : t.get? k = none ↔ ∀ r ∈ t.rows, key r ≠ k := by
  simp [get?, List.find?_eq_none]

theorem get?_of_mem {t : Table ρ} {r : ρ} (hr : r ∈ t.rows) : t.get? (key r) = some r :=
  get?_eq_some.2 ⟨hr, rfl⟩

theorem get?_next (t : Table ρ) : t.get? t.next = none :=
  get?_eq_none.2 fun r hr => Nat.ne_of_lt (t.below r hr)

/-! ## `INSERT` -/

theorem mem_insert {t : Table ρ} {mk : Nat → ρ} {hmk : ∀ k, key (mk k) = k} {r : ρ} :
    r ∈ (t.insert mk hmk).rows ↔ r ∈ t.rows ∨ r = mk t.next := by
  simp [insert]

theorem get?_insert {t : Table ρ} {mk : Nat → ρ} {hmk : ∀ k, key (mk k) = k} (k : Nat) :
    (t.insert mk hmk).get? k = if k = t.next then some (mk t.next) else t.get? k := by
  split
  · rename_i h; subst h
    exact get?_eq_some.2 ⟨mem_insert.2 (.inr rfl), hmk _⟩
  · rename_i h
    cases hg : t.get? k with
    | none =>
      refine get?_eq_none.2 fun r hr => ?_
      rcases mem_insert.1 hr with hr | rfl
      · exact get?_eq_none.1 hg r hr
      · rw [hmk]; exact Ne.symm h
    | some r =>
      obtain ⟨hr, hk⟩ := get?_eq_some.1 hg
      exact get?_eq_some.2 ⟨mem_insert.2 (.inl hr), hk⟩

/-! ## `UPDATE` -/

variable {t : Table ρ} {p : ρ → Bool} {f : ρ → ρ} (hf : ∀ r, key (f r) = key r)

theorem mem_update {r' : ρ} :
    r' ∈ (t.update p f hf).rows ↔ ∃ r ∈ t.rows, (if p r then f r else r) = r' := by
  simp [update]

theorem get?_update (k : Nat) :
    (t.update p f hf).get? k = (t.get? k).map fun r => if p r then f r else r := by
  cases hg : t.get? k with
  | none =>
    refine get?_eq_none.2 fun r' hr' => ?_
    obtain ⟨r, hr, rfl⟩ := (mem_update hf).1 hr'
    have := get?_eq_none.1 hg r hr
    split
    · rw [hf]; exact this
    · exact this
  | some r =>
    obtain ⟨hr, hk⟩ := get?_eq_some.1 hg
    refine get?_eq_some.2 ⟨(mem_update hf).2 ⟨r, hr, rfl⟩, ?_⟩
    dsimp only
    split
    · rw [hf]; exact hk
    · exact hk

/-- An `UPDATE` that no row matches changes nothing. -/
theorem update_of_rowcount (h : t.rowcount p = false) : t.update p f hf = t := by
  refine ext ?_ rfl
  have hp : ∀ r ∈ t.rows, (if p r then f r else r) = r := fun r hr =>
    if_neg (List.any_eq_false.1 h r hr)
  show t.rows.map _ = t.rows
  rw [List.map_congr_left hp, List.map_id']

/-- An `UPDATE` of the rows another one has just changed. -/
theorem update_update {g : ρ → ρ} (hg : ∀ r, key (g r) = key r) (hp : ∀ r, p r = true → p (f r) = true) :
    (t.update p f hf).update p g hg = t.update p (fun r => g (f r)) fun r => (hg _).trans (hf r) := by
  refine ext ?_ rfl
  show (t.rows.map _).map _ = t.rows.map _
  rw [List.map_map]
  refine List.map_congr_left fun r _ => ?_
  dsimp only [Function.comp]
  by_cases hr : p r = true
  · simp only [if_pos hr, if_pos (hp r hr)]
  · simp only [if_neg hr]

omit hf in
theorem rowcount_iff : t.rowcount p = true ↔ ∃ r ∈ t.rows, p r = true := by simp [rowcount]

/-! ## Counts -/

omit hf in
/-- When every row of `t'` that is counted there has one of the keys `ks`, or the key of a row counted in `t`, the
counts differ by the number of these keys at most. -/
theorem countP_le {t u : Table ρ} {q q' : ρ → Bool} (ks : List Nat)
    (h : ∀ r' ∈ u.rows, q' r' = true → key r' ∈ ks ∨ ∃ r ∈ t.rows, key r = key r' ∧ q r = true) :
    u.rows.countP q' ≤ t.rows.countP q + ks.length := by
  have hnd : ((u.rows.filter q').map key).Nodup := u.nodup.sublist (List.filter_sublist.map key)
  -- keys are distinct, so the keys counted are as many as the rows
  have hsub : (u.rows.filter q').map key ⊆ (t.rows.filter q).map key ++ ks := by
    intro k hk
    obtain ⟨r', hr', rfl⟩ := List.mem_map.1 hk
    obtain ⟨hm, hq⟩ := List.mem_filter.1 hr'
    rcases h r' hm hq with hks | ⟨r, hr, hkey, hqr⟩
    · exact List.mem_append_right _ hks
    · exact List.mem_append_left _ (List.mem_map.2 ⟨r, List.mem_filter.2 ⟨hr, hqr⟩, hkey⟩)
  have := (hnd.subperm hsub).length_le
  simpa only [List.length_map, List.length_append, ← List.countP_eq_length_filter] using this

/-- An `UPDATE` of one row changes a count by what it does to that row. -/
theorem countP_update_key {k : Nat} {r : ρ} (hr : t.get? k = some r) (q : ρ → Bool) :
    (t.update (key · == k) f hf).rows.countP q + (if q r then 1 else 0) =
      t.rows.countP q + (if q (f r) then 1 else 0) := by
  obtain ⟨hmem, hk⟩ := get?_eq_some.1 hr
  obtain ⟨before, after, hrows⟩ := List.append_of_mem hmem
  -- no other row has the key, so the others stay
  have hnodup : ((before ++ r :: after).map key).Nodup := hrows ▸ t.nodup
  rw [List.map_append, List.map_cons, List.nodup_append, List.nodup_cons] at hnodup
  have hbefore : ∀ r' ∈ before, key r' ≠ k := fun r' hr' heq =>
    hnodup.2.2 _ (List.mem_map_of_mem hr') _ (List.mem_cons_self ..) (heq.trans hk.symm)
  have hafter : ∀ r' ∈ after, key r' ≠ k := fun r' hr' heq =>
    hnodup.2.1.1 (List.mem_map.2 ⟨r', hr', heq.trans hk.symm⟩)
  have hkeep {l : List ρ} (h : ∀ r' ∈ l, key r' ≠ k) : (l.map fun r' => if key r' == k then f r' else r') = l :=
    (List.map_congr_left fun r' hr' => if_neg (by simpa using h r' hr')).trans (List.map_id' l)
  have hself : (if key r == k then f r else r) = f r := if_pos (by simpa using hk)
  have hnew : (t.update (key · == k) f hf).rows = before ++ f r :: after := by
    show t.rows.map _ = _
    rw [hrows, List.map_append, List.map_cons, hkeep hbefore, hkeep hafter, hself]
  rw [hnew, hrows, List.countP_append, List.countP_append, List.countP_cons, List.countP_cons]
  omega

end Table

end Lib
