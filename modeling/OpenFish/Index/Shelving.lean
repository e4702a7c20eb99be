/-
What an index is for: entries in slots, each slot with the path that feeds it. When every change of such a path is
reported, the index that has handled all events shows what a scan shows, however late they were delivered.
-/
import Mathlib.Logic.Function.Basic
import OpenFish.Index.Watchdog

namespace OpenFish.Index

open Lib

/-- The slots of an index, and what they are to hold. -/
structure Shelving (Slot ε : Type*) where
  /-- The slot that an event about a file touches. -/
  slot : Path → Option Slot
  /-- The path that a scan reads for the slot. -/
  home : Slot → Path
  /-- What an addition puts into the slot. -/
  entry : FileTree → Path → Option ε
  /-- What a scan may show in the slot. -/
  Right : FileTree → Slot → Option ε → Prop

namespace Shelving

variable {Slot ε : Type*} [DecidableEq Slot] (A : Shelving Slot ε)

/-- What is shown after an addition. -/
def add (T : FileTree) (path : Path) (v : Slot → Option ε) : Slot → Option ε :=
  match A.slot path, A.entry T path with
  | some s, some e => Function.update v s (some e)
  | _, _ => v

/-- What is shown after a removal. -/
def remove (path : Path) (v : Slot → Option ε) : Slot → Option ε :=
  match A.slot path with
  | some s => Function.update v s none
  | none => v

def handle (T : FileTree) (v : Slot → Option ε) (e : FileEvent) : Slot → Option ε :=
  e.added.elim id (A.add T) (e.removed.elim v fun path => A.remove path v)

/-- What is shown when all pending events are handled now. -/
def drain (T : FileTree) (pending : List FileEvent) (v : Slot → Option ε) : Slot → Option ε := pending.foldl (A.handle T) v

/-- Once the pending events are handled, every slot is right. -/
def Settled (T : FileTree) (pending : List FileEvent) (v : Slot → Option ε) : Prop :=
  ∀ s, A.Right T s (A.drain T pending v s)

/-- No pending event puts an entry into the slot of another path. -/
def Clean (pending : List FileEvent) : Prop :=
  ∀ e ∈ pending, ∀ path ∈ e.added, ∀ T, A.entry T path ≠ none → ∃ s, A.slot path = some s ∧ A.home s = path

/-- The slot is fed the same before and after. -/
def Steady (T T' : FileTree) (s : Slot) : Prop :=
  A.entry T (A.home s) = A.entry T' (A.home s) ∧ ∀ o, A.Right T s o → A.Right T' s o

/-- The event of a change reports all that the change means for the slots, and touches no slot amiss. -/
structure Reports (T T' : FileTree) (e : FileEvent) : Prop where
  /-- A slot whose path changed is touched. -/
  told : ∀ s, A.Steady T T' s ∨ (A.home s ∈ e.added ∧ A.slot (A.home s) = some s ∧ A.entry T' (A.home s) ≠ none) ∨
    (A.home s ∈ e.removed ∧ A.slot (A.home s) = some s)
  added : ∀ path ∈ e.added, ∀ T, A.entry T path ≠ none → ∃ s, A.slot path = some s ∧ A.home s = path
  removed : ∀ path ∈ e.removed, ∀ s, A.slot path = some s →
    (∀ path' ∈ e.added, A.slot path' = some s → A.entry T' path' = none) → A.Right T' s none

variable {A} {T T' : FileTree} {v v' : Slot → Option ε} {s : Slot} {e : FileEvent} {pending : List FileEvent}

theorem remove_apply (path : Path) : A.remove path v s = if A.slot path = some s then none else v s := by
  unfold remove
  cases hslot : A.slot path with
  | none => rfl
  | some s' =>
    simp only [Function.update_apply, Option.some.injEq, eq_comm]

theorem add_apply (path : Path) :
    A.add T path v s = if A.slot path = some s then (A.entry T path).orElse fun _ => v s else v s := by
  unfold add
  cases hslot : A.slot path with
  | none => rfl
  | some s' =>
    cases hentry : A.entry T path with
    | none => simp
    | some e =>
      simp only [Function.update_apply, Option.some.injEq, eq_comm]
      rfl

/-- Two trees that feed a slot the same show the same there. -/
theorem handle_congr (hclean : ∀ path ∈ e.added, ∀ T, A.entry T path ≠ none → ∃ s, A.slot path = some s ∧ A.home s = path)
    (hentry : A.entry T (A.home s) = A.entry T' (A.home s)) (hv : v s = v' s) :
    A.handle T v e s = A.handle T' v' e s := by
  have hremove : (e.removed.elim v fun path => A.remove path v) s = (e.removed.elim v' fun path => A.remove path v') s := by
    cases e.removed with
    | none => exact hv
    | some path => simp only [Option.elim_some, remove_apply, hv]
  unfold handle
  cases hadded : e.added with
  | none => exact hremove
  | some path =>
    simp only [Option.elim_some, add_apply, hremove]
    split
    · rename_i hslot
      have hat : ∀ {T T'}, A.entry T (A.home s) = A.entry T' (A.home s) → A.entry T path ≠ none →
          A.entry T path = A.entry T' path := by
        intro T T' hentry hne
        obtain ⟨s', hslot', hhome⟩ := hclean path hadded T hne
        rw [hslot] at hslot'
        cases hslot'
        rw [← hhome, hentry]
      have heq : A.entry T path = A.entry T' path := by
        by_cases hne : A.entry T path = none
        · by_cases hne' : A.entry T' path = none
          · rw [hne, hne']
          · exact (hat hentry.symm hne').symm
        · exact hat hentry hne
      rw [heq]
    · rfl

theorem drain_congr (hclean : A.Clean pending) (hentry : A.entry T (A.home s) = A.entry T' (A.home s)) (hv : v s = v' s) :
    A.drain T pending v s = A.drain T' pending v' s := by
  induction pending generalizing v v' with
  | nil => exact hv
  | cons e pending ih =>
    exact ih (fun e' he' => hclean e' (List.mem_cons_of_mem _ he'))
      (handle_congr (hclean e (List.mem_cons_self ..)) hentry hv)

/-- A slot that an event does not touch stays as it is. -/
theorem handle_of_untouched (hadd : ∀ path ∈ e.added, A.slot path = some s → A.entry T path = none)
    (hremove : ∀ path ∈ e.removed, A.slot path ≠ some s) : A.handle T v e s = v s := by
  have hrest : (e.removed.elim v fun path => A.remove path v) s = v s := by
    cases hremoved : e.removed with
    | none => rfl
    | some path => rw [Option.elim_some, remove_apply, if_neg (hremove path hremoved)]
  unfold handle
  cases hadded : e.added with
  | none => exact hrest
  | some path =>
    rw [Option.elim_some, add_apply]
    split
    · rename_i hslot
      rw [hadd path hadded hslot]
      exact hrest
    · exact hrest

/-- A change that its event reports leaves the index settled. -/
theorem Settled.change (h : A.Settled T pending v) (hclean : A.Clean pending) (hreports : A.Reports T T' e)
    (hright : ∀ s e, A.slot (A.home s) = some s → A.entry T' (A.home s) = some e → A.Right T' s (some e)) :
    A.Settled T' (pending ++ [e]) v := by
  intro s
  rw [drain, List.foldl_append]
  show A.Right T' s (A.handle T' (A.drain T' pending v) e s)
  generalize hw : A.drain T' pending v = w
  by_cases hadd : ∃ path ∈ e.added, A.slot path = some s ∧ A.entry T' path ≠ none
  · -- the event shelves a file in this place
    obtain ⟨path, hpath, hslot, hne⟩ := hadd
    obtain ⟨s', hslot', hhome⟩ := hreports.added path hpath T' hne
    rw [hslot] at hslot'
    cases hslot'
    subst hhome
    obtain ⟨x, hx⟩ := Option.ne_none_iff_exists'.1 hne
    have : A.handle T' w e s = some x := by
      unfold handle
      rw [show e.added = some (A.home s) from hpath, Option.elim_some, add_apply, if_pos hslot, hx]
      rfl
    rw [this]
    exact hright s x hslot hx
  · have hnoadd : ∀ path ∈ e.added, A.slot path = some s → A.entry T' path = none := by
      intro path hpath hslot
      by_contra hne
      exact hadd ⟨path, hpath, hslot, hne⟩
    by_cases hremove : ∃ path ∈ e.removed, A.slot path = some s
    · -- it takes away what was in this place
      obtain ⟨path, hpath, hslot⟩ := hremove
      have : A.handle T' w e s = none := by
        have hnone : (e.removed.elim w fun path => A.remove path w) s = none := by
          rw [show e.removed = some path from hpath, Option.elim_some, remove_apply, if_pos hslot]
        unfold handle
        cases hadded : e.added with
        | none => exact hnone
        | some path' =>
          rw [Option.elim_some, add_apply]
          split
          · rename_i hslot'
            rw [hnoadd path' hadded hslot']
            exact hnone
          · exact hnone
      rw [this]
      exact hreports.removed path hpath s hslot hnoadd
    · -- it leaves this place alone, and what is there was right before
      have huntouched : A.handle T' w e s = w s :=
        handle_of_untouched hnoadd fun path hpath hslot => hremove ⟨path, hpath, hslot⟩
      rw [huntouched, ← hw]
      rcases hreports.told s with hsteady | ⟨hhome, hslot, hne⟩ | ⟨hhome, hslot⟩
      · rw [← drain_congr hclean hsteady.1 (show v s = v s from rfl)]
        exact hsteady.2 _ (h s)
      · exact absurd (hnoadd _ hhome hslot) hne
      · exact absurd ⟨_, hhome, hslot⟩ hremove

/-- A change that no slot takes notice of leaves the index settled. -/
theorem Settled.steady (h : A.Settled T pending v) (hclean : A.Clean pending) (hsteady : ∀ s, A.Steady T T' s) :
    A.Settled T' pending v := by
  intro s
  rw [← drain_congr hclean (hsteady s).1 (show v s = v s from rfl)]
  exact (hsteady s).2 _ (h s)

end Shelving

/-! ## Shelves that are fed by files -/

namespace Shelving

variable {Slot ε : Type*} {A : Shelving Slot ε} {T T' : FileTree} {e : FileEvent}

/-- A slot that is never filled. -/
def Dead (A : Shelving Slot ε) (s : Slot) : Prop := ∀ T, A.entry T (A.home s) = none ∧ ∀ o, A.Right T s o ↔ o = none

/-- What a slot shows depends on its path alone, and a file there fills it. -/
structure Fed (A : Shelving Slot ε) : Prop where
  steady : ∀ {T T' s}, T'.at? (A.home s) = T.at? (A.home s) → A.Steady T T' s
  gone : ∀ {T s}, T.at? (A.home s) = none → A.Right T s none
  alive : ∀ s, A.Dead s ∨ (A.slot (A.home s) = some s ∧ ∀ T, T.file? (A.home s) ≠ none → A.entry T (A.home s) ≠ none)

theorem Dead.steady {s : Slot} (h : A.Dead s) : A.Steady T T' s :=
  ⟨(h T).1.trans (h T').1.symm, fun o ho => ((h T').2 o).2 (((h T).2 o).1 ho)⟩

/-- A change of a file is told when the paths that feed slots are watched, it puts nothing into the slot of another
path, and takes nothing out of one that still has its file. -/
theorem Fed.reports (hfed : A.Fed) {source target : Option Path} {sees : Path → Bool} (hmoves : T.Moves T' source target)
    (hsees : ∀ s, sees (A.home s) = true) (hremoved : e.removed = source.filter sees) (hadded : e.added = target.filter sees)
    (hadd : ∀ path ∈ e.added, ∀ T, A.entry T path ≠ none → ∃ s, A.slot path = some s ∧ A.home s = path)
    (hremove : ∀ path ∈ e.removed, ∀ s, A.slot path = some s → A.home s ≠ path →
      (∀ path' ∈ e.added, A.slot path' = some s → A.entry T' path' = none) → A.Right T' s none) :
    A.Reports T T' e := by
  have hwatched : ∀ {o : Option Path} {s}, A.home s ∈ o → A.home s ∈ o.filter sees := fun {o s} h =>
    Option.mem_filter_iff.2 ⟨h, hsees s⟩
  refine ⟨fun s => ?_, hadd, fun path hpath s hslot hnoadd => ?_⟩
  · rcases hfed.alive s with hdead | ⟨hslot, hfill⟩
    · exact .inl hdead.steady
    by_cases htarget : A.home s ∈ target
    · exact .inr (.inl ⟨hadded ▸ hwatched htarget, hslot, hfill T' (hmoves.arrives _ htarget)⟩)
    by_cases hsource : A.home s ∈ source
    · exact .inr (.inr ⟨hremoved ▸ hwatched hsource, hslot⟩)
    · exact .inl (hfed.steady (hmoves.elsewhere _ hsource htarget))
  · by_cases hhome : A.home s = path
    · subst hhome
      rcases hfed.alive s with hdead | ⟨-, hfill⟩
      · exact ((hdead T').2 none).2 rfl
      have hsource : A.home s ∈ source := (Option.mem_filter_iff.1 (hremoved ▸ hpath)).1
      by_cases htarget : A.home s ∈ target
      · exact absurd (hnoadd _ (hadded ▸ hwatched htarget) hslot) (hfill T' (hmoves.arrives _ htarget))
      · exact hfed.gone (hmoves.leaves _ hsource htarget)
    · exact hremove path hpath s hslot hhome hnoadd

end Shelving

/-! ## Indexes that keep the shelves -/

variable {σ Slot ε : Type*} [DecidableEq Slot]

/-- An index in whose good states the shelves are shown, and whose operations do to them what they are for. -/
structure Keeps (I : WatchdogIndex σ) (A : Shelving Slot ε) (Good : σ → Prop) (shown : σ → Slot → Option ε) : Prop where
  scan_good : ∀ T, Good (I.fullScan T)
  scan_right : ∀ T s, A.Right T s (shown (I.fullScan T) s)
  add_good : ∀ {T path x}, Good x → Good (I.addOrUpdate T path x)
  add_shown : ∀ {T path x}, Good x → shown (I.addOrUpdate T path x) = A.add T path (shown x)
  remove_good : ∀ {path x}, Good x → Good (I.remove path x)
  remove_shown : ∀ {path x}, Good x → shown (I.remove path x) = A.remove path (shown x)
  entry_right : ∀ {T s x}, A.slot (A.home s) = some s → A.entry T (A.home s) = some x → A.Right T s (some x)

/-- The observer reports the change, or no slot takes notice of it. -/
def Noticed (I : WatchdogIndex σ) (A : Shelving Slot ε) (T : FileTree) (c : Change) : Prop :=
  ∀ T', T.apply c = some T' → (∃ e, report I.sees T c = [e] ∧ A.Reports T T' e) ∨
    (report I.sees T c = [] ∧ ∀ s, A.Steady T T' s)

omit [DecidableEq Slot] in
/-- A change of a file is noticed under the conditions of `Fed.reports`. -/
theorem noticed_file {I : WatchdogIndex σ} {A : Shelving Slot ε} (hfed : A.Fed) (hsees : ∀ s, I.sees (A.home s) = true)
    {T : FileTree} {c : Change} (hfile : c.ofDirectory = false)
    (hadd : ∀ path ∈ c.target, I.sees path = true → ∀ T, A.entry T path ≠ none → ∃ s, A.slot path = some s ∧ A.home s = path)
    (hremove : ∀ T', T.apply c = some T' → ∀ path ∈ c.source, I.sees path = true → ∀ s, A.slot path = some s →
      A.home s ≠ path → (∀ path' ∈ c.target, I.sees path' = true → A.slot path' = some s → A.entry T' path' = none) →
      A.Right T' s none) : Noticed I A T c := by
  intro T' happly
  have hmoves := FileTree.moves_of_apply happly hfile
  rcases report_file I.sees T hfile with ⟨hreport, hsource, htarget⟩ | ⟨e, hreport, hremoved, hadded⟩
  · refine .inr ⟨hreport, fun s => hfed.steady (hmoves.elsewhere _ (fun hs => ?_) fun hs => ?_)⟩
    · have := Option.mem_filter_iff.2 ⟨hs, hsees s⟩
      rw [hsource] at this
      cases this
    · have := Option.mem_filter_iff.2 ⟨hs, hsees s⟩
      rw [htarget] at this
      cases this
  · refine .inl ⟨e, hreport, hfed.reports hmoves hsees hremoved hadded ?_ ?_⟩
    · intro path hpath
      rw [hadded] at hpath
      obtain ⟨hpath, hseen⟩ := Option.mem_filter_iff.1 hpath
      exact hadd path hpath hseen
    · intro path hpath s hslot hhome hnoadd
      rw [hremoved] at hpath
      obtain ⟨hpath, hseen⟩ := Option.mem_filter_iff.1 hpath
      exact hremove T' happly path hpath hseen s hslot hhome fun path' hpath' hseen' =>
        hnoadd path' (hadded ▸ Option.mem_filter_iff.2 ⟨hpath', hseen'⟩)

omit [DecidableEq Slot] in
/-- A change of a directory is noticed when no slot takes notice of it. -/
theorem noticed_directory {I : WatchdogIndex σ} {A : Shelving Slot ε} {T : FileTree} {c : Change}
    (hdir : c.ofDirectory = true) (hsteady : ∀ T', T.apply c = some T' → ∀ s, A.Steady T T' s) : Noticed I A T c := by
  intro T' happly
  rcases report_directory I.sees T hdir with hreport | ⟨e, hreport, hremoved, hadded⟩
  · exact .inr ⟨hreport, hsteady T' happly⟩
  · refine .inl ⟨e, hreport, fun s => .inl (hsteady T' happly s), fun path hpath => ?_, fun path hpath => ?_⟩
    · rw [hadded] at hpath
      cases hpath
    · rw [hremoved] at hpath
      cases hpath

namespace Keeps

variable {I : WatchdogIndex σ} {A : Shelving Slot ε} {Good : σ → Prop} {shown : σ → Slot → Option ε}

/-- What holds of the watched index at every moment. -/
structure Live (A : Shelving Slot ε) (Good : σ → Prop) (shown : σ → Slot → Option ε) (s : Watched σ) : Prop where
  good : Good s.contents
  clean : A.Clean s.pending
  settled : A.Settled s.tree s.pending (shown s.contents)

theorem handle (h : Keeps I A Good shown) {T : FileTree} {x : σ} (hx : Good x) (e : FileEvent) :
    Good (I.handle T x e) ∧ shown (I.handle T x e) = A.handle T (shown x) e := by
  have hremove : Good (e.removed.elim x fun path => I.remove path x) ∧
      shown (e.removed.elim x fun path => I.remove path x) = e.removed.elim (shown x) fun path => A.remove path (shown x) := by
    cases e.removed with
    | none => exact ⟨hx, rfl⟩
    | some path => exact ⟨h.remove_good hx, h.remove_shown hx⟩
  rw [WatchdogIndex.handle_eq, Shelving.handle, ← hremove.2]
  cases e.added with
  | none => exact ⟨hremove.1, rfl⟩
  | some path => exact ⟨h.add_good hremove.1, h.add_shown hremove.1⟩

theorem live_start (h : Keeps I A Good shown) (T : FileTree) : Live A Good shown ⟨T, [], I.fullScan T⟩ :=
  ⟨h.scan_good T, fun _ he => absurd he List.not_mem_nil, h.scan_right T⟩

/-- A change that is noticed, and every delivery, keeps the index live. -/
theorem live_watch (h : Keeps I A Good shown) {s : Watched σ} (hs : Live A Good shown s) {m : WatchMove}
    (hok : ∀ c, m = .change c → Noticed I A s.tree c) : Live A Good shown (I.watch s m) := by
  cases m with
  | change c =>
    unfold WatchdogIndex.watch
    dsimp only
    cases happly : s.tree.apply c with
    | none => exact hs
    | some T' =>
      rcases hok c rfl T' happly with ⟨e, hreport, hreports⟩ | ⟨hreport, hsteady⟩
      · rw [hreport]
        refine ⟨hs.good, fun e' he' => ?_, hs.settled.change hs.clean hreports fun _ _ => h.entry_right⟩
        rcases List.mem_append.1 he' with he' | he'
        · exact hs.clean e' he'
        · rw [List.mem_singleton.1 he']
          exact hreports.added
      · rw [hreport]
        refine ⟨hs.good, ?_, ?_⟩
        · rw [List.append_nil]
          exact hs.clean
        · rw [List.append_nil]
          exact hs.settled.steady hs.clean hsteady
  | deliver =>
    unfold WatchdogIndex.watch
    dsimp only
    cases hpending : s.pending with
    | nil => exact hs
    | cons e pending =>
      obtain ⟨hgood, hshown⟩ := h.handle (T := s.tree) hs.good e
      refine ⟨hgood, fun e' he' => hs.clean e' (by rw [hpending]; exact List.mem_cons_of_mem _ he'), fun slot => ?_⟩
      have := hs.settled slot
      rw [hpending] at this
      rw [hshown]
      exact this

/-- An index that holds more than the shelves, and leaves that alone. -/
theorem comap (h : Keeps I A Good shown) {τ : Type*} {J : WatchdogIndex τ} (proj : τ → σ)
    (hscan : ∀ T, proj (J.fullScan T) = I.fullScan T)
    (hadd : ∀ T path x, proj (J.addOrUpdate T path x) = I.addOrUpdate T path (proj x))
    (hremove : ∀ path x, proj (J.remove path x) = I.remove path (proj x)) :
    Keeps J A (fun x => Good (proj x)) (fun x => shown (proj x)) where
  scan_good T := by rw [hscan]; exact h.scan_good T
  scan_right T s := by rw [hscan]; exact h.scan_right T s
  add_good hx := by rw [hadd]; exact h.add_good hx
  add_shown hx := by rw [hadd]; exact h.add_shown hx
  remove_good hx := by rw [hremove]; exact h.remove_good hx
  remove_shown hx := by rw [hremove]; exact h.remove_shown hx
  entry_right := h.entry_right

/-- In every run whose changes are all noticed, the index shows what a scan may show whenever no event is pending. -/
theorem runs (h : Keeps I A Good shown) {T : FileTree} {ms : List WatchMove}
    (hok : (I.runs T).AllSteps (fun _ s m => ∀ c, m = .change c → Noticed I A s.tree c) ms) :
    Good ((I.runs T).state ms).contents ∧ (((I.runs T).state ms).pending = [] →
      ∀ s, A.Right ((I.runs T).state ms).tree s (shown ((I.runs T).state ms).contents s)) := by
  have hlive : Live A Good shown ((I.runs T).state ms) :=
    Machine.AllSteps.invariant (P := fun _ s => Live A Good shown s) (h.live_start T)
      (fun _ s m hs hm => h.live_watch hs hm) hok
  refine ⟨hlive.good, fun hpending s => ?_⟩
  have := hlive.settled s
  rw [hpending] at this
  exact this

end Keeps

end OpenFish.Index
