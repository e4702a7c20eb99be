/-
Calls of `run`, one after the other, however each of them ends: what they record, that they keep a checkpoint,
and that they come to an end.
-/
import OpenFish.Import.Resume

namespace OpenFish.Import

open Lib

-- no proof here looks into it
attribute [local irreducible] parseSource

/-! ## The record of steps -/

section record

variable {α β : Type}

/-- The record of steps is not touched. -/
def Quiet (x : Act α) : Prop := Along (fun s s' => s'.begun = s.begun) x

@[simp] theorem quiet_pure (a : α) : Quiet (pure a : Act α) := fun _ => rfl

@[simp] theorem quiet_get : Quiet (get : Act Session) := fun _ => rfl

theorem quiet_bind {x : Act α} {f : α → Act β} (hx : Quiet x) (hf : ∀ a, Quiet (f a)) : Quiet (x >>= f) :=
  Along.bind (r := fun s s' : Session => s'.begun = s.begun) (fun _ _ _ h h' => h'.trans h) hx hf

theorem quiet_ite {c : Prop} [Decidable c] {x y : Act α} (hx : Quiet x) (hy : Quiet y) : Quiet (if c then x else y) :=
  Along.ite hx hy

@[simp] theorem quiet_throw (e : Stop) : Quiet (throw e : Act α) := fun _ => rfl

@[simp] theorem quiet_commit : Quiet commit := fun _ => wp_commit.2 ⟨fun _ => rfl, fun _ => rfl⟩

@[simp] theorem quiet_external (type name : String) : Quiet (external type name) := fun _ =>
  (wp_external type name).2 ⟨fun _ => rfl, fun _ => rfl⟩

@[simp] theorem quiet_modifyRepo (f : Repo → Repo) : Quiet (modifyRepo f) := fun _ => rfl

@[simp] theorem quiet_modifyCursor (f : Cursor → Cursor) : Quiet (modifyCursor f) := fun _ => rfl

@[simp] theorem quiet_setSyncState (state : String) : Quiet (setSyncState state) := fun _ => rfl

theorem quiet_attempt {x : Act α} (hx : Quiet x) : Quiet (attempt x) := by
  intro s
  rw [wp_attempt]
  refine wp_mono (hx s) (fun _ _ h => h) fun e s' h => ?_
  cases e with
  | crashed => exact h
  | raised type text => exact h

@[simp] theorem quiet_mirrorState (total done : Option ℕ) : Quiet (mirrorState total done) :=
  quiet_bind (fun _ => rfl) fun _ => quiet_commit

theorem quiet_parseOrRaise (url : String) : Quiet (parseOrRaise url) := by
  unfold parseOrRaise
  split
  · exact quiet_pure _
  · exact quiet_throw _

theorem quiet_stepValidate (src : Source) : Quiet (stepValidate src) := by
  unfold stepValidate
  refine quiet_bind quiet_get fun s => quiet_bind (quiet_parseOrRaise _) fun source => ?_
  refine quiet_bind (quiet_attempt (quiet_external _ _)) fun probe => ?_
  exact quiet_bind (quiet_modifyRepo _) fun _ => quiet_bind (quiet_modifyCursor _) fun _ => quiet_pure true

theorem quiet_stepMigrate (cfg : ImportConfig) (src : Source) : Quiet (stepMigrate cfg src) := by
  unfold stepMigrate
  refine quiet_bind quiet_get fun s => quiet_bind (quiet_parseOrRaise _) fun source => ?_
  refine quiet_bind (quiet_setSyncState _) fun _ => ?_
  dsimp only
  split
  · refine quiet_bind (quiet_pure _) fun _ => quiet_bind (quiet_modifyCursor _) fun _ => ?_
    exact quiet_bind (quiet_mirrorState _ _) fun _ => quiet_bind (quiet_modifyCursor _) fun _ => quiet_pure _
  · refine quiet_bind (quiet_external _ _) fun _ => quiet_bind (quiet_modifyRepo _) fun _ => ?_
    refine quiet_bind (quiet_pure _) fun _ => quiet_bind (quiet_modifyCursor _) fun _ => ?_
    exact quiet_bind (quiet_mirrorState _ _) fun _ => quiet_bind (quiet_modifyCursor _) fun _ => quiet_pure _

theorem quiet_stepPoll (cfg : ImportConfig) : Quiet (stepPoll cfg) := by
  unfold stepPoll
  refine quiet_bind quiet_get fun s => quiet_ite (quiet_throw _) (quiet_bind (quiet_modifyCursor _) fun _ => ?_)
  refine quiet_bind quiet_get fun s => quiet_ite (quiet_throw _) (quiet_bind ?_ fun finished => ?_)
  · exact quiet_bind (quiet_external _ _) fun _ => fun _ => rfl
  · refine quiet_bind (quiet_mirrorState _ _) fun _ => quiet_ite ?_ (quiet_pure _)
    exact quiet_bind (quiet_modifyCursor _) fun _ => quiet_pure _

theorem quiet_stepMirrorIssues (cfg : ImportConfig) (src : Source) : Quiet (stepMirrorIssues cfg src) := by
  have htail (c : Cursor) (page : IssuePage) :
      Quiet (do
        modifyCursor fun c => c.afterIssues cfg.maxIssues page
        let c' := (← get).cursor
        mirrorState (if c'.isPartial then some cfg.maxIssues else none) (some c'.stored)
        if truncates cfg.maxIssues c page || page.nextOffset.isNone then
          modifyCursor fun c => { c with phase := .indexCommits }
        return true : Act Bool) := by
    refine quiet_bind (quiet_modifyCursor _) fun _ => quiet_bind quiet_get fun s => ?_
    refine quiet_bind (quiet_mirrorState _ _) fun _ => quiet_ite ?_ (quiet_pure _)
    exact quiet_bind (quiet_modifyCursor _) fun _ => quiet_pure _
  unfold stepMirrorIssues
  refine quiet_bind quiet_get fun s => quiet_ite ?_ (quiet_ite (quiet_throw _) ?_)
  · exact quiet_bind (quiet_modifyCursor _) fun _ => quiet_pure _
  · refine quiet_bind (quiet_setSyncState _) fun _ => quiet_bind (quiet_external _ _) fun _ => quiet_ite ?_ (htail _ _)
    exact quiet_bind (quiet_bind (fun _ => rfl) fun _ => quiet_commit) fun _ => htail _ _

theorem quiet_gitFallback (src : Source) (forgejoRepo : String) (room : ℕ) : Quiet (gitFallback src forgejoRepo room) := by
  unfold gitFallback
  refine quiet_bind (quiet_modifyCursor _) fun _ => quiet_bind (quiet_attempt (quiet_external _ _)) fun answer => ?_
  cases answer with
  | ok _ => exact quiet_pure _
  | error text => exact quiet_throw _

theorem quiet_readCommits (cfg : ImportConfig) (src : Source) : Quiet (readCommits cfg src) := by
  unfold readCommits
  refine quiet_bind quiet_get fun s => quiet_bind (quiet_attempt (quiet_external _ _)) fun answer => ?_
  refine quiet_ite ?_ (quiet_pure _)
  exact quiet_bind (quiet_gitFallback _ _ _) fun _ => quiet_pure _

theorem quiet_storeCommits (cfg : ImportConfig) (rows : List Commit) (nextPage fellBack : Bool) :
    Quiet (storeCommits cfg rows nextPage fellBack) := by
  have hmove (page : ℕ) (truncated : Bool) : Quiet (movePast cfg page nextPage truncated fellBack) := by
    unfold movePast
    refine quiet_bind (quiet_modifyCursor _) fun _ => quiet_bind quiet_get fun s => quiet_ite ?_ ?_
    · exact quiet_bind (fun _ => rfl) fun _ => quiet_bind (quiet_mirrorState _ _) fun _ => quiet_pure _
    · exact quiet_bind (quiet_mirrorState _ _) fun _ => quiet_pure _
  unfold storeCommits
  refine quiet_bind quiet_get fun s => quiet_bind (quiet_modifyCursor _) fun _ => quiet_ite ?_ (hmove _ _)
  refine quiet_bind (quiet_bind (fun _ => rfl) fun _ => quiet_commit) fun _ => ?_
  exact quiet_bind (quiet_modifyCursor _) fun _ => hmove _ _

theorem quiet_stepIndexCommits (cfg : ImportConfig) (src : Source) : Quiet (stepIndexCommits cfg src) := by
  have htail : Quiet (do
      let read ← readCommits cfg src
      storeCommits cfg read.1 read.2.1 read.2.2 : Act Bool) :=
    quiet_bind (quiet_readCommits cfg src) fun _ => quiet_storeCommits _ _ _ _
  unfold stepIndexCommits
  refine quiet_bind (quiet_setSyncState _) fun _ => quiet_bind quiet_get fun s => quiet_ite ?_ htail
  exact quiet_bind (quiet_modifyCursor _) fun _ => htail

end record

/-! ## One turn of the loop -/

section turns

variable {old : Tables} {cfg : ImportConfig} {src : Source} {wants : Bool} {s : Session}

variable (cfg src) in
/-- Every step so far began where it is safe to interrupt it. -/
def Meeting (s : Session) : Prop := ∀ b ∈ s.begun, b.Meets cfg src

variable (cfg src) in
/-- The record has grown, and if all of it is safe then `P`. -/
def Recorded (s s' : Session) (P : Prop) : Prop := s.begun ⊆ s'.begun ∧ (Meeting cfg src s' → P)

theorem Meeting.of_subset {s₁ : Session} (h : Meeting cfg src s₁) (hsub : s.begun ⊆ s₁.begun) : Meeting cfg src s :=
  fun b hb => h b (hsub hb)

theorem Recorded.after {s₁ s' : Session} {P : Prop} (hgrown : s.begun ⊆ s₁.begun) (h : Recorded cfg src s₁ s' P) :
    Recorded cfg src s s' P :=
  ⟨List.Subset.trans hgrown h.1, h.2⟩

variable (old cfg src wants) in
/-- A checkpoint that is the cursor in memory. -/
structure Written (s : Session) : Prop extends Live old cfg src wants s where
  same : s.job.cursor = s.cursor

theorem step_records (cfg : ImportConfig) (src : Source) (s : Session) :
    wp (step cfg src) (fun _ s' => s'.begun = ⟨s.cursor, s.pollsLeft, s.turns⟩ :: s.begun)
      (fun _ s' => s'.begun = ⟨s.cursor, s.pollsLeft, s.turns⟩ :: s.begun) s := by
  unfold step
  rw [wp_bind, wp_modify, wp_bind, wp_get]
  dsimp only
  cases s.cursor.phase with
  | validate => exact quiet_stepValidate src _
  | migrate => exact quiet_stepMigrate cfg src _
  | poll => exact quiet_stepPoll cfg _
  | mirrorIssues => exact quiet_stepMirrorIssues cfg src _
  | indexCommits => exact quiet_stepIndexCommits cfg src _
  | done => exact quiet_pure true _

theorem step_spec (horderly : Orderly src) (h : Meeting cfg src s → Written old cfg src wants s)
    (hphase : s.cursor.phase ≠ .done) :
    wp (step cfg src) (fun _ s' => Recorded cfg src s s' (Stepping old cfg src wants s s'))
      (fun e s' => Recorded cfg src s s' (Stopped old cfg src wants s e s')) s := by
  obtain ⟨b, hb⟩ : ∃ b, b = Start.mk s.cursor s.pollsLeft s.turns := ⟨_, rfl⟩
  have hrecords := step_records cfg src s
  rw [← hb] at hrecords
  have hgrows {s' : Session} (hs' : s'.begun = b :: s.begun) : s.begun ⊆ s'.begun := by
    rw [hs']; exact List.subset_cons_self ..
  have hmeeting {s' : Session} (hs' : s'.begun = b :: s.begun) (hall : Meeting cfg src s') :
      Meeting cfg src s ∧ b.Meets cfg src :=
    ⟨hall.of_subset (hgrows hs'), hall b (by rw [hs']; exact List.mem_cons_self ..)⟩
  by_cases hmeets : Meeting cfg src s ∧ b.Meets cfg src
  · obtain ⟨hall, hmeets⟩ := hmeets
    have hsame := (h hall).same
    obtain ⟨s₀, hs₀⟩ : ∃ s₀, s₀ = { s with begun := b :: s.begun } := ⟨_, rfl⟩
    have hlive : Live old cfg src wants s₀ := by rw [hs₀]; exact (h hall).toLive.of_eq rfl rfl rfl rfl rfl
    have hstep : wp (step cfg src) (fun _ s' => Stepping old cfg src wants s₀ s') (Stopped old cfg src wants s₀) s := by
      unfold step
      rw [wp_bind, wp_modify, wp_bind, wp_get, ← hb, ← hs₀]
      unfold Start.Meets at hmeets
      have hmeets₀ : b.cursor = s₀.cursor ∧ b.pollsLeft = s₀.pollsLeft ∧ b.turns = s₀.turns := by
        rw [hb, hs₀]; exact ⟨rfl, rfl, rfl⟩
      rw [hmeets₀.1, hmeets₀.2.1, hmeets₀.2.2] at hmeets
      have hsame₀ : s₀.job.cursor = s₀.cursor := by rw [hs₀]; exact hsame
      have hphase₀ : s₀.cursor.phase ≠ .done := by rw [hs₀]; exact hphase
      cases hwhere : s₀.cursor.phase with
      | validate => exact stepValidate_spec hlive hwhere
      | migrate => exact stepMigrate_spec hlive hwhere
      | poll => rw [hwhere] at hmeets; exact stepPoll_spec hlive hwhere hmeets
      | mirrorIssues => exact stepMirrorIssues_spec horderly.issues hlive hsame₀ hwhere
      | indexCommits => rw [hwhere] at hmeets; exact stepIndexCommits_spec horderly.commits hlive hsame₀ hwhere hmeets
      | done => exact absurd hwhere hphase₀
    rw [hs₀] at hstep
    refine wp_mono (wp_and hrecords hstep) (fun _ s' h => ?_) fun e s' h => ?_
    · exact ⟨hgrows h.1, fun _ => ⟨h.2.toLive, h.2.left, h.2.turns⟩⟩
    · exact ⟨hgrows h.1, fun _ => ⟨h.2.toSafe, h.2.memory, h.2.turns⟩⟩
  · refine wp_mono hrecords (fun _ s' h => ?_) fun e s' h => ?_
    · exact ⟨hgrows h, fun hall => absurd (hmeeting h hall) hmeets⟩
    · exact ⟨hgrows h, fun hall => absurd (hmeeting h hall) hmeets⟩

variable (old cfg src wants) in
/-- An import that has ended. -/
structure Completed (s : Session) : Prop extends Safe old cfg src wants s where
  status : s.job.status = "done"
  phase : s.job.cursor.phase = .done

theorem finish_spec (hkept : Kept wants s) (hmemory : Fits old cfg src wants s.cursor s.issues s.commits)
    (hphase : s.cursor.phase = .done) :
    wp finish (fun _ s' => s'.begun = s.begun ∧ Completed old cfg src wants s' ∧ s'.turns.length ≤ s.turns.length)
      (fun e s' => s'.begun = s.begun ∧ Stopped old cfg src wants s e s') s := by
  have hdone : ({ s.cursor with phase := .done } : Cursor) = s.cursor := by rw [← hphase]
  unfold finish
  simp only [wp_bind, wp_modify, wp_commit]
  refine ⟨fun htrouble => ⟨rfl, ⟨⟨hkept.mode, hkept.url, rfl⟩, ?_⟩, fun hne => absurd rfl hne, ?_⟩,
    fun _ => ⟨rfl, ⟨⟨⟨hkept.mode, hkept.url, rfl⟩, ?_⟩, rfl, rfl⟩, rest_turns_le s⟩⟩
  · show Fits old cfg src wants { s.cursor with phase := .done } s.issues s.commits
    rw [hdone]
    exact hmemory
  · exact Nat.lt_of_lt_of_le (rest_turns_lt htrouble) (Nat.le_refl _)
  · show Fits old cfg src wants { s.cursor with phase := .done } s.issues s.commits
    rw [hdone]
    exact hmemory

variable (old cfg src wants) in
/-- What some turns of the loop leave. -/
def Advanced (s : Session) (idles : ℕ) (progress : Progress) (s' : Session) : Prop :=
  s'.turns.length ≤ s.turns.length ∧
    match progress with
    | .finished => Completed old cfg src wants s'
    | .moved => Written old cfg src wants s' ∧ s'.left src < s.left src
    | .idled => Written old cfg src wants s' ∧ s'.left src + idles ≤ s.left src

/-- A program that leaves the record alone may use what all of the record says. -/
theorem Quiet.recorded {α : Type} {x : Act α} (hx : Quiet x) {Q : α → Session → Prop} {E : Stop → Session → Prop}
    (h : Meeting cfg src s → wp x Q E s) :
    wp x (fun a s' => Recorded cfg src s s' (Q a s')) (fun e s' => Recorded cfg src s s' (E e s')) s := by
  by_cases hall : Meeting cfg src s
  · refine wp_mono (wp_and (hx s) (h hall)) (fun a s' h => ?_) fun e s' h => ?_
    · exact ⟨by rw [h.1]; exact List.Subset.refl _, fun _ => h.2⟩
    · exact ⟨by rw [h.1]; exact List.Subset.refl _, fun _ => h.2⟩
  · refine wp_mono (hx s) (fun a s' h => ?_) fun e s' h => ?_
    · exact ⟨by rw [h]; exact List.Subset.refl _, fun hall' => absurd (by rwa [Meeting, h] at hall') hall⟩
    · exact ⟨by rw [h]; exact List.Subset.refl _, fun hall' => absurd (by rwa [Meeting, h] at hall') hall⟩

/-- A step and its write leave a checkpoint with less to do. -/
theorem step_write_spec (horderly : Orderly src) (h : Meeting cfg src s → Written old cfg src wants s)
    (hphase : s.cursor.phase ≠ .done) :
    wp (do
        let moved ← step cfg src
        write
        return moved : Act Bool)
      (fun _ s' => Recorded cfg src s s'
        (Written old cfg src wants s' ∧ s'.left src < s.left src ∧ s'.turns.length ≤ s.turns.length))
      (fun e s' => Recorded cfg src s s' (Stopped old cfg src wants s e s')) s := by
  rw [wp_bind]
  refine wp_mono (step_spec horderly h hphase) (fun moved s₁ h₁ => ?_) fun e s₁ h₁ => h₁
  have hwrite := @Quiet.recorded cfg src s₁ _ _ (quiet_mirrorState none none) _ _ fun hall =>
    mirrorState_spec (h₁.2 hall).toKept (h₁.2 hall).memory none none
  rw [wp_bind, write]
  refine wp_mono hwrite (fun _ s₂ h₂ => ?_) fun e s₂ h₂ => ?_
  · rw [wp_pure]
    refine Recorded.after h₁.1 ⟨h₂.1, fun hall => ?_⟩
    have hstepped := h₁.2 (hall.of_subset h₂.1)
    have hmirrored := h₂.2 hall
    exact ⟨⟨hmirrored.toLive, hmirrored.job⟩, Nat.lt_of_le_of_lt (Nat.le_of_eq hmirrored.left) hstepped.left,
      hmirrored.turns.trans hstepped.turns⟩
  · refine Recorded.after h₁.1 ⟨h₂.1, fun hall => ?_⟩
    have hstepped := h₁.2 (hall.of_subset h₂.1)
    have hstopped := h₂.2 hall
    exact ⟨hstopped.toSafe, hstopped.memory, Nat.lt_of_lt_of_le hstopped.turns hstepped.turns⟩

theorem quiet_finish : Quiet finish :=
  quiet_bind (fun _ => rfl) fun _ => quiet_bind (fun _ => rfl) fun _ => quiet_commit

/-- Where the phase has come to its end, so does the import. -/
theorem finished_spec (hphase : s.cursor.phase = .done) (h : Meeting cfg src s → Live old cfg src wants s) (idles : ℕ) :
    wp (do finish; return .finished) (fun p s' => Recorded cfg src s s' (Advanced old cfg src wants s idles p s'))
      (fun e s' => Recorded cfg src s s' (Stopped old cfg src wants s e s')) s := by
  rw [wp_bind]
  refine wp_mono (quiet_finish.recorded fun hall => finish_spec (h hall).toKept (h hall).memory hphase)
    (fun _ s' h' => ?_) fun e s' h' => ?_
  · exact ⟨h'.1, fun hall => ⟨(h'.2 hall).2.2, (h'.2 hall).2.1⟩⟩
  · exact ⟨h'.1, fun hall => (h'.2 hall).2⟩

/-- What later turns leave is what the turns from here leave. -/
theorem Advanced.after {s₁ s' : Session} {idles : ℕ} {p : Progress} (h : Advanced old cfg src wants s₁ idles p s')
    (hleft : s₁.left src < s.left src) (hturns : s₁.turns.length ≤ s.turns.length) :
    Advanced old cfg src wants s (idles + 1) p s' := by
  obtain ⟨hturns', hrest⟩ := h
  refine ⟨hturns'.trans hturns, ?_⟩
  cases p with
  | finished => exact hrest
  | moved => exact ⟨hrest.1, hrest.2.trans hleft⟩
  | idled =>
    refine ⟨hrest.1, ?_⟩
    have := hrest.2
    omega

/-- The step lemma of the loop: a turn ends the import, moves it or waits, and leaves less to do. -/
theorem advance_spec (horderly : Orderly src) (idles : ℕ) (h : Meeting cfg src s → Written old cfg src wants s) :
    wp (advance cfg src idles) (fun p s' => Recorded cfg src s s' (Advanced old cfg src wants s idles p s'))
      (fun e s' => Recorded cfg src s s' (Stopped old cfg src wants s e s')) s := by
  induction idles generalizing s with
  | zero => exact ⟨List.Subset.refl _, fun hall => ⟨Nat.le_refl _, h hall, Nat.le_refl _⟩⟩
  | succ idles ih =>
    unfold advance
    rw [wp_bind, wp_get, wp_ite]
    refine ⟨fun hphase => finished_spec hphase (fun hall => (h hall).toLive) _, fun hphase => ?_⟩
    have hturn := step_write_spec horderly h hphase
    rw [wp_bind] at hturn ⊢
    refine wp_mono hturn (fun moved s₁ hs₁ => ?_) fun e s₁ hs₁ => hs₁
    rw [wp_bind] at hs₁ ⊢
    refine wp_mono hs₁ (fun _ s₂ h₂ => ?_) fun e s₂ h₂ => h₂
    rw [wp_pure] at h₂
    have hafter {p : Progress} {s' : Session} (h' : Recorded cfg src s₂ s' (Advanced old cfg src wants s₂ idles p s')) :
        Recorded cfg src s s' (Advanced old cfg src wants s (idles + 1) p s') := by
      refine Recorded.after h₂.1 ⟨h'.1, fun hall => ?_⟩
      have hturned := h₂.2 (hall.of_subset h'.1)
      exact (h'.2 hall).after hturned.2.1 hturned.2.2
    have hafter' {e : Stop} {s' : Session} (h' : Recorded cfg src s₂ s' (Stopped old cfg src wants s₂ e s')) :
        Recorded cfg src s s' (Stopped old cfg src wants s e s') := by
      refine Recorded.after h₂.1 ⟨h'.1, fun hall => ?_⟩
      have hturned := h₂.2 (hall.of_subset h'.1)
      have hstopped := h'.2 hall
      exact ⟨hstopped.toSafe, hstopped.memory, Nat.lt_of_lt_of_le hstopped.turns hturned.2.2⟩
    rw [wp_bind, wp_get, wp_ite]
    refine ⟨fun hphase => ?_, fun _ => ?_⟩
    · exact wp_mono (finished_spec hphase (fun hall => (h₂.2 hall).1.toLive) idles) (fun _ _ => hafter) fun _ _ => hafter'
    · rw [wp_ite]
      refine ⟨fun _ => ?_, fun _ => ?_⟩
      · exact ⟨h₂.1, fun hall => ⟨(h₂.2 hall).2.2, (h₂.2 hall).1, (h₂.2 hall).2.1⟩⟩
      · exact wp_mono (ih fun hall => (h₂.2 hall).1) (fun _ _ => hafter) fun _ _ => hafter'

/-! ## One call of `run` -/

variable (old cfg src wants) in
/-- What the loop leaves when it is not stopped. -/
def Looped (s : Session) (steps : ℕ) (s' : Session) : Prop :=
  s'.turns.length ≤ s.turns.length ∧
    (Completed old cfg src wants s' ∨ Written old cfg src wants s' ∧ s'.left src + min 1 steps ≤ s.left src)

theorem loop_spec (horderly : Orderly src) (steps : ℕ) (h : Meeting cfg src s → Written old cfg src wants s) :
    wp (loop cfg src steps) (fun _ s' => Recorded cfg src s s' (Looped old cfg src wants s steps s'))
      (fun e s' => Recorded cfg src s s' (Stopped old cfg src wants s e s')) s := by
  induction steps generalizing s with
  | zero => exact ⟨List.Subset.refl _, fun hall => ⟨Nat.le_refl _, Or.inr ⟨h hall, Nat.le_refl _⟩⟩⟩
  | succ steps ih =>
    unfold loop
    rw [wp_bind]
    refine wp_mono (advance_spec horderly (max 1 cfg.pollAttempts) h) (fun p s₁ h₁ => ?_) fun e s₁ h₁ => h₁
    cases p with
    | finished => exact ⟨h₁.1, fun hall => ⟨(h₁.2 hall).1, Or.inl (h₁.2 hall).2⟩⟩
    | idled =>
      refine ⟨h₁.1, fun hall => ?_⟩
      obtain ⟨hturns, hwritten, hleft⟩ := h₁.2 hall
      exact ⟨hturns, Or.inr ⟨hwritten, by omega⟩⟩
    | moved =>
      refine wp_mono (ih fun hall => (h₁.2 hall).2.1) (fun _ s' h' => ?_) fun e s' h' => ?_
      · refine Recorded.after h₁.1 ⟨h'.1, fun hall => ?_⟩
        obtain ⟨hturns, -, hleft⟩ := h₁.2 (hall.of_subset h'.1)
        obtain ⟨hturns', hrest⟩ := h'.2 hall
        refine ⟨hturns'.trans hturns, hrest.imp id fun hrest => ⟨hrest.1, ?_⟩⟩
        have := hrest.2
        omega
      · refine Recorded.after h₁.1 ⟨h'.1, fun hall => ?_⟩
        have hstopped := h'.2 hall
        exact ⟨hstopped.toSafe, hstopped.memory, Nat.lt_of_lt_of_le hstopped.turns (h₁.2 (hall.of_subset h'.1)).1⟩

/-- Setting the cursor to what is persisted, with the mark of the job. -/
theorem resume_spec (h : Safe old cfg src wants s) :
    wp resume (fun _ s' => s'.begun = s.begun ∧ Written old cfg src wants s' ∧ s'.cursor = s.job.cursor ∧
        s'.pollsLeft = s.pollsLeft ∧ s'.turns = s.turns.tail)
      (fun _ s' => s'.begun = s.begun ∧ Safe old cfg src wants s' ∧ s.turns ≠ [] ∧ s'.turns = s.turns.tail) s := by
  have hcursor : ({ s.job.cursor with isPartial := s.job.cursor.isPartial || s.job.isPartial } : Cursor) = s.job.cursor := by
    rw [h.isPartial, Bool.or_self]
  unfold resume
  simp only [wp_bind, wp_modify, wp_commit]
  rw [hcursor]
  refine ⟨fun htrouble => ⟨rfl, ⟨⟨h.mode, h.url, h.isPartial⟩, h.disk⟩, ?_, rfl⟩,
    fun _ => ⟨rfl, ⟨⟨⟨⟨h.mode, h.url, h.isPartial⟩, h.disk⟩, h.disk⟩, rfl⟩, rfl, rfl, rfl⟩⟩
  intro hnil
  rw [Session.trouble] at htrouble
  dsimp only at htrouble
  rw [hnil] at htrouble
  cases htrouble

theorem fail_spec (hkept : Kept wants s) (hmemory : Fits old cfg src wants s.cursor s.issues s.commits) (type text : String) :
    wp (fail type text) (fun _ s' => s'.begun = s.begun ∧ Safe old cfg src wants s' ∧ s'.turns.length ≤ s.turns.length)
      (fun _ s' => s'.begun = s.begun ∧ Safe old cfg src wants s' ∧ s'.turns.length ≤ s.turns.length) s := by
  unfold fail
  simp only [wp_bind, wp_setSyncState, wp_modify, wp_commit]
  exact ⟨fun _ => ⟨rfl, ⟨⟨hkept.mode, hkept.url, rfl⟩, hmemory⟩, rest_turns_le s⟩,
    fun _ => ⟨rfl, ⟨⟨hkept.mode, hkept.url, rfl⟩, hmemory⟩, rest_turns_le s⟩⟩

/-- How much is left to do from what is persisted. -/
def Session.leftOver (src : Source) (s : Session) : ℕ := leftFrom src s.job.cursor s.pollsLeft

variable (old cfg src wants) in
/-- What a call of `run` leaves: a checkpoint and fewer turns to come; and with none to come, less to do or
an import that has ended. -/
structure Called (s s' : Session) : Prop extends Safe old cfg src wants s' where
  turns : s'.turns.length ≤ s.turns.length - 1
  progress : s.turns = [] → Completed old cfg src wants s' ∨ s'.leftOver src < s.leftOver src

theorem quiet_resume : Quiet resume := quiet_bind (fun _ => rfl) fun _ => quiet_commit

theorem quiet_fail (type text : String) : Quiet (fail type text) :=
  quiet_bind (quiet_setSyncState _) fun _ => quiet_bind (fun _ => rfl) fun _ => quiet_commit

theorem run_spec (horderly : Orderly src) {maxSteps : ℕ} (hsteps : 0 < maxSteps)
    (h : Meeting cfg src s → Safe old cfg src wants s) :
    Recorded cfg src s (run cfg src maxSteps s) (Called old cfg src wants s (run cfg src maxSteps s)) := by
  have hresume := quiet_resume.recorded fun hall => resume_spec (h hall)
  unfold run
  unfold wp at hresume
  cases hresumed : resume s with
  | error e s₁ =>
    rw [hresumed] at hresume
    refine ⟨hresume.1, fun hall => ?_⟩
    obtain ⟨-, hsafe, hne, hturns⟩ := hresume.2 hall
    exact ⟨hsafe, by rw [hturns, List.length_tail], fun hnil => absurd hnil hne⟩
  | ok _ s₁ =>
    rw [hresumed] at hresume
    have hloop := loop_spec horderly maxSteps fun hall => (hresume.2 hall).2.1
    unfold wp at hloop
    dsimp only
    -- what a stop leaves is no more than what the call began with
    have hstopped {e : Stop} {s₂ s' : Session} (hgrown : s₁.begun ⊆ s₂.begun) (hall : Meeting cfg src s₂)
        (h₂ : Stopped old cfg src wants s₁ e s₂) (hsafe : Safe old cfg src wants s') (hturns : s'.turns.length ≤ s₂.turns.length) :
        Called old cfg src wants s s' := by
      obtain ⟨-, -, -, -, htail⟩ := hresume.2 (hall.of_subset hgrown)
      have hlt := h₂.turns
      rw [htail, List.length_tail] at hlt
      refine ⟨hsafe, by omega, fun hnil => ?_⟩
      rw [hnil] at hlt
      exact absurd hlt (Nat.not_lt_zero _)
    cases hlooped : loop cfg src maxSteps s₁ with
    | ok _ s₂ =>
      rw [hlooped] at hloop
      dsimp only at hloop ⊢
      refine ⟨List.Subset.trans hresume.1 hloop.1, fun hall => ?_⟩
      obtain ⟨-, -, hcursor, hpolls, htail⟩ := hresume.2 (hall.of_subset hloop.1)
      obtain ⟨hturns, hrest⟩ := hloop.2 hall
      rw [htail, List.length_tail] at hturns
      refine ⟨hrest.elim (·.toSafe) (·.1.toSafe), hturns, fun _ => hrest.imp id fun hrest => ?_⟩
      have hleft := hrest.2
      rw [Session.left, Session.left, hcursor, hpolls, ← hrest.1.same] at hleft
      rw [Session.leftOver, Session.leftOver]
      omega
    | error e s₂ =>
      rw [hlooped] at hloop
      cases e with
      | crashed =>
        refine ⟨List.Subset.trans hresume.1 hloop.1, fun hall => ?_⟩
        exact hstopped hloop.1 hall (hloop.2 hall) (hloop.2 hall).toSafe (Nat.le_refl _)
      | raised type text =>
        have hfail := (quiet_fail type text).recorded fun hall =>
          fail_spec (hloop.2 hall).toKept ((hloop.2 hall).memory Stop.noConfusion) type text
        unfold wp at hfail
        dsimp only at hfail ⊢
        cases hfailed : fail type text s₂ with
        | ok _ s₃ =>
          rw [hfailed] at hfail
          refine ⟨List.Subset.trans hresume.1 (List.Subset.trans hloop.1 hfail.1), fun hall => ?_⟩
          have hall₂ := hall.of_subset hfail.1
          exact hstopped hloop.1 hall₂ (hloop.2 hall₂) (hfail.2 hall).2.1 (hfail.2 hall).2.2
        | error e s₃ =>
          rw [hfailed] at hfail
          refine ⟨List.Subset.trans hresume.1 (List.Subset.trans hloop.1 hfail.1), fun hall => ?_⟩
          have hall₂ := hall.of_subset hfail.1
          exact hstopped hloop.1 hall₂ (hloop.2 hall₂) (hfail.2 hall).2.1 (hfail.2 hall).2.2

/-! ## Any number of calls -/

/-- The run lemma: after any number of calls there is a checkpoint, and each has used up a turn. -/
theorem runs_spec (horderly : Orderly src) {maxSteps : ℕ} (hsteps : 0 < maxSteps) (h : Safe old cfg src wants s)
    (hmeets : ∀ k, Meeting cfg src (runs cfg src maxSteps k s)) (k : ℕ) :
    Safe old cfg src wants (runs cfg src maxSteps k s) ∧
      (runs cfg src maxSteps k s).turns.length ≤ s.turns.length - k := by
  induction k with
  | zero => exact ⟨h, Nat.le_refl _⟩
  | succ k ih =>
    have hcalled := (run_spec horderly hsteps fun _ => ih.1).2 (hmeets (k + 1))
    have hturns : (runs cfg src maxSteps (k + 1) s).turns.length ≤ (runs cfg src maxSteps k s).turns.length - 1 :=
      hcalled.turns
    exact ⟨hcalled.toSafe, by omega⟩

/-- Once nothing goes wrong any more, each call ends the import or leaves less to do. -/
theorem runs_progress (horderly : Orderly src) {maxSteps : ℕ} (hsteps : 0 < maxSteps) (h : Safe old cfg src wants s)
    (hcalm : s.turns = []) (hmeets : ∀ k, Meeting cfg src (runs cfg src maxSteps k s)) (k : ℕ) :
    Completed old cfg src wants (runs cfg src maxSteps k s) ∨
      (runs cfg src maxSteps k s).leftOver src + k ≤ s.leftOver src := by
  induction k with
  | zero => exact Or.inr (Nat.le_refl _)
  | succ k ih =>
    obtain ⟨hsafe, hturns⟩ := runs_spec horderly hsteps h hmeets k
    have hnil : (runs cfg src maxSteps k s).turns = [] := by
      rw [hcalm, List.length_nil, Nat.zero_sub] at hturns
      exact List.length_eq_zero_iff.1 (Nat.le_zero.1 hturns)
    have hcalled := (run_spec horderly hsteps fun _ => hsafe).2 (hmeets (k + 1))
    refine (hcalled.progress hnil).imp id fun hless => ?_
    rcases ih with hcompleted | hleft
    · have hzero : (runs cfg src maxSteps k s).leftOver src = 0 := by
        rw [Session.leftOver, leftFrom, hcompleted.phase]
      omega
    · have hless' : (runs cfg src maxSteps (k + 1) s).leftOver src < (runs cfg src maxSteps k s).leftOver src := hless
      omega

theorem runs_add (cfg : ImportConfig) (src : Source) (maxSteps m n : ℕ) (s : Session) :
    runs cfg src maxSteps (m + n) s = runs cfg src maxSteps n (runs cfg src maxSteps m s) := by
  induction n with
  | zero => rfl
  | succ n ih => rw [← Nat.add_assoc, runs, ih, runs]

/-- From some call on the import has ended. -/
theorem runs_complete (horderly : Orderly src) {maxSteps : ℕ} (hsteps : 0 < maxSteps) (h : Safe old cfg src wants s)
    (hmeets : ∀ k, Meeting cfg src (runs cfg src maxSteps k s)) :
    ∃ K, ∀ k, K ≤ k → Completed old cfg src wants (runs cfg src maxSteps k s) := by
  -- `s₁` is what is left when every turn is used up
  obtain ⟨s₁, hs₁⟩ : ∃ s₁, s₁ = runs cfg src maxSteps s.turns.length s := ⟨_, rfl⟩
  obtain ⟨hsafe, hturns⟩ := runs_spec horderly hsteps h hmeets s.turns.length
  rw [← hs₁, Nat.sub_self] at hturns
  rw [← hs₁] at hsafe
  have hmeets₁ (k : ℕ) : Meeting cfg src (runs cfg src maxSteps k s₁) := by
    rw [hs₁, ← runs_add]
    exact hmeets _
  refine ⟨s.turns.length + (s₁.leftOver src + 1), fun k hk => ?_⟩
  obtain ⟨j, rfl⟩ := Nat.exists_eq_add_of_le hk
  rw [Nat.add_assoc, runs_add, ← hs₁]
  have hprogress := runs_progress horderly hsteps hsafe (List.length_eq_zero_iff.1 (Nat.le_zero.1 hturns)) hmeets₁
    (s₁.leftOver src + 1 + j)
  exact hprogress.resolve_right (by omega)

/-- Imports that have ended have the same rows and the same mark. -/
theorem Completed.same {s' : Session} (h : Completed old cfg src wants s) (h' : Completed old cfg src wants s') :
    s.issues = s'.issues ∧ s.commits = s'.commits ∧ s.job.isPartial = s'.job.isPartial := by
  have hdisk := h.disk
  have hdisk' := h'.disk
  unfold Fits at hdisk hdisk'
  rw [h.phase] at hdisk
  rw [h'.phase] at hdisk'
  obtain ⟨marked, markedWalk, hissues, hwalked, hpartial⟩ := hdisk
  obtain ⟨marked', markedWalk', hissues', hwalked', hpartial'⟩ := hdisk'
  obtain ⟨hcommits, hmarks⟩ := hwalked.unique hwalked'
  have hrows : s.issues = s'.issues ∧ marked = marked' := by
    unfold IssuesDone at hissues hissues'
    split at hissues
    next hwants =>
      rw [if_pos hwants] at hissues'
      exact ⟨hissues.1.trans hissues'.1.symm, hissues.2.trans hissues'.2.symm⟩
    next hwants =>
      rw [if_neg hwants] at hissues'
      exact ⟨hissues.1.trans hissues'.1.symm, hissues.2.trans hissues'.2.symm⟩
  refine ⟨hrows.1, hcommits, ?_⟩
  rw [h.isPartial, h'.isPartial, hpartial, hpartial', hrows.2, hmarks]

end turns

/-! ## Interrupted imports -/

/-- An import as `create_job` leaves it, of a repository whose URL is read without an error. -/
structure Fresh (old : Tables) (s : Session) : Prop where
  url : ∃ url, s.repo.sourceUrl = some url ∧ ParsesThrough url
  cursor : s.job.cursor = { phase := .validate }
  isPartial : s.job.isPartial = false
  issues : s.issues = old.issues
  commits : s.commits = old.commits
  begun : s.begun = []

theorem Fresh.safe {old : Tables} {s : Session} (h : Fresh old s) (cfg : ImportConfig) (src : Source) :
    Safe old cfg src (decide (s.job.mode ∈ ["code+issues", "issues"])) s := by
  refine ⟨⟨rfl, h.url, by rw [h.isPartial, h.cursor]⟩, ?_⟩
  unfold Fits
  rw [h.cursor]
  exact ⟨⟨rfl, rfl, rfl, rfl, h.issues⟩, ⟨rfl, rfl, rfl, h.commits⟩⟩

/-- The same import with nothing going wrong. -/
def Session.undisturbed (s : Session) : Session := { s with turns := [] }

/-- Two imports are done, with the same rows of issues and of commits and the same partial flag. -/
def EndAlike (s s' : Session) : Prop :=
  (s.job.status = "done" ∧ s'.job.status = "done") ∧
    s.issues = s'.issues ∧ s.commits = s'.commits ∧ s.job.isPartial = s'.job.isPartial

/-- However an import is interrupted, by crashes and by exceptions, and however often it is called again: if each
of its steps begins where it is safe to interrupt it, its calls end as those of the undisturbed import do. -/
theorem resumed_ends_alike {old : Tables} {cfg : ImportConfig} {src : Source} {maxSteps : ℕ} {s : Session}
    (horderly : Orderly src) (hsteps : 0 < maxSteps) (hfresh : Fresh old s)
    (hmeets : ∀ k, Meeting cfg src (runs cfg src maxSteps k s))
    (hundisturbed : ∀ k, Meeting cfg src (runs cfg src maxSteps k s.undisturbed)) :
    ∃ K, ∀ k, K ≤ k → EndAlike (runs cfg src maxSteps k s) (runs cfg src maxSteps k s.undisturbed) := by
  have hfresh' : Fresh old s.undisturbed :=
    ⟨hfresh.url, hfresh.cursor, hfresh.isPartial, hfresh.issues, hfresh.commits, hfresh.begun⟩
  obtain ⟨K, hK⟩ := runs_complete horderly hsteps (hfresh.safe cfg src) hmeets
  obtain ⟨K', hK'⟩ := runs_complete horderly hsteps (hfresh'.safe cfg src) hundisturbed
  refine ⟨max K K', fun k hk => ?_⟩
  have hcompleted := hK k (le_of_max_le_left hk)
  have hcompleted' := hK' k (le_of_max_le_right hk)
  exact ⟨⟨hcompleted.status, hcompleted'.status⟩, hcompleted.same hcompleted'⟩

/-! ### A repository with one commit -/

theorem runs_fixed {cfg : ImportConfig} {src : Source} {maxSteps N : ℕ} {s : Session}
    (hfix : runs cfg src maxSteps (N + 1) s = runs cfg src maxSteps N s) (k : ℕ) :
    runs cfg src maxSteps (N + k) s = runs cfg src maxSteps N s := by
  induction k with
  | zero => rfl
  | succ k ih => rw [← Nat.add_assoc, runs, ih]; exact hfix

theorem meeting_of_fixed {cfg : ImportConfig} {src : Source} {maxSteps N : ℕ} {s : Session}
    (hfix : runs cfg src maxSteps (N + 1) s = runs cfg src maxSteps N s)
    (h : ∀ k < N + 1, Meeting cfg src (runs cfg src maxSteps k s)) (k : ℕ) : Meeting cfg src (runs cfg src maxSteps k s) := by
  rcases Nat.lt_or_ge k (N + 1) with hk | hk
  · exact h k hk
  · obtain ⟨j, rfl⟩ := Nat.exists_eq_add_of_le (Nat.le_of_succ_le hk)
    rw [runs_fixed hfix]
    exact h N (Nat.lt_succ_self N)

instance (cfg : ImportConfig) (src : Source) (b : Start) : Decidable (b.Meets cfg src) :=
  match hphase : b.cursor.phase with
  | .poll =>
    decidable_of_iff (b.cursor.migratePolls + b.pollsLeft < cfg.pollAttempts) (by rw [Start.Meets, hphase])
  | .indexCommits =>
    decidable_of_iff (src.apiCommits = [] ∨
      if b.cursor.commitsSeen < src.apiCommits.length then
        b.turns.head? = some true → b.cursor.extras.commitSource ≠ some "git" ∧ b.turns.tail.head? = some true
      else b.cursor.extras.commitSource ≠ some "git") (by rw [Start.Meets, hphase])
  | .validate => isTrue (by rw [Start.Meets, hphase]; trivial)
  | .migrate => isTrue (by rw [Start.Meets, hphase]; trivial)
  | .mirrorIssues => isTrue (by rw [Start.Meets, hphase]; trivial)
  | .done => isTrue (by rw [Start.Meets, hphase]; trivial)

instance (cfg : ImportConfig) (src : Source) (s : Session) : Decidable (Meeting cfg src s) :=
  inferInstanceAs (Decidable (∀ b ∈ s.begun, b.Meets cfg src))

def smallConfig : ImportConfig where
  owner := "m"
  maxIssues := 5
  maxCommits := 5
  pageSize := 2
  pollAttempts := 3

def oneCommit : Source where
  issues := []
  apiCommits := [⟨"c", "first", "a"⟩]
  gitCommits := [⟨"c", "first", "a"⟩]

def noRows : Tables := ⟨[], [], List.nodup_nil, List.nodup_nil⟩

/-- An import of the code of one repository. -/
def codeImport (turns : List Bool) : Session where
  repo :=
    { id := 1, slug := "o/n", source := "import", kind := "upstream", syncState := "pending",
      sourceUrl := some "https://x.io/o/n", updatedAt := 0 }
  job := { repoId := 1, mode := "code", status := "queued", phase := .validate, cursor := { phase := .validate } }
  cursor := { phase := .validate }
  turns

theorem orderly_oneCommit : Orderly oneCommit :=
  ⟨⟨List.nodup_nil, List.Pairwise.nil⟩, ⟨rfl, ⟨by decide, by decide⟩⟩⟩

theorem fresh_codeImport (turns : List Bool) : Fresh noRows (codeImport turns) := by
  refine ⟨⟨_, rfl, fun n => ?_⟩, rfl, rfl, rfl, rfl, rfl⟩
  have hsource : parseSource "https://x.io/o/n" =
      .ok ⟨"x.io", "o", "n", "https://x.io/o/n.git", "o/n", .git⟩ := by decide +kernel
  have hform : webForm "https://x.io/o/n" = "https://x.io/o/n" := by
    rw [webForm_of_ok hsource]
    decide
  exact ⟨_, by rw [Function.iterate_fixed hform]; exact hsource⟩

/-- The calls before `stream_commits` work, that one and the local copy raise, and all later calls work. -/
def raisedOnce : List Bool := List.replicate 10 false ++ [true, true]

/-- As `raisedOnce`, and `stream_commits` raises in the next call of `run` too. -/
def raisedTwice : List Bool := raisedOnce ++ [false, false, true]

theorem resumed_ends_alike_raisedOnce :
    ∃ K, ∀ k, K ≤ k → EndAlike (runs smallConfig oneCommit 100 k (codeImport raisedOnce))
      (runs smallConfig oneCommit 100 k (codeImport raisedOnce).undisturbed) :=
  resumed_ends_alike orderly_oneCommit (by decide) (fresh_codeImport raisedOnce)
    (meeting_of_fixed (N := 2) (by decide +kernel) (by decide +kernel))
    (meeting_of_fixed (N := 1) (by decide +kernel) (by decide +kernel))

/-- The import that is called again after two failures of `stream_commits` is done without a commit. -/
theorem raisedTwice_not_endAlike :
    Orderly oneCommit ∧ Fresh noRows (codeImport raisedTwice) ∧
      ¬ ∃ K, ∀ k, K ≤ k → EndAlike (runs smallConfig oneCommit 100 k (codeImport raisedTwice))
        (runs smallConfig oneCommit 100 k (codeImport raisedTwice).undisturbed) := by
  have hlost : (runs smallConfig oneCommit 100 2 (codeImport raisedTwice)).commits = [] := by decide +kernel
  have hfix : runs smallConfig oneCommit 100 3 (codeImport raisedTwice) =
      runs smallConfig oneCommit 100 2 (codeImport raisedTwice) := by decide +kernel
  have hstored : (runs smallConfig oneCommit 100 2 (codeImport raisedTwice).undisturbed).commits ≠ [] := by
    decide +kernel
  have hfix' : runs smallConfig oneCommit 100 3 (codeImport raisedTwice).undisturbed =
      runs smallConfig oneCommit 100 2 (codeImport raisedTwice).undisturbed := by decide +kernel
  refine ⟨orderly_oneCommit, fresh_codeImport raisedTwice, fun ⟨K, hK⟩ => ?_⟩
  have hcommits := (hK (2 + K) (Nat.le_add_left ..)).2.2.1
  rw [runs_fixed hfix, runs_fixed hfix', hlost] at hcommits
  exact hstored hcommits.symm

end OpenFish.Import
