/-
Producer idempotency: `enqueue` admits no second pending task of a key, and a retry is the only call
that can make one. There is at most one pending task of every key throughout a run exactly when no
retry revives a task while another of its key is pending.
-/
import OpenFish.Queue.History

namespace OpenFish.Queue

open Lib

/-! ## What the claim is about -/

/-- A task pending under an idempotency token. -/
structure Pending (repo : Nat) (kind : TaskKind) (dedup : String) (t : AgentTask) : Prop where
  repoId : t.repoId = repo
  kind : t.kind = kind
  dedupKey : t.dedupKey = some dedup
  active : t.status ∈ activeTaskStatuses

/-- At most one task is pending for each repository, kind and non-empty key. -/
def OnePending (q : Tasks) : Prop :=
  ∀ repo kind dedup, dedup ≠ "" → ∀ t ∈ q.rows, ∀ t' ∈ q.rows,
    Pending repo kind dedup t → Pending repo kind dedup t' → t = t'

/-- A retry does not revive a failed or dead task while a task of its key is pending. -/
def RevivesNoDuplicate (_ : List Event) (q : Tasks) (c : Call) : Prop :=
  ∀ id reason now, c.op = .retry id reason now →
    ∀ t, q.get? id = some t → t.status ∈ [TaskStatus.failed, .dead] →
      ∀ dedup, t.dedupKey = some dedup → dedup ≠ "" → ∀ t' ∈ q.rows, ¬ Pending t.repoId t.kind dedup t'

/-! ## How a task becomes pending -/

/-- A row becomes active only by being retried. -/
theorem Touched.active {r r' : AgentTask} {e : Option Effect} (h : Touched r e r')
    (ha : r'.status ∈ activeTaskStatuses) : r.status ∈ activeTaskStatuses ∨ e = some .retried := by
  cases h with
  | same => exact .inl ha
  | started hs => exact .inl (by rw [hs]; decide)
  | leased _ _ hs => exact .inl (by rw [hs]; decide)
  | retried => exact .inr rfl
  | beat _ hs | requeued _ _ _ hs | buried _ _ _ hs | finished _ _ hs =>
    exact .inl (List.mem_cons_of_mem _ hs)
  | cancelled _ _ hs => exact .inl hs

/-- A task is enqueued under a fresh id. -/
theorem created_elim {q : Tasks} {c : Call} {k : Nat} (h : effect (c, (step q c).1) k = some .created) :
    k = q.next := by
  obtain ⟨a, hop⟩ := effect_op h
  obtain ⟨runners, op⟩ := c
  subst hop
  have hid : ∃ id, (enqueue runners a q).1 = .ok id ∧ 0 < id ∧ id = k := by
    cases hans : (enqueue runners a q).1 with
    | error e => simp [effect, step, hans] at h
    | ok id => exact ⟨id, rfl, by simpa [effect, step, hans] using h⟩
  obtain ⟨id, hans, hpos, rfl⟩ := hid
  rcases enqueue_spec runners a q with ⟨-, hzero, -⟩ | ⟨kind, -, heq⟩
  · have := hzero id hans
    omega
  · rw [heq] at hans
    cases hans; rfl

/-- A retried task was failed or dead. -/
theorem retried_elim {q : Tasks} {c : Call} {k : Nat} (h : effect (c, (step q c).1) k = some .retried) :
    ∃ r, q.get? k = some r ∧ r.status ∈ [TaskStatus.failed, .dead] := by
  have hm := step_moved q c k
  rw [h] at hm
  generalize q.get? k = o at hm ⊢
  generalize (step q c).2.get? k = o' at hm
  cases hm with
  | touched ht => cases ht with
    | retried _ _ hs => exact ⟨_, rfl, hs⟩

/-! ## One call -/

/-- The task a call enqueues or revives. -/
def Newcomer (q : Tasks) (c : Call) (k : Nat) : Prop :=
  effect (c, (step q c).1) k = some .created ∨ effect (c, (step q c).1) k = some .retried

/-- A call makes one task pending at most. -/
theorem newcomer_unique {q : Tasks} {c : Call} {k k' : Nat} (h : Newcomer q c k) (h' : Newcomer q c k') :
    k = k' := by
  rcases h with h | h <;> rcases h' with h' | h'
  · exact (created_elim h).trans (created_elim h').symm
  · obtain ⟨a, hop⟩ := effect_op h
    obtain ⟨reason, now, hop'⟩ := effect_op h'
    rw [hop] at hop'; cases hop'
  · obtain ⟨reason, now, hop⟩ := effect_op h
    obtain ⟨a, hop'⟩ := effect_op h'
    rw [hop] at hop'; cases hop'
  · obtain ⟨reason, now, hop⟩ := effect_op h
    obtain ⟨reason', now', hop'⟩ := effect_op h'
    rw [hop] at hop'; cases hop'; rfl

/-- Whatever is active after a call was active before, or is its newcomer. -/
theorem active_step {q : Tasks} {c : Call} {r' : AgentTask} (hr' : r' ∈ (step q c).2.rows)
    (ha : r'.status ∈ activeTaskStatuses) :
    (∃ r ∈ q.rows, SameTask r r' ∧ r.status ∈ activeTaskStatuses) ∨ Newcomer q c r'.id := by
  have hm := step_moved q c r'.id
  rw [get?_of_row hr'] at hm
  generalize he : effect (c, (step q c).1) r'.id = e at hm
  generalize ho : q.get? r'.id = o at hm
  cases hm with
  | created => exact .inr (.inl he)
  | touched ht =>
    rcases ht.active ha with hactive | rfl
    · exact .inl ⟨_, (Table.get?_eq_some.1 ho).1, ht.sameTask, hactive⟩
    · exact .inr (.inr he)

/-- The newcomer is queued. -/
theorem newcomer_queued {q : Tasks} {c : Call} {r' : AgentTask} (hr' : r' ∈ (step q c).2.rows)
    (h : Newcomer q c r'.id) : r'.status ∈ activeTaskStatuses := by
  have hm := step_moved q c r'.id
  rw [get?_of_row hr'] at hm
  generalize ho : q.get? r'.id = o at hm
  rcases h with h | h <;> rw [h] at hm
  · cases hm with
    | created hf => rw [hf.status]; decide
    | touched ht => cases ht
  · cases hm with
    | touched ht => cases ht with
      | retried => simp [setRetried, activeTaskStatuses]

/-- The newcomer was not active, and the other rows stay as they are. -/
theorem newcomer_apart {q : Tasks} {c : Call} {k : Nat} (h : Newcomer q c k) {t : AgentTask} (ht : t ∈ q.rows)
    (ha : t.status ∈ activeTaskStatuses) : t.id ≠ k ∧ t ∈ (step q c).2.rows := by
  obtain ⟨runners, op⟩ := c
  rcases h with h | h
  · obtain rfl := created_elim h
    obtain ⟨a, hop⟩ := effect_op h
    subst hop
    refine ⟨Nat.ne_of_lt (q.below t ht), ?_⟩
    rcases enqueue_spec runners a q with ⟨-, -, hq⟩ | ⟨kind, -, heq⟩
    · show t ∈ (enqueue runners a q).2.rows
      rw [hq]; exact ht
    · show t ∈ (enqueue runners a q).2.rows
      rw [heq]; exact List.mem_append_left _ ht
  · obtain ⟨r, hr, hs⟩ := retried_elim h
    obtain ⟨reason, now, hop⟩ := effect_op h
    subst hop
    have hne : t.id ≠ k := by
      rintro rfl
      rw [get?_of_row ht] at hr; cases hr
      simp only [activeTaskStatuses, List.mem_cons, List.not_mem_nil, or_false] at ha hs
      rcases hs with hs | hs <;> rw [hs] at ha <;> simp at ha
    refine ⟨hne, (Table.mem_update (f := setRetried reason now) fun _ => rfl).2 ⟨t, ht, if_neg ?_⟩⟩
    rw [actionable_iff]
    exact fun hact => hne hact.1

/-- At most one task of a kind is pending. -/
def AtMostOne (C : AgentTask → Prop) (q : Tasks) : Prop :=
  ∀ t ∈ q.rows, ∀ t' ∈ q.rows, C t → C t' → t.status ∈ activeTaskStatuses → t'.status ∈ activeTaskStatuses → t = t'

/-- The tasks of a repository, a kind and a key. -/
def OfKey (repo : Nat) (kind : TaskKind) (dedup : String) (t : AgentTask) : Prop :=
  t.repoId = repo ∧ t.kind = kind ∧ t.dedupKey = some dedup

theorem onePending_iff {q : Tasks} :
    OnePending q ↔ ∀ repo kind dedup, dedup ≠ "" → AtMostOne (OfKey repo kind dedup) q := by
  constructor
  · rintro h repo kind dedup hne t ht t' ht' ⟨h₁, h₂, h₃⟩ ⟨h₁', h₂', h₃'⟩ ha ha'
    exact h repo kind dedup hne t ht t' ht' ⟨h₁, h₂, h₃, ha⟩ ⟨h₁', h₂', h₃', ha'⟩
  · intro h repo kind dedup hne t ht t' ht' hp hp'
    exact h repo kind dedup hne t ht t' ht' ⟨hp.repoId, hp.kind, hp.dedupKey⟩ ⟨hp'.repoId, hp'.kind, hp'.dedupKey⟩
      hp.active hp'.active

/-! ## Who the newcomer is -/

/-- A task that `enqueue` admits is a newcomer. -/
theorem admitted_newcomer {runners : RunnerTable} {a : EnqueueArgs} {q : Tasks} {kind : TaskKind}
    (h : Admits runners a q kind) :
    Newcomer q ⟨runners, .enqueue a⟩ q.next ∧
      admitted runners a kind q.next ∈ (step q ⟨runners, .enqueue a⟩).2.rows := by
  rcases enqueue_spec runners a q with ⟨hno, -⟩ | ⟨kind', h', heq⟩
  · exact absurd h (hno kind)
  · have hkind : kind' = kind := by
      have := h'.known
      rw [h.known] at this
      cases this; rfl
    subst hkind
    refine ⟨.inl ?_, ?_⟩
    · simp [effect, step, heq, q.pos]
    · show _ ∈ (enqueue runners a q).2.rows
      rw [heq]
      exact List.mem_append_right _ (List.mem_singleton.2 rfl)

/-- A task that `retry` takes up is a newcomer. -/
theorem retried_newcomer (runners : RunnerTable) {q : Tasks} {id : Nat} (reason : String) (now : Time) {r : AgentTask}
    (hr : q.get? id = some r) (hs : r.status ∈ [TaskStatus.failed, .dead]) :
    Newcomer q ⟨runners, .retry id reason now⟩ id ∧
      setRetried reason now r ∈ (step q ⟨runners, .retry id reason now⟩).2.rows := by
  obtain ⟨hmem, hid⟩ := Table.get?_eq_some.1 hr
  have hact : actionable id [.failed, .dead] r = true := actionable_iff.2 ⟨hid, hs⟩
  refine ⟨.inr ?_, (Table.mem_update (f := setRetried reason now) fun _ => rfl).2 ⟨r, hmem, if_pos hact⟩⟩
  have hcount : q.rowcount (actionable id [.failed, .dead]) = true := Table.rowcount_iff.2 ⟨r, hmem, hact⟩
  simp [effect, step, retry, hcount]

/-- There is no newcomer but these. -/
theorem newcomer_elim {q : Tasks} {c : Call} {r' : AgentTask} (hr' : r' ∈ (step q c).2.rows)
    (h : Newcomer q c r'.id) :
    (∃ a kind, c.op = .enqueue a ∧ Admits c.runners a q kind ∧ r' = admitted c.runners a kind q.next) ∨
      ∃ reason now r, c.op = .retry r'.id reason now ∧ q.get? r'.id = some r ∧
        r.status ∈ [TaskStatus.failed, .dead] ∧ SameTask r r' := by
  rcases h with h | h
  · have hid := created_elim h
    obtain ⟨a, hop⟩ := effect_op h
    obtain ⟨runners, op⟩ := c
    subst hop
    left
    rcases enqueue_spec runners a q with ⟨-, -, hq⟩ | ⟨kind, hadmits, heq⟩
    · have hmem : r' ∈ q.rows := by
        rw [← hq]; exact hr'
      exact absurd hid (Nat.ne_of_lt (q.below r' hmem))
    · refine ⟨a, kind, rfl, hadmits, ?_⟩
      exact Table.eq_of_key hr' (admitted_newcomer hadmits).2 hid
  · obtain ⟨r, hr, hs⟩ := retried_elim h
    obtain ⟨reason, now, hop⟩ := effect_op h
    refine .inr ⟨reason, now, r, hop, hr, hs, ?_⟩
    have hm := step_moved q c r'.id
    rw [get?_of_row hr', hr, h] at hm
    cases hm with
    | touched ht => exact ht.sameTask

/-- No task of a kind that a call enqueues or takes up again meets a pending one of the kind. -/
structure MeetsNone (C : AgentTask → Prop) (q : Tasks) (c : Call) : Prop where
  enqueued : ∀ a kind, c.op = .enqueue a → Admits c.runners a q kind → C (admitted c.runners a kind q.next) →
    ∀ t ∈ q.rows, C t → t.status ∉ activeTaskStatuses
  retried : ∀ id reason now, c.op = .retry id reason now →
    ∀ r, q.get? id = some r → r.status ∈ [TaskStatus.failed, .dead] → C r →
      ∀ t ∈ q.rows, C t → t.status ∉ activeTaskStatuses

/-! ## One call -/

/-- Where at most one task of a kind is pending, a call keeps it so exactly when what it makes pending meets none. -/
theorem atMostOne_step {C : AgentTask → Prop} (hC : ∀ {r r'}, SameTask r r' → (C r' ↔ C r)) {q : Tasks} {c : Call}
    (hq : AtMostOne C q) : AtMostOne C (step q c).2 ↔ MeetsNone C q c := by
  constructor
  · intro hone
    have halone {r' : AgentTask} (hr' : r' ∈ (step q c).2.rows) (hnew : Newcomer q c r'.id) (hc : C r') :
        ∀ t ∈ q.rows, C t → t.status ∉ activeTaskStatuses := by
      intro t ht hct ha
      obtain ⟨hne, hmem⟩ := newcomer_apart hnew ht ha
      exact hne (congrArg AgentTask.id (hone t hmem r' hr' hct hc ha (newcomer_queued hr' hnew)))
    obtain ⟨runners, op⟩ := c
    constructor
    · rintro a kind rfl hadmits hc
      obtain ⟨hnew, hmem⟩ := admitted_newcomer hadmits
      exact halone hmem hnew hc
    · rintro id reason now rfl r hr hs hc
      obtain ⟨hnew, hmem⟩ := retried_newcomer runners reason now hr hs
      have hid : r.id = id := (Table.get?_eq_some.1 hr).2
      have hsame : SameTask r (setRetried reason now r) := ⟨rfl, rfl, rfl, rfl, rfl, rfl, rfl⟩
      exact halone hmem (hid.symm ▸ hnew) ((hC hsame).2 hc)
  · intro hok a ha b hb hca hcb hsa hsb
    have halone {r' : AgentTask} (hr' : r' ∈ (step q c).2.rows) (hnew : Newcomer q c r'.id) (hc : C r') :
        ∀ t ∈ q.rows, C t → t.status ∉ activeTaskStatuses := by
      rcases newcomer_elim hr' hnew with ⟨args, kind, hop, hadmits, rfl⟩ | ⟨reason, now, r, hop, hr, hs, hsame⟩
      · exact hok.enqueued args kind hop hadmits hc
      · exact hok.retried _ reason now hop r hr hs ((hC hsame).1 hc)
    have hids : a.id = b.id := by
      -- a newcomer finds no task of the kind, and there is one newcomer at most
      rcases active_step ha hsa with ⟨ra, hra, hsame, hactive⟩ | hna <;>
        rcases active_step hb hsb with ⟨rb, hrb, hsame', hactive'⟩ | hnb
      · rw [hsame.id, hsame'.id, hq ra hra rb hrb ((hC hsame).1 hca) ((hC hsame').1 hcb) hactive hactive']
      · exact absurd hactive (halone hb hnb hcb ra hra ((hC hsame).1 hca))
      · exact absurd hactive' (halone ha hna hca rb hrb ((hC hsame').1 hcb))
      · exact newcomer_unique hna hnb
    exact Table.eq_of_key ha hb hids

/-- From a state with one pending task a key, a call leads to another exactly when it revives no
duplicate. -/
theorem onePending_step {h : List Event} {q : Tasks} {c : Call} (hq : OnePending q) :
    OnePending (step q c).2 ↔ RevivesNoDuplicate h q c := by
  have hkey (repo : Nat) (kind : TaskKind) (dedup : String) {r r' : AgentTask} (hs : SameTask r r') :
      OfKey repo kind dedup r' ↔ OfKey repo kind dedup r := by
    simp only [OfKey, hs.repoId, hs.kind, hs.dedupKey]
  rw [onePending_iff] at hq ⊢
  constructor
  · intro hone id reason now hop t ht hs dedup htkey hne t' ht' hp
    have hstep := (atMostOne_step (hkey t.repoId t.kind dedup) (hq t.repoId t.kind dedup hne)).1
      (hone t.repoId t.kind dedup hne)
    exact hstep.retried id reason now hop t ht hs ⟨rfl, rfl, htkey⟩ t' ht' ⟨hp.repoId, hp.kind, hp.dedupKey⟩ hp.active
  · intro hok repo kind dedup hne
    refine (atMostOne_step (hkey repo kind dedup) (hq repo kind dedup hne)).2 ⟨?_, ?_⟩
    · -- `enqueue` suppresses what is pending already
      rintro a kind' hop hadmits ⟨rfl, rfl, hnew⟩ t ht ⟨hrepo, hkind, hdedup⟩ ha
      have hne' : Text.strip (a.dedupKey.getD "") ≠ "" ∧ Text.strip (a.dedupKey.getD "") = dedup := by
        simp only [admitted, newTask] at hnew
        split at hnew <;> cases hnew
        exact ⟨by assumption, rfl⟩
      refine absurd (List.any_eq_true.2 ⟨t, ht, ?_⟩) (by simpa using hadmits.fresh hne'.1)
      simp only [isDuplicate, hrepo, hkind, hdedup, ha, hne'.2, admitted, newTask, beq_self_eq_true, decide_true,
        Bool.and_self]
    · rintro id reason now hop r hr hs ⟨rfl, rfl, hrkey⟩ t ht ⟨hrepo, hkind, hdedup⟩ ha
      exact hok id reason now hop r hr hs dedup hrkey hne t ht ⟨hrepo, hkind, hdedup, ha⟩

/-! ## Every run -/

/-- Producer idempotency: at every moment of a run at most one task is pending for each repository,
kind and non-empty key if and only if no retry of the run revives a task while another of its key is
pending. -/
theorem onePending_iff_revivesNoDuplicate (cs : List Call) :
    agentQueue.AllStates (fun _ q => OnePending q) cs ↔ agentQueue.AllSteps RevivesNoDuplicate cs :=
  Machine.allStates_iff_allSteps (fun _ _ _ _ t ht => by cases ht) (fun _ _ hq => onePending_step hq) cs

/-- A task is cancelled, its key is enqueued again, and the cancelled task is retried (read from the
last call to the first). -/
def retriedDuplicate : List Call :=
  [ ⟨noRunners, .retry 1 "manual retry" 3⟩,
    ⟨noRunners, .enqueue { repoId := 1, dedupKey := some "sha", now := 2, createdAt := 2 }⟩,
    ⟨noRunners, .cancel 1 "cancelled" 1⟩,
    ⟨noRunners, .enqueue { repoId := 1, dedupKey := some "sha", now := 0, createdAt := 0 }⟩ ]

/-- `retriedDuplicate` ends with two pending tasks of one key. -/
theorem retriedDuplicate_two_pending : ¬ agentQueue.AllStates (fun _ q => OnePending q) retriedDuplicate := by
  intro h
  have hids : ∀ t ∈ (agentQueue.state retriedDuplicate).rows, ∀ t' ∈ (agentQueue.state retriedDuplicate).rows,
      t = t' := by
    intro t ht t' ht'
    have hall : ∀ r ∈ (agentQueue.state retriedDuplicate).rows,
        r.repoId = 1 ∧ r.kind = .review ∧ r.dedupKey = some "sha" ∧ r.status ∈ activeTaskStatuses := by decide
    obtain ⟨h1, h2, h3, h4⟩ := hall t ht
    obtain ⟨h1', h2', h3', h4'⟩ := hall t' ht'
    exact h.now 1 .review "sha" (by decide) t ht t' ht' ⟨h1, h2, h3, h4⟩ ⟨h1', h2', h3', h4'⟩
  exact absurd hids (by decide)

end OpenFish.Queue
