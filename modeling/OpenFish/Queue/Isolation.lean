/-
Isolation of write tasks: the work directory and the branch of an execution are named after the task
and its attempts alone (`workdir_for` of `services/agent_runner.py`, `_load_task` of
`services/agent_worker.py`), and a retry counts the attempts from zero again. Two executions of a write
task are apart throughout a run exactly when no claim selects a write task that was handed out before
its last retry.
-/
import OpenFish.Queue.Delivery

namespace OpenFish.Queue

open Lib

/-! ## The names of an execution -/

def agentBranchPrefix : String := "agent/"

def maxNameBytes : Nat := 255

/-- `re.split(r"[/\\]", value.rstrip("/\\"))[-1]`. -/
def lastSegment (value : String) : String :=
  String.ofList ((value.toList.rdropWhile (· ∈ ['/', '\\'])).rtakeWhile (· ∉ ['/', '\\']))

/-- `single_segment` of `services/paths.py`. -/
def singleSegment (value what : String) : Except String String :=
  if value = "" then .error s!"{what} is empty"
  else if maxNameBytes < value.utf8ByteSize then .error s!"{what} is too long"
  else if Text.startsWith "." value then .error s!"{what} must not start with a dot"
  else if value.toList.any (· ∈ ['/', '\\', '\x00']) then .error s!"{what} must not contain a path separator"
  else if lastSegment value ≠ value then .error s!"{what} must be a single path segment"
  else if value.toList.any fun c => decide (c.toNat < 32) || decide (c.toNat = 127) then
    .error s!"{what} must not contain control characters"
  else .ok value

def workdirFor (root taskId : String) (attempt : Nat) : Except String String :=
  match singleSegment (Text.strip taskId) "任务 id" with
  | .error _ => .error s!"非法任务 id：{taskId}"
  | .ok component =>
    let component := if 0 < attempt then component ++ "-attempt" ++ toString attempt else component
    .ok (root ++ "/" ++ component)

/-- The fields of `TaskRequest` that name an execution. -/
structure TaskRequest where
  taskId : String
  kind : TaskKind
  branch : Option String
  attempt : Nat
  deriving DecidableEq, Repr

/-- The kinds of tasks that push a branch. -/
def writeKinds : List TaskKind := [.fix, .checks]

/-- The end of `_load_task`: every write task gets its own branch and work directory, both keyed by
the attempt number. -/
def loadTask (claimed : ClaimedTask) : TaskRequest :=
  let attempt := claimed.attempts
  let branch :=
    if claimed.kind ∈ writeKinds then
      let label := if claimed.kind = .checks then "checks" else "fix"
      some (agentBranchPrefix ++ label ++ "-" ++ toString claimed.id ++ "-a" ++ toString (attempt + 1))
    else none
  { taskId := toString claimed.id, kind := claimed.kind, branch, attempt }

/-- The work directory `AgentRunner.run` makes for a request. -/
def TaskRequest.workdir (root : String) (task : TaskRequest) : Except String String :=
  workdirFor root task.taskId task.attempt

/-! ## What the claim is about -/

/-- The task an answered call handed out. -/
def claimedBy (e : Event) : Option ClaimedTask :=
  match e.2 with
  | .claimed task => task
  | _ => none

/-- The successful claims of a history, the latest first. -/
def claims (h : List Event) : List ClaimedTask := h.filterMap claimedBy

/-- Two executions share neither a branch nor a work directory. -/
def Separate (root : String) (t u : ClaimedTask) : Prop :=
  (loadTask t).branch ≠ (loadTask u).branch ∧
    ∀ d, (loadTask t).workdir root = .ok d → (loadTask u).workdir root ≠ .ok d

/-- Any two claims of one write task are separate executions. -/
def Isolated (root : String) (h : List Event) : Prop :=
  (claims h).Pairwise fun t u => t.id = u.id → t.kind ∈ writeKinds → Separate root t u

/-- The claims of a task since it was enqueued or last retried, and those before. -/
structure Eras where
  current : List ClaimedTask := []
  earlier : List ClaimedTask := []

def erasAfter (e : Event) (k : Nat) (eras : Eras) : Eras :=
  match claimedBy e with
  | some task => if task.id = k then { eras with current := task :: eras.current } else eras
  | none => if effect e k = some .retried then ⟨[], eras.current ++ eras.earlier⟩ else eras

def eras : List Event → Nat → Eras
  | [], _ => {}
  | e :: h, k => erasAfter e k (eras h k)

/-- A claim does not select a write task that was handed out before its last retry. -/
def SelectsNoRevived (h : List Event) (q : Tasks) (c : Call) : Prop :=
  ∀ worker now leaseFor scan task, c.op = .claim worker now leaseFor scan →
    bestTask c.runners now scan q = some task → task.kind ∈ writeKinds → (eras h task.id).earlier = []

/-! ## Names and attempts -/

theorem toString_inj {m n : Nat} (h : toString m = toString n) : m = n := by
  rw [Nat.toString_eq_ofList_toDigits, Nat.toString_eq_ofList_toDigits, String.ofList_inj] at h
  have := congrArg (Nat.ofDigitChars 10 · 0) h
  simpa using this

theorem workdirFor_inj {root taskId d : String} {m n : Nat} (hm : workdirFor root taskId m = .ok d)
    (hn : workdirFor root taskId n = .ok d) : m = n := by
  unfold workdirFor at hm hn
  split at hm
  · cases hm
  · rename_i component hc
    rw [hc] at hn
    have heq := (Except.ok.inj hm).trans (Except.ok.inj hn).symm
    have hlen : ∀ k : Nat, component ≠ component ++ "-attempt" ++ toString k := by
      intro k hk
      have := congrArg (·.toList.length) hk
      simp only [String.toList_append, List.length_append] at this
      have hpos : "-attempt".toList.length = 8 := rfl
      omega
    rw [String.append_right_inj] at heq
    split at heq <;> split at heq
    · rw [String.append_right_inj] at heq; exact toString_inj heq
    · exact absurd heq.symm (hlen m)
    · exact absurd heq (hlen n)
    · omega

theorem branch_eq_some {t : ClaimedTask} (hk : t.kind ∈ writeKinds) :
    (loadTask t).branch = some (agentBranchPrefix ++ (if t.kind = .checks then "checks" else "fix") ++ "-" ++
      toString t.id ++ "-a" ++ toString (t.attempts + 1)) := by
  unfold loadTask
  dsimp only
  rw [if_pos hk]

/-- Executions of one write task are separate exactly if they count different attempts. -/
theorem separate_iff {root : String} {t u : ClaimedTask} (hid : t.id = u.id) (hkind : t.kind = u.kind)
    (hk : t.kind ∈ writeKinds) : Separate root t u ↔ t.attempts ≠ u.attempts := by
  constructor
  · rintro ⟨hb, -⟩ heq
    rw [branch_eq_some hk, branch_eq_some (hkind ▸ hk), hid, hkind, heq] at hb
    exact hb rfl
  · intro hne
    refine ⟨fun heq => hne ?_, fun d hd hd' => hne ?_⟩
    · rw [branch_eq_some hk, branch_eq_some (hkind ▸ hk), hid, hkind, Option.some.injEq,
        String.append_right_inj] at heq
      have := toString_inj heq
      omega
    · rw [TaskRequest.workdir, loadTask, hid] at hd
      exact workdirFor_inj hd hd'

/-! ## Claims and eras -/

/-- A claim hands out the task it selects, as it read it. -/
theorem claimedBy_elim {q : Tasks} {c : Call} {t : ClaimedTask} (h : claimedBy (c, (step q c).1) = some t) :
    ∃ w now leaseFor scan task, c.op = .claim w now leaseFor scan ∧ bestTask c.runners now scan q = some task ∧
      t.id = task.id ∧ t.kind = task.kind ∧ t.attempts = task.attempts ∧
      ∀ k, effect (c, (step q c).1) k = if task.id = k then some (.issued t.lease) else none := by
  obtain ⟨runners, op⟩ := c
  cases op with
  | claim w now leaseFor scan =>
    cases hb : bestTask runners now scan q with
    | none => simp [claimedBy, step, claim, hb] at h
    | some task =>
      simp only [claimedBy, step, claim, hb, Prod.map_fst, Option.some.injEq] at h
      subst h
      exact ⟨w, now, leaseFor, scan, task, rfl, hb, rfl, rfl, rfl, fun k => by simp [effect, step, claim, hb]⟩
  | enqueue | markRunning | heartbeat | succeed | fail | reclaimExpired | retry | cancel => cases h

/-- A claim that selects a task hands it out. -/
theorem claimedBy_of_best {q : Tasks} {c : Call} {w : String} {now leaseFor : Time} {scan : Nat} {task : AgentTask}
    (hop : c.op = .claim w now leaseFor scan) (hb : bestTask c.runners now scan q = some task) :
    ∃ t, claimedBy (c, (step q c).1) = some t := by
  simp [claimedBy, step, hop, claim, hb]

theorem not_issued_of_claimedBy {q : Tasks} {c : Call} (h : claimedBy (c, (step q c).1) = none) (k : Nat)
    (l : Lease) : effect (c, (step q c).1) k ≠ some (.issued l) := by
  intro he
  obtain ⟨w, now, leaseFor, scan, task, hop, hb, -, -⟩ := issued_elim he
  obtain ⟨t, ht⟩ := claimedBy_of_best hop hb
  rw [ht] at h; cases h

/-- The claims of a task, era by era. -/
theorem claims_eras (h : List Event) (k : Nat) :
    (claims h).filter (·.id = k) = (eras h k).current ++ (eras h k).earlier := by
  induction h with
  | nil => rfl
  | cons e h ih =>
    have hcons : claims (e :: h) = (claimedBy e).toList ++ claims h := by
      rw [claims, List.filterMap_cons]
      cases claimedBy e <;> rfl
    rw [hcons, List.filter_append, ih, eras, erasAfter]
    cases claimedBy e with
    | some t => by_cases hk : t.id = k <;> simp [hk]
    | none =>
      dsimp only
      split <;> simp

/-- The claims since the last retry count the attempts from zero, those before began with zero, and all
are of the kind of the row, which counts its deliveries. -/
structure EraInv (h : List Event) (q : Tasks) (k : Nat) : Prop where
  current : (eras h k).current.map (·.attempts) = (List.range (handedOut h k)).reverse
  earlier : (eras h k).earlier ≠ [] → ∃ t ∈ (eras h k).earlier, t.attempts = 0
  kinds : ∀ t ∈ (eras h k).current ++ (eras h k).earlier, ∃ r, q.get? k = some r ∧ t.kind = r.kind
  counted : ∀ r, q.get? k = some r → 0 < r.maxAttempts ∧ Counted (handedOut h k) r

/-- The first claim of an era counts no attempts. -/
theorem EraInv.first {h : List Event} {q : Tasks} {k : Nat} (hi : EraInv h q k) (hpos : 0 < handedOut h k) :
    ∃ t ∈ (eras h k).current, t.attempts = 0 := by
  have hmem : 0 ∈ (eras h k).current.map (·.attempts) := by
    rw [hi.current, List.mem_reverse, List.mem_range]; exact hpos
  exact List.mem_map.1 hmem

theorem EraInv.current_nil {h : List Event} {q : Tasks} {k : Nat} (hi : EraInv h q k) (h0 : handedOut h k = 0) :
    (eras h k).current = [] := by
  have := hi.current
  rw [h0] at this
  exact List.map_eq_nil_iff.1 this

/-- A task that is not in the table was not handed out. -/
theorem EraInv.unclaimed {h : List Event} {q : Tasks} {k : Nat} (hi : EraInv h q k) (hq : q.get? k = none) :
    handedOut h k = 0 := by
  by_contra hne
  obtain ⟨t, ht, -⟩ := hi.first (Nat.pos_of_ne_zero hne)
  obtain ⟨r, hr, -⟩ := hi.kinds t (List.mem_append_left _ ht)
  rw [hq] at hr; cases hr

theorem EraInv.kind {h : List Event} {q : Tasks} {k : Nat} (hi : EraInv h q k) {t : ClaimedTask} {r : AgentTask}
    (ht : t ∈ claims h) (hid : t.id = k) (hr : q.get? k = some r) : t.kind = r.kind := by
  have hmem : t ∈ (claims h).filter (·.id = k) := List.mem_filter.2 ⟨ht, by simpa using hid⟩
  rw [claims_eras] at hmem
  obtain ⟨r', hr', hkind⟩ := hi.kinds t hmem
  rw [hr] at hr'; cases hr'; exact hkind

/-- A queued task counts as attempts how often it was handed out in its era. -/
theorem EraInv.attempts {h : List Event} {q : Tasks} {task : AgentTask} (hi : EraInv h q task.id)
    (hr : q.get? task.id = some task) (hs : task.status = .queued) : task.attempts = handedOut h task.id := by
  have hc := (hi.counted task hr).2
  unfold Counted at hc
  rw [hs] at hc
  exact hc.1.symm

theorem kinds_step {q q' : Tasks} {e : Option Effect} {k : Nat} {ts : List ClaimedTask}
    (hm : Moved e (q.get? k) (q'.get? k)) (h : ∀ t ∈ ts, ∃ r, q.get? k = some r ∧ t.kind = r.kind) :
    ∀ t ∈ ts, ∃ r, q'.get? k = some r ∧ t.kind = r.kind := by
  intro t ht
  obtain ⟨r, hr, hkind⟩ := h t ht
  rw [hr] at hm
  generalize q'.get? k = o at hm ⊢
  cases hm with
  | touched hto => exact ⟨_, rfl, hkind.trans hto.sameTask.kind.symm⟩

theorem eraInv_step (h : List Event) (q : Tasks) (c : Call) (hi : ∀ k, EraInv h q k) (k : Nat) :
    EraInv ((c, (step q c).1) :: h) (step q c).2 k := by
  have hm := step_moved q c k
  have hk := hi k
  have hcounted : ∀ r, (step q c).2.get? k = some r →
      0 < r.maxAttempts ∧ Counted (handedOut ((c, (step q c).1) :: h) k) r := by
    intro r hr
    rw [hr] at hm
    rw [handedOut]
    generalize effect (c, (step q c).1) k = e at hm ⊢
    generalize ho : q.get? k = o at hm
    cases hm with
    | created hf =>
      refine ⟨hf.maxAttempts, ?_⟩
      unfold Counted; rw [hf.status]; exact ⟨hf.attempts.symm, hf.attempts ▸ hf.maxAttempts⟩
    | @touched _ r₀ _ htr =>
      obtain ⟨hpos, hc⟩ := hk.counted r₀ ho
      exact ⟨htr.sameTask.maxAttempts ▸ hpos, htr.counted hc hpos⟩
  have hkinds := kinds_step hm hk.kinds
  have hhanded : handedOut ((c, (step q c).1) :: h) k = handedAfter (effect (c, (step q c).1) k) (handedOut h k) := rfl
  cases hcl : claimedBy (c, (step q c).1) with
  | some t =>
    obtain ⟨w, now, leaseFor, scan, task, hop, hb, hid, hkind, hatt, heff⟩ := claimedBy_elim hcl
    obtain ⟨hmem, hcl'⟩ := bestTask_mem hb
    have hq := (claimable_iff.1 hcl').1
    by_cases htk : task.id = k
    · subst htk
      have heras : eras ((c, (step q c).1) :: h) task.id =
          ⟨t :: (eras h task.id).current, (eras h task.id).earlier⟩ := by
        rw [eras, erasAfter, hcl]; exact if_pos hid
      refine ⟨?_, ?_, ?_, hcounted⟩ <;> rw [heras]
      · have hn := hk.attempts (get?_of_row hmem) hq
        rw [hhanded, heff, if_pos rfl, handedAfter, List.map_cons, hk.current, hatt, hn, List.range_succ,
          List.reverse_append]
        rfl
      · exact hk.earlier
      · intro u hu
        rcases List.mem_cons.1 hu with rfl | hu
        · have hone : ∀ v ∈ [u], ∃ r, (step q c).2.get? task.id = some r ∧ v.kind = r.kind :=
            kinds_step hm fun v hv => by
              rw [List.mem_singleton] at hv; subst hv; exact ⟨task, get?_of_row hmem, hkind⟩
          exact hone u (List.mem_singleton_self u)
        · exact hkinds u hu
    · have heras : eras ((c, (step q c).1) :: h) k = eras h k := by
        rw [eras, erasAfter, hcl]; exact if_neg (hid ▸ htk)
      refine ⟨?_, ?_, ?_, hcounted⟩ <;> rw [heras]
      · rw [hhanded, heff, if_neg htk]; exact hk.current
      · exact hk.earlier
      · exact hkinds
  | none =>
    by_cases hre : effect (c, (step q c).1) k = some .retried
    · have heras : eras ((c, (step q c).1) :: h) k = ⟨[], (eras h k).current ++ (eras h k).earlier⟩ := by
        rw [eras, erasAfter, hcl]; exact if_pos hre
      refine ⟨?_, ?_, ?_, hcounted⟩ <;> rw [heras]
      · rw [hhanded, hre]; rfl
      · intro hne
        by_cases hpos : 0 < handedOut h k
        · obtain ⟨t, ht, h0⟩ := hk.first hpos
          exact ⟨t, List.mem_append_left _ ht, h0⟩
        · have hnil : (eras h k).current = [] := hk.current_nil (Nat.eq_zero_of_not_pos hpos)
          dsimp only at hne ⊢
          rw [hnil, List.nil_append] at hne ⊢
          exact hk.earlier hne
      · exact hkinds
    · have heras : eras ((c, (step q c).1) :: h) k = eras h k := by
        rw [eras, erasAfter, hcl]; exact if_neg hre
      refine ⟨?_, ?_, ?_, hcounted⟩ <;> rw [heras]
      · rw [hhanded, hk.current]
        cases he : effect (c, (step q c).1) k with
        | none => rfl
        | some eff =>
          cases eff with
          | issued l => exact absurd he (not_issued_of_claimedBy hcl k l)
          | retried => exact absurd he hre
          | ended | cancelled => rfl
          | created =>
            -- a task just enqueued was never handed out
            rw [he] at hm
            have hnone : q.get? k = none := by
              generalize q.get? k = o at hm ⊢
              generalize (step q c).2.get? k = o' at hm
              cases hm with
              | created => rfl
              | touched ht => cases ht
            rw [hk.unclaimed hnone]; rfl
      · exact hk.earlier
      · exact hkinds

theorem eraInv (cs : List Call) (k : Nat) : EraInv (agentQueue.log cs) (agentQueue.state cs) k := by
  refine Machine.invariant (M := agentQueue) (P := fun h q => ∀ k, EraInv h q k) (fun k => ?_) eraInv_step cs k
  exact ⟨rfl, fun h => absurd rfl h, fun t ht => (by cases ht), fun r hr => (by cases hr)⟩

/-! ## When two claims collide -/

/-- From a history of separate executions, a call leads to another exactly when it selects no revived
write task. -/
theorem isolated_step {root : String} {h : List Event} {q : Tasks} {c : Call} (hi : ∀ k, EraInv h q k)
    (hiso : Isolated root h) :
    Isolated root ((c, (step q c).1) :: h) ↔ SelectsNoRevived h q c := by
  cases hcl : claimedBy (c, (step q c).1) with
  | none =>
    have hclaims : claims ((c, (step q c).1) :: h) = claims h := by rw [claims, List.filterMap_cons, hcl]; rfl
    refine iff_of_true (by rw [Isolated, hclaims]; exact hiso) ?_
    intro w now leaseFor scan task hop hb
    obtain ⟨t, ht⟩ := claimedBy_of_best hop hb
    rw [hcl] at ht; cases ht
  | some t =>
    have hclaims : claims ((c, (step q c).1) :: h) = t :: claims h := by rw [claims, List.filterMap_cons, hcl]; rfl
    obtain ⟨w, now, leaseFor, scan, task, hop, hb, hid, hkind, hatt, -⟩ := claimedBy_elim hcl
    obtain ⟨hmem, hcl'⟩ := bestTask_mem hb
    have hrow := get?_of_row hmem
    have hk := hi task.id
    have hn := hk.attempts hrow (claimable_iff.1 hcl').1
    have hall : Isolated root ((c, (step q c).1) :: h) ↔
        ∀ u ∈ claims h, u.id = task.id → task.kind ∈ writeKinds → u.attempts ≠ task.attempts := by
      unfold Isolated at hiso ⊢
      rw [hclaims, List.pairwise_cons, and_iff_left hiso]
      refine forall₂_congr fun u hu => ?_
      rw [hid, hkind, eq_comm]
      refine imp_congr_right fun hu' => imp_congr_right fun hw => ?_
      rw [separate_iff (hid.trans hu'.symm) (hkind.trans (hk.kind hu hu' hrow).symm) (hkind ▸ hw), hatt]
      exact ne_comm
    rw [hall]
    constructor
    · intro hsep w' now' leaseFor' scan' task' hop' hb' hw
      rw [hop] at hop'; cases hop'
      rw [hb] at hb'; cases hb'
      by_contra hne
      obtain ⟨u, hu, hu0⟩ := hk.earlier hne
      have hin : ∀ v ∈ (eras h task.id).current ++ (eras h task.id).earlier, v ∈ claims h ∧ v.id = task.id := by
        intro v hv
        rw [← claims_eras] at hv
        exact ⟨(List.mem_filter.1 hv).1, by simpa using (List.mem_filter.1 hv).2⟩
      by_cases hpos : 0 < handedOut h task.id
      · -- the era began with a claim that counted no attempts, as the earlier one did
        obtain ⟨v, hv, hv0⟩ := hk.first hpos
        have hpair : ((claims h).filter (·.id = task.id)).Pairwise fun t u =>
            t.id = u.id → t.kind ∈ writeKinds → Separate root t u := hiso.sublist List.filter_sublist
        rw [claims_eras] at hpair
        obtain ⟨hvc, hvid⟩ := hin v (List.mem_append_left _ hv)
        obtain ⟨huc, huid⟩ := hin u (List.mem_append_right _ hu)
        have hvkind := hk.kind hvc hvid hrow
        have hs := (List.pairwise_append.1 hpair).2.2 v hv u hu (hvid.trans huid.symm) (hvkind ▸ hw)
        have := (separate_iff (hvid.trans huid.symm) (hvkind.trans (hk.kind huc huid hrow).symm) (hvkind ▸ hw)).1 hs
        exact this (hv0.trans hu0.symm)
      · obtain ⟨huc, huid⟩ := hin u (List.mem_append_right _ hu)
        exact hsep u huc huid hw (by rw [hu0, hn]; omega)
    · intro hno u hu huid hw
      have hu' : u ∈ (claims h).filter (·.id = task.id) := List.mem_filter.2 ⟨hu, by simpa using huid⟩
      rw [claims_eras, hno w now leaseFor scan task hop hb hw, List.append_nil] at hu'
      have hlt : u.attempts ∈ (eras h task.id).current.map (·.attempts) := List.mem_map_of_mem hu'
      rw [hk.current, List.mem_reverse, List.mem_range] at hlt
      omega

/-! ## Every run -/

/-- Every execution of a write task is isolated: throughout a run of any calls no two claims of a write
task share a branch or a work directory, if and only if no claim of the run selects a write task that was
handed out before its last retry. -/
theorem isolated_iff_selectsNoRevived (root : String) (cs : List Call) :
    agentQueue.AllStates (fun h _ => Isolated root h) cs ↔ agentQueue.AllSteps SelectsNoRevived cs :=
  Machine.allStates_iff_allSteps List.Pairwise.nil
    (fun cs _ hiso => isolated_step (fun k => eraInv cs k) hiso) cs

/-- A fix task is claimed, cancelled, retried and claimed again (read from the last call to the first). -/
def retriedFix : List Call :=
  [ ⟨noRunners, .claim "b" 3 60 0⟩, ⟨noRunners, .retry 1 "manual retry" 2⟩, ⟨noRunners, .cancel 1 "cancelled" 1⟩,
    ⟨noRunners, .claim "a" 0 60 0⟩, ⟨noRunners, .enqueue { repoId := 1, kind := "fix", now := 0, createdAt := 0 }⟩ ]

/-- Both claims of `retriedFix` work on the branch `agent/fix-1-a1`. -/
theorem retriedFix_not_isolated : ¬ agentQueue.AllStates (fun h _ => Isolated "/work" h) retriedFix := by
  intro h
  obtain ⟨hb, -⟩ := (List.pairwise_cons.1 h.now).1 _ (List.mem_singleton_self _) rfl (by decide)
  exact hb (by decide)

end OpenFish.Queue
