/-
The event log is a faithful history: in every state the events of a finding, by id, lead from nothing
to `open` and on, one transition after the other, to the status the finding has.
-/
import OpenFish.Findings.History

namespace OpenFish.Findings

open Lib

/-- The events of a finding, by id ascending, are the trail of its status. -/
structure FaithfulHistory (st : Store) (f : Finding) : Prop where
  ordered : ((st.eventsFor f.id).map (·.id)).Pairwise (· < ·)
  trail : Trail FindingEvent.fromStatus FindingEvent.toStatus .open (st.eventsFor f.id) f.status

/-- The event log is a faithful history of every finding. -/
def FaithfulLog (st : Store) : Prop := ∀ f ∈ st.findings.rows, FaithfulHistory st f

/-- Every finding has its trail, and no event is about a finding yet to be opened. -/
structure Recorded (st : Store) : Prop where
  trail : ∀ f ∈ st.findings.rows,
    Trail FindingEvent.fromStatus FindingEvent.toStatus .open (st.eventsFor f.id) f.status
  known : ∀ e ∈ st.events.rows, e.findingId < st.findings.next

/-! ## The events of one finding -/

theorem eventsFor_recordEvent (st : Store) (t : Transition) (k : Nat) :
    (st.recordEvent t).eventsFor k =
      st.eventsFor k ++ if t.findingId = k then [t.event st.events.next] else [] := by
  have hsingle : [t.event st.events.next].filter (fun e => e.findingId == k) =
      if t.findingId = k then [t.event st.events.next] else [] := by
    simp [List.filter_singleton, Transition.event]
  rw [← hsingle]
  exact List.filter_append ..

theorem eventsFor_ordered (st : Store) (k : Nat) : ((st.eventsFor k).map (·.id)).Pairwise (· < ·) :=
  st.events.sorted.sublist (List.filter_sublist.map _)

theorem eventsFor_next {st : Store} (h : Recorded st) : st.eventsFor st.findings.next = [] := by
  refine List.filter_eq_nil_iff.2 fun e he => ?_
  have := h.known e he
  simp only [beq_iff_eq]
  omega

theorem mem_recordEvent {st : Store} {t : Transition} {e : FindingEvent} :
    e ∈ (st.recordEvent t).events.rows ↔ e ∈ st.events.rows ∨ e = t.event st.events.next :=
  show e ∈ (st.events.insert t.event fun _ => rfl).rows ↔ _ from Table.mem_insert

/-! ## Every change -/

theorem mem_addFinding {st : Store} {mk : Nat → Finding} (hmk : ∀ k, key (mk k) = k) {r : Finding} :
    r ∈ (st.addFinding mk hmk).findings.rows ↔ r ∈ st.findings.rows ∨ r = mk st.findings.next :=
  show r ∈ (st.findings.insert mk hmk).rows ↔ _ from Table.mem_insert

theorem mem_assign {st : Store} {id : Nat} {f : Finding → Finding} {hf : ∀ r, key (f r) = key r} {r' : Finding} :
    r' ∈ (st.assign id f hf).findings.rows ↔
      ∃ r ∈ st.findings.rows, (if r.id == id then f r else r) = r' :=
  Table.mem_update hf

/-- Every change keeps the record. -/
theorem Recorded.change {st st' : Store} (h : Recorded st) (hc : Change st st') : Recorded st' := by
  cases hc with
  | noted id f hf hn =>
    refine ⟨fun r' hr' => ?_, h.known⟩
    obtain ⟨r, hr, rfl⟩ := mem_assign.1 hr'
    show Trail _ _ _ (st.eventsFor _) _
    split
    · rw [(hn r).id, (hn r).status]; exact h.trail r hr
    · exact h.trail r hr
  | opened mk hmk t hopen hid hfrom hto =>
    refine ⟨fun r hr => ?_, fun e he => ?_⟩
    · rw [eventsFor_recordEvent]
      rcases Table.mem_insert.1 (show r ∈ (st.findings.insert mk hmk).rows from hr) with hr | rfl
      · -- an older finding
        have : t.findingId ≠ r.id := by
          rw [hid]; exact (Nat.ne_of_lt (st.findings.below r hr)).symm
        rw [if_neg this, List.append_nil]
        exact h.trail r hr
      · -- the new finding, which no event is about yet
        have hkey : (mk st.findings.next).id = st.findings.next := hmk _
        have hnew : (st.addFinding mk hmk).eventsFor (mk st.findings.next).id = [] := by
          rw [hkey]; exact eventsFor_next h
        rw [hnew, if_pos (hid.trans hkey.symm), hopen]
        exact Trail.start hfrom hto
    · rcases mem_recordEvent.1 he with he | rfl
      · exact Nat.lt_succ_of_lt (h.known e he)
      · show t.findingId < st.findings.next + 1
        omega
  | moved r f hf t hr hm hid hfrom hto =>
    have hmem := (finding?_mem hr).1
    refine ⟨fun r' hr' => ?_, fun e he => ?_⟩
    · obtain ⟨s, hs, rfl⟩ := mem_assign.1 (show r' ∈ (st.assign r.id f hf).findings.rows from hr')
      rw [eventsFor_recordEvent]
      show Trail _ _ _ (st.eventsFor _ ++ _) _
      by_cases hsr : s.id = r.id
      · have : s = r := Table.eq_of_key hs hmem hsr
        subst this
        rw [if_pos (beq_self_eq_true _), hm.id, if_pos hid, ← hto]
        exact (h.trail s hs).append hfrom
      · rw [if_neg (by simpa using hsr), if_neg (by rw [hid]; exact Ne.symm hsr), List.append_nil]
        exact h.trail s hs
    · rcases mem_recordEvent.1 he with he | rfl
      · exact h.known e he
      · show t.findingId < st.findings.next
        rw [hid]; exact st.findings.below r hmem
  | aside => exact ⟨h.trail, h.known⟩

/-! ## Every run -/

theorem recorded_reachable (sha256 : String → String) (runs : Table ReviewRun) (repos : List Repo) (cs : List Call) :
    Recorded ((findings sha256 runs repos).state cs) :=
  evolves_invariant ⟨fun _ hf => (by cases hf), fun _ he => (by cases he)⟩ (fun _ _ h hc => h.change hc) cs

/-- The event log is a faithful history: after any calls of `ingest`, `decide` and
`rule_quality_watch`, whatever they raised and whether they were committed or rolled back, the events
of every finding by id are the trail of its status. -/
theorem history_faithful (sha256 : String → String) (runs : Table ReviewRun) (repos : List Repo) (cs : List Call) :
    FaithfulLog ((findings sha256 runs repos).state cs) := by
  have h := recorded_reachable sha256 runs repos cs
  exact fun f hf => ⟨eventsFor_ordered _ _, h.trail f hf⟩

end OpenFish.Findings
