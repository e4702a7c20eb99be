/-
What a document shows of the secrets of its run. A payload is masked before it is read; reading adds only the defaults of the
document, and after it only the assurance is written into it, and the suites that run again after the commit.
-/
import OpenFish.Agent.Laws

namespace OpenFish.Agent

open Lib

open Gates (Assurance GateStatus GateSummary)

variable {u : String} {α β : Type}

/-- No text of a value shows a secret. -/
def Veiled (u : String) (v : Json) : Prop := ∀ s ∈ texts v, Hidden u s

def VeiledMembers (u : String) (ms : List (String × Json)) : Prop := ∀ s ∈ textsOfMembers ms, Hidden u s

theorem mem_textsOfItems {s : String} : ∀ {vs : List Json}, s ∈ textsOfItems vs ↔ ∃ v ∈ vs, s ∈ texts v
  | [] => by simp [textsOfItems]
  | v :: vs => by simp [textsOfItems, @mem_textsOfItems s vs]

theorem VeiledMembers.lookup {key : String} {v : Json} : ∀ {ms : List (String × Json)}, VeiledMembers u ms →
    ms.lookup key = some v → Veiled u v
  | [], _, h => by cases h
  | (k, v') :: ms, hms, h => by
    rw [VeiledMembers, textsOfMembers] at hms
    rw [List.lookup_cons] at h
    split at h
    · cases h
      exact fun s hs => hms s (List.mem_append_left _ hs)
    · exact VeiledMembers.lookup (fun s hs => hms s (List.mem_append_right _ hs)) h

/-! ## What a reader gives -/

/-- What is read, if it is valid, meets `P`. -/
def Checked.Gives (P : α → Prop) (c : Checked α) : Prop := ∀ a, c.run = .ok a → P a

theorem gives_problem {P : α → Prop} (loc : List String) (issue : Issue) : (Checked.problem loc issue : Checked α).Gives P :=
  fun _ h => by cases h

theorem gives_pure {P : α → Prop} {a : α} (h : P a) : (pure a : Checked α).Gives P := fun _ hb => Except.ok.inj hb ▸ h

theorem gives_seq {g : Checked (α → β)} {x : Checked α} {Q : α → Prop} {P : β → Prop}
    (hg : g.Gives fun f => ∀ a, Q a → P (f a)) (hx : x.Gives Q) : (g <*> x).Gives P := by
  intro b hb
  cases hf : g.run with
  | ok f =>
    cases ha : x.run with
    | ok a =>
      simp only [Seq.seq, hf, ha, Except.ok.injEq] at hb
      exact hb ▸ hg f hf a (hx a ha)
    | error problems => simp only [Seq.seq, hf, ha, reduceCtorEq] at hb
  | error problems => cases ha : x.run <;> simp only [Seq.seq, hf, ha, reduceCtorEq] at hb

theorem gives_map {f : α → β} {x : Checked α} {Q : α → Prop} {P : β → Prop} (hf : ∀ a, Q a → P (f a)) (hx : x.Gives Q) :
    (f <$> x).Gives P := gives_seq (gives_pure hf) hx

theorem gives_field {read : Reader α} {P : α → Prop} (hread : ∀ loc v, Veiled u v → (read loc v).Gives P)
    {ms : List (String × Json)} (hms : VeiledMembers u ms) {fallback : Option α} (hfallback : ∀ a, fallback = some a → P a)
    (key : String) (loc : List String) : (field read fallback key loc ms).Gives P := by
  unfold field
  split
  · rename_i hlookup
    exact hread _ _ (hms.lookup hlookup)
  · exact gives_pure (hfallback _ rfl)
  · exact gives_problem _ _

theorem gives_readStr (loc : List String) (v : Json) (hv : Veiled u v) : (readStr loc v).Gives (Hidden u) := by
  unfold readStr
  split
  · exact gives_pure (hv _ (by rw [texts]; exact List.mem_singleton_self _))
  · exact gives_problem _ _

theorem gives_true (c : Checked α) : c.Gives fun _ => True := fun _ _ => trivial

theorem gives_readOptional {read : Reader α} {P : α → Prop} (hread : ∀ loc v, Veiled u v → (read loc v).Gives P)
    (loc : List String) (v : Json) (hv : Veiled u v) : (readOptional read loc v).Gives fun o => ∀ a, o = some a → P a := by
  unfold readOptional
  split
  · exact gives_pure fun a h => by cases h
  · exact gives_map (fun a ha b hb => Option.some.inj hb ▸ ha) (hread loc _ hv)

theorem gives_readLiteral {values : List (String × α)} {text : α → String} (htext : ∀ e ∈ values, text e.2 = e.1)
    (loc : List String) (v : Json) (hv : Veiled u v) : (readLiteral values loc v).Gives fun a => Hidden u (text a) := by
  unfold readLiteral
  split
  · split
    · rename_i s _ a hlookup
      obtain ⟨before, after, heq, -⟩ := List.lookup_eq_some_iff.1 hlookup
      have hs : text a = s := htext (s, a) (by rw [heq]; simp)
      exact gives_pure (hs ▸ hv s (by rw [texts]; exact List.mem_singleton_self _))
    · exact gives_problem _ _
  · exact gives_problem _ _

theorem gives_readItems {read : Reader α} {P : α → Prop} (hread : ∀ loc v, Veiled u v → (read loc v).Gives P)
    (loc : List String) : ∀ (i : Nat) (vs : List Json), (∀ v ∈ vs, Veiled u v) →
      (readItems read loc i vs).Gives fun as => ∀ a ∈ as, P a
  | _, [], _ => gives_pure fun _ h => absurd h List.not_mem_nil
  | i, v :: vs, hvs => by
    obtain ⟨hv, hvs⟩ := List.forall_mem_cons.1 hvs
    exact gives_seq (gives_map (fun a ha as has => List.forall_mem_cons.2 ⟨ha, has⟩) (hread _ v hv))
      (gives_readItems hread loc (i + 1) vs hvs)

theorem gives_readList {read : Reader α} {P : α → Prop} (hread : ∀ loc v, Veiled u v → (read loc v).Gives P)
    (loc : List String) (v : Json) (hv : Veiled u v) : (readList read loc v).Gives fun as => ∀ a ∈ as, P a := by
  unfold readList
  split
  · refine gives_readItems hread loc 0 _ fun v hmem s hs => hv s ?_
    rw [texts]
    exact mem_textsOfItems.2 ⟨v, hmem, hs⟩
  · exact gives_problem _ _

theorem gives_readDict (loc : List String) (v : Json) (hv : Veiled u v) : (readDict loc v).Gives (VeiledMembers u) := by
  unfold readDict
  split
  · exact gives_pure fun s hs => hv s (by rw [texts]; exact hs)
  · exact gives_problem _ _

theorem gives_readModel {model : String} {fields : List String → List (String × Json) → Checked α} {P : α → Prop}
    (hfields : ∀ loc ms, VeiledMembers u ms → (fields loc ms).Gives P) (loc : List String) (v : Json) (hv : Veiled u v) :
    (readModel model fields loc v).Gives P := by
  unfold readModel
  split
  · exact hfields _ _ fun s hs => hv s (by rw [texts]; exact hs)
  · exact gives_problem _ _

/-! ## Values -/

@[simp] theorem veiled_str {s : String} : Veiled u (.str s) ↔ Hidden u s := by simp [Veiled, texts]

@[simp] theorem veiled_int {n : Int} : Veiled u (.int n) := by simp [Veiled, texts]

@[simp] theorem veiled_bool {b : Bool} : Veiled u (.bool b) := by simp [Veiled, texts]

@[simp] theorem veiled_null : Veiled u .null := by simp [Veiled, texts]

@[simp] theorem veiled_obj {ms : List (String × Json)} : Veiled u (.obj ms) ↔ VeiledMembers u ms := by
  simp [Veiled, VeiledMembers, texts]

@[simp] theorem veiledMembers_nil : VeiledMembers u [] := by simp [VeiledMembers, textsOfMembers]

@[simp] theorem veiledMembers_cons {key : String} {v : Json} {ms : List (String × Json)} :
    VeiledMembers u ((key, v) :: ms) ↔ Veiled u v ∧ VeiledMembers u ms := by
  simp only [VeiledMembers, Veiled, textsOfMembers, List.forall_mem_append]

@[simp] theorem veiled_orNull {dump : α → Json} {o : Option α} : Veiled u (orNull dump o) ↔ ∀ a, o = some a → Veiled u (dump a) := by
  cases o <;> simp [orNull]

@[simp] theorem veiled_map {dump : α → Json} {as : List α} : Veiled u (.arr (as.map dump)) ↔ ∀ a ∈ as, Veiled u (dump a) := by
  simp only [Veiled, texts, mem_textsOfItems, List.mem_map, exists_exists_and_eq_and]
  exact ⟨fun h a ha s hs => h s ⟨a, ha, hs⟩, fun h s ⟨a, ha, hs⟩ => h a ha s hs⟩

/-! ## What is read of a payload -/

/-- The words a document has of its own: the defaults that are texts, the states of a suite, and the levels and labels of an
assurance. -/
def documentWords : List String :=
  ["repo", "review", "issue", "mentions", "passed", "failed", "unverified", "L0", "L1", "L2", "L3", "ai-checks/L0",
    "ai-checks/L1", "ai-checks/L2", "ai-checks/L3"]

/-- A secret that is in none of these words. -/
structure Foreign (u : String) : Prop where
  nonempty : u ≠ ""
  words : ∀ word ∈ documentWords, Hidden u word

instance (u : String) : Decidable (Foreign u) :=
  decidable_of_iff (u ≠ "" ∧ ∀ word ∈ documentWords, Hidden u word) ⟨fun h => ⟨h.1, h.2⟩, fun h => ⟨h.1, h.2⟩⟩

theorem Foreign.empty (h : Foreign u) : Hidden u "" := fun hempty => toList_ne_nil h.nonempty (List.infix_nil.1 hempty)

section documents

variable (h : Foreign u) {ms : List (String × Json)} (hms : VeiledMembers u ms) (key : String) (loc : List String)

include hms in
theorem gives_text : (field readStr none key loc ms).Gives (Hidden u) :=
  gives_field gives_readStr hms (fun _ h => by cases h) key loc

include hms in
theorem gives_textOr {fallback : String} (h : Hidden u fallback) : (field readStr (some fallback) key loc ms).Gives (Hidden u) :=
  gives_field gives_readStr hms (fun _ ha => Option.some.inj ha ▸ h) key loc

include hms in
theorem gives_textOrNull :
    (field (readOptional readStr) (some none) key loc ms).Gives fun o => ∀ a, o = some a → Hidden u a :=
  gives_field (gives_readOptional gives_readStr) hms (fun _ ho _ ha => by cases ho; cases ha) key loc

include h

theorem gives_readRunMeta (loc : List String) (v : Json) (hv : Veiled u v) :
    (readRunMeta loc v).Gives fun m => Veiled u m.modelDump := by
  refine gives_readModel (fun loc ms hms => ?_) loc v hv
  have hrepo := h.words "repo" (by decide)
  have hreview := h.words "review" (by decide)
  iterate 8 refine gives_seq ?_ (gives_textOr hms _ loc h.empty)
  refine gives_seq (gives_seq ?_ (gives_textOr hms _ loc hrepo)) (gives_textOr hms _ loc hreview)
  iterate 3 refine gives_seq ?_ (gives_textOrNull hms _ loc)
  iterate 2 refine gives_seq ?_ (gives_text hms _ loc)
  refine gives_map ?_ (gives_text hms _ loc)
  intros
  simp only [RunMeta.modelDump, veiled_obj, veiledMembers_cons, veiledMembers_nil, veiled_str, veiled_orNull]
  simp_all

theorem gives_readEvidence (loc : List String) (v : Json) (hv : Veiled u v) :
    (readEvidence loc v).Gives fun e => Veiled u e.modelDump := by
  have hkind : ∀ e ∈ EvidenceKind.values, e.2.value = e.1 := by decide
  have hrelation : ∀ e ∈ Relation.values, e.2.value = e.1 := by decide
  refine gives_readModel (fun loc ms hms => ?_) loc v hv
  iterate 2 refine gives_seq ?_ (gives_textOrNull hms _ loc)
  refine gives_seq ?_ (gives_field (gives_readLiteral hrelation) hms (fun a ha => ?_) _ loc)
  · refine gives_seq ?_ (gives_true _)
    refine gives_map ?_ (gives_field (gives_readLiteral hkind) hms (fun a ha => ?_) _ loc)
    · intros
      simp only [Evidence.modelDump, veiled_obj, veiledMembers_cons, veiledMembers_nil, veiled_str, veiled_orNull]
      simp_all
    · exact Option.some.inj ha ▸ h.words "issue" (by decide)
  · exact Option.some.inj ha ▸ h.words "mentions" (by decide)

theorem gives_readFinding (loc : List String) (v : Json) (hv : Veiled u v) :
    (readFinding loc v).Gives fun f => Veiled u f.modelDump := by
  have hlevel : ∀ e ∈ Level.values, e.2.value = e.1 := by decide
  have hseverity : ∀ e ∈ Severity.values, e.2.value = e.1 := by decide
  have hevidence := gives_readList (gives_readEvidence h)
  refine gives_readModel (fun loc ms hms => ?_) loc v hv
  refine gives_seq ?_ (gives_true _)
  refine gives_seq ?_ (gives_field hevidence hms (fun _ h => ?_) _ loc)
  · refine gives_seq ?_ (gives_textOr hms _ loc h.empty)
    refine gives_seq (gives_seq ?_ (gives_textOr hms _ loc h.empty)) (gives_true _)
    iterate 3 refine gives_seq ?_ (gives_text hms _ loc)
    refine gives_seq ?_ (gives_field (gives_readLiteral hseverity) hms (fun _ h => by cases h) _ loc)
    refine gives_seq ?_ (gives_field (gives_readLiteral hlevel) hms (fun _ h => by cases h) _ loc)
    refine gives_map ?_ (gives_text hms _ loc)
    intros
    simp only [Finding.modelDump, veiled_obj, veiledMembers_cons, veiledMembers_nil, veiled_str, veiled_orNull, veiled_map]
    simp_all
  · exact fun _ ha => absurd ha (Option.some.inj h ▸ List.not_mem_nil)

theorem gives_readGateEntry (loc : List String) (v : Json) (hv : Veiled u v) :
    (readGateEntry loc v).Gives fun g => Veiled u g.modelDump := by
  refine gives_readModel (fun loc ms hms => ?_) loc v hv
  refine gives_seq (gives_seq ?_ (gives_textOr hms _ loc h.empty)) (gives_true _)
  refine gives_seq (gives_seq ?_ (gives_textOr hms _ loc (h.words "passed" (by decide)))) (gives_true _)
  refine gives_seq (gives_map ?_ (gives_text hms _ loc)) (gives_true _)
  intros
  simp only [GateEntry.modelDump, veiled_obj, veiledMembers_cons, veiledMembers_nil, veiled_str, veiled_orNull]
  simp_all

theorem gives_readResult (loc : List String) (v : Json) (hv : Veiled u v) :
    (readResult loc v).Gives fun r => Veiled u r.modelDump := by
  have hgates := gives_readList (gives_readGateEntry h)
  refine gives_readModel (fun loc ms hms => ?_) loc v hv
  refine gives_seq ?_ (gives_field (gives_readOptional gives_readDict) hms (fun _ h => ?_) _ loc)
  · refine gives_seq (gives_seq ?_ (gives_field hgates hms (fun _ h => by cases h) _ loc))
      (gives_field hgates hms (fun _ h => ?_) _ loc)
    · refine gives_seq ?_ (gives_field (gives_readList (gives_readFinding h)) hms (fun _ h => ?_) _ loc)
      · refine gives_map ?_ (gives_field (gives_readRunMeta h) hms (fun _ h => by cases h) _ loc)
        intros
        simp only [Result.modelDump, veiled_obj, veiledMembers_cons, veiledMembers_nil, veiled_orNull, veiled_map]
        simp_all
      · exact fun _ ha => absurd ha (Option.some.inj h ▸ List.not_mem_nil)
    · exact fun _ ha => absurd ha (Option.some.inj h ▸ List.not_mem_nil)
  · exact fun _ ha => by cases h; cases ha

/-- What is read of a payload that shows no secret shows none. -/
theorem veiled_of_validateResult {describe : Issue → String} {payload : Json} {document : Result} (hpayload : Veiled u payload)
    (hvalid : validateResult describe payload = .ok document) : Veiled u document.modelDump := by
  unfold validateResult at hvalid
  split at hvalid
  · split at hvalid
    · rename_i hread
      exact Except.ok.inj hvalid ▸ gives_readResult h [] _ hpayload _ hread
    · cases hvalid
  · cases hvalid

end documents

/-! ## The document that is emitted -/

/-- The texts of the gates of a summary, as they are in a document. -/
def gateTexts (summary : GateSummary) : List String := texts (.arr ((gateEntries summary).map GateEntry.modelDump))

section emitted

variable {R : AgentRunner} {task : TaskRequest} {w branch : String} {p : Prepared} {document : Result} {past : History}

theorem veiled_result {r : Result} : Veiled u r.modelDump ↔ Veiled u r.run.modelDump ∧ (∀ f ∈ r.findings, Veiled u f.modelDump) ∧
    (∀ g ∈ r.gates, Veiled u g.modelDump) ∧ (∀ g ∈ r.aiGates, Veiled u g.modelDump) ∧
    ∀ ms, r.curator = some ms → VeiledMembers u ms := by
  simp only [Result.modelDump, veiled_obj, veiledMembers_cons, veiledMembers_nil, veiled_orNull, veiled_map, and_true]

theorem Foreign.level (h : Foreign u) (assurance : Assurance) : Hidden u assurance.level.value := by
  refine h.words _ ?_
  cases assurance.level <;> decide

theorem Foreign.state (h : Foreign u) (state : GateStatus) : Hidden u state.value := by
  refine h.words _ ?_
  cases state <;> decide

theorem Foreign.label (h : Foreign u) (summary aiSummary : GateSummary) : Hidden u (assess summary aiSummary).label := by
  have hlabel : ∀ level : Gates.AssuranceLevel, Gates.labelFor level ∈ documentWords := by
    intro level
    cases level <;> decide
  refine h.words _ ?_
  unfold assess Gates.assessAssurance
  dsimp only
  split
  · exact hlabel _
  · split <;> exact hlabel _

theorem Veiled.assured (h : Foreign u) (hdocument : Veiled u document.modelDump) (summary aiSummary : GateSummary) :
    Veiled u (document.assured (assess summary aiSummary)).modelDump := by
  have hlevel := h.level (assess summary aiSummary)
  have hlabel := h.label summary aiSummary
  rw [veiled_result] at hdocument ⊢
  refine ⟨?_, hdocument.2⟩
  have hrun := hdocument.1
  simp only [RunMeta.modelDump, veiled_obj, veiledMembers_cons, veiledMembers_nil, veiled_str, veiled_orNull] at hrun
  simp only [Result.assured, RunMeta.modelDump, veiled_obj, veiledMembers_cons, veiledMembers_nil, veiled_str, veiled_orNull]
  simp_all

/-- After the suites ran again only the texts of their gates are not masked. -/
theorem Veiled.rejudged (h : Foreign u) (hdocument : Veiled u document.modelDump) (fresh freshAi : GateSummary) :
    ∀ s ∈ texts (document.rejudged fresh freshAi (assess fresh freshAi)).modelDump,
      Hidden u s ∨ s ∈ gateTexts fresh ∨ s ∈ gateTexts freshAi := by
  obtain ⟨hrun, hfindings, -, -, hcurator⟩ := veiled_result.1 hdocument
  have hstates : Veiled u
      { document.run with suiteState := fresh.state.value, aiSuiteState := freshAi.state.value : RunMeta }.modelDump := by
    have hfresh := h.state fresh.state
    have hfreshAi := h.state freshAi.state
    simp only [RunMeta.modelDump, veiled_obj, veiledMembers_cons, veiledMembers_nil, veiled_str, veiled_orNull] at hrun ⊢
    simp_all
  have hbare : Veiled u { document with
      run := { document.run with suiteState := fresh.state.value, aiSuiteState := freshAi.state.value }, gates := [],
      aiGates := [] : Result }.modelDump :=
    veiled_result.2 ⟨hstates, hfindings, fun _ hg => absurd hg List.not_mem_nil, fun _ hg => absurd hg List.not_mem_nil, hcurator⟩
  obtain ⟨hrun', -⟩ := veiled_result.1 (Veiled.assured h hbare fresh freshAi)
  intro s hs
  simp only [Result.rejudged, Result.assured, Result.modelDump, texts, textsOfMembers, List.mem_append, List.not_mem_nil,
    or_false] at hs
  rcases hs with hs | hs | hs | hs | hs
  · exact .inl (hrun' s hs)
  · exact .inl (veiled_map.2 hfindings s (by rw [texts]; exact hs))
  · exact .inr (.inl (by rw [gateTexts, texts]; exact hs))
  · exact .inr (.inr (by rw [gateTexts, texts]; exact hs))
  · exact .inl (veiled_orNull.2 (fun ms hms => veiled_obj.2 (hcurator ms hms)) s hs)

theorem Gathered.veiled (h : Gathered R task w p past) (hsecrets : Hideable R.secrets) (hu : u ∈ R.secrets) (hne : u ≠ "") :
    Veiled u p.payload := by
  obtain ⟨raw, heq⟩ := h.scrubbed
  rw [heq]
  exact fun s hs => hsecrets.scrubbed hu hne hs

variable (hsecrets : Hideable R.secrets) (hu : u ∈ R.secrets) (hforeign : Foreign u)

include hsecrets hu hforeign

theorem Reached.drafted_veiled (h : Reached R task w p branch .drafted document past) : Veiled u document.modelDump := by
  cases h with | drafted gathered valid =>
  exact Veiled.assured hforeign
    (veiled_of_validateResult hforeign (gathered.veiled hsecrets hu hforeign.nonempty) valid) p.summary p.aiSummary

theorem Reached.committed_veiled (h : Reached R task w p branch .committed document past) : Veiled u document.modelDump := by
  cases h with | committed h =>
  cases h with | cleared h =>
  exact h.drafted_veiled hsecrets hu hforeign

/-- The suites ran again since the commit, and of the texts of a document only those of their gates may show a secret. -/
def ShownByGates (R : AgentRunner) (w u : String) (past : History) (payload : Json) : Prop :=
  ∃ suite aiSuite fresh freshAi branch commitSha message made before,
    past = aiEvents R w aiSuite freshAi ++ ⟨.runGates w R.gateTimeout suite, .ok fresh⟩ ::
      ⟨.commit w branch commitSha message, .ok made⟩ :: before ∧ (R.runsAiGates = false → freshAi = noAiGates) ∧
    ∀ s ∈ texts payload, Hidden u s ∨ s ∈ gateTexts fresh ∨ s ∈ gateTexts freshAi

theorem Reached.final_veiled {publishing : Bool} (h : Reached R task w p branch (.final publishing) document past) :
    Veiled u document.modelDump ∨ ShownByGates R w u past document.modelDump := by
  cases h with
  | @rejudged document fresh freshAi past h policy unrun =>
    have hveiled := Veiled.rejudged hforeign (h.committed_veiled hsecrets hu hforeign) fresh freshAi
    cases h with | committed h =>
    exact .inr ⟨_, _, fresh, freshAi, _, _, _, _, _, rfl, unrun, hveiled⟩
  | unjudged h => exact .inl (h.committed_veiled hsecrets hu hforeign)
  | unpublished h =>
    cases h with | cleared h =>
    exact .inl (h.drafted_veiled hsecrets hu hforeign)
  | reviewed h => exact .inl (h.drafted_veiled hsecrets hu hforeign)

end emitted

/-- Where the masks hide the secrets of a run, no text of a document that it emits shows one that is in none of the document's
own words, whatever its repository and its model answer, but for the texts of the gates where the suites ran again after the
commit. The keys of dictionaries are not masked, and nothing is said of them. -/
theorem emitted_veiled (R : AgentRunner) (task : TaskRequest) (hsecrets : Hideable R.secrets) (u : String) (hu : u ∈ R.secrets)
    (hforeign : Foreign u) (n : Nat) (workdir : String) (payload : Json)
    (h : (R.trace task)[n]?.map (fun e => e.request) = some (.emit workdir payload)) :
    Veiled u payload ∨ ShownByGates R (R.workdir task) u ((R.trace task).drop (n + 1)) payload := by
  obtain ⟨e, hget, hrequest⟩ := Option.map_eq_some_iff.1 h
  have hpermitted := (run_lawful R task).permitted hget
  rw [hrequest] at hpermitted
  obtain ⟨-, p, branch, publishing, document, hreached, rfl⟩ := hpermitted
  exact hreached.final_veiled hsecrets hu hforeign

def Request.emitted? : Request → Option (String × Json)
  | .emit workdir payload => some (workdir, payload)
  | _ => none

theorem Request.emitted?_eq {r : Request} {workdir : String} {payload : Json} (h : r.emitted? = some (workdir, payload)) :
    r = .emit workdir payload := by
  unfold Request.emitted? at h
  split at h
  · cases h
    rfl
  · cases h

theorem fixTask_emitted_veiled : ∃ workdir payload,
    (greenRunner.trace fixTask)[10]?.map (fun e => e.request) = some (.emit workdir payload) ∧
      (Veiled "tok-12345" payload ∨ ShownByGates greenRunner (greenRunner.workdir fixTask) "tok-12345"
        ((greenRunner.trace fixTask).drop 11) payload) := by
  have hemitted : ((greenRunner.trace fixTask)[10]?.bind fun e => e.request.emitted?).isSome = true := by decide +kernel
  obtain ⟨⟨workdir, payload⟩, h⟩ := Option.isSome_iff_exists.1 hemitted
  obtain ⟨e, hget, hrequest⟩ := Option.bind_eq_some_iff.1 h
  have hasked : (greenRunner.trace fixTask)[10]?.map (fun e => e.request) = some (.emit workdir payload) := by
    rw [hget, Option.map_some, Request.emitted?_eq hrequest]
  exact ⟨workdir, payload, hasked, emitted_veiled greenRunner fixTask (by decide +kernel) "tok-12345" (by decide +kernel)
    (by decide +kernel) 10 workdir payload hasked⟩

end OpenFish.Agent
