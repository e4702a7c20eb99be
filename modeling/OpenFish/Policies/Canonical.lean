/-
The canonical text of a policy and its hash (`canonical_json`, `policy_hash`): which policies they tell apart.
-/
import OpenFish.Lib.JsonSorted
import OpenFish.Policies.Document

namespace OpenFish.Policies

open Lib
open Lib.Yaml (Coercions AtLeast Positive isPositive)
open Lib.Json (sortKeys FloatTexts FloatsMeet)

/-! ## Plain data -/

/-- `model_dump(mode="json")` of the models. -/
def PolicyDefaults.modelDump (d : PolicyDefaults) : Json :=
  .obj [("auto_review", .bool d.autoReview), ("max_findings_per_run", .int d.maxFindingsPerRun.1),
    ("pr_policy", .str d.prPolicy), ("auto_fix", .bool d.autoFix), ("curator", .str d.curator),
    ("curator_min_interval_seconds", .int d.curatorMinIntervalSeconds.1)]

def RulePolicy.modelDump (r : RulePolicy) : Json :=
  .obj [("id", .str r.id), ("level", .str r.level),
    ("default_due_days", (r.defaultDueDays.map fun n => Json.int n.1).getD .null), ("autofix", .bool r.autofix)]

def PolicyException.modelDump (e : PolicyException) : Json :=
  .obj [("rule", .str e.rule), ("paths", .arr (e.paths.map .str)), ("reason", .str e.reason),
    ("decided_by", (e.decidedBy.map Json.str).getD .null), ("due", .str e.due.isoformat), ("status", .str e.status)]

def PolicyEscalation.modelDump (e : PolicyEscalation) : Json :=
  .obj [("rule_noise_threshold", .int e.ruleNoiseThreshold.1), ("rule_count_threshold", .int e.ruleCountThreshold.1)]

def PolicyCheck.modelDump (k : PolicyCheck) : Json :=
  .obj [("id", .str k.id), ("command", .str k.command), ("cwd", .str k.cwd),
    ("timeout", (k.timeout.map fun x => Json.float x.1).getD .null)]

/-- `payload`: the checks stand in it only when there are some. -/
def Policy.payload (p : Policy) : List (String × Json) :=
  [("version", .int p.version), ("defaults", p.defaults.modelDump), ("rules", .arr (p.rules.map (·.modelDump))),
    ("exceptions", .arr (p.exceptions.map (·.modelDump))), ("escalation", p.escalation.modelDump)] ++
    if p.checks = [] then [] else [("checks", .arr (p.checks.map (·.modelDump)))]

section Canonical

variable (floatText : BitVec 64 → List Char) (sha256 : String → String)

/-- `canonical_json`. -/
def canonicalJson (p : Policy) : String := String.ofList (Json.print floatText (sortKeys (.obj p.payload)))

/-- `policy_hash`. -/
def policyHash (p : Policy) : String := sha256 (canonicalJson floatText p)

end Canonical

/-! ## What the canonical text keeps -/

theorem sortKeys_int_inj {bound : Int} (n n' : AtLeast bound) (h : sortKeys (.int n.1) = sortKeys (.int n'.1)) : n = n' :=
  Subtype.ext (Json.int.inj h)

theorem sortKeys_float_inj (x x' : Positive) (h : sortKeys (.float x.1) = sortKeys (.float x'.1)) : x = x' :=
  Subtype.ext (Json.float.inj h)

theorem PolicyDefaults.modelDump_inj {d d' : PolicyDefaults} (h : sortKeys d.modelDump = sortKeys d'.modelDump) : d = d' := by
  have hvalues := Json.sortKeys_record_inj (by decide : PolicyDefaults.fields.Nodup) rfl rfl h
  simp only [List.map_cons, List.map_nil, sortKeys, List.cons.injEq, Json.bool.injEq, Json.int.injEq, Json.str.injEq,
    and_true] at hvalues
  obtain ⟨h₁, h₂, h₃, h₄, h₅, h₆⟩ := hvalues
  cases d
  cases d'
  simp_all [Subtype.ext_iff]

theorem RulePolicy.modelDump_inj {r r' : RulePolicy} (h : sortKeys r.modelDump = sortKeys r'.modelDump) : r = r' := by
  have hvalues := Json.sortKeys_record_inj (by decide : RulePolicy.fields.Nodup) rfl rfl h
  simp only [List.map_cons, List.map_nil, List.cons.injEq, and_true] at hvalues
  obtain ⟨h₁, h₂, h₃, h₄⟩ := hvalues
  have hdays := Json.sortKeys_option_inj sortKeys_int_inj (fun _ => by simp [sortKeys]) h₃
  simp only [sortKeys, Json.str.injEq, Json.bool.injEq] at h₁ h₂ h₄
  cases r
  cases r'
  simp_all

theorem PolicyException.modelDump_inj {e e' : PolicyException} (h : sortKeys e.modelDump = sortKeys e'.modelDump) : e = e' := by
  have hvalues := Json.sortKeys_record_inj (by decide : PolicyException.fields.Nodup) rfl rfl h
  simp only [List.map_cons, List.map_nil, List.cons.injEq, and_true] at hvalues
  obtain ⟨h₁, h₂, h₃, h₄, h₅, h₆⟩ := hvalues
  have htext : ∀ s s' : String, sortKeys (.str s) = sortKeys (.str s') → s = s' := fun s s' h => Json.str.inj h
  have hpaths := Json.sortKeys_list_inj htext h₂
  have hby := Json.sortKeys_option_inj htext (fun _ => by simp [sortKeys]) h₄
  have hdue := Date.isoformat_injective (htext _ _ h₅)
  simp only [sortKeys, Json.str.injEq] at h₁ h₃ h₆
  cases e
  cases e'
  simp_all

theorem PolicyEscalation.modelDump_inj {e e' : PolicyEscalation} (h : sortKeys e.modelDump = sortKeys e'.modelDump) :
    e = e' := by
  have hvalues := Json.sortKeys_record_inj (by decide : PolicyEscalation.fields.Nodup) rfl rfl h
  simp only [List.map_cons, List.map_nil, sortKeys, List.cons.injEq, Json.int.injEq, and_true] at hvalues
  cases e
  cases e'
  simp_all [Subtype.ext_iff]

theorem PolicyCheck.modelDump_inj {k k' : PolicyCheck} (h : sortKeys k.modelDump = sortKeys k'.modelDump) : k = k' := by
  have hvalues := Json.sortKeys_record_inj (by decide : PolicyCheck.fields.Nodup) rfl rfl h
  simp only [List.map_cons, List.map_nil, List.cons.injEq, and_true] at hvalues
  obtain ⟨h₁, h₂, h₃, h₄⟩ := hvalues
  have htimeout := Json.sortKeys_option_inj sortKeys_float_inj (fun _ => by simp [sortKeys]) h₄
  simp only [sortKeys, Json.str.injEq] at h₁ h₂ h₃
  cases k
  cases k'
  simp_all

theorem Policy.keys_payload (p : Policy) :
    p.payload.map Prod.fst = Policy.fields ++ if p.checks = [] then [] else ["checks"] := by
  unfold payload
  split <;> rfl

theorem Policy.nodup_keys (p : Policy) : (Policy.fields ++ if p.checks = [] then [] else ["checks"]).Nodup := by
  split <;> decide

theorem Policy.payload_inj {p p' : Policy} (h : sortKeys (.obj p.payload) = sortKeys (.obj p'.payload)) : p = p' := by
  have hempty : p.checks = [] ↔ p'.checks = [] := by
    have hlength := Json.length_of_sortKeys_eq h
    have hkeyed : ∀ q : Policy, q.payload.length = (Policy.fields ++ if q.checks = [] then [] else ["checks"]).length := by
      intro q
      rw [← keys_payload, List.length_map]
    rw [hkeyed, hkeyed] at hlength
    by_cases hp : p.checks = [] <;> by_cases hp' : p'.checks = [] <;> simp [hp, hp'] at hlength ⊢
  have hkeys : p'.payload.map Prod.fst = Policy.fields ++ if p.checks = [] then [] else ["checks"] := by
    rw [keys_payload]
    simp only [hempty]
  have hvalues := Json.sortKeys_record_inj p.nodup_keys p.keys_payload hkeys h
  have hchecks : p.checks = p'.checks := by
    by_cases hp : p.checks = []
    · rw [hp, hempty.1 hp]
    · have hp' : p'.checks ≠ [] := fun hp' => hp (hempty.2 hp')
      simp only [payload, if_neg hp, if_neg hp', List.map_cons, List.map_nil, List.cons_append, List.nil_append,
        List.cons.injEq, and_true] at hvalues
      exact Json.sortKeys_list_inj (fun _ _ => PolicyCheck.modelDump_inj) hvalues.2.2.2.2.2
  simp only [payload, List.map_cons, List.cons_append, List.cons.injEq] at hvalues
  obtain ⟨h₁, h₂, h₃, h₄, h₅, -⟩ := hvalues
  have hdefaults := PolicyDefaults.modelDump_inj h₂
  have hrules := Json.sortKeys_list_inj (fun _ _ => RulePolicy.modelDump_inj) h₃
  have hexceptions := Json.sortKeys_list_inj (fun _ _ => PolicyException.modelDump_inj) h₄
  have hescalation := PolicyEscalation.modelDump_inj h₅
  have hversion : p.version = p'.version := by simpa [sortKeys] using h₁
  cases p
  cases p'
  simp_all

theorem Policy.floatsMeet_payload (p : Policy) : FloatsMeet (isPositive · = true) (.obj p.payload) := by
  have hdays : ∀ r ∈ p.rules, FloatsMeet (isPositive · = true) r.modelDump := by
    intro r _
    cases hdue : r.defaultDueDays <;> simp [RulePolicy.modelDump, FloatsMeet, Json.FloatsMeetMembers, hdue]
  have hexceptions : ∀ e ∈ p.exceptions, FloatsMeet (isPositive · = true) e.modelDump := by
    intro e _
    have hpaths : Json.FloatsMeetItems (isPositive · = true) (e.paths.map Json.str) := by
      rw [Json.floatsMeetItems_iff]
      intro v hv
      obtain ⟨s, -, rfl⟩ := List.mem_map.1 hv
      trivial
    cases hby : e.decidedBy <;> simp [PolicyException.modelDump, FloatsMeet, Json.FloatsMeetMembers, hpaths, hby]
  have hchecks : ∀ k ∈ p.checks, FloatsMeet (isPositive · = true) k.modelDump := by
    intro k _
    cases htimeout : k.timeout with
    | none => simp [PolicyCheck.modelDump, FloatsMeet, Json.FloatsMeetMembers, htimeout]
    | some x => simpa [PolicyCheck.modelDump, FloatsMeet, Json.FloatsMeetMembers, htimeout] using x.2
  have hlist : ∀ {α : Type} (dump : α → Json) (as : List α), (∀ a ∈ as, FloatsMeet (isPositive · = true) (dump a)) →
      FloatsMeet (isPositive · = true) (.arr (as.map dump)) := by
    intro α dump as h
    rw [FloatsMeet, Json.floatsMeetItems_iff]
    intro v hv
    obtain ⟨a, ha, rfl⟩ := List.mem_map.1 hv
    exact h a ha
  rw [FloatsMeet, Json.floatsMeetMembers_iff, payload]
  intro m hm
  rcases List.mem_append.1 hm with hm | hm
  · simp only [List.mem_cons, List.not_mem_nil, or_false] at hm
    rcases hm with rfl | rfl | rfl | rfl | rfl
    · trivial
    · simp [PolicyDefaults.modelDump, FloatsMeet, Json.FloatsMeetMembers]
    · exact hlist _ _ hdays
    · exact hlist _ _ hexceptions
    · simp [PolicyEscalation.modelDump, FloatsMeet, Json.FloatsMeetMembers]
  · split at hm
    · cases hm
    · obtain rfl := List.mem_singleton.1 hm
      exact hlist _ _ hchecks

section Hash

variable {floatText : BitVec 64 → List Char} {sha256 : String → String}

/-- The canonical text is of one policy only. -/
theorem canonicalJson_injective (hfloat : FloatTexts floatText (isPositive · = true)) :
    Function.Injective (canonicalJson floatText) := by
  intro p p' h
  have hprint := String.ofList_injective h
  exact Policy.payload_inj (Json.print_injective hfloat (Json.floatsMeet_sortKeys p.floatsMeet_payload)
    (Json.floatsMeet_sortKeys p'.floatsMeet_payload) hprint)

/-- Two policies that are the same but for the order of their rules. -/
structure SameButOrder (p p' : Policy) : Prop where
  version : p.version = p'.version
  defaults : p.defaults = p'.defaults
  rules : p.rules.Perm p'.rules
  exceptions : p.exceptions = p'.exceptions
  escalation : p.escalation = p'.escalation
  checks : p.checks = p'.checks

/-- The hash of two policies is the same where only the order of the rules differs, and the canonical text differs where
anything else does. -/
def IdentifiesMeaning (floatText : BitVec 64 → List Char) (sha256 : String → String) (p p' : Policy) : Prop :=
  (SameButOrder p p' → policyHash floatText sha256 p = policyHash floatText sha256 p') ∧
    (¬ SameButOrder p p' → canonicalJson floatText p ≠ canonicalJson floatText p')

theorem SameButOrder.refl (p : Policy) : SameButOrder p p := ⟨rfl, rfl, List.Perm.refl _, rfl, rfl, rfl⟩

theorem SameButOrder.eq {p p' : Policy} (h : SameButOrder p p') (hrules : p.rules = p'.rules) : p = p' := by
  obtain ⟨hversion, hdefaults, -, hexceptions, hescalation, hchecks⟩ := h
  cases p
  cases p'
  simp_all

/-- The hash identifies the meaning of two policies exactly where their rules are not only ordered differently. -/
theorem identifiesMeaning_iff (hfloat : FloatTexts floatText (isPositive · = true)) (hsha : Function.Injective sha256)
    (p p' : Policy) : IdentifiesMeaning floatText sha256 p p' ↔ (SameButOrder p p' → p.rules = p'.rules) := by
  constructor
  · rintro ⟨hsame, -⟩ horder
    rw [canonicalJson_injective hfloat (hsha (hsame horder))]
  · intro h
    refine ⟨fun horder => ?_, fun hdiffer heq => ?_⟩
    · rw [horder.eq (h horder)]
    · exact hdiffer (canonicalJson_injective hfloat heq ▸ SameButOrder.refl p)

/-- Texts that are different for different floats. -/
def sampleText (x : BitVec 64) : List Char := '0' :: '.' :: Nat.toDigits 10 x.toNat

theorem sampleText_texts : FloatTexts sampleText (isPositive · = true) where
  injective x y _ _ h := BitVec.eq_of_toNat_eq (Json.toDigits_inj (List.cons.inj (List.cons.inj h).2).2)
  chars x _ c hc := by
    simp only [sampleText, List.mem_cons] at hc
    rcases hc with rfl | rfl | hc
    · exact Or.inl rfl
    · exact Or.inr (by decide)
    · exact Or.inl (Nat.isDigit_of_mem_toDigits (by decide) (by decide) hc)
  head x _ := ⟨'0', _, rfl, Or.inl rfl⟩
  mark x _ := ⟨'.', by simp [sampleText], by decide⟩

theorem identifiesMeaning_escalation :
    IdentifiesMeaning sampleText id {} { escalation := { ruleNoiseThreshold := ⟨4, by decide⟩ } } :=
  (identifiesMeaning_iff sampleText_texts Function.injective_id _ _).2 fun _ => rfl

/-- A file with two rules. -/
def twoRules (first second : String) : List (Yaml × Yaml) :=
  Yaml.record [("rules", .list [.mapping (Yaml.record [("id", .str first)]), .mapping (Yaml.record [("id", .str second)])])]

theorem reordered_rules_rehash :
    ¬ ∃ (floatText : BitVec 64 → List Char) (sha256 : String → String),
      FloatTexts floatText (isPositive · = true) ∧ Function.Injective sha256 ∧
        ∀ raw raw' d d', parseDocument Coercions.plain (policyHash floatText sha256) ⟨2026, 1, 1, by decide⟩ "file" none raw =
            .ok d →
          parseDocument Coercions.plain (policyHash floatText sha256) ⟨2026, 1, 1, by decide⟩ "file" none raw' = .ok d' →
          IdentifiesMeaning floatText sha256 d.toPolicy d'.toPolicy := by
  rintro ⟨floatText, sha256, hfloat, hsha, hlaw⟩
  have hmeaning := hlaw (twoRules "a" "b") (twoRules "b" "a") _ _ rfl rfl
  have horder := (identifiesMeaning_iff hfloat hsha _ _).1 hmeaning
    ⟨rfl, rfl, List.Perm.swap _ _ _, rfl, rfl, rfl⟩
  have hids : ["a", "b"] = ["b", "a"] := congrArg (List.map RulePolicy.id) horder
  exact absurd hids (by decide)

end Hash

end OpenFish.Policies
