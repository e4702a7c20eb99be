/-
The fingerprint of a check suite (`suite_fingerprint`): a hash of Python's text of the checks. It tells suites apart by
their source and by what their checks run, in order.
-/
import OpenFish.Gates.Suite
import OpenFish.Lib.Repr

namespace OpenFish.Gates

open Lib
open Lib.Repr (Value Printable FloatTexts)

def Validation.value : Validation → String
  | .validated => "validated"
  | .unvalidated => "unvalidated"

/-- What is hashed of a `CheckCommand`, whose budget may be any float. -/
structure Check (F : Type) where
  id : String
  argv : List String
  cwd : String := "."
  timeout : Option F := none
  validation : Validation := .unvalidated

/-- A `CheckSuite` with budgets of any type of floats. -/
structure Suite (F : Type) where
  checks : List (Check F)
  source : SuiteSource := .unverified
  reason : String := ""

section Fingerprint

variable {F : Type} (printable : Printable) (floatText : F → String) (sha256 : String → String)

/-- A check in `normalized`. -/
def Check.normalized (c : Check F) : Value F :=
  .dict [("id", .str c.id), ("argv", .list (c.argv.map .str)), ("cwd", .str c.cwd),
    ("timeout", (c.timeout.map Value.float).getD .none), ("validation", .str c.validation.value)]

/-- `payload`. -/
def Suite.payload (s : Suite F) : String :=
  String.ofList (s.source.value.toList ++ ':' :: Repr.repr printable floatText (.list (s.checks.map (·.normalized))))

/-- `suite_fingerprint`. -/
def suiteFingerprint (s : Suite F) : String := sha256 (s.payload printable floatText)

/-! ## The payload says what the suite is -/

theorem map_str_injective : Function.Injective (List.map (Value.str : String → Value F)) :=
  List.map_injective_iff.2 fun _ _ h => Value.str.inj h

theorem timeout_injective : Function.Injective fun timeout : Option F => (timeout.map Value.float).getD .none := by
  rintro (_ | x) (_ | x') h
  · rfl
  · cases h
  · cases h
  · exact congrArg some (Value.float.inj h)

theorem Validation.value_injective : Function.Injective Validation.value := by
  intro v v'
  cases v <;> cases v' <;> decide

theorem Check.normalized_injective : Function.Injective (Check.normalized (F := F)) := by
  intro c c' h
  simp only [normalized, Value.dict.injEq, List.cons.injEq, Prod.mk.injEq, true_and, and_true, Value.str.injEq,
    Value.list.injEq] at h
  obtain ⟨hid, hargv, hcwd, htimeout, hvalidation⟩ := h
  have hargv := map_str_injective hargv
  have htimeout := timeout_injective htimeout
  have hvalidation := Validation.value_injective hvalidation
  cases c
  cases c'
  simp_all

/-- The first letters of the sources are different. -/
def SuiteSource.initial : SuiteSource → Char
  | .agentChecks => 'a'
  | .policy => 'p'
  | .discovery => 'd'
  | .explicit => 'e'
  | .unverified => 'u'

theorem SuiteSource.head_value (source : SuiteSource) (t : List Char) :
    (source.value.toList ++ t).head? = some source.initial := by
  cases source <;> rfl

variable {printable floatText sha256}

theorem Suite.payload_eq_iff (hfloat : FloatTexts floatText) {s s' : Suite F} :
    s.payload printable floatText = s'.payload printable floatText ↔ s.source = s'.source ∧ s.checks = s'.checks := by
  constructor
  · intro h
    have htext := String.ofList_injective h
    have hsource : s.source = s'.source := by
      have hhead := congrArg List.head? htext
      rw [SuiteSource.head_value, SuiteSource.head_value] at hhead
      have hinitial := Option.some.inj hhead
      cases hs : s.source <;> cases hs' : s'.source <;> rw [hs, hs'] at hinitial <;>
        first | rfl | exact absurd hinitial (by decide)
    rw [hsource] at htext
    have hlist := Repr.repr_injective hfloat (List.cons.inj (List.append_cancel_left htext)).2
    exact ⟨hsource, List.map_injective_iff.2 Check.normalized_injective (Value.list.inj hlist)⟩
  · rintro ⟨hsource, hchecks⟩
    rw [payload, payload, hsource, hchecks]

/-- A suite of the gates, with its budgets in seconds. -/
def CheckSuite.fields (s : CheckSuite) : Suite Rat where
  checks := s.checks.map fun c => ⟨c.id, c.argv, c.cwd, c.timeout, c.validation⟩
  source := s.source
  reason := s.reason

theorem runSuite_suiteHash {fingerprint : CheckSuite → String} {executor : Executor} {root : String} {timeout : Rat}
    {suite : CheckSuite} (h : suite.checks ≠ []) :
    (runSuite fingerprint executor root timeout suite).suiteHash = fingerprint suite := by
  unfold runSuite
  rw [if_neg (by simpa using h)]
  by_cases hresolved : suite.resolved = true
  · rw [if_pos hresolved]
  · rw [if_neg hresolved]

/-- Two runs that report the same hash ran the same checks, wherever and with whatever they ran them. -/
theorem runSuite_same {seconds : Rat → String} (hseconds : FloatTexts seconds) (hsha : Function.Injective sha256)
    {executor executor' : Executor} {root root' : String} {timeout timeout' : Rat} {suite suite' : CheckSuite}
    (hchecks : suite.checks ≠ []) (hchecks' : suite'.checks ≠ [])
    (h : (runSuite (fun s => sha256 (s.fields.payload printable seconds)) executor root timeout suite).suiteHash =
      (runSuite (fun s => sha256 (s.fields.payload printable seconds)) executor' root' timeout' suite').suiteHash) :
    suite.source = suite'.source ∧ suite.fields.checks = suite'.fields.checks := by
  rw [runSuite_suiteHash hchecks, runSuite_suiteHash hchecks'] at h
  exact (Suite.payload_eq_iff hseconds).1 (hsha h)

/-- Two suites have the same fingerprint exactly when they have the same source and the same checks in the same order. -/
theorem suiteFingerprint_eq_iff (printable : Printable) (hfloat : FloatTexts floatText)
    (hsha : Function.Injective sha256) (s s' : Suite F) :
    suiteFingerprint printable floatText sha256 s = suiteFingerprint printable floatText sha256 s' ↔
      s.source = s'.source ∧ s.checks = s'.checks :=
  hsha.eq_iff.trans (Suite.payload_eq_iff hfloat)

/-- The texts of two budgets. -/
def budgetText : Bool → String
  | true => "120.0"
  | false => "0.5"

theorem budgetText_floats : FloatTexts budgetText where
  injective := by
    intro x x'
    cases x <;> cases x' <;> decide
  nonempty x := by cases x <;> decide
  chars x := by
    have hall : ((budgetText x).toList.all fun c => decide (c ∈ "0123456789+-.einfa".toList)) = true := by
      cases x <;> decide
    exact fun c hc => of_decide_eq_true (List.all_eq_true.1 hall c hc)

theorem suiteFingerprint_quotes :
    suiteFingerprint (fun _ => true) budgetText id
        { checks := [{ id := "test", argv := ["a', 'b"], timeout := some true }], source := .discovery } ≠
      suiteFingerprint (fun _ => true) budgetText id
        { checks := [{ id := "test", argv := ["a", "b"], timeout := some true }], source := .discovery } := by
  intro h
  obtain ⟨-, hchecks⟩ := (suiteFingerprint_eq_iff _ budgetText_floats Function.injective_id _ _).1 h
  simp at hchecks

end Fingerprint

end OpenFish.Gates
