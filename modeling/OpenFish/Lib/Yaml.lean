/-
Plain data as a YAML reader answers it, and records that are read from it field by field: a field has a default or is
required, and a key that is no field is refused.
-/
import OpenFish.Lib.Date

namespace Lib

/-- What `yaml.safe_load` answers. A float is its bits; a value of another type (a time, a set, bytes) is the name of its type and
its text. -/
inductive Yaml
  | null
  | bool (b : Bool)
  | int (n : Int)
  | float (bits : BitVec 64)
  | str (s : String)
  | date (d : Date)
  | list (items : List Yaml)
  | mapping (entries : List (Yaml × Yaml))
  | other (type text : String)

namespace Yaml

def text? : Yaml → Option String
  | str s => some s
  | _ => none

/-- `type(value).__name__`. -/
def typeName : Yaml → String
  | null => "NoneType"
  | bool _ => "bool"
  | int _ => "int"
  | float _ => "float"
  | str _ => "str"
  | date _ => "date"
  | list _ => "list"
  | mapping _ => "dict"
  | other type _ => type

/-- `isinstance(value, Mapping)`. -/
def entries? : Yaml → Option (List (Yaml × Yaml))
  | mapping entries => some entries
  | _ => none

def get? (entries : List (Yaml × Yaml)) (name : String) : Option Yaml :=
  (entries.find? fun e => e.1.text? = some name).map Prod.snd

/-- All keys are among the names. -/
def known (names : List String) (entries : List (Yaml × Yaml)) : Bool :=
  entries.all fun e => e.1.text?.any (· ∈ names)

/-- A dictionary with text keys. -/
def record (fields : List (String × Yaml)) : List (Yaml × Yaml) := fields.map fun f => (str f.1, f.2)

/-! ## Fields -/

section Fields

variable {α : Type}

/-- A field with a default, which stands as it is. -/
def field (entries : List (Yaml × Yaml)) (name : String) (read : Yaml → Option α) (default : α) : Option α :=
  match get? entries name with
  | none => some default
  | some v => read v

def required (entries : List (Yaml × Yaml)) (name : String) (read : Yaml → Option α) : Option α :=
  (get? entries name).bind read

/-- `T | None`. -/
def optional (read : Yaml → Option α) : Yaml → Option (Option α)
  | null => some none
  | v => (read v).map some

end Fields

/-! ## Coercions -/

/-- What a validator takes a value of a type from (`pydantic`, in its lax mode). -/
structure Coercions where
  bool : Yaml → Option Bool
  int : Yaml → Option Int
  float : Yaml → Option (BitVec 64)
  str : Yaml → Option String
  date : Yaml → Option Date
  items : Yaml → Option (List Yaml)

/-- A value of the type is taken as it is, and a date from its ISO text. -/
structure Coercions.Lawful (c : Coercions) : Prop where
  bool : ∀ b, c.bool (.bool b) = some b
  int : ∀ n, c.int (.int n) = some n
  float : ∀ x, c.float (.float x) = some x
  str : ∀ s, c.str (.str s) = some s
  date : ∀ d : Date, c.date (.str d.isoformat) = some d
  items : ∀ vs, c.items (.list vs) = some vs

/-- The coercions that take values of the type only, and dates from their ISO texts too. -/
def Coercions.plain : Coercions where
  bool
    | .bool b => some b
    | _ => none
  int
    | .int n => some n
    | _ => none
  float
    | .float x => some x
    | _ => none
  str
    | .str s => some s
    | _ => none
  date
    | .date d => some d
    | .str s => Date.fromIsoformat s
    | _ => none
  items
    | .list vs => some vs
    | _ => none

theorem Coercions.plain_lawful : Coercions.plain.Lawful :=
  ⟨fun _ => rfl, fun _ => rfl, fun _ => rfl, fun _ => rfl, Date.fromIsoformat_isoformat, fun _ => rfl⟩

/-- An integer that is not below a bound. -/
abbrev AtLeast (bound : Int) := {n : Int // bound ≤ n}

/-- `Field(ge=bound)`. -/
def Coercions.atLeast (c : Coercions) (bound : Int) (v : Yaml) : Option (AtLeast bound) :=
  (c.int v).bind fun n => if h : bound ≤ n then some ⟨n, h⟩ else none

/-- `x > 0` of a float: neither a sign, nor zero, nor above infinity. -/
def isPositive (bits : BitVec 64) : Bool := 0 < bits ∧ bits ≤ 0x7ff0000000000000#64

/-- A float above zero, infinity among them. -/
abbrev Positive := {bits : BitVec 64 // isPositive bits = true}

/-- `Field(gt=0)`. -/
def Coercions.positive (c : Coercions) (v : Yaml) : Option Positive :=
  (c.float v).bind fun x => if h : isPositive x = true then some ⟨x, h⟩ else none

/-- `list[T]`. -/
def Coercions.listOf {α : Type} (c : Coercions) (read : Yaml → Option α) (v : Yaml) : Option (List α) :=
  (c.items v).bind fun vs => vs.mapM read

/-! ## Reading a record back -/

@[simp] theorem get?_record_nil (name : String) : get? (record []) name = none := rfl

@[simp] theorem get?_record_cons (k : String) (v : Yaml) (fields : List (String × Yaml)) (name : String) :
    get? (record ((k, v) :: fields)) name = if k = name then some v else get? (record fields) name := by
  unfold get? record
  by_cases h : k = name
  · rw [if_pos h, List.map_cons, List.find?_cons_of_pos (by simpa [text?] using h), Option.map_some]
  · rw [if_neg h, List.map_cons, List.find?_cons_of_neg (by simpa [text?] using h)]

@[simp] theorem known_record (names : List String) (fields : List (String × Yaml)) :
    known names (record fields) = fields.all fun f => f.1 ∈ names := by
  unfold known record
  rw [List.all_map]
  rfl

section Lawful

variable {α : Type} {c : Coercions}

@[simp] theorem optional_dump {read : Yaml → Option α} {dump : α → Yaml} (hread : ∀ a, read (dump a) = some a)
    (hnull : ∀ a, dump a ≠ null) (a : Option α) : optional read ((a.map dump).getD null) = some a := by
  cases a with
  | none => rfl
  | some a =>
    have hdump := hnull a
    rw [Option.map_some, Option.getD_some]
    cases hv : dump a with
    | null => exact absurd hv hdump
    | _ => rw [optional, ← hv, hread, Option.map_some]; simp

theorem Coercions.Lawful.atLeast (h : c.Lawful) {bound : Int} (n : AtLeast bound) :
    c.atLeast bound (.int n.1) = some n := by
  rw [Coercions.atLeast, h.int, Option.bind_some, dif_pos n.2]

theorem Coercions.Lawful.positive (h : c.Lawful) (x : Positive) : c.positive (.float x.1) = some x := by
  rw [Coercions.positive, h.float, Option.bind_some, dif_pos x.2]

theorem Coercions.Lawful.listOf (h : c.Lawful) {read : Yaml → Option α} {dump : α → Yaml}
    (hread : ∀ a, read (dump a) = some a) (as : List α) : c.listOf read (.list (as.map dump)) = some as := by
  rw [Coercions.listOf, h.items, Option.bind_some]
  induction as with
  | nil => rfl
  | cons a as ih =>
    rw [List.map_cons, List.mapM_cons, hread, ih]
    rfl

end Lawful

end Yaml

end Lib
