/-
Parsed JSON as Python has it: dictionaries, lists and scalars, with the truth value of each.
-/
import Mathlib.Algebra.Group.Nat.Defs
import Mathlib.Tactic.Common

namespace Lib

/-- What `json.loads` answers. A float is its bits. -/
inductive Json
  | null
  | bool (b : Bool)
  | int (n : Int)
  | float (bits : BitVec 64)
  | str (s : String)
  | arr (items : List Json)
  | obj (entries : List (String × Json))
  deriving Repr

namespace Json

/-- `bool(value)`. -/
def truthy : Json → Bool
  | null => false
  | bool b => b
  | int n => n ≠ 0
  | float bits => bits ≠ 0 ∧ bits ≠ BitVec.ofNat 64 (2 ^ 63)
  | str s => s ≠ ""
  | arr items => !items.isEmpty
  | obj entries => !entries.isEmpty

/-- `isinstance(value, Mapping)`. -/
def entries? : Json → Option (List (String × Json))
  | obj entries => some entries
  | _ => none

/-- `isinstance(value, list)`. -/
def items? : Json → Option (List Json)
  | arr items => some items
  | _ => none

/-- `int(value) if isinstance(value, int) else None`: a Boolean is an integer too. -/
def int? : Json → Option Int
  | int n => some n
  | bool b => some (if b then 1 else 0)
  | _ => none

/-- `entries.get(key)`. -/
def get (entries : List (String × Json)) (key : String) : Json := (entries.lookup key).getD null

/-- `str(value)`, with the text that Python gives what is no string. -/
def text (render : Json → String) : Json → String
  | str s => s
  | value => render value

/-- `str(value or "")`. -/
def textOr (render : Json → String) (value : Json) : String := if value.truthy then value.text render else ""

/-! ## Dictionaries -/

/-- `value` where it is a dictionary, else an empty one. -/
def dictOrEmpty (value : Json) : List (String × Json) := value.entries?.getD []

/-- `entries[key] = value`. -/
def assign (entries : List (String × Json)) (key : String) (value : Json) : List (String × Json) :=
  if entries.any fun e => e.1 = key then entries.map fun e => if e.1 = key then (key, value) else e
  else entries ++ [(key, value)]

theorem lookup_assign (entries : List (String × Json)) (key : String) (value : Json) (other : String) :
    (assign entries key value).lookup other = if other = key then some value else entries.lookup other := by
  have hmap : ∀ l : List (String × Json), (l.any fun e => e.1 = key) = true →
      (l.map fun e => if e.1 = key then (key, value) else e).lookup other =
        if other = key then some value else l.lookup other := by
    intro l
    induction l with
    | nil => intro h; cases h
    | cons e l ih =>
      intro h
      obtain ⟨k, v⟩ := e
      by_cases hk : k = key
      · subst hk
        by_cases ho : other = k
        · simp [ho]
        · simp only [List.map_cons, if_true, List.lookup_cons, beq_false_of_ne ho, if_neg ho]
          by_cases hrest : (l.any fun e => e.1 = k) = true
          · rw [ih hrest, if_neg ho]
          · rw [List.map_congr_left (g := id) fun e he => ?_, List.map_id]
            have hne : e.1 ≠ k := fun heq => hrest (List.any_eq_true.2 ⟨e, he, by simpa using heq⟩)
            rw [if_neg hne]
            rfl
      · have hrest : (l.any fun e => e.1 = key) = true := by simpa [hk] using h
        by_cases ho : other = k
        · subst ho
          simp [hk]
        · simp only [List.map_cons, if_neg hk, List.lookup_cons, beq_false_of_ne ho]
          exact ih hrest
  unfold assign
  split
  · rename_i h
    exact hmap entries h
  · rename_i h
    rw [List.lookup_append]
    by_cases ho : other = key
    · subst ho
      have hnone : entries.lookup other = none := by
        rw [List.lookup_eq_none_iff]
        exact fun e he => bne_iff_ne.2 fun heq => h (List.any_eq_true.2 ⟨e, he, by simpa using heq.symm⟩)
      simp [hnone]
    · simp [ho, List.lookup_cons, beq_false_of_ne ho]

theorem get_assign (entries : List (String × Json)) (key : String) (value : Json) (other : String) :
    get (assign entries key value) other = if other = key then value else get entries other := by
  unfold get
  rw [lookup_assign]
  split <;> rfl

/-- `(value or {}).items()`. -/
def itemsOrNone (value : Json) : Except String (List (String × Json)) :=
  if value.truthy then
    match value with
    | .obj entries => .ok entries
    | _ => .error "object has no attribute \'items\'"
  else .ok []

/-- `dict(value or {})`, with what `dict` makes of a list. -/
def dictOf (pairs : List Json → Except String (List (String × Json))) (value : Json) : Except String (List (String × Json)) :=
  if value.truthy then
    match value with
    | .obj entries => .ok entries
    | .arr items => pairs items
    | .str _ => .error "dictionary update sequence element #0 has length 1; 2 is required"
    | _ => .error "object is not iterable"
  else .ok []

end Json

end Lib
