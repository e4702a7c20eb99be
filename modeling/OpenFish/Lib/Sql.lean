/-
Tables of a SQL database that carry their constraints: rows as functions of the column names, `ALTER TABLE … ADD
COLUMN`, `UPDATE` and `INSERT INTO … SELECT` as operations that fail where a constraint does.
-/
import Mathlib.Data.List.Forall2
import Mathlib.Data.List.Nodup

namespace Lib.Sql

/-- A value of a column. A real is its bits. -/
inductive Value
  | null
  | integer (n : Int)
  | real (bits : BitVec 64)
  | text (s : String)
  | blob (bytes : List UInt8)
  deriving DecidableEq, Repr

abbrev Row := String → Value

structure Column where
  name : String
  notNull : Bool := true
  deriving DecidableEq, Repr

/-- `CHECK (column IN (values))`. -/
structure Check where
  column : String
  values : List String
  deriving DecidableEq, Repr

/-- A check on `NULL` is not false. -/
def Check.Admits (check : Check) : Value → Prop
  | .null => True
  | .text s => s ∈ check.values
  | _ => False

instance (check : Check) : (value : Value) → Decidable (check.Admits value)
  | .null => inferInstanceAs (Decidable True)
  | .text s => inferInstanceAs (Decidable (s ∈ check.values))
  | .integer _ | .real _ | .blob _ => inferInstanceAs (Decidable False)

structure Schema where
  columns : List Column
  checks : List Check
  /-- The primary key and the columns with a unique index. -/
  uniques : List String
  deriving DecidableEq, Repr

namespace Schema

def names (schema : Schema) : List String := schema.columns.map Column.name

def Admits (schema : Schema) (row : Row) : Prop :=
  (∀ column ∈ schema.columns, column.notNull = true → row column.name ≠ .null) ∧
    ∀ check ∈ schema.checks, check.Admits (row check.column)

instance (schema : Schema) (row : Row) : Decidable (schema.Admits row) :=
  inferInstanceAs (Decidable (_ ∧ _))

/-- The values of a column that a unique index compares. -/
def keys (rows : List Row) (column : String) : List Value := (rows.map fun row => row column).filter (· ≠ .null)

/-- All the constraints. -/
def Meets (schema : Schema) (rows : List Row) : Prop :=
  (∀ row ∈ rows, schema.Admits row) ∧ ∀ column ∈ schema.uniques, (keys rows column).Nodup

instance (schema : Schema) (rows : List Row) : Decidable (schema.Meets rows) :=
  inferInstanceAs (Decidable (_ ∧ _))

end Schema

/-- A table: its rows have no value outside its columns, and meet its constraints. -/
structure Relation where
  schema : Schema
  nodup : schema.names.Nodup
  rows : List Row
  closed : ∀ row ∈ rows, ∀ c ∉ schema.names, row c = .null
  meets : schema.Meets rows

/-- A row's values in some of the columns. -/
def restrict (columns : List String) (row : Row) : Row := fun c => if c ∈ columns then row c else .null

theorem restrict_of_mem {columns : List String} {c : String} (h : c ∈ columns) (row : Row) :
    restrict columns row c = row c := if_pos h

theorem restrict_of_not_mem {columns : List String} {c : String} (h : c ∉ columns) (row : Row) :
    restrict columns row c = .null := if_neg h

/-- `row` with another value in one column. -/
def assign (column : String) (value : Value) (row : Row) : Row := fun c => if c = column then value else row c

theorem assign_self (column : String) (value : Value) (row : Row) : assign column value row column = value := if_pos rfl

theorem assign_of_ne {column c : String} (h : c ≠ column) (value : Value) (row : Row) :
    assign column value row c = row c := if_neg h

theorem Schema.Admits.assign {schema : Schema} {row : Row} (h : schema.Admits row) {column s : String}
    (hchecks : ∀ check ∈ schema.checks, check.column = column → s ∈ check.values) :
    schema.Admits (assign column (.text s) row) := by
  constructor
  · intro c hc hnot
    by_cases hname : c.name = column
    · rw [hname, assign_self]
      exact Value.noConfusion
    · rw [assign_of_ne hname]
      exact h.1 c hc hnot
  · intro check hcheck
    by_cases hname : check.column = column
    · rw [hname, assign_self]
      exact hchecks check hcheck hname
    · rw [assign_of_ne hname]
      exact h.2 check hcheck

namespace Relation

/-- `ALTER TABLE … ADD COLUMN` of a column that may be null. -/
def addColumn (r : Relation) (column : String) : Except String Relation :=
  if h : column ∈ r.schema.names then .error ("duplicate column name: " ++ column)
  else .ok
    { schema := { r.schema with columns := r.schema.columns ++ [⟨column, false⟩] }
      nodup := by
        rw [Schema.names, List.map_append, List.map_singleton]
        exact r.nodup.append (List.nodup_singleton _) (List.disjoint_singleton.2 h)
      rows := r.rows
      closed := by
        intro row hrow c hc
        refine r.closed row hrow c fun hin => hc ?_
        rw [Schema.names, List.map_append]
        exact List.mem_append_left _ hin
      meets := by
        refine ⟨fun row hrow => ⟨fun col hcol hnot => ?_, (r.meets.1 row hrow).2⟩, r.meets.2⟩
        rcases List.mem_append.1 hcol with hcol | hcol
        · exact (r.meets.1 row hrow).1 col hcol hnot
        · rw [List.mem_singleton.1 hcol] at hnot
          cases hnot }

/-- `UPDATE … SET column = value WHERE …`. -/
def update (r : Relation) (column : String) (value : Value) (selected : Row → Bool) : Except String Relation :=
  if hcolumn : column ∈ r.schema.names then
    let rows := r.rows.map fun row => if selected row then assign column value row else row
    if hmeets : r.schema.Meets rows then
      .ok
        { r with
          rows
          closed := by
            intro row hrow c hc
            obtain ⟨old, hold, rfl⟩ := List.mem_map.1 hrow
            split
            · rw [assign_of_ne (ne_of_mem_of_not_mem hcolumn hc).symm]
              exact r.closed old hold c hc
            · exact r.closed old hold c hc
          meets := hmeets }
    else .error "constraint failed"
  else .error ("no such column: " ++ column)

/-- `INSERT INTO new (columns) SELECT columns FROM r`, where `new` is an empty table of the schema. -/
def insertSelect (r : Relation) (new : Schema) (hnew : new.names.Nodup) : Except String Relation :=
  match new.names.find? (· ∉ r.schema.names) with
  | some column => .error ("no such column: " ++ column)
  | none =>
    if hmeets : new.Meets (r.rows.map (restrict new.names)) then
      .ok
        { schema := new
          nodup := hnew
          rows := r.rows.map (restrict new.names)
          closed := by
            intro row hrow c hc
            obtain ⟨old, -, rfl⟩ := List.mem_map.1 hrow
            exact restrict_of_not_mem hc old
          meets := hmeets }
    else .error "constraint failed"

/-! ## What the operations leave -/

variable {r r' : Relation} {column : String}

theorem addColumn_spec (h : column ∉ r.schema.names) :
    ∃ r', r.addColumn column = .ok r' ∧
      r'.schema = { r.schema with columns := r.schema.columns ++ [⟨column, false⟩] } ∧ r'.rows = r.rows :=
  ⟨_, dif_neg h, rfl, rfl⟩

/-- An update of rows that keeps every row admitted, and that leaves the columns of the unique indexes. -/
theorem update_spec (column : String) (value : Value) (selected : Row → Bool) (hcolumn : column ∈ r.schema.names)
    (hadmits : ∀ row ∈ r.rows, selected row = true → r.schema.Admits (assign column value row))
    (hunique : column ∉ r.schema.uniques) :
    ∃ r', r.update column value selected = .ok r' ∧ r'.schema = r.schema ∧
      r'.rows = r.rows.map fun row => if selected row then assign column value row else row := by
  have hmeets : r.schema.Meets (r.rows.map fun row => if selected row then assign column value row else row) := by
    constructor
    · intro row hrow
      obtain ⟨old, hold, rfl⟩ := List.mem_map.1 hrow
      split
      · exact hadmits old hold ‹_›
      · exact r.meets.1 old hold
    · intro c hc
      have hkeys : Schema.keys (r.rows.map fun row => if selected row then assign column value row else row) c =
          Schema.keys r.rows c := by
        rw [Schema.keys, List.map_map, Schema.keys]
        refine congrArg (List.filter _) (List.map_congr_left fun row _ => ?_)
        show (if selected row then assign column value row else row) c = row c
        split
        · exact assign_of_ne (ne_of_mem_of_not_mem hc hunique) _ _
        · rfl
      rw [hkeys]
      exact r.meets.2 c hc
  rw [update, dif_pos hcolumn]
  exact ⟨_, dif_pos hmeets, rfl, rfl⟩

theorem insertSelect_error {new : Schema} (hnew : new.names.Nodup) (h : ∃ c ∈ new.names, c ∉ r.schema.names) :
    ∃ why, r.insertSelect new hnew = .error why := by
  unfold insertSelect
  split
  · exact ⟨_, rfl⟩
  · rename_i hnone
    obtain ⟨c, hc, hmissing⟩ := h
    simpa [hmissing] using List.find?_eq_none.1 hnone c hc

/-- Rows of columns that there are, which the new constraints admit, are taken over. -/
theorem insertSelect_spec {new : Schema} {hnew : new.names.Nodup} (hcolumns : ∀ c ∈ new.names, c ∈ r.schema.names)
    (hchecks : ∀ check ∈ new.checks, check.column ∈ new.names) (hadmits : ∀ row ∈ r.rows, new.Admits row)
    (huniques : ∀ c ∈ new.uniques, c ∈ r.schema.uniques ∧ c ∈ new.names) :
    ∃ r', r.insertSelect new hnew = .ok r' ∧ r'.schema = new ∧ r'.rows = r.rows.map (restrict new.names) := by
  have hmeets : new.Meets (r.rows.map (restrict new.names)) := by
    constructor
    · intro row hrow
      obtain ⟨old, hold, rfl⟩ := List.mem_map.1 hrow
      obtain ⟨hnull, hcheck⟩ := hadmits old hold
      constructor
      · intro col hcol hnot
        have hname : col.name ∈ new.names := List.mem_map_of_mem hcol
        rw [restrict_of_mem hname]
        exact hnull col hcol hnot
      · intro check hmem
        rw [restrict_of_mem (hchecks check hmem)]
        exact hcheck check hmem
    · intro c hc
      have hkeys : Schema.keys (r.rows.map (restrict new.names)) c = Schema.keys r.rows c := by
        rw [Schema.keys, List.map_map, Schema.keys]
        exact congrArg (List.filter _) (List.map_congr_left fun row _ => restrict_of_mem (huniques c hc).2 row)
      rw [hkeys]
      exact r.meets.2 c (huniques c hc).1
  have hnone : new.names.find? (fun c => decide (c ∉ r.schema.names)) = none :=
    List.find?_eq_none.2 fun c hc => by simpa using hcolumns c hc
  unfold insertSelect
  rw [hnone]
  exact ⟨_, dif_pos hmeets, rfl, rfl⟩

end Relation

end Lib.Sql
