/-
Calendar dates as Python has them: their order and their ISO texts, which are read back.
-/
import OpenFish.Lib.Repr

namespace Lib

def isLeap (year : Nat) : Bool := year % 4 = 0 ∧ (year % 100 ≠ 0 ∨ year % 400 = 0)

def daysInMonth (year month : Nat) : Nat :=
  if month = 2 then (if isLeap year then 29 else 28) else if month ∈ [4, 6, 9, 11] then 30 else 31

/-- A day of a year from 1 to 9999. -/
def IsDate (year month day : Nat) : Prop :=
  1 ≤ year ∧ year ≤ 9999 ∧ 1 ≤ month ∧ month ≤ 12 ∧ 1 ≤ day ∧ day ≤ daysInMonth year month

instance (year month day : Nat) : Decidable (IsDate year month day) := inferInstanceAs (Decidable (_ ∧ _))

/-- `datetime.date`. -/
structure Date where
  year : Nat
  month : Nat
  day : Nat
  valid : IsDate year month day
  deriving DecidableEq, Repr

namespace Date

/-- `a <= b`. -/
def le (a b : Date) : Bool :=
  a.year < b.year ∨ a.year = b.year ∧ (a.month < b.month ∨ a.month = b.month ∧ a.day ≤ b.day)

/-- `isoformat`. -/
def isoformat (d : Date) : String :=
  String.ofList (Repr.pad 10 4 d.year ++ '-' :: (Repr.pad 10 2 d.month ++ '-' :: Repr.pad 10 2 d.day))

/-- The date of an ISO text. -/
def fromIsoformat (s : String) : Option Date :=
  (Repr.readPad 10 4 0 s.toList).bind fun year =>
    (Repr.readPad 10 2 0 (year.2.drop 1)).bind fun month =>
      (Repr.readPad 10 2 0 (month.2.drop 1)).bind fun day =>
        if h : IsDate year.1 month.1 day.1 then some ⟨year.1, month.1, day.1, h⟩ else none

theorem day_le_31 (year month : Nat) : daysInMonth year month ≤ 31 := by
  unfold daysInMonth
  split
  · split <;> omega
  · split <;> omega

theorem fromIsoformat_isoformat (d : Date) : fromIsoformat d.isoformat = some d := by
  obtain ⟨year, month, day, hvalid⟩ := d
  have hbounds := hvalid
  obtain ⟨-, hyear, -, hmonth, -, hday⟩ := hbounds
  have hlast := hday.trans (day_le_31 year month)
  have hread := Repr.readPad_pad (by decide : 0 < 10) (by decide)
  rw [fromIsoformat, isoformat, String.toList_ofList, hread, Option.bind_some, List.drop_succ_cons, List.drop_zero, hread,
    Option.bind_some, List.drop_succ_cons, List.drop_zero, ← List.append_nil (Repr.pad 10 2 day), hread, Option.bind_some]
  have hy : 0 * 10 ^ 4 + year % 10 ^ 4 = year := by omega
  have hm : 0 * 10 ^ 2 + month % 10 ^ 2 = month := by omega
  have hd : 0 * 10 ^ 2 + day % 10 ^ 2 = day := by omega
  simp only [hy, hm, hd, dif_pos hvalid]

theorem isoformat_injective : Function.Injective isoformat := by
  intro d d' h
  have hread := congrArg fromIsoformat h
  rw [fromIsoformat_isoformat, fromIsoformat_isoformat] at hread
  exact Option.some.inj hread

end Date

end Lib
