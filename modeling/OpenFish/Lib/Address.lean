/-
IP addresses and networks as Python's `ipaddress` has them: how addresses are read from texts, when a network contains
one, and the IPv4-mapped IPv6 addresses.
-/
import Mathlib.Algebra.Group.Nat.Defs
import Mathlib.Tactic.Common

namespace Lib

inductive Address
  | v4 (value : BitVec 32)
  | v6 (value : BitVec 128) (scope : Option String)
  deriving DecidableEq, Repr

/-- A network: its address and the length of its prefix. -/
inductive Network
  | v4 (base : BitVec 32) (length : Nat)
  | v6 (base : BitVec 128) (length : Nat)
  deriving DecidableEq, Repr

/-! ## Membership -/

def netmask (w length : Nat) : BitVec w := BitVec.allOnes w <<< (w - length)

/-- `address.version == network.version and address in network`. -/
def Network.has : Network → Address → Bool
  | .v4 base length, .v4 value => value &&& netmask 32 length = base
  | .v6 base length, .v6 value _ => value &&& netmask 128 length = base
  | _, _ => false

/-- An address that differs from a network's in a bit of the prefix is not in it. -/
theorem and_netmask_ne {w length i : Nat} {value base : BitVec w} (hi : w - length ≤ i)
    (h : value.getLsbD i ≠ base.getLsbD i) : value &&& netmask w length ≠ base := by
  intro heq
  apply h
  rw [← heq, netmask, BitVec.getLsbD_and, BitVec.getLsbD_shiftLeft, BitVec.getLsbD_allOnes]
  by_cases hlt : i < w
  · simp [hlt, show ¬ i < w - length by omega, show i - (w - length) < w by omega]
  · simp [hlt, BitVec.getLsbD_of_ge _ _ (Nat.not_lt.1 hlt)]

/-! ## IPv4-mapped addresses -/

/-- `::ffff:a.b.c.d`. -/
def mapped (value : BitVec 32) : BitVec 128 := 0xffff#96 ++ value

theorem getLsbD_mapped {value : BitVec 32} {i : Nat} (hi : 32 ≤ i) :
    (mapped value).getLsbD i = (0xffff#96).getLsbD (i - 32) := by
  rw [mapped, BitVec.getLsbD_append, if_neg (by omega)]

/-- The IPv4 address that an IPv6 address maps. -/
def Address.ipv4Mapped : Address → Option (BitVec 32)
  | .v4 _ => none
  | .v6 value _ => if value.extractLsb' 32 96 = 0xffff#96 then some (value.extractLsb' 0 32) else none

theorem ipv4Mapped_mapped (value : BitVec 32) (scope : Option String) :
    (Address.v6 (mapped value) scope).ipv4Mapped = some value := by
  have hhigh : (mapped value).extractLsb' 32 96 = 0xffff#96 := by
    apply BitVec.eq_of_getLsbD_eq
    intro i hi
    rw [BitVec.getLsbD_extractLsb', getLsbD_mapped (by omega), Nat.add_sub_cancel_left]
    simp [hi]
  have hlow : (mapped value).extractLsb' 0 32 = value := by
    apply BitVec.eq_of_getLsbD_eq
    intro i hi
    rw [BitVec.getLsbD_extractLsb', mapped, BitVec.getLsbD_append, Nat.zero_add, if_pos hi]
    simp [hi]
  rw [Address.ipv4Mapped, if_pos hhigh, hlow]

/-! ## Reading -/

def decimal (digits : List Char) : Nat := digits.foldl (fun n c => 10 * n + (c.toNat - '0'.toNat)) 0

/-- `_parse_octet`. -/
def octet (digits : List Char) : Option Nat :=
  if digits = [] ∨ digits.all Char.isDigit = false ∨ 3 < digits.length ∨ (digits ≠ ['0'] ∧ digits.head? = some '0') ∨
      255 < decimal digits then none
  else some (decimal digits)

/-- `IPv4Address`. -/
def parseV4 (text : List Char) : Option (BitVec 32) :=
  let octets := text.splitOn '.'
  if octets.length ≠ 4 then none
  else (octets.mapM octet).map fun values => BitVec.ofNat 32 (values.foldl (fun n value => 256 * n + value) 0)

def hexDigit (c : Char) : Option Nat :=
  if c.isDigit then some (c.toNat - '0'.toNat)
  else if 'a' ≤ c ∧ c ≤ 'f' then some (c.toNat - 'a'.toNat + 10)
  else if 'A' ≤ c ∧ c ≤ 'F' then some (c.toNat - 'A'.toNat + 10)
  else none

/-- `_parse_hextet`. -/
def hextet (digits : List Char) : Option Nat :=
  if digits = [] ∨ 4 < digits.length then none
  else (digits.mapM hexDigit).map fun values => values.foldl (fun n value => 16 * n + value) 0

def hextets (parts : List (List Char)) (n : Nat) : Option Nat :=
  (parts.mapM hextet).map fun values => values.foldl (fun n value => 65536 * n + value) n

/-- The hextets of an IPv4 address at the end of an IPv6 address. -/
def spellV4 (value : BitVec 32) : List (List Char) :=
  [Nat.toDigits 16 (value.extractLsb' 16 16).toNat, Nat.toDigits 16 (value.extractLsb' 0 16).toNat]

/-- The parts around `::`, unless it stands twice, or a single `:` stands at an end. -/
def aroundSkip (parts : List (List Char)) : Option (Option (List (List Char) × List (List Char))) :=
  let inner := parts.tail.dropLast
  match inner.count [] with
  | 0 => some none
  | 1 =>
    let before := parts.take (inner.findIdx (· = []) + 1)
    let after := parts.drop (inner.findIdx (· = []) + 2)
    let before := if before.head? = some [] then before.tail else before
    let after := if after.getLast? = some [] then after.dropLast else after
    if (parts.head? = some [] ∧ before ≠ []) ∨ (parts.getLast? = some [] ∧ after ≠ []) then none
    else some (some (before, after))
  | _ => none

/-- `_ip_int_from_string` of `IPv6Address`. -/
def parseHextets (text : List Char) : Option (BitVec 128) :=
  let parts := text.splitOn ':'
  if parts.length < 3 then none
  else
    let last := parts.getLast?.getD []
    let whole :=
      if '.' ∈ last then (parseV4 last).map fun value => parts.dropLast ++ spellV4 value else some parts
    whole.bind fun parts =>
      if 9 < parts.length then none
      else
        (aroundSkip parts).bind fun
          | some (before, after) =>
            let given := before.length + after.length
            if 8 ≤ given then none
            else
              (hextets before 0).bind fun high =>
                (hextets after (high * 65536 ^ (8 - given))).map (BitVec.ofNat 128)
          | none => if parts.length ≠ 8 then none else (hextets parts 0).map (BitVec.ofNat 128)

/-- `IPv6Address`, with what follows `%` as its scope. -/
def parseV6 (text : List Char) : Option Address :=
  if '/' ∈ text then none
  else
    match text.dropWhile (· ≠ '%') with
    | [] => (parseHextets text).map fun value => .v6 value none
    | _ :: scope =>
      if scope = [] ∨ '%' ∈ scope then none
      else (parseHextets (text.takeWhile (· ≠ '%'))).map fun value => .v6 value (some (String.ofList scope))

/-- `ipaddress.ip_address`. -/
def ipAddress (text : String) : Option Address :=
  match parseV4 text.toList with
  | some value => some (.v4 value)
  | none => parseV6 text.toList

example : ipAddress "169.254.169.254" = some (.v4 0xa9fea9fe#32) := by decide

example : ipAddress "::ffff:169.254.169.254" = some (.v6 (mapped 0xa9fea9fe#32) none) := by decide

end Lib
