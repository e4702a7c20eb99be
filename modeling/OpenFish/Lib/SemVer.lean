/-
Semantic versions (SemVer 2.0): their texts, and the precedence between them.
-/
import Mathlib.Data.String.Basic
import Mathlib.Tactic.Common

namespace Lib

/-- A character of an identifier. -/
def identifierChar (c : Char) : Bool := c.isAlphanum || c = '-'

/-- An identifier of a prerelease: a number, or a word that is not all digits. -/
inductive Identifier
  | number (n : Nat)
  | word (text : String) (chars : ∀ c ∈ text.toList, identifierChar c = true) (notDigits : text.toList.all Char.isDigit = false)

namespace Identifier

def chars : Identifier → List Char
  | number n => Nat.toDigits 10 n
  | word text _ _ => text.toList

/-- Numbers come before words, and each kind in its own order. -/
def precedes : Identifier → Identifier → Bool
  | number a, number b => a < b
  | number _, word _ _ _ => true
  | word _ _ _, number _ => false
  | word a _ _, word b _ _ => a < b

end Identifier

structure SemVer where
  major : Nat
  minor : Nat
  patch : Nat
  /-- The identifiers of the prerelease; a release has none. -/
  pre : List Identifier
  /-- The identifiers of the build metadata. -/
  build : List String
  build_chars : ∀ b ∈ build, b ≠ "" ∧ ∀ c ∈ b.toList, identifierChar c = true

namespace SemVer

/-- The identifiers with dots between them. -/
def dotted (parts : List (List Char)) : List Char := List.intercalate ['.'] parts

def chars (v : SemVer) : List Char :=
  Nat.toDigits 10 v.major ++ '.' :: (Nat.toDigits 10 v.minor ++ '.' :: (Nat.toDigits 10 v.patch ++
    ((if v.pre = [] then [] else '-' :: dotted (v.pre.map Identifier.chars)) ++
      if v.build = [] then [] else '+' :: dotted (v.build.map String.toList))))

def text (v : SemVer) : String := String.ofList v.chars

/-- The first identifiers that differ decide, and where there are none, more of them are higher. -/
def preBelow : List Identifier → List Identifier → Bool
  | _, [] => false
  | [], _ :: _ => true
  | a :: as, b :: bs => a.precedes b || (!b.precedes a && preBelow as bs)

structure SameCore (v w : SemVer) : Prop where
  major : v.major = w.major
  minor : v.minor = w.minor
  patch : v.patch = w.patch

def CoreBelow (v w : SemVer) : Prop :=
  v.major < w.major ∨ v.major = w.major ∧ (v.minor < w.minor ∨ v.minor = w.minor ∧ v.patch < w.patch)

/-- `v` has lower precedence than `w`: build metadata does not count, and a prerelease is below its release. -/
def Below (v w : SemVer) : Prop :=
  v.CoreBelow w ∨ v.SameCore w ∧ v.pre ≠ [] ∧ (w.pre = [] ∨ preBelow v.pre w.pre = true)

end SemVer

end Lib
