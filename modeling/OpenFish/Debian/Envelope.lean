/-
The parts of the envelope of `services/debian_apt.py`: a cached document is one file, with the headers that it is answered
with in front of its body.
-/
import Mathlib.Algebra.Group.Nat.Defs
import OpenFish.Lib.Dict
import OpenFish.Lib.Text

namespace OpenFish.Debian

open Lib

abbrev Bytes := List UInt8

abbrev Headers := Dict String String

/-! ## Headers -/

/-- `is_header_value_safe` under `ValuePolicy.LINE`: one line of printable ASCII. -/
def isHeaderValueSafe (value : String) : Bool := value ≠ "" ∧ value.toList.all fun c => 32 ≤ c.toNat ∧ c.toNat < 127

def hopByHop : List String :=
  ["connection", "keep-alive", "proxy-authenticate", "proxy-authorization", "te", "trailer", "transfer-encoding",
    "upgrade", "x-accel-buffering", "x-accel-redirect"]

/-- `FORWARD_HEADERS`. -/
def forwardedHeaders : List String :=
  ["content-type", "content-length", "content-encoding", "content-language", "content-disposition", "etag",
    "last-modified", "cache-control", "expires", "vary", "accept-ranges", "content-range", "date", "age", "location",
    "docker-content-digest", "docker-distribution-api-version"]

/-- `forward_headers`. -/
def forwardHeaders (headers : Headers) : Headers :=
  headers.keep fun key value =>
    Text.lower key ∉ hopByHop ∧ Text.lower key ∈ forwardedHeaders ∧ isHeaderValueSafe value

/-- `_CACHEABLE_HEADERS`. -/
def cacheableHeaders : List String :=
  ["content-type", "content-encoding", "content-language", "content-disposition", "etag", "last-modified",
    "cache-control", "expires", "vary", "accept-ranges", "content-range", "location"]

/-- The headers that `_encode_envelope` keeps, under their names in lower case. -/
def keptHeaders (headers : Headers) : Headers :=
  (headers.entries.filter fun h => Text.lower h.1 ∈ cacheableHeaders).foldl
    (fun kept h => kept.set (Text.lower h.1) h.2) Dict.empty

/-- The kept headers of an upstream's answer are cacheable and safe. -/
theorem keptHeaders_spec (headers : Headers) {key value : String}
    (h : (key, value) ∈ (keptHeaders (forwardHeaders headers)).entries) :
    key ∈ cacheableHeaders ∧ isHeaderValueSafe value = true := by
  have hfold : ∀ (l : List (String × String)) (acc : Headers),
      (∀ e ∈ l, Text.lower e.1 ∈ cacheableHeaders ∧ isHeaderValueSafe e.2 = true) →
      (∀ e ∈ acc.entries, e.1 ∈ cacheableHeaders ∧ isHeaderValueSafe e.2 = true) →
      ∀ e ∈ (l.foldl (fun kept h => kept.set (Text.lower h.1) h.2) acc).entries,
        e.1 ∈ cacheableHeaders ∧ isHeaderValueSafe e.2 = true := by
    intro l
    induction l with
    | nil => exact fun acc _ hacc => hacc
    | cons e l ih =>
      intro acc hl hacc
      refine ih _ (fun e' he' => hl e' (List.mem_cons_of_mem _ he')) fun e' he' => ?_
      rcases Dict.mem_set he' with ⟨hkey, hvalue⟩ | hold
      · rw [hkey, hvalue]
        exact hl e (List.mem_cons_self ..)
      · exact hacc e' hold
  refine hfold _ Dict.empty (fun e he => ?_) (fun e he => absurd he List.not_mem_nil) (key, value) h
  obtain ⟨hforwarded, hcacheable⟩ := List.mem_filter.1 he
  exact ⟨of_decide_eq_true hcacheable, (of_decide_eq_true (List.mem_filter.1 hforwarded).2).2.2⟩

/-! ## The frame -/

/-- `b"DFAPT1\n"`. -/
def magic : Bytes := "DFAPT1\n".toList.map Char.toUInt8

/-- `struct.pack(">I", n)`. -/
def packU32 (n : Nat) : Bytes := [n / 2 ^ 24, n / 2 ^ 16, n / 2 ^ 8, n].map UInt8.ofNat

def unpackU32 (bytes : Bytes) : Nat := bytes.foldl (fun n byte => n * 256 + byte.toNat) 0

theorem unpackU32_packU32 {n : ℕ} (h : n < 2 ^ 32) : unpackU32 (packU32 n) = n := by
  simp only [unpackU32, packU32, List.map_cons, List.map_nil, List.foldl_cons, List.foldl_nil, UInt8.toNat_ofNat']
  omega

end OpenFish.Debian
