/-
The search of the npm registry: the packages of the directory that a text is found in, and behind them what the upstream
answers, each name once.
-/
import Mathlib.Data.PNat.Defs
import OpenFish.Lib.Pages
import OpenFish.Registry.Local

namespace OpenFish.Registry

open Lib

structure Finder where
  host : Host
  /-- `str.lower`. -/
  lower : String → String
  /-- `package_url`, and the publisher that local packages are shown with. -/
  packageUrl : String → String
  publisher : String
  /-- What tells a number from those that are not equal to it. -/
  number : Json → Nat

variable (f : Finder)

/-- `SEARCH_MAX_SIZE`. -/
def searchMaxSize : Int := 250

/-- `clamp_search_size`. -/
def clampSearchSize (size : Int) : Int := max 1 (min searchMaxSize size)

/-! ## What is found -/

/-- A local package as it is listed, its score in tenths. -/
structure Found where
  name : String
  version : String
  description : String
  date : String
  link : String
  publisher : String
  keywords : List Json
  score : Nat

/-- `_local_score`. -/
def localScore (name needle : String) : Nat :=
  let lowered := f.lower name
  if lowered = needle then 10
  else if Text.startsWith needle lowered then 8
  else if Text.contains needle lowered then 5
  else 3

/-- An item of `" ".join`. -/
def asText : Json → Except String String
  | .str s => .ok s
  | _ => .error "sequence item: expected str instance"

/-- What a package is searched in. -/
def haystack (name : String) (record : Record) : Except String String := do
  let tags ← record.tags.mapM asText
  let description ← asText (orElse record.description (.str ""))
  return f.lower (String.intercalate " " [name, description, String.intercalate " " tags])

def foundOf (needle name : String) (record : Record) : Found where
  name
  version := (Mirrors.orNone record.latest).getD Npm.latestTag
  description := record.description.textOr f.host.render
  date := f.host.iso (if record.modified = 0 then f.host.now else record.modified)
  link := f.packageUrl name
  publisher := f.publisher
  keywords := record.tags
  score := localScore f name needle

/-- `_local_objects`, of the packages in order. -/
def localObjects (needle : String) : List (String × Record) → Except String (List Found)
  | [] => .ok []
  | (name, record) :: rest => do
    let found ← haystack f name record
    let more ← localObjects needle rest
    return if Text.contains needle found then foundOf f needle name record :: more else more

/-- `sorted(index.items())`. -/
def sorted (index : Index) : List (String × Record) := index.entries.insertionSort fun a b => a.1 ≤ b.1

/-- The name of an upstream's package. -/
def nameOf (item : Object) : Json := Json.get (Json.dictOrEmpty (Json.get item "package")) "name"

/-- An object with a package that has a name. -/
def named (item : Json) : Option Object := item.entries?.filter fun entries => (nameOf entries).truthy

/-- `_upstream_objects`: the first of the upstream's results, as many as it is asked for. -/
def upstreamObjects (results : List Json) (size : Nat) : List Object := (results.take size).filterMap named

/-! ## Each name once -/

inductive Item
  | own (found : Found)
  | upstream (item : Object)

/-- A name as a member of a set. -/
inductive Key
  | text (name : String)
  | number (n : Nat)
  deriving DecidableEq, Repr

def keyOf : Json → Except String Key
  | .str name => .ok (.text name)
  | .arr _ => .error "unhashable type: list"
  | .obj _ => .error "unhashable type: dict"
  | value => .ok (.number (f.number value))

def Item.key : Item → Except String Key
  | .own found => .ok (.text found.name)
  | .upstream item => keyOf f (nameOf item)

/-- The items whose name was not seen before. -/
def distinct (seen : List Key) : List Item → Except String (List Item)
  | [] => .ok []
  | item :: rest => do
    let key ← item.key f
    if key ∈ seen then distinct seen rest
    else
      let more ← distinct (key :: seen) rest
      return item :: more

structure Answer where
  objects : List Item
  total : Nat
  time : String

/-- `search`, of the local packages and of the results of the upstream, if it is asked and answers. -/
def search (index : Index) (results : Option (List Json)) (text : String) (size start : Int) : Except String Answer :=
  let count := (clampSearchSize size).toNat
  let text := Text.strip text
  if text = "" then .ok ⟨[], 0, f.host.utcNow⟩
  else do
    let own ← localObjects f (f.lower text) (sorted index)
    let upstream := (results.map fun found => upstreamObjects found count).getD []
    let merged ← distinct f [] (own.map Item.own ++ upstream.map Item.upstream)
    return ⟨window merged count (max 0 start).toNat, merged.length, f.host.utcNow⟩

end OpenFish.Registry
