/-
The boot-time seeding of `services/catalog_seed.py`: `ensure_seed` of any number of processes beside each other, one
database statement or object write a step, with crashes between the steps and administrators who delete what was
installed.

The tables are there: `init_engine` creates them before it seeds. A transaction sees what is committed and what it has
inserted itself, and holds the unique keys it has inserted: an `INSERT` of another call waits for it to end.
-/
import OpenFish.Lib.Locks
import Mathlib.Algebra.Order.Ring.Int

namespace OpenFish.Seeding

open Lib

/-! ## Seeds -/

/-- The row one statement of a seed file inserts, `WHERE NOT EXISTS`. -/
structure SeedRow where
  /-- The unique key, behind the name of its table. -/
  name : String
  /-- The row whose id the statement selects, if it does. -/
  parent : Option String := none
  /-- A row of the table that `_has_rows` counts. -/
  counted : Bool := true
  /-- The object the row names. -/
  object : Option String := none
  deriving DecidableEq, Repr

/-- A seed file, with the objects that are installed beside it. -/
structure Seed where
  objects : List String
  rows : List SeedRow
  shipped : ∀ r ∈ rows, ∀ o ∈ r.object, o ∈ objects
  distinct : (rows.map SeedRow.name).Nodup
  founded : ∀ before r after, rows = before ++ r :: after → ∀ p ∈ r.parent, ∃ q ∈ before, q.name = p

/-- `namespaces.SEEDED`, and the seed of each whose file is there. -/
structure Catalogs where
  seeded : List String
  distinct : seeded.Nodup
  seed : String → Option Seed

/-! ## The database and the stores -/

/-- What is committed, and what is stored under each namespace. -/
structure Db where
  rows : List (String × SeedRow)
  /-- `catalog_seed_state`. -/
  markers : List String
  objects : List (String × String)
  /-- The rows that administrators have deleted, so far. -/
  removed : List (String × String)

/-- A database whose tables were just created. -/
def Db.fresh : Db := ⟨[], [], [], []⟩

def Db.hasRow (db : Db) (ns name : String) : Bool := db.rows.any fun e => e.1 = ns ∧ e.2.name = name

/-- `_has_rows`. -/
def Db.hasRows (db : Db) (ns : String) : Bool := db.rows.any fun e => e.1 = ns ∧ e.2.counted

/-- `store.put`. -/
def Db.put (db : Db) (ns object : String) : Db :=
  if (ns, object) ∈ db.objects then db else { db with objects := db.objects ++ [(ns, object)] }

/-- A unique key that an open transaction has inserted. -/
inductive Key
  | row (ns name : String)
  | marker (ns : String)
  deriving DecidableEq, Repr

/-! ## One call -/

/-- Where `_seed_namespace` stands. -/
inductive Phase
  | resolve
  | readMarker (seed : Seed)
  | countRows (seed : Seed)
  | install (objects : List String) (rows : List SeedRow)
  /-- In the transaction of the statements: what it has inserted, and what is left. -/
  | execute (pending rest : List SeedRow)
  /-- A statement that waits, past its guard, for the transaction that inserted its row: on a database that locks rows. -/
  | blocked (pending : List SeedRow) (r : SeedRow) (rest : List SeedRow)
  | getMarker
  | insertMarker
  | commitMarker

/-- Where `ensure_seed` stands: in a namespace, with those that follow, or at its end. -/
inductive Stage
  | seeding (ns : String) (later : List String) (phase : Phase)
  | returned
  | raised
  | crashed

/-- A call, and the markers that were recorded when it began. -/
structure Call where
  seen : List String
  stage : Stage

def Phase.holds (ns : String) : Phase → List Key
  | .execute pending _ => pending.map fun r => .row ns r.name
  | .blocked pending _ _ => pending.map fun r => .row ns r.name
  | .commitMarker => [.marker ns]
  | _ => []

def Stage.holds : Stage → List Key
  | .seeding ns _ phase => phase.holds ns
  | _ => []

/-- The next namespace. -/
def enter : List String → Stage
  | [] => .returned
  | ns :: later => .seeding ns later .resolve

/-- The row is committed, or inserted by the transaction itself. -/
def sees (db : Db) (ns : String) (pending : List SeedRow) (name : String) : Bool :=
  db.hasRow ns name || pending.any fun r => r.name = name

/-- A statement of the seed file: its guard, and the insert that waits for a key another transaction holds. -/
def execute (db : Db) (taken : Key → Bool) (ns : String) (pending : List SeedRow) (r : SeedRow) (rest : List SeedRow) :
    Phase :=
  if sees db ns pending r.name ∨ r.parent.any (fun p => !sees db ns pending p) then .execute pending rest
  else if taken (.row ns r.name) then .blocked pending r rest
  else .execute (pending ++ [r]) rest

/-- The next statement or object write of a call in a namespace. A statement is `.blocked` on a database that locks rows, as
PostgreSQL does. On SQLite, which locks the file, a statement that waited evaluates its guard after the wait: it is a run
in which it does not meet the other. -/
def proceed (c : Catalogs) (db : Db) (taken : Key → Bool) (ns : String) (later : List String) : Phase → Db × Stage
  | .resolve =>
    match c.seed ns with
    | none => (db, enter later)
    | some seed => (db, .seeding ns later (.readMarker seed))
  | .readMarker seed => (db, if ns ∈ db.markers then enter later else .seeding ns later (.countRows seed))
  | .countRows seed =>
    -- rows without a marker: the state is recorded and the content left alone
    (db, .seeding ns later (if db.hasRows ns then .getMarker else .install seed.objects seed.rows))
  | .install [] rows => (db, .seeding ns later (.execute [] rows))
  | .install (object :: objects) rows => (db.put ns object, .seeding ns later (.install objects rows))
  | .execute pending [] =>
    ({ db with rows := db.rows ++ pending.map fun r => (ns, r) }, .seeding ns later .getMarker)
  | .execute pending (r :: rest) => (db, .seeding ns later (execute db taken ns pending r rest))
  | .blocked pending r rest =>
    if taken (.row ns r.name) then (db, .seeding ns later (.blocked pending r rest))
    else if db.hasRow ns r.name then (db, .raised)
    else (db, .seeding ns later (.execute (pending ++ [r]) rest))
  | .getMarker => (db, if ns ∈ db.markers then enter later else .seeding ns later .insertMarker)
  | .insertMarker =>
    if taken (.marker ns) then (db, .seeding ns later .insertMarker)
    else if ns ∈ db.markers then (db, .raised)
    else (db, .seeding ns later .commitMarker)
  | .commitMarker => ({ db with markers := db.markers ++ [ns] }, enter later)

/-- What happens to a call next. -/
inductive Fate
  | go | crash
  deriving DecidableEq, Repr

/-- A crash ends the call, and with it what its transaction has inserted. -/
def step (c : Catalogs) (db : Db) (taken : Key → Bool) (k : Call) (fate : Fate) : Db × Call :=
  match k.stage, fate with
  | .seeding ns later phase, .go =>
    ((proceed c db taken ns later phase).1, { k with stage := (proceed c db taken ns later phase).2 })
  | .seeding _ _ _, .crash => (db, { k with stage := .crashed })
  | _, _ => (db, k)

/-! ## Administrators -/

inductive Admin
  /-- Rows go, with the rows that name them as their parent. -/
  | remove (ns : String) (names : List String)
  /-- The object of rows that went, after them. -/
  | purge (ns object : String)
  deriving DecidableEq, Repr

def doomed (ns : String) (names : List String) (e : String × SeedRow) : Bool :=
  e.1 = ns ∧ (e.2.name ∈ names ∨ e.2.parent.any (· ∈ names))

/-- Every row of the seed that names the object has been deleted. -/
def abandoned (c : Catalogs) (db : Db) (ns object : String) : Bool :=
  (c.seed ns).all fun seed => seed.rows.all fun r => r.object ≠ some object ∨ (ns, r.name) ∈ db.removed

def administer (c : Catalogs) (db : Db) : Admin → Db
  | .remove ns names =>
    { db with
      rows := db.rows.filter fun e => !doomed ns names e
      removed := db.removed ++ (db.rows.filter (doomed ns names)).map fun e => (e.1, e.2.name) }
  | .purge ns object =>
    if abandoned c db ns object then { db with objects := db.objects.filter (· ≠ (ns, object)) } else db

/-! ## Boots beside each other -/

def boots (c : Catalogs) : LockProgram Db Call Unit Fate Admin Key where
  start := .fresh
  enter db _ := ⟨db.markers, enter c.seeded⟩
  step := step c
  other := administer c
  holds k := k.stage.holds

/-- The call is not at its end. -/
def Stage.busy : Stage → Bool
  | .seeding _ _ _ => true
  | _ => false

/-- Once a call has returned, every row of a seed that no administrator has deleted is there once, with its object. -/
def Complete (c : Catalogs) (s : Scene Db Call) : Prop :=
  (∃ k ∈ s.calls, k.stage = .returned) → ∀ ns ∈ c.seeded, ∀ seed, c.seed ns = some seed → ∀ r ∈ seed.rows,
    (ns, r.name) ∉ s.shared.removed →
      (s.shared.rows.filter fun e => e.1 = ns ∧ e.2.name = r.name) = [(ns, r)] ∧
        ∀ o ∈ r.object, (ns, o) ∈ s.shared.objects

/-- What a namespace has: its rows, its marker and its objects. -/
def Db.part (db : Db) (ns : String) : List (String × SeedRow) × Bool × List (String × String) :=
  (db.rows.filter (·.1 = ns), decide (ns ∈ db.markers), db.objects.filter (·.1 = ns))

/-- The move leaves alone the namespaces that had their marker when the call that makes it began. -/
def Untouched (c : Catalogs) (s : Scene Db Call) : Move Unit Fate Admin → Prop
  | .step i fate => ∀ k, s.calls[i]? = some k → ∀ ns ∈ k.seen,
      ((boots c).next s (.step i fate)).shared.part ns = s.shared.part ns
  | _ => True

/-- No call has ended with an exception. -/
def NoneRaised (s : Scene Db Call) : Prop := ∀ k ∈ s.calls, k.stage ≠ .raised

/-- The key of the insert a call makes without looking for its row again. -/
def Stage.inserts : Stage → Option Key
  | .seeding ns _ (.blocked _ r _) => some (.row ns r.name)
  | .seeding ns _ .insertMarker => some (.marker ns)
  | _ => none

def Db.has (db : Db) : Key → Bool
  | .row ns name => db.hasRow ns name
  | .marker ns => ns ∈ db.markers

/-- The row that the move inserts, once it does not wait for it, was not recorded by another call after the call that
makes it had looked for it. -/
def Unopposed (c : Catalogs) (s : Scene Db Call) : Move Unit Fate Admin → Prop
  | .step i .go => ∀ k, s.calls[i]? = some k → ∀ key ∈ k.stage.inserts, (boots c).taken s i key = false →
      s.shared.has key = false
  | _ => True

/-! ## How far a call is from its end -/

def seedWork (c : Catalogs) (ns : String) : Nat :=
  match c.seed ns with
  | none => 1
  | some seed => seed.objects.length + 2 * seed.rows.length + 9

def Phase.work (c : Catalogs) (ns : String) : Phase → Nat
  | .resolve => seedWork c ns
  | .readMarker seed => seed.objects.length + 2 * seed.rows.length + 8
  | .countRows seed => seed.objects.length + 2 * seed.rows.length + 7
  | .install objects rows => objects.length + 2 * rows.length + 6
  | .execute _ rest => 2 * rest.length + 5
  | .blocked _ _ rest => 2 * rest.length + 6
  | .getMarker => 4
  | .insertMarker => 3
  | .commitMarker => 2

/-- A bound on the steps a call still makes, those apart in which it waits. -/
def Stage.work (c : Catalogs) : Stage → Nat
  | .seeding ns later phase => phase.work c ns + (later.map (seedWork c)).sum
  | _ => 0

/-- As long as a call is busy, some busy call comes nearer to its end with its next step. -/
def Advancing (c : Catalogs) (s : Scene Db Call) : Prop :=
  (∃ k ∈ s.calls, k.stage.busy = true) → ∃ (i : Nat) (k : Call), s.calls[i]? = some k ∧ k.stage.busy = true ∧
    ((boots c).step s.shared ((boots c).taken s i) k .go).2.stage.work c < k.stage.work c

end OpenFish.Seeding
