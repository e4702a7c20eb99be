/-
`WatchdogIndex` of `index/base.py`: an index scans the tree once, and then follows the events that the observer
delivers. Changes and deliveries come in any order, every event after the change it reports.
-/
import OpenFish.Lib.FileTree
import OpenFish.Lib.Machine

namespace OpenFish.Index

open Lib

/-! ## Events -/

/-- What the observer delivers, with paths from the watched root. -/
inductive FileEvent
  | created (path : Path) (isDirectory : Bool)
  | modified (path : Path) (isDirectory : Bool)
  | deleted (path : Path) (isDirectory : Bool)
  | moved (src dest : Path) (isDirectory : Bool)
  deriving DecidableEq, Repr

/-- A move is reported by the ends that are watched. -/
def reportMove (sees : Path → Bool) (src dest : Path) (isDirectory : Bool) : List FileEvent :=
  match sees src, sees dest with
  | true, true => [.moved src dest isDirectory]
  | true, false => [.deleted src isDirectory]
  | false, true => [.created dest isDirectory]
  | false, false => []

def reportAt (sees : Path → Bool) (path : Path) (event : FileEvent) : List FileEvent := if sees path then [event] else []

/-- The event of a change that the file system has made: one for a change, also for that of a directory with all that is in
it. -/
def report (sees : Path → Bool) (T : FileTree) : Change → List FileEvent
  | .write dir name _ => reportAt sees (dir ++ [name])
      (if T.file? (dir ++ [name]) = none then .created (dir ++ [name]) false else .modified (dir ++ [name]) false)
  | .unlink dir name => reportAt sees (dir ++ [name]) (.deleted (dir ++ [name]) false)
  | .rename dir name dir' name' => reportMove sees (dir ++ [name]) (dir' ++ [name']) false
  | .mkdir dir name => reportAt sees (dir ++ [name]) (.created (dir ++ [name]) true)
  | .rmdir dir name => reportAt sees (dir ++ [name]) (.deleted (dir ++ [name]) true)
  | .renameDir dir name dir' name' => reportMove sees (dir ++ [name]) (dir' ++ [name']) true
  | .bringDir dir name _ => reportAt sees (dir ++ [name]) (.created (dir ++ [name]) true)
  | .takeDir dir name => reportAt sees (dir ++ [name]) (.deleted (dir ++ [name]) true)

/-! ## Indexes -/

/-- The subclass contract. -/
structure WatchdogIndex (σ : Type*) where
  recursive : Bool
  fullScan : FileTree → σ
  addOrUpdate : FileTree → Path → σ → σ
  remove : Path → σ → σ

namespace WatchdogIndex

variable {σ : Type*} (I : WatchdogIndex σ)

/-- An observer that is not recursive watches the root's own entries. -/
def sees (path : Path) : Bool := I.recursive || path.length == 1

/-- `_Handler`: events of directories are passed over. -/
def handle (T : FileTree) (x : σ) : FileEvent → σ
  | .created path isDirectory | .modified path isDirectory => if isDirectory then x else I.addOrUpdate T path x
  | .deleted path isDirectory => if isDirectory then x else I.remove path x
  | .moved src dest isDirectory => if isDirectory then x else I.addOrUpdate T dest (I.remove src x)

end WatchdogIndex

/-- The tree, the events that are still to be delivered, the oldest first, and the index. -/
structure Watched (σ : Type*) where
  tree : FileTree
  pending : List FileEvent
  contents : σ

inductive WatchMove
  | change (c : Change)
  | deliver

namespace WatchdogIndex

variable {σ : Type*} (I : WatchdogIndex σ)

def watch (s : Watched σ) : WatchMove → Watched σ
  | .change c =>
    match s.tree.apply c with
    | none => s
    | some T => { s with tree := T, pending := s.pending ++ report I.sees s.tree c }
  | .deliver =>
    match s.pending with
    | [] => s
    | e :: pending => { s with pending, contents := I.handle s.tree s.contents e }

/-- `start` on a tree, and what follows. -/
def runs (T : FileTree) : Machine (Watched σ) WatchMove Unit := ⟨⟨T, [], I.fullScan T⟩, fun s m => ((), I.watch s m)⟩

@[simp] theorem runs_start (T : FileTree) : (I.runs T).start = ⟨T, [], I.fullScan T⟩ := rfl

@[simp] theorem runs_step (T : FileTree) (s : Watched σ) (m : WatchMove) : (I.runs T).step s m = ((), I.watch s m) := rfl

end WatchdogIndex

/-! ## What an event is about -/

/-- The path that `_add_or_update` is called with. -/
def FileEvent.added : FileEvent → Option Path
  | .created path false | .modified path false | .moved _ path false => some path
  | _ => none

/-- The path that `_remove` is called with. -/
def FileEvent.removed : FileEvent → Option Path
  | .deleted path false | .moved path _ false => some path
  | _ => none

/-- An event is handled by at most one removal and then at most one addition. -/
theorem WatchdogIndex.handle_eq {σ : Type*} (I : WatchdogIndex σ) (T : FileTree) (x : σ) (e : FileEvent) :
    I.handle T x e = e.added.elim id (I.addOrUpdate T) (e.removed.elim x fun path => I.remove path x) := by
  cases e with
  | created path isDirectory => cases isDirectory <;> rfl
  | modified path isDirectory => cases isDirectory <;> rfl
  | deleted path isDirectory => cases isDirectory <;> rfl
  | moved src dest isDirectory => cases isDirectory <;> rfl

/-- A change of a file is reported by the ends that are watched. -/
theorem report_file (sees : Path → Bool) (T : FileTree) {c : Change} (hfile : c.ofDirectory = false) :
    (report sees T c = [] ∧ c.source.filter sees = none ∧ c.target.filter sees = none) ∨
      ∃ e, report sees T c = [e] ∧ e.removed = c.source.filter sees ∧ e.added = c.target.filter sees := by
  cases c with
  | write dir name bytes =>
    simp only [report, reportAt, Change.source, Change.target, Option.filter_some]
    cases sees (dir ++ [name]) with
    | false => exact .inl ⟨rfl, rfl, rfl⟩
    | true => refine .inr ⟨_, rfl, ?_⟩; split <;> exact ⟨rfl, rfl⟩
  | unlink dir name =>
    simp only [report, reportAt, Change.source, Change.target, Option.filter_some]
    cases sees (dir ++ [name]) with
    | false => exact .inl ⟨rfl, rfl, rfl⟩
    | true => exact .inr ⟨_, rfl, rfl, rfl⟩
  | rename dir name dir' name' =>
    simp only [report, reportMove, Change.source, Change.target, Option.filter_some]
    cases sees (dir ++ [name]) <;> cases sees (dir' ++ [name'])
    · exact .inl ⟨rfl, rfl, rfl⟩
    · exact .inr ⟨_, rfl, rfl, rfl⟩
    · exact .inr ⟨_, rfl, rfl, rfl⟩
    · exact .inr ⟨_, rfl, rfl, rfl⟩
  | mkdir | rmdir | renameDir | bringDir | takeDir => cases hfile

/-- An event about directories is passed over. -/
theorem report_directory (sees : Path → Bool) (T : FileTree) {c : Change} (hdir : c.ofDirectory = true) :
    report sees T c = [] ∨ ∃ e, report sees T c = [e] ∧ e.removed = none ∧ e.added = none := by
  have hat : ∀ {path : Path} {e : FileEvent}, e.removed = none → e.added = none →
      reportAt sees path e = [] ∨ ∃ e', reportAt sees path e = [e'] ∧ e'.removed = none ∧ e'.added = none := by
    intro path e hremoved hadded
    unfold reportAt
    split
    · exact .inr ⟨e, rfl, hremoved, hadded⟩
    · exact .inl rfl
  cases c with
  | mkdir dir name => exact hat rfl rfl
  | rmdir dir name => exact hat rfl rfl
  | bringDir dir name S => exact hat rfl rfl
  | takeDir dir name => exact hat rfl rfl
  | renameDir dir name dir' name' =>
    simp only [report, reportMove]
    cases sees (dir ++ [name]) <;> cases sees (dir' ++ [name'])
    · exact .inl rfl
    · exact .inr ⟨_, rfl, rfl, rfl⟩
    · exact .inr ⟨_, rfl, rfl, rfl⟩
    · exact .inr ⟨_, rfl, rfl, rfl⟩
  | write | unlink | rename => cases hdir

end OpenFish.Index
