/-
`prepare_untrusted_workdir` of `services/sandbox_identity.py`, one system call at a time, while the sandbox user changes
what is under the work directory. As long as nothing that was checked is a link when it is used, nothing outside changes.
-/
import Mathlib.Data.List.Infix
import OpenFish.Lib.LinkTree
import OpenFish.Lib.Machine

namespace OpenFish.Sandbox

open Lib LinkTree

/-- Names from the root directory. -/
abbrev Path := List String

/-! ## Modes -/

def groupRw : Nat := 0o060

def groupX : Nat := 0o010

def groupRwx : Nat := 0o070

def anyExecute : Nat := 0o111

def setgid : Nat := 0o2000

/-- The mode that `_relax` gives. -/
def relaxedMode (mode : Nat) (directory : Bool) : Nat :=
  let mode := mode ||| (if directory then groupRwx else groupRw)
  let mode := if directory ∨ mode &&& anyExecute ≠ 0 then mode ||| groupX else mode
  if directory then mode ||| setgid else mode

/-! ## Calls -/

/-- A work directory that is to be relaxed, by its resolved path, and the work root. -/
structure WorkTree where
  nodes : Nodes
  root : Path
  gid : Nat
  workRoot : Option Path
  plain : ∀ name ∈ root, Plain name
  above : ∀ q, q <+: root → q ≠ root → ∀ inode, nodes.get? q = some inode → inode.kind = .dir

/-- What is still to be called. -/
inductive Task
  /-- `_require_real_directory`. -/
  | require (path : Path)
  | lchown (path : Path)
  | lstat (path : Path)
  | chmod (path : Path) (mode : Nat)
  /-- `os.walk` looks whether the directory is a link. -/
  | descend (path : Path)
  deriving DecidableEq, Repr

/-- `_relax`, from its first call. -/
def relax (path : Path) : List Task := [.lchown path, .lstat path]

/-- `_ancestor_dirs`, of resolved paths: from the nearest up to the work root. -/
def ancestorDirs (t : WorkTree) : List Path :=
  match t.workRoot with
  | none => []
  | some workRoot => (t.root.inits.filter fun q => q ≠ t.root ∧ workRoot <+: q).reverse

/-- The nodes, the calls that are next, the directories that `os.walk` has still to list, and whether the ancestors were
taken. -/
structure State where
  nodes : Nodes
  todo : List Task
  stack : List Path
  finished : Bool

/-- A system call of the worker, permitted or not, or an exchange of what is under the work directory. -/
inductive Event
  | call (permitted : Bool)
  | tamper (others : Nodes)

/-- One call of those that are next. -/
def perform (t : WorkTree) (permitted : Bool) (s : State) (rest : List Task) : Task → State
  | .require path =>
    match lstat s.nodes path with
    | some ⟨.dir, _, _⟩ => { s with todo := relax path ++ rest, stack := [path] }
    -- `SandboxIdentityError`
    | _ => { s with todo := [], stack := [], finished := true }
  | .lchown path => { s with nodes := if permitted then lchown s.nodes path t.gid else s.nodes, todo := rest }
  | .lstat path =>
    match lstat s.nodes path with
    | none | some ⟨.link .., _, _⟩ => { s with todo := rest }
    | some ⟨kind, mode, _⟩ => { s with todo := .chmod path (relaxedMode mode (kind = .dir)) :: rest }
  | .chmod path mode => { s with nodes := if permitted then chmod s.nodes path mode else s.nodes, todo := rest }
  | .descend path =>
    if isLink s.nodes path then { s with todo := rest } else { s with todo := rest, stack := path :: s.stack }

/-- `os.walk` of one directory: all its entries are relaxed, then its directories are looked at, the last one first. -/
def walkInto (s : State) (path : Path) (stack : List Path) : State :=
  match scandir s.nodes path with
  | none => { s with stack }
  | some names =>
    let dirs := names.filter fun name => isDir s.nodes (path ++ [name])
    let nondirs := names.filter fun name => ¬ isDir s.nodes (path ++ [name])
    { s with
      todo := (dirs ++ nondirs).flatMap (fun name => relax (path ++ [name])) ++
        dirs.reverse.map fun name => .descend (path ++ [name])
      stack }

/-- The worker's next call. -/
def work (t : WorkTree) (permitted : Bool) (s : State) : State :=
  match s.todo, s.stack with
  | task :: rest, _ => perform t permitted s rest task
  | [], path :: stack => walkInto s path stack
  | [], [] => if s.finished then s else { s with todo := (ancestorDirs t).flatMap relax, finished := true }

def prepareUntrustedWorkdir (t : WorkTree) : Machine State Event Unit where
  start := ⟨t.nodes, [.require t.root], [], false⟩
  step s
    | .call permitted => ((), work t permitted s)
    | .tamper others => ((), { s with nodes := exchange s.nodes t.root others })

/-! ## Nothing outside -/

/-- The work directory with all that is under it, and its ancestors up to the work root. -/
def Within (t : WorkTree) (path : Path) : Prop := t.root <+: path ∨ ∃ workRoot ∈ t.workRoot, workRoot <+: path ∧ path <+: t.root

/-- Everything outside is as it was, with its mode and its group. -/
def Untouched (t : WorkTree) (nodes : Nodes) : Prop := ∀ path, ¬ Within t path → nodes.get? path = t.nodes.get? path

/-- No entry of the path under the work directory is a link: all of them, or all but the last. -/
def Straight (t : WorkTree) (nodes : Nodes) (follow : Bool) (path : Path) : Prop :=
  ∀ q ∈ path.inits, t.root <+: q → q ≠ t.root → (q = path → follow = true) →
    ∀ inode ∈ nodes.get? q, inode.kind.isLink = false

/-- A call that changes a mode or a group follows no link under the work directory. -/
def Task.FollowsNoLink (t : WorkTree) (nodes : Nodes) : Task → Prop
  | .lchown path => Straight t nodes false path
  | .chmod path _ => Straight t nodes true path
  | .require _ | .lstat _ | .descend _ => True

/-- Nothing on the path of the next call was swapped for a link that the call would follow. -/
def Unswapped (t : WorkTree) (s : State) : Event → Prop
  | .call _ => ∀ task ∈ s.todo.head?, task.FollowsNoLink t s.nodes
  | .tamper _ => True

instance (t : WorkTree) (nodes : Nodes) (follow : Bool) (path : Path) : Decidable (Straight t nodes follow path) :=
  inferInstanceAs (Decidable (∀ q ∈ path.inits, _))

instance (t : WorkTree) (nodes : Nodes) : ∀ task : Task, Decidable (task.FollowsNoLink t nodes)
  | .lchown path => inferInstanceAs (Decidable (Straight t nodes false path))
  | .chmod path _ => inferInstanceAs (Decidable (Straight t nodes true path))
  | .require _ | .lstat _ | .descend _ => .isTrue trivial

instance (t : WorkTree) (s : State) : ∀ e, Decidable (Unswapped t s e)
  | .call _ => inferInstanceAs (Decidable (∀ task ∈ s.todo.head?, task.FollowsNoLink t s.nodes))
  | .tamper _ => .isTrue trivial

/-! ## Where the calls are made -/

/-- A path that the worker may use: plain names, within the work directory or above it up to the work root. -/
def Usable (t : WorkTree) (path : Path) : Prop := (∀ name ∈ path, Plain name) ∧ Within t path

def Task.Usable (t : WorkTree) : Task → Prop
  | .require path => path = t.root
  | .lchown path | .lstat path | .chmod path _ => Sandbox.Usable t path
  | .descend path => t.root <+: path ∧ ∀ name ∈ path, Plain name

/-- The work directory was a directory from the start. -/
def IsDirectory (t : WorkTree) : Prop := ∃ inode, t.nodes.get? t.root = some inode ∧ inode.kind = .dir

/-- The calls that are next are about usable paths, and there are none before the work directory is known to be one. -/
structure Orderly (t : WorkTree) (s : State) : Prop where
  untouched : Untouched t s.nodes
  kinds : ∀ q, q <+: t.root → (s.nodes.get? q).map Inode.kind = (t.nodes.get? q).map Inode.kind
  todo : ∀ task ∈ s.todo, task.Usable t
  stack : ∀ path ∈ s.stack, t.root <+: path ∧ ∀ name ∈ path, Plain name
  entered : s.todo = [.require t.root] ∨ IsDirectory t ∨ s.todo = [] ∧ s.stack = [] ∧ s.finished = true

variable {t : WorkTree} {s : State} {path : Path}

theorem usable_under (hroot : t.root <+: path) (hplain : ∀ name ∈ path, Plain name) : Usable t path := ⟨hplain, .inl hroot⟩

theorem usable_ancestor (h : path ∈ ancestorDirs t) : Usable t path := by
  unfold ancestorDirs at h
  split at h
  · exact absurd h List.not_mem_nil
  · rename_i workRoot hworkRoot
    obtain ⟨hpre, hcond⟩ := List.mem_filter.1 (List.mem_reverse.1 h)
    have hpre : path <+: t.root := (List.mem_inits ..).1 hpre
    exact ⟨fun name hname => t.plain name (hpre.subset hname), .inr ⟨workRoot, hworkRoot, (of_decide_eq_true hcond).2, hpre⟩⟩

/-- What stands above the work directory is no link. -/
theorem above_ne_link (h : Orderly t s) {q : Path} (hq : q <+: t.root) (hdir : q = t.root → IsDirectory t) {inode : Inode}
    (hinode : s.nodes.get? q = some inode) : inode.kind = .dir := by
  have hkind := h.kinds q hq
  rw [hinode, Option.map_some] at hkind
  obtain ⟨first, hfirst, hsame⟩ := Option.map_eq_some_iff.1 hkind.symm
  rw [← hsame]
  by_cases heq : q = t.root
  · obtain ⟨inode', hinode', hkind'⟩ := hdir heq
    rw [heq] at hfirst
    cases hfirst.symm.trans hinode'
    exact hkind'
  · exact t.above q hq heq first hfirst

/-- The links that a usable path may have are those that are under the work directory. -/
theorem noLink_of_straight (h : Orderly t s) (hdir : IsDirectory t) {follow : Bool} (husable : Usable t path)
    (hstraight : Straight t s.nodes follow path) : NoLink s.nodes follow [] path := by
  intro q _ hpre hlast inode hinode
  rw [List.nil_append] at hinode
  have habove (hq : q <+: t.root) : inode.kind.isLink = false := by
    rw [above_ne_link h hq (fun _ => hdir) hinode]
    rfl
  rcases husable.2 with hunder | ⟨workRoot, -, -, hover⟩
  · rcases List.prefix_or_prefix_of_prefix hpre hunder with hq | hq
    · exact habove hq
    · by_cases heq : q = t.root
      · exact habove (heq ▸ List.prefix_refl _)
      · exact hstraight q ((List.mem_inits ..).2 hpre) hq heq hlast inode hinode
  · exact habove (hpre.trans hover)

/-! ## One event -/

theorem Untouched.change (h : Untouched t s.nodes) (husable : Usable t path) {nodes : Nodes}
    (hsame : ∀ q, q ≠ path → nodes.get? q = s.nodes.get? q) : Untouched t nodes := by
  intro q hq
  rw [hsame q fun heq => hq (heq ▸ husable.2)]
  exact h q hq

theorem orderly_tamper (h : Orderly t s) (others : Nodes) : Orderly t { s with nodes := exchange s.nodes t.root others } := by
  refine ⟨fun q hq => ?_, fun q hq => ?_, h.todo, h.stack, h.entered⟩
  · rw [get?_exchange, if_neg fun hunder => hq (.inl hunder.1)]
    exact h.untouched q hq
  · have hout : ¬ (t.root <+: q ∧ q ≠ t.root) := fun hunder => hunder.2 (hq.eq_of_length_le hunder.1.length_le)
    rw [get?_exchange, if_neg hout]
    exact h.kinds q hq

/-- Of what was next, only the rest is left. -/
theorem Orderly.rest (h : Orderly t s) {task : Task} {rest : List Task} (htodo : s.todo = task :: rest) (hdir : IsDirectory t) :
    Orderly t { s with todo := rest } where
  untouched := h.untouched
  kinds := h.kinds
  todo := (List.forall_mem_cons.1 (htodo ▸ h.todo)).2
  stack := h.stack
  entered := .inr (.inl hdir)

theorem orderly_lchown (h : Orderly t s) (husable : Usable t path) (hlink : NoLink s.nodes false [] path) (permitted : Bool) :
    Orderly t { s with nodes := if permitted then lchown s.nodes path t.gid else s.nodes } := by
  cases permitted with
  | false => exact h
  | true =>
    exact ⟨h.untouched.change husable fun q hq => get?_lchown husable.1 hlink hq,
      fun q hq => kind_lchown.trans (h.kinds q hq), h.todo, h.stack, h.entered⟩

theorem orderly_chmod (h : Orderly t s) (husable : Usable t path) (hlink : NoLink s.nodes true [] path) (permitted : Bool)
    (mode : Nat) : Orderly t { s with nodes := if permitted then chmod s.nodes path mode else s.nodes } := by
  cases permitted with
  | false => exact h
  | true =>
    exact ⟨h.untouched.change husable fun q hq => get?_chmod husable.1 hlink hq,
      fun q hq => kind_chmod.trans (h.kinds q hq), h.todo, h.stack, h.entered⟩

theorem usable_relax (h : Usable t path) : ∀ task ∈ relax path, task.Usable t := by
  simp only [relax, List.forall_mem_cons]
  exact ⟨h, h, fun _ htask => absurd htask List.not_mem_nil⟩

theorem orderly_walkInto (h : Orderly t s) (hdir : IsDirectory t) {stack : List Path} (hstack : s.stack = path :: stack) :
    Orderly t (walkInto s path stack) := by
  obtain ⟨⟨hroot, hplain⟩, hrest⟩ := List.forall_mem_cons.1 (hstack ▸ h.stack)
  unfold walkInto
  split
  · exact ⟨h.untouched, h.kinds, h.todo, hrest, .inr (.inl hdir)⟩
  · rename_i names hnames
    have hunder {name : String} (hname : name ∈ names) : t.root <+: path ++ [name] ∧ ∀ n ∈ path ++ [name], Plain n :=
      ⟨hroot.trans (List.prefix_append ..),
        List.forall_mem_append.2 ⟨hplain, List.forall_mem_singleton.2 (plain_of_scandir hnames name hname)⟩⟩
    refine ⟨h.untouched, h.kinds, List.forall_mem_append.2 ⟨fun task htask => ?_, fun task htask => ?_⟩, hrest, .inr (.inl hdir)⟩
    · obtain ⟨name, hname, htask⟩ := List.mem_flatMap.1 htask
      have hname : name ∈ names := (List.mem_append.1 hname).elim List.mem_of_mem_filter List.mem_of_mem_filter
      exact usable_relax (usable_under (hunder hname).1 (hunder hname).2) task htask
    · obtain ⟨name, hname, rfl⟩ := List.mem_map.1 htask
      exact hunder (List.mem_of_mem_filter (List.mem_reverse.1 hname))

theorem isDirectory_of_lstat (h : Orderly t s) {mode group : Nat} (hlstat : lstat s.nodes t.root = some ⟨.dir, mode, group⟩) :
    IsDirectory t := by
  obtain ⟨reached, hreached, hinode⟩ := Option.bind_eq_some_iff.1 hlstat
  have hlink : NoLink s.nodes false [] t.root := by
    intro q _ hpre hlast inode hinode
    have hne : q ≠ t.root := fun heq => Bool.false_ne_true (hlast heq)
    rw [List.nil_append] at hinode
    rw [above_ne_link h hpre (fun heq => absurd heq hne) hinode]
    rfl
  rw [resolve_of_noLink t.plain hlink hreached] at hinode
  have hkind := h.kinds t.root (List.prefix_refl _)
  rw [hinode] at hkind
  exact Option.map_eq_some_iff.1 hkind.symm

/-- The check of the work directory itself. -/
theorem orderly_require (h : Orderly t s) {rest : List Task} (hrest : ∀ task ∈ rest, task.Usable t) (permitted : Bool) :
    Orderly t (perform t permitted s rest (.require t.root)) := by
  simp only [perform]
  split
  · rename_i mode group hlstat
    have hroot : t.root <+: t.root ∧ ∀ name ∈ t.root, Plain name := ⟨List.prefix_refl _, t.plain⟩
    exact ⟨h.untouched, h.kinds, List.forall_mem_append.2 ⟨usable_relax (usable_under hroot.1 hroot.2), hrest⟩,
      List.forall_mem_singleton.2 hroot, .inr (.inl (isDirectory_of_lstat h hlstat))⟩
  · exact ⟨h.untouched, h.kinds, fun _ htask => absurd htask List.not_mem_nil, fun _ hpath => absurd hpath List.not_mem_nil,
      .inr (.inr ⟨rfl, rfl, rfl⟩)⟩

/-- The calls once the work directory is entered. -/
theorem orderly_perform (h : Orderly t s) (hdir : IsDirectory t) {task : Task} {rest : List Task}
    (htodo : s.todo = task :: rest) {permitted : Bool} (hstraight : Unswapped t s (.call permitted)) :
    Orderly t (perform t permitted s rest task) := by
  have hrest := h.rest htodo hdir
  have husable : task.Usable t := h.todo task (htodo ▸ List.mem_cons_self ..)
  have hstraight : task.FollowsNoLink t s.nodes := hstraight task (by rw [htodo]; rfl)
  cases task with
  | require path =>
    cases husable
    exact orderly_require h hrest.todo permitted
  | lchown path => exact orderly_lchown hrest husable (noLink_of_straight h hdir husable hstraight) permitted
  | chmod path mode => exact orderly_chmod hrest husable (noLink_of_straight h hdir husable hstraight) permitted mode
  | lstat path =>
    simp only [perform]
    split
    · exact hrest
    · exact hrest
    · exact ⟨hrest.untouched, hrest.kinds, List.forall_mem_cons.2 ⟨husable, hrest.todo⟩, hrest.stack, .inr (.inl hdir)⟩
  | descend path =>
    simp only [perform]
    split
    · exact hrest
    · exact ⟨hrest.untouched, hrest.kinds, hrest.todo, List.forall_mem_cons.2 ⟨husable, hrest.stack⟩, .inr (.inl hdir)⟩

theorem orderly_work (h : Orderly t s) {permitted : Bool} (hstraight : Unswapped t s (.call permitted)) :
    Orderly t (work t permitted s) := by
  rcases h.entered with hrequire | hdir | ⟨htodo, hstack, hfinished⟩
  · simp only [work, hrequire]
    exact orderly_require h (fun _ htask => absurd htask List.not_mem_nil) permitted
  · cases htodo : s.todo with
    | cons task rest =>
      simp only [work, htodo]
      exact orderly_perform h hdir htodo hstraight
    | nil =>
      cases hstack : s.stack with
      | cons path stack =>
        simp only [work, htodo, hstack]
        exact orderly_walkInto h hdir hstack
      | nil =>
        simp only [work, htodo, hstack]
        split
        · exact h
        · refine ⟨h.untouched, h.kinds, fun task htask => ?_, fun _ hpath => absurd hpath List.not_mem_nil, .inr (.inl hdir)⟩
          obtain ⟨path, hpath, htask⟩ := List.mem_flatMap.1 htask
          exact usable_relax (usable_ancestor hpath) task htask
  · simp only [work, htodo, hstack, hfinished, if_true]
    exact h

/-! ## Runs -/

theorem orderly_start (t : WorkTree) : Orderly t (prepareUntrustedWorkdir t).start where
  untouched _ _ := rfl
  kinds _ _ := rfl
  todo := List.forall_mem_singleton.2 rfl
  stack _ h := absurd h List.not_mem_nil
  entered := .inl rfl

/-- Where no link is followed under the work directory when a mode or a group is changed, nothing outside changes, whatever
the sandbox user does in between. -/
theorem untouched_of_unswapped {events : List Event}
    (h : (prepareUntrustedWorkdir t).AllSteps (fun _ s e => Unswapped t s e) events) :
    (prepareUntrustedWorkdir t).AllStates (fun _ s => Untouched t s.nodes) events := by
  refine Machine.AllSteps.allStates (fun events hevents => ?_) h
  refine Orderly.untouched (Machine.AllSteps.invariant (P := fun _ s => Orderly t s) (orderly_start t)
    (fun _ s e hs he => ?_) hevents)
  cases e with
  | call permitted => exact orderly_work hs he
  | tamper others => exact orderly_tamper hs others

def checkoutNodes : Nodes :=
  ⟨[([], ⟨.dir, 0o755, 0⟩), (["work"], ⟨.dir, 0o755, 0⟩), (["work", "7"], ⟨.dir, 0o755, 0⟩),
    (["work", "7", "a"], ⟨.file, 0o644, 0⟩), (["work", "7", "out"], ⟨.link true ["app", "key"], 0o777, 0⟩),
    (["app"], ⟨.dir, 0o755, 0⟩), (["app", "key"], ⟨.file, 0o600, 0⟩)], by decide⟩

/-- A file in a work directory, a link that leads out of it, and a key outside. -/
def checkout : WorkTree where
  nodes := checkoutNodes
  root := ["work", "7"]
  gid := 10000
  workRoot := some ["work"]
  plain := by decide
  above q hq hne inode hinode := by
    have habove : ∀ q ∈ ["work", "7"].inits, q ≠ ["work", "7"] → ∀ inode ∈ checkoutNodes.get? q, inode.kind = .dir := by decide
    exact habove q ((List.mem_inits ..).2 hq) hne inode hinode

/-- All the calls of one run, while the sandbox user writes a file that has been relaxed anew. -/
def rewritten : List Event :=
  List.replicate 6 (.call true) ++ .tamper ⟨[(["work", "7", "a"], ⟨.file, 0o600, 10000⟩),
    (["work", "7", "out"], ⟨.link true ["app", "key"], 0o777, 0⟩)], by decide⟩ :: List.replicate 8 (.call true)

theorem untouched_of_unswapped_rewritten :
    (prepareUntrustedWorkdir checkout).AllStates (fun _ s => Untouched checkout s.nodes) rewritten :=
  untouched_of_unswapped (by decide)

/-- The file is checked, and gives way to a link before its mode is changed. -/
def swapped : List Event :=
  .call true :: .tamper ⟨[(["work", "7", "a"], ⟨.link true ["app", "key"], 0o777, 10000⟩)], by decide⟩ ::
    List.replicate 7 (.call true)

/-- The key's mode is changed. -/
theorem swapped_not_untouched :
    ¬ (prepareUntrustedWorkdir checkout).AllStates (fun _ s => Untouched checkout s.nodes) swapped := by
  intro h
  have hkey : ((prepareUntrustedWorkdir checkout).state swapped).nodes.get? ["app", "key"] = some ⟨.file, 0o664, 0⟩ := by
    decide
  have hout : ¬ Within checkout ["app", "key"] := by
    rintro (hroot | ⟨workRoot, hworkRoot, hpre, -⟩)
    · revert hroot
      decide
    · cases hworkRoot
      revert hpre
      decide
  rw [h.now ["app", "key"] hout] at hkey
  revert hkey
  decide

end OpenFish.Sandbox
