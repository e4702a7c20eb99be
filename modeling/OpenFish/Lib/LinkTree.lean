/-
Directory trees with symbolic links, modes and groups: paths are resolved anew by every call, and a link on the way is
followed. On a path with no link, a call reaches what the path names.
-/
import OpenFish.Lib.Dict

namespace Lib.LinkTree

inductive Kind
  | dir
  | file
  | link (absolute : Bool) (target : List String)
  deriving DecidableEq, Repr

def Kind.isLink : Kind → Bool
  | .link .. => true
  | _ => false

structure Inode where
  kind : Kind
  mode : Nat
  group : Nat
  deriving DecidableEq, Repr

/-- The inodes, by the names on the way from the root. -/
abbrev Nodes := Dict (List String) Inode

/-- A name of an entry: neither empty nor the directory itself nor the one above. -/
def Plain (name : String) : Prop := name ≠ "" ∧ name ≠ "." ∧ name ≠ ".."

instance (name : String) : Decidable (Plain name) := inferInstanceAs (Decidable (_ ∧ _))

/-! ## Resolution -/

section resolution

variable (nodes : Nodes) (follow : Bool)

/-- The way on from a directory; `next` resolves what a link has put in place of the way. -/
def walk (next : List String → List String → Option (List String)) : List String → List String → Option (List String)
  | reached, [] => some reached
  | reached, name :: rest =>
    if name = "" ∨ name = "." then walk next reached rest
    else if name = ".." then walk next reached.dropLast rest
    else
      match nodes.get? (reached ++ [name]) with
      | none => none
      | some ⟨.dir, _, _⟩ => walk next (reached ++ [name]) rest
      | some ⟨.file, _, _⟩ => if rest = [] then some (reached ++ [name]) else none
      | some ⟨.link absolute target, _, _⟩ =>
        if rest = [] ∧ follow = false then some (reached ++ [name])
        else next (if absolute then [] else reached) (target ++ rest)

/-- Resolution that follows so many links at most. -/
def resolveFrom : ℕ → List String → List String → Option (List String)
  | 0 => walk nodes follow fun _ _ => none
  | links + 1 => walk nodes follow (resolveFrom links)

/-- What a path leads to. The last link of the path is followed only on demand. -/
def resolve (path : List String) : Option (List String) := resolveFrom nodes follow 40 [] path

end resolution

/-! ## System calls -/

section calls

variable (nodes : Nodes)

def update (path : List String) (f : Inode → Inode) : Nodes :=
  match nodes.get? path with
  | none => nodes
  | some inode => nodes.set path (f inode)

/-- `lstat`. -/
def lstat (path : List String) : Option Inode := (resolve nodes false path).bind nodes.get?

/-- `stat`. -/
def stat (path : List String) : Option Inode := (resolve nodes true path).bind nodes.get?

/-- `lchown` of the group. -/
def lchown (path : List String) (group : Nat) : Nodes :=
  match resolve nodes false path with
  | none => nodes
  | some reached => update nodes reached fun inode => { inode with group }

def chmod (path : List String) (mode : Nat) : Nodes :=
  match resolve nodes true path with
  | none => nodes
  | some reached => update nodes reached fun inode => { inode with mode }

def isLink (path : List String) : Bool := (lstat nodes path).any fun inode => inode.kind.isLink

def isDir (path : List String) : Bool := (stat nodes path).any fun inode => inode.kind = .dir

/-- The names in a directory. -/
def scandir (path : List String) : Option (List String) :=
  (resolve nodes true path).bind fun reached =>
    match nodes.get? reached with
    | some ⟨.dir, _, _⟩ => some ((nodes.entries.filterMap fun e =>
        if e.1.dropLast = reached then e.1.getLast? else none).filter fun name => Plain name)
    | _ => none

/-- Every entry strictly under a directory in exchange for others. -/
def exchange (root : List String) (others : Nodes) : Nodes where
  entries := (nodes.keep fun path _ => ¬ (root <+: path ∧ path ≠ root)).entries ++
    (others.keep fun path _ => root <+: path ∧ path ≠ root).entries
  nodup := by
    rw [List.map_append, List.nodup_append]
    refine ⟨(nodes.keep _).nodup, (others.keep _).nodup, ?_⟩
    rintro path hkept path' hnew rfl
    obtain ⟨e, he, rfl⟩ := List.mem_map.1 hkept
    obtain ⟨e', he', heq⟩ := List.mem_map.1 hnew
    have hout := of_decide_eq_true (List.mem_filter.1 he).2
    have hin := of_decide_eq_true (List.mem_filter.1 he').2
    rw [heq] at hin
    exact hout hin

end calls

/-! ## What the calls reach -/

variable {nodes : Nodes} {follow : Bool}

theorem get?_update {path q : List String} {f : Inode → Inode} :
    (update nodes path f).get? q = if q = path then (nodes.get? path).map f else nodes.get? q := by
  unfold update
  split
  · rename_i hnode
    split
    · rename_i heq
      rw [heq, hnode]
      rfl
    · rfl
  · rename_i inode hnode
    rw [Dict.get?_set, hnode]
    rfl

theorem get?_exchange {root : List String} {others : Nodes} {path : List String} :
    (exchange nodes root others).get? path = if root <+: path ∧ path ≠ root then others.get? path else nodes.get? path := by
  ext inode
  rw [Dict.get?_eq_some]
  simp only [exchange, Dict.keep, List.mem_append, List.mem_filter, decide_eq_true_eq]
  split
  · rename_i hin
    rw [Dict.get?_eq_some]
    exact ⟨fun h => h.elim (fun hkept => absurd hin hkept.2) And.left, fun h => .inr ⟨h, hin⟩⟩
  · rename_i hout
    rw [Dict.get?_eq_some]
    exact ⟨fun h => h.elim And.left fun hnew => absurd hnew.2 hout, fun h => .inl ⟨h, hout⟩⟩

/-- No link stands on the way from a directory, but perhaps at the end, where it is not followed. -/
def NoLink (nodes : Nodes) (follow : Bool) (reached path : List String) : Prop :=
  ∀ q, q ≠ [] → q <+: path → (q = path → follow = true) →
    ∀ inode ∈ nodes.get? (reached ++ q), inode.kind.isLink = false

theorem walk_of_noLink {next : List String → List String → Option (List String)} {reached path r : List String}
    (hplain : ∀ name ∈ path, Plain name) (hlink : NoLink nodes follow reached path)
    (h : walk nodes follow next reached path = some r) : r = reached ++ path := by
  induction path generalizing reached with
  | nil =>
    cases h
    exact (List.append_nil r).symm
  | cons name rest ih =>
    obtain ⟨hname, hrest⟩ := List.forall_mem_cons.1 hplain
    have hempty : ¬ (name = "" ∨ name = ".") := fun h => h.elim hname.1 hname.2.1
    rw [walk, if_neg hempty, if_neg hname.2.2] at h
    have hon : NoLink nodes follow (reached ++ [name]) rest := by
      intro q hne hpre hlast inode hnode
      rw [List.append_assoc, List.singleton_append] at hnode
      exact hlink (name :: q) (List.cons_ne_nil _ _) (List.cons_prefix_cons.2 ⟨rfl, hpre⟩)
        (fun heq => hlast (List.cons.inj heq).2) inode hnode
    split at h
    · cases h
    · rw [ih hrest hon h, List.append_assoc, List.singleton_append]
    · split at h
      · rename_i hnil
        cases h
        rw [hnil]
      · cases h
    · rename_i absolute target mode group hnode
      split at h
      · rename_i hlast
        cases h
        rw [hlast.1]
      · rename_i hfollowed
        refine Bool.noConfusion (hlink [name] (List.cons_ne_nil _ _) (List.cons_prefix_cons.2 ⟨rfl, List.nil_prefix⟩)
          (fun heq => ?_) _ hnode)
        have hnil : rest = [] := (List.cons.inj heq).2.symm
        by_contra hno
        exact hfollowed ⟨hnil, Bool.eq_false_iff.2 hno⟩

/-- A path with no link leads to itself, if anywhere. -/
theorem resolve_of_noLink {path r : List String} (hplain : ∀ name ∈ path, Plain name) (hlink : NoLink nodes follow [] path)
    (h : resolve nodes follow path = some r) : r = path := walk_of_noLink hplain hlink h

theorem get?_lchown {path q : List String} {group : Nat} (hplain : ∀ name ∈ path, Plain name)
    (hlink : NoLink nodes false [] path) (hq : q ≠ path) : (lchown nodes path group).get? q = nodes.get? q := by
  unfold lchown
  split
  · rfl
  · rename_i reached hreached
    rw [get?_update, if_neg (resolve_of_noLink hplain hlink hreached ▸ hq)]

theorem get?_chmod {path q : List String} {mode : Nat} (hplain : ∀ name ∈ path, Plain name)
    (hlink : NoLink nodes true [] path) (hq : q ≠ path) : (chmod nodes path mode).get? q = nodes.get? q := by
  unfold chmod
  split
  · rfl
  · rename_i reached hreached
    rw [get?_update, if_neg (resolve_of_noLink hplain hlink hreached ▸ hq)]

theorem kind_lchown {path q : List String} {group : Nat} :
    ((lchown nodes path group).get? q).map Inode.kind = (nodes.get? q).map Inode.kind := by
  unfold lchown
  split
  · rfl
  · rw [get?_update]
    split
    · rename_i heq
      rw [heq, Option.map_map]
      rfl
    · rfl

theorem kind_chmod {path q : List String} {mode : Nat} :
    ((chmod nodes path mode).get? q).map Inode.kind = (nodes.get? q).map Inode.kind := by
  unfold chmod
  split
  · rfl
  · rw [get?_update]
    split
    · rename_i heq
      rw [heq, Option.map_map]
      rfl
    · rfl

theorem plain_of_scandir {path names : List String} (h : scandir nodes path = some names) : ∀ name ∈ names, Plain name := by
  unfold scandir at h
  obtain ⟨reached, -, h⟩ := Option.bind_eq_some_iff.1 h
  split at h
  · cases h
    exact fun name hname => of_decide_eq_true (List.mem_filter.1 hname).2
  · cases h

end Lib.LinkTree
