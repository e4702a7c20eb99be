/-
Directory trees and the changes a file system allows: files are written, deleted and moved, directories are made,
removed, and moved with all that is under them, also in from outside the tree and out of it.
-/
import OpenFish.Lib.Dict

namespace Lib

/-- The names on the way from the root. -/
abbrev Path := List String

inductive Node
  | dir
  | file (bytes : List UInt8)
  deriving DecidableEq, Repr

namespace FileTree

/-- The root is a directory, though it is not listed. -/
def nodeAt (nodes : Dict Path Node) (p : Path) : Option Node := if p = [] then some .dir else nodes.get? p

end FileTree

/-- Everything that is in the tree is in a directory of it. -/
structure FileTree where
  nodes : Dict Path Node
  closed : ∀ p name, FileTree.nodeAt nodes (p ++ [name]) ≠ none → FileTree.nodeAt nodes p = some .dir

namespace FileTree

def at? (T : FileTree) (p : Path) : Option Node := nodeAt T.nodes p

/-- What the path has, if it is a file. -/
def file? (T : FileTree) (p : Path) : Option (List UInt8) :=
  match T.at? p with
  | some (.file bytes) => some bytes
  | _ => none

/-- `iterdir()`: the names in a directory. -/
def children (T : FileTree) (p : Path) : List String :=
  T.nodes.entries.filterMap fun e => if e.1.dropLast = p then e.1.getLast? else none

theorem append_singleton_ne_nil (p : Path) (name : String) : p ++ [name] ≠ [] :=
  List.append_ne_nil_of_right_ne_nil _ (List.cons_ne_nil _ _)

/-- A root with nothing in it. -/
protected def empty : FileTree := ⟨Dict.empty, fun p name h => absurd (if_neg (append_singleton_ne_nil p name)) h⟩

theorem at?_child (T : FileTree) (p : Path) (name : String) : T.at? (p ++ [name]) = T.nodes.get? (p ++ [name]) :=
  if_neg (append_singleton_ne_nil p name)

theorem mem_children {T : FileTree} {p : Path} {name : String} : name ∈ T.children p ↔ T.at? (p ++ [name]) ≠ none := by
  rw [at?_child, Ne, Dict.get?_eq_none, not_not, children, List.mem_filterMap, List.mem_map]
  constructor
  · rintro ⟨e, he, h⟩
    split at h
    · rename_i hp
      refine ⟨e, he, ?_⟩
      rw [← hp]
      exact (List.dropLast_append_getLast? name h).symm
    · cases h
  · rintro ⟨e, he, h⟩
    refine ⟨e, he, ?_⟩
    rw [h, List.dropLast_concat, if_pos rfl, List.getLast?_concat]

theorem nodup_children (T : FileTree) (p : Path) : (T.children p).Nodup := by
  refine List.pairwise_filterMap.2 ((List.pairwise_map.1 T.nodes.nodup).imp fun {e e'} hne name h name' h' heq => hne ?_)
  subst heq
  split at h
  · rename_i hp
    split at h'
    · rename_i hp'
      have hlast := List.dropLast_append_getLast? name h
      have hlast' := List.dropLast_append_getLast? name h'
      rw [← hlast, ← hlast', hp, hp']
    · cases h'
  · cases h

theorem file?_eq_some {T : FileTree} {p : Path} {bytes : List UInt8} : T.file? p = some bytes ↔ T.at? p = some (.file bytes) := by
  unfold file?
  split
  · rename_i h
    rw [h, Option.some_inj, Option.some_inj, Node.file.injEq]
  · rename_i h
    exact iff_of_false (fun h' => by cases h') (h bytes)

/-! ## The nodes after a change -/

theorem nodeAt_set {nodes : Dict Path Node} {q : Path} (hq : q ≠ []) (n : Node) (r : Path) :
    nodeAt (nodes.set q n) r = if r = q then some n else nodeAt nodes r := by
  unfold nodeAt
  by_cases hr : r = []
  · rw [if_pos hr, if_pos hr, if_neg fun h => hq (h.symm.trans hr)]
  · rw [if_neg hr, if_neg hr, Dict.get?_set]

theorem nodeAt_erase {nodes : Dict Path Node} {q : Path} (hq : q ≠ []) (r : Path) :
    nodeAt (nodes.erase q) r = if r = q then none else nodeAt nodes r := by
  unfold nodeAt
  by_cases hr : r = []
  · rw [if_pos hr, if_pos hr, if_neg fun h => hq (h.symm.trans hr)]
  · rw [if_neg hr, if_neg hr, Dict.get?_erase]

/-- The nodes that are not under a path. -/
def pruned (nodes : Dict Path Node) (q : Path) : Dict Path Node := nodes.keep fun r _ => ¬ q <+: r

theorem nodeAt_pruned {nodes : Dict Path Node} {q : Path} (hq : q ≠ []) (r : Path) :
    nodeAt (pruned nodes q) r = if q <+: r then none else nodeAt nodes r := by
  unfold nodeAt
  by_cases hr : r = []
  · rw [if_pos hr, if_pos hr, if_neg]
    rw [hr, List.prefix_nil]
    exact hq
  · rw [if_neg hr, if_neg hr, pruned, Dict.get?_keep]
    by_cases hpre : q <+: r
    · rw [if_pos hpre]
      cases nodes.get? r with
      | none => rfl
      | some n => exact Option.filter_some_neg (by simpa using hpre)
    · rw [if_neg hpre]
      cases nodes.get? r with
      | none => rfl
      | some n => exact Option.filter_some_pos (by simpa using hpre)

/-- The nodes under a path, by their way from there. -/
def taken (nodes : Dict Path Node) (q : Path) : Dict Path Node where
  entries := (nodes.entries.filter fun e => q <+: e.1).map fun e => (e.1.drop q.length, e.2)
  nodup := by
    rw [List.map_map]
    refine List.pairwise_map.2 ?_
    refine (List.Pairwise.filter _ (List.pairwise_map.1 nodes.nodup)).imp_of_mem fun {e e'} he he' hne heq => hne ?_
    have hpre : q <+: e.1 := by simpa using List.of_mem_filter he
    have hpre' : q <+: e'.1 := by simpa using List.of_mem_filter he'
    rw [← List.prefix_iff_eq_append.1 hpre, ← List.prefix_iff_eq_append.1 hpre',
      show e.1.drop q.length = e'.1.drop q.length from heq]

theorem get?_taken (nodes : Dict Path Node) (q r : Path) : (taken nodes q).get? r = nodes.get? (q ++ r) := by
  ext n
  rw [Dict.get?_eq_some, Dict.get?_eq_some]
  simp only [taken, List.mem_map, List.mem_filter, decide_eq_true_eq]
  constructor
  · rintro ⟨e, ⟨he, hpre⟩, heq⟩
    cases heq
    rw [List.prefix_iff_eq_append.1 hpre]
    exact he
  · intro h
    exact ⟨(q ++ r, n), ⟨h, List.prefix_append q r⟩, by rw [List.drop_left]⟩

/-- A directory with all that is in it, put at a path. -/
def grafted (nodes : Dict Path Node) (q : Path) (S : Dict Path Node) : Dict Path Node where
  entries := (pruned nodes q).entries ++ (q, .dir) :: (S.entries.filter fun e => e.1 ≠ []).map fun e => (q ++ e.1, e.2)
  nodup := by
    rw [List.map_append, List.map_cons, List.map_map, List.nodup_append]
    refine ⟨(pruned nodes q).nodup, List.nodup_cons.2 ⟨?_, ?_⟩, ?_⟩
    · intro hmem
      obtain ⟨e, he, heq⟩ := List.mem_map.1 hmem
      have hne : e.1 ≠ [] := by simpa using List.of_mem_filter he
      exact hne (List.append_right_eq_self.1 heq)
    · refine List.pairwise_map.2 ?_
      exact (List.Pairwise.filter _ (List.pairwise_map.1 S.nodup)).imp fun hne heq => hne (List.append_cancel_left heq)
    · intro r hr r' hr' heq
      subst heq
      obtain ⟨e, he, rfl⟩ := List.mem_map.1 hr
      have hpre : ¬ q <+: e.1 := by simpa using List.of_mem_filter he
      rcases List.mem_cons.1 hr' with heq | hmem
      · exact hpre (heq ▸ List.prefix_refl q)
      · obtain ⟨e', -, heq⟩ := List.mem_map.1 hmem
        exact hpre (heq ▸ List.prefix_append q e'.1)

theorem nodeAt_grafted {nodes S : Dict Path Node} {q : Path} (hq : q ≠ []) (r : Path) :
    nodeAt (grafted nodes q S) r = if q <+: r then nodeAt S (r.drop q.length) else nodeAt nodes r := by
  by_cases hr : r = []
  · have hpre : ¬ q <+: r := by
      rw [hr, List.prefix_nil]
      exact hq
    rw [if_neg hpre, nodeAt, nodeAt, if_pos hr, if_pos hr]
  rw [nodeAt, if_neg hr]
  ext n
  rw [Dict.get?_eq_some]
  simp only [grafted, List.mem_append, List.mem_cons, List.mem_map, List.mem_filter, decide_eq_true_eq]
  have hout : (r, n) ∈ (pruned nodes q).entries ↔ ¬ q <+: r ∧ nodes.get? r = some n := by
    rw [Dict.get?_eq_some, pruned]
    simp only [Dict.keep, List.mem_filter, decide_eq_true_eq]
    exact and_comm
  rw [hout]
  split
  · rename_i hpre
    obtain ⟨t, rfl⟩ := hpre
    rw [List.drop_left, nodeAt]
    constructor
    · rintro (⟨hnot, -⟩ | heq | ⟨e, ⟨he, hne⟩, heq⟩)
      · exact absurd (List.prefix_append q t) hnot
      · obtain ⟨hkey, rfl⟩ := Prod.mk.inj heq
        rw [if_pos (List.append_right_eq_self.1 hkey)]
      · obtain ⟨hkey, rfl⟩ := Prod.mk.inj heq
        rw [← List.append_cancel_left hkey, if_neg hne]
        exact Dict.get?_eq_some.2 he
    · intro h
      split at h
      · rename_i ht
        cases h
        rw [ht, List.append_nil]
        exact .inr (.inl rfl)
      · rename_i ht
        exact .inr (.inr ⟨(t, n), ⟨Dict.get?_eq_some.1 h, ht⟩, rfl⟩)
  · rename_i hpre
    rw [nodeAt, if_neg hr]
    constructor
    · rintro (⟨-, h⟩ | heq | ⟨e, -, heq⟩)
      · exact h
      · rw [(Prod.mk.inj heq).1] at hpre
        exact absurd (List.prefix_refl q) hpre
      · rw [← (Prod.mk.inj heq).1] at hpre
        exact absurd (List.prefix_append q e.1) hpre
    · exact fun h => .inl ⟨hpre, h⟩

/-! ## Changes -/

theorem prefix_concat {q p : Path} {name : String} : q <+: p ++ [name] ↔ q <+: p ∨ q = p ++ [name] :=
  List.prefix_concat_iff.trans or_comm

variable (T : FileTree) (p : Path) (name : String)

/-- A file is made, or gets other bytes. -/
def write (bytes : List UInt8) : Option FileTree :=
  if h : T.at? p = some .dir ∧ T.at? (p ++ [name]) ≠ some .dir then
    some
      { nodes := T.nodes.set (p ++ [name]) (.file bytes)
        closed := by
          intro r m hne
          have hq := append_singleton_ne_nil p name
          rw [nodeAt_set hq] at hne ⊢
          split at hne
          · rename_i heq
            obtain ⟨rfl, -⟩ := List.append_inj' heq rfl
            rw [if_neg (by simp)]
            exact h.1
          · have hdir := T.closed r m hne
            rw [if_neg, hdir]
            rintro rfl
            exact h.2 hdir }
  else none

/-- A file is deleted. -/
def unlink : Option FileTree :=
  if h : T.file? (p ++ [name]) ≠ none then
    some
      { nodes := T.nodes.erase (p ++ [name])
        closed := by
          intro r m hne
          have hq := append_singleton_ne_nil p name
          rw [nodeAt_erase hq] at hne ⊢
          split at hne
          · exact absurd rfl hne
          · have hdir := T.closed r m hne
            rw [if_neg, hdir]
            rintro rfl
            obtain ⟨bytes, hfile⟩ := Option.ne_none_iff_exists'.1 h
            have := hdir.symm.trans (file?_eq_some.1 hfile)
            cases this }
  else none

/-- An empty directory is made. -/
def mkdir : Option FileTree :=
  if h : T.at? p = some .dir ∧ T.at? (p ++ [name]) = none then
    some
      { nodes := T.nodes.set (p ++ [name]) .dir
        closed := by
          intro r m hne
          have hq := append_singleton_ne_nil p name
          rw [nodeAt_set hq] at hne ⊢
          split
          · rfl
          · split at hne
            · rename_i heq
              obtain ⟨rfl, -⟩ := List.append_inj' heq rfl
              exact h.1
            · exact T.closed r m hne }
  else none

/-- An empty directory is removed. -/
def rmdir : Option FileTree :=
  if h : T.at? (p ++ [name]) = some .dir ∧ T.children (p ++ [name]) = [] then
    some
      { nodes := T.nodes.erase (p ++ [name])
        closed := by
          intro r m hne
          have hq := append_singleton_ne_nil p name
          rw [nodeAt_erase hq] at hne ⊢
          split at hne
          · exact absurd rfl hne
          · rw [if_neg, T.closed r m hne]
            rintro rfl
            have : m ∈ T.children (p ++ [name]) := mem_children.2 hne
            rw [h.2] at this
            exact List.not_mem_nil this }
  else none

/-- A directory leaves the tree with all that is in it. -/
def takeDir : Option FileTree :=
  if T.at? (p ++ [name]) = some .dir then
    some
      { nodes := pruned T.nodes (p ++ [name])
        closed := by
          intro r m hne
          have hq := append_singleton_ne_nil p name
          rw [nodeAt_pruned hq] at hne ⊢
          split at hne
          · exact absurd rfl hne
          · rename_i hpre
            rw [if_neg fun h => hpre (prefix_concat.2 (.inl h)), T.closed r m hne] }
  else none

/-- The directory at a path, as a tree of its own. -/
def subtree (q : Path) : FileTree where
  nodes := taken T.nodes q
  closed := by
    intro r m hne
    rw [nodeAt, if_neg (append_singleton_ne_nil r m), get?_taken, ← List.append_assoc] at hne
    have hdir := T.closed (q ++ r) m (by rwa [nodeAt, if_neg (append_singleton_ne_nil _ m)])
    rw [nodeAt] at hdir ⊢
    split
    · rfl
    · rename_i hr
      rwa [if_neg (List.append_ne_nil_of_right_ne_nil _ hr), ← get?_taken] at hdir

/-- A directory comes into the tree with all that is in it, in the place of an empty one at most. -/
def bringDir (S : FileTree) : Option FileTree :=
  if h : T.at? p = some .dir ∧ T.file? (p ++ [name]) = none ∧ T.children (p ++ [name]) = [] then
    some
      { nodes := grafted T.nodes (p ++ [name]) S.nodes
        closed := by
          intro r m hne
          have hq := append_singleton_ne_nil p name
          rw [nodeAt_grafted hq] at hne ⊢
          split at hne
          · rename_i hpre
            rcases prefix_concat.1 hpre with hpre | heq
            · rw [if_pos hpre]
              obtain ⟨t, rfl⟩ := hpre
              rw [List.append_assoc, List.drop_left] at hne
              rw [List.drop_left]
              exact S.closed t m hne
            · obtain ⟨rfl, -⟩ := List.append_inj' heq rfl
              rw [if_neg]
              · exact h.1
              · intro hpre
                have := hpre.length_le
                rw [List.length_append, List.length_singleton] at this
                omega
          · rename_i hpre
            rw [if_neg fun h => hpre (prefix_concat.2 (.inl h))]
            exact T.closed r m hne }
  else none

end FileTree

/-- The changes of a tree. What comes in from outside is written, what goes out is deleted. -/
inductive Change
  | write (dir : Path) (name : String) (bytes : List UInt8)
  | unlink (dir : Path) (name : String)
  | rename (dir : Path) (name : String) (dir' : Path) (name' : String)
  | mkdir (dir : Path) (name : String)
  | rmdir (dir : Path) (name : String)
  | renameDir (dir : Path) (name : String) (dir' : Path) (name' : String)
  | bringDir (dir : Path) (name : String) (S : FileTree)
  | takeDir (dir : Path) (name : String)

/-- The tree after the change, unless the file system refuses it. -/
def FileTree.apply (T : FileTree) : Change → Option FileTree
  | .write dir name bytes => T.write dir name bytes
  | .unlink dir name => T.unlink dir name
  | .rename dir name dir' name' =>
    (T.file? (dir ++ [name])).bind fun bytes => (T.unlink dir name).bind fun T' => T'.write dir' name' bytes
  | .mkdir dir name => T.mkdir dir name
  | .rmdir dir name => T.rmdir dir name
  | .renameDir dir name dir' name' =>
    (T.takeDir dir name).bind fun T' => T'.bringDir dir' name' (T.subtree (dir ++ [name]))
  | .bringDir dir name S => T.bringDir dir name S
  | .takeDir dir name => T.takeDir dir name

namespace FileTree

/-! ## What the changes do -/

variable {T T' : FileTree} {p : Path} {name : String}

theorem write_at? {bytes : List UInt8} (h : T.write p name bytes = some T') (r : Path) :
    T'.at? r = if r = p ++ [name] then some (.file bytes) else T.at? r := by
  unfold write at h
  split at h
  · cases h
    exact nodeAt_set (append_singleton_ne_nil p name) _ r
  · cases h

theorem unlink_at? (h : T.unlink p name = some T') (r : Path) :
    T'.at? r = if r = p ++ [name] then none else T.at? r := by
  unfold unlink at h
  split at h
  · cases h
    exact nodeAt_erase (append_singleton_ne_nil p name) r
  · cases h

theorem mkdir_at? (h : T.mkdir p name = some T') (r : Path) :
    T'.at? r = if r = p ++ [name] then some .dir else T.at? r := by
  unfold mkdir at h
  split at h
  · cases h
    exact nodeAt_set (append_singleton_ne_nil p name) _ r
  · cases h

theorem rmdir_at? (h : T.rmdir p name = some T') (r : Path) :
    T'.at? r = if r = p ++ [name] then none else T.at? r := by
  unfold rmdir at h
  split at h
  · cases h
    exact nodeAt_erase (append_singleton_ne_nil p name) r
  · cases h

theorem file?_eq_none_of_at? (h : T.at? p = none) : T.file? p = none := by
  rw [file?, h]

theorem at?_ne_none_of_file? (h : T.file? p ≠ none) : T.at? p ≠ none := fun hnone => h (file?_eq_none_of_at? hnone)

/-- What is in the tree is in a directory of it. -/
theorem at?_parent {n : Node} (h : T.at? (p ++ [name]) = some n) : T.at? p = some .dir :=
  T.closed p name (by rw [show nodeAt T.nodes (p ++ [name]) = T.at? (p ++ [name]) from rfl, h]; nofun)

end FileTree

/-! ## Changes of files -/

/-- The file that the change makes, writes or moves something to. -/
def Change.target : Change → Option Path
  | .write dir name _ => some (dir ++ [name])
  | .rename _ _ dir' name' => some (dir' ++ [name'])
  | _ => none

/-- The file that the change deletes or moves away. -/
def Change.source : Change → Option Path
  | .unlink dir name | .rename dir name _ _ => some (dir ++ [name])
  | _ => none

/-- The change is one of a directory. -/
def Change.ofDirectory : Change → Bool
  | .write .. | .unlink .. | .rename .. => false
  | .mkdir .. | .rmdir .. | .renameDir .. | .bringDir .. | .takeDir .. => true

/-- The directories that the change makes, removes or moves, by where they are before and after. -/
def Change.directories : Change → List Path
  | .write .. | .unlink .. | .rename .. => []
  | .mkdir dir name | .rmdir dir name | .bringDir dir name _ | .takeDir dir name => [dir ++ [name]]
  | .renameDir dir name dir' name' => [dir ++ [name], dir' ++ [name']]

/-- What a change of a file does. -/
structure FileTree.Moves (T T' : FileTree) (source target : Option Path) : Prop where
  elsewhere : ∀ r, r ∉ source → r ∉ target → T'.at? r = T.at? r
  arrives : ∀ q ∈ target, T'.file? q ≠ none
  leaves : ∀ q ∈ source, q ∉ target → T'.at? q = none

theorem FileTree.moves_of_apply {T T' : FileTree} {c : Change} (h : T.apply c = some T') (hfile : c.ofDirectory = false) :
    T.Moves T' c.source c.target := by
  have hwrite : ∀ {T T' : FileTree} {dir : Path} {name : String} {bytes : List UInt8}, T.write dir name bytes = some T' →
      ∀ q ∈ some (dir ++ [name]), T'.file? q ≠ none := by
    rintro T T' dir name bytes h q hq
    cases hq
    rw [file?, write_at? h, if_pos rfl]
    nofun
  cases c with
  | write dir name bytes =>
    refine ⟨fun r _ hr => ?_, hwrite h, nofun⟩
    rw [write_at? h, if_neg]
    rintro rfl
    exact hr rfl
  | unlink dir name =>
    refine ⟨fun r hr _ => ?_, nofun, fun q hq _ => ?_⟩
    · rw [unlink_at? h, if_neg]
      rintro rfl
      exact hr rfl
    · cases hq
      rw [unlink_at? h, if_pos rfl]
  | rename dir name dir' name' =>
    obtain ⟨bytes, -, h⟩ := Option.bind_eq_some_iff.1 h
    obtain ⟨T₁, hunlink, h⟩ := Option.bind_eq_some_iff.1 h
    refine ⟨fun r hr hr' => ?_, hwrite h, fun q hq hq' => ?_⟩
    · rw [write_at? h, if_neg fun heq => hr' (by rw [heq]; rfl), unlink_at? hunlink, if_neg fun heq => hr (by rw [heq]; rfl)]
    · cases hq
      rw [write_at? h, if_neg fun heq => hq' (by rw [heq]; rfl), unlink_at? hunlink, if_pos rfl]
  | mkdir | rmdir | renameDir | bringDir | takeDir => cases hfile

/-- A change of directories touches only what is in them. -/
theorem FileTree.at?_of_directories {T T' : FileTree} {c : Change} (h : T.apply c = some T') (hdir : c.ofDirectory = true)
    {r : Path} (hr : ∀ d ∈ c.directories, ¬ d <+: r) : T'.at? r = T.at? r := by
  have htake : ∀ {T T' : FileTree} {dir : Path} {name : String}, T.takeDir dir name = some T' → ¬ dir ++ [name] <+: r →
      T'.at? r = T.at? r := by
    intro T T' dir name h hr
    unfold takeDir at h
    split at h
    · cases h
      exact (nodeAt_pruned (append_singleton_ne_nil dir name) r).trans (if_neg hr)
    · cases h
  have hbring : ∀ {T T' S : FileTree} {dir : Path} {name : String}, T.bringDir dir name S = some T' →
      ¬ dir ++ [name] <+: r → T'.at? r = T.at? r := by
    intro T T' S dir name h hr
    unfold bringDir at h
    split at h
    · cases h
      exact (nodeAt_grafted (append_singleton_ne_nil dir name) r).trans (if_neg hr)
    · cases h
  cases c with
  | mkdir dir name =>
    rw [mkdir_at? h, if_neg]
    rintro rfl
    exact hr _ (List.mem_singleton_self _) (List.prefix_refl _)
  | rmdir dir name =>
    rw [rmdir_at? h, if_neg]
    rintro rfl
    exact hr _ (List.mem_singleton_self _) (List.prefix_refl _)
  | renameDir dir name dir' name' =>
    obtain ⟨T₁, htaken, hbrought⟩ := Option.bind_eq_some_iff.1 h
    rw [hbring hbrought (hr _ (List.mem_cons_of_mem _ (List.mem_singleton_self _))), htake htaken (hr _ (List.mem_cons_self ..))]
  | bringDir dir name S => exact hbring h (hr _ (List.mem_singleton_self _))
  | takeDir dir name => exact htake h (hr _ (List.mem_singleton_self _))
  | write | unlink | rename => cases hdir

end Lib
