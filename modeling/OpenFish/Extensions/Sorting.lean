/-
The start-up order of extensions (`extensions/__init__.py`): Kahn's algorithm gives every extension after its dependencies,
or there is no such order.
-/
import OpenFish.Lib.Dict
import OpenFish.Lib.Kahn

namespace OpenFish.Extensions

open Lib

structure Extension where
  name : String
  dependencies : List String
  deriving DecidableEq, Repr

/-- The two ways in which `_topological_sort` raises `ValueError`. -/
inductive SortError
  | unknown (name dep : String)
  | cycle (names : List String)
  deriving DecidableEq, Repr

/-- `in_degree` and `adj`. -/
structure Graph where
  inDegree : Dict String Int
  adj : Dict String (List String)

/-- `adj[dep].append(e.name)` and `in_degree[e.name] += 1`. -/
def Graph.withEdge (g : Graph) (edge : Extension × String) : Graph where
  inDegree := g.inDegree.set edge.1.name ((g.inDegree.get? edge.1.name).getD 0 + 1)
  adj := g.adj.set edge.2 ((g.adj.get? edge.2).getD [] ++ [edge.1.name])

/-- The loop over the dependencies of an extension. -/
def addEdges (byName : Dict String Extension) (g : Graph) (e : Extension) : Except SortError Graph :=
  e.dependencies.foldlM
    (fun g dep => if byName.has dep then .ok (g.withEdge (e, dep)) else .error (.unknown e.name dep)) g

/-- One neighbour of a finished extension has a dependency less, and is queued if that was the last one. -/
def release (s : Dict String Int × List String) (neighbor : String) : Dict String Int × List String :=
  let degree := (s.1.get? neighbor).getD 0 - 1
  (s.1.set neighbor degree, if degree = 0 then s.2 ++ [neighbor] else s.2)

structure Progress where
  inDegree : Dict String Int
  queue : List String
  result : List Extension

/-- The loop over the queue, for as many turns as `fuel` at most. -/
def drain (byName : Dict String Extension) (adj : Dict String (List String)) : Nat → Progress → Progress
  | 0, p => p
  | fuel + 1, p =>
    match p.queue with
    | [] => p
    | name :: queue =>
      let released := ((adj.get? name).getD []).foldl release (p.inDegree, queue)
      drain byName adj fuel
        { inDegree := released.1, queue := released.2, result := p.result ++ (byName.get? name).toList }

/-- `by_name`. -/
def byName (extensions : List Extension) : Dict String Extension :=
  Dict.empty.update (extensions.map fun e => (e.name, e))

/-- `in_degree` and `adj` before the first edge. -/
def noEdges (extensions : List Extension) : Graph where
  inDegree := Dict.empty.update (extensions.map fun e => (e.name, 0))
  adj := Dict.empty.update (extensions.map fun e => (e.name, []))

/-- The names that wait for nothing. -/
def ready (inDegree : Dict String Int) : List String := (inDegree.entries.filter fun d => d.2 = 0).map Prod.fst

/-- What is returned or raised after the loop. -/
def conclude (extensions : List Extension) (done : Progress) : Except SortError (List Extension) :=
  if done.result.length ≠ extensions.length then
    .error (.cycle ((done.inDegree.entries.filter fun d => 0 < d.2).map Prod.fst))
  else .ok done.result

/-- `_topological_sort`. No name is queued twice, so there are no more turns than extensions. -/
def topologicalSort (extensions : List Extension) : Except SortError (List Extension) :=
  match extensions.foldlM (addEdges (byName extensions)) (noEdges extensions) with
  | .error e => .error e
  | .ok g =>
    conclude extensions
      (drain (byName extensions) g.adj extensions.length { inDegree := g.inDegree, queue := ready g.inDegree, result := [] })

/-! ## What the order should be -/

/-- Every extension comes after all its dependencies. -/
def Ordered (order : List Extension) : Prop :=
  ∀ before e after, order = before ++ e :: after → ∀ dep ∈ e.dependencies, dep ∈ before.map (·.name)

/-- The extension with the first name depends on the second one. -/
def DependsOn (extensions : List Extension) (name dep : String) : Prop :=
  ∃ e ∈ extensions, e.name = name ∧ dep ∈ e.dependencies

/-! ## The graph -/

/-- The in-degree of a name. -/
def Graph.degree (inDegree : Dict String Int) (name : String) : Int := (inDegree.get? name).getD 0

/-- The neighbours of a name. -/
def Graph.neighbors (g : Graph) (name : String) : List String := (g.adj.get? name).getD []

/-- The dependencies, with the extension that has them. -/
def edges (extensions : List Extension) : List (Extension × String) :=
  extensions.flatMap fun e => e.dependencies.map fun dep => (e, dep)

theorem addEdges_eq {byName : Dict String Extension} (e : Extension) : ∀ (deps : List String) (g : Graph),
    (∀ dep ∈ deps, byName.has dep = true) →
    deps.foldlM (fun g dep => if byName.has dep then .ok (g.withEdge (e, dep)) else .error (.unknown e.name dep)) g =
      (.ok ((deps.map fun dep => (e, dep)).foldl Graph.withEdge g) : Except SortError Graph)
  | [], _, _ => rfl
  | dep :: deps, g, h => by
    have hdep : byName.has dep = true := h dep (List.mem_cons_self ..)
    rw [List.foldlM_cons, if_pos hdep]
    exact addEdges_eq e deps _ fun dep' hdep' => h dep' (List.mem_cons_of_mem _ hdep')

theorem addEdges_error {byName : Dict String Extension} (e : Extension) : ∀ (deps : List String) (g : Graph),
    (∃ dep ∈ deps, byName.has dep = false) →
    ∃ err, deps.foldlM (fun g dep => if byName.has dep then .ok (g.withEdge (e, dep)) else .error (.unknown e.name dep)) g =
      (.error err : Except SortError Graph)
  | [], _, ⟨_, hdep, _⟩ => absurd hdep List.not_mem_nil
  | dep :: deps, g, ⟨dep', hmem, hmissing⟩ => by
    rw [List.foldlM_cons]
    by_cases hdep : byName.has dep = true
    · rw [if_pos hdep]
      refine addEdges_error e deps _ ⟨dep', ?_, hmissing⟩
      rcases List.mem_cons.1 hmem with rfl | hmem
      · rw [hdep] at hmissing; cases hmissing
      · exact hmem
    · rw [if_neg hdep]
      exact ⟨_, rfl⟩

/-- Where all dependencies are known, the graph has all edges. -/
theorem foldlM_addEdges {byName : Dict String Extension} : ∀ (extensions : List Extension) (g : Graph),
    (∀ e ∈ extensions, ∀ dep ∈ e.dependencies, byName.has dep = true) →
    extensions.foldlM (addEdges byName) g = .ok ((edges extensions).foldl Graph.withEdge g)
  | [], _, _ => rfl
  | e :: extensions, g, h => by
    have hfirst : addEdges byName g e = .ok ((e.dependencies.map fun dep => (e, dep)).foldl Graph.withEdge g) :=
      addEdges_eq e e.dependencies g (h e (List.mem_cons_self ..))
    rw [List.foldlM_cons, hfirst, edges, List.flatMap_cons, List.foldl_append]
    exact foldlM_addEdges extensions _ fun e' he' => h e' (List.mem_cons_of_mem _ he')

theorem foldlM_addEdges_error {byName : Dict String Extension} : ∀ (extensions : List Extension) (g : Graph),
    (∃ e ∈ extensions, ∃ dep ∈ e.dependencies, byName.has dep = false) →
    ∃ err, extensions.foldlM (addEdges byName) g = .error err
  | [], _, ⟨_, he, _⟩ => absurd he List.not_mem_nil
  | e :: extensions, g, ⟨e', hmem, dep, hdep, hmissing⟩ => by
    rw [List.foldlM_cons]
    by_cases hknown : ∀ dep ∈ e.dependencies, byName.has dep = true
    · have hfirst : addEdges byName g e = .ok ((e.dependencies.map fun dep => (e, dep)).foldl Graph.withEdge g) :=
        addEdges_eq e e.dependencies g hknown
      rw [hfirst]
      refine foldlM_addEdges_error extensions _ ⟨e', ?_, dep, hdep, hmissing⟩
      rcases List.mem_cons.1 hmem with rfl | hmem
      · rw [hknown dep hdep] at hmissing; cases hmissing
      · exact hmem
    · push Not at hknown
      obtain ⟨dep', hdep', hmissing'⟩ := hknown
      obtain ⟨err, herr⟩ := addEdges_error e e.dependencies g ⟨dep', hdep', Bool.eq_false_iff.2 hmissing'⟩
      have hfirst : addEdges byName g e = .error err := herr
      rw [hfirst]
      exact ⟨err, rfl⟩

theorem degree_foldl : ∀ (es : List (Extension × String)) (g : Graph) (name : String),
    Graph.degree (es.foldl Graph.withEdge g).inDegree name =
      Graph.degree g.inDegree name + ((es.map fun edge => edge.1.name).count name : Int)
  | [], g, name => by simp
  | edge :: es, g, name => by
    rw [List.foldl_cons, degree_foldl es, List.map_cons, List.count_cons]
    simp only [Graph.degree, Graph.withEdge, Dict.get?_set]
    by_cases hname : name = edge.1.name
    · rw [if_pos hname, Option.getD_some, if_pos (beq_iff_eq.2 hname.symm), hname]
      push_cast
      omega
    · rw [if_neg hname, if_neg fun h => hname (beq_iff_eq.1 h).symm]
      rfl

theorem has_foldl : ∀ (es : List (Extension × String)) (g : Graph) (name : String),
    (es.foldl Graph.withEdge g).inDegree.has name = true ↔
      name ∈ es.map (fun edge => edge.1.name) ∨ g.inDegree.has name = true
  | [], g, name => by simp
  | edge :: es, g, name => by
    rw [List.foldl_cons, has_foldl es, Graph.withEdge, Dict.has_set, List.map_cons, List.mem_cons]
    tauto

theorem neighbors_foldl : ∀ (es : List (Extension × String)) (g : Graph) (name : String),
    (es.foldl Graph.withEdge g).neighbors name =
      g.neighbors name ++ (es.filter fun edge => edge.2 = name).map fun edge => edge.1.name
  | [], g, name => by simp
  | edge :: es, g, name => by
    rw [List.foldl_cons, neighbors_foldl es]
    simp only [Graph.neighbors, Graph.withEdge, Dict.get?_set]
    by_cases hname : name = edge.2
    · rw [if_pos hname, Option.getD_some, List.filter_cons_of_pos (by simpa using hname.symm), List.map_cons, hname,
        List.append_assoc, List.singleton_append]
    · rw [if_neg hname, List.filter_cons_of_neg (by simpa using fun h => hname h.symm)]

/-! ## Counting the edges -/

/-- The dependencies of the extension of a name. -/
def dependenciesOf (extensions : List Extension) (name : String) : List String :=
  ((extensions.find? fun e => e.name = name).map Extension.dependencies).getD []

section Unique

variable {extensions : List Extension}

theorem dependenciesOf_name (hnames : (extensions.map (·.name)).Nodup) {e : Extension} (he : e ∈ extensions) :
    dependenciesOf extensions e.name = e.dependencies := by
  unfold dependenciesOf
  cases hfind : extensions.find? fun e' => e'.name = e.name with
  | none => exact absurd rfl (of_decide_eq_false (Bool.eq_false_iff.2 (List.find?_eq_none.1 hfind e he)))
  | some e' =>
    have hname : e'.name = e.name := by simpa using List.find?_some hfind
    rw [List.inj_on_of_nodup_map hnames (List.mem_of_find?_eq_some hfind) he hname]
    rfl

/-- The edges out of an extension are its dependencies, in their order. -/
theorem edges_of_name : ∀ {extensions : List Extension}, (extensions.map (·.name)).Nodup → ∀ name : String,
    ((edges extensions).filter fun edge => edge.1.name = name).map Prod.snd = dependenciesOf extensions name
  | [], _, _ => rfl
  | e :: extensions, hnames, name => by
    obtain ⟨hfresh, hnames⟩ := List.nodup_cons.1 hnames
    have ih := edges_of_name hnames name
    unfold edges dependenciesOf at ih ⊢
    rw [List.flatMap_cons, List.filter_append, List.map_append, List.filter_map]
    by_cases hname : e.name = name
    · have hrest : (extensions.find? fun e' => e'.name = name) = none := by
        rw [List.find?_eq_none]
        intro e' he' heq
        exact hfresh (List.mem_map.2 ⟨e', he', (of_decide_eq_true heq).trans hname.symm⟩)
      rw [hrest] at ih
      rw [ih, List.find?_cons_of_pos (by simpa using hname)]
      simp [Function.comp_def, hname]
    · rw [ih, List.find?_cons_of_neg (by simpa using hname)]
      simp [Function.comp_def, hname]

theorem degree_edges (hnames : (extensions.map (·.name)).Nodup) (name : String) :
    ((edges extensions).map fun edge => edge.1.name).count name = (dependenciesOf extensions name).length := by
  rw [← edges_of_name hnames, List.length_map, List.count_eq_countP, List.countP_map, List.countP_eq_length_filter]
  exact congrArg List.length (List.filter_congr fun edge _ => Bool.eq_iff_iff.2 (by simp))

theorem neighbors_edges (hnames : (extensions.map (·.name)).Nodup) (dep name : String) :
    (((edges extensions).filter fun edge => edge.2 = dep).map fun edge => edge.1.name).count name =
      (dependenciesOf extensions name).count dep := by
  rw [← edges_of_name hnames, List.count_eq_countP, List.count_eq_countP, List.countP_map, List.countP_map,
    List.countP_filter, List.countP_filter]
  exact List.countP_congr fun edge _ => by simp [and_comm]

end Unique

/-! ## The loop over the queue -/

/-- Releasing a neighbour in the dictionary is releasing it in the counters. -/
theorem foldl_release_degree : ∀ (xs : List String) (inDegree : Dict String Int) (queue : List String),
    (Graph.degree (xs.foldl release (inDegree, queue)).1, (xs.foldl release (inDegree, queue)).2) =
      xs.foldl Kahn.release (Graph.degree inDegree, queue)
  | [], _, _ => rfl
  | x :: xs, inDegree, queue => by
    rw [List.foldl_cons, List.foldl_cons, release, Kahn.release, foldl_release_degree xs]
    congr 2
    funext y
    rw [Graph.degree, Dict.get?_set, Function.update_apply]
    split <;> rfl

/-- The loop ends with an empty queue, whatever is left. -/
theorem drain_spec {extensions : List Extension} {byName : Dict String Extension} {adj : Dict String (List String)}
    (hby : ∀ name ∈ extensions.map (·.name), ∃ e ∈ extensions, byName.get? name = some e ∧ e.name = name)
    (hadj : Kahn.Neighbors (extensions.map (·.name)) (dependenciesOf extensions) fun name => (adj.get? name).getD []) :
    ∀ (fuel : Nat) (p : Progress),
      Kahn.Inv (extensions.map (·.name)) (dependenciesOf extensions) (Graph.degree p.inDegree) p.queue
        (p.result.map (·.name)) →
      (∀ e ∈ p.result, e ∈ extensions) → extensions.length ≤ p.result.length + fuel →
      Kahn.Inv (extensions.map (·.name)) (dependenciesOf extensions) (Graph.degree (drain byName adj fuel p).inDegree) []
        ((drain byName adj fuel p).result.map (·.name)) ∧ ∀ e ∈ (drain byName adj fuel p).result, e ∈ extensions
  | 0, p, hinv, hmem, hfuel => by
    have hle := hinv.length_le
    rw [List.length_map, List.length_map] at hle
    have hqueue : p.queue = [] := List.length_eq_zero_iff.1 (by omega)
    rw [hqueue] at hinv
    exact ⟨hinv, hmem⟩
  | fuel + 1, p, hinv, hmem, hfuel => by
    unfold drain
    cases hqueue : p.queue with
    | nil =>
      rw [hqueue] at hinv
      exact ⟨hinv, hmem⟩
    | cons name queue =>
      rw [hqueue] at hinv
      obtain ⟨e, he, hget, hname⟩ := hby name
        (hinv.known name (List.mem_append_right _ (List.mem_cons_self ..)))
      have hnext := hinv.next hadj
      rw [← foldl_release_degree] at hnext
      refine drain_spec hby hadj fuel _ ?_ ?_ ?_
      · rw [hget, Option.toList_some, List.map_append, List.map_singleton, hname]
        exact hnext
      · intro e' he'
        rw [hget, Option.toList_some, List.mem_append, List.mem_singleton] at he'
        rcases he' with he' | rfl
        · exact hmem e' he'
        · exact he
      · rw [hget, Option.toList_some, List.length_append, List.length_singleton]
        omega

/-! ## The order -/

theorem get?_update_unique {ν : Type} {entries : List (String × ν)} (hnodup : (entries.map Prod.fst).Nodup) {k : String}
    {v : ν} : (Dict.empty.update entries).get? k = some v ↔ (k, v) ∈ entries := by
  have hreverse : (entries.reverse.map Prod.fst).Nodup := by
    rw [List.map_reverse, List.nodup_reverse]
    exact hnodup
  have hfind : (entries.reverse.find? fun e => e.1 = k).map Prod.snd = some v ↔ (k, v) ∈ entries.reverse :=
    Dict.get?_eq_some (d := ⟨entries.reverse, hreverse⟩)
  rw [Dict.get?_update, Dict.get?_empty, Option.or_none, hfind, List.mem_reverse]

section Order

variable {extensions : List Extension}

theorem byName_has (dep : String) : (byName extensions).has dep = true ↔ dep ∈ extensions.map (·.name) := by
  rw [byName, Dict.has_update, List.map_map]
  simp [Function.comp_def, Dict.has, Dict.get?_empty]

theorem get?_byName (hnames : (extensions.map (·.name)).Nodup) {e : Extension} (he : e ∈ extensions) :
    (byName extensions).get? e.name = some e := by
  refine (get?_update_unique ?_).2 (List.mem_map.2 ⟨e, he, rfl⟩)
  rw [List.map_map]
  exact hnames

/-- A dictionary that has the same value under every name. -/
theorem getD_update_const {ν : Type} (hnames : (extensions.map (·.name)).Nodup) (v : ν) (name : String) :
    ((Dict.empty.update (extensions.map fun e => (e.name, v))).get? name).getD v = v := by
  cases hget : (Dict.empty.update (extensions.map fun e => (e.name, v))).get? name with
  | none => rfl
  | some v' =>
    rw [get?_update_unique (by rw [List.map_map]; exact hnames)] at hget
    obtain ⟨e, -, heq⟩ := List.mem_map.1 hget
    exact (congrArg Prod.snd heq).symm

/-- The graph with all its edges. -/
def graphOf (extensions : List Extension) : Graph := (edges extensions).foldl Graph.withEdge (noEdges extensions)

theorem graphOf_degree (hnames : (extensions.map (·.name)).Nodup) (name : String) :
    Graph.degree (graphOf extensions).inDegree name = (dependenciesOf extensions name).length := by
  rw [graphOf, degree_foldl, degree_edges hnames, Graph.degree, noEdges, getD_update_const hnames, Int.zero_add]

theorem graphOf_has (name : String) :
    (graphOf extensions).inDegree.has name = true ↔ name ∈ extensions.map (·.name) := by
  have hsource : name ∈ (edges extensions).map (fun edge => edge.1.name) → name ∈ extensions.map (·.name) := by
    intro h
    obtain ⟨edge, hedge, rfl⟩ := List.mem_map.1 h
    obtain ⟨e, he, hedge⟩ := List.mem_flatMap.1 hedge
    obtain ⟨d, -, rfl⟩ := List.mem_map.1 hedge
    exact List.mem_map.2 ⟨e, he, rfl⟩
  rw [graphOf, has_foldl, noEdges, Dict.has_update, List.map_map]
  constructor
  · rintro (h | h | h)
    · exact hsource h
    · exact h
    · simp [Dict.has, Dict.get?_empty] at h
  · exact fun h => Or.inr (Or.inl h)

theorem graphOf_neighbors (hnames : (extensions.map (·.name)).Nodup) :
    Kahn.Neighbors (extensions.map (·.name)) (dependenciesOf extensions) (graphOf extensions).neighbors where
  known dep name hname := by
    rw [graphOf, neighbors_foldl, Graph.neighbors, noEdges, getD_update_const hnames, List.nil_append] at hname
    obtain ⟨edge, hedge, rfl⟩ := List.mem_map.1 hname
    obtain ⟨e, he, hedge⟩ := List.mem_flatMap.1 (List.mem_filter.1 hedge).1
    obtain ⟨d, -, rfl⟩ := List.mem_map.1 hedge
    exact List.mem_map.2 ⟨e, he, rfl⟩
  count dep name _ := by
    rw [graphOf, neighbors_foldl, Graph.neighbors, noEdges, getD_update_const hnames, List.nil_append,
      neighbors_edges hnames]

theorem mem_ready {inDegree : Dict String Int} {name : String} :
    name ∈ ready inDegree ↔ inDegree.has name = true ∧ Graph.degree inDegree name = 0 := by
  have hentry : name ∈ ready inDegree ↔ (name, 0) ∈ inDegree.entries := by
    unfold ready
    simp
  rw [hentry, ← Dict.get?_eq_some, Dict.has, Graph.degree]
  cases inDegree.get? name <;> simp

/-- Where a dependency is missing, that is raised. -/
theorem topologicalSort_unknown (h : ∃ e ∈ extensions, ∃ dep ∈ e.dependencies, dep ∉ extensions.map (·.name)) :
    ∃ err, topologicalSort extensions = .error err := by
  obtain ⟨e, he, dep, hdep, hmissing⟩ := h
  rw [← byName_has, Bool.not_eq_true] at hmissing
  obtain ⟨err, herr⟩ := foldlM_addEdges_error extensions (noEdges extensions) ⟨e, he, dep, hdep, hmissing⟩
  exact ⟨err, by rw [topologicalSort, herr]⟩

/-- Where all dependencies are there, the loop ends with the invariant and an empty queue. -/
theorem topologicalSort_known (hnames : (extensions.map (·.name)).Nodup)
    (hknown : ∀ e ∈ extensions, ∀ dep ∈ e.dependencies, dep ∈ extensions.map (·.name)) :
    ∃ done : Progress, topologicalSort extensions = conclude extensions done ∧
      Kahn.Inv (extensions.map (·.name)) (dependenciesOf extensions) (Graph.degree done.inDegree) []
        (done.result.map (·.name)) ∧
      ∀ e ∈ done.result, e ∈ extensions := by
  have hedges : extensions.foldlM (addEdges (byName extensions)) (noEdges extensions) = .ok (graphOf extensions) :=
    foldlM_addEdges extensions _ fun e he dep hdep => (byName_has dep).2 (hknown e he dep hdep)
  have hby : ∀ name ∈ extensions.map (·.name), ∃ e ∈ extensions, (byName extensions).get? name = some e ∧ e.name = name := by
    intro name hname
    obtain ⟨e, he, rfl⟩ := List.mem_map.1 hname
    exact ⟨e, he, get?_byName hnames he, rfl⟩
  have hstart : Kahn.Inv (extensions.map (·.name)) (dependenciesOf extensions)
      (Graph.degree (graphOf extensions).inDegree) (ready (graphOf extensions).inDegree) [] := by
    refine Kahn.Inv.start ?_ (fun name => ?_) fun name _ => graphOf_degree hnames name
    · exact (graphOf extensions).inDegree.nodup.sublist (List.filter_sublist.map _)
    · rw [mem_ready, graphOf_has]
  refine ⟨_, by rw [topologicalSort, hedges], ?_⟩
  refine drain_spec hby (graphOf_neighbors hnames) _ _ hstart ?_ ?_
  · exact fun e he => absurd he List.not_mem_nil
  · exact Nat.le_add_left ..

theorem conclude_ok {done : Progress} {order : List Extension} :
    conclude extensions done = .ok order ↔ done.result.length = extensions.length ∧ done.result = order := by
  unfold conclude
  split <;> simp_all

theorem dependsOn_iff (hnames : (extensions.map (·.name)).Nodup) {name dep : String} :
    DependsOn extensions name dep ↔ name ∈ extensions.map (·.name) ∧ dep ∈ dependenciesOf extensions name := by
  constructor
  · rintro ⟨e, he, rfl, hdep⟩
    exact ⟨List.mem_map.2 ⟨e, he, rfl⟩, by rwa [dependenciesOf_name hnames he]⟩
  · rintro ⟨hname, hdep⟩
    obtain ⟨e, he, rfl⟩ := List.mem_map.1 hname
    exact ⟨e, he, rfl, by rwa [dependenciesOf_name hnames he] at hdep⟩

/-- An order of the names is one of the extensions. -/
theorem ordered_of_names (hnames : (extensions.map (·.name)).Nodup) {order : List Extension}
    (hmem : ∀ e ∈ order, e ∈ extensions) (h : Kahn.Ordered (dependenciesOf extensions) (order.map (·.name))) :
    Ordered order := by
  rintro before e after rfl dep hdep
  have he : e ∈ extensions := hmem e (List.mem_append_right _ (List.mem_cons_self ..))
  rw [← dependenciesOf_name hnames he] at hdep
  exact h (before.map (·.name)) e.name (after.map (·.name)) (by simp) dep hdep

/-- The extensions come in an order in which each is after all its dependencies, or `ValueError` is raised; and it is raised
exactly where a dependency names no extension or the dependencies have a cycle. -/
theorem topologicalSort_spec (extensions : List Extension) (hnames : (extensions.map (·.name)).Nodup) :
    (∀ order, topologicalSort extensions = .ok order → order.Perm extensions ∧ Ordered order) ∧
      ((∃ err, topologicalSort extensions = .error err) ↔
        (∃ e ∈ extensions, ∃ dep ∈ e.dependencies, dep ∉ extensions.map (·.name)) ∨
          ∃ name, Relation.TransGen (DependsOn extensions) name name) := by
  by_cases hknown : ∃ e ∈ extensions, ∃ dep ∈ e.dependencies, dep ∉ extensions.map (·.name)
  · obtain ⟨err, herr⟩ := topologicalSort_unknown hknown
    refine ⟨fun order horder => ?_, fun _ => Or.inl hknown, fun _ => ⟨err, herr⟩⟩
    rw [herr] at horder
    cases horder
  · have hall : ∀ e ∈ extensions, ∀ dep ∈ e.dependencies, dep ∈ extensions.map (·.name) := by
      push Not at hknown
      exact hknown
    obtain ⟨done, hsort, hinv, hmem⟩ := topologicalSort_known hnames hall
    have hperm : done.result.length = extensions.length → done.result.Perm extensions := by
      intro hlength
      have hnodup : (done.result.map (·.name)).Nodup := by simpa using hinv.nodup
      exact (List.subperm_of_subset hnodup.of_map hmem).perm_of_length_le (Nat.le_of_eq hlength.symm)
    rw [hsort]
    refine ⟨?_, ?_, ?_⟩
    · intro order horder
      obtain ⟨hlength, rfl⟩ := conclude_ok.1 horder
      exact ⟨hperm hlength, ordered_of_names hnames hmem hinv.ordered⟩
    · rintro ⟨err, herr⟩
      have hlength : ¬ done.result.length = extensions.length := by
        intro hlength
        rw [conclude_ok.2 ⟨hlength, rfl⟩] at herr
        cases herr
      obtain ⟨name, hcycle⟩ := hinv.complete
        (fun name hname dep hdep => by
          obtain ⟨e, he, -, hdep⟩ := (dependsOn_iff hnames).2 ⟨hname, hdep⟩
          exact hall e he dep hdep)
        (by simpa using hlength) hnames
      exact Or.inr ⟨name, hcycle.lift id fun _ _ hxd => (dependsOn_iff hnames).2 hxd⟩
    · rintro (h | ⟨name, hcycle⟩)
      · exact absurd h hknown
      · -- a cycle has no order, so the result is too short
        cases hconclude : conclude extensions done with
        | error err => exact ⟨err, rfl⟩
        | ok order =>
          obtain ⟨hlength, -⟩ := conclude_ok.1 hconclude
          refine absurd hcycle (hinv.ordered.acyclic (fun x d hxd => ?_) name)
          obtain ⟨hx, hd⟩ := (dependsOn_iff hnames).1 hxd
          exact ⟨((hperm hlength).map _).mem_iff.2 hx, hd⟩

theorem topologicalSort_spec_pair :
    (∃ order, topologicalSort [⟨"routes", ["db", "db"]⟩, ⟨"db", []⟩] = .ok order ∧
        order.Perm [⟨"routes", ["db", "db"]⟩, ⟨"db", []⟩] ∧ Ordered order) ∧
      ∃ err, topologicalSort [⟨"db", ["db"]⟩] = .error err := by
  constructor
  · have hsort : topologicalSort [⟨"routes", ["db", "db"]⟩, ⟨"db", []⟩] =
        .ok [⟨"db", []⟩, ⟨"routes", ["db", "db"]⟩] := by decide +kernel
    exact ⟨_, hsort, (topologicalSort_spec _ (by decide)).1 _ hsort⟩
  · refine (topologicalSort_spec [⟨"db", ["db"]⟩] (by decide)).2.2 (Or.inr ⟨"db", .single ?_⟩)
    exact ⟨_, List.mem_singleton.2 rfl, rfl, List.mem_singleton.2 rfl⟩

end Order

end OpenFish.Extensions
