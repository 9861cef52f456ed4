import CodeAtlas.Proofs.Dependency.Answers
import CodeAtlas.Proofs.Dependency.IndexedGraph

/-! What a graph with indices answers. What is found by an index is what the graph of paths finds by
the path, so its answers are those of the history of edits, and the indices show nowhere but in the
order of the nodes. -/

namespace CodeAtlas.Dependency.IndexedGraph

variable {g : IndexedGraph} {path p a b : String} {i : Nat} {n : FileNode} {d : Direction}

section Neighbors

theorem dedup_eq_self {ns : List FileNode} {last : Option String}
    (h : (ns.map FileNode.path).Nodup) (hlast : ∀ q ∈ last, q ∉ ns.map FileNode.path) :
    dedup last ns = ns := by
  induction ns generalizing last with
  | nil => rfl
  | cons n ns ih =>
    obtain ⟨hn, hns⟩ := List.nodup_cons.mp h
    have hne : ¬last = some n.path := fun heq => hlast n.path heq List.mem_cons_self
    rw [dedup, if_neg hne, ih hns]
    rintro q hq
    rwa [← Option.some.inj hq]

theorem WellFormed.near_lt (h : g.WellFormed) {l : Link} (hl : l ∈ g.links) :
    l.near d < g.nodes.size := by
  cases d with
  | outgoing => exact (h.ends l hl).1
  | incoming => exact (h.ends l hl).2

theorem WellFormed.far_lt (h : g.WellFormed) {l : Link} (hl : l ∈ g.links) :
    l.far d < g.nodes.size := by
  cases d with
  | outgoing => exact (h.ends l hl).2
  | incoming => exact (h.ends l hl).1

/-- The paths at the far ends of the links of a node, as often as there are links. -/
def farPaths (g : IndexedGraph) (path : String) (d : Direction) : List String :=
  (g.links.toList.filter fun l => g.pathAt (l.near d) == path).map fun l => g.pathAt (l.far d)

theorem sortPaths_farPaths_outgoing :
    Graph.sortPaths (g.farPaths path .outgoing) = g.toGraph.dependencies path := by
  rw [Graph.dependencies, toGraph, List.filter_map, List.map_map]
  rfl

theorem sortPaths_farPaths_incoming :
    Graph.sortPaths (g.farPaths path .incoming) = g.toGraph.dependents path := by
  rw [Graph.dependents, toGraph, List.filter_map, List.map_map]
  rfl

theorem map_path_filterMap_far (h : g.WellFormed) {ls : List Link} (hls : ∀ l ∈ ls, l ∈ g.links) :
    (ls.filterMap fun l => g.nodes[l.far d]?).map FileNode.path =
      ls.map fun l => g.pathAt (l.far d) := by
  rw [List.map_filterMap, ← List.filterMap_eq_map]
  refine List.filterMap_congr fun l hl => ?_
  have hlt : l.far d < g.nodes.size := h.far_lt (hls l hl)
  rw [Function.comp_apply, pathAt, Array.getElem?_eq_getElem hlt]
  rfl

theorem farPaths_of_index? (h : g.WellFormed) (hi : g.index? path = some i) :
    g.farPaths path d =
      ((g.links.toList.filter (·.near d == i)).filterMap fun l => g.nodes[l.far d]?).map
        FileNode.path := by
  rw [map_path_filterMap_far h fun l hl => Array.mem_toList_iff.mp (List.mem_filter.mp hl).1,
    farPaths]
  congr 1
  refine List.filter_congr fun l hl => ?_
  have hlt : l.near d < g.nodes.size := h.near_lt (Array.mem_toList_iff.mp hl)
  rw [Bool.eq_iff_iff, beq_iff_eq, beq_iff_eq, h.pathAt_eq_iff hlt, hi, Option.some_inj, eq_comm]

theorem farPaths_of_none (h : g.WellFormed) (hnone : g.index? path = none) :
    g.farPaths path d = [] := by
  have hfilter : g.links.toList.filter (fun l => g.pathAt (l.near d) == path) = [] := by
    rw [List.filter_eq_nil_iff]
    intro l hl hpath
    have hlt : l.near d < g.nodes.size := h.near_lt (Array.mem_toList_iff.mp hl)
    have hindex := (h.pathAt_eq_iff hlt).mp (beq_iff_eq.mp hpath)
    rw [hnone] at hindex
    cases hindex
  rw [farPaths, hfilter, List.map_nil]

/-- With at most one link between two nodes no neighbor is found twice. -/
theorem map_path_neighbors (h : g.WellFormed) (hnodup : (g.farPaths path d).Nodup) :
    (g.neighbors path d).map FileNode.path = Graph.sortPaths (g.farPaths path d) := by
  unfold neighbors
  split
  next hnone => rw [farPaths_of_none h hnone, List.map_nil, Graph.sortPaths, List.mergeSort_nil]
  next i hi =>
    rw [farPaths_of_index? h hi] at hnodup ⊢
    have hsort : ∀ found : List FileNode,
        (found.mergeSort fun a b => a.path ≤ b.path).map FileNode.path =
          Graph.sortPaths (found.map FileNode.path) :=
      fun found => List.map_mergeSort fun _ _ _ _ => rfl
    dsimp only
    rw [dedup_eq_self _ (by simp), hsort]
    rw [hsort, Graph.sortPaths, (List.mergeSort_perm _ _).nodup_iff]
    exact hnodup

theorem nodup_farPaths (hg : g.toGraph.WellFormed) : (g.farPaths path d).Nodup := by
  have hsorted : (Graph.sortPaths (g.farPaths path d)).Nodup := by
    cases d with
    | outgoing =>
      rw [sortPaths_farPaths_outgoing]
      exact hg.sorted_dependencies.imp fun hlt => ne_of_lt hlt
    | incoming =>
      rw [sortPaths_farPaths_incoming]
      exact hg.sorted_dependents.imp fun hlt => ne_of_lt hlt
  rwa [Graph.sortPaths, (List.mergeSort_perm _ _).nodup_iff] at hsorted

theorem dedup_subset (last : Option String) (ns : List FileNode) : dedup last ns ⊆ ns := by
  induction ns generalizing last with
  | nil => exact List.Subset.refl _
  | cons n ns ih =>
    rw [dedup]
    split
    · exact List.subset_cons_of_subset n (ih last)
    · exact List.cons_subset_cons n (ih _)

theorem mem_nodes_of_mem_neighbors (hn : n ∈ g.neighbors path d) : n ∈ g.nodes := by
  unfold neighbors at hn
  split at hn
  · exact absurd hn List.not_mem_nil
  · have hfound := (List.mergeSort_perm _ _).mem_iff.mp (dedup_subset _ _ hn)
    obtain ⟨l, -, hl⟩ := List.mem_filterMap.mp hfound
    exact Array.mem_of_getElem? hl

end Neighbors

section History

variable {maxDepth : Nat} {edits : List Edit}

theorem nodup_farPaths_ofEdits (a : String) (d : Direction) :
    ((ofEdits maxDepth edits).farPaths a d).Nodup := by
  apply nodup_farPaths
  rw [toGraph_ofEdits]
  exact Graph.wellFormed_ofEdits maxDepth edits

theorem map_path_neighbors_ofEdits (a : String) (d : Direction) :
    ((ofEdits maxDepth edits).neighbors a d).map FileNode.path =
      Graph.sortPaths ((ofEdits maxDepth edits).farPaths a d) :=
  map_path_neighbors (wellFormed_ofEdits maxDepth edits) (nodup_farPaths_ofEdits a d)

theorem map_path_dependencies (a : String) :
    ((ofEdits maxDepth edits).dependencies a).map FileNode.path =
      (Graph.ofEdits maxDepth edits).dependencies a := by
  rw [dependencies, map_path_neighbors_ofEdits, sortPaths_farPaths_outgoing, toGraph_ofEdits]

theorem map_path_dependents (a : String) :
    ((ofEdits maxDepth edits).dependents a).map FileNode.path =
      (Graph.ofEdits maxDepth edits).dependents a := by
  rw [dependents, map_path_neighbors_ofEdits, sortPaths_farPaths_incoming, toGraph_ofEdits]

theorem map_edgeOf_ofEdits (maxDepth : Nat) (edits : List Edit) :
    (ofEdits maxDepth edits).links.toList.map (ofEdits maxDepth edits).edgeOf =
      tally (recorded edits) := by
  have hedges : (ofEdits maxDepth edits).toGraph.edges = tally (recorded edits) := by
    rw [toGraph_ofEdits, Graph.edges_ofEdits]
  exact hedges

/-- The link between two nodes counts the statements from the path of the one to that of the
other. -/
theorem mem_links_ofEdits_iff {l : Link} : l ∈ (ofEdits maxDepth edits).links ↔
    ∃ a b, (ofEdits maxDepth edits).index? a = some l.source ∧
      (ofEdits maxDepth edits).index? b = some l.target ∧
      0 < l.statements ∧ l.statements = (recorded edits).count (a, b) := by
  have hg := wellFormed_ofEdits maxDepth edits
  have hedges := map_edgeOf_ofEdits maxDepth edits
  generalize ofEdits maxDepth edits = g at hg hedges ⊢
  constructor
  · intro hl
    obtain ⟨hsource, htarget⟩ := hg.ends l hl
    have hedge : g.edgeOf l ∈ tally (recorded edits) :=
      hedges ▸ List.mem_map_of_mem (Array.mem_toList_iff.mpr hl)
    exact ⟨g.pathAt l.source, g.pathAt l.target, hg.index?_pathAt hsource,
      hg.index?_pathAt htarget, mem_tally.mp hedge⟩
  · rintro ⟨a, b, ha, hb, hcount⟩
    have hedge : (⟨a, b, l.statements⟩ : Edge) ∈ tally (recorded edits) := mem_tally.mpr hcount
    rw [← hedges] at hedge
    obtain ⟨m, hm, heq⟩ := List.mem_map.mp hedge
    rw [edgeOf, Edge.mk.injEq] at heq
    obtain ⟨hsource, htarget⟩ := hg.ends m (Array.mem_toList_iff.mp hm)
    rw [hg.pathAt_eq_iff hsource, ha, hg.pathAt_eq_iff htarget, hb] at heq
    have hml : l = m := by
      cases l
      cases m
      simp_all
    rw [hml]
    exact Array.mem_toList_iff.mp hm

theorem nodup_ends_links : ((ofEdits maxDepth edits).links.toList.map Link.ends).Nodup := by
  have hedges := (Graph.wellFormed_ofEdits maxDepth edits).edges
  rw [← toGraph_ofEdits, toGraph, List.map_map] at hedges
  generalize ofEdits maxDepth edits = g at hedges ⊢
  have hends : Edge.ends ∘ g.edgeOf = Prod.map g.pathAt g.pathAt ∘ Link.ends := rfl
  rw [hends, ← List.map_map] at hedges
  exact hedges.of_map _

theorem mem_dependencies_ofEdits_iff :
    b ∈ (Graph.ofEdits maxDepth edits).dependencies a ↔ (a, b) ∈ recorded edits := by
  rw [Graph.mem_dependencies, Graph.Imports, Graph.edges_ofEdits, ends_tally, List.mem_eraseDups]

/-- A graph with indices that comes about by edits is what their history says. Every path that was
added has one node, with the index that the map tells; the node is a package exactly if no file was
added under the path, and otherwise the file added last. A statement is recorded exactly if both of
its ends were there, and changes nothing if not. Between two nodes there is at most one link, which
counts the statements that were recorded. What imports a node and what it imports are told alike, in
order and once each. -/
theorem ofEdits_refines_history (maxDepth : Nat) (edits : List Edit) :
    let g := ofEdits maxDepth edits
    g.toGraph = Graph.ofEdits maxDepth edits ∧
    (∀ p, g.find? p = if p ∈ added edits then some (nodeAt edits p) else none) ∧
    (∀ n ∈ g.nodes, n.isExternal = true ↔ ∀ imports exports, .file n.path imports exports ∉ edits) ∧
    g.nodes.toList.map FileNode.path = (added edits).eraseDups ∧
    (∀ p i, g.index? p = some i ↔ (g.nodes[i]?).map FileNode.path = some p) ∧
    (∀ p, g.index? p = (Graph.ofEdits maxDepth edits).position? p) ∧
    (∀ p, g.contains p = true ↔ p ∈ added edits) ∧
    g.nodes.size = (added edits).toFinset.card ∧
    (∀ p imports exports,
      (g.addFile p imports exports).1.index? p = some (g.addFile p imports exports).2) ∧
    (∀ p, (g.addExternal p).1.index? p = some (g.addExternal p).2) ∧
    (∀ a b, ((g.addImport a b).2 = true ↔ a ∈ added edits ∧ b ∈ added edits) ∧
      ((g.addImport a b).2 = false → (g.addImport a b).1 = g)) ∧
    (g.links.toList.map Link.ends).Nodup ∧
    (∀ l, l ∈ g.links ↔ ∃ a b, g.index? a = some l.source ∧ g.index? b = some l.target ∧
      0 < l.statements ∧ l.statements = (recorded edits).count (a, b)) ∧
    g.links.size = (recorded edits).toFinset.card ∧
    (∀ a b, (b ∈ (g.dependencies a).map FileNode.path ↔ (a, b) ∈ recorded edits) ∧
      (b ∈ (g.dependencies a).map FileNode.path ↔ a ∈ (g.dependents b).map FileNode.path)) ∧
    ∀ a d, (∀ n ∈ g.neighbors a d, n ∈ g.nodes) ∧
      ((g.neighbors a d).map FileNode.path).Pairwise (· < ·) := by
  intro g
  have hg : g.WellFormed := wellFormed_ofEdits maxDepth edits
  have hgraph : g.toGraph = Graph.ofEdits maxDepth edits := toGraph_ofEdits maxDepth edits
  have hnodes : g.nodes.toList = (Graph.ofEdits maxDepth edits).nodes :=
    congrArg Graph.nodes hgraph
  have hpaths : g.nodes.toList.map FileNode.path = (added edits).eraseDups := by
    rw [hnodes, Graph.paths_ofEdits]
  have hcontains (p : String) : g.contains p = true ↔ p ∈ added edits := by
    rw [← hg.contains_toGraph, Graph.contains_iff, hgraph, Graph.paths_ofEdits, List.mem_eraseDups]
  refine ⟨hgraph, fun p => ?_, fun n hn => ?_, hpaths, fun p i => hg.index?_iff,
    fun p => hg.index?_eq.trans (congrArg (·.position? p) hgraph), hcontains, ?_,
    fun p imports exports => index?_addFile, fun p => index?_addExternal,
    fun a b => ⟨?_, addImport_eq_self⟩, nodup_ends_links, fun l => mem_links_ofEdits_iff, ?_,
    fun a b => ⟨?_, ?_⟩, fun a d => ⟨fun n => mem_nodes_of_mem_neighbors, ?_⟩⟩
  · rw [hg.find?_eq, hgraph, Graph.find?_ofEdits]
  · exact Graph.isExternal_of_mem_ofEdits (hnodes ▸ Array.mem_toList_iff.mpr hn)
  · rw [← Array.length_toList, ← List.length_map FileNode.path, hpaths, length_eraseDups]
  · rw [addImport_eq_true_iff, hcontains, hcontains]
  · rw [← Array.length_toList, ← List.length_map g.edgeOf, map_edgeOf_ofEdits,
      ← List.length_map Edge.ends, ends_tally, length_eraseDups]
  · rw [map_path_dependencies, mem_dependencies_ofEdits_iff]
  · rw [map_path_dependencies, map_path_dependents, Graph.mem_dependencies, Graph.mem_dependents]
  · rw [map_path_neighbors_ofEdits]
    exact Graph.sorted_sortPaths (nodup_farPaths_ofEdits a d)

/-- A package that becomes a file, a statement that comes too early and two that count. -/
def promotion : List Edit :=
  [.package "b", .statement "a" "b", .file "a" [] [], .statement "a" "b",
    .file "b" [] [⟨"x", .named, 1, none⟩], .statement "a" "b"]

theorem ofEdits_refines_history_promotion :
    let g := ofEdits 10 promotion
    g.find? "b" = some ⟨"b", false, [], [⟨"x", .named, 1, none⟩]⟩ ∧ g.index? "a" = some 1 ∧
      ⟨1, 0, 2⟩ ∈ g.links := by
  intro g
  obtain ⟨-, hfind, -, hpaths, hindex, -, -, -, -, -, -, -, hlinks, -⟩ :=
    ofEdits_refines_history 10 promotion
  have ha : g.index? "a" = some 1 := by
    rw [hindex, ← Array.getElem?_toList, ← List.getElem?_map, hpaths]
    decide
  have hb : g.index? "b" = some 0 := by
    rw [hindex, ← Array.getElem?_toList, ← List.getElem?_map, hpaths]
    decide
  refine ⟨?_, ha, (hlinks _).mpr ⟨"a", "b", ha, hb, by decide⟩⟩
  rw [hfind, if_pos (by decide)]
  decide

end History

end CodeAtlas.Dependency.IndexedGraph
