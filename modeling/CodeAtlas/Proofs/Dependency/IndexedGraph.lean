import CodeAtlas.Dependency.IndexedGraph
import CodeAtlas.Proofs.Dependency.Edits

/-! The graph with indices is the graph of paths. The map tells the index of every path that a node
has, and no others, and links lead between indices of nodes; each operation keeps to that, and does
to the graph of paths what its namesake there does. -/

namespace CodeAtlas.Dependency

def Link.ends (l : Link) : Nat × Nat := (l.source, l.target)

namespace IndexedGraph

/-- A graph with one thing more. A statement from or to a node that is not there is left out. -/
def edit (g : IndexedGraph) : Edit → IndexedGraph
  | .file path imports exports => (g.addFile path imports exports).1
  | .package name => (g.addExternal name).1
  | .statement source target => (g.addImport source target).1

def ofEdits (maxDepth : Nat) (edits : List Edit) : IndexedGraph := edits.foldl edit (empty maxDepth)

structure WellFormed (g : IndexedGraph) : Prop where
  index?_iff : ∀ {path i}, g.index? path = some i ↔ (g.nodes[i]?).map FileNode.path = some path
  ends : ∀ l ∈ g.links, l.source < g.nodes.size ∧ l.target < g.nodes.size

variable {g : IndexedGraph} {path name source target p a b : String} {i j : Nat} {node n : FileNode}
  {imports : List Import} {exports : List Export} {l : Link}

theorem WellFormed.empty (maxDepth : Nat) : (empty maxDepth).WellFormed :=
  ⟨by simp [IndexedGraph.empty, index?], by simp [IndexedGraph.empty]⟩

section Indices

variable (h : g.WellFormed)

include h

theorem WellFormed.lt_size (hi : g.index? path = some i) : i < g.nodes.size := by
  obtain ⟨n, hn, -⟩ := Option.map_eq_some_iff.mp (h.index?_iff.mp hi)
  exact (Array.getElem?_eq_some_iff.mp hn).1

theorem WellFormed.index?_pathAt (hi : i < g.nodes.size) : g.index? (g.pathAt i) = some i := by
  rw [h.index?_iff, pathAt, Array.getElem?_eq_getElem hi]
  rfl

theorem WellFormed.pathAt_of_index? (hi : g.index? path = some i) : g.pathAt i = path := by
  rw [pathAt, h.index?_iff.mp hi, Option.getD_some]

theorem WellFormed.pathAt_eq_iff (hi : i < g.nodes.size) :
    g.pathAt i = path ↔ g.index? path = some i := by
  constructor
  · rintro rfl
    exact h.index?_pathAt hi
  · exact h.pathAt_of_index?

theorem WellFormed.contains_toGraph : g.toGraph.contains p = g.contains p := by
  rw [Bool.eq_iff_iff, Graph.contains_iff, contains, Option.isSome_iff_exists,
    List.mem_iff_getElem?]
  refine exists_congr fun i => ?_
  rw [h.index?_iff, List.getElem?_map, toGraph, Array.getElem?_toList]

theorem WellFormed.not_contains_of_none (hnone : g.index? p = none) :
    ¬g.toGraph.contains p = true := by
  rw [h.contains_toGraph, contains, hnone]
  exact Bool.false_ne_true

theorem WellFormed.contains_of_some (hi : g.index? p = some i) : g.toGraph.contains p = true := by
  rw [h.contains_toGraph, contains, hi, Option.isSome_some]

theorem WellFormed.index?_of_find?_eq_none (hnone : g.toGraph.find? p = none) :
    g.index? p = none := by
  have hnot : g.contains p = false := by
    rw [← h.contains_toGraph, Graph.contains_eq_false_iff, hnone]
  simpa [contains] using hnot

theorem WellFormed.find?_of_toGraph (hn : g.toGraph.find? p = some n) : g.find? p = some n := by
  obtain ⟨i, hi⟩ := List.mem_iff_getElem?.mp (Graph.mem_of_find? hn)
  have hnode : g.nodes[i]? = some n := by rwa [toGraph, Array.getElem?_toList] at hi
  have hindex : g.index? p = some i := by
    rw [h.index?_iff, hnode, Option.map_some, Graph.find?_eq_some_path hn]
  rw [find?, hindex, Option.bind_some, hnode]

theorem WellFormed.find?_eq : g.find? p = g.toGraph.find? p := by
  cases hn : g.toGraph.find? p with
  | some n => exact h.find?_of_toGraph hn
  | none => rw [find?, h.index?_of_find?_eq_none hn, Option.bind_none]

/-- The map of indices tells what a search through the nodes would. -/
theorem WellFormed.index?_eq : g.index? p = g.toGraph.position? p := by
  cases hposition : g.toGraph.position? p with
  | some i =>
    obtain ⟨hi, hpath, -⟩ := List.findIdx?_eq_some_iff_getElem.mp hposition
    rw [h.index?_iff, Array.getElem?_eq_getElem hi]
    exact congrArg some (beq_iff_eq.mp hpath)
  | none =>
    have hnone : g.toGraph.find? p = none := by
      rw [Graph.find?, List.find?_eq_none]
      exact fun n hn => Bool.not_eq_true _ ▸ List.findIdx?_eq_none_iff.mp hposition n hn
    exact h.index?_of_find?_eq_none hnone

end Indices

section Nodes

theorem index?_addNode : (g.addNode node).1.index? p =
    if p = node.path then some g.nodes.size else g.index? p := by
  rw [index?, addNode, List.lookup_cons, ← index?]
  by_cases hp : p = node.path
  · rw [if_pos hp, beq_iff_eq.mpr hp]
  · rw [if_neg hp, beq_eq_false_iff_ne.mpr hp]

theorem WellFormed.addNode (h : g.WellFormed) (hnone : g.index? node.path = none) :
    (g.addNode node).1.WellFormed := by
  constructor
  · intro p i
    rw [index?_addNode, IndexedGraph.addNode, Array.getElem?_push]
    by_cases hp : p = node.path
    · subst hp
      have hold : (g.nodes[i]?).map FileNode.path ≠ some node.path := by
        rw [← h.index?_iff.ne, hnone]
        exact (Option.some_ne_none i).symm
      by_cases hi : i = g.nodes.size
      · simp [hi]
      · simp [hi, hold, Ne.symm hi]
    · by_cases hi : i = g.nodes.size
      · have hold : g.index? p ≠ some i := fun hidx => absurd (h.lt_size hidx) (by omega)
        simp [hi ▸ hold, hi, hp, Ne.symm hp]
      · simp [hi, hp, h.index?_iff]
  · intro l hl
    have hends := h.ends l hl
    rw [IndexedGraph.addNode, Array.size_push]
    omega

theorem toGraph_addNode (h : g.WellFormed) :
    (g.addNode node).1.toGraph = { g.toGraph with nodes := g.toGraph.nodes ++ [node] } := by
  have hpath (i : Nat) (hi : i < g.nodes.size) : (g.addNode node).1.pathAt i = g.pathAt i := by
    rw [pathAt, pathAt, IndexedGraph.addNode, Array.getElem?_push, if_neg (Nat.ne_of_lt hi)]
  rw [toGraph, toGraph, Graph.mk.injEq]
  refine ⟨Array.toList_push, List.map_congr_left fun l hl => ?_, rfl⟩
  have hends := h.ends l (Array.mem_toList_iff.mp hl)
  rw [edgeOf, edgeOf, hpath _ hends.1, hpath _ hends.2]

theorem getElem?_modify_path :
    ((g.nodes.modify i (·.asFile imports exports))[j]?).map FileNode.path =
      (g.nodes[j]?).map FileNode.path := by
  rw [Array.getElem?_modify]
  split
  · rw [Option.map_map]
    rfl
  · rfl

/-- Where a path has a node, its node is the one with its index. -/
theorem WellFormed.modify_eq_map (h : g.WellFormed) (hi : g.index? path = some i) :
    (g.nodes.modify i (·.asFile imports exports)).toList =
      g.nodes.toList.map fun n =>
        if n.path == path then ⟨path, false, imports, exports⟩ else n := by
  apply List.ext_getElem?
  intro k
  rw [Array.getElem?_toList, Array.getElem?_modify, List.getElem?_map, Array.getElem?_toList]
  cases hk : g.nodes[k]? with
  | none => split <;> rfl
  | some n =>
    have hpath : n.path = path ↔ i = k := by
      have hindex : g.index? n.path = some k := h.index?_iff.mpr (by rw [hk]; rfl)
      constructor
      · rintro rfl
        exact Option.some.inj (hi.symm.trans hindex)
      · rintro rfl
        have hboth := (h.pathAt_of_index? hi).symm.trans (h.pathAt_of_index? hindex)
        exact hboth.symm
    by_cases hn : n.path = path
    · rw [if_pos (hpath.mp hn), Option.map_some, Option.map_some, if_pos (beq_iff_eq.mpr hn),
        FileNode.asFile, hn]
    · rw [if_neg (mt hpath.mpr hn), Option.map_some, if_neg (by rwa [beq_iff_eq])]

theorem WellFormed.addFile (h : g.WellFormed) : (g.addFile path imports exports).1.WellFormed := by
  unfold IndexedGraph.addFile
  split
  next i hi =>
    refine ⟨fun {p j} => ?_, fun l hl => ?_⟩
    · dsimp only
      rw [getElem?_modify_path]
      exact h.index?_iff
    · dsimp only
      rw [Array.size_modify]
      exact h.ends l hl
  next hnone => exact h.addNode hnone

theorem toGraph_addFile (h : g.WellFormed) :
    (g.addFile path imports exports).1.toGraph = g.toGraph.addFile path imports exports := by
  unfold addFile Graph.addFile
  split
  next i hi =>
    rw [if_pos (h.contains_of_some hi)]
    dsimp only
    rw [toGraph, toGraph, Graph.mk.injEq]
    refine ⟨h.modify_eq_map hi, List.map_congr_left fun l _ => ?_, rfl⟩
    rw [edgeOf, edgeOf, pathAt, pathAt, pathAt, pathAt, getElem?_modify_path, getElem?_modify_path]
  next hnone =>
    rw [if_neg (h.not_contains_of_none hnone)]
    exact toGraph_addNode h

theorem WellFormed.addExternal (h : g.WellFormed) : (g.addExternal name).1.WellFormed := by
  unfold IndexedGraph.addExternal
  split
  · exact h
  next hnone => exact h.addNode hnone

theorem toGraph_addExternal (h : g.WellFormed) :
    (g.addExternal name).1.toGraph = g.toGraph.addExternal name := by
  unfold addExternal Graph.addExternal
  split
  next i hi => rw [if_pos (h.contains_of_some hi)]
  next hnone =>
    rw [if_neg (h.not_contains_of_none hnone)]
    exact toGraph_addNode h

theorem index?_addFile :
    (g.addFile path imports exports).1.index? path = some (g.addFile path imports exports).2 := by
  unfold addFile
  split
  next hi => exact hi
  · rw [index?_addNode, if_pos rfl]
    rfl

theorem index?_addExternal :
    (g.addExternal name).1.index? name = some (g.addExternal name).2 := by
  unfold addExternal
  split
  next hi => exact hi
  · rw [index?_addNode, if_pos rfl]
    rfl

end Nodes

section Links

/-- Links with one more statement between two nodes. -/
def countIn (i j : Nat) (ls : List Link) : List Link :=
  match ls.findIdx? fun l => l.source == i && l.target == j with
  | some e => ls.modify e fun l => { l with statements := l.statements + 1 }
  | none => ls ++ [⟨i, j, 1⟩]

theorem countIn_cons_of_pos (ls : List Link) (h : (l.source == i && l.target == j) = true) :
    countIn i j (l :: ls) = { l with statements := l.statements + 1 } :: ls := by
  rw [countIn, List.findIdx?_cons, if_pos h]
  exact List.modify_zero_cons _ _ _

theorem countIn_cons_of_neg (ls : List Link) (h : ¬(l.source == i && l.target == j) = true) :
    countIn i j (l :: ls) = l :: countIn i j ls := by
  rw [countIn, countIn, List.findIdx?_cons, if_neg h]
  cases ls.findIdx? fun l => l.source == i && l.target == j with
  | none => rfl
  | some e => exact List.modify_succ_cons _ _ _ _

/-- Counting on the link between two nodes is counting on the edge between their paths. -/
theorem map_countIn (edge : Link → Edge) (ls : List Link)
    (hstatements : ∀ l : Link, edge { l with statements := l.statements + 1 } =
      { edge l with statements := (edge l).statements + 1 })
    (hnew : edge ⟨i, j, 1⟩ = ⟨source, target, 1⟩)
    (hends : ∀ l ∈ ls, (edge l).source = source ∧ (edge l).target = target ↔
      (l.source == i && l.target == j) = true) :
    (countIn i j ls).map edge = Graph.count source target (ls.map edge) := by
  induction ls with
  | nil => exact congrArg ([·]) hnew
  | cons l ls ih =>
    rw [List.forall_mem_cons] at hends
    rw [List.map_cons, Graph.count]
    by_cases hl : (l.source == i && l.target == j) = true
    · rw [countIn_cons_of_pos ls hl, if_pos (hends.1.mpr hl), List.map_cons, hstatements]
    · rw [countIn_cons_of_neg ls hl, if_neg (mt hends.1.mp hl), List.map_cons, ih hends.2]

theorem links_countLink : (g.countLink i j).links.toList = countIn i j g.links.toList := by
  unfold countLink countIn linkBetween?
  cases g.links.toList.findIdx? fun l => l.source == i && l.target == j with
  | none => exact Array.toList_push
  | some e => exact Array.toList_modify

theorem nodes_countLink : (g.countLink i j).nodes = g.nodes := by
  unfold countLink
  split <;> rfl

theorem index?_countLink : (g.countLink i j).index? p = g.index? p := by
  unfold countLink
  split <;> rfl

theorem edgeOf_countLink : (g.countLink i j).edgeOf = g.edgeOf := by
  funext l
  rw [edgeOf, edgeOf, pathAt, pathAt, pathAt, pathAt, nodes_countLink]

theorem toGraph_countLink (h : g.WellFormed) (hi : g.index? source = some i)
    (hj : g.index? target = some j) : (g.countLink i j).toGraph =
      { g.toGraph with edges := Graph.count source target g.toGraph.edges } := by
  have hdepth : (g.countLink i j).maxDepth = g.maxDepth := by
    unfold countLink
    split <;> rfl
  rw [toGraph, toGraph, Graph.mk.injEq, nodes_countLink, edgeOf_countLink, links_countLink, hdepth]
  refine ⟨rfl, map_countIn g.edgeOf _ (fun _ => rfl) ?_ fun l hl => ?_, rfl⟩
  · rw [edgeOf, h.pathAt_of_index? hi, h.pathAt_of_index? hj]
  · obtain ⟨hsource, htarget⟩ := h.ends l (Array.mem_toList_iff.mp hl)
    rw [edgeOf, h.pathAt_eq_iff hsource, h.pathAt_eq_iff htarget, hi, hj, Bool.and_eq_true,
      beq_iff_eq, beq_iff_eq, Option.some_inj, Option.some_inj, eq_comm, @eq_comm _ j]

theorem WellFormed.countLink (h : g.WellFormed) (hi : i < g.nodes.size) (hj : j < g.nodes.size) :
    (g.countLink i j).WellFormed := by
  constructor
  · intro p k
    rw [index?_countLink, nodes_countLink]
    exact h.index?_iff
  · rw [nodes_countLink]
    unfold IndexedGraph.countLink
    split
    next e he =>
      intro l hl
      obtain ⟨k, hk⟩ := Array.mem_iff_getElem?.mp hl
      rw [Array.getElem?_modify] at hk
      split at hk
      · obtain ⟨l', hl', rfl⟩ := Option.map_eq_some_iff.mp hk
        exact h.ends l' (Array.mem_of_getElem? hl')
      · exact h.ends l (Array.mem_of_getElem? hk)
    next =>
      intro l hl
      rcases Array.mem_push.mp hl with hl | rfl
      · exact h.ends l hl
      · exact ⟨hi, hj⟩

theorem WellFormed.addImport (h : g.WellFormed) : (g.addImport source target).1.WellFormed := by
  unfold IndexedGraph.addImport
  split
  next hi hj => exact h.countLink (h.lt_size hi) (h.lt_size hj)
  · exact h

theorem addImport_of_some (hi : g.index? source = some i) (hj : g.index? target = some j) :
    g.addImport source target = (g.countLink i j, true) := by
  rw [addImport, hi, hj]

theorem addImport_of_not (h : ¬(g.contains source = true ∧ g.contains target = true)) :
    g.addImport source target = (g, false) := by
  unfold addImport
  split
  next hi hj =>
    refine absurd ?_ h
    rw [contains, contains, hi, hj]
    exact ⟨rfl, rfl⟩
  · rfl

theorem addImport_eq_true_iff : (g.addImport source target).2 = true ↔
    g.contains source = true ∧ g.contains target = true := by
  by_cases h : g.contains source = true ∧ g.contains target = true
  · obtain ⟨i, hi⟩ := Option.isSome_iff_exists.mp h.1
    obtain ⟨j, hj⟩ := Option.isSome_iff_exists.mp h.2
    rw [addImport_of_some hi hj]
    exact iff_of_true rfl h
  · rw [addImport_of_not h]
    exact iff_of_false Bool.false_ne_true h

theorem addImport_eq_self (hnot : (g.addImport source target).2 = false) :
    (g.addImport source target).1 = g := by
  rw [addImport_of_not]
  rw [← addImport_eq_true_iff, hnot]
  exact Bool.false_ne_true

/-- A statement is recorded where the graph of paths records it. -/
theorem toGraph_addImport (h : g.WellFormed) : (g.addImport source target).1.toGraph =
    (g.toGraph.addImport? source target).getD g.toGraph := by
  unfold Graph.addImport?
  by_cases hends : g.contains source = true ∧ g.contains target = true
  · obtain ⟨i, hi⟩ := Option.isSome_iff_exists.mp hends.1
    obtain ⟨j, hj⟩ := Option.isSome_iff_exists.mp hends.2
    rw [addImport_of_some hi hj, h.contains_toGraph, h.contains_toGraph, hends.1, hends.2,
      toGraph_countLink h hi hj]
    rfl
  · rw [addImport_of_not hends, h.contains_toGraph, h.contains_toGraph, if_neg, Option.getD_none]
    rwa [Bool.and_eq_true]

end Links

section Edits

theorem WellFormed.edit (h : g.WellFormed) (e : Edit) : (g.edit e).WellFormed := by
  cases e with
  | file path imports exports => exact h.addFile
  | package name => exact h.addExternal
  | statement source target => exact h.addImport

theorem toGraph_edit (h : g.WellFormed) (e : Edit) : (g.edit e).toGraph = g.toGraph.edit e := by
  cases e with
  | file path imports exports => exact toGraph_addFile h
  | package name => exact toGraph_addExternal h
  | statement source target => exact toGraph_addImport h

/-- Whatever is added to it, the graph with indices stays the graph of paths. -/
theorem toGraph_foldl_edit (h : g.WellFormed) (edits : List Edit) :
    (edits.foldl edit g).WellFormed ∧
      (edits.foldl edit g).toGraph = edits.foldl Graph.edit g.toGraph := by
  induction edits generalizing g with
  | nil => exact ⟨h, rfl⟩
  | cons e edits ih =>
    rw [List.foldl_cons, List.foldl_cons, ← toGraph_edit h]
    exact ih (h.edit e)

theorem wellFormed_ofEdits (maxDepth : Nat) (edits : List Edit) :
    (ofEdits maxDepth edits).WellFormed :=
  (toGraph_foldl_edit (.empty maxDepth) edits).1

theorem toGraph_ofEdits (maxDepth : Nat) (edits : List Edit) :
    (ofEdits maxDepth edits).toGraph = Graph.ofEdits maxDepth edits :=
  (toGraph_foldl_edit (.empty maxDepth) edits).2

end Edits

end IndexedGraph

end CodeAtlas.Dependency
