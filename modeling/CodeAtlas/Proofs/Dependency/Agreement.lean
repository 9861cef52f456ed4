import CodeAtlas.Dependency.View
import CodeAtlas.Proofs.Dependency.Peeling
import CodeAtlas.Proofs.Dependency.Rankings
import CodeAtlas.Proofs.Search.Comparison
import Mathlib.Data.List.Permutation
import Mathlib.Data.List.Sort
import Mathlib.Data.Prod.Lex

/-! Graphs that hold the same, whatever the order in which it was added. All answers are put in an
order of their own before they are given, and in a graph the paths of nodes and the ends of edges
are unique, so there is only one way to put them. -/

namespace CodeAtlas.Dependency

/-- What is sorted by a key that no two of its members share may have come in any order. -/
theorem mergeSort_eq_of_perm {α β : Type} [LinearOrder β] (key : α → β) {le : α → α → Bool}
    {l l' : List α} (hle : ∀ a b, le a b = true ↔ key a ≤ key b) (hkeys : (l.map key).Nodup)
    (h : l.Perm l') : l.mergeSort le = l'.mergeSort le := by
  have htrans : ∀ a b c, le a b = true → le b c = true → le a c = true := by
    intro a b c hab hbc
    rw [hle] at hab hbc ⊢
    exact hab.trans hbc
  have htotal : ∀ a b, (le a b || le b a) = true := by
    intro a b
    rw [Bool.or_eq_true, hle, hle]
    exact le_total _ _
  have hperm : (l.mergeSort le).Perm (l'.mergeSort le) :=
    (List.mergeSort_perm l le).trans (h.trans (List.mergeSort_perm l' le).symm)
  refine hperm.eq_of_pairwise (fun a b ha hb hab hba => ?_)
    (List.pairwise_mergeSort htrans htotal l) (List.pairwise_mergeSort htrans htotal l')
  -- Two that are each at most the other have one key, and so they are one.
  have hkey : key a = key b := le_antisymm ((hle a b).mp hab) ((hle b a).mp hba)
  have ha : a ∈ l := List.mem_mergeSort.mp ha
  have hb : b ∈ l := h.mem_iff.mpr (List.mem_mergeSort.mp hb)
  exact List.inj_on_of_nodup_map hkeys ha hb hkey

theorem Edge.atMost_iff {e f : Edge} : e.atMost f = true ↔ toLex e.ends ≤ toLex f.ends := by
  rw [Prod.Lex.toLex_le_toLex, Edge.atMost]
  simp [Edge.ends]

theorem resolve?_congr {known known' : List String} (h : known.Perm known') :
    resolve? known = resolve? known' := by
  have hcontains : known.contains = known'.contains := by
    funext p
    rw [Bool.eq_iff_iff, List.contains_iff_mem, List.contains_iff_mem, h.mem_iff]
  funext importer specifier
  rw [resolve?, resolve?, hcontains]

namespace Graph

/-- The same node under every path, the same edges, and files followed as far down. -/
structure SameContents (g h : Graph) : Prop where
  find : ∀ path, g.find? path = h.find? path
  edges : ∀ e, e ∈ g.edges ↔ e ∈ h.edges
  maxDepth : g.maxDepth = h.maxDepth

/-- Whatever two graphs are asked, they give the same answer. -/
structure SameAnswers (g h : Graph) : Prop where
  find : g.find? = h.find?
  internal : g.internal = h.internal
  dependencies : g.dependencies = h.dependencies
  dependents : g.dependents = h.dependents
  hasCycles : g.hasCycles = h.hasCycles
  cycles : g.cycles = h.cycles
  filesInCycles : g.filesInCycles = h.filesInCycles
  summary : g.summary = h.summary
  view : g.view = h.view
  dot : g.dot = h.dot

section Contents

variable {g h : Graph} {p : String} {n : FileNode}

theorem WellFormed.find?_eq_some_iff (hg : g.WellFormed) :
    g.find? p = some n ↔ n ∈ g.nodes ∧ n.path = p := by
  constructor
  · intro hn
    exact ⟨mem_of_find? hn, find?_eq_some_path hn⟩
  · rintro ⟨hn, rfl⟩
    exact hg.find?_path hn

theorem SameContents.perm_nodes (hs : g.SameContents h) (hg : g.WellFormed) (hh : h.WellFormed) :
    g.nodes.Perm h.nodes := by
  refine (List.perm_ext_iff_of_nodup hg.paths.of_map hh.paths.of_map).mpr fun n => ?_
  have hfound := hg.find?_eq_some_iff (p := n.path) (n := n)
  rw [hs.find, hh.find?_eq_some_iff] at hfound
  simpa using hfound.symm

theorem SameContents.perm_edges (hs : g.SameContents h) (hg : g.WellFormed) (hh : h.WellFormed) :
    g.edges.Perm h.edges :=
  (List.perm_ext_iff_of_nodup hg.edges.of_map hh.edges.of_map).mpr hs.edges

theorem sameContents_of_perm (hg : g.WellFormed) (hh : h.WellFormed) (hnodes : g.nodes.Perm h.nodes)
    (hedges : g.edges.Perm h.edges) (hdepth : g.maxDepth = h.maxDepth) : g.SameContents h where
  find path := by
    ext n
    rw [hg.find?_eq_some_iff, hh.find?_eq_some_iff, hnodes.mem_iff]
  edges _ := hedges.mem_iff
  maxDepth := hdepth

theorem SameContents.imports_iff (hs : g.SameContents h) {a b : String} :
    g.Imports a b ↔ h.Imports a b := by
  simp only [Imports, List.mem_map, hs.edges]

theorem SameContents.isFile (hs : g.SameContents h) : g.isFile = h.isFile := by
  funext path
  rw [Graph.isFile, Graph.isFile, hs.find]

theorem SameContents.internal (hs : g.SameContents h) (hg : g.WellFormed) (hh : h.WellFormed) :
    g.internal = h.internal := by
  have hpaths : ((g.nodes.filter fun n => !n.isExternal).map FileNode.path).Nodup :=
    hg.paths.sublist (List.filter_sublist.map FileNode.path)
  exact mergeSort_eq_of_perm FileNode.path (fun _ _ => decide_eq_true_iff) hpaths
    ((hs.perm_nodes hg hh).filter _)

theorem SameContents.dependencies (hs : g.SameContents h) (hg : g.WellFormed)
    (hh : h.WellFormed) : g.dependencies = h.dependencies := by
  funext a
  refine hg.sorted_dependencies.eq_of_mem_iff hh.sorted_dependencies fun b => ?_
  rw [mem_dependencies, mem_dependencies, hs.imports_iff]

theorem SameContents.dependents (hs : g.SameContents h) (hg : g.WellFormed)
    (hh : h.WellFormed) : g.dependents = h.dependents := by
  funext a
  refine hg.sorted_dependents.eq_of_mem_iff hh.sorted_dependents fun b => ?_
  rw [mem_dependents, mem_dependents, hs.imports_iff]

theorem SameContents.searchedAlike (hs : g.SameContents h) (hg : g.WellFormed)
    (hh : h.WellFormed) : g.SearchedAlike h where
  files := by rw [Graph.files, Graph.files, hs.internal hg hh]
  successors := by
    funext a
    rw [successors, successors, hs.dependencies hg hh, hs.isFile]
  maxDepth := hs.maxDepth

theorem SameContents.hasCycles (hs : g.SameContents h) (hg : g.WellFormed) (hh : h.WellFormed) :
    g.hasCycles = h.hasCycles := by
  have himports : g.Imports = h.Imports := by
    funext a b
    exact propext hs.imports_iff
  rw [Bool.eq_iff_iff, hg.hasCycles_iff, hh.hasCycles_iff, himports]

theorem SameContents.importedBy (hs : g.SameContents h) (hg : g.WellFormed) (hh : h.WellFormed)
    (path : String) : g.importedBy path = h.importedBy path := by
  refine ((hs.perm_edges hg hh).filter _).foldr_eq' (fun e _ f _ n => ?_) 0
  exact Nat.add_left_comm _ _ _

theorem SameContents.summary (hs : g.SameContents h) (hg : g.WellFormed) (hh : h.WellFormed) :
    g.summary = h.summary := by
  have hinternal : g.internal = h.internal.map id := by
    rw [List.map_id, hs.internal hg hh]
  exact summary_congr hinternal (fun _ => rfl) (fun _ => rfl) (fun _ => rfl)
    fun n _ => hs.importedBy hg hh n.path

theorem SameContents.view (hs : g.SameContents h) (hg : g.WellFormed) (hh : h.WellFormed) :
    g.view = h.view := by
  have hnodes : g.view.nodes = h.view.nodes := by
    refine mergeSort_eq_of_perm ViewNode.path (fun _ _ => decide_eq_true_iff) ?_
      ((hs.perm_nodes hg hh).map _)
    rw [List.map_map]
    exact hg.paths
  have hedges : g.view.edges = h.view.edges := by
    refine mergeSort_eq_of_perm (toLex ∘ Edge.ends) (fun _ _ => Edge.atMost_iff) ?_
      (hs.perm_edges hg hh)
    rw [← List.map_map]
    exact hg.edges.map toLex.injective
  rw [Graph.view, Graph.view, View.mk.injEq]
  exact ⟨hnodes, hedges⟩

theorem SameContents.sameAnswers (hs : g.SameContents h) (hg : g.WellFormed)
    (hh : h.WellFormed) : g.SameAnswers h where
  find := funext hs.find
  internal := hs.internal hg hh
  dependencies := hs.dependencies hg hh
  dependents := hs.dependents hg hh
  hasCycles := hs.hasCycles hg hh
  cycles := (hs.searchedAlike hg hh).cycles
  filesInCycles := by
    rw [filesInCycles, filesInCycles, (hs.searchedAlike hg hh).cycles]
  summary := hs.summary hg hh
  view := hs.view hg hh
  dot := by rw [dot, dot, hs.view hg hh]

end Contents

section Built

variable {files files' : List (String × Facts)} {s : Settings} {f : String × Facts} {p : String}

theorem find?_build_of_kept (h : (files.map Prod.fst).Nodup) (hf : f ∈ kept files s) :
    (build files s).find? f.1 = some (fileNode s (keptPaths files s) f) := by
  refine (wellFormed_build files s).find?_eq_some_iff.mpr ⟨?_, rfl⟩
  exact (mem_nodes_build h).mpr (.inl ⟨f, hf, rfl⟩)

/-- Under a path that is left out there is a package at most, and nothing else is under it. -/
theorem find?_build_of_not_kept (hp : p ∉ keptPaths files s) : (build files s).find? p =
    if p ∈ (links files s).map Prod.snd then some ⟨p, true, [], []⟩ else none := by
  have hadded : p ∈ added (fileEdits files s ++ linkEdits (links files s)) ↔
      p ∈ (links files s).map Prod.snd := by
    rw [added_build, List.mem_append]
    exact or_iff_right hp
  rw [build_eq_ofEdits, find?_ofEdits, nodeAt_package hp, ite_cond_congr (propext hadded)]

theorem kept_perm (h : files.Perm files') : (kept files s).Perm (kept files' s) := h.filter _

theorem keptPaths_perm (h : files.Perm files') : (keptPaths files s).Perm (keptPaths files' s) :=
  (kept_perm h).map Prod.fst

theorem fileNode_perm (h : files.Perm files') :
    fileNode s (keptPaths files s) = fileNode s (keptPaths files' s) := by
  funext f
  simp only [fileNode_eq, meaning?, resolve?_congr (keptPaths_perm h)]

theorem links_perm (h : files.Perm files') (hpaths : (files.map Prod.fst).Nodup) :
    (links files s).Perm (links files' s) := by
  have hpaths' : (files'.map Prod.fst).Nodup := (h.map Prod.fst).nodup_iff.mp hpaths
  rw [links_eq hpaths, links_eq hpaths', fileNode_perm h]
  exact (kept_perm h).flatMap_right _

theorem sameContents_build (h : files.Perm files') (hpaths : (files.map Prod.fst).Nodup) :
    (build files s).SameContents (build files' s) where
  find path := by
    by_cases hp : path ∈ keptPaths files s
    · obtain ⟨f, hf, rfl⟩ := List.mem_map.mp hp
      have hpaths' : (files'.map Prod.fst).Nodup := (h.map Prod.fst).nodup_iff.mp hpaths
      have hf' : f ∈ kept files' s := (kept_perm h).mem_iff.mp hf
      rw [find?_build_of_kept hpaths hf, find?_build_of_kept hpaths' hf', fileNode_perm h]
    · have hp' : path ∉ keptPaths files' s := mt (keptPaths_perm h).mem_iff.mpr hp
      have hlinks := (links_perm h hpaths (s := s)).map Prod.snd
      rw [find?_build_of_not_kept hp, find?_build_of_not_kept hp',
        ite_cond_congr (propext hlinks.mem_iff)]
  edges e := by
    rw [edges_build, edges_build, mem_tally, mem_tally, (links_perm h hpaths).count_eq]
  maxDepth := by
    rw [build_eq_ofEdits, build_eq_ofEdits, maxDepth_ofEdits, maxDepth_ofEdits]

end Built

/-- Graphs that come about by any edits and hold the same nodes and edges give the same answers,
in whatever order it was all added; and so do the graphs of the same files in another order. -/
theorem answers_independent_of_order :
    (∀ maxDepth maxDepth' edits edits',
      (ofEdits maxDepth edits).SameContents (ofEdits maxDepth' edits') →
        (ofEdits maxDepth edits).SameAnswers (ofEdits maxDepth' edits')) ∧
    ∀ files files' s, files.Perm files' → (files.map Prod.fst).Nodup →
      (build files s).SameAnswers (build files' s) := by
  constructor
  · intro maxDepth maxDepth' edits edits' hs
    exact hs.sameAnswers (wellFormed_ofEdits maxDepth edits) (wellFormed_ofEdits maxDepth' edits')
  · intro files files' s h hpaths
    exact (sameContents_build h hpaths).sameAnswers (wellFormed_build files s)
      (wellFormed_build files' s)

/-- Two files that import each other, and the same with one of them as a package at first. -/
def forwards : List Edit :=
  [.file "a" [] [], .file "b" [] [], .statement "a" "b", .statement "b" "a"]

def backwards : List Edit :=
  [.package "a", .file "b" [] [], .statement "b" "a", .file "a" [] [], .statement "a" "b"]

theorem answers_independent_of_order_backwards :
    let s : Settings := ⟨10, [], true, 0⟩
    (ofEdits 10 forwards).SameContents (ofEdits 10 backwards) ∧
      (ofEdits 10 backwards).cycles = [⟨["a", "b", "a"]⟩] ∧
      app.Perm app.reverse ∧ (app.map Prod.fst).Nodup ∧
      (build app s).view = (build app.reverse s).view := by
  intro s
  have hs : (ofEdits 10 forwards).SameContents (ofEdits 10 backwards) :=
    sameContents_of_perm (wellFormed_ofEdits 10 forwards) (wellFormed_ofEdits 10 backwards)
      (by decide) (by decide) rfl
  have hpaths : (app.map Prod.fst).Nodup := by decide
  have hcycles : (ofEdits 10 forwards).cycles = [⟨["a", "b", "a"]⟩] := by cbv
  obtain ⟨hedits, hbuilt⟩ := answers_independent_of_order
  have hperm : app.Perm app.reverse := (List.reverse_perm app).symm
  exact ⟨hs, (hedits 10 10 forwards backwards hs).cycles ▸ hcycles, hperm, hpaths,
    (hbuilt app app.reverse s hperm hpaths).view⟩

end Graph

end CodeAtlas.Dependency
