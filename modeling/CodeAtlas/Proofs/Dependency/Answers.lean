import CodeAtlas.Proofs.Dependency.History
import Mathlib.Data.Finset.Card
import Mathlib.Data.String.Basic

/-! What a graph answers, by the history of its edits: it is a map from the paths that were added to
their nodes, and a collection of pairs with a pair for every statement that was recorded. -/

namespace CodeAtlas.Dependency

theorem mem_tally {pairs : List (String × String)} {e : Edge} :
    e ∈ tally pairs ↔ 0 < e.statements ∧ e.statements = pairs.count e.ends := by
  rw [tally, List.mem_map]
  constructor
  · rintro ⟨p, hp, rfl⟩
    have hpos : 0 < pairs.count p := List.count_pos_iff.mpr (List.mem_eraseDups.mp hp)
    exact ⟨hpos, rfl⟩
  · rintro ⟨hpos, hcount⟩
    rw [hcount] at hpos
    refine ⟨e.ends, List.mem_eraseDups.mpr (List.count_pos_iff.mp hpos), ?_⟩
    rw [← hcount]
    rfl

theorem length_eraseDups {α : Type} [DecidableEq α] [BEq α] [LawfulBEq α] (l : List α) :
    l.eraseDups.length = l.toFinset.card := by
  have hset : l.eraseDups.toFinset = l.toFinset := by
    ext a
    simp
  rw [← hset, List.toFinset_card_of_nodup (nodup_eraseDups l)]

namespace Graph

variable {g : Graph} {a b p : String} {maxDepth : Nat} {edits : List Edit}

theorem edges_ofEdits : (ofEdits maxDepth edits).edges = tally (recorded edits) := by
  rw [ofEdits_eq_ofHistory, ofHistory]

theorem sorted_sortPaths {paths : List String} (h : paths.Nodup) :
    (sortPaths paths).Pairwise (· < ·) := by
  have hle : (sortPaths paths).Pairwise fun a b => decide (a ≤ b) = true := by
    refine List.pairwise_mergeSort (fun a b c hab hbc => ?_) (fun a b => ?_) paths
    · exact decide_eq_true ((of_decide_eq_true hab).trans (of_decide_eq_true hbc))
    · simpa using le_total a b
  have hne : (sortPaths paths).Nodup := (List.mergeSort_perm _ _).nodup_iff.mpr h
  refine (hle.and hne).imp fun hab => ?_
  exact lt_of_le_of_ne (of_decide_eq_true hab.1) hab.2

/-- Different edges that share one end differ in the other. -/
theorem nodup_other_ends {es : List Edge} {chosen : Edge → Bool} {other : Edge → String}
    (ends : String → String × String) (h : (es.map Edge.ends).Nodup)
    (hends : ∀ e, chosen e = true → e.ends = ends (other e)) :
    ((es.filter chosen).map other).Nodup := by
  have hsub : ((es.filter chosen).map Edge.ends).Nodup := h.sublist (List.filter_sublist.map _)
  have heq : (es.filter chosen).map Edge.ends = ((es.filter chosen).map other).map ends := by
    rw [List.map_map]
    exact List.map_congr_left fun e he => hends e (List.mem_filter.mp he).2
  rw [heq] at hsub
  exact hsub.of_map ends

theorem WellFormed.sorted_dependencies (h : g.WellFormed) :
    (g.dependencies a).Pairwise (· < ·) := by
  apply sorted_sortPaths
  apply nodup_other_ends (fun b => (a, b)) h.edges
  intro e he
  rw [Edge.ends, eq_of_beq he]

theorem WellFormed.sorted_successors (h : g.WellFormed) : (g.successors a).Pairwise (· < ·) :=
  h.sorted_dependencies.sublist List.filter_sublist

theorem WellFormed.sorted_dependents (h : g.WellFormed) :
    (g.dependents a).Pairwise (· < ·) := by
  apply sorted_sortPaths
  apply nodup_other_ends (fun b => (b, a)) h.edges
  intro e he
  rw [Edge.ends, eq_of_beq he]

theorem mem_dependents : b ∈ g.dependents a ↔ g.Imports b a := by
  rw [dependents, sortPaths, (List.mergeSort_perm _ _).mem_iff, Imports, List.mem_map,
    List.mem_map]
  simp [Edge.ends, and_assoc, and_comm]

theorem find?_ofEdits : (ofEdits maxDepth edits).find? p =
    if p ∈ added edits then some (nodeAt edits p) else none := by
  rw [ofEdits_eq_ofHistory, find?_ofHistory]

theorem paths_ofEdits :
    (ofEdits maxDepth edits).nodes.map FileNode.path = (added edits).eraseDups := by
  rw [ofEdits_eq_ofHistory, paths_ofHistory]

theorem isExternal_of_mem_ofEdits {n : FileNode} (hn : n ∈ (ofEdits maxDepth edits).nodes) :
    n.isExternal = true ↔ ∀ imports exports, .file n.path imports exports ∉ edits := by
  have hnode := (wellFormed_ofEdits maxDepth edits).find?_path hn
  rw [find?_ofEdits] at hnode
  split at hnode
  · rw [← isExternal_nodeAt, Option.some.inj hnode]
  · cases hnode

end Graph

end CodeAtlas.Dependency
