import CodeAtlas.Dependency.Summary
import CodeAtlas.Proofs.Dependency.Contents

/-! The numbers by which files are ranked. How often a node is imported is how many statements were
recorded from other nodes to it. -/

namespace CodeAtlas.Dependency

def sumStatements (es : List Edge) : Nat := es.foldr (·.statements + ·) 0

theorem sumStatements_filter_count (a b : String) (chosen : String × String → Bool)
    (es : List Edge) : sumStatements ((Graph.count a b es).filter fun e => chosen e.ends) =
      sumStatements (es.filter fun e => chosen e.ends) + if chosen (a, b) then 1 else 0 := by
  induction es with
  | nil => cases h : chosen (a, b) <;> simp [Graph.count, Edge.ends, h, sumStatements]
  | cons e es ih =>
    have hcons (e : Edge) (es : List Edge) :
        sumStatements ((e :: es).filter fun e => chosen e.ends) =
          (if chosen e.ends then e.statements else 0) +
            sumStatements (es.filter fun e => chosen e.ends) := by
      cases h : chosen e.ends <;> simp [h, sumStatements]
    rw [Graph.count]
    by_cases h : e.source = a ∧ e.target = b
    · have hends : e.ends = (a, b) := by rw [Edge.ends, h.1, h.2]
      rw [if_pos h, hcons, hcons, ← hends]
      cases hchosen : chosen e.ends with
      | true =>
        simp only [Edge.ends] at hchosen
        simp only [Edge.ends, hchosen, if_true]
        omega
      | false =>
        simp only [Edge.ends] at hchosen
        simp [Edge.ends, hchosen]
    · rw [if_neg h, hcons, hcons, ih, Nat.add_assoc]

theorem sumStatements_filter_tally (chosen : String × String → Bool)
    (pairs : List (String × String)) :
    sumStatements ((tally pairs).filter fun e => chosen e.ends) = pairs.countP chosen := by
  induction pairs using List.reverseRecOn with
  | nil => rfl
  | append_singleton pairs p ih =>
    rw [← count_tally, sumStatements_filter_count, ih, List.countP_append, List.countP_singleton]

namespace Graph

variable {files : List (String × Facts)} {s : Settings} {g h : Graph} {p : String}

theorem importedBy_of_edges_eq_tally {pairs : List (String × String)}
    (hedges : g.edges = tally pairs) :
    g.importedBy p = pairs.countP fun l => l.2 == p && l.1 != p := by
  rw [← sumStatements_filter_tally, ← hedges]
  rfl

theorem importedBy_eq_zero_iff {pairs : List (String × String)} (hedges : g.edges = tally pairs) :
    g.importedBy p = 0 ↔ ∀ a, a ≠ p → ¬g.Imports a p := by
  have himports (a b : String) : g.Imports a b ↔ (a, b) ∈ pairs := by
    rw [Imports, hedges, ends_tally, List.mem_eraseDups]
  rw [importedBy_of_edges_eq_tally hedges, List.countP_eq_zero]
  simp only [himports]
  constructor
  · intro h a hne himport
    exact h _ himport (by simp [hne])
  · rintro h ⟨a, b⟩ himport hcounted
    obtain ⟨rfl, hne⟩ : b = p ∧ a ≠ p := by simpa using hcounted
    exact h a hne himport

theorem importedBy_build :
    (build files s).importedBy p = (links files s).countP fun l => l.2 == p && l.1 != p :=
  importedBy_of_edges_eq_tally edges_build

theorem filter_nodes_build (h : (files.map Prod.fst).Nodup) :
    ((build files s).nodes.filter fun n => !n.isExternal) =
      (kept files s).map (fileNode s (keptPaths files s)) := by
  rw [nodes_build h, List.filter_append, List.filter_map, List.filter_map]
  simp [Function.comp_def, fileNode]

/-- The files of a graph, in the order of paths, are those that it was built from. -/
theorem internal_build (h : (files.map Prod.fst).Nodup) : (build files s).internal =
    ((kept files s).mergeSort fun f f' => f.1 ≤ f'.1).map (fileNode s (keptPaths files s)) := by
  rw [internal, filter_nodes_build h]
  symm
  apply List.map_mergeSort
  intros
  rfl

theorem files_build (h : (files.map Prod.fst).Nodup) : (build files s).files =
    ((kept files s).mergeSort fun f f' => f.1 ≤ f'.1).map Prod.fst := by
  rw [Graph.files, internal_build h, List.map_map]
  rfl

theorem isFile_build (h : (files.map Prod.fst).Nodup) :
    (build files s).isFile p = true ↔ p ∈ keptPaths files s := by
  rw [← (wellFormed_build files s).mem_files_iff, files_build h, keptPaths, List.mem_map,
    List.mem_map]
  simp only [List.mem_mergeSort]

theorem importedBy_build_eq_zero :
    (build files s).importedBy p = 0 ↔ ∀ a, a ≠ p → ¬(build files s).Imports a p :=
  importedBy_eq_zero_iff edges_build

theorem mem_internal : n ∈ g.internal ↔ n ∈ g.nodes ∧ n.isExternal = false := by
  rw [internal, List.mem_mergeSort, List.mem_filter, Bool.not_eq_true']

theorem mem_orphaned : p ∈ g.summary.orphaned ↔ ∃ n ∈ g.nodes, n.isExternal = false ∧
    n.path = p ∧ n.exports = [] ∧ g.importedBy p = 0 := by
  have horphan (n : FileNode) :
      g.isOrphan n = true ↔ n.exports = [] ∧ g.importedBy n.path = 0 := by
    rw [isOrphan, Bool.and_eq_true, beq_iff_eq, List.isEmpty_iff]
  rw [summary, List.mem_map]
  simp only [List.mem_filter, mem_internal, horphan]
  constructor
  · rintro ⟨n, ⟨⟨hn, hinternal⟩, horphan⟩, rfl⟩
    exact ⟨n, hn, hinternal, rfl, horphan⟩
  · rintro ⟨n, hn, hinternal, rfl, horphan⟩
    exact ⟨n, ⟨⟨hn, hinternal⟩, horphan⟩, rfl⟩

/-- The files that are orphaned have no exports and are imported by no others. -/
theorem mem_orphaned_build (h : (files.map Prod.fst).Nodup) {f : String × Facts} (hf : f ∈ files) :
    f.1 ∈ (build files s).summary.orphaned ↔ ¬Excluded s f.1 ∧ f.2.exports = [] ∧
      ∀ a, a ≠ f.1 → ¬(build files s).Imports a f.1 := by
  rw [mem_orphaned, importedBy_build_eq_zero]
  constructor
  · rintro ⟨n, hn, hinternal, hpath, hexports, hnone⟩
    obtain ⟨f', hf', hkept, rfl⟩ := (mem_files_build h).mp ⟨hn, hinternal⟩
    obtain rfl : f' = f := List.inj_on_of_nodup_map h hf' hf hpath
    exact ⟨hkept, hexports, hnone⟩
  · rintro ⟨hkept, hexports, hnone⟩
    obtain ⟨hn, hinternal⟩ := (mem_files_build h).mpr ⟨f, hf, hkept, rfl⟩
    exact ⟨_, hn, hinternal, rfl, hexports, hnone⟩

/-- Summaries are equal if the files are the same but for what their imports stand for. -/
theorem summary_congr {φ : FileNode → FileNode} (hinternal : g.internal = h.internal.map φ)
    (hpath : ∀ n, (φ n).path = n.path) (hexports : ∀ n, (φ n).exports = n.exports)
    (himports : ∀ n, (φ n).imports.length = n.imports.length)
    (himported : ∀ n ∈ h.internal, g.importedBy n.path = h.importedBy n.path) :
    g.summary = h.summary := by
  have hrank {count count' : FileNode → Nat}
      (hcount : ∀ n ∈ h.internal, count (φ n) = count' n) : g.rank count = h.rank count' := by
    rw [rank, rank, hinternal, List.map_map]
    refine congrArg topCounts (List.map_congr_left fun n hn => ?_)
    rw [Function.comp_apply, hcount n hn, hpath]
  have horphans : (g.internal.filter g.isOrphan).map FileNode.path =
      (h.internal.filter h.isOrphan).map FileNode.path := by
    rw [hinternal, List.filter_map, List.map_map]
    have horphan : ∀ n ∈ h.internal, (g.isOrphan ∘ φ) n = h.isOrphan n := fun n hn => by
      rw [Function.comp_apply, isOrphan, isOrphan, hexports, hpath, himported n hn]
    rw [List.filter_congr horphan]
    exact List.map_congr_left fun n _ => hpath n
  have hmost : g.rank (fun n => g.importedBy n.path) = h.rank fun n => h.importedBy n.path :=
    hrank fun n hn => by rw [hpath, himported n hn]
  have hexporting : g.rank (fun n => n.exports.length) = h.rank fun n => n.exports.length :=
    hrank fun n _ => by rw [hexports]
  have hheavy : g.rank (fun n => n.imports.length) = h.rank fun n => n.imports.length :=
    hrank fun n _ => himports n
  rw [summary, summary, horphans, hmost, hexporting, hheavy]

end Graph

end CodeAtlas.Dependency
