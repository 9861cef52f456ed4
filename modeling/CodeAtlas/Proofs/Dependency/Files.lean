import CodeAtlas.Proofs.Dependency.Edits

/-! The files of a graph and the imports between them. -/

namespace CodeAtlas.Dependency.Graph

variable {g : Graph} {path a b : String}

def FileImport (g : Graph) (a b : String) : Prop :=
  g.isFile a = true ∧ g.isFile b = true ∧ g.Imports a b

instance : Decidable (g.FileImport a b) := inferInstanceAs (Decidable (_ ∧ _ ∧ _))

theorem WellFormed.find?_path {n : FileNode} (h : g.WellFormed) (hn : n ∈ g.nodes) :
    g.find? n.path = some n := by
  have hsome : (g.find? n.path).isSome :=
    contains_iff.mpr (List.mem_map_of_mem hn)
  obtain ⟨m, hm⟩ := Option.isSome_iff_exists.mp hsome
  have hmn := List.inj_on_of_nodup_map h.paths (mem_of_find? hm) hn (find?_eq_some_path hm)
  rw [hm, hmn]

theorem isFile_iff : g.isFile path = true ↔ ∃ n, g.find? path = some n ∧ n.isExternal = false := by
  rw [isFile, Option.any_eq_true]
  simp

theorem perm_files (g : Graph) :
    g.files.Perm ((g.nodes.filter (!·.isExternal)).map FileNode.path) :=
  (List.mergeSort_perm _ _).map FileNode.path

theorem WellFormed.nodup_files (h : g.WellFormed) : g.files.Nodup :=
  (perm_files g).nodup_iff.mpr (h.paths.sublist (List.filter_sublist.map FileNode.path))

theorem WellFormed.mem_files_iff (h : g.WellFormed) : path ∈ g.files ↔ g.isFile path = true := by
  rw [(perm_files g).mem_iff, isFile_iff]
  constructor
  · intro hmem
    obtain ⟨n, hn, rfl⟩ := List.mem_map.mp hmem
    obtain ⟨hn, hext⟩ := List.mem_filter.mp hn
    exact ⟨n, h.find?_path hn, by simpa using hext⟩
  · rintro ⟨n, hn, hext⟩
    refine List.mem_map.mpr ⟨n, List.mem_filter.mpr ⟨mem_of_find? hn, by simpa using hext⟩, ?_⟩
    exact find?_eq_some_path hn

theorem mem_dependencies : b ∈ g.dependencies a ↔ g.Imports a b := by
  rw [dependencies, sortPaths, (List.mergeSort_perm _ _).mem_iff, Imports, List.mem_map,
    List.mem_map]
  simp [Edge.ends, and_assoc]

theorem mem_successors : b ∈ g.successors a ↔ g.Imports a b ∧ g.isFile b = true := by
  rw [successors, List.mem_filter, mem_dependencies]

theorem fileImport_iff : g.FileImport a b ↔ g.isFile a = true ∧ b ∈ g.successors a := by
  rw [FileImport, mem_successors, and_comm (a := g.Imports a b)]

end CodeAtlas.Dependency.Graph
