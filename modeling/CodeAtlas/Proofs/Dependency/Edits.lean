import CodeAtlas.Dependency.Graph
import Mathlib.Data.List.Nodup

/-! Graphs as they come about: files, packages and import statements are added in any order. The
paths of such a graph are unique, between two nodes there is at most one edge, and every edge leads
from a node to a node. -/

namespace CodeAtlas.Dependency

/-- Something that is added to a graph. -/
inductive Edit where
  | file (path : String) (imports : List Import) (exports : List Export)
  | package (name : String)
  | statement (source target : String)
  deriving DecidableEq, Repr

def Edge.ends (e : Edge) : String × String := (e.source, e.target)

namespace Graph

/-- A graph with one thing more. A statement from or to a node that is not there is left out. -/
def edit (g : Graph) : Edit → Graph
  | .file path imports exports => g.addFile path imports exports
  | .package name => g.addExternal name
  | .statement source target => (g.addImport? source target).getD g

def ofEdits (maxDepth : Nat) (edits : List Edit) : Graph := edits.foldl edit (empty maxDepth)

def Imports (g : Graph) (a b : String) : Prop := (a, b) ∈ g.edges.map Edge.ends

structure WellFormed (g : Graph) : Prop where
  paths : (g.nodes.map FileNode.path).Nodup
  edges : (g.edges.map Edge.ends).Nodup
  ends : ∀ {a b}, g.Imports a b → g.contains a = true ∧ g.contains b = true

variable {g : Graph} {path name source target p a b : String} {imports : List Import}
  {exports : List Export}

instance : Decidable (g.Imports a b) := inferInstanceAs (Decidable (_ ∈ _))

theorem find?_eq_some_path {n : FileNode} (h : g.find? path = some n) : n.path = path := by
  simpa using List.find?_some h

theorem mem_of_find? {n : FileNode} (h : g.find? path = some n) : n ∈ g.nodes :=
  List.mem_of_find?_eq_some h

theorem contains_iff : g.contains path = true ↔ path ∈ g.nodes.map FileNode.path := by
  simp [contains, find?, List.find?_isSome]

theorem contains_eq_false_iff : g.contains path = false ↔ g.find? path = none := by
  simp [contains]

/-- Replacing the node of a path changes what is found there and nowhere else. -/
theorem find?_map_replace (node : FileNode) (h : node.path = path) (nodes : List FileNode) :
    (nodes.map fun n => if n.path == path then node else n).find? (·.path == p) =
      if p = path then (nodes.find? (·.path == p)).map fun _ => node
      else nodes.find? (·.path == p) := by
  induction nodes with
  | nil => simp
  | cons n ns ih =>
    rw [List.map_cons, List.find?_cons, List.find?_cons, ih]
    by_cases hn : n.path = path
    · rw [if_pos (beq_iff_eq.mpr hn), h, hn]
      by_cases hp : p = path
      · simp [hp]
      · have hpath : (path == p) = false := beq_eq_false_iff_ne.mpr (Ne.symm hp)
        simp [hp, hpath]
    · rw [if_neg (mt beq_iff_eq.mp hn)]
      by_cases hp : p = path
      · have hpath : (n.path == path) = false := beq_eq_false_iff_ne.mpr hn
        simp [hp, hpath]
      · simp [hp]

theorem find?_addFile : (g.addFile path imports exports).find? p =
    if p = path then some ⟨path, false, imports, exports⟩ else g.find? p := by
  unfold addFile
  split
  · rename_i h
    obtain ⟨n, hn⟩ := Option.isSome_iff_exists.mp h
    rw [find?] at hn
    refine (find?_map_replace ⟨path, false, imports, exports⟩ rfl g.nodes).trans ?_
    by_cases hp : p = path
    · subst hp
      rw [if_pos rfl, if_pos rfl, hn]
      rfl
    · rw [if_neg hp, if_neg hp, find?]
  · rename_i h
    have hnone := contains_eq_false_iff.mp (Bool.eq_false_iff.mpr h)
    simp only [find?, List.find?_append, List.find?_singleton] at hnone ⊢
    by_cases hp : p = path
    · subst hp
      simp [hnone]
    · simp [hp, Ne.symm hp]

theorem find?_addExternal : (g.addExternal name).find? p =
    if p = name ∧ g.contains name = false then some ⟨name, true, [], []⟩ else g.find? p := by
  unfold addExternal
  split
  · rename_i h
    simp [h]
  · rename_i h
    have hnone := contains_eq_false_iff.mp (Bool.eq_false_iff.mpr h)
    simp only [find?, List.find?_append, List.find?_singleton] at hnone ⊢
    by_cases hp : p = name
    · subst hp
      simp [hnone, h]
    · simp [hp, Ne.symm hp]

theorem addImport?_eq_some_iff {g' : Graph} : g.addImport? source target = some g' ↔
    g.contains source = true ∧ g.contains target = true ∧
      g' = { g with edges := count source target g.edges } := by
  unfold addImport?
  split
  · rename_i h
    obtain ⟨hs, ht⟩ := Bool.and_eq_true_iff.mp h
    simp only [Option.some.injEq, hs, ht, true_and]
    exact eq_comm
  · rename_i h
    rw [Bool.and_eq_true_iff] at h
    simp only [reduceCtorEq, false_iff]
    exact fun ⟨hs, ht, _⟩ => h ⟨hs, ht⟩

theorem find?_statement : (g.edit (.statement source target)).find? p = g.find? p := by
  rw [edit]
  cases h : g.addImport? source target with
  | none => rfl
  | some g' =>
    obtain ⟨-, -, rfl⟩ := addImport?_eq_some_iff.mp h
    rfl

theorem ends_count (es : List Edge) : (count source target es).map Edge.ends =
    if (source, target) ∈ es.map Edge.ends then es.map Edge.ends
    else es.map Edge.ends ++ [(source, target)] := by
  induction es with
  | nil => simp [count, Edge.ends]
  | cons e es ih =>
    by_cases h : e.source = source ∧ e.target = target
    · have he : e.ends = (source, target) := by simp [Edge.ends, h]
      rw [count, if_pos h, List.map_cons, List.map_cons, he, if_pos List.mem_cons_self, ← he]
      rfl
    · have he : (source, target) ≠ e.ends := by simpa [Edge.ends, eq_comm] using h
      simp only [count, if_neg h, List.map_cons, ih, List.mem_cons, he, false_or]
      split <;> rfl

theorem edges_addFile : (g.addFile path imports exports).edges = g.edges := by
  unfold addFile
  split <;> rfl

theorem edges_addExternal : (g.addExternal name).edges = g.edges := by
  unfold addExternal
  split <;> rfl

theorem imports_addImport {g' : Graph} (h : g.addImport? source target = some g') :
    g'.Imports a b ↔ (a = source ∧ b = target) ∨ g.Imports a b := by
  obtain ⟨-, -, rfl⟩ := addImport?_eq_some_iff.mp h
  rw [Imports, ends_count]
  split
  · rename_i hmem
    exact ⟨Or.inr, fun h => h.elim (fun ⟨ha, hb⟩ => by rwa [ha, hb]) id⟩
  · simp [Imports, or_comm]

theorem nodes_addFile_paths : (g.addFile path imports exports).nodes.map FileNode.path =
    if g.contains path then g.nodes.map FileNode.path
    else g.nodes.map FileNode.path ++ [path] := by
  unfold addFile
  split
  · rw [List.map_map]
    refine List.map_congr_left fun n _ => ?_
    by_cases hn : n.path = path <;> simp [hn]
  · simp

theorem nodes_addExternal_paths : (g.addExternal name).nodes.map FileNode.path =
    if g.contains name then g.nodes.map FileNode.path
    else g.nodes.map FileNode.path ++ [name] := by
  unfold addExternal
  split <;> simp

theorem contains_addFile :
    (g.addFile path imports exports).contains p = true ↔ p = path ∨ g.contains p = true := by
  rw [contains, find?_addFile]
  split <;> simp_all [contains]

theorem contains_addExternal :
    (g.addExternal name).contains p = true ↔ p = name ∨ g.contains p = true := by
  rw [contains, find?_addExternal]
  split
  · simp_all
  · rename_i h
    refine ⟨Or.inr, fun hp => hp.elim (fun hp => ?_) id⟩
    subst hp
    rw [not_and, Bool.not_eq_false] at h
    exact h rfl

theorem contains_addImport {g' : Graph} (h : g.addImport? source target = some g') :
    g'.contains p = g.contains p := by
  obtain ⟨-, -, rfl⟩ := addImport?_eq_some_iff.mp h
  rfl

theorem nodup_concat_of_not_contains (hn : (g.nodes.map FileNode.path).Nodup)
    (h : ¬g.contains path = true) : (g.nodes.map FileNode.path ++ [path]).Nodup := by
  rw [contains_iff] at h
  exact hn.append (List.nodup_singleton _) (List.disjoint_singleton.mpr h)

theorem WellFormed.empty (maxDepth : Nat) : (Graph.empty maxDepth).WellFormed :=
  ⟨List.nodup_nil, List.nodup_nil, fun h => absurd h List.not_mem_nil⟩

theorem WellFormed.addFile (h : g.WellFormed) : (g.addFile path imports exports).WellFormed := by
  refine ⟨?_, by rw [edges_addFile]; exact h.edges, fun {a b} hab => ?_⟩
  · rw [nodes_addFile_paths]
    split
    · exact h.paths
    · exact nodup_concat_of_not_contains h.paths ‹_›
  · rw [Imports, edges_addFile] at hab
    obtain ⟨ha, hb⟩ := h.ends hab
    exact ⟨contains_addFile.mpr (.inr ha), contains_addFile.mpr (.inr hb)⟩

theorem WellFormed.addExternal (h : g.WellFormed) : (g.addExternal name).WellFormed := by
  refine ⟨?_, by rw [edges_addExternal]; exact h.edges, fun {a b} hab => ?_⟩
  · rw [nodes_addExternal_paths]
    split
    · exact h.paths
    · exact nodup_concat_of_not_contains h.paths ‹_›
  · rw [Imports, edges_addExternal] at hab
    obtain ⟨ha, hb⟩ := h.ends hab
    exact ⟨contains_addExternal.mpr (.inr ha), contains_addExternal.mpr (.inr hb)⟩

theorem WellFormed.addImport {g' : Graph} (h : g.WellFormed)
    (hg : g.addImport? source target = some g') : g'.WellFormed := by
  have himports : ∀ {a b}, g'.Imports a b ↔ (a = source ∧ b = target) ∨ g.Imports a b :=
    imports_addImport hg
  have hcontains : ∀ {p}, g'.contains p = g.contains p := contains_addImport hg
  obtain ⟨hs, ht, rfl⟩ := addImport?_eq_some_iff.mp hg
  refine ⟨h.paths, ?_, fun {a b} hab => ?_⟩
  · rw [ends_count]
    split
    · exact h.edges
    · exact h.edges.append (List.nodup_singleton _) (List.disjoint_singleton.mpr ‹_›)
  · rw [hcontains, hcontains]
    rcases himports.mp hab with ⟨rfl, rfl⟩ | hab
    · exact ⟨hs, ht⟩
    · exact h.ends hab

theorem WellFormed.edit (h : g.WellFormed) (e : Edit) : (g.edit e).WellFormed := by
  cases e with
  | file path imports exports => exact h.addFile
  | package name => exact h.addExternal
  | statement source target =>
    rw [Graph.edit]
    cases hg : g.addImport? source target with
    | none => exact h
    | some g' => exact h.addImport hg

theorem maxDepth_edit (e : Edit) : (g.edit e).maxDepth = g.maxDepth := by
  cases e with
  | file path imports exports =>
    rw [edit, addFile]
    split <;> rfl
  | package name =>
    rw [edit, addExternal]
    split <;> rfl
  | statement source target =>
    rw [edit]
    cases hg : g.addImport? source target with
    | none => rfl
    | some g' =>
      obtain ⟨-, -, rfl⟩ := addImport?_eq_some_iff.mp hg
      rfl

theorem foldl_edit_induction {P : Graph → Prop} (hg : P g) (edit : ∀ g e, P g → P (g.edit e))
    (edits : List Edit) : P (edits.foldl Graph.edit g) :=
  List.foldlRecOn edits Graph.edit hg fun g h e _ => edit g e h

theorem wellFormed_ofEdits (maxDepth : Nat) (edits : List Edit) :
    (ofEdits maxDepth edits).WellFormed :=
  foldl_edit_induction (.empty maxDepth) (fun _ e h => h.edit e) edits

theorem maxDepth_ofEdits (maxDepth : Nat) (edits : List Edit) :
    (ofEdits maxDepth edits).maxDepth = maxDepth :=
  foldl_edit_induction (P := fun g => g.maxDepth = maxDepth) rfl
    (fun _ e h => (maxDepth_edit e).trans h) edits

end Graph

end CodeAtlas.Dependency
