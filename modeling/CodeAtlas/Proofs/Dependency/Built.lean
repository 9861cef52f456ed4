import CodeAtlas.Dependency.Build
import CodeAtlas.Proofs.Dependency.Files
import CodeAtlas.Proofs.Dependency.IndexedGraph

/-! The graph of a set of files comes about by edits like any other: the files are added first, then
for every import that stands for something a package, if need be, and a statement. Only files import
anything there. -/

namespace CodeAtlas.Dependency

namespace Graph

/-- An edge for an import, to a package if there is no file of that name. -/
def link (g : Graph) (source target : String) : Graph :=
  let g := g.addExternal target
  (g.addImport? source target).getD g

/-- The imports of a node that stand for something. -/
def targets (g : Graph) (path : String) : List String :=
  ((g.find? path).map FileNode.imports).getD [] |>.filterMap Import.resolved

def kept (files : List (String × Facts)) (s : Settings) : List (String × Facts) :=
  files.filter fun f => !(Source.PatternSet.compile s.excludePatterns).accepts f.1

def keptPaths (files : List (String × Facts)) (s : Settings) : List String :=
  (kept files s).map Prod.fst

/-- The files with what their imports stand for, before there is any edge. -/
def unlinked (files : List (String × Facts)) (s : Settings) : Graph :=
  (kept files s).foldl (fun g f =>
    g.addFile f.1 (f.2.imports.map (resolveImport s (keptPaths files s) f.1)) f.2.exports)
    (empty s.maxCircularDepth)

/-- The imports that become edges, in their order. -/
def links (files : List (String × Facts)) (s : Settings) : List (String × String) :=
  (keptPaths files s).flatMap fun path => ((unlinked files s).targets path).map (path, ·)

def fileEdit (s : Settings) (known : List String) (f : String × Facts) : Edit :=
  .file f.1 (f.2.imports.map (resolveImport s known f.1)) f.2.exports

def fileEdits (files : List (String × Facts)) (s : Settings) : List Edit :=
  (kept files s).map (fileEdit s (keptPaths files s))

def linkEdits (links : List (String × String)) : List Edit :=
  links.flatMap fun l => [.package l.2, .statement l.1 l.2]

theorem unlinked_eq_ofEdits (files : List (String × Facts)) (s : Settings) :
    unlinked files s = ofEdits s.maxCircularDepth (fileEdits files s) := by
  rw [ofEdits, fileEdits, List.foldl_map]
  rfl

end Graph

namespace IndexedGraph

open Dependency.Graph (keptPaths fileEdits linkEdits)

/-- The files with their indices, before there is any link. -/
def unlinked (files : List (String × Facts)) (s : Settings) : IndexedGraph :=
  ofEdits s.maxCircularDepth (fileEdits files s)

theorem build_eq (files : List (String × Facts)) (s : Settings) : build files s =
    ((keptPaths files s).flatMap fun path =>
      ((unlinked files s).targets path).map (path, ·)).foldl (fun g l => g.link l.1 l.2)
      (unlinked files s) := by
  rw [unlinked, ofEdits, fileEdits, List.foldl_map]
  rfl

theorem targets_unlinked (files : List (String × Facts)) (s : Settings) (path : String) :
    (unlinked files s).targets path = (Graph.unlinked files s).targets path := by
  rw [targets, Graph.targets, unlinked, (wellFormed_ofEdits _ _).find?_eq, toGraph_ofEdits,
    Graph.unlinked_eq_ofEdits]

theorem build_eq_ofEdits (files : List (String × Facts)) (s : Settings) : build files s =
    ofEdits s.maxCircularDepth (fileEdits files s ++ linkEdits (Graph.links files s)) := by
  have hlinks : (keptPaths files s).flatMap (fun path =>
      ((unlinked files s).targets path).map (path, ·)) = Graph.links files s :=
    List.flatMap_congr fun path _ => by rw [targets_unlinked]
  rw [build_eq, hlinks, ofEdits, List.foldl_append, linkEdits, List.foldl_flatMap, ← ofEdits,
    ← unlinked]
  rfl

end IndexedGraph

namespace Graph

variable {g : Graph} {source target p a b : String}

theorem build_eq_ofEdits (files : List (String × Facts)) (s : Settings) : build files s =
    ofEdits s.maxCircularDepth (fileEdits files s ++ linkEdits (links files s)) := by
  rw [build, IndexedGraph.build_eq_ofEdits, IndexedGraph.toGraph_ofEdits]

theorem build_eq (files : List (String × Facts)) (s : Settings) :
    build files s = (links files s).foldl (fun g l => g.link l.1 l.2) (unlinked files s) := by
  rw [build_eq_ofEdits, ofEdits, List.foldl_append, linkEdits, List.foldl_flatMap, ← ofEdits,
    ← unlinked_eq_ofEdits]
  rfl

theorem wellFormed_build (files : List (String × Facts)) (s : Settings) :
    (build files s).WellFormed := by
  rw [build_eq_ofEdits]
  exact wellFormed_ofEdits _ _

theorem isFile_addFile {imports : List Import} {exports : List Export} :
    (g.addFile source imports exports).isFile p = true ↔ p = source ∨ g.isFile p = true := by
  rw [isFile, find?_addFile]
  split <;> simp_all [isFile]

theorem isFile_addExternal : (g.addExternal target).isFile p = g.isFile p := by
  rw [isFile, find?_addExternal]
  split
  · rename_i h
    obtain ⟨rfl, h⟩ := h
    simp [isFile, contains_eq_false_iff.mp h]
  · rfl

theorem isFile_link : (g.link source target).isFile p = g.isFile p := by
  change ((g.addExternal target).edit (.statement source target)).isFile p = _
  rw [isFile, find?_statement]
  exact isFile_addExternal

theorem imports_of_link (h : (g.link source target).Imports a b) :
    (a = source ∧ b = target) ∨ g.Imports a b := by
  change ((g.addExternal target).edit (.statement source target)).Imports a b at h
  rw [edit] at h
  cases hg : (g.addExternal target).addImport? source target with
  | none =>
    rw [hg] at h
    exact .inr (by rwa [Option.getD_none, Imports, edges_addExternal] at h)
  | some g' =>
    rw [hg, Option.getD_some, imports_addImport hg, Imports, edges_addExternal] at h
    exact h

theorem edges_unlinked (files : List (String × Facts)) (s : Settings) :
    (unlinked files s).edges = [] :=
  List.foldlRecOn (motive := fun g : Graph => g.edges = []) _ _ rfl
    fun _ h _ _ => edges_addFile.trans h

theorem isFile_unlinked (files : List (String × Facts)) (s : Settings)
    (hp : p ∈ keptPaths files s) : (unlinked files s).isFile p = true := by
  have key : ∀ (fs : List (String × Facts)) (known : List String) (g : Graph),
      (g.isFile p = true ∨ p ∈ fs.map Prod.fst) →
      (fs.foldl (fun g f => g.addFile f.1 (f.2.imports.map (resolveImport s known f.1))
        f.2.exports) g).isFile p = true := by
    intro fs known
    induction fs with
    | nil => exact fun g h => h.resolve_right List.not_mem_nil
    | cons f fs ih =>
      intro g h
      refine ih _ ?_
      rw [isFile_addFile]
      rw [List.map_cons, List.mem_cons] at h
      tauto
  exact key _ _ _ (.inr hp)

theorem mem_keptPaths_of_mem_links {files : List (String × Facts)} {s : Settings}
    {l : String × String} (h : l ∈ links files s) : l.1 ∈ keptPaths files s := by
  obtain ⟨path, hp, h⟩ := List.mem_flatMap.mp h
  obtain ⟨t, -, rfl⟩ := List.mem_map.mp h
  exact hp

/-- Packages import nothing in the graph of a set of files. -/
theorem isFile_of_imports_build {files : List (String × Facts)} {s : Settings}
    (h : (build files s).Imports a b) : (build files s).isFile a = true := by
  rw [build_eq] at h ⊢
  refine List.foldlRecOn (motive := fun g : Graph =>
    (∀ p ∈ keptPaths files s, g.isFile p = true) ∧ ∀ {a b}, g.Imports a b → g.isFile a = true)
    (links files s) _ ⟨fun p => isFile_unlinked files s, fun {a b} h => ?_⟩ ?_ |>.2 h
  · rw [Imports, edges_unlinked] at h
    exact absurd h List.not_mem_nil
  · rintro g ⟨hkept, himports⟩ l hl
    refine ⟨fun p hp => isFile_link.trans (hkept p hp), fun {a b} h => ?_⟩
    rw [isFile_link]
    rcases imports_of_link h with ⟨rfl, -⟩ | h
    · exact hkept _ (mem_keptPaths_of_mem_links hl)
    · exact himports h

end Graph

end CodeAtlas.Dependency
