import CodeAtlas.Proofs.Grammar.Subtrees
import CodeAtlas.Proofs.Session.Imports

/-! What a session says of the imports from and to one file. It is put together from what was found
in the file and from the graph, without a report, and it says the same as a report on the files
that are kept. -/

namespace CodeAtlas

section Extraction

variable {file : String} {i : Import}

theorem Node.resolved_of_statementImport? {n : Node} (h : n.statementImport? file = some i) :
    i.resolved = none := by
  unfold statementImport? at h
  obtain ⟨source, -, h⟩ := Option.bind_eq_some_iff.mp h
  dsimp only at h
  split at h
  · cases h
  · cases h
    rfl

theorem Node.resolved_of_callImport? {parent : Option Node} {n : Node}
    (h : n.callImport? file parent = some i) : i.resolved = none := by
  unfold callImport? at h
  obtain ⟨callee, -, h⟩ := Option.bind_eq_some_iff.mp h
  obtain ⟨kind, -, h⟩ := Option.bind_eq_some_iff.mp h
  obtain ⟨arguments, -, h⟩ := Option.bind_eq_some_iff.mp h
  obtain ⟨source, -, h⟩ := Option.bind_eq_some_iff.mp h
  cases h
  rfl

/-- An import is found without anything that it stands for. -/
theorem Facts.resolved_ofTree (file : String) (root : Node) :
    ∀ i ∈ (ofTree file root).imports, i.resolved = none := by
  refine Node.walk_induction (P := fun facts : Facts => ∀ i ∈ facts.imports, i.resolved = none)
    (fun _ hi => absurd hi List.not_mem_nil) fun n _ parent facts hfacts => ?_
  have hadd : ∀ found : Option Import, (∀ i, found = some i → i.resolved = none) →
      ∀ i ∈ facts.imports ++ found.toList, i.resolved = none := by
    intro found hfound i hi
    rcases List.mem_append.mp hi with hi | hi
    · exact hfacts i hi
    · exact hfound i (Option.mem_toList.mp hi)
  unfold visit
  split
  · exact hadd _ fun i => Node.resolved_of_statementImport?
  · exact hadd _ fun i => Node.resolved_of_callImport?
  · exact hfacts
  · exact hfacts

theorem FileAnalysis.resolved_of (c : Config) (file text : String) :
    ∀ i ∈ (FileAnalysis.of c file text).facts.imports, i.resolved = none := by
  unfold FileAnalysis.of
  split
  · exact Facts.resolved_ofTree file _
  · exact fun _ hi => absurd hi List.not_mem_nil

end Extraction

namespace Dependency.Graph

variable {files : List (String × Facts)} {s : Settings} {f : String × Facts} {target : String}

theorem mem_dependencies_build (h : (files.map Prod.fst).Nodup) (hf : f ∈ kept files s) :
    target ∈ (build files s).dependencies f.1 ↔
      ∃ i ∈ (fileNode s (keptPaths files s) f).imports, i.resolved = some target := by
  rw [mem_dependencies, imports_build, ← List.count_pos_iff, count_links target h hf,
    List.countP_pos_iff]
  simp only [beq_iff_eq]

end Dependency.Graph

namespace Session

open Dependency Dependency.Graph

variable {c : Config} {s : Session} {source : Source} {past : List Event} {k : KeptFile}
  {key path : String} {paths : List String}

/-- The paths that imports may stand for. -/
def known (s : Session) : List String := keptPaths (s.kept.map entry) s.config.dependencies

theorem entry_mem_kept (hk : k ∈ s.kept) (hincluded : ¬Excluded s.config.dependencies k.key) :
    entry k ∈ Graph.kept (s.kept.map entry) s.config.dependencies :=
  Graph.mem_kept_iff.mpr ⟨List.mem_map_of_mem hk, hincluded⟩

/-- The imports of a file with what each of them stands for. -/
def resolvedImports (s : Session) (k : KeptFile) : List Import :=
  k.analysis.facts.imports.map fun i =>
    { i with resolved := meaning? s.config.dependencies s.known k.key i.specifier }

theorem Reflects.find?_graph (h : s.Reflects c past) (hs : s.Current) (hk : k ∈ s.kept)
    (hincluded : ¬Excluded s.config.dependencies k.key) :
    s.graph.find? k.key =
      some ⟨k.key, false, s.resolvedImports k, k.analysis.facts.exports⟩ := by
  rw [hs.graph_eq]
  exact (find?_build_of_kept h.nodup_keys (entry_mem_kept hk hincluded)).trans
    (congrArg some (fileNode_eq _ _ _))

theorem Reflects.mem_dependencies (h : s.Reflects c past) (hs : s.Current) (hk : k ∈ s.kept)
    (hincluded : ¬Excluded s.config.dependencies k.key) {target : String} :
    target ∈ s.graph.dependencies k.key ↔
      ∃ i ∈ s.resolvedImports k, i.resolved = some target := by
  have hbuild : target ∈ (build (s.kept.map entry) s.config.dependencies).dependencies k.key ↔ _ :=
    mem_dependencies_build h.nodup_keys (entry_mem_kept hk hincluded)
  rw [fileNode_eq] at hbuild
  rw [hs.graph_eq]
  exact hbuild

theorem Reflects.dependencyResult?_eq (h : s.Reflects c past) (hs : s.Current)
    (hfind : s.find? (FilePath.key path) = some k)
    (hincluded : ¬Excluded s.config.dependencies k.key) :
    s.dependencyResult? path = some
      { file := k.key
        imports := s.resolvedImports k
        exports := k.analysis.facts.exports
        dependencies := s.graph.dependencies k.key
        dependents := s.graph.dependents k.key
        unused := k.analysis.unused
        cycles := s.graph.cycles.filter (·.contains k.key) } := by
  have hkey : k.key = FilePath.key path := by simpa using List.find?_some hfind
  have hnode := h.find?_graph hs (List.mem_of_find?_eq_some hfind) hincluded
  rw [dependencyResult?, hfind, ← hkey, Option.map_some, hnode]
  rfl

theorem Current.wellFormed_graph (hs : s.Current) : s.graph.WellFormed := by
  rw [hs.graph_eq]
  exact wellFormed_build _ _

theorem ensureAll_of_kept (hkept : ∀ p ∈ paths, (s.find? (FilePath.key p)).isSome) :
    s.ensureAll source paths = s := by
  induction paths with
  | nil => rfl
  | cons p paths ih =>
    rw [List.forall_mem_cons] at hkept
    have hensure : s.ensure source p = (s, .known) := by
      rw [ensure, if_pos hkept.1]
    rw [ensureAll_cons, hensure]
    exact ih hkept.2

/-- Nothing comes of a report on files that are kept but the report. -/
theorem Current.analyzeProject_of_kept (hs : s.Current)
    (hkept : ∀ p ∈ paths, (s.find? (FilePath.key p)).isSome) :
    (s.analyzeProject source paths).1 = s := by
  rw [analyzeProject_eq, ensureAll_of_kept hkept]
  exact hs

theorem Reflects.mem_files_of_kept (h : s.Reflects c past)
    (hkept : ∀ p ∈ paths, (s.find? (FilePath.key p)).isSome) (hpath : path ∈ paths) :
    ∃ f ∈ (s.analyzeProject source paths).2.files, f.path = FilePath.key path := by
  have hasked : path ∈ s.asks source false paths := by
    have hlisted := (asks_perm s source paths).mem_iff.mpr hpath
    refine (List.mem_append.mp hlisted).resolve_right fun hvain => ?_
    obtain ⟨hnone, -⟩ := mem_map_asks_true.mp (List.mem_map_of_mem hvain)
    have hsome := hkept path hpath
    rw [hnone] at hsome
    cases hsome
  have hreported : FilePath.key path ∈
      (s.analyzeProject source paths).2.files.map FileReport.path := by
    rw [h.files_analyzeProject, List.mem_eraseDups]
    exact List.mem_map_of_mem hasked
  exact List.mem_map.mp hreported

theorem Reflects.imports_of_mem_files (h : s.Reflects c past) (hs : s.Current)
    (hkept : ∀ p ∈ paths, (s.find? (FilePath.key p)).isSome) (hfind : s.find? key = some k)
    (hincluded : ¬Excluded s.config.dependencies k.key) {f : FileReport}
    (hf : f ∈ (s.analyzeProject source paths).2.files) (hpath : f.path = key) :
    f.analysis.facts.imports = s.resolvedImports k ∧
      f.cycles = s.graph.cycles.filter (·.contains key) := by
  obtain ⟨k', hfind', heq⟩ := h.of_mem_files hf
  rw [hs.analyzeProject_of_kept hkept] at hfind' heq
  obtain rfl : k' = k := Option.some.inj (hfind'.symm.trans (hpath ▸ hfind))
  have hkey : k'.key = key := by simpa using List.find?_some hfind
  have hfile : k'.analysis.file = key := h.file_of_find? hfind
  have hnode := h.find?_graph hs (List.mem_of_find?_eq_some hfind) hincluded
  subst heq
  constructor
  · change FileReport.resolved s.graph k'.analysis = _
    rw [FileReport.resolved, hfile, ← hkey, hnode]
    rfl
  · change s.graph.cycles.filter (·.contains k'.analysis.file) = _
    rw [hfile]

/-- What is said of a file that is kept and not left out of the graph: its imports are those that
were found in it, which stood for nothing then, with what each of them stands for; its dependencies
are what they stand for, in order and once each; and a report on files that are kept, which changes
nothing, says the same of its imports and of its rings. Of two files that are kept the one is among
the dependencies of the other exactly if the other is among its dependents. -/
theorem dependencyResult?_agrees (c : Config) (requests : List (Source × Request)) :
    let s := serve c requests
    (∀ path k, s.find? (FilePath.key path) = some k →
      ¬Excluded c.dependencies (FilePath.key path) →
      ∃ r, s.dependencyResult? path = some r ∧ r.file = FilePath.key path ∧
        (∀ i ∈ k.analysis.facts.imports, i.resolved = none) ∧
        r.imports = k.analysis.facts.imports.map (fun i =>
          { i with resolved := meaning? c.dependencies s.known r.file i.specifier }) ∧
        r.exports = k.analysis.facts.exports ∧ r.unused = k.analysis.unused ∧
        r.dependencies.Pairwise (· < ·) ∧
        (∀ target, target ∈ r.dependencies ↔ ∃ i ∈ r.imports, i.resolved = some target) ∧
        ∀ source paths, (∀ p ∈ paths, (s.find? (FilePath.key p)).isSome) → path ∈ paths →
          (s.analyzeProject source paths).1 = s ∧
          (∃ f ∈ (s.analyzeProject source paths).2.files, f.path = r.file) ∧
          ∀ f ∈ (s.analyzeProject source paths).2.files, f.path = r.file →
            f.analysis.facts.imports = r.imports ∧ f.cycles = r.cycles) ∧
    ∀ a b ra rb, s.dependencyResult? a = some ra → s.dependencyResult? b = some rb →
      (rb.file ∈ ra.dependencies ↔ ra.file ∈ rb.dependents) := by
  intro s
  obtain ⟨h, hs⟩ := serve_invariant c requests
  have hconfig : s.config = c := h.config
  constructor
  · intro path k hfind hincluded
    have hkey : k.key = FilePath.key path := by simpa using List.find?_some hfind
    have hk : k ∈ s.kept := List.mem_of_find?_eq_some hfind
    rw [← hkey, ← hconfig] at hincluded
    have hunresolved : ∀ i ∈ k.analysis.facts.imports, i.resolved = none := by
      rw [h.analysis_of_find? hfind]
      exact FileAnalysis.resolved_of _ _ _
    have himports : s.resolvedImports k = k.analysis.facts.imports.map (fun i =>
        { i with resolved := meaning? c.dependencies s.known k.key i.specifier }) := by
      rw [resolvedImports, hconfig]
    refine ⟨_, h.dependencyResult?_eq hs hfind hincluded, hkey, hunresolved, himports, rfl, rfl,
      hs.wellFormed_graph.sorted_dependencies, fun target => h.mem_dependencies hs hk hincluded,
      fun source paths hkept hpath => ⟨hs.analyzeProject_of_kept hkept, ?_, ?_⟩⟩
    · rw [hkey]
      exact h.mem_files_of_kept hkept hpath
    · intro f hf hpath
      exact h.imports_of_mem_files hs hkept (hkey ▸ hfind) hincluded hf hpath
  · intro a b ra rb ha hb
    obtain ⟨ka, -, rfl⟩ := Option.map_eq_some_iff.mp ha
    obtain ⟨kb, -, rfl⟩ := Option.map_eq_some_iff.mp hb
    exact Graph.mem_dependencies.trans mem_dependents.symm

/-- A file that imports another one and a package, and is imported back. -/
def exchange : Source.Memory :=
  .ofFiles [("a.ts", "import './b'\nimport 'react'"), ("b.ts", "import './a'"), ("chart.js", "")]

theorem dependencyResult?_agrees_exchange :
    let s := serve chartless [(exchange.source, .project ["b.ts", "chart.js", "a.ts"])]
    ∃ k ra rb, s.find? (FilePath.key "./a.ts") = some k ∧
      ¬Excluded chartless.dependencies (FilePath.key "./a.ts") ∧
      s.dependencyResult? "./a.ts" = some ra ∧ s.dependencyResult? "b.ts" = some rb ∧
      ra.imports.map Import.resolved = [some "b.ts", some "react"] ∧
      "react" ∈ ra.dependencies ∧ "b.ts" ∈ ra.dependencies ∧ "a.ts" ∈ rb.dependents ∧
      (∀ p ∈ ["b.ts", "./a.ts"], (s.find? (FilePath.key p)).isSome) ∧
      ∃ f ∈ (s.analyzeProject exchange.source ["b.ts", "./a.ts"]).2.files,
        f.path = "a.ts" ∧ f.analysis.facts.imports = ra.imports ∧ f.cycles = ra.cycles := by
  intro s
  have hconfig : s.config = chartless := (serve_invariant chartless _).1.config
  have hknown : s.known = ["a.ts", "b.ts"] := by decide +kernel
  have hincluded : ∀ key ∈ ["a.ts", "b.ts"], ¬Excluded chartless.dependencies key := by
    intro key hkey
    rw [← hknown, known, hconfig] at hkey
    exact (mem_keptPaths_iff.mp hkey).2
  have hkeys : FilePath.key "./a.ts" = "a.ts" ∧ FilePath.key "b.ts" = "b.ts" := by decide +kernel
  have hkept : ∀ p ∈ ["b.ts", "./a.ts"], (s.find? (FilePath.key p)).isSome := by decide +kernel
  have hspecifiers : (s.find? (FilePath.key "./a.ts")).map
      (fun k => k.analysis.facts.imports.map Import.specifier) = some ["./b", "react"] := by
    decide +kernel
  have hmeanings : ["./b", "react"].map (meaning? chartless.dependencies ["a.ts", "b.ts"] "a.ts") =
      [some "b.ts", some "react"] := by decide +kernel
  obtain ⟨hagrees, hmutual⟩ := dependencyResult?_agrees chartless
    [(exchange.source, .project ["b.ts", "chart.js", "a.ts"])]
  obtain ⟨k, hfind, hk⟩ := Option.map_eq_some_iff.mp hspecifiers
  obtain ⟨kb, hfindb⟩ := Option.isSome_iff_exists.mp (hkept "b.ts" List.mem_cons_self)
  have hincludeda := hkeys.1 ▸ hincluded "a.ts" (by decide)
  obtain ⟨ra, ha, hfile, -, himports, -, -, -, hdependencies, hreport⟩ :=
    hagrees "./a.ts" k hfind hincludeda
  obtain ⟨rb, hb, hfileb, -⟩ := hagrees "b.ts" kb hfindb (hkeys.2 ▸ hincluded "b.ts" (by decide))
  rw [hkeys.1] at hfile
  rw [hkeys.2] at hfileb
  have hresolved : ra.imports.map Import.resolved = [some "b.ts", some "react"] := by
    change s.known = _ at hknown
    rw [himports, hfile, List.map_map, hknown, ← hmeanings, ← hk, List.map_map]
    rfl
  have hmem : ∀ target, some target ∈ [some "b.ts", some "react"] → target ∈ ra.dependencies := by
    intro target htarget
    rw [← hresolved] at htarget
    exact (hdependencies target).mpr (List.mem_map.mp htarget)
  have hb_mem : "b.ts" ∈ ra.dependencies := hmem "b.ts" (by decide)
  have ha_mem : "a.ts" ∈ rb.dependents := hfile ▸ (hmutual _ _ ra rb ha hb).mp (hfileb ▸ hb_mem)
  obtain ⟨-, ⟨f, hf, hpath⟩, hsame⟩ :=
    hreport exchange.source ["b.ts", "./a.ts"] hkept (by decide)
  exact ⟨k, ra, rb, hfind, hincludeda, ha, hb, hresolved, hmem "react" (by decide), hb_mem, ha_mem,
    hkept, f, hf, hpath.trans hfile, hsame f hf hpath⟩

end Session

end CodeAtlas
