import CodeAtlas.Proofs.Dependency.Agreement
import CodeAtlas.Proofs.Session.Batches

/-! What a report says of the imports of a file. They are the ones that were found in it, but for
what they stand for, unless the file is left out of the graph and a package of its name has taken
its place there. -/

namespace CodeAtlas

/-- An import before anything was looked up. -/
def Import.unresolved (i : Import) : Import := { i with resolved := none }

namespace Dependency.Graph

variable {files : List (String × Facts)} {s : Settings} {p : String}

/-- What no file is called and an import stands for is a package that was imported by that name. -/
theorem mem_targets_iff_imported (h : (files.map Prod.fst).Nodup) (hp : p ∉ keptPaths files s) :
    p ∈ (links files s).map Prod.snd ↔ s.includeExternal = true ∧ ∃ f ∈ files, ¬Excluded s f.1 ∧
      ∃ i ∈ f.2.imports, isPathSpecifier i.specifier = false ∧ i.specifier = p := by
  have hmeaning : ∀ importer specifier,
      meaning? s (keptPaths files s) importer specifier = some p ↔
        s.includeExternal = true ∧ isPathSpecifier specifier = false ∧ specifier = p := by
    intro importer specifier
    rw [meaning?]
    cases hresolve : resolve? (keptPaths files s) importer specifier with
    | some file =>
      -- A file has been found, which is not the path, and the specifier is no package.
      have hne : file ≠ p := fun heq => hp (heq ▸ resolve?_mem hresolve)
      have hpath : isPathSpecifier specifier = true := by
        by_contra hpackage
        rw [resolve?, if_neg hpackage] at hresolve
        cases hresolve
      simp [hne, hpath]
    | none => simp [and_assoc]
  rw [links_eq h, List.mem_map]
  constructor
  · rintro ⟨l, hl, rfl⟩
    obtain ⟨f, hf, hl⟩ := List.mem_flatMap.mp hl
    rw [fileNode_eq, List.mem_map] at hl
    obtain ⟨target, htarget, rfl⟩ := hl
    obtain ⟨j, hj, hresolved⟩ := List.mem_filterMap.mp htarget
    obtain ⟨i, hi, rfl⟩ := List.mem_map.mp hj
    obtain ⟨hexternal, hpackage⟩ := (hmeaning _ _).mp hresolved
    obtain ⟨hf, hincluded⟩ := mem_kept_iff.mp hf
    exact ⟨hexternal, f, hf, hincluded, i, hi, hpackage⟩
  · rintro ⟨hexternal, f, hf, hincluded, i, hi, hpackage⟩
    have hresolved := (hmeaning f.1 i.specifier).mpr ⟨hexternal, hpackage⟩
    refine ⟨(f.1, p), List.mem_flatMap.mpr ⟨f, mem_kept_iff.mpr ⟨hf, hincluded⟩, ?_⟩, rfl⟩
    rw [fileNode_eq]
    exact List.mem_map_of_mem
      (List.mem_filterMap.mpr ⟨_, List.mem_map_of_mem hi, hresolved⟩)

end Dependency.Graph

theorem ProjectReport.total_le_total {files : List FileReport} {count count' : FileAnalysis → Nat}
    (h : ∀ f ∈ files, count f.analysis ≤ count' f.analysis) :
    total files count ≤ total files count' := by
  induction files with
  | nil => exact Nat.le_refl 0
  | cons f files ih =>
    rw [List.forall_mem_cons] at h
    exact Nat.add_le_add h.1 (ih h.2)

theorem ProjectReport.total_eq_total_iff {files : List FileReport}
    {count count' : FileAnalysis → Nat}
    (h : ∀ f ∈ files, count f.analysis ≤ count' f.analysis) :
    total files count = total files count' ↔
      ∀ f ∈ files, count f.analysis = count' f.analysis := by
  induction files with
  | nil => simp [total]
  | cons f files ih =>
    rw [List.forall_mem_cons] at h
    have hrest := total_le_total h.2
    rw [List.forall_mem_cons, ← ih h.2]
    change count f.analysis + total files count = count' f.analysis + total files count' ↔ _
    omega

namespace Session

open Dependency Dependency.Graph

variable {c : Config} {s : Session} {source : Source} {past : List Event} {k : KeptFile}
  {key : String} {paths : List String}

/-- Whether a file is left out of the graph, and packages are wanted there and one that has the
name of the file is imported. -/
def Displaced (s : Session) (key : String) : Prop :=
  s.config.dependencies.includeExternal = true ∧ Excluded s.config.dependencies key ∧
    ∃ k ∈ s.kept, ¬Excluded s.config.dependencies k.key ∧ ∃ i ∈ k.analysis.facts.imports,
      isPathSpecifier i.specifier = false ∧ i.specifier = key

def extracted (s : Session) (key : String) : Facts :=
  ((s.find? key).map fun k => k.analysis.facts).getD .empty

theorem extracted_of_find? (h : s.find? key = some k) : s.extracted key = k.analysis.facts := by
  rw [extracted, h, Option.map_some, Option.getD_some]

def entry (k : KeptFile) : String × Facts := (k.key, k.analysis.facts)

theorem Reflects.nodup_keys (h : s.Reflects c past) : ((s.kept.map entry).map Prod.fst).Nodup := by
  rw [List.map_map]
  exact List.pairwise_map.mpr (h.sorted.imp fun hlt => hlt.ne)

theorem not_mem_keptPaths_of_excluded (s : Session) {settings : Settings}
    (h : Excluded settings key) : key ∉ keptPaths (s.kept.map entry) settings := by
  rw [mem_keptPaths_iff]
  exact fun hkept => hkept.2 h

theorem Reflects.displaced_iff (h : s.Reflects c past)
    (hexcluded : Excluded s.config.dependencies key) : s.Displaced key ↔
      key ∈ (links (s.kept.map entry) s.config.dependencies).map Prod.snd := by
  rw [mem_targets_iff_imported h.nodup_keys (not_mem_keptPaths_of_excluded s hexcluded), Displaced]
  simp [hexcluded, entry]

theorem Current.resolved_eq (hs : s.Current) (a : FileAnalysis) : FileReport.resolved s.graph a =
    (((build (s.kept.map entry) s.config.dependencies).find? a.file).map FileNode.imports).getD
      a.facts.imports := by
  rw [FileReport.resolved, hs.graph_eq]
  rfl

theorem Reflects.resolved_of_displaced (h : s.Reflects c past) (hs : s.Current)
    {a : FileAnalysis} (ha : s.Displaced a.file) : FileReport.resolved s.graph a = [] := by
  have hexcluded : Excluded s.config.dependencies a.file := ha.2.1
  have hfind := find?_build_of_not_kept (not_mem_keptPaths_of_excluded s hexcluded)
  rw [hs.resolved_eq, hfind, if_pos ((h.displaced_iff hexcluded).mp ha)]
  -- The node is that of the package, which imports nothing.
  rfl

theorem Reflects.resolved_of_not_displaced (h : s.Reflects c past) (hs : s.Current)
    (hk : k ∈ s.kept) (hfile : k.analysis.file = k.key) (hnot : ¬s.Displaced k.key) :
    (FileReport.resolved s.graph k.analysis).map Import.unresolved =
      k.analysis.facts.imports.map Import.unresolved := by
  rw [hs.resolved_eq, hfile]
  by_cases hexcluded : Excluded s.config.dependencies k.key
  · -- The graph has nothing under its key, so what was found in it is left as it is.
    rw [find?_build_of_not_kept (not_mem_keptPaths_of_excluded s hexcluded),
      if_neg (mt (h.displaced_iff hexcluded).mpr hnot)]
    rfl
  · have hkept : entry k ∈ Graph.kept (s.kept.map entry) s.config.dependencies :=
      Graph.mem_kept_iff.mpr ⟨List.mem_map_of_mem hk, hexcluded⟩
    have hfind := find?_build_of_kept h.nodup_keys hkept
    rw [entry] at hfind
    rw [hfind, Option.map_some, Option.getD_some, fileNode_eq, List.map_map]
    rfl

/-- A file keeps its imports unless it has some and they are those of a package. -/
theorem Reflects.resolved_iff (h : s.Reflects c past) (hs : s.Current)
    (hfind : s.find? key = some k) :
    ((FileReport.resolved s.graph k.analysis).map Import.unresolved =
        k.analysis.facts.imports.map Import.unresolved ↔
      (s.Displaced key → k.analysis.facts.imports = [])) ∧
    ((FileReport.resolved s.graph k.analysis).length = k.analysis.facts.imports.length ↔
      (s.Displaced key → k.analysis.facts.imports = [])) ∧
    (FileReport.resolved s.graph k.analysis).length ≤ k.analysis.facts.imports.length := by
  have hfile : k.analysis.file = key := h.file_of_find? hfind
  by_cases hdisplaced : s.Displaced key
  · have hnone : FileReport.resolved s.graph k.analysis = [] :=
      h.resolved_of_displaced hs (hfile.symm ▸ hdisplaced)
    rw [hnone]
    simp [hdisplaced, eq_comm]
  · have hkey : k.key = key := by simpa using List.find?_some hfind
    have hsame := h.resolved_of_not_displaced hs (List.mem_of_find?_eq_some hfind)
      (hfile.trans hkey.symm) (hkey.symm ▸ hdisplaced)
    have hlength := congrArg List.length hsame
    rw [List.length_map, List.length_map] at hlength
    simp [hdisplaced, hsame, hlength]

theorem Reflects.of_mem_files (h : s.Reflects c past) {f : FileReport}
    (hf : f ∈ (s.analyzeProject source paths).2.files) :
    let t := (s.analyzeProject source paths).1
    ∃ k, t.find? f.path = some k ∧ f = .of t.graph t.graph.cycles k.analysis := by
  have ht : (s.ensureAll source paths).rebuild.Reflects c _ := (h.ensureAll source paths).rebuild
  rw [analyzeProject_eq] at hf ⊢
  obtain ⟨a, ha, rfl⟩ := List.mem_map.mp hf
  obtain ⟨key, -, hkey⟩ := List.mem_filterMap.mp ha
  obtain ⟨k, hfind, rfl⟩ := Option.map_eq_some_iff.mp hkey
  have hpath : k.analysis.file = key := ht.file_of_find? hfind
  refine ⟨k, ?_, rfl⟩
  change (s.ensureAll source paths).rebuild.find? k.analysis.file = some k
  rw [hpath]
  exact hfind

/-- Every file of a report has the exports and the unused names that were found in it, and the
imports as well, but for what they stand for, unless it is left out of the graph while a package of
its name is in there: then it has no imports. The number of imports in all is that of the imports
found in the files exactly if no file has lost any in this way. -/
theorem report_keeps_imports_iff (c : Config) (requests : List (Source × Request))
    (source : Source) (paths : List String) :
    let t := ((serve c requests).analyzeProject source paths).1
    let report := ((serve c requests).analyzeProject source paths).2
    (∀ f ∈ report.files, ∃ k, t.find? f.path = some k ∧
      k.analysis = .of c f.path k.text ∧
      f.analysis.facts.exports = k.analysis.facts.exports ∧
      f.analysis.unused = k.analysis.unused ∧
      (t.Displaced f.path → f.analysis.facts.imports = []) ∧
      (f.analysis.facts.imports.map Import.unresolved =
          k.analysis.facts.imports.map Import.unresolved ↔
        (t.Displaced f.path → k.analysis.facts.imports = []))) ∧
    (report.summary.totalImports =
        ProjectReport.total report.files (fun a => (t.extracted a.file).imports.length) ↔
      ∀ f ∈ report.files, t.Displaced f.path → (t.extracted f.path).imports = []) := by
  intro t report
  obtain ⟨hreflects, hcurrent⟩ := serve_invariant c requests
  have ht : t.Reflects c _ := hreflects.handle hcurrent source (.project paths)
  have htcurrent : t.Current := hcurrent.handle source (.project paths)
  constructor
  · intro f hf
    obtain ⟨k, hfind, rfl⟩ := hreflects.of_mem_files hf
    have hnone : t.Displaced k.analysis.file → FileReport.resolved t.graph k.analysis = [] :=
      ht.resolved_of_displaced htcurrent
    exact ⟨k, hfind, ht.analysis_of_find? hfind, rfl, rfl, hnone,
      (ht.resolved_iff htcurrent hfind).1⟩
  · have hlength : ∀ f ∈ report.files,
        (f.analysis.facts.imports.length = (t.extracted f.path).imports.length ↔
          (t.Displaced f.path → (t.extracted f.path).imports = [])) ∧
        f.analysis.facts.imports.length ≤ (t.extracted f.path).imports.length := by
      intro f hf
      obtain ⟨k, hfind, rfl⟩ := hreflects.of_mem_files hf
      rw [extracted_of_find? hfind]
      exact (ht.resolved_iff htcurrent hfind).2
    have htotal : report.summary.totalImports =
        ProjectReport.total report.files fun a => a.facts.imports.length := rfl
    rw [htotal, ProjectReport.total_eq_total_iff fun f hf => (hlength f hf).2]
    exact forall₂_congr fun f hf => (hlength f hf).1

/-- All packages, and no chart. -/
def chartless : Config :=
  { Config.default with
    dependencies :=
      { Config.default.dependencies with
        excludePatterns := ["chart.js"]
        includeExternal := true } }

def charts (specifier : String) : Source.Memory :=
  .ofFiles [("app.js", "import '" ++ specifier ++ "'"), ("chart.js", "import './x'")]

theorem report_keeps_imports_iff_path :
    let done := (serve chartless []).analyzeProject (charts "./chart.js").source
      ["app.js", "chart.js"]
    (∃ f ∈ done.2.files, f.path = "chart.js" ∧ ¬done.1.Displaced f.path ∧
      f.analysis.facts.imports.map Import.unresolved =
        (done.1.extracted f.path).imports.map Import.unresolved) ∧
    (∀ f ∈ done.2.files, done.1.Displaced f.path → (done.1.extracted f.path).imports = []) ∧
    done.2.summary.totalImports = 2 := by
  intro done
  obtain ⟨hfiles, htotal⟩ := report_keeps_imports_iff chartless [] (charts "./chart.js").source
    ["app.js", "chart.js"]
  have hpaths : done.2.files.map FileReport.path = ["app.js", "chart.js"] := by decide +kernel
  have hspecifiers : (done.1.kept.flatMap fun k => k.analysis.facts.imports.map Import.specifier) =
      ["./chart.js", "./x"] := by decide +kernel
  have hnot : ∀ f ∈ done.2.files, ¬done.1.Displaced f.path := by
    rintro f hf ⟨-, -, k, hk, -, i, hi, -, hspecifier⟩
    have hpath : f.path ∈ ["app.js", "chart.js"] := hpaths ▸ List.mem_map_of_mem hf
    have himported : f.path ∈ ["./chart.js", "./x"] := by
      rw [← hspecifiers, ← hspecifier]
      exact List.mem_flatMap.mpr ⟨k, hk, List.mem_map_of_mem hi⟩
    have hdisjoint : ∀ path ∈ ["app.js", "chart.js"], path ∉ ["./chart.js", "./x"] := by decide
    exact hdisjoint _ hpath himported
  have hlost : ∀ f ∈ done.2.files, done.1.Displaced f.path →
      (done.1.extracted f.path).imports = [] :=
    fun f hf hdisplaced => absurd hdisplaced (hnot f hf)
  refine ⟨?_, hlost, (htotal.mpr hlost).trans (by decide +kernel)⟩
  obtain ⟨f, hf, hpath⟩ : ∃ f ∈ done.2.files, f.path = "chart.js" := by
    refine List.mem_map.mp ?_
    rw [hpaths]
    decide
  obtain ⟨k, hfind, -, -, -, -, hsame⟩ := hfiles f hf
  refine ⟨f, hf, hpath, hnot f hf, ?_⟩
  rw [extracted_of_find? hfind]
  exact hsame.mpr fun hdisplaced => absurd hdisplaced (hnot f hf)

/-- A file that is left out and has the name of a package that is imported loses its imports. -/
theorem not_forall_report_keeps_imports :
    ¬∀ (c : Config) (requests : List (Source × Request)) (source : Source) (paths : List String),
      let t := ((serve c requests).analyzeProject source paths).1
      let report := ((serve c requests).analyzeProject source paths).2
      (∀ f ∈ report.files, ∃ k, t.find? f.path = some k ∧
        f.analysis.facts.exports = k.analysis.facts.exports ∧
        f.analysis.unused = k.analysis.unused ∧
        f.analysis.facts.imports.map Import.unresolved =
          k.analysis.facts.imports.map Import.unresolved) ∧
      report.summary.totalImports =
        ProjectReport.total report.files fun a => (t.extracted a.file).imports.length := by
  intro h
  obtain ⟨-, htotal⟩ := h chartless [] (charts "chart.js").source ["app.js", "chart.js"]
  exact absurd htotal (by decide +kernel)

end Session

end CodeAtlas
