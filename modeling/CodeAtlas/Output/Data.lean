import CodeAtlas.Config.Settings
import CodeAtlas.Json
import CodeAtlas.Session

/-!
Results as data. What is not there is left out of a place and of imports and exports.
-/

namespace CodeAtlas

open Json

def ImportKind.label : ImportKind → String
  | .static => "static"
  | .require => "require"
  | .dynamic => "dynamic"

def Binding.data : Binding → Json
  | .default name => object [("type", string "default"), ("local", string name)]
  | .named imported name =>
    object [("type", string "named"), ("imported", string imported), ("local", string name)]
  | .allOf name => object [("type", string "namespace"), ("local", string name)]
  | .entire name => object [("type", string "entire"), ("local", string name)]

def Import.data (i : Import) : Json :=
  object ([
    ("source_file", string i.file),
    ("specifier", string i.specifier),
    ("specifiers", list (i.bindings.map Binding.data)),
    ("kind", string i.kind.label),
    ("line", nat i.line)] ++ optional "resolved" (i.resolved.map string))

def ExportKind.label : ExportKind → String
  | .named => "named"
  | .default => "default"

def Export.data (e : Export) : Json :=
  object ([
    ("name", string e.name),
    ("kind", string e.kind.label),
    ("line", nat e.line)] ++ optional "from" (e.source.map string))

def Location.data (l : Location) : Json :=
  object ([("file", string l.file)] ++ optional "line" (l.position.map fun p => nat p.1) ++
    optional "column" (l.position.map fun p => nat p.2))

def Issue.data (i : Issue) : Json :=
  object [
    ("type", string i.problem.label),
    ("severity", string i.severity.label),
    ("description", string i.problem.description),
    ("location", i.location.data)]

def Advice.data (a : Advice) : Json :=
  object [
    ("type", string a.label),
    ("priority", nat a.priority),
    ("description", string a.description),
    ("effort", string a.effort.label),
    ("benefits", strings a.benefits),
    ("risks", strings a.risks)]

def Category.data (c : Category) : Json := string c.label

def Indicator.data (i : Indicator) : Json :=
  object [
    ("category", i.category.data),
    ("description", string i.evidence.description),
    ("line", nat i.line),
    ("column", nat i.column),
    ("confidence", number i.confidence),
    ("evidence", strings i.evidence.notes)]

def Responsibility.Classification.data (c : Responsibility.Classification) : Json :=
  object [
    ("file", string c.file),
    ("responsibilities", list (c.responsibilities.map Category.data)),
    ("has_multiple_responsibilities", bool c.isMultiple),
    ("confidence", number c.confidence),
    ("indicators", list (c.indicators.map Indicator.data)),
    ("suggestions", strings c.suggestions),
    ("issues", list (c.issues.map Issue.data)),
    ("recommendations", list (c.advice.map Advice.data))]

namespace Size

def Breakdown.data (b : Breakdown) : Json :=
  object [
    ("total", nat b.total),
    ("blank", nat b.blank),
    ("comment", nat b.comment),
    ("import", nat b.importing),
    ("code", nat b.code),
    ("effective", nat b.effective)]

def SplitKind.name : SplitKind → String
  | .component => "component"
  | .hook => "hook"
  | .utility => "utility"
  | .typeExtraction => "type-extraction"
  | .generic => "generic"

def Split.data (s : Split) : Json :=
  object [
    ("type", string s.kind.name),
    ("targets", strings s.targets),
    ("description", string s.description),
    ("effort", string s.effort.label)]

def Report.data (r : Report) : Json :=
  object [
    ("file", string r.file),
    ("line_count", nat r.lineCount),
    ("breakdown", r.breakdown.data),
    ("threshold", nat r.threshold),
    ("exceeds_threshold", bool r.exceeds),
    ("splits", list (r.splits.map Split.data)),
    ("issues", list (r.issues.map Issue.data)),
    ("recommendations", list (r.advice.map Advice.data))]

end Size

def FileAnalysis.fields (a : FileAnalysis) : List (String × Json) :=
  [("file", string a.file),
    ("imports", list (a.facts.imports.map Import.data)),
    ("exports", list (a.facts.exports.map Export.data)),
    ("unused_imports", strings a.unused),
    ("responsibilities", a.responsibilities.data),
    ("size", a.size.data),
    ("issues", list (a.issues.map Issue.data)),
    ("recommendations", list (a.advice.map Advice.data))]

def FileAnalysis.data (a : FileAnalysis) : Json := object a.fields

def Ring.data (r : Ring) : Json := object [("nodes", strings r.stops)]

def FileReport.data (r : FileReport) : Json :=
  object (r.analysis.fields ++ [("cycles", list (r.cycles.map Ring.data))])

namespace Dependency

def FileCount.data (c : FileCount) : Json :=
  object [("path", string c.path), ("count", nat c.count)]

def Summary.fields (s : Summary) : List (String × Json) :=
  [("most_imported", list (s.mostImported.map FileCount.data)),
    ("most_exporting", list (s.mostExporting.map FileCount.data)),
    ("heaviest", list (s.heaviest.map FileCount.data)),
    ("orphaned", strings s.orphaned)]

def ViewNode.data (n : ViewNode) : Json :=
  object [("id", string n.path), ("label", string n.label), ("group", string n.group.label)]

def Edge.data (e : Edge) : Json :=
  object [("from", string e.source), ("to", string e.target), ("weight", nat e.statements)]

def View.data (v : View) : Json :=
  object [
    ("nodes", list (v.nodes.map ViewNode.data)),
    ("edges", list (v.edges.map Edge.data))]

end Dependency

def ProjectSummary.data (s : ProjectSummary) : Json :=
  object ([
    ("total_files", nat s.totalFiles),
    ("total_imports", nat s.totalImports),
    ("total_exports", nat s.totalExports),
    ("total_unused_imports", nat s.totalUnused),
    ("circular_dependencies", nat s.circularDependencies),
    ("files_exceeding_threshold", nat s.filesTooLarge),
    ("files_with_multiple_responsibilities", nat s.filesOfMultipleWork),
    ("skipped_files", nat s.skippedFiles)] ++ s.rankings.fields)

def ProjectReport.data (r : ProjectReport) : Json :=
  object [
    ("summary", r.summary.data),
    ("files", list (r.files.map FileReport.data)),
    ("cycles", list (r.cycles.map Ring.data)),
    ("graph", r.graph.data),
    ("skipped", strings r.skipped)]

def DependencyResult.data (r : DependencyResult) : Json :=
  object [
    ("file", string r.file),
    ("imports", list (r.imports.map Import.data)),
    ("exports", list (r.exports.map Export.data)),
    ("dependencies", strings r.dependencies),
    ("dependents", strings r.dependents),
    ("unused_imports", strings r.unused),
    ("cycles", list (r.cycles.map Ring.data))]

def CategoryRule.data (r : CategoryRule) : Json :=
  object [("confidence", number r.confidence), ("keywords", strings r.keywords)]

def Heuristics.data (h : Heuristics) : Json :=
  object (Category.all.map (fun c => (c.tag "_", (h.rule c).data)) ++ [
    ("handler_prefix", string h.handlerPrefix),
    ("min_branches", nat h.minBranches),
    ("data_access_objects", strings h.dataObjects),
    ("data_access_imports", strings h.dataImports),
    ("api_objects", strings h.apiObjects),
    ("presence_threshold", number h.presenceThreshold),
    ("strict_presence_threshold", number h.strictPresenceThreshold),
    ("max_diversity_bonus", number h.maxDiversityBonus)])

def Config.data (c : Config) : Json :=
  object [
    ("dependencies", object [
      ("max_circular_depth", nat c.dependencies.maxCircularDepth),
      ("exclude_patterns", strings c.dependencies.excludePatterns),
      ("include_external_deps", bool c.dependencies.includeExternal),
      ("unused_import_threshold", nat c.dependencies.unusedImportThreshold)]),
    ("size", object [
      ("threshold", nat c.size.threshold),
      ("exclude_comments", bool c.size.excludeComments),
      ("exclude_empty_lines", bool c.size.excludeEmptyLines),
      ("exclude_imports", bool c.size.excludeImports)]),
    ("responsibilities", object [
      ("max_responsibilities", nat c.responsibilities.maxResponsibilities),
      ("enable_heuristics", bool c.responsibilities.enableHeuristics),
      ("strict_mode", bool c.responsibilities.strictMode)]),
    ("heuristics", c.heuristics.data),
    ("scan", object [
      ("include", strings c.scan.included),
      ("exclude", strings c.scan.excluded),
      ("max_depth", nat c.scan.maxDepth)])]

end CodeAtlas
