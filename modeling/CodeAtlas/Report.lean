import CodeAtlas.Analysis
import CodeAtlas.Dependency.Cycles
import CodeAtlas.Dependency.Summary
import CodeAtlas.Dependency.View

/-!
What is said of several files together: each with the files its imports stand for and the rings it
is in, and the numbers and lists over all of them.
-/

namespace CodeAtlas

structure FileReport where
  analysis : FileAnalysis
  /-- The rings that the file is in. -/
  cycles : List Ring

namespace FileReport

def path (r : FileReport) : String := r.analysis.file

/-- The imports of a file as the graph knows them, if it does. -/
def resolved (g : Dependency.Graph) (a : FileAnalysis) : List Import :=
  ((g.find? a.file).map Dependency.FileNode.imports).getD a.facts.imports

/-- Every ring is a problem of each file in it, and they are all worth one advice. -/
def of (g : Dependency.Graph) (cycles : List Ring) (a : FileAnalysis) : FileReport :=
  let own := cycles.filter (·.contains a.file)
  { analysis :=
      { a with
        facts := { a.facts with imports := resolved g a }
        issues := a.issues ++ own.map fun ring => ⟨.circularDependency ring, ⟨a.file, none⟩⟩
        advice := if own.isEmpty then a.advice else Advice.sort (a.advice ++ [.breakCycle]) }
    cycles := own }

end FileReport

/-- Numbers and rankings of a project. -/
structure ProjectSummary where
  totalFiles : Nat
  totalImports : Nat
  totalExports : Nat
  totalUnused : Nat
  circularDependencies : Nat
  filesTooLarge : Nat
  filesOfMultipleWork : Nat
  skippedFiles : Nat
  rankings : Dependency.Summary
  deriving DecidableEq, Repr

structure ProjectReport where
  summary : ProjectSummary
  files : List FileReport
  cycles : List Ring
  graph : Dependency.View
  /-- Files that could not be read. -/
  skipped : List String

namespace ProjectReport

def total (files : List FileReport) (count : FileAnalysis → Nat) : Nat :=
  files.foldr (fun f n => count f.analysis + n) 0

def summarize (files : List FileReport) (cycles : List Ring) (skipped : List String)
    (rankings : Dependency.Summary) : ProjectSummary where
  totalFiles := files.length
  totalImports := total files fun a => a.facts.imports.length
  totalExports := total files fun a => a.facts.exports.length
  totalUnused := total files fun a => a.unused.length
  circularDependencies := cycles.length
  filesTooLarge := files.countP fun f => f.analysis.size.exceeds
  filesOfMultipleWork := files.countP fun f => f.analysis.responsibilities.isMultiple
  skippedFiles := skipped.length
  rankings := rankings

def of (g : Dependency.Graph) (analyses : List FileAnalysis) (skipped : List String) :
    ProjectReport :=
  let cycles := g.cycles
  let files := analyses.map (FileReport.of g cycles)
  ⟨summarize files cycles skipped g.summary, files, cycles, g.view, skipped⟩

def file? (r : ProjectReport) (path : String) : Option FileReport :=
  r.files.find? (·.path == path)

/-- Every problem with its file, the more serious first. -/
def issues (r : ProjectReport) : List (String × Issue) :=
  (r.files.flatMap fun f => f.analysis.issues.map (f.path, ·)).mergeSort fun a b =>
    b.2.severity.rank ≤ a.2.severity.rank

/-- The most urgent advice with its file. -/
def topAdvice (r : ProjectReport) (limit : Nat) : List (String × Advice) :=
  ((r.files.flatMap fun f => f.analysis.advice.map (f.path, ·)).mergeSort fun a b =>
    b.2.priority ≤ a.2.priority).take limit

def hasIssues (r : ProjectReport) : Bool := r.files.any fun f => !f.analysis.issues.isEmpty

end ProjectReport

end CodeAtlas
