import CodeAtlas.Config.Settings
import CodeAtlas.Extraction
import CodeAtlas.Program
import CodeAtlas.Size.Report
import CodeAtlas.Usage

/-!
Everything that can be said of a file by itself. Its text is read as a program once; a file of
another kind has no imports, no exports and no work, but it has a size.
-/

namespace CodeAtlas

structure FileAnalysis where
  file : String
  facts : Facts
  /-- Names that are imported and never used, each with its module. -/
  unused : List String
  responsibilities : Responsibility.Classification
  size : Size.Report
  /-- Problems of the file alone, rings of imports not among them. -/
  issues : List Issue
  /-- The more urgent first. -/
  advice : List Advice

namespace FileAnalysis

def syntaxIssues (file : String) (program : Program) : List Issue :=
  if program.hasErrors then [⟨.syntaxErrors, ⟨file, none⟩⟩] else []

/-- The problem of unused names, where the first of them is imported. -/
def unusedIssues (allowed : Nat) (file : String) (imports : List Import) (unused : List String) :
    List Issue :=
  if allowed < unused.length then
    [⟨.unusedImports unused, ⟨file, (firstUnusedLine? imports unused).map (·, 1)⟩⟩]
  else []

def unusedAdvice (allowed : Nat) (unused : List String) : List Advice :=
  if allowed < unused.length then [.removeUnusedImports unused.length] else []

/-- Puts together what the single analyses found. -/
def combine (allowed : Nat) (file : String) (facts : Facts) (unused : List String)
    (syntaxProblems : List Issue) (r : Responsibility.Classification) (size : Size.Report) :
    FileAnalysis where
  file := file
  facts := facts
  unused := unused
  responsibilities := r
  size := size
  issues :=
    syntaxProblems ++ unusedIssues allowed file facts.imports unused ++ r.issues ++ size.issues
  advice := Advice.sort (unusedAdvice allowed unused ++ r.advice ++ size.advice)

def unsupported (file : String) : String :=
  "Unsupported file type: " ++ (FilePath.extension? file).getD ""

def ofProgram (c : Config) (file text : String) (program : Program) : FileAnalysis :=
  let facts := Facts.ofTree file program.root
  combine c.dependencies.unusedImportThreshold file facts
    (unusedBindings program.root facts.imports) (syntaxIssues file program)
    (Responsibility.classify c.heuristics c.responsibilities file program.root)
    (Size.Report.of c.size file text (some program.root))

/-- A file that is no program. -/
def ofOther (c : Config) (file text : String) : FileAnalysis :=
  combine c.dependencies.unusedImportThreshold file .empty [] []
    (.parseFailure file (unsupported file)) (Size.Report.of c.size file text none)

def of (c : Config) (file text : String) : FileAnalysis :=
  match Dialect.ofPath? file with
  | some dialect => ofProgram c file text (Program.read dialect text)
  | none => ofOther c file text

end FileAnalysis

end CodeAtlas
