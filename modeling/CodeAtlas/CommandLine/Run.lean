import CodeAtlas.CommandLine.Arguments
import CodeAtlas.Config.Load

/-!
What the program does with its arguments: it prints a text, writes one to a file, or fails. A
failure prints nothing.
-/

namespace CodeAtlas.CommandLine

inductive Answer where
  | print (text : String)
  | write (path text : String)
  | fail (message : String)
  | misuse (e : UsageError)

def versionNumber : String := "0.1.0"

def greeting : String :=
  "archscope - structural analyzer for JavaScript/TypeScript\n" ++
    "Run 'archscope analyze' to analyze the current directory\n" ++
    "Run 'archscope --help' for more information\n"

def helpText : String :=
  "Structural analyzer for JavaScript/TypeScript codebases\n\n" ++
    "Usage: archscope [OPTIONS] [COMMAND]\n\n" ++
    "Commands:\n" ++
    "  analyze  Analyze every source file under a directory\n" ++
    "  file     Analyze a single file and print the result as JSON\n" ++
    "  graph    Print the import graph only\n" ++
    "  version  Show version information\n" ++
    "  help     Print this message or the help of the given subcommand(s)\n\n" ++
    "Options:\n" ++
    "  -v, --verbose  Enable verbose logging\n" ++
    "  -h, --help     Print help\n" ++
    "  -V, --version  Print version\n"

/-- Settings with what the arguments say of them. -/
def Overrides.apply (o : Overrides) (c : Config) : Config :=
  { c with
    size := { c.size with threshold := o.threshold.getD c.size.threshold }
    responsibilities :=
      { c.responsibilities with
        maxResponsibilities := o.maxResponsibilities.getD c.responsibilities.maxResponsibilities }
    dependencies :=
      { c.dependencies with
        includeExternal := o.includeExternal || c.dependencies.includeExternal } }

/-- The settings for a directory: those of the file given, or of the directory itself. They have to
be valid before the arguments are applied and after. -/
def settings (d : Source.Disk) (o : Overrides) (directory : String) :
    Except Config.LoadError Config := do
  let c ← match o.config with
    | some file => Config.load d file
    | none => Config.discover d directory
  (o.apply c).validate

/-- The name of the directory that a path leads to, or the path itself. -/
def projectName (d : Source.Disk) (path : String) : String := (d.nameOf? path).getD path

/-- The directory of a file, as far as its settings go. -/
def directoryOf (file : String) : String := ((FilePath.parent? file).map FilePath.textOf).getD here

/-- The analysis of a file that is on disk. -/
def analyzeFile (d : Source.Disk) (c : Config) (path : String) : Except String FileAnalysis :=
  let key := FilePath.key path
  match d.readText path with
  | .ok text => .ok (.of c key text)
  | .error fault => .error ("Failed to read file: " ++ key ++ " (" ++ fault.message ++ ")")

/-- Analyses a directory, and answers with what is made of the report and the graph. -/
def withReport (d : Source.Disk) (o : Overrides) (directory : String)
    (answer : ProjectReport → Dependency.Graph → Answer) : Answer :=
  match settings d o directory with
  | .error e => .fail e.message
  | .ok c =>
    let (s, report) := (Session.new c).analyzeDirectory d.source directory
    answer report s.graph

def run (d : Source.Disk) : Command → Answer
  | .analyze path format output o =>
    withReport d o path fun report graph =>
      let text := format.render (projectName d path) report graph
      match output with
      | some file => .write file text
      | none => .print text
  | .file path o =>
    match settings d o (directoryOf path) with
    | .error e => .fail e.message
    | .ok c =>
      match analyzeFile d c path with
      | .ok analysis => .print (analysis.data.pretty ++ "\n")
      | .error message => .fail message
  | .graph path format o =>
    withReport d o path fun report graph =>
      match format with
      | .json => .print (report.graph.data.pretty ++ "\n")
      | .dot => .print graph.dot
      | .markdown => .fail "The graph command supports dot and json output"
  | .version => .print ("archscope v" ++ versionNumber ++ "\n")
  | .greeting => .print greeting

def answer (d : Source.Disk) (arguments : List String) : Answer :=
  match parse arguments with
  | .ok command => run d command
  | .error .help => .print helpText
  | .error .programVersion => .print ("archscope " ++ versionNumber ++ "\n")
  | .error (.misuse e) => .misuse e

/-- How a run ends: its exit code, what it prints, and what is on disk then. -/
structure Ending where
  code : Nat
  output : String
  disk : Source.Disk

def Answer.perform (d : Source.Disk) : Answer → Ending
  | .print text => ⟨0, text, d⟩
  | .write path text =>
    match d.write path text with
    | .ok d => ⟨0, "", d⟩
    | .error _ => ⟨1, "", d⟩
  | .fail _ => ⟨1, "", d⟩
  | .misuse _ => ⟨2, "", d⟩

end CodeAtlas.CommandLine
