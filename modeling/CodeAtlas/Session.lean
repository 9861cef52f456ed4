import CodeAtlas.Dependency.Build
import CodeAtlas.Report

/-!
Analyses that are kept. A file is read and analysed the first time it is asked for and never again
until everything is dropped; the graph is that of all files kept. A file is known by the key of its
path, and read by the path as it is given.
-/

namespace CodeAtlas

structure KeptFile where
  key : String
  text : String
  analysis : FileAnalysis

structure Session where
  config : Config
  /-- In the order of keys. -/
  kept : List KeptFile
  graph : Dependency.Graph
  /-- The paths that a source was asked for, the last one first. -/
  reads : List String

/-- How asking for a file went. -/
inductive Outcome where
  | analysed
  | known
  | unreadable
  deriving DecidableEq, Repr

/-- What is known of the imports from and to a file. -/
structure DependencyResult where
  file : String
  imports : List Import
  exports : List Export
  dependencies : List String
  dependents : List String
  unused : List String
  cycles : List Ring
  deriving DecidableEq, Repr

namespace Session

def new (c : Config) : Session := ⟨c, [], .empty c.dependencies.maxCircularDepth, []⟩

def find? (s : Session) (key : String) : Option KeptFile := s.kept.find? (·.key == key)

def keep (f : KeptFile) : List KeptFile → List KeptFile
  | [] => [f]
  | g :: gs => if f.key < g.key then f :: g :: gs else g :: keep f gs

/-- Makes sure that a file is kept, if it can be read. -/
def ensure (source : Source) (s : Session) (path : String) : Session × Outcome :=
  let key := FilePath.key path
  if (s.find? key).isSome then (s, .known)
  else
    let s := { s with reads := path :: s.reads }
    match source.read path with
    | none => (s, .unreadable)
    | some text =>
      ({ s with kept := keep ⟨key, text, .of s.config key text⟩ s.kept }, .analysed)

def rebuild (s : Session) : Session :=
  { s with
    graph := .build (s.kept.map fun f => (f.key, f.analysis.facts)) s.config.dependencies }

/-- The analysis of a file, now or from before. -/
def analyzePath (source : Source) (s : Session) (path : String) : Session × Option FileAnalysis :=
  let (s, outcome) := s.ensure source path
  let s := if outcome = .analysed then s.rebuild else s
  (s, (s.find? (FilePath.key path)).map KeptFile.analysis)

/-- Files asked for one after the other: the keys of those that are there, and of those that are
not as often as they were asked for. -/
structure Batch where
  session : Session
  keys : List String
  skipped : List String

def Batch.add (source : Source) (b : Batch) (path : String) : Batch :=
  let key := FilePath.key path
  match b.session.ensure source path with
  | (s, .unreadable) => ⟨s, b.keys, b.skipped ++ [key]⟩
  | (s, _) => ⟨s, if b.keys.contains key then b.keys else b.keys ++ [key], b.skipped⟩

/-- Analyses files and reports on all of them together. -/
def analyzeProject (source : Source) (s : Session) (paths : List String) :
    Session × ProjectReport :=
  let batch := paths.foldl (Batch.add source) ⟨s, [], []⟩
  let s := batch.session.rebuild
  let analyses := batch.keys.filterMap fun key => (s.find? key).map KeptFile.analysis
  (s, .of s.graph analyses batch.skipped)

/-- Analyses the wanted files of a directory. -/
def analyzeDirectory (source : Source) (s : Session) (directory : String) :
    Session × ProjectReport :=
  s.analyzeProject source (source.scan directory s.config.scan)

/-- The imports are those of the graph, or the bare ones if the graph leaves the file out. -/
def dependencyResult? (s : Session) (path : String) : Option DependencyResult :=
  let key := FilePath.key path
  (s.find? key).map fun f =>
    let node := s.graph.find? key
    { file := key
      imports := (node.map Dependency.FileNode.imports).getD f.analysis.facts.imports
      exports := (node.map Dependency.FileNode.exports).getD f.analysis.facts.exports
      dependencies := s.graph.dependencies key
      dependents := s.graph.dependents key
      unused := f.analysis.unused
      cycles := s.graph.cycles.filter (·.contains key) }

def keptText? (s : Session) (path : String) : Option String :=
  (s.find? (FilePath.key path)).map KeptFile.text

def isKept (s : Session) (path : String) : Bool := (s.find? (FilePath.key path)).isSome

/-- Drops everything that is kept. -/
def clear (s : Session) : Session :=
  { s with kept := [], graph := .empty s.config.dependencies.maxCircularDepth }

end Session

end CodeAtlas
