import CodeAtlas.Dependency.IndexedGraph
import CodeAtlas.Dependency.Resolve
import CodeAtlas.Source.PatternSet

/-!
The graph of a set of files with their imports and exports.
-/

namespace CodeAtlas.Dependency

structure Settings where
  maxCircularDepth : Nat
  /-- Patterns of files that are left out. -/
  excludePatterns : List String
  /-- Whether packages become nodes of their own. -/
  includeExternal : Bool
  /-- So many unused names are nothing to speak of. -/
  unusedImportThreshold : Nat
  deriving DecidableEq, Repr

def Settings.default : Settings := ⟨defaultMaxDepth, [], false, 0⟩

/-- An import with what it stands for: a file, or a package if packages are wanted. -/
def resolveImport (s : Settings) (known : List String) (importer : String) (i : Import) : Import :=
  let package :=
    if s.includeExternal && !isPathSpecifier i.specifier then some i.specifier else none
  { i with resolved := (resolve? known importer i.specifier).orElse fun _ => package }

namespace IndexedGraph

/-- A link for an import, to a package if there is no file of that name. -/
def link (g : IndexedGraph) (source target : String) : IndexedGraph :=
  ((g.addExternal target).1.addImport source target).1

/-- The imports of a node that stand for something. -/
def targets (g : IndexedGraph) (path : String) : List String :=
  ((g.find? path).map FileNode.imports).getD [] |>.filterMap Import.resolved

def build (files : List (String × Facts)) (s : Settings) : IndexedGraph :=
  let excluded := Source.PatternSet.compile s.excludePatterns
  let kept := files.filter fun (path, _) => !excluded.accepts path
  let known := kept.map Prod.fst
  let unlinked := kept.foldl (fun g (path, facts) =>
    (g.addFile path (facts.imports.map (resolveImport s known path)) facts.exports).1)
    (empty s.maxCircularDepth)
  let links := known.flatMap fun path => (unlinked.targets path).map (path, ·)
  links.foldl (fun g (source, target) => g.link source target) unlinked

end IndexedGraph

def Graph.build (files : List (String × Facts)) (s : Settings) : Graph :=
  (IndexedGraph.build files s).toGraph

end CodeAtlas.Dependency
