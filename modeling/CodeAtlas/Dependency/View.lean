import CodeAtlas.Dependency.Graph
import CodeAtlas.FilePath
import CodeAtlas.Text.Words

/-!
A graph as it is drawn: nodes with a label and a group, edges with a weight, and the text that a
drawing program takes.
-/

namespace CodeAtlas.Dependency

/-- What kind of file a path speaks of. -/
inductive Group where
  | component
  | hook
  | api
  | page
  | service
  | store
  | types
  | utility
  | external
  | other
  deriving DecidableEq, Repr

namespace Group

def label : Group → String
  | component => "component"
  | hook => "hook"
  | api => "api"
  | page => "page"
  | service => "service"
  | store => "store"
  | types => "types"
  | utility => "utility"
  | external => "external"
  | other => "module"

def color : Group → String
  | component => "#61dafb"
  | hook => "#a78bfa"
  | api => "#f59e0b"
  | page => "#f472b6"
  | service => "#fb923c"
  | store => "#60a5fa"
  | types => "#94a3b8"
  | utility => "#34d399"
  | external => "#d1d5db"
  | other => "#e5e7eb"

/-- Directories whose files make up a group, those that count first before the others. -/
def directories : List (String × Group) :=
  [("components", component), ("hooks", hook), ("api", api), ("pages", page),
    ("services", service), ("store", store), ("types", types), ("utils", utility),
    ("lib", utility)]

/-- A path with slashes only, and exactly one at its front. -/
def slashed (path : List Char) : List Char :=
  '/' :: (path.map fun c => if c = '\\' then '/' else c).dropWhile (· = '/')

/-- The group of a file by the directories that it is in. -/
def ofPath (path : String) : Group :=
  let text := slashed path.toList
  ((directories.find? fun (directory, _) =>
    Text.contains ("/" ++ directory ++ "/").toList text).map Prod.snd).getD other

end Group

namespace FileNode

/-- The name of a file, without its directories. -/
def label (n : FileNode) : String :=
  if n.isExternal then n.path else (FilePath.fileName? n.path).getD n.path

def group (n : FileNode) : Group := if n.isExternal then .external else .ofPath n.path

end FileNode

structure ViewNode where
  path : String
  label : String
  group : Group
  deriving DecidableEq, Repr

structure View where
  /-- In the order of paths. -/
  nodes : List ViewNode
  /-- In the order of their sources, then of their targets. -/
  edges : List Edge
  deriving DecidableEq, Repr

def Edge.atMost (a b : Edge) : Bool :=
  a.source < b.source || (a.source == b.source && a.target ≤ b.target)

def Graph.view (g : Graph) : View where
  nodes := (g.nodes.map fun n => ⟨n.path, n.label, n.group⟩).mergeSort fun a b => a.path ≤ b.path
  edges := g.edges.mergeSort Edge.atMost

namespace Dot

def escapeChar (c : Char) : List Char :=
  if c = '\\' || c = '\"' then ['\\', c] else [c]

/-- A text between quotes. -/
def quote (s : String) : String := "\"" ++ String.ofList (s.toList.flatMap escapeChar) ++ "\""

def opening : String :=
  "digraph dependencies \x7b\n  rankdir=LR;\n" ++
    "  node [shape=box, style=filled, fontname=\"Helvetica\"];\n"

def nodeLine (n : ViewNode) : String :=
  "  " ++ quote n.path ++ " [label=" ++ quote n.label ++ ", fillcolor=" ++ quote n.group.color ++
    "];\n"

def edgeLine (e : Edge) : String := "  " ++ quote e.source ++ " -> " ++ quote e.target ++ ";\n"

def closing : String := "\x7d\n"

end Dot

/-- A drawing of a graph: a line for every node, then a line for every edge. -/
def View.dot (v : View) : String :=
  Dot.opening ++ String.join (v.nodes.map Dot.nodeLine) ++ String.join (v.edges.map Dot.edgeLine) ++
    Dot.closing

def Graph.dot (g : Graph) : String := g.view.dot

end CodeAtlas.Dependency
