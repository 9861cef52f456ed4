import CodeAtlas.Facts

/-!
The graph of imports between files. A node is known by its path; between two nodes there is at most
one edge, which counts the import statements from the one to the other.
-/

namespace CodeAtlas.Dependency

structure FileNode where
  /-- The path of a file, or the name of a package. -/
  path : String
  /-- Whether this is a package and not a file. -/
  isExternal : Bool
  imports : List Import
  exports : List Export
  deriving DecidableEq, Repr

structure Edge where
  source : String
  target : String
  statements : Nat
  deriving DecidableEq, Repr

structure Graph where
  /-- In the order in which they were added. -/
  nodes : List FileNode
  edges : List Edge
  /-- How many files may stand in a row while rings are looked for. -/
  maxDepth : Nat
  deriving DecidableEq, Repr

def defaultMaxDepth : Nat := 10

namespace Graph

def empty (maxDepth : Nat) : Graph := ⟨[], [], maxDepth⟩

def find? (g : Graph) (path : String) : Option FileNode := g.nodes.find? (·.path == path)

def contains (g : Graph) (path : String) : Bool := (g.find? path).isSome

/-- The position of a node, counted from zero. -/
def position? (g : Graph) (path : String) : Option Nat := g.nodes.findIdx? (·.path == path)

/-- Adds a file, or replaces what is known of it. A package of that name becomes a file. -/
def addFile (g : Graph) (path : String) (imports : List Import) (exports : List Export) : Graph :=
  let node : FileNode := ⟨path, false, imports, exports⟩
  if g.contains path then
    { g with nodes := g.nodes.map fun n => if n.path == path then node else n }
  else { g with nodes := g.nodes ++ [node] }

/-- Adds a package, unless there is a node of that name. -/
def addExternal (g : Graph) (name : String) : Graph :=
  if g.contains name then g else { g with nodes := g.nodes ++ [⟨name, true, [], []⟩] }

/-- Counts one more statement on the edge between two nodes. -/
def count (source target : String) : List Edge → List Edge
  | [] => [⟨source, target, 1⟩]
  | e :: es =>
    if e.source = source ∧ e.target = target then { e with statements := e.statements + 1 } :: es
    else e :: count source target es

/-- Records an import statement, if both of its ends are there. -/
def addImport? (g : Graph) (source target : String) : Option Graph :=
  if g.contains source && g.contains target then
    some { g with edges := count source target g.edges }
  else none

def sortPaths (paths : List String) : List String := paths.mergeSort fun a b => a ≤ b

/-- What a node imports, in the order of paths. -/
def dependencies (g : Graph) (path : String) : List String :=
  sortPaths ((g.edges.filter (·.source == path)).map Edge.target)

/-- What imports a node, in the order of paths. -/
def dependents (g : Graph) (path : String) : List String :=
  sortPaths ((g.edges.filter (·.target == path)).map Edge.source)

/-- The nodes that are files, in the order of paths. -/
def internal (g : Graph) : List FileNode :=
  (g.nodes.filter (!·.isExternal)).mergeSort fun a b => a.path ≤ b.path

def files (g : Graph) : List String := g.internal.map FileNode.path

def isFile (g : Graph) (path : String) : Bool := (g.find? path).any (!·.isExternal)

/-- The files that a file imports, in the order of paths. -/
def successors (g : Graph) (path : String) : List String :=
  (g.dependencies path).filter g.isFile

end Graph

end CodeAtlas.Dependency
