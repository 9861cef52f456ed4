import CodeAtlas.Dependency.Graph

/-!
The graph of imports as it is kept. Nodes have indices in the order in which they were added, links
lead from index to index, and a map tells the index of each path.
-/

namespace CodeAtlas.Dependency

/-- An edge between nodes that are known by their indices. -/
structure Link where
  source : Nat
  target : Nat
  statements : Nat
  deriving DecidableEq, Repr

inductive Direction where
  | outgoing
  | incoming
  deriving DecidableEq, Repr

namespace Link

/-- The end that a link has at a node whose links in some direction are looked at. -/
def near (l : Link) : Direction → Nat
  | .outgoing => l.source
  | .incoming => l.target

def far (l : Link) : Direction → Nat
  | .outgoing => l.target
  | .incoming => l.source

end Link

/-- A node as that of a file, whatever it was before. -/
def FileNode.asFile (n : FileNode) (imports : List Import) (exports : List Export) : FileNode :=
  ⟨n.path, false, imports, exports⟩

structure IndexedGraph where
  nodes : Array FileNode
  links : Array Link
  /-- The index of the node of each path. -/
  indices : List (String × Nat)
  maxDepth : Nat

namespace IndexedGraph

def empty (maxDepth : Nat) : IndexedGraph := ⟨#[], #[], [], maxDepth⟩

def index? (g : IndexedGraph) (path : String) : Option Nat := g.indices.lookup path

def find? (g : IndexedGraph) (path : String) : Option FileNode :=
  (g.index? path).bind fun i => g.nodes[i]?

def contains (g : IndexedGraph) (path : String) : Bool := (g.index? path).isSome

/-- Adds a node under a path that has none, and tells its index. -/
def addNode (g : IndexedGraph) (node : FileNode) : IndexedGraph × Nat :=
  ({ g with nodes := g.nodes.push node, indices := (node.path, g.nodes.size) :: g.indices },
    g.nodes.size)

/-- Adds a file, or replaces what is known of it, and tells its index. A package of that name
becomes a file. -/
def addFile (g : IndexedGraph) (path : String) (imports : List Import) (exports : List Export) :
    IndexedGraph × Nat :=
  match g.index? path with
  | some i => ({ g with nodes := g.nodes.modify i (·.asFile imports exports) }, i)
  | none => g.addNode ⟨path, false, imports, exports⟩

/-- Adds a package, unless there is a node of that name, and tells its index. -/
def addExternal (g : IndexedGraph) (name : String) : IndexedGraph × Nat :=
  match g.index? name with
  | some i => (g, i)
  | none => g.addNode ⟨name, true, [], []⟩

/-- Where the link between two nodes is kept. -/
def linkBetween? (g : IndexedGraph) (i j : Nat) : Option Nat :=
  g.links.toList.findIdx? fun l => l.source == i && l.target == j

/-- Counts one more statement on the link between two nodes. -/
def countLink (g : IndexedGraph) (i j : Nat) : IndexedGraph :=
  match g.linkBetween? i j with
  | some e =>
    { g with links := g.links.modify e fun l => { l with statements := l.statements + 1 } }
  | none => { g with links := g.links.push ⟨i, j, 1⟩ }

/-- Records an import statement, and tells whether both of its ends were there. -/
def addImport (g : IndexedGraph) (source target : String) : IndexedGraph × Bool :=
  match g.index? source, g.index? target with
  | some i, some j => (g.countLink i j, true)
  | _, _ => (g, false)

/-- Leaves out nodes whose path the one before them has. -/
def dedup (last : Option String) : List FileNode → List FileNode
  | [] => []
  | n :: ns => if last = some n.path then dedup last ns else n :: dedup (some n.path) ns

/-- The nodes at the far ends of the links of a node, in the order of paths. -/
def neighbors (g : IndexedGraph) (path : String) (d : Direction) : List FileNode :=
  match g.index? path with
  | none => []
  | some i =>
    let found := (g.links.toList.filter (·.near d == i)).filterMap fun l => g.nodes[l.far d]?
    dedup none (found.mergeSort fun a b => a.path ≤ b.path)

def dependencies (g : IndexedGraph) (path : String) : List FileNode := g.neighbors path .outgoing

def dependents (g : IndexedGraph) (path : String) : List FileNode := g.neighbors path .incoming

/-- The path of the node with an index. The ends of links have nodes, so all of them have paths. -/
def pathAt (g : IndexedGraph) (i : Nat) : String := ((g.nodes[i]?).map FileNode.path).getD ""

/-- A link as an edge between paths. -/
def edgeOf (g : IndexedGraph) (l : Link) : Edge :=
  ⟨g.pathAt l.source, g.pathAt l.target, l.statements⟩

/-- The graph without its indices. -/
def toGraph (g : IndexedGraph) : Graph := ⟨g.nodes.toList, g.links.toList.map g.edgeOf, g.maxDepth⟩

end IndexedGraph

end CodeAtlas.Dependency
