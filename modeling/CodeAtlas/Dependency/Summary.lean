import CodeAtlas.Dependency.Graph

/-!
Which files stand out in a graph: those that most imports lead to, those that export most, those
that import most, and those that nothing leads to.
-/

namespace CodeAtlas.Dependency

structure FileCount where
  path : String
  count : Nat
  deriving DecidableEq, Repr

/-- The larger count first, then the order of paths. -/
def FileCount.atMost (a b : FileCount) : Bool :=
  b.count < a.count || (a.count == b.count && a.path ≤ b.path)

/-- So many files are listed. -/
def summaryLimit : Nat := 10

structure Summary where
  mostImported : List FileCount
  mostExporting : List FileCount
  heaviest : List FileCount
  orphaned : List String
  deriving DecidableEq, Repr

def Summary.empty : Summary := ⟨[], [], [], []⟩

/-- The files that count most; those that do not count at all are left out. -/
def topCounts (counts : List FileCount) : List FileCount :=
  ((counts.filter (0 < ·.count)).mergeSort FileCount.atMost).take summaryLimit

namespace Graph

/-- The import statements of other nodes that lead to a node. -/
def importedBy (g : Graph) (path : String) : Nat :=
  (g.edges.filter fun e => e.target == path && e.source != path).foldr (·.statements + ·) 0

def rank (g : Graph) (count : FileNode → Nat) : List FileCount :=
  topCounts (g.internal.map fun n => ⟨n.path, count n⟩)

def isOrphan (g : Graph) (n : FileNode) : Bool := n.exports.isEmpty && g.importedBy n.path == 0

def summary (g : Graph) : Summary where
  mostImported := g.rank fun n => g.importedBy n.path
  mostExporting := g.rank fun n => n.exports.length
  heaviest := g.rank fun n => n.imports.length
  orphaned := (g.internal.filter g.isOrphan).map FileNode.path

end Graph

end CodeAtlas.Dependency
