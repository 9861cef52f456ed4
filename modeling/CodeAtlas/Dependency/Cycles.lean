import CodeAtlas.Dependency.Graph
import CodeAtlas.Ring

/-!
Rings of imports. The search goes down from one file to the next, over a stack of the files it is
in, and records a ring whenever an import leads back to a file that it is in. It never looks at a
file twice. A step of the search takes one import off the file on top, or leaves that file when it
has none left; `Graph.work` is the number of steps that there are to do.
-/

namespace CodeAtlas.Dependency

/-- A file that the search is in, with the imports it has not followed yet. -/
structure Frame where
  file : String
  pending : List String
  deriving DecidableEq, Repr

inductive Mark where
  | unseen
  | entered
  | left
  deriving DecidableEq, Repr

structure Search where
  /-- Files not seen yet, in the order of paths. -/
  unseen : List String
  /-- Files the search is done with. -/
  done : List String
  /-- The file entered last first. -/
  stack : List Frame
  /-- The rings found, the last one first. -/
  rings : List Ring
  deriving DecidableEq, Repr

namespace Search

def mark (s : Search) (file : String) : Mark :=
  if file ∈ s.unseen then .unseen else if file ∈ s.done then .left else .entered

/-- The files that the search is in, the first one first. -/
def chain (s : Search) : List String := (s.stack.map Frame.file).reverse

/-- The ring that an import of a file closes. -/
def ringTo (s : Search) (file : String) : Ring :=
  ⟨s.chain.drop ((s.chain.idxOf? file).getD 0) ++ [file]⟩

def enter (g : Graph) (file : String) (s : Search) : Search :=
  { s with
    unseen := s.unseen.filter (· ≠ file)
    stack := ⟨file, g.successors file⟩ :: s.stack }

/-- Enters the first file not seen yet if the search is in none. -/
def settle (g : Graph) (s : Search) : Search :=
  match s.stack, s.unseen with
  | [], file :: _ => s.enter g file
  | _, _ => s

/-- Follows an import of the file on top. Files below the greatest depth are not entered. -/
def follow (g : Graph) (file : String) (s : Search) : Search :=
  match s.mark file with
  | .entered => { s with rings := s.ringTo file :: s.rings }
  | .unseen => if s.stack.length < g.maxDepth then s.enter g file else s
  | .left => s

def step (g : Graph) (s : Search) : Search :=
  match s.stack with
  | [] => s
  | ⟨file, []⟩ :: rest => ({ s with done := file :: s.done, stack := rest } : Search).settle g
  | ⟨file, next :: pending⟩ :: rest =>
    ({ s with stack := ⟨file, pending⟩ :: rest } : Search).follow g next

def run (g : Graph) : Nat → Search → Search
  | 0, s => s
  | n + 1, s => run g n (s.step g)

end Search

namespace Graph

def start (g : Graph) : Search := (Search.mk g.files [] [] []).settle g

/-- The imports between files, and the files. -/
def work (g : Graph) : Nat := g.files.foldr (fun f n => (g.successors f).length + 1 + n) 0

/-- The rings of imports between files, in the order in which they are found. -/
def cycles (g : Graph) : List Ring := (g.start.run g g.work).rings.reverse

def filesInCycles (g : Graph) : List String :=
  (sortPaths (g.cycles.flatMap Ring.stops)).eraseReps

/-- Leaves out the nodes that import none of the others. -/
def peel (g : Graph) (paths : List String) : List String :=
  paths.filter fun path => g.edges.any fun e => e.source == path && paths.contains e.target

/-- Whether there is a ring of imports at all, packages included: whether any nodes are left when
those that import none of the others are left out again and again. -/
def hasCycles (g : Graph) : Bool :=
  !((g.nodes.foldl (fun paths _ => g.peel paths) (g.nodes.map FileNode.path)).isEmpty)

end Graph

end CodeAtlas.Dependency
