/-!
Files that import each other in a ring.
-/

namespace CodeAtlas

structure Ring where
  /-- The files along the ring, the first one again at the end. -/
  stops : List String
  deriving DecidableEq, Repr

namespace Ring

def text (r : Ring) : String := " -> ".intercalate r.stops

/-- Every file once. -/
def files (r : Ring) : List String := r.stops.dropLast

def length (r : Ring) : Nat := r.files.length

def isEmpty (r : Ring) : Bool := r.stops.isEmpty

def contains (r : Ring) (file : String) : Bool := r.stops.contains file

end Ring

end CodeAtlas
