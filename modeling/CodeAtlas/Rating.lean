/-!
How serious a problem is, and how much work a change takes.
-/

namespace CodeAtlas

inductive Severity where
  | low
  | medium
  | high
  deriving DecidableEq, Repr, Inhabited

def Severity.label : Severity → String
  | .low => "low"
  | .medium => "medium"
  | .high => "high"

def Severity.rank : Severity → Nat
  | .low => 0
  | .medium => 1
  | .high => 2

inductive Effort where
  | low
  | medium
  | high
  deriving DecidableEq, Repr, Inhabited

def Effort.label : Effort → String
  | .low => "low"
  | .medium => "medium"
  | .high => "high"

end CodeAtlas
