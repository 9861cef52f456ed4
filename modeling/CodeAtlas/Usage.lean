import CodeAtlas.Facts
import CodeAtlas.Node

/-!
Which imported names a file makes use of. Scopes are not looked at: a name counts as used wherever
it stands outside of the import statements.
-/

namespace CodeAtlas

namespace Node

def isReference (n : Node) : Bool :=
  n.kind matches .identifier | .typeIdentifier | .shorthandProperty | .shorthandBinding

/-- The names referred to outside of import statements, with repetitions. -/
def references (root : Node) : List String :=
  (root.walk (σ := List String) (fun _ n names =>
    if n.kind = .importStatement then (.skip, names)
    else (.enter, if n.isReference then n.text :: names else names)) []).reverse

end Node

/-- A name that an import binds, with its module. -/
def Import.describe (i : Import) (name : String) : String := name ++ " from '" ++ i.specifier ++ "'"

/-- The names that static imports bind and nothing refers to, each with its module. -/
def unusedBindings (root : Node) (imports : List Import) : List String :=
  let used := root.references
  (imports.filter (·.kind == .static)).flatMap fun i =>
    (i.names.filter fun name => !used.contains name).map i.describe

/-- The line of the first import that binds one of the names. -/
def firstUnusedLine? (imports : List Import) (unused : List String) : Option Nat :=
  (imports.find? fun i => i.names.any fun name => unused.contains (i.describe name)).map Import.line

end CodeAtlas
