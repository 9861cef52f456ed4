/-!
What a file says about other files: the modules it imports, with the names it binds to them, and
the names it exports.
-/

namespace CodeAtlas

inductive ImportKind where
  /-- An import statement. -/
  | static
  | require
  /-- A call of `import` at run time. -/
  | dynamic
  deriving DecidableEq, Repr, Inhabited

/-- A name that an import brings into a file. -/
inductive Binding where
  | default (name : String)
  | named (imported name : String)
  /-- All exports of a module under one name. -/
  | allOf (name : String)
  /-- The value of the module as a whole. -/
  | entire (name : String)
  deriving DecidableEq, Repr

/-- The name that the importing file uses. -/
def Binding.name : Binding → String
  | .default name | .named _ name | .allOf name | .entire name => name

structure Import where
  file : String
  /-- The module as it is written in the file. -/
  specifier : String
  bindings : List Binding
  kind : ImportKind
  line : Nat
  /-- The file or package that the specifier stands for, once it has been looked up. -/
  resolved : Option String
  deriving DecidableEq, Repr, Inhabited

namespace Import

def names (i : Import) : List String := i.bindings.map Binding.name

/-- Whether the specifier is a path and not the name of a package. -/
def isRelative (i : Import) : Bool := i.specifier.startsWith "." || i.specifier.startsWith "/"

def isSideEffectOnly (i : Import) : Bool := i.bindings.isEmpty

def isNamespaceImport (i : Import) : Bool :=
  i.bindings.any (· matches .allOf _)

end Import

inductive ExportKind where
  | named
  | default
  deriving DecidableEq, Repr, Inhabited

structure Export where
  /-- `default` if a default export has no name, `*` if everything of a module is exported. -/
  name : String
  kind : ExportKind
  line : Nat
  /-- The module that is exported from, if it is another one. -/
  source : Option String
  deriving DecidableEq, Repr, Inhabited

structure Facts where
  imports : List Import
  exports : List Export
  deriving DecidableEq, Repr, Inhabited

def Facts.empty : Facts := ⟨[], []⟩

end CodeAtlas
