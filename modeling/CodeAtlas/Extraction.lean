import CodeAtlas.Facts
import CodeAtlas.Shape

/-!
The imports and exports of a syntax tree, in document order. Each import statement is one import,
and so is each call of `require` or `import` with a literal among its arguments; what stands inside
of an import statement is no import of its own.
-/

namespace CodeAtlas

namespace Node

def ofKind (kind : Kind) (ns : List Node) : List Node := ns.filter (·.kind == kind)

/-- What one part of an import clause binds. -/
def clauseBindings (n : Node) : List Binding :=
  match n.kind with
  | .identifier => [.default n.text]
  | .namespaceImport =>
    ((n.children.find? (·.kind == .identifier)).map fun name => .allOf name.text).toList
  | .namedImports =>
    (ofKind .importSpecifier n.children).filterMap fun s =>
      (s.textOf? .name).map fun name => .named (unquote name) ((s.textOf? .alias).getD name)
  | _ => []

/-- What one part of an import statement binds. -/
def importBindings (n : Node) : List Binding :=
  match n.kind with
  | .importClause => n.children.flatMap clauseBindings
  | .importRequireClause => (ofKind .identifier n.children).map fun name => .entire name.text
  | _ => []

/-- The literals that may name the module of an import statement. -/
def importSources (n : Node) : List Node :=
  match n.kind with
  | .string => [n]
  | .importRequireClause => ofKind .string n.children
  | _ => []

/-- An import statement without a module to import is none. -/
def statementImport? (file : String) (n : Node) : Option Import := do
  let source ← (n.children.flatMap importSources).getLast?
  let specifier := unquote source.text
  if specifier.isEmpty then none
  let kind :=
    if n.children.any (·.kind == .importRequireClause) then ImportKind.require else .static
  some ⟨file, specifier, n.children.flatMap importBindings, kind, n.line, none⟩

/-- Whether a call of this callee loads a module. -/
def loads? (callee : Node) : Option ImportKind :=
  match callee.kind with
  | .identifier => if callee.text = "require" then some .require else none
  | .importCallee => some .dynamic
  | _ => none

/-- What one part of an object pattern binds, if it is a plain name. -/
def patternBinding? (n : Node) : Option Binding :=
  match n.kind with
  | .shorthandBinding => some (.named n.text n.text)
  | .pairPattern => do
    let key ← n.child? .key
    let value ← n.child? .value
    if value.kind = .identifier then some (.named key.text value.text) else none
  | _ => none

/-- What a declarator binds to the module it is initialised with. -/
def declaratorBindings (declarator : Node) : List Binding :=
  match declarator.kind, declarator.child? .name with
  | .variableDeclarator, some name =>
    match name.kind with
    | .identifier => [.entire name.text]
    | .objectPattern => name.namedChildren.filterMap patternBinding?
    | _ => []
  | _, _ => []

def callImport? (file : String) (parent : Option Node) (n : Node) : Option Import := do
  let kind ← loads? (← n.child? .callee)
  let arguments ← n.child? .arguments
  let source ← arguments.children.find? (·.kind == .string)
  let bindings :=
    if kind = .require then (parent.map declaratorBindings).getD [] else []
  some ⟨file, unquote source.text, bindings, kind, n.line, none⟩

/-- The exported name of a list entry: its alias if it has one. -/
def specifierExport? (line : Nat) (source : Option String) (n : Node) : Option Export := do
  let name ← n.textOf? .name
  let exported := unquote ((n.textOf? .alias).getD name)
  some ⟨exported, if exported = "default" then .default else .named, line, source⟩

mutual

/-- The plain names that a declaration declares. -/
def declaredNames : Node → List String
  | ⟨kind, _, _, _, _, children⟩ =>
    match kind with
    | .lexicalDeclaration | .variableDeclaration =>
      children.filterMap fun d =>
        if d.kind = .variableDeclarator then
          (d.child? .name).bind fun name =>
            if name.kind = .identifier then some name.text else none
        else none
    | .ambientDeclaration => declaredNamesAll children
    | _ => ((children.find? (·.role == some .name)).map text).toList

def declaredNamesAll : List Node → List String
  | [] => []
  | n :: ns => if n.isNamed then n.declaredNames ++ declaredNamesAll ns else declaredNamesAll ns

end

/-- The name under which all exports of a module are exported together. -/
def namespaceAlias? (n : Node) : Option String :=
  (n.namedChildren.getLast?).map fun name => unquote name.text

def defaultName (n : Node) : String :=
  let declared := (n.child? .declaration).bind (·.textOf? .name)
  let value := (n.child? .value).bind fun v => if v.kind = .identifier then some v.text else none
  (declared.orElse fun _ => value).getD "default"

/-- What the parts of an export statement say of it. -/
structure ExportMarks where
  isDefault : Bool
  isStar : Bool
  /-- The name for everything behind the star. -/
  alias? : Option String
  clause? : Option Node

namespace ExportMarks

def empty : ExportMarks := ⟨false, false, none, none⟩

/-- Adds what one part says. A plain name is one for everything only behind a star. -/
def add (marks : ExportMarks) (n : Node) : ExportMarks :=
  match n.kind with
  | .token =>
    if n.text = "default" then { marks with isDefault := true }
    else if n.text = "*" then { marks with isStar := true } else marks
  | .namespaceExport => { marks with isStar := true, alias? := n.namespaceAlias? }
  | .identifier => if marks.isStar then { marks with alias? := some n.text } else marks
  | .exportClause => { marks with clause? := some n }
  | _ => marks

end ExportMarks

def exportMarks (n : Node) : ExportMarks := n.children.foldl ExportMarks.add .empty

/-- What an export statement exports. -/
def statementExports (n : Node) : List Export :=
  let source := (n.textOf? .source).map unquote
  let marks := n.exportMarks
  match marks.clause? with
  | some clause =>
    (ofKind .exportSpecifier clause.children).filterMap (specifierExport? n.line source)
  | none =>
    if marks.isStar then [⟨marks.alias?.getD "*", .named, n.line, source⟩]
    else if marks.isDefault then [⟨n.defaultName, .default, n.line, none⟩]
    else
      ((n.child? .declaration).map declaredNames).getD [] |>.map (⟨·, .named, n.line, none⟩)

end Node

namespace Facts

/-- Adds what one node of a tree says. -/
def visit (file : String) (parent : Option Node) (n : Node) (facts : Facts) : Visit × Facts :=
  match n.kind with
  | .importStatement =>
    (.skip, { facts with imports := facts.imports ++ (n.statementImport? file).toList })
  | .callExpression =>
    (.enter, { facts with imports := facts.imports ++ (n.callImport? file parent).toList })
  | .exportStatement => (.enter, { facts with exports := facts.exports ++ n.statementExports })
  | _ => (.enter, facts)

def ofTree (file : String) (root : Node) : Facts := root.walk (visit file) empty

end Facts

end CodeAtlas
