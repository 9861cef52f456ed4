/-!
Syntax trees. A node has a kind, the role it plays in its parent, its source text, where it starts,
and its children in source order. Words, signs and comments are nodes too, so a walk over the tree
meets every token. `Node.walk` shows each node to a visitor, who decides whether its children are
visited; `Node.subtree` is the plain list of a node and everything below it.
-/

namespace CodeAtlas

/-- What a node is. Keywords and signs have the kind `token` and are told apart by their text. -/
inductive Kind where
  | token
  | comment
  | error
  | program
  | hashBang
  -- names
  | identifier
  | propertyIdentifier
  | privateIdentifier
  | shorthandProperty
  | shorthandBinding
  | statementLabel
  | typeIdentifier
  | computedName
  | markupNamespaceName
  -- values
  | thisValue
  | superValue
  | trueValue
  | falseValue
  | nullValue
  | undefinedValue
  | importCallee
  | number
  | string
  | regex
  | templateString
  | templateText
  | templateSubstitution
  | array
  | object
  | pair
  | spread
  | markup
  | markupText
  | markupAttribute
  | markupExpression
  | functionExpression
  | generatorExpression
  | arrowFunction
  | classExpression
  -- operations
  | memberExpression
  | subscriptExpression
  | optionalChain
  | callExpression
  | arguments
  | newExpression
  | metaProperty
  | awaitExpression
  | yieldExpression
  | unaryExpression
  | updateExpression
  | binaryExpression
  | ternaryExpression
  | assignmentExpression
  | augmentedAssignment
  | sequenceExpression
  | parenthesizedExpression
  | nonNullExpression
  | castExpression
  | instantiationExpression
  -- patterns
  | objectPattern
  | arrayPattern
  | pairPattern
  | assignmentPattern
  | objectAssignmentPattern
  | restPattern
  | parameters
  | parameter
  -- statements
  | expressionStatement
  | emptyStatement
  | statementBlock
  | variableDeclaration
  | lexicalDeclaration
  | variableDeclarator
  | functionDeclaration
  | generatorDeclaration
  | functionSignature
  | classDeclaration
  | abstractClassDeclaration
  | ifStatement
  | elseClause
  | forStatement
  | forInStatement
  | whileStatement
  | doStatement
  | switchStatement
  | switchBody
  | switchCase
  | tryStatement
  | catchClause
  | finallyClause
  | withStatement
  | labeledStatement
  | breakStatement
  | continueStatement
  | returnStatement
  | throwStatement
  | debuggerStatement
  -- classes
  | decorator
  | classHeritage
  | classBody
  | methodDefinition
  | methodSignature
  | fieldDefinition
  | staticBlock
  -- modules
  | importStatement
  | importClause
  | importRequireClause
  | importAttribute
  | importAlias
  | namespaceImport
  | namedImports
  | importSpecifier
  | exportStatement
  | exportClause
  | exportSpecifier
  | namespaceExport
  -- typed declarations
  | interfaceDeclaration
  | typeAliasDeclaration
  | enumDeclaration
  | enumBody
  | enumAssignment
  | ambientDeclaration
  | moduleDeclaration
  | namespaceDeclaration
  | nestedIdentifier
  -- types
  | ascription
  | typeArguments
  | typeParameters
  | typeParameter
  | predefinedType
  | nestedTypeIdentifier
  | genericType
  | functionType
  | constructorType
  | conditionalType
  | unionType
  | intersectionType
  | typeOperator
  | inferType
  | arrayType
  | lookupType
  | parenthesizedType
  | objectType
  | propertySignature
  | callSignature
  | indexSignature
  | mappedTypeClause
  | tupleType
  | tupleMember
  | literalType
  | templateType
  | typeQuery
  | typePredicate
  | assertsPredicate
  deriving DecidableEq, Repr, Inhabited

/-- What a node is to its parent, where an analysis asks for it. -/
inductive Role where
  | name
  | body
  | callee
  | arguments
  | object
  | property
  | key
  | value
  | source
  | alias
  | declaration
  deriving DecidableEq, Repr

/-- Rows and columns count from zero; a column counts the bytes before it in its line. -/
structure Node where
  kind : Kind
  role : Option Role
  text : String
  row : Nat
  column : Nat
  children : List Node
  deriving Repr

/-- A visitor's answer: whether the children of the node it was shown are visited too. -/
inductive Visit where
  | enter
  | skip
  deriving DecidableEq, Repr

namespace Node

/-- Keywords and signs are the only nodes without a name. -/
def isNamed (n : Node) : Bool := n.kind != .token

def isComment (n : Node) : Bool := n.kind == .comment

/-- The first child that plays the given role. -/
def child? (n : Node) (r : Role) : Option Node := n.children.find? (·.role == some r)

/-- Comments count: they are named nodes like any other. -/
def namedChildren (n : Node) : List Node := n.children.filter isNamed

/-- One-based line on which the node starts. -/
def line (n : Node) : Nat := n.row + 1

def withRole (n : Node) (r : Role) : Node := { n with role := some r }

mutual

/-- Shows the node to the visitor together with its parent, then its children in order unless the
visitor skips them. -/
def walkBelow {σ : Type} (visit : Option Node → Node → σ → Visit × σ) (parent : Option Node)
    (s : σ) : Node → σ
  | ⟨kind, role, text, row, column, children⟩ =>
    let n : Node := ⟨kind, role, text, row, column, children⟩
    match visit parent n s with
    | (.skip, s) => s
    | (.enter, s) => walkAll visit n s children

def walkAll {σ : Type} (visit : Option Node → Node → σ → Visit × σ) (parent : Node) (s : σ) :
    List Node → σ
  | [] => s
  | n :: ns => walkAll visit parent (walkBelow visit (some parent) s n) ns

end

/-- Walks over a tree from its root, carrying along what the visitor gathers. -/
def walk {σ : Type} (visit : Option Node → Node → σ → Visit × σ) (s : σ) (n : Node) : σ :=
  n.walkBelow visit none s

mutual

/-- The node and everything below it, in source order. -/
def subtree : Node → List Node
  | ⟨kind, role, text, row, column, children⟩ =>
    ⟨kind, role, text, row, column, children⟩ :: subtreeAll children

def subtreeAll : List Node → List Node
  | [] => []
  | n :: ns => n.subtree ++ subtreeAll ns

end

end Node

end CodeAtlas
