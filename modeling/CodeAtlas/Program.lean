import CodeAtlas.Grammar.Expressions
import CodeAtlas.Grammar.Markup
import CodeAtlas.Grammar.Modules
import CodeAtlas.Grammar.Types

/-!
Programs: the grammar as a whole, and the tree of a source text. Every text has a tree; where a
line cannot be read it holds an error node. What is said of trees elsewhere does not rest on how
they are read: where the parts of a statement matter, a result asks for them.
-/

namespace CodeAtlas

namespace Grammar

def language : Rules Rule
  | .program => Forms.program
  | .statement => Forms.statement
  | .block => Forms.block
  | .declaration => Forms.declaration
  | .expression => Forms.expression
  | .expressions => Forms.expressions
  | .binary level => Forms.binary level
  | .unary => Forms.unary
  | .chain => Forms.chain
  | .constructorCallee => Forms.constructorCallee
  | .primary => Forms.primary
  | .arguments => Forms.arguments
  | .template => Forms.template
  | .object => Forms.object
  | .parenthesized => Forms.parenthesized
  | .markup => Forms.markup
  | .binding => Forms.binding
  | .target => Forms.target
  | .propertyName => Forms.propertyName
  | .parameters => Forms.parameters
  | .callSignature => Forms.callSignature
  | .decorator => Forms.decorator
  | .classRest => Forms.classRest
  | .type => Forms.type
  | .memberType => Forms.memberType
  | .operatorType => Forms.operatorType
  | .typeName => Forms.typeName
  | .ascription => Forms.ascription
  | .typeArguments => Forms.typeArguments
  | .typeParameters => Forms.typeParameters
  | .objectType => Forms.objectType

/-- More than the forms that can be entered between two characters. -/
def depthPerCharacter : Nat := 256

end Grammar

/-- A source text that has been read. -/
structure Program where
  dialect : Dialect
  root : Node
  deriving Repr

namespace Program

/-- The statements of a text, with everything between them. -/
def statements (dialect : Dialect) (text : String) : Option (List Node) :=
  let source := text.toList
  let fuel := Grammar.depthPerCharacter * (source.length + 1)
  (Grammar.Form.read Grammar.language dialect fuel (.rule .program)
    (Grammar.Cursor.start source)).map Prod.fst

def read (dialect : Dialect) (text : String) : Program :=
  let whole := [⟨.error, none, text, 0, 0, []⟩]
  ⟨dialect, ⟨.program, none, text, 0, 0, (statements dialect text).getD whole⟩⟩

def hasErrors (p : Program) : Bool := p.root.children.any (·.kind == .error)

end Program

end CodeAtlas
