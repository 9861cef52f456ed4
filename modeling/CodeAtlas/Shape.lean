import CodeAtlas.Node

/-!
What an analysis sees in a single node: markup, a call with its chain of names, a function with its
branches, a named property, a binding, or an import.
-/

namespace CodeAtlas

/-- The names along a call: where its chain of members starts, the member called if the callee is
one, and every property on the way in source order. -/
structure Call where
  root : Option String
  method : Option String
  chain : List String
  deriving DecidableEq, Repr, Inhabited

namespace Call

/-- The name that a call goes by. -/
def callee (c : Call) : Option String := c.method.orElse fun _ => c.root

/-- The whole chain as one dotted text. -/
def path (c : Call) : String := ".".intercalate (c.root.toList ++ c.chain)

end Call

/-- Where a chain of members starts and the properties along it. -/
structure Chain where
  root : Option String
  names : List String
  deriving DecidableEq, Repr, Inhabited

namespace Node

def textOf? (n : Node) (r : Role) : Option String := (n.child? r).map text

/-- Quotes of any kind, any number of them, are taken off at both ends. -/
def isQuote (c : Char) : Bool := c = '\"' || c = '\'' || c = '\x60'

mutual

/-- Follows a callee down to its first value, through members, calls and what merely wraps a
value. -/
def chain : Node → Chain
  | ⟨kind, _, text, _, _, children⟩ =>
    match kind with
    | .memberExpression =>
      let inner := chainOfRole .object children
      match children.find? (·.role == some .property) with
      | some property => ⟨inner.root, inner.names ++ [property.text]⟩
      | none => inner
    | .callExpression => chainOfRole .callee children
    | .awaitExpression | .parenthesizedExpression | .nonNullExpression => chainOfNamed children
    | .identifier | .thisValue => ⟨some text, []⟩
    | _ => ⟨none, []⟩

def chainOfRole (r : Role) : List Node → Chain
  | [] => ⟨none, []⟩
  | n :: ns => if n.role == some r then n.chain else chainOfRole r ns

def chainOfNamed : List Node → Chain
  | [] => ⟨none, []⟩
  | n :: ns => if n.isNamed then n.chain else chainOfNamed ns

end

/-- The call whose callee is the given node. -/
def asCallee (n : Node) : Call :=
  let c := n.chain
  ⟨c.root, if n.kind = .memberExpression then n.textOf? .property else none, c.names⟩

def isBranch (n : Node) : Bool :=
  n.kind matches .ifStatement | .forStatement | .forInStatement | .whileStatement | .doStatement |
    .switchStatement

/-- Branches inside of nested functions count too. -/
def branches (n : Node) : Nat :=
  n.walk (fun _ m count => (.enter, if m.isBranch then count + 1 else count)) 0

end Node

/-- Takes the quotes off a literal. -/
def unquote (text : String) : String :=
  let cs := text.toList.dropWhile Node.isQuote
  String.ofList (cs.reverse.dropWhile Node.isQuote).reverse

inductive Shape where
  | markup (tag : Option String)
  | call (call : Call)
  | function (name : Option String) (branches : Nat)
  | property (name : String)
  | binding (name : String)
  | importing (source : String)
  deriving DecidableEq, Repr

namespace Shape

def ofFunction (n : Node) : Shape :=
  .function (n.textOf? .name) (((n.child? .body).map Node.branches).getD 0)

/-- The name of a property, if it is a plain one. -/
def plainProperty (name : Option Node) : Option Shape :=
  name.bind fun n => if n.kind = .propertyIdentifier then some (.property n.text) else none

/-- The shape of a node. The keyword of a function has one of its own, without name and body. -/
def of? (n : Node) : Option Shape :=
  match n.kind with
  | .markup => some (.markup (n.textOf? .name))
  | .callExpression => (n.child? .callee).map fun callee => .call callee.asCallee
  | .functionDeclaration | .generatorDeclaration | .functionExpression | .generatorExpression
  | .arrowFunction | .methodDefinition => some (ofFunction n)
  | .token => if n.text = "function" then some (ofFunction n) else none
  | .pair => plainProperty (n.child? .key)
  | .markupAttribute => plainProperty n.namedChildren.head?
  | .fieldDefinition => (n.textOf? .name).map .property
  | .variableDeclarator =>
    (n.child? .name).bind fun name =>
      if name.kind = .identifier then some (.binding name.text) else none
  | .importStatement => (n.textOf? .source).map fun source => .importing (unquote source)
  | _ => none

end Shape

end CodeAtlas
