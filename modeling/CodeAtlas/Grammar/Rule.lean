import CodeAtlas.Grammar.Form

/-!
The rules of the language and the forms they share: signs and words, lists, names, and the end of a
statement.
-/

namespace CodeAtlas.Grammar

inductive Rule where
  | program
  | statement
  | block
  | declaration
  | expression
  | expressions
  /-- A chain of operators that bind at least this tightly. -/
  | binary (level : Nat)
  | unary
  | chain
  | constructorCallee
  | primary
  | arguments
  | template
  | object
  | parenthesized
  | markup
  | binding
  | target
  | propertyName
  | parameters
  | callSignature
  | decorator
  | classRest
  | type
  | memberType
  | operatorType
  | typeName
  | ascription
  | typeArguments
  | typeParameters
  | objectType
  deriving DecidableEq, Repr

namespace Forms

abbrev F := Form Rule

def tok (s : String) : F := .sign s.toList []

/-- A sign that must not be read where it begins a longer one. -/
def tokUnless (s : String) (longer : String) : F := .sign s.toList longer.toList

def word (s : String) : F := .word s.toList .token

def leafWord (s : String) (kind : Kind) : F := .word s.toList kind

def openBrace : F := tok "\x7b"

def closeBrace : F := tok "\x7d"

def opt (f : F) : F := .oneOf [f, .seq []]

def typed (f : F) : F := .only Dialect.typed f

def untyped (f : F) : F := .only (fun d => !d.typed) f

def node (kind : Kind) (fs : List F) : F := .node kind (.seq fs)

def role (r : Role) (f : F) : F := .role r f

def step (kind : Kind) (left : Option Role) (fs : List F) : Step Rule := .mk kind left (.seq fs)

/-- One or more, with commas between them. -/
def commaSeparated (f : F) : F := .seq [f, .many (.seq [tok ",", f])]

/-- Any number, with commas between them and perhaps one more at the end. -/
def commaList (f : F) : F := opt (.seq [commaSeparated f, opt (tok ",")])

/-- Like `commaList`, but a place between two commas may be empty. -/
def sparseList (f : F) : F := .seq [opt f, .many (.seq [tok ",", opt f])]

def identifier : F := .token .identifier .identifier

def typeIdentifier : F := .token .identifier .typeIdentifier

def plainName (kind : Kind) : F := .token .propertyName kind

def stringLiteral : F := .token .string .string

/-- A statement ends with a semicolon, or where none is needed: before a closing brace, at the end
of the text, or at a line break. -/
def semicolon : F := .oneOf [tok ";", .ahead closeBrace, .ahead .atEnd, .newLine]

/-- A sign of assignment that is neither an arrow nor a comparison. -/
def equals : F := tokUnless "=" "=>"

def colon : F := tok ":"

end Forms

end CodeAtlas.Grammar
