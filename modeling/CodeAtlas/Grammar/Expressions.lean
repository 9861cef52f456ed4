import CodeAtlas.Grammar.Functions

/-!
Expressions, from assignments down to literals. Operators are read by climbing: a chain of level
`n` is grown from left to right by operators of level `n` and above, each with a right operand of
the next level.
-/

namespace CodeAtlas.Grammar.Forms

/-- A bracket and all up to its partner, of interest only for what comes behind. -/
def bracketed : F := .token .bracketed .token

def asyncWord : F := .seq [word "async", .sameLine, .notAhead (tok "=>")]

def functionBody : F := role .body (.rule .block)

def arrowBody : F := .oneOf [functionBody, role .body (.rule .expression)]

/-- Whether the parentheses ahead can only be parameters; with types a result type may follow. -/
def arrowAhead : F :=
  .oneOf [
    .ahead (.seq [.ahead (tok "("), bracketed, .oneOf [tok "=>", typed colon]]),
    typed (.ahead (tok "<"))]

def arrowFunction : F :=
  .oneOf [
    node .arrowFunction [opt asyncWord, identifier, tok "=>", arrowBody],
    node .arrowFunction
      [opt asyncWord, arrowAhead, .rule .callSignature, tok "=>", arrowBody]]

def yieldExpression : F :=
  node .yieldExpression
    [word "yield", opt (.seq [.sameLine, .oneOf [
      .seq [tok "*", .rule .expression], .rule .expression]])]

/-- Destructuring: the brackets ahead are a pattern if an assignment follows them. -/
def patternAssignment : F :=
  node .assignmentExpression
    [.ahead (.oneOf [tok "[", openBrace]), .ahead (.seq [bracketed, equals]), .rule .target, equals,
      .rule .expression]

def augmentedSigns : F :=
  .oneOf (["+=", "-=", "*=", "/=", "%=", "^=", "&=", "|=", ">>=", ">>>=", "<<=", "**=", "&&=",
    "||=", "??="].map tok)

def ternary : Step Rule :=
  .mk .ternaryExpression none (.oneOf [
    .seq [tokUnless "?" "?.", .rule .expression, colon, .rule .expression],
    .seq [tokUnless "?" "?.", .rule .parenthesized, colon, .rule .expression]])

def assignment : F :=
  .grow (.grow (.rule (.binary 0)) [ternary]) [
    step .assignmentExpression none [equals, .rule .expression],
    step .augmentedAssignment none [augmentedSigns, .rule .expression]]

def expression : F := .oneOf [arrowFunction, yieldExpression, patternAssignment, assignment]

def expressions : F :=
  .grow (.rule .expression) [
    step .sequenceExpression none [tok ",", commaSeparated (.rule .expression)]]

/-- The operators by how tightly they bind, loosest first. -/
def operators : List (List F) :=
  [[tokUnless "??" "="],
    [tokUnless "||" "="],
    [tokUnless "&&" "="],
    [tokUnless "|" "|="],
    [tokUnless "^" "="],
    [tokUnless "&" "&="],
    [tok "===", tok "!==", tokUnless "==" "=", tokUnless "!=" "="],
    [tok "<=", tok ">=", tokUnless "<" "<", tokUnless ">" ">", word "instanceof", word "in"],
    [tokUnless ">>>" "=", tokUnless "<<" "=", tokUnless ">>" ">="],
    [tokUnless "+" "+=", tokUnless "-" "-="],
    [tokUnless "*" "*=", tokUnless "/" "=", tokUnless "%" "="],
    [tokUnless "**" "="]]

def comparisonLevel : Nat := 7

def powerLevel : Nat := 11

/-- Casts bind like comparisons and have a type on their right. -/
def castStep : Step Rule :=
  step .castExpression none [typed (.seq [.sameLine,
    .oneOf [.seq [word "as", .oneOf [word "const", .rule .type]],
      .seq [word "satisfies", .rule .type]]])]

/-- Powers group to the right, all else to the left. -/
def operatorStep (level : Nat) (signs : List F) : Step Rule :=
  step .binaryExpression none
    [.oneOf signs, .rule (.binary (if level = powerLevel then level else level + 1))]

def operatorSteps (level : Nat) : List (Step Rule) :=
  let casts := if level ≤ comparisonLevel then [castStep] else []
  casts ++ ((operators.zipIdx.filter (level ≤ ·.2)).map fun (signs, l) => operatorStep l signs)

def binaryForms : List F :=
  (List.range (powerLevel + 1)).map fun level => .grow (.rule .unary) (operatorSteps level)

def binary (level : Nat) : F := binaryForms.getD level (.rule .unary)

def updateSigns : F := .oneOf [tok "++", tok "--"]

def unary : F :=
  .oneOf [
    node .unaryExpression [
      .oneOf [tokUnless "!" "=", tok "~", tokUnless "+" "+=", tokUnless "-" "-=", word "typeof",
        word "void", word "delete"],
      .rule .unary],
    node .updateExpression [updateSigns, .rule .unary],
    node .awaitExpression [word "await", .rule .unary],
    .only (fun d => d.typed && !d.hasMarkup)
      (node .castExpression [.rule .typeArguments, .rule .unary]),
    .grow (.rule .chain) [step .updateExpression none [.sameLine, updateSigns]]]

def optionalChain : F := node .optionalChain [tok "?."]

def memberName : F :=
  role .property (.oneOf [.token .privateName .privateIdentifier, plainName .propertyIdentifier])

def memberStep : Step Rule :=
  step .memberExpression (some .object)
    [.oneOf [tokUnless "." ".", .seq [optionalChain, .notAhead (.token .number .number)]],
      memberName]

def subscriptStep : Step Rule :=
  step .subscriptExpression (some .object)
    [opt optionalChain, tok "[", .rule .expressions, tok "]"]

def nonNullStep : Step Rule :=
  step .nonNullExpression none [typed (.seq [.sameLine, tokUnless "!" "="])]

def callStep : Step Rule :=
  step .callExpression (some .callee)
    [opt (tok "?."), opt (typed (.rule .typeArguments)), role .arguments (.rule .arguments)]

def taggedTemplateStep : Step Rule :=
  step .callExpression (some .callee)
    [opt (typed (.rule .typeArguments)), role .arguments (.rule .template)]

/-- Type arguments without a call, where nothing that could be an operand follows. -/
def instantiationStep : Step Rule :=
  step .instantiationExpression none [typed (.seq [.rule .typeArguments,
    .oneOf [.ahead (.oneOf [tok ")", tok "]", closeBrace, tok ",", tok ";", tok ":", .atEnd]),
      .newLine]])]

def chain : F :=
  .grow (.rule .primary)
    [memberStep, callStep, subscriptStep, taggedTemplateStep, nonNullStep, instantiationStep]

def constructorCallee : F :=
  .grow (.rule .primary) [memberStep, subscriptStep, taggedTemplateStep, nonNullStep]

def spread : F := node .spread [tok "...", .rule .expression]

def arguments : F :=
  node .arguments [tok "(", commaList (.oneOf [spread, .rule .expression]), tok ")"]

def templateSubstitution (inner : F) : F :=
  node .templateSubstitution
    [.raw (.exactly "$\x7b".toList) .token, inner, closeBrace]

def templateOf (kind : Kind) (inner : F) : F :=
  node kind [tok "`",
    .many (.oneOf [.raw .templateText .templateText, templateSubstitution inner]),
    .raw (.exactly "`".toList) .token]

def template : F := templateOf .templateString (.rule .expressions)

def parenthesized : F :=
  node .parenthesizedExpression [tok "(", .rule .expressions, tok ")"]

def array : F :=
  node .array [tok "[", sparseList (.oneOf [spread, .rule .expression]), tok "]"]

def functionExpression : F :=
  .oneOf [
    node .functionExpression
      [opt asyncWord, word "function", .notAhead (tok "*"), opt (role .name identifier),
        .rule .callSignature, functionBody],
    node .generatorExpression
      [opt asyncWord, word "function", tok "*", opt (role .name identifier),
        .rule .callSignature, functionBody]]

/-- `new.target`, or a constructor with its arguments if there are any. -/
def newExpression : F :=
  .oneOf [
    node .metaProperty [word "new", tokUnless "." ".", word "target"],
    node .newExpression
      [word "new", .rule .constructorCallee, opt (typed (.rule .typeArguments)),
        opt (role .arguments (.rule .arguments))]]

def importMeta : F := node .metaProperty [word "import", tokUnless "." ".", word "meta"]

def classExpression : F := node .classExpression [.many (.rule .decorator), .rule .classRest]

def constants : List F :=
  [leafWord "this" .thisValue, leafWord "super" .superValue, leafWord "true" .trueValue,
    leafWord "false" .falseValue, leafWord "null" .nullValue,
    leafWord "undefined" .undefinedValue]

def primary : F :=
  .oneOf (constants ++ [
    functionExpression,
    identifier,
    stringLiteral,
    .token .number .number,
    .rule .parenthesized,
    .rule .object,
    array,
    .rule .template,
    .token .regex .regex,
    newExpression,
    importMeta,
    leafWord "import" .importCallee,
    classExpression,
    .rule .markup,
    .seq [.token .privateName .privateIdentifier, .ahead (word "in")],
    .seq [leafWord "export" .identifier, .newLine]])

def accessorWord : F :=
  .seq [.oneOf [word "get", word "set"], .ahead (.rule .propertyName)]

/-- `async` in front of a method's name, on the same line. -/
def asyncModifier : F :=
  .seq [word "async", .sameLine, .ahead (.oneOf [tok "*", .rule .propertyName])]

/-- A class member's modifiers are read here as well, though they mean nothing in an object. -/
def methodModifier : F :=
  .seq [.oneOf [
    word "static",
    typed (.oneOf (["public", "private", "protected", "override", "readonly"].map word))],
    .ahead (.oneOf [.rule .propertyName, tok "*"])]

def methodHead : F :=
  .seq [.many methodModifier, opt asyncModifier, .oneOf [accessorWord, tok "*", .seq []]]

def method : F :=
  node .methodDefinition
    [opt (untyped decorators), methodHead, role .name (.rule .propertyName), opt (typed (tok "?")),
      .rule .callSignature, functionBody]

def computedName : F := node .computedName [tok "[", .rule .expression, tok "]"]

def propertyName : F :=
  .oneOf [plainName .propertyIdentifier, .token .privateName .privateIdentifier, stringLiteral,
    .token .number .number, computedName]

def pair : F :=
  node .pair [role .key (.rule .propertyName), colon, role .value (.rule .expression)]

def objectMember : F :=
  .oneOf [spread, method, pair, .token .identifier .shorthandProperty]

def object : F := node .object [openBrace, sparseList objectMember, closeBrace]

end CodeAtlas.Grammar.Forms
