import CodeAtlas.Grammar.Rule

/-!
What functions, methods and classes are made of: patterns, parameters, signatures, decorators and
class members.
-/

namespace CodeAtlas.Grammar.Forms

def initializer : F := .seq [equals, .rule .expression]

def optInitializer : F := opt initializer

/-- The inside of a pattern, where `part` says what may be bound or assigned. -/
def objectPattern (part : F) : F :=
  node .objectPattern [openBrace, sparseList (.oneOf [
    node .restPattern [tok "...", part],
    node .pairPattern [role .key (.rule .propertyName), colon, role .value (.oneOf [
      node .assignmentPattern [part, initializer], part])],
    node .objectAssignmentPattern [.token .identifier .shorthandBinding, initializer],
    .token .identifier .shorthandBinding]), closeBrace]

def arrayPattern (part : F) : F :=
  node .arrayPattern [tok "[", sparseList (.oneOf [
    node .restPattern [tok "...", part],
    node .assignmentPattern [part, initializer],
    part]), tok "]"]

/-- What a declaration or parameter may bind. -/
def binding : F :=
  .oneOf [identifier, objectPattern (.rule .binding), arrayPattern (.rule .binding)]

/-- What may be assigned to. -/
def target : F :=
  .oneOf [objectPattern (.rule .target), arrayPattern (.rule .target), .rule .chain]

def bindingAhead : F := .ahead (.oneOf [plainName .identifier, openBrace, tok "["])

def parameterModifier : F :=
  .seq [.oneOf (["public", "private", "protected", "override", "readonly"].map word), bindingAhead]

def typedParameter : F :=
  node .parameter [
    .many (.rule .decorator),
    .many parameterModifier,
    .oneOf [.rule .binding, node .restPattern [tok "...", .rule .binding],
      leafWord "this" .thisValue],
    opt (tok "?"),
    opt (.rule .ascription),
    optInitializer]

def plainParameter : F :=
  node .parameter [
    .oneOf [.rule .binding, node .restPattern [tok "...", .rule .binding]], optInitializer]

def parameters : F :=
  node .parameters
    [tok "(", commaList (.oneOf [typed typedParameter, untyped plainParameter]), tok ")"]

def typePredicate : F :=
  node .typePredicate
    [.oneOf [leafWord "this" .thisValue, identifier], .sameLine, word "is", .rule .type]

def assertsPredicate : F :=
  node .assertsPredicate
    [word "asserts", .sameLine,
      .oneOf [typePredicate, leafWord "this" .thisValue, identifier]]

/-- What a function answers with: a type, or what it proves about an argument. -/
def resultType : F := .oneOf [assertsPredicate, typePredicate, .rule .type]

def resultAscription : F := node .ascription [colon, resultType]

def callSignature : F :=
  .oneOf [
    typed (.seq [opt (.rule .typeParameters), .rule .parameters, opt resultAscription]),
    untyped (.rule .parameters)]

def decorator : F :=
  node .decorator [tok "@", .oneOf [
    .grow identifier [
      step .memberExpression (some .object)
        [tokUnless "." ".", role .property (plainName .propertyIdentifier)],
      step .callExpression (some .callee)
        [opt (typed (.rule .typeArguments)), role .arguments (.rule .arguments)]],
    .rule .parenthesized]]

/-- A word is a modifier of a member only if the member's name is still to come on its line. -/
def memberAhead : F := .seq [.sameLine, .ahead (.oneOf [.rule .propertyName, tok "*"])]

def memberModifier : F :=
  .seq [.oneOf [
    word "static",
    typed (.oneOf (["public", "private", "protected", "override", "readonly", "abstract",
      "declare", "accessor"].map word)),
    untyped (word "accessor")], memberAhead]

def classAsyncModifier : F := .seq [word "async", memberAhead]

def classAccessorWord : F :=
  .seq [.oneOf [word "get", word "set"], .sameLine, .ahead (.rule .propertyName)]

def classMethodHead : F :=
  .seq [opt classAsyncModifier, .oneOf [classAccessorWord, tok "*", .seq []]]

def memberHead : F := .seq [.many memberModifier, classMethodHead]

def decorators : F := .many (.rule .decorator)

def methodParts : List F :=
  [memberHead, role .name (.rule .propertyName), opt (typed (tok "?")), .rule .callSignature,
    role .body (.rule .block)]

/-- Decorators belong to the method they stand before, but in typed dialects to the class. -/
def classMethod : F :=
  .oneOf [
    untyped (node .methodDefinition (decorators :: methodParts)),
    typed (.seq [decorators, node .methodDefinition methodParts])]

def methodSignature : F :=
  node .methodSignature
    [memberHead, role .name (.rule .propertyName), opt (tok "?"), .rule .callSignature]

def mappedTypeClause : F :=
  node .mappedTypeClause
    [role .name typeIdentifier, word "in", .rule .type, opt (.seq [word "as", .rule .type])]

/-- The sign of a mapped type that adds or takes away a modifier. -/
def modifierSign : F := .oneOf [tok "+", tok "-"]

def indexSignature : F :=
  node .indexSignature [
    opt (.seq [opt modifierSign, word "readonly", .ahead (tok "[")]),
    tok "[",
    .oneOf [mappedTypeClause, .seq [role .name identifier, colon, .rule .type]],
    tok "]",
    opt (.seq [opt modifierSign, tok "?"]),
    opt (.rule .ascription)]

def field : F :=
  node .fieldDefinition [
    decorators,
    .many memberModifier,
    role .name (.rule .propertyName),
    opt (typed (.oneOf [tok "?", tokUnless "!" "="])),
    opt (typed (.rule .ascription)),
    optInitializer]

def memberEnd : F := .oneOf [semicolon, typed (tok ",")]

def classMember : F :=
  .oneOf [
    tok ";",
    node .staticBlock [word "static", role .body (.rule .block)],
    classMethod,
    typed (.seq [decorators, methodSignature, memberEnd]),
    typed (.seq [.many (.seq [word "static", .ahead (tok "[")]), indexSignature, memberEnd]),
    .seq [field, memberEnd]]

def classBody : F := node .classBody [openBrace, .many classMember, closeBrace]

def superclass : F := .seq [word "extends", .rule .chain]

/-- What a class extends is a value; what it implements are types. -/
def heritage : F :=
  .oneOf [
    untyped (node .classHeritage [superclass]),
    typed (node .classHeritage [
      word "extends", commaSeparated (.seq [.rule .chain, opt (.rule .typeArguments)]),
      opt (.seq [word "implements", commaSeparated (.rule .type)])]),
    typed (node .classHeritage [word "implements", commaSeparated (.rule .type)])]

def className : F := .oneOf [typed typeIdentifier, untyped identifier]

/-- A class from its keyword on; `extends` and `implements` are not its name. -/
def classRest : F :=
  .seq [
    word "class",
    opt (.seq [.notAhead (.oneOf [word "extends", typed (word "implements")]),
      role .name className]),
    opt (typed (.rule .typeParameters)),
    opt heritage,
    role .body classBody]

end CodeAtlas.Grammar.Forms
