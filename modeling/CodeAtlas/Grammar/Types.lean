import CodeAtlas.Grammar.Functions

/-!
Types. Function types and conditional types are loosest, then unions and intersections, then the
word operators, then the brackets behind a type.
-/

namespace CodeAtlas.Grammar.Forms

def functionTypeAhead : F :=
  .oneOf [.ahead (tok "<"), .ahead (.seq [.ahead (tok "("), .token .bracketed .token, tok "=>"])]

def functionType : F :=
  node .functionType
    [functionTypeAhead, opt (.rule .typeParameters), .rule .parameters, tok "=>", resultType]

def constructorType : F :=
  node .constructorType
    [opt (word "abstract"), word "new", opt (.rule .typeParameters), .rule .parameters, tok "=>",
      .rule .type]

def intersectionType : F :=
  .oneOf [
    node .intersectionType
      [tok "&", .rule .operatorType, .many (.seq [tok "&", .rule .operatorType])],
    .grow (.rule .operatorType) [step .intersectionType none [tok "&", .rule .operatorType]]]

def unionPart : F := .oneOf [functionType, constructorType, intersectionType]

def unionType : F :=
  .oneOf [
    node .unionType [tok "|", unionPart, .many (.seq [tok "|", unionPart])],
    .grow unionPart [step .unionType none [tok "|", unionPart]]]

def memberType : F := unionType

def type : F :=
  .grow (.rule .memberType) [
    step .conditionalType none
      [.sameLine, word "extends", .rule .memberType, tok "?", .rule .type, colon, .rule .type],
    step .conditionalType none
      [word "extends", .rule .memberType, tok "?", .rule .type, colon, .rule .type]]

def inferType : F :=
  node .inferType [word "infer", typeIdentifier,
    opt (.seq [word "extends", .rule .memberType, .notAhead (tok "?")])]

def predefinedType : F :=
  .oneOf [
    node .predefinedType [word "unique", word "symbol"],
    .oneOf (["any", "number", "boolean", "string", "symbol", "void", "unknown", "never",
      "object"].map (leafWord · .predefinedType))]

def typeMember : F :=
  .seq [tokUnless "." ".", role .property (plainName .propertyIdentifier)]

/-- A qualified name: values in front, the type at its end. -/
def typeName : F :=
  .oneOf [
    node .nestedTypeIdentifier [
      .oneOf [
        node .nestedIdentifier
          [identifier, typeMember, .many (.seq [typeMember, .ahead (tok ".")]), .ahead (tok ".")],
        identifier],
      tok ".", plainName .typeIdentifier],
    typeIdentifier]

def namedType : F :=
  .grow (.rule .typeName) [step .genericType none [.rule .typeArguments]]

def memberSteps : List (Step Rule) :=
  [step .memberExpression (some .object)
      [.oneOf [tokUnless "." ".", tok "?."], role .property (.oneOf [
        .token .privateName .privateIdentifier, plainName .propertyIdentifier])],
    step .subscriptExpression (some .object)
      [.sameLine, tok "[", .oneOf [stringLiteral, .token .number .number, identifier], tok "]"]]

/-- A module named by its source, `import('m')`. -/
def importedModule : F :=
  node .callExpression
    [role .callee (leafWord "import" .importCallee), role .arguments (.rule .arguments)]

def importType : F :=
  .grow (.grow importedModule memberSteps) [step .genericType none [.rule .typeArguments]]

def typeQuery : F :=
  node .typeQuery [word "typeof",
    .grow (.oneOf [importedModule, leafWord "this" .thisValue, identifier]) memberSteps,
    opt (.seq [.sameLine, .rule .typeArguments])]

def literalType : F :=
  node .literalType [.oneOf [
    stringLiteral,
    .token .number .number,
    node .unaryExpression [.oneOf [tok "-", tok "+"], .token .number .number],
    leafWord "true" .trueValue, leafWord "false" .falseValue, leafWord "null" .nullValue,
    leafWord "undefined" .undefinedValue]]

def tupleMember : F :=
  .oneOf [
    node .tupleMember
      [.oneOf [identifier, node .restPattern [tok "...", identifier]], opt (tok "?"),
        .rule .ascription],
    node .tupleMember [tok "...", .rule .type],
    .seq [.rule .type, opt (tok "?")]]

def tupleType : F := node .tupleType [tok "[", commaList tupleMember, tok "]"]

def templateType : F :=
  node .templateType [tok "`",
    .many (.oneOf [.raw .templateText .templateText,
      node .templateSubstitution [.raw (.exactly "$\x7b".toList) .token, .rule .type, closeBrace]]),
    .raw (.exactly "`".toList) .token]

def primaryType : F :=
  .oneOf [
    node .parenthesizedType [tok "(", .rule .type, tok ")"],
    predefinedType,
    .rule .objectType,
    tupleType,
    templateType,
    typeQuery,
    importType,
    literalType,
    leafWord "this" .thisValue,
    leafWord "const" .token,
    namedType,
    tok "*"]

def postfixType : F :=
  .grow primaryType [
    step .arrayType none [.sameLine, tok "[", tok "]"],
    step .lookupType none [.sameLine, tok "[", .rule .type, tok "]"]]

def operatorType : F :=
  .oneOf [
    node .typeOperator [.oneOf [word "keyof", word "readonly"], .rule .operatorType],
    inferType,
    postfixType]

def ascription : F := node .ascription [colon, .rule .type]

def typeArguments : F :=
  node .typeArguments [tok "<", commaSeparated (.rule .type), opt (tok ","), tok ">"]

def typeParameter : F :=
  node .typeParameter [
    .many (.seq [.oneOf [word "const", word "in", word "out"], .ahead typeIdentifier]),
    role .name typeIdentifier,
    opt (.seq [word "extends", .rule .type]),
    opt (.seq [equals, .rule .type])]

def typeParameters : F :=
  node .typeParameters [tok "<", commaSeparated typeParameter, opt (tok ","), tok ">"]

def signatureModifier : F :=
  .seq [.oneOf (["public", "private", "protected", "static", "override", "readonly"].map word),
    .ahead (.rule .propertyName)]

def typeMethodSignature : F :=
  node .methodSignature [
    .many signatureModifier,
    classMethodHead,
    role .name (.rule .propertyName), opt (tok "?"), .rule .callSignature]

def propertySignature : F :=
  node .propertySignature [
    .many signatureModifier,
    role .name (.rule .propertyName), opt (tok "?"), opt (.rule .ascription)]

def callableSignature : F :=
  node .callSignature [opt (.seq [opt (word "abstract"), word "new"]), .rule .callSignature]

def objectTypeMember : F :=
  .oneOf [indexSignature, callableSignature, typeMethodSignature, propertySignature]

def memberSeparator : F := .oneOf [tok ";", tok ",", .ahead closeBrace, .newLine]

def objectType : F :=
  node .objectType
    [openBrace,
      .many (.oneOf [tok ";", tok ",", .seq [objectTypeMember, memberSeparator]]),
      closeBrace]

end CodeAtlas.Grammar.Forms
