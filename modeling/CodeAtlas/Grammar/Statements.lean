import CodeAtlas.Grammar.Functions

/-!
Statements and declarations.
-/

namespace CodeAtlas.Grammar.Forms

def block : F := node .statementBlock [openBrace, .many (.rule .statement), closeBrace]

def variableDeclarator : F :=
  node .variableDeclarator [
    role .name (.rule .binding),
    opt (typed (.seq [opt (tokUnless "!" "="), .rule .ascription])),
    opt (.seq [equals, role .value (.rule .expression)])]

def variableDeclaration : F :=
  node .variableDeclaration [word "var", commaSeparated variableDeclarator, semicolon]

/-- Before a line break `let` is a name, unless a pattern follows. -/
def letWord : F := .seq [word "let", .oneOf [.sameLine, .ahead (tok "[")]]

def lexicalDeclaration : F :=
  node .lexicalDeclaration
    [.oneOf [word "const", letWord], commaSeparated variableDeclarator, semicolon]

def functionAsync : F := opt (.seq [word "async", .sameLine])

def functionDeclaration : F :=
  node .functionDeclaration
    [functionAsync, word "function", .notAhead (tok "*"), role .name identifier,
      .rule .callSignature, role .body (.rule .block)]

def generatorDeclaration : F :=
  node .generatorDeclaration
    [functionAsync, word "function", tok "*", role .name identifier, .rule .callSignature,
      role .body (.rule .block)]

def functionSignature : F :=
  node .functionSignature
    [functionAsync, word "function", opt (tok "*"), role .name identifier, .rule .callSignature,
      .notAhead openBrace, semicolon]

/-- A declared class has a name. -/
def classDeclaration : F :=
  node .classDeclaration
    [.many (.rule .decorator),
      .ahead (.seq [word "class", .notAhead (.oneOf [openBrace, word "extends"])]),
      .rule .classRest]

def abstractClassDeclaration : F :=
  node .abstractClassDeclaration
    [.many (.rule .decorator), word "abstract", .sameLine, .ahead (word "class"), .rule .classRest]

def enumMember : F :=
  .oneOf [
    node .enumAssignment [role .name (.rule .propertyName), initializer],
    role .name (.rule .propertyName)]

def enumDeclaration : F :=
  node .enumDeclaration [
    opt (word "const"), word "enum", role .name identifier,
    role .body (node .enumBody [openBrace, commaList enumMember, closeBrace])]

def interfaceDeclaration : F :=
  node .interfaceDeclaration [
    word "interface", .sameLine, role .name typeIdentifier, opt (.rule .typeParameters),
    opt (node .classHeritage [word "extends", commaSeparated (.rule .type)]),
    role .body (.rule .objectType)]

def typeAliasDeclaration : F :=
  node .typeAliasDeclaration
    [word "type", .sameLine, role .name typeIdentifier, opt (.rule .typeParameters), equals,
      .rule .type, semicolon]

def moduleName : F :=
  .oneOf [stringLiteral, .grow identifier [
    step .nestedIdentifier none [tok ".", plainName .propertyIdentifier]]]

def moduleDeclaration : F :=
  node .moduleDeclaration
    [word "module", .sameLine, role .name moduleName, opt (role .body (.rule .block))]

def namespaceDeclaration : F :=
  node .namespaceDeclaration
    [word "namespace", .sameLine, role .name moduleName, opt (role .body (.rule .block))]

def importAlias : F :=
  node .importAlias [word "import", role .name identifier, equals, .notAhead (word "require"),
    moduleName, semicolon]

def ambientDeclaration : F :=
  node .ambientDeclaration [word "declare", .sameLine, .oneOf [
    .rule .declaration,
    .seq [word "global", .rule .block],
    .seq [word "module", tok ".", plainName .propertyIdentifier, colon, .rule .type, semicolon]]]

def declaration : F :=
  .oneOf [
    typed enumDeclaration,
    lexicalDeclaration,
    variableDeclaration,
    functionDeclaration,
    generatorDeclaration,
    typed functionSignature,
    classDeclaration,
    typed (.oneOf [
      abstractClassDeclaration,
      interfaceDeclaration,
      typeAliasDeclaration,
      moduleDeclaration,
      namespaceDeclaration,
      importAlias,
      ambientDeclaration])]

def condition : F := .rule .parenthesized

def bodyStatement : F := role .body (.rule .statement)

def ifStatement : F :=
  node .ifStatement [word "if", condition, .rule .statement,
    opt (node .elseClause [word "else", .rule .statement])]

def expressionStatement : F :=
  node .expressionStatement
    [.notAhead (.oneOf [openBrace, word "function", word "class"]), .rule .expressions, semicolon]

def emptyStatement : F := node .emptyStatement [tok ";"]

def forStatement : F :=
  node .forStatement [
    word "for", tok "(",
    .oneOf [lexicalDeclaration, variableDeclaration,
      node .expressionStatement [.rule .expressions, tok ";"], emptyStatement],
    .oneOf [node .expressionStatement [.rule .expressions, tok ";"], emptyStatement],
    opt (.rule .expressions),
    tok ")",
    bodyStatement]

def loopVariable : F :=
  .oneOf [
    .seq [.oneOf [word "const", letWord, word "var"], .rule .binding],
    .rule .target]

def forInStatement : F :=
  node .forInStatement [
    word "for", opt (word "await"), tok "(", loopVariable, .oneOf [word "in", word "of"],
    .rule .expressions, tok ")", bodyStatement]

def whileStatement : F := node .whileStatement [word "while", condition, bodyStatement]

def doStatement : F :=
  node .doStatement [word "do", bodyStatement, word "while", condition, opt (tok ";")]

def switchStatement : F :=
  node .switchStatement [word "switch", condition, role .body (node .switchBody [
    openBrace,
    .many (node .switchCase [
      .oneOf [.seq [word "case", .rule .expressions], word "default"], colon,
      .many (.rule .statement)]),
    closeBrace])]

def catchClause : F :=
  node .catchClause [word "catch",
    opt (.seq [tok "(", .rule .binding, opt (typed (.rule .ascription)), tok ")"]),
    role .body (.rule .block)]

def finallyClause : F := node .finallyClause [word "finally", role .body (.rule .block)]

def tryStatement : F :=
  node .tryStatement [word "try", role .body (.rule .block), opt catchClause, opt finallyClause]

def withStatement : F := node .withStatement [word "with", condition, bodyStatement]

def label : F := .token .identifier .statementLabel

def labeledStatement : F := node .labeledStatement [label, colon, bodyStatement]

def jump (kind : Kind) (text : String) : F :=
  node kind [word text, opt (.seq [.sameLine, label]), semicolon]

def returnStatement : F :=
  node .returnStatement [word "return", opt (.seq [.sameLine, .rule .expressions]), semicolon]

def throwStatement : F :=
  node .throwStatement [word "throw", .rule .expressions, semicolon]

def debuggerStatement : F := node .debuggerStatement [word "debugger", semicolon]

end CodeAtlas.Grammar.Forms
