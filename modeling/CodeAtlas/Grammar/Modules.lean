import CodeAtlas.Grammar.Statements

/-!
Imports and exports.
-/

namespace CodeAtlas.Grammar.Forms

def sourceString : F := role .source stringLiteral

def fromClause : F := .seq [word "from", sourceString]

def importAttribute : F := node .importAttribute [word "with", .rule .object]

/-- A name in an import or export list: any word, or a string. -/
def listedName : F := .oneOf [plainName .identifier, stringLiteral]

def specifierEnd : F := .ahead (.oneOf [tok ",", closeBrace])

/-- A name with an optional alias, in typed dialects perhaps marked as a type. -/
def specifier (kind : Kind) : F :=
  let names := [role .name listedName, opt (.seq [word "as", role .alias listedName]),
    specifierEnd]
  .oneOf [
    node kind names,
    typed (node kind (.oneOf [word "type", word "typeof"] :: names))]

def namespaceImport : F := node .namespaceImport [tok "*", word "as", identifier]

def namedImports : F :=
  node .namedImports [openBrace, commaList (specifier .importSpecifier), closeBrace]

def importClause : F :=
  node .importClause [.oneOf [
    namespaceImport,
    namedImports,
    .seq [identifier, opt (.seq [tok ",", .oneOf [namespaceImport, namedImports]])]]]

def importRequireClause : F :=
  node .importRequireClause
    [identifier, equals, word "require", tok "(", sourceString, tok ")"]

def importedParts : F :=
  .oneOf [
    .seq [importClause, fromClause],
    typed importRequireClause,
    sourceString]

def importStatement : F :=
  node .importStatement [
    word "import",
    .oneOf [
      .seq [importedParts, opt importAttribute, semicolon],
      typed (.seq [.oneOf [word "type", word "typeof"], importedParts, opt importAttribute,
        semicolon])]]

def exportClause : F :=
  node .exportClause [openBrace, commaList (specifier .exportSpecifier), closeBrace]

def namespaceExport : F := node .namespaceExport [tok "*", word "as", listedName]

def exportedList : F :=
  .oneOf [
    .seq [tok "*", fromClause],
    .seq [namespaceExport, fromClause],
    .seq [exportClause, fromClause],
    exportClause]

def exportedDefault : F :=
  .seq [word "default", .oneOf [
    role .declaration (.rule .declaration),
    .seq [role .value (.rule .expression), semicolon]]]

/-- Before a line break `export` is a name, unless a star follows. -/
def exportWord : F := .seq [word "export", .oneOf [.sameLine, .ahead (tok "*")]]

def exportStatement : F :=
  .oneOf [
    node .exportStatement [exportWord, exportedList, opt importAttribute, semicolon],
    node .exportStatement [
      .many (.rule .decorator), exportWord,
      .oneOf [exportedDefault, role .declaration (.rule .declaration)]],
    typed (node .exportStatement [exportWord, .oneOf [
      .seq [word "type", exportClause, opt fromClause, semicolon],
      importAlias,
      .seq [equals, .rule .expression, semicolon],
      .seq [word "as", word "namespace", identifier, semicolon]]])]

/-- A comment in the manner of a page that holds a script. -/
def pageComment : F := .token .pageComment .comment

def statement : F :=
  .oneOf [
    pageComment,
    .rule .block,
    .rule .declaration,
    ifStatement,
    returnStatement,
    importStatement,
    exportStatement,
    forInStatement,
    forStatement,
    whileStatement,
    doStatement,
    switchStatement,
    tryStatement,
    throwStatement,
    withStatement,
    jump .breakStatement "break",
    jump .continueStatement "continue",
    debuggerStatement,
    emptyStatement,
    labeledStatement,
    expressionStatement]

/-- Where no statement can be read, the rest of the line is passed over. -/
def unreadLine : F := .token .restOfLine .error

def program : F :=
  .seq [
    opt (.seq [.ahead (tok "#!"), .token .restOfLine .hashBang]),
    .many (.oneOf [.rule .statement, unreadLine]),
    .atEnd]

end CodeAtlas.Grammar.Forms
