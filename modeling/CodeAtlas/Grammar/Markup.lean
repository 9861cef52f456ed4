import CodeAtlas.Grammar.Rule

/-!
Markup inside of expressions. An element without a name is a fragment. Between the tags blanks and
slashes are text, so text is read directly behind the token before it.
-/

namespace CodeAtlas.Grammar.Forms

def markupIdentifier : F := .token .markupName .identifier

def markupNamespaceName (kind : Kind) : F :=
  node .markupNamespaceName
    [.token .markupName kind, tok ":", .token .markupName kind]

/-- A tag may be a plain name, a member of a value, or a name in a namespace. -/
def tagName : F :=
  .oneOf [
    markupNamespaceName .identifier,
    .grow markupIdentifier [
      step .memberExpression (some .object)
        [tok ".", role .property (.token .markupName .propertyIdentifier)]]]

def markupExpression : F :=
  node .markupExpression
    [openBrace, opt (.oneOf [node .spread [tok "...", .rule .expression], .rule .expressions]),
      closeBrace]

def markupAttribute : F :=
  .oneOf [
    markupExpression,
    node .markupAttribute [
      .oneOf [markupNamespaceName .identifier, .token .markupName .propertyIdentifier],
      opt (.seq [tok "=", role .value (.oneOf [
        .token .markupString .string, markupExpression, .rule .markup])])]]

def markupChild : F :=
  .oneOf [
    .raw .markupText .markupText,
    .raw .entity .markupText,
    .rule .markup,
    markupExpression]

def closingTag : F := .seq [tok "<", tok "/", opt tagName, tok ">"]

def markupContent : F := .seq [tok ">", .many markupChild, closingTag]

def markup : F :=
  .only Dialect.hasMarkup (node .markup [
    tok "<",
    .oneOf [
      .seq [
        role .name tagName, opt (typed (.rule .typeArguments)), .many markupAttribute,
        .oneOf [.seq [tok "/", tok ">"], markupContent]],
      markupContent]])

end CodeAtlas.Grammar.Forms
