import CodeAtlas.Responsibility.Heuristics

/-!
Evidence of work: what in a syntax tree says that a file does work of some category. Evidence by
names alone can be switched off.
-/

namespace CodeAtlas

inductive Evidence where
  | markup (tag : Option String)
  | dataCall (path : String)
  | dataClient (source : String)
  | validationCall (callee : String)
  | stateHook (callee : String)
  | apiCall (path : String)
  | handler (name : String)
  | handlerProperty (name : String)
  | branches (function : Option String) (count : Nat)
  | helperFunction (name : String)
  | helper (name : String)
  | configurationValue (name : String)
  deriving DecidableEq, Repr

namespace Evidence

def category : Evidence → Category
  | markup _ => .uiRendering
  | handler _ | handlerProperty _ => .uiInteraction
  | branches _ _ => .businessLogic
  | dataCall _ | dataClient _ => .dataAccess
  | validationCall _ => .validation
  | stateHook _ => .stateManagement
  | apiCall _ => .apiCommunication
  | helperFunction _ | helper _ => .utility
  | configurationValue _ => .configuration

def tagText (tag : Option String) : String := tag.getD "fragment"

def description : Evidence → String
  | markup tag => "Renders <" ++ tagText tag ++ ">"
  | dataCall path => "Data access call chain " ++ path
  | dataClient source => "Imports data client " ++ source
  | validationCall callee => "Validation call " ++ callee ++ "()"
  | stateHook callee => "State hook " ++ callee ++ "()"
  | apiCall path => "API call " ++ path
  | handler name => "Event handler " ++ name
  | handlerProperty name => "Handler property " ++ name
  | branches function count =>
    "Function " ++ function.getD "<anonymous>" ++ " has " ++ toString count ++ " branches"
  | helperFunction name => "Helper function " ++ name
  | helper name => "Helper " ++ name
  | configurationValue name => "Configuration value " ++ name

/-- What was seen, in short words. -/
def notes : Evidence → List String
  | markup tag => ["jsx", "tag:" ++ tagText tag]
  | dataCall path => ["call-chain", path]
  | dataClient source => ["import", source]
  | validationCall callee => ["call", callee]
  | stateHook callee => ["hook", callee]
  | apiCall path => ["call", path]
  | handler name | handlerProperty name => ["handler", name]
  | branches _ count => ["branches", toString count]
  | helperFunction name | helper name | configurationValue name => ["name", name]

def optionally (b : Bool) (e : Evidence) : List Evidence := if b then [e] else []

end Evidence

namespace Heuristics

open Evidence

def callEvidence (h : Heuristics) (c : Call) : List Evidence :=
  let callee := c.callee.getD ""
  optionally (h.isDataAccessCall c) (.dataCall c.path) ++
    optionally (h.isValidationCall c) (.validationCall callee) ++
    optionally (h.isStateCall c) (.stateHook callee) ++
    optionally (h.isApiCall c) (.apiCall c.path)

/-- Evidence in the name of a function surrounds what its branches say. -/
def functionEvidence (h : Heuristics) (byName : Bool) (name : Option String) (count : Nat) :
    List Evidence :=
  let named (test : String → Bool) (e : String → Evidence) : List Evidence :=
    name.toList.flatMap fun n => optionally (byName && test n) (e n)
  named h.isHandlerName .handler ++
    optionally (h.isBusinessLogic count) (.branches name count) ++
    named h.isUtilityName .helperFunction

def bindingEvidence (h : Heuristics) (byName : Bool) (name : String) : List Evidence :=
  optionally (byName && h.isHandlerName name) (.handler name) ++
    optionally (byName && h.isUtilityName name) (.helper name) ++
    optionally (byName && h.isConfigurationName name) (.configurationValue name)

/-- What a shape is evidence of, in the order of the categories. -/
def evidence (h : Heuristics) (byName : Bool) : Shape → List Evidence
  | .markup tag => [.markup tag]
  | .call c => h.callEvidence c
  | .function name count => h.functionEvidence byName name count
  | .property name => optionally (byName && h.isHandlerName name) (.handlerProperty name)
  | .binding name => h.bindingEvidence byName name
  | .importing source => optionally (h.isDataAccessImport source) (.dataClient source)

end Heuristics

/-- Evidence at a place in a file; lines and columns count from one. -/
structure Indicator where
  evidence : Evidence
  line : Nat
  column : Nat
  confidence : Float

namespace Indicator

def category (i : Indicator) : Category := i.evidence.category

/-- What one node is evidence of. -/
def ofNode (h : Heuristics) (byName : Bool) (n : Node) : List Indicator :=
  ((Shape.of? n).toList.flatMap (h.evidence byName)).map fun e =>
    ⟨e, n.row + 1, n.column + 1, h.confidence e.category⟩

/-- All evidence in a tree, in document order. -/
def ofTree (h : Heuristics) (byName : Bool) (root : Node) : List Indicator :=
  root.walk (fun _ n found => (.enter, found ++ ofNode h byName n)) []

end Indicator

end CodeAtlas
