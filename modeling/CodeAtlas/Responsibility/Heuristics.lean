import CodeAtlas.Decimal.Layout
import CodeAtlas.Responsibility.Category
import CodeAtlas.Shape
import CodeAtlas.Text.Lowercase
import CodeAtlas.Text.Words

/-!
The words and numbers by which the work of a file is recognised. They are plain data, so that a
project can bring its own.
-/

namespace CodeAtlas

/-- How sure a category is once evidence is found, and the words that are evidence. -/
structure CategoryRule where
  confidence : Float
  keywords : List String
  deriving Inhabited

/-- What a rule is when only a part of it is given. -/
def CategoryRule.default : CategoryRule := ⟨0.5, []⟩

namespace CategoryRule

def hasKeyword (r : CategoryRule) (word : String) : Bool := r.keywords.contains word

/-- Whether a keyword occurs in a name, whatever the case of either. -/
def mentionedIn (r : CategoryRule) (name : String) : Bool :=
  let lower := Text.lowercase name
  r.keywords.any fun k => Text.hasPart (Text.lowercase k) lower

end CategoryRule

/-- The smaller of two numbers; what is no number counts for nothing. -/
def lesser (x y : Float) : Float := if x.isNaN || y < x then y else x

def clampToUnit (x : Float) : Float := if x < 0.0 then 0.0 else if 1.0 < x then 1.0 else x

structure Heuristics where
  rule : Category → CategoryRule
  /-- Starts the name of a handler, before a capital. -/
  handlerPrefix : String
  /-- How many branches make a function business logic. -/
  minBranches : Nat
  /-- Values whose methods reach for data. -/
  dataObjects : List String
  /-- Modules that are clients of a data store. -/
  dataImports : List String
  /-- Values whose calls go to another program. -/
  apiObjects : List String
  presenceThreshold : Float
  strictPresenceThreshold : Float
  maxDiversityBonus : Float

namespace Heuristics

def defaultRule : Category → CategoryRule
  | .uiRendering => ⟨0.9, []⟩
  | .uiInteraction => ⟨0.7, ["handle", "click"]⟩
  | .businessLogic => ⟨0.8, []⟩
  | .dataAccess =>
    ⟨0.9, ["query", "find", "create", "update", "delete", "save", "fetch", "select", "insert",
      "from", "where", "eq", "single"]⟩
  | .validation => ⟨0.8, ["validate", "parse", "safeParse", "check"]⟩
  | .stateManagement =>
    ⟨0.9, ["useState", "useReducer", "useContext", "useStore", "useSelector"]⟩
  | .apiCommunication => ⟨0.8, ["get", "post", "put", "patch", "delete"]⟩
  | .utility => ⟨0.6, ["format", "parse", "convert", "transform", "helper", "util"]⟩
  | .configuration =>
    ⟨0.7, ["config", "constant", "setting", "option", "default", "api_", "max_", "min_"]⟩
  | .testing => ⟨0.9, []⟩

def default : Heuristics where
  rule := defaultRule
  handlerPrefix := "on"
  minBranches := 2
  dataObjects := ["supabase", "prisma", "db", "database"]
  dataImports := ["supabase", "prisma", "mongoose", "sequelize"]
  apiObjects := ["fetch", "axios", "http"]
  presenceThreshold := 0.3
  strictPresenceThreshold := 0.6
  maxDiversityBonus := 0.2

instance : Inhabited Heuristics := ⟨default⟩

def withRule (h : Heuristics) (c : Category) (r : CategoryRule) : Heuristics :=
  { h with rule := fun d => if d = c then r else h.rule d }

def confidence (h : Heuristics) (c : Category) : Float := clampToUnit (h.rule c).confidence

def presence (h : Heuristics) (strict : Bool) : Float :=
  if strict then h.strictPresenceThreshold else h.presenceThreshold

/-- Whether a capital follows the prefix of handlers. -/
def hasHandlerPrefix (h : Heuristics) (name : String) : Bool :=
  Text.hasPrefix h.handlerPrefix name &&
    (name.toList.drop h.handlerPrefix.length).head?.any Text.isCapital

def isHandlerName (h : Heuristics) (name : String) : Bool :=
  h.hasHandlerPrefix name || (h.rule .uiInteraction).mentionedIn name

def isBusinessLogic (h : Heuristics) (branches : Nat) : Bool := h.minBranches ≤ branches

/-- A chain over a data object with a method that starts with a word for data access. -/
def isDataAccessCall (h : Heuristics) (c : Call) : Bool :=
  (c.root.toList ++ c.chain).any h.dataObjects.contains &&
    c.chain.any fun method =>
      (h.rule .dataAccess).keywords.any fun k => Text.hasPrefix k method

/-- Only the source is put into lower case. -/
def isDataAccessImport (h : Heuristics) (source : String) : Bool :=
  let lower := Text.lowercase source
  h.dataImports.any fun client => Text.hasPart client lower

def isValidationCall (h : Heuristics) (c : Call) : Bool :=
  c.callee.any (h.rule .validation).hasKeyword

def isStateCall (h : Heuristics) (c : Call) : Bool :=
  c.callee.any (h.rule .stateManagement).hasKeyword

def isApiCall (h : Heuristics) (c : Call) : Bool :=
  c.root.any h.apiObjects.contains || c.method.any (h.rule .apiCommunication).hasKeyword

def isUtilityName (h : Heuristics) (name : String) : Bool := (h.rule .utility).mentionedIn name

def isConfigurationName (h : Heuristics) (name : String) : Bool :=
  (h.rule .configuration).mentionedIn name || Text.isAllCaps name

/-- What may be wrong with the numbers of a table. -/
inductive Fault where
  | confidence (c : Category) (value : Float)
  | threshold (name : String)

def Fault.message : Fault → String
  | .confidence c value =>
    "heuristics." ++ c.tag "_" ++ " confidence must be between 0 and 1, got " ++
      Decimal.Layout.prose.render value
  | .threshold name => "heuristics." ++ name ++ " must be a non-negative number"

def thresholds (h : Heuristics) : List (String × Float) :=
  [("presence_threshold", h.presenceThreshold),
    ("strict_presence_threshold", h.strictPresenceThreshold),
    ("max_diversity_bonus", h.maxDiversityBonus)]

/-- The first fault: confidences in the order of the categories, then the thresholds. -/
def fault? (h : Heuristics) : Option Fault :=
  let confidences := Category.all.findSome? fun c =>
    let value := (h.rule c).confidence
    if 0.0 ≤ value && value ≤ 1.0 then none else some (Fault.confidence c value)
  confidences.orElse fun _ => h.thresholds.findSome? fun (name, value) =>
    if value.isNaN || value.isInf || value < 0.0 then some (.threshold name) else none

end Heuristics

end CodeAtlas
