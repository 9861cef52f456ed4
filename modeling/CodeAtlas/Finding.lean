import CodeAtlas.Responsibility.Category
import CodeAtlas.Ring
import CodeAtlas.Size.Splits

/-!
What is wrong with a file, and what to do about it. A problem and an advice are told by their
causes; how serious they are and the words for them follow from these.
-/

namespace CodeAtlas

/-- Two kinds of work that should not meet in one file. -/
inductive Mixture where
  | dataInUi
  | logicInUi
  deriving DecidableEq, Repr

/-- The kind of work that does not belong there. -/
def Mixture.intruder : Mixture → Category
  | .dataInUi => .dataAccess
  | .logicInUi => .businessLogic

inductive Problem where
  | circularDependency (ring : Ring)
  | unusedImports (bindings : List String)
  | multipleResponsibilities (present : List Category) (allowed : Nat)
  | mixedConcerns (mixture : Mixture)
  | fileTooLarge (lines threshold : Nat)
  | parseFailure (reason : String)
  | syntaxErrors
  deriving DecidableEq, Repr

namespace Problem

def label : Problem → String
  | circularDependency _ => "circular-dependency"
  | unusedImports _ => "unused-import"
  | multipleResponsibilities _ _ => "multiple-responsibilities"
  | mixedConcerns _ => "mixed-concerns"
  | fileTooLarge _ _ => "file-too-large"
  | parseFailure _ => "parse-failure"
  | syntaxErrors => "syntax-errors"

/-- A file is far too large at more than twice what is allowed. -/
def severity : Problem → Severity
  | circularDependency _ => .high
  | unusedImports _ => .low
  | multipleResponsibilities _ _ => .medium
  | mixedConcerns .dataInUi => .high
  | mixedConcerns .logicInUi => .medium
  | fileTooLarge lines threshold => if 2 * threshold < lines then .high else .medium
  | parseFailure _ => .low
  | syntaxErrors => .low

def description : Problem → String
  | circularDependency ring => "Circular dependency: " ++ ring.text
  | unusedImports bindings =>
    toString bindings.length ++ " unused import(s): " ++ ", ".intercalate bindings
  | multipleResponsibilities present allowed =>
    "File has " ++ toString present.length ++ " responsibilities (max " ++ toString allowed ++
      "): " ++ ", ".intercalate (present.map Category.label)
  | mixedConcerns .dataInUi =>
    "UI should not handle data access directly; move queries into a service or hook"
  | mixedConcerns .logicInUi => "Business logic is mixed with UI rendering"
  | fileTooLarge lines threshold =>
    "File has " ++ toString lines ++ " effective lines (threshold " ++ toString threshold ++ ")"
  | parseFailure reason => "Could not classify responsibilities: " ++ reason
  | syntaxErrors => "Parser recovered from syntax errors; results may be incomplete"

end Problem

/-- A file, or a line and column in it, both counted from one. -/
structure Location where
  file : String
  position : Option (Nat × Nat)
  deriving DecidableEq, Repr

structure Issue where
  problem : Problem
  location : Location
  deriving DecidableEq, Repr

def Issue.severity (i : Issue) : Severity := i.problem.severity

inductive Advice where
  | removeUnusedImports (count : Nat)
  | breakCycle
  /-- The first split says how much work it is. -/
  | splitFile (splits : List Size.Split)
  | extract (category : Category)
  deriving DecidableEq, Repr

namespace Advice

def label : Advice → String
  | removeUnusedImports _ => "remove-unused-imports"
  | breakCycle => "break-cycle"
  | splitFile _ => "split-file"
  | extract _ => "extract-responsibility"

/-- The higher, the more urgent. -/
def priority : Advice → Nat
  | removeUnusedImports _ => 3
  | breakCycle => 8
  | splitFile _ => 7
  | extract c =>
    match c with
    | .uiRendering => 5
    | .uiInteraction => 4
    | .businessLogic => 8
    | .dataAccess => 9
    | .validation => 6
    | .stateManagement => 6
    | .apiCommunication => 8
    | .utility => 3
    | .configuration => 3
    | .testing => 2

def description : Advice → String
  | removeUnusedImports count => "Remove " ++ toString count ++ " unused import(s)"
  | breakCycle => "Break the import cycle by extracting shared code or inverting a dependency"
  | splitFile splits =>
    "Split the file (" ++ ", ".intercalate (splits.map fun s => s.kind.label) ++ ")"
  | extract c =>
    match c with
    | .uiRendering => "Keep presentational markup in dedicated components"
    | .uiInteraction => "Move event handlers into a custom hook"
    | .businessLogic => "Extract business rules into a service module"
    | .dataAccess => "Extract data access into a repository/service layer"
    | .validation => "Move validation schemas into a dedicated validation module"
    | .stateManagement => "Move state handling into a custom hook or store"
    | .apiCommunication => "Wrap API calls in an API client module"
    | .utility => "Move helper functions into a utils module"
    | .configuration => "Move constants and configuration into a config module"
    | .testing => "Keep test helpers out of production modules"

def effort : Advice → Effort
  | removeUnusedImports _ => .low
  | breakCycle => .medium
  | splitFile splits => (splits.head?.map Size.Split.effort).getD .medium
  | extract c =>
    match c with
    | .uiRendering | .businessLogic | .dataAccess | .stateManagement | .apiCommunication => .medium
    | .uiInteraction | .validation | .utility | .configuration | .testing => .low

def benefits : Advice → List String
  | removeUnusedImports _ => ["Less noise", "Smaller bundles"]
  | breakCycle => ["Predictable module initialization", "Independent testing"]
  | splitFile _ => ["Smaller review surface", "Easier navigation", "Focused tests"]
  | extract c =>
    match c with
    | .uiRendering => ["Reusable components", "Simpler rendering tests"]
    | .uiInteraction => ["Handlers testable without rendering"]
    | .businessLogic => ["Rules testable in isolation", "Reuse across screens"]
    | .dataAccess => ["Single place for queries", "Data source can be mocked in tests"]
    | .validation => ["Schemas shared between client and server"]
    | .stateManagement => ["State logic reusable and testable"]
    | .apiCommunication => ["Central error handling and retries", "Endpoints easy to mock"]
    | .utility => ["Helpers reusable across files"]
    | .configuration => ["Settings changed in one place"]
    | .testing => ["Smaller production bundle"]

def risks : Advice → List String
  | removeUnusedImports _ => ["Side-effect imports must be kept"]
  | breakCycle => ["Touches every file on the cycle"]
  | splitFile _ => ["Import paths change for callers"]
  | extract c =>
    match c with
    | .uiRendering => ["More props passed between components"]
    | .uiInteraction => ["Extra hook indirection"]
    | .businessLogic => ["Callers need updating"]
    | .dataAccess | .apiCommunication => ["Added indirection"]
    | .stateManagement => ["Component and hook must stay in sync"]
    | .validation | .utility | .configuration | .testing => ["Low risk"]

/-- The more urgent first; advice of one priority keeps its order. -/
def sort (advice : List Advice) : List Advice :=
  advice.mergeSort fun a b => b.priority ≤ a.priority

end Advice

end CodeAtlas
