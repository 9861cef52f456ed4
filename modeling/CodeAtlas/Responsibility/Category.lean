/-!
The kinds of work that a file may be doing. `Category.all` lists them in the order in which they
are looked for and reported.
-/

namespace CodeAtlas

inductive Category where
  | uiRendering
  | uiInteraction
  | businessLogic
  | dataAccess
  | validation
  | stateManagement
  | apiCommunication
  | utility
  | configuration
  /-- Kept for later: nothing counts as evidence of it. -/
  | testing
  deriving DecidableEq, Repr, Inhabited

namespace Category

def all : List Category :=
  [uiRendering, uiInteraction, businessLogic, dataAccess, validation, stateManagement,
    apiCommunication, utility, configuration, testing]

def label : Category → String
  | uiRendering => "UI Rendering"
  | uiInteraction => "UI Interaction"
  | businessLogic => "Business Logic"
  | dataAccess => "Data Access"
  | validation => "Input Validation"
  | stateManagement => "State Management"
  | apiCommunication => "API Communication"
  | utility => "Utility Functions"
  | configuration => "Configuration"
  | testing => "Testing"

/-- The name of a category in settings, with its words joined by the given sign. -/
def tag (sign : String) : Category → String
  | uiRendering => "ui" ++ sign ++ "rendering"
  | uiInteraction => "ui" ++ sign ++ "interaction"
  | businessLogic => "business" ++ sign ++ "logic"
  | dataAccess => "data" ++ sign ++ "access"
  | validation => "validation"
  | stateManagement => "state" ++ sign ++ "management"
  | apiCommunication => "api" ++ sign ++ "communication"
  | utility => "utility"
  | configuration => "configuration"
  | testing => "testing"

end Category

end CodeAtlas
