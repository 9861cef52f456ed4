/-!
Values as they stand in settings, and how a structure is filled with them. A table fills the fields
it names and leaves the others as they are; a list fills the fields in their order.
-/

namespace CodeAtlas.Config

inductive Value where
  | text (s : String)
  | integer (n : Int)
  | number (x : Float)
  | truth (b : Bool)
  /-- A date or a time. -/
  | moment
  | list (xs : List Value)
  | table (fields : List (String × Value))
  deriving Inhabited

/-- A part of a structure that settings can fill. -/
structure Field (α : Type) where
  name : String
  fill : Value → α → Option α

namespace Value

def text? : Value → Option String
  | text s => some s
  | _ => none

def truth? : Value → Option Bool
  | truth b => some b
  | _ => none

def natural? : Value → Option Nat
  | integer n => if 0 ≤ n then some n.toNat else none
  | _ => none

/-- A number, also one that is written without a point. -/
def number? : Value → Option Float
  | number x => some x
  | integer n => some (Float.ofInt n)
  | _ => none

def texts? : Value → Option (List String)
  | list xs => xs.mapM text?
  | _ => none

/-- Fills the fields that the table names; other names mean nothing. -/
def fillNamed {α : Type} (fields : List (Field α)) (start : α) (named : List (String × Value)) :
    Option α :=
  named.foldlM (fun a (name, v) =>
    match fields.find? (·.name == name) with
    | some f => f.fill v a
    | none => some a) start

/-- Fills the fields in their order; values beyond the last field mean nothing. -/
def fillInOrder {α : Type} (fields : List (Field α)) (start : α) (xs : List Value) : Option α :=
  (fields.zip xs).foldlM (fun a (f, v) => f.fill v a) start

/-- Fills a structure, or fails if a value is of the wrong kind. A moment is a table without any of
the names. -/
def fill {α : Type} (fields : List (Field α)) (start : α) : Value → Option α
  | table named => fillNamed fields start named
  | list xs => fillInOrder fields start xs
  | moment => some start
  | _ => none

end Value

end CodeAtlas.Config
