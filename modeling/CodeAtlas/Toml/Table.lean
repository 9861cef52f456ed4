import CodeAtlas.Config.Value

/-!
Tables while they are put together. A table may be opened once by a header; what stands for it
before, because a longer header or a dotted key went through it, does not count as opening it.
-/

namespace CodeAtlas.Toml

open Config (Value)

/-- What a table owes its existence to. -/
inductive Origin where
  | header
  /-- A header of a table inside of it. -/
  | passed
  | dotted
  deriving DecidableEq, Repr

inductive Item where
  | value (v : Value)
  | table (origin : Origin) (fields : List (String × Item))
  /-- Tables of one name, the last one first. -/
  | tables (all : List (List (String × Item)))

abbrev Fields := List (String × Item)

namespace Fields

def replace (key : String) (item : Item) : Fields → Fields
  | [] => [(key, item)]
  | (other, i) :: fields =>
    if other = key then (key, item) :: fields else (other, i) :: replace key item fields

/-- Changes the table that the names lead to, the last one of several with one name. Tables that
are not there are passed through. -/
def under (change : Fields → Option Fields) : List String → Fields → Option Fields
  | [], fields => change fields
  | key :: path, fields =>
    match fields.lookup key with
    | none => do return fields.replace key (.table .passed (← under change path []))
    | some (.table origin inner) => do
      return fields.replace key (.table origin (← under change path inner))
    | some (.tables (last :: front)) => do
      return fields.replace key (.tables ((← under change path last) :: front))
    | some (.tables []) | some (.value _) => none

/-- Opens the table of a header. -/
def openTable (key : String) (fields : Fields) : Option Fields :=
  match fields.lookup key with
  | none => some (fields.replace key (.table .header []))
  | some (.table .passed inner) => some (fields.replace key (.table .header inner))
  | some _ => none

/-- Opens one more table of a name. -/
def openNext (key : String) (fields : Fields) : Option Fields :=
  match fields.lookup key with
  | none => some (fields.replace key (.tables [[]]))
  | some (.tables all) => some (fields.replace key (.tables ([] :: all)))
  | some _ => none

def insertNew (key : String) (v : Value) (fields : Fields) : Option Fields :=
  if (fields.lookup key).isSome then none else some (fields.replace key (.value v))

/-- Sets a value below dotted keys. They lead through tables that no header has opened, and only a
table that dotted keys made takes the value. -/
def setDotted (key : String) (v : Value) : List String → Fields → Option Fields
  | [], fields => insertNew key v fields
  | part :: path, fields =>
    match fields.lookup part with
    | none => do return fields.replace part (.table .dotted (← setDotted key v path []))
    | some (.table origin inner) =>
      if origin = .header || (path.isEmpty && origin ≠ .dotted) then none
      else do return fields.replace part (.table origin (← setDotted key v path inner))
    | some (.tables (last :: front)) =>
      if path.isEmpty then none
      else do return fields.replace part (.tables ((← setDotted key v path last) :: front))
    | some (.tables []) | some (.value _) => none

end Fields

mutual

def Item.toValue : Item → Value
  | .value v => v
  | .table _ fields => .table (valuesOf fields)
  | .tables all => .list (tablesOf all).reverse

def valuesOf : List (String × Item) → List (String × Value)
  | [] => []
  | (key, item) :: fields => (key, item.toValue) :: valuesOf fields

def tablesOf : List (List (String × Item)) → List Value
  | [] => []
  | fields :: all => .table (valuesOf fields) :: tablesOf all

end

end CodeAtlas.Toml
