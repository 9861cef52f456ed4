import CodeAtlas.Text.Space

/-!
Paths as they are written, their components, and their normal form. Paths with the same components
are the same path, however many slashes and dots they are written with. `NormalPath` is what is
left of a path when a step up has undone every step down before it.
-/

namespace CodeAtlas

/-- A part of a path. A leading dot is a part of its own, other dots are none. -/
inductive Component where
  | root
  | here
  | up
  | name (text : String)
  deriving DecidableEq, Repr

namespace Component

def rank : Component → Nat
  | root => 0
  | here => 1
  | up => 2
  | name _ => 3

def text : Component → String
  | root => "/"
  | here => "."
  | up => ".."
  | name text => text

/-- Whether a component comes before another one. Names are ordered by their characters. -/
def lt (a b : Component) : Bool :=
  match a, b with
  | name s, name t => s < t
  | _, _ => a.rank < b.rank

end Component

namespace FilePath

/-- The parts of a text between the slashes. -/
def segments (path : List Char) : List (List Char) :=
  path.foldr (fun c parts =>
    if c = '/' then [] :: parts
    else
      match parts with
      | [] => [[c]]
      | part :: more => (c :: part) :: more) [[]]

/-- A segment behind the first one, or behind the root. -/
def innerComponent? (segment : List Char) : Option Component :=
  match segment with
  | [] | ['.'] => none
  | ['.', '.'] => some .up
  | cs => some (.name (String.ofList cs))

def componentsOf (path : List Char) : List Component :=
  match segments path with
  | [] => []
  | first :: more =>
    let rest := more.filterMap innerComponent?
    match first, more with
    | [], [] => []
    | [], _ => .root :: rest
    | ['.'], _ => .here :: rest
    | cs, _ => (innerComponent? cs).toList ++ rest

/-- The components of a path as it is written. -/
def components (path : String) : List Component := componentsOf path.toList

/-- The order of paths: by their components, a shorter path before its extensions. -/
def before : List Component → List Component → Bool
  | [], [] => false
  | [], _ :: _ => true
  | _ :: _, [] => false
  | a :: as, b :: bs => a.lt b || (a == b && before as bs)

def isRooted (path : String) : Bool := path.toList.head? == some '/'

/-- The last component, if it is a name. -/
def fileName? (path : String) : Option String :=
  match (components path).getLast? with
  | some (.name text) => some text
  | _ => none

/-- A name before its last dot, and what is behind it. A dot at the front does not count. -/
def splitName (name : List Char) : List Char × Option (List Char) :=
  let behind := name.reverse.takeWhile (· != '.')
  match name.reverse.dropWhile (· != '.') with
  | [] | [_] => (name, none)
  | _ :: front => (front.reverse, some behind.reverse)

def stem? (path : String) : Option String :=
  (fileName? path).map fun name => String.ofList (splitName name.toList).1

def extension? (path : String) : Option String :=
  (fileName? path).bind fun name => (splitName name.toList).2.map String.ofList

/-- Components written out again. -/
def textOf (cs : List Component) : String :=
  match cs with
  | .root :: rest => "/" ++ "/".intercalate (rest.map Component.text)
  | cs => "/".intercalate (cs.map Component.text)

/-- A path that starts where another one leads. A rooted path starts at the root. -/
def join (base path : String) : String :=
  if isRooted path || base.isEmpty then path
  else if base.toList.getLast? == some '/' then base ++ path
  else base ++ "/" ++ path

/-- What is left of a path below a directory, if it is there. -/
def below? (directory path : List Component) : Option (List Component) :=
  match directory, path with
  | [], path => some path
  | _ :: _, [] => none
  | d :: ds, c :: cs => if d = c then below? ds cs else none

/-- The directory of a path. The root and the empty path have none. -/
def parent? (path : String) : Option (List Component) :=
  match (components path).reverse with
  | [] | [.root] => none
  | _ :: front => some front.reverse

end FilePath

/-- A path without detours: some steps up, then names. -/
structure NormalPath where
  rooted : Bool
  ups : Nat
  names : List String
  deriving DecidableEq, Repr

namespace NormalPath

def empty : NormalPath := ⟨false, 0, []⟩

/-- One component further. There is no way up from the root, but the attempt is kept. -/
def push (p : NormalPath) : Component → NormalPath
  | .root => ⟨true, 0, []⟩
  | .here => p
  | .up =>
    if p.names.isEmpty then { p with ups := p.ups + 1 } else { p with names := p.names.dropLast }
  | .name text => { p with names := p.names ++ [text] }

def ofComponents (cs : List Component) : NormalPath := cs.foldl push empty

def components (p : NormalPath) : List Component :=
  (if p.rooted then [.root] else []) ++ List.replicate p.ups .up ++ p.names.map .name

def text (p : NormalPath) : String := FilePath.textOf p.components

/-- The name by which a file is known: its normal path, with slashes only. -/
def key (p : NormalPath) : String :=
  String.ofList (p.text.toList.map fun c => if c = '\\' then '/' else c)

end NormalPath

namespace FilePath

def normal (path : String) : NormalPath := NormalPath.ofComponents (components path)

def key (path : String) : String := (normal path).key

end FilePath

end CodeAtlas
