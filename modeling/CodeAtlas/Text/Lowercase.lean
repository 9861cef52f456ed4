import CodeAtlas.Text.CaseTable

/-!
Lower case. Every letter has one form but two: a capital I with a dot keeps the dot, and a capital
sigma at the end of a word becomes a final one.
-/

namespace CodeAtlas.Text

def inRuns (runs : List (Nat × Nat)) (c : Char) : Bool :=
  runs.any fun (first, last) => first ≤ c.toNat && c.toNat ≤ last

def isCased (c : Char) : Bool := inRuns casedRuns c

def isCaseIgnorable (c : Char) : Bool := inRuns caseIgnorableRuns c

/-- The lower case form of a letter on its own. -/
def lowerChar (c : Char) : Char :=
  if c.toNat < 128 then c.toLower
  else
    let run := lowerRuns.find? fun (first, last, distance, _) =>
      first ≤ c.toNat && c.toNat ≤ last && (c.toNat - first) % distance = 0
    match run with
    | some (_, _, _, shift) => Char.ofNat (c.toNat + shift).toNat
    | none => c

def sigma : Char := '\u03a3'

/-- Whether a word goes on: the next character that is not passed over is cased. -/
def meetsCased (cs : List Char) : Bool := (cs.dropWhile isCaseIgnorable).head?.any isCased

/-- Lower case of the rest of a text, with what stands before it in reverse. -/
def lowerFrom (before : List Char) : List Char → List Char
  | [] => []
  | c :: cs =>
    let lower :=
      if c = '\u0130' then ['i', '\u0307']
      else if c = sigma then
        [if meetsCased before && !meetsCased cs then '\u03c2' else '\u03c3']
      else [lowerChar c]
    lower ++ lowerFrom (c :: before) cs

def lowercase (text : String) : String := String.ofList (lowerFrom [] text.toList)

end CodeAtlas.Text
