import CodeAtlas.Decimal.Shortest

/-!
How numbers are written: with their shortest digits, as data or as prose, or with a fixed number of
places.
-/

namespace CodeAtlas.Decimal

/-- The decisions of a way to write the shortest digits. -/
structure Layout where
  /-- Leading exponents from here on up to `plainBelow` are written without an exponent. -/
  plainFrom : Int
  plainBelow : Int
  /-- Whether a whole number gets a zero behind its point. -/
  pointZero : Bool

/-- Numbers in data: an exponent for the very large and the very small, and always a point. -/
def Layout.data : Layout := ⟨-5, 16, true⟩

/-- Numbers in messages: never an exponent, and a point only before a fraction. -/
def Layout.prose : Layout := ⟨-400, 400, false⟩

def isNegative (x : Float) : Bool := x.toBits >>> 63 == 1

def zeros (n : Nat) : String := String.ofList (List.replicate n '0')

def Layout.write (l : Layout) (d : Digits) : String :=
  let digits := (Nat.toDigits 10 d.value)
  let text := String.ofList digits
  let lead := d.exponent + digits.length - 1
  if l.plainFrom ≤ lead && lead < l.plainBelow then
    if 0 ≤ d.exponent then
      text ++ zeros d.exponent.toNat ++ (if l.pointZero then ".0" else "")
    else if 0 ≤ lead then
      let whole := (lead + 1).toNat
      String.ofList (digits.take whole) ++ "." ++ String.ofList (digits.drop whole)
    else "0." ++ zeros (-lead - 1).toNat ++ text
  else
    let fraction := String.ofList (digits.drop 1)
    String.ofList (digits.take 1) ++ (if fraction.isEmpty then "" else "." ++ fraction) ++ "e" ++
      toString lead

def Layout.render (l : Layout) (x : Float) : String :=
  if x.isNaN then "NaN"
  else
    let sign := if isNegative x then "-" else ""
    if x.isInf then sign ++ "inf" else sign ++ l.write (shortest x)

/-- The quotient as the nearest whole number, ties going to the even one. -/
def roundDiv (above below : Nat) : Nat :=
  let whole := above / below
  match compare (2 * (above % below)) below with
  | .lt => whole
  | .gt => whole + 1
  | .eq => if whole % 2 = 0 then whole else whole + 1

/-- The exact value of a number, rounded to the given number of places. -/
def fixed (places : Nat) (x : Float) : String :=
  if x.isNaN then "NaN"
  else
    let sign := if isNegative x then "-" else ""
    if x.isInf then sign ++ "inf"
    else
      let b := Binary.ofBits x.toBits
      let scaled := roundDiv (b.mantissa * power 2 b.exponent * power 10 places)
        (power 2 (-b.exponent))
      let digits := Nat.toDigits 10 scaled
      let padded := List.replicate (places + 1 - digits.length) '0' ++ digits
      let whole := padded.length - places
      let fraction := if places = 0 then "" else "." ++ String.ofList (padded.drop whole)
      sign ++ String.ofList (padded.take whole) ++ fraction

end CodeAtlas.Decimal
