import CodeAtlas.Decimal.Layout

/-!
The binary64 number nearest to a decimal one. A quotient of whole numbers is scaled to 53 binary
digits, or to the smallest unit there is, and rounded once.
-/

namespace CodeAtlas.Decimal

/-- The bits of `mantissa * 2 ^ unit`, for a mantissa of at most 53 digits and all of them unless
the unit is the smallest one. -/
def assemble (mantissa : Nat) (unit : Int) : UInt64 :=
  let (mantissa, unit) :=
    if mantissa = 2 * hiddenBit then (hiddenBit, unit + 1) else (mantissa, unit)
  if 971 < unit then 0x7FF0000000000000
  else if mantissa < hiddenBit then mantissa.toUInt64
  else ((unit + 1075).toNat * hiddenBit + (mantissa - hiddenBit)).toUInt64

/-- The exponent of the last of 53 binary digits of a quotient. -/
def unitOf (above below : Nat) : Int :=
  let lead : Int := (above.log2 : Int) - below.log2
  let isSmaller := above * power 2 (-lead) < below * power 2 lead
  max ((if isSmaller then lead - 1 else lead) - 52) (-1074)

def nearestQuotient (above below : Nat) : UInt64 :=
  let unit := unitOf above below
  assemble (roundDiv (above * power 2 (-unit)) (below * power 2 unit)) unit

/-- The bits of the number nearest to `mantissa * 10 ^ exponent`. Exponents far beyond the range of
numbers are not worked out. -/
def nearestBits (mantissa : Nat) (exponent : Int) : UInt64 :=
  let lead := exponent + (Nat.toDigits 10 mantissa).length
  if mantissa = 0 || lead < -330 then 0
  else if 320 < lead then 0x7FF0000000000000
  else nearestQuotient (mantissa * power 10 exponent) (power 10 (-exponent))

/-- The number nearest to a decimal one; zero keeps its sign. -/
def nearest (isNegative : Bool) (mantissa : Nat) (exponent : Int) : Float :=
  Float.ofBits (nearestBits mantissa exponent ||| if isNegative then 0x8000000000000000 else 0)

end CodeAtlas.Decimal
