/-!
The fewest decimal digits that read back as a given binary64 number. A finite number is
`mantissa * 2 ^ exponent`, and stands for the reals that round to it; the grid of `n` digits is
tried for `n = 1, 2, …`, and of it the two neighbours of the number.
-/

namespace CodeAtlas.Decimal

/-- What a factor `base ^ e` adds to the upper half of a quotient; with `-e` it is what the factor
adds to the lower half. -/
def power (base : Nat) (e : Int) : Nat := Nat.pow base e.toNat

/-- A finite number without its sign. -/
structure Binary where
  mantissa : Nat
  exponent : Int
  /-- The gap to the number below is half the gap to the one above. -/
  narrowBelow : Bool
  deriving DecidableEq, Repr

/-- The leading digit of a full mantissa, which the bits leave out. -/
def hiddenBit : Nat := 0x10000000000000

/-- Not meant for the bits of an infinity or of what is no number. -/
def Binary.ofBits (bits : UInt64) : Binary :=
  let e := ((bits >>> 52) &&& 0x7FF).toNat
  let f := (bits &&& 0xFFFFFFFFFFFFF).toNat
  if e = 0 then ⟨f, -1074, false⟩ else ⟨hiddenBit + f, (e : Int) - 1075, f = 0 && 1 < e⟩

/-- The number `value * 10 ^ exponent`. -/
structure Digits where
  value : Nat
  exponent : Int
  deriving DecidableEq, Repr

/-- Compares `a * 10 ^ i` with `n * 2 ^ j`. -/
def compareScaled (a : Nat) (i : Int) (n : Nat) (j : Int) : Ordering :=
  compare (a * power 10 i * power 2 (-j)) (n * power 2 j * power 10 (-i))

/-- Whether the decimal lies among the reals that round to `x`, ties going to the even mantissa. -/
def Binary.readsBack (x : Binary) (d : Digits) : Bool :=
  let low := if x.narrowBelow then 4 * x.mantissa - 1 else 4 * x.mantissa - 2
  let high := 4 * x.mantissa + 2
  let closed := x.mantissa % 2 == 0
  let below := compareScaled d.value d.exponent low (x.exponent - 2)
  let above := compareScaled d.value d.exponent high (x.exponent - 2)
  (below == .gt || (closed && below == .eq)) && (above == .lt || (closed && above == .eq))

/-- The exponent of the leading digit: `10 ^ e ≤ x < 10 ^ (e + 1)`. -/
def Binary.leading (x : Binary) : Int :=
  let shifted := x.mantissa * power 10 400 * power 2 x.exponent / power 2 (-x.exponent)
  (Nat.toDigits 10 shifted).length - 401

/-- The whole part of `x / 10 ^ e` and the part left over, as a quotient. -/
def Binary.quotient (x : Binary) (e : Int) : Nat × Nat × Nat :=
  let above := x.mantissa * power 2 x.exponent * power 10 (-e)
  let below := power 2 (-x.exponent) * power 10 e
  (above / below, above % below, below)

/-- The nearest point of the grid of `n` digits that reads back; of two equally near ones the upper
one. -/
def Binary.onGrid (x : Binary) (lead : Int) (n : Nat) : Option Digits :=
  let e := lead - n + 1
  let (whole, left, unit) := x.quotient e
  let down : Digits := ⟨whole, e⟩
  let up : Digits := ⟨whole + 1, e⟩
  match x.readsBack down, x.readsBack up with
  | true, true => some (if 2 * left < unit then down else up)
  | true, false => some down
  | false, true => some up
  | false, false => none

/-- Seventeen digits always read back; without a hit the exact value would stand in. -/
def Binary.shortest (x : Binary) : Digits :=
  if x.mantissa = 0 then ⟨0, 0⟩
  else
    let lead := x.leading
    ((List.range 17).findSome? fun n => x.onGrid lead (n + 1)).getD
      ⟨x.mantissa * power 2 x.exponent * power 5 (-x.exponent), min x.exponent 0⟩

/-- Takes zeros off the end; `fuel` bounds their number. -/
def Digits.trim (fuel : Nat) (d : Digits) : Digits :=
  match fuel with
  | 0 => d
  | fuel + 1 =>
    if d.value ≠ 0 && d.value % 10 = 0 then Digits.trim fuel ⟨d.value / 10, d.exponent + 1⟩ else d

/-- The digits of a finite number, without zeros at the end. -/
def shortest (x : Float) : Digits := (Binary.ofBits x.toBits).shortest.trim 400

end CodeAtlas.Decimal
