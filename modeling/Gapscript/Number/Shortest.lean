import Gapscript.Number

/-! # The shortest decimal of a number

The reals that round to a number form an interval around it, which holds its ends exactly if the mantissa is even. Of
all decimals in that interval the shortest is taken, of several as short the one closest to the number, and of two as
close the larger.

Grids of decimals are tried from coarse to fine, beginning with the place of the leading digit. On each grid only the
two neighbours of the number have to be looked at.
-/

namespace Gapscript.Number

/-- The decimal `digits * 10 ^ exponent`. -/
structure Decimal where
  digits : Nat
  exponent : Int
  deriving DecidableEq, Repr

/-- A positive rational number. -/
structure Ratio where
  num : Nat
  den : Nat

namespace Ratio

/-- The number `n * b ^ e`. -/
def scaled (n b : Nat) (e : Int) : Ratio :=
  if 0 ≤ e then ⟨n * Nat.pow b e.toNat, 1⟩ else ⟨n, Nat.pow b (-e).toNat⟩

def le (a b : Ratio) : Bool := a.num * b.den ≤ b.num * a.den

def lt (a b : Ratio) : Bool := a.num * b.den < b.num * a.den

end Ratio

/-- Decimal digits of a positive number. -/
def digitCount (n : Nat) : Nat := (Nat.toDigits 10 n).length

/-- The place of the leading digit: `10 ^ p ≤ x < 10 ^ (p + 1)`. -/
def leadingPlace (x : Ratio) : Int :=
  let guess : Int := (digitCount x.num : Int) - digitCount x.den
  if (Ratio.scaled 1 10 guess).le x then guess else guess - 1

/-- The interval of a number `mantissa * 2 ^ exponent`, in units of a quarter of its last place: the gap below a power
of two is half as wide as the one above it. -/
structure Interval where
  low : Ratio
  high : Ratio
  closed : Bool

def interval (mantissa : Nat) (exponent : Int) : Interval where
  low :=
    let below := if mantissa = pow2 52 ∧ minExponent < exponent then 1 else 2
    .scaled (4 * mantissa - below) 2 (exponent - 2)
  high := .scaled (4 * mantissa + 2) 2 (exponent - 2)
  closed := mantissa % 2 = 0

def Interval.holds (i : Interval) (x : Ratio) : Bool :=
  if i.closed then i.low.le x && x.le i.high else i.low.lt x && x.lt i.high

/-- The neighbour of `x` on the grid of multiples of `10 ^ place` that lies in the interval and is closest to `x`. -/
def onGrid (i : Interval) (x : Ratio) (place : Int) : Option Decimal :=
  let unit := Ratio.scaled 1 10 place
  let d := x.num * unit.den / (x.den * unit.num)
  let below := i.holds (.scaled d 10 place)
  let above := i.holds (.scaled (d + 1) 10 place)
  let middle : Ratio := ⟨(2 * d + 1) * unit.num, 2 * unit.den⟩
  match below, above with
  | true, true => some ⟨if x.lt middle then d else d + 1, place⟩
  | true, false => some ⟨d, place⟩
  | false, true => some ⟨d + 1, place⟩
  | false, false => none

/-- The decimal without zeros at the end of its digits. -/
def Decimal.stripped : (fuel : Nat) → Decimal → Decimal
  | 0, d => d
  | fuel + 1, d =>
    if d.digits ≠ 0 ∧ d.digits % 10 = 0 then
      Decimal.stripped fuel ⟨d.digits / 10, d.exponent + 1⟩
    else
      d

/-- The shortest decimal of the positive number `mantissa * 2 ^ exponent`. Seventeen digits are always enough; the
number itself, written out, stands behind them. -/
def shortest (mantissa : Nat) (exponent : Int) : Decimal :=
  let x := Ratio.scaled mantissa 2 exponent
  let lead := leadingPlace x
  let grids := (List.range 17).map fun (n : Nat) => lead - n
  match grids.findSome? (onGrid (interval mantissa exponent) x) with
  | some d => d.stripped 20
  | none =>
    if 0 ≤ exponent then ⟨mantissa * pow2 exponent.toNat, 0⟩
    else ⟨mantissa * Nat.pow 5 (-exponent).toNat, exponent⟩

end Gapscript.Number
