/-! # Numbers

A number of the language is a binary floating-point number of 64 bits. Apart from the arithmetic of the format, which
rounds, the operations here are exact: they take a number apart into an integer times a power of two, compute with
integers, and put the result together again.
-/

namespace Gapscript

namespace Number

def pow2 (n : Nat) : Nat := Nat.pow 2 n

/-- What the bits of a number say. -/
inductive Parts where
  | nan
  | infinite (negative : Bool)
  /-- The number `mantissa * 2 ^ exponent` with its sign; zero has a sign too. -/
  | finite (negative : Bool) (mantissa : Nat) (exponent : Int)
  deriving DecidableEq, Repr

/-- The exponent of the smallest positive number. -/
def minExponent : Int := -1074

def parts (x : Float) : Parts :=
  let bits := x.toBits.toNat
  let negative : Bool := bits / pow2 63 = 1
  let biased : Nat := bits / pow2 52 % pow2 11
  let fraction : Nat := bits % pow2 52
  if biased = 2047 then
    if fraction = 0 then .infinite negative else .nan
  else if biased = 0 then
    .finite negative fraction minExponent
  else
    .finite negative (fraction + pow2 52) ((biased : Int) - 1075)

/-- The number `mantissa * 2 ^ exponent`, for a mantissa below `2 ^ 53` and an exponent that the format has. -/
def ofParts (negative : Bool) (mantissa : Nat) (exponent : Int) : Float :=
  let sign := if negative then pow2 63 else 0
  if mantissa = 0 then
    Float.ofBits (UInt64.ofNat sign)
  else
    let shift := min (52 - mantissa.log2) (exponent - minExponent).toNat
    let m := mantissa * pow2 shift
    let magnitude :=
      if m < pow2 52 then m
      else (exponent - shift + 1075).toNat * pow2 52 + (m - pow2 52)
    Float.ofBits (UInt64.ofNat (sign + magnitude))

/-- The integer next to `x` in the direction of zero. -/
def trunc (x : Float) : Float :=
  match parts x with
  | .finite negative m q => if 0 ≤ q then x else ofParts negative (m / pow2 (-q).toNat) 0
  | _ => x

/-- The greatest integer that is not above `x`. -/
def floor (x : Float) : Float :=
  match parts x with
  | .finite negative m q =>
    if 0 ≤ q then x
    else
      let unit := pow2 (-q).toNat
      let up := if negative ∧ m % unit ≠ 0 then 1 else 0
      ofParts negative (m / unit + up) 0
  | _ => x

def nan : Float := 0.0 / 0.0

/-- What remains of `x` when multiples of `y` are taken away, as far as that goes without a change of sign. The
result is exact and has the sign of `x`. -/
def remainder (x y : Float) : Float :=
  match parts x, parts y with
  | .finite _ _ _, .infinite _ => x
  | .finite negative m q, .finite _ n r =>
    if n = 0 then nan
    else
      let e := min q r
      ofParts negative ((m * pow2 (q - e).toNat) % (n * pow2 (r - e).toNat)) e
  | _, _ => nan

/-- The natural number that `x` is, if it is one. -/
def toNat? (x : Float) : Option Nat :=
  match parts x with
  | .finite negative m q =>
    if negative ∧ m ≠ 0 then none
    else if 0 ≤ q then some (m * pow2 q.toNat)
    else if m % pow2 (-q).toNat = 0 then some (m / pow2 (-q).toNat)
    else none
  | _ => none

end Number

end Gapscript
