import Gapscript.Number.Shortest

/-! # Numbers as text

Numbers are written with the fewest digits that read back, always in positional notation and without a point where
there is no fraction. Reading takes a decimal with an optional exponent, or one of the words for the special values,
and rounds correctly.
-/

namespace Gapscript.Number

/-- A decimal in positional notation. -/
def Decimal.positional (d : Decimal) : String :=
  let digits := Nat.toDigits 10 d.digits
  if 0 ≤ d.exponent then
    String.ofList (digits ++ List.replicate d.exponent.toNat '0')
  else
    let places := (-d.exponent).toNat
    let padded := List.replicate (places + 1 - digits.length) '0' ++ digits
    let whole := padded.length - places
    String.ofList (padded.take whole ++ '.' :: padded.drop whole)

def render (x : Float) : String :=
  match parts x with
  | .nan => "NaN"
  | .infinite negative => if negative then "-inf" else "inf"
  | .finite negative m q =>
    let magnitude := if m = 0 then "0" else (shortest m q).positional
    if negative then "-" ++ magnitude else magnitude

def isDecimalDigit (c : Char) : Bool := '0' ≤ c && c ≤ '9'

/-- The number that a list of digits stands for. -/
def ofDigits (digits : List Char) : Nat :=
  digits.foldl (fun n c => 10 * n + (c.toNat - '0'.toNat)) 0

/-- An optional sign and the rest; true for minus. -/
def readSign : List Char → Bool × List Char
  | '-' :: cs => (true, cs)
  | '+' :: cs => (false, cs)
  | cs => (false, cs)

/-- The number closest to `digits * 10 ^ exponent`. Magnitudes that no number reaches are decided by the place of the
leading digit. -/
def ofDecimal (digits : Nat) (exponent : Int) : Float :=
  if digits = 0 then 0
  else
    let lead := exponent + digitCount digits
    if 310 < lead then 1.0 / 0.0
    else if lead < -330 then 0
    else Float.ofScientific digits (exponent < 0) exponent.natAbs

/-- The exponent after the digits: none, or a mark, a sign and at least one digit. -/
def readExponent : List Char → Option Int
  | [] => some 0
  | c :: cs =>
    if c = 'e' ∨ c = 'E' then
      let (negative, digits) := readSign cs
      if digits.isEmpty ∨ !digits.all isDecimalDigit then none
      else some (if negative then -(ofDigits digits : Int) else ofDigits digits)
    else
      none

/-- A decimal without sign: digits with at most one point among them, then an exponent. -/
def readDecimal (cs : List Char) : Option Float := do
  let whole := cs.takeWhile isDecimalDigit
  let rest := cs.dropWhile isDecimalDigit
  let (fraction, rest) := match rest with
    | '.' :: after => (after.takeWhile isDecimalDigit, after.dropWhile isDecimalDigit)
    | _ => ([], rest)
  if whole.isEmpty ∧ fraction.isEmpty then none
  else
    let exponent ← readExponent rest
    return ofDecimal (ofDigits (whole ++ fraction)) (exponent - fraction.length)

def lowerCase (c : Char) : Char :=
  if 'A' ≤ c ∧ c ≤ 'Z' then Char.ofNat (c.toNat + 32) else c

/-- A value without sign. -/
def readMagnitude (cs : List Char) : Option Float :=
  let word := String.ofList (cs.map lowerCase)
  if word = "inf" ∨ word = "infinity" then some (1.0 / 0.0)
  else if word = "nan" then some nan
  else readDecimal cs

def read (s : String) : Option Float :=
  let (negative, cs) := readSign s.toList
  (readMagnitude cs).map fun x => if negative then -x else x

end Gapscript.Number
