import ApkWorkshop.Number.Double
import ApkWorkshop.Text.Numeral

/-!
# Doubles as decimal text

The shortest decimal that reads back as the same double, and its layout. For one digit, two
digits and so on up to seventeen, the two neighbours of the value on the grid of decimals with
that many digits are tried; the first grid with a neighbour that reads back wins, of two such
neighbours the nearer one, and in a tie the even one.
-/

namespace ApkWorkshop.Double

open Text

/-- A decimal: its digits as a number, and the power of ten they are multiplied by. -/
structure Decimal where
  digits : Nat
  exponent : Int
deriving DecidableEq

def powerOfTen (e : Int) : Nat × Nat :=
  if 0 ≤ e then (Nat.pow 10 e.toNat, 1) else (1, Nat.pow 10 (-e).toNat)

/-- The exponent of the leading decimal digit of a positive number of units. The estimate from the
number of binary digits is at most one too small. -/
def leadingExponent (units : Nat) : Int :=
  let estimate : Int := Int.fdiv (((units.log2 : Int) - unitScale) * 30103) 100000
  let reaches (e : Int) : Bool :=
    let (a, b) := powerOfTen e
    a * one ≤ units * b
  if reaches (estimate + 1) then estimate + 1
  else if reaches estimate then estimate
  else estimate - 1

/-- The neighbour on the grid of `count` digits that reads back as the given units, if there is
one. -/
def onGrid? (units : Nat) (lead : Int) (count : Nat) : Option Decimal :=
  let exponent := lead - count + 1
  let (a, b) := powerOfTen exponent
  -- the value is `units * b / (a * one)` steps of this grid
  let below := units * b / (a * one)
  let rest := units * b % (a * one)
  let readsBack (d : Nat) : Bool := ofDecimal false d exponent == ofUnits false units 1
  let low := readsBack below
  let high := readsBack (below + 1)
  if low && high then
    if 2 * rest < a * one then some ⟨below, exponent⟩
    else if a * one < 2 * rest then some ⟨below + 1, exponent⟩
    else if below % 2 = 0 then some ⟨below, exponent⟩ else some ⟨below + 1, exponent⟩
  else if low then some ⟨below, exponent⟩
  else if high then some ⟨below + 1, exponent⟩
  else none

def shortest (units : Nat) : Decimal :=
  let lead := leadingExponent units
  ((List.range 17).findSome? fun i => onGrid? units lead (i + 1)).getD ⟨0, 0⟩

/-! ### Layout -/

/-- The digits of a decimal without zeros at the end, and the exponent of the first digit. -/
def Decimal.scientific (d : Decimal) : List Char × Int :=
  let all := Nat.toDigits 10 d.digits
  let kept := (all.reverse.dropWhile (· == '0')).reverse
  (kept, d.exponent + all.length - 1)

/-- Digits around a decimal point whose exponent is that of the first digit; a whole number keeps
one zero behind the point. -/
def positional (digits : List Char) (exponent : Int) : List Char :=
  if exponent < 0 then
    '0' :: '.' :: List.replicate ((-exponent).toNat - 1) '0' ++ digits
  else
    let whole := exponent.toNat + 1
    let left := digits.take whole ++ List.replicate (whole - digits.length) '0'
    let right := digits.drop whole
    left ++ '.' :: (if right.isEmpty then ['0'] else right)

def exponential (digits : List Char) (exponent : Int) : List Char :=
  let mantissa := match digits with
    | [] => []
    | [d] => [d]
    | d :: rest => d :: '.' :: rest
  mantissa ++ 'e' :: (if exponent < 0 then '-' else '+') ::
    (padStart 2 '0' (decimal exponent.natAbs)).toList

/-- A double as text: positional notation for exponents from -4 to 15, exponential outside. -/
def text (x : Double) : String :=
  match x.value with
  | .notANumber => "nan"
  | .infinite negative => if negative then "-inf" else "inf"
  | .finite negative units =>
    let sign := if negative then "-" else ""
    if units = 0 then sign ++ "0.0"
    else
      let (digits, exponent) := (shortest units).scientific
      sign ++ String.ofList
        (if -4 ≤ exponent && exponent < 16 then positional digits exponent
         else exponential digits exponent)

/-- A finite number with a fixed number of decimal places, a half going to the even neighbour. -/
def fixed (places : Nat) (x : Double) : String :=
  match x.value with
  | .notANumber => "nan"
  | .infinite negative => if negative then "-inf" else "inf"
  | .finite negative units =>
    let scale := Nat.pow 10 places
    let scaled := roundDiv (units * scale) one
    let whole := decimal (scaled / scale)
    let sign := if negative then "-" else ""
    if places = 0 then sign ++ whole
    else sign ++ whole ++ "." ++ padStart places '0' (decimal (scaled % scale))

end ApkWorkshop.Double
