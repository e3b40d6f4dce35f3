/-!
# Double precision numbers

A double is its 64 bits, and a finite double is a whole multiple of the smallest positive one,
`2 ^ -1074`; that multiple is its number of *units*. Arithmetic is exact on units and then
rounded once to the nearest double, ties to the even significand, so that nothing here rests on
the machine's own floating point.
-/

namespace ApkWorkshop

/-- A double precision number by its bits. -/
structure Double where
  bits : UInt64
deriving DecidableEq

namespace Double

/-- What a double stands for: a signed whole number of units, an infinity, or not a number. -/
inductive Value
  | finite (negative : Bool) (units : Nat)
  | infinite (negative : Bool)
  | notANumber
deriving DecidableEq

def unitScale : Nat := 1074

def one : Nat := Nat.pow 2 unitScale

/-- The weight of the leading bit of a significand, which the bits of a normal number leave out. -/
def hiddenBit : Nat := 0x10000000000000

def signBit : Nat := 0x8000000000000000

def value (x : Double) : Value :=
  let n := x.bits.toNat
  let negative := signBit ≤ n
  let exponent := n / hiddenBit % 2048
  let fraction := n % hiddenBit
  if exponent = 2047 then if fraction = 0 then .infinite negative else .notANumber
  else if exponent = 0 then .finite negative fraction
  else .finite negative ((hiddenBit + fraction) * Nat.pow 2 (exponent - 1))

/-- The quotient rounded to the nearest whole number, a half going to the even neighbour. -/
def roundDiv (a b : Nat) : Nat :=
  let q := a / b
  let r := a % b
  if 2 * r < b then q
  else if b < 2 * r then q + 1
  else if q % 2 = 0 then q else q + 1

def roundUnits (a b : Nat) : Nat :=
  let s := (a / b).log2 + 1 - 53
  roundDiv a (b * Nat.pow 2 s) * Nat.pow 2 s

/-- The bits without sign of a number of units that has at most 53 significant bits; infinity from
`2 ^ 2098` units on. -/
def magnitudeBits (units : Nat) : Nat :=
  if units < hiddenBit then units
  else
    let s := units.log2 - 52
    if 2046 ≤ s then 2047 * hiddenBit
    else (s + 1) * hiddenBit + (units / Nat.pow 2 s - hiddenBit)

def ofMagnitude (negative : Bool) (magnitude : Nat) : Double :=
  ⟨((if negative then signBit else 0) + magnitude).toUInt64⟩

def ofUnits (negative : Bool) (a b : Nat) : Double :=
  ofMagnitude negative (magnitudeBits (roundUnits a b))

def infinity (negative : Bool) : Double :=
  ofMagnitude negative (2047 * hiddenBit)

def nan : Double := ⟨0x7FF8000000000000⟩

def ofInt (i : Int) : Double :=
  ofUnits (i < 0) (i.natAbs * one) 1

/-- The double nearest to a signed number of units; zero takes the sign given for it. -/
def ofSigned (zeroNegative : Bool) (i : Int) : Double :=
  ofUnits (if i = 0 then zeroNegative else i < 0) i.natAbs 1

/-- The double nearest to `mantissa * 10 ^ exponent`. Exponents far outside the range of doubles
are decided without computing the power. -/
def ofDecimal (negative : Bool) (mantissa : Nat) (exponent : Int) : Double :=
  let digits : Int := (Nat.toDigits 10 mantissa).length
  if mantissa = 0 then ofMagnitude negative 0
  else if 400 < exponent + digits then infinity negative
  else if exponent + digits < -400 then ofMagnitude negative 0
  else if 0 ≤ exponent then ofUnits negative (mantissa * Nat.pow 10 exponent.toNat * one) 1
  else ofUnits negative (mantissa * one) (Nat.pow 10 (-exponent).toNat)

/-! ### Arithmetic -/

def signed (negative : Bool) (units : Nat) : Int :=
  if negative then -(units : Int) else units

def neg (x : Double) : Double :=
  match x.value with
  | .notANumber => nan
  | _ => ⟨x.bits ^^^ 0x8000000000000000⟩

def add (x y : Double) : Double :=
  match x.value, y.value with
  | .finite s m, .finite t n => ofSigned (s && t) (signed s m + signed t n)
  | .finite _ _, .infinite t => infinity t
  | .infinite s, .finite _ _ => infinity s
  | .infinite s, .infinite t => if s = t then infinity s else nan
  | _, _ => nan

def sub (x y : Double) : Double :=
  x.add y.neg

/-- The product of finite numbers; anything else gives no number unless one side is infinite and
the other is not zero. -/
def mul (x y : Double) : Double :=
  match x.value, y.value with
  | .finite s m, .finite t n => ofUnits (s != t) (m * n) one
  | .finite s m, .infinite t => if m = 0 then nan else infinity (s != t)
  | .infinite s, .finite t n => if n = 0 then nan else infinity (s != t)
  | .infinite s, .infinite t => infinity (s != t)
  | _, _ => nan

def ofRatio (a b : Nat) : Double :=
  ofUnits false (a * one) b

def lt (x y : Double) : Bool :=
  match x.value, y.value with
  | .finite s m, .finite t n => signed s m < signed t n
  | .finite _ _, .infinite t => !t
  | .infinite s, .finite _ _ => s
  | .infinite s, .infinite t => s && !t
  | _, _ => false

def truncate? (x : Double) : Option Int :=
  match x.value with
  | .finite s m => some (signed s (m / one))
  | _ => none

/-- How often a positive whole number fits into a finite one that is not negative. What is left over
is taken away first, and both steps are rounded. -/
def floorDivNat? (x : Double) (n : Nat) : Option Int :=
  match x.value with
  | .finite s m => some (signed s (roundUnits (roundUnits (m - m % (n * one)) 1) n / one))
  | _ => none

/-- The remainder of a finite number modulo a positive whole number; it is never negative. -/
def modNat (x : Double) (n : Nat) : Double :=
  match x.value with
  | .finite s m =>
    if signed s m = 0 then x else ofSigned false (Int.fmod (signed s m) (n * one))
  | _ => nan

end Double

end ApkWorkshop
