import ApkWorkshop.Document.Value

/-!
# Colours

Colours are written with two hexadecimal digits for each of red, green and blue. Making one lighter
moves every channel towards 255, making it darker moves it towards zero; the result is cut to the
whole number below and written again. Text that is no colour is left as it is, without the number
signs in front of it.
-/

namespace ApkWorkshop.Theme

open Text

/-- The value of a hexadecimal digit; decimal digits may come from any script. -/
def hexDigit? (c : Char) : Option Nat :=
  if 'a' ≤ c && c ≤ 'f' then some (c.toNat - 87)
  else if 'A' ≤ c && c ≤ 'F' then some (c.toNat - 55)
  else digitValue? c

def hexNatural? (cs : List Char) : Option Nat :=
  if cs.isEmpty then none
  else cs.foldlM (fun n c => (hexDigit? c).map (16 * n + ·)) 0

def channel? (cs : List Char) : Option Int :=
  match trim cs with
  | '-' :: rest => (hexNatural? rest).map fun n => -(n : Int)
  | '+' :: rest => (hexNatural? rest).map fun n => (n : Int)
  | rest => (hexNatural? rest).map fun n => (n : Int)

/-- The channels of a colour. -/
structure Colour where
  red : Int
  green : Int
  blue : Int
deriving DecidableEq

namespace Colour

def read? (cs : List Char) : Option Colour := do
  let red ← channel? (cs.take 2)
  let green ← channel? ((cs.drop 2).take 2)
  let blue ← channel? ((cs.drop 4).take 2)
  return ⟨red, green, blue⟩

def channelText (n : Int) : String :=
  padStart 2 '0' (hexInt n)

def text (c : Colour) : String :=
  "#" ++ channelText c.red ++ channelText c.green ++ channelText c.blue

def mapM? (f : Int → Option Int) (c : Colour) : Option Colour := do
  let red ← f c.red
  let green ← f c.green
  let blue ← f c.blue
  return ⟨red, green, blue⟩

end Colour

/-- How far a colour is moved: a whole number, or a double with the arithmetic of doubles. -/
inductive Amount
  | whole (n : Int)
  | real (x : Double)

def Amount.ofValue? : Value → Option Amount
  | .truth b => some (.whole (if b then 1 else 0))
  | .whole n => some (.whole n)
  | .real x => some (.real x)
  | _ => none

/-- A channel moved towards 255 by a part of its distance, and never beyond. -/
def Amount.lighten (amount : Amount) (channel : Int) : Option Int :=
  match amount with
  | .whole n => some (min 255 (channel + (255 - channel) * n))
  | .real x =>
    (((Double.ofInt channel).add ((Double.ofInt (255 - channel)).mul x)).truncate?).map (min 255)

def Amount.darken (amount : Amount) (channel : Int) : Option Int :=
  match amount with
  | .whole n => some (max 0 (channel * (1 - n)))
  | .real x =>
    (((Double.ofInt channel).mul ((Double.ofInt 1).sub x)).truncate?).map (max 0)

/-- Change a colour written as text; text that is no colour loses its number signs only. -/
def changeText (change : Int → Option Int) (s : String) : String :=
  let digits := s.toList.dropWhile (· == '#')
  match (Colour.read? digits).bind (·.mapM? change) with
  | some colour => colour.text
  | none => String.ofList digits

def changeColour (change : Int → Option Int) : Value → Value
  | .text s => .text (changeText change s)
  | v => v

def byAmount (change : Amount → Int → Option Int) (amount : Value) (channel : Int) : Option Int :=
  (Amount.ofValue? amount).bind (change · channel)

def lighten (colour amount : Value) : Value :=
  changeColour (byAmount Amount.lighten amount) colour

def darken (colour amount : Value) : Value :=
  changeColour (byAmount Amount.darken amount) colour

def lightenUsually (colour : Value) : Value :=
  lighten colour (.real (Double.ofRatio 1 5))

def darkenUsually (colour : Value) : Value :=
  darken colour (.real (Double.ofRatio 1 10))

end ApkWorkshop.Theme
