import ApkWorkshop.Document.Value
import ApkWorkshop.Text.Utf8

/-!
# Bytes in documents

A document holds bytes as text if they are UTF-8, and as an object with their hex digits otherwise.
-/

namespace ApkWorkshop

open Text

def hexOfBytes (bytes : List UInt8) : String :=
  String.join (bytes.map fun b => hexPadded 2 b.toNat)

def hexDigitValue (c : Char) : Nat :=
  if c.isDigit then c.toNat - 48 else c.toLower.toNat - 87

def bytesOfHex : List Char → List UInt8
  | a :: b :: rest => (16 * hexDigitValue a + hexDigitValue b).toUInt8 :: bytesOfHex rest
  | _ => []

namespace Value

def ofHexBytes (bytes : List UInt8) : Value :=
  .object [("hex", .text (hexOfBytes bytes))]

def ofBytes (bytes : List UInt8) : Value :=
  match decode bytes with
  | .ok s => .text s
  | .error _ => ofHexBytes bytes

def bytes? : Value → Option (List UInt8)
  | .text s => some (encode s)
  | .object members =>
    match member? members "hex" with
    | some (.text digits) => some (bytesOfHex digits.toList)
    | _ => some []
  | _ => none

end Value

end ApkWorkshop
