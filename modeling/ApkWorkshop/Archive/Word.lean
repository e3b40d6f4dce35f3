import ApkWorkshop.Text.Utf8

/-!
# Words and padding of archives

Numbers in an archive are words of four bytes, least significant first, that hold signed numbers.
Names and contents are followed by zero bytes up to a multiple of four: a name always by at least
one, a content only if it needs them.
-/

namespace ApkWorkshop.Archive

def fitsWord (n : Int) : Bool :=
  -0x80000000 ≤ n && n < 0x80000000

def wordBytes (n : Int) : List UInt8 :=
  let u := (n % 0x100000000).toNat
  [u.toUInt8, (u / 0x100).toUInt8, (u / 0x10000).toUInt8, (u / 0x1000000).toUInt8]

def wordValue (a b c d : UInt8) : Int :=
  let u : Nat := a.toNat + 0x100 * b.toNat + 0x10000 * c.toNat + 0x1000000 * d.toNat
  if u < 0x80000000 then (u : Int) else (u : Int) - 0x100000000

def word? : List UInt8 → Option Int
  | [a, b, c, d] => some (wordValue a b c d)
  | _ => none

def threeWords? : List UInt8 → Option (Int × Int × Int)
  | [a, b, c, d, e, f, g, h, i, j, k, l] =>
    some (wordValue a b c d, wordValue e f g h, wordValue i j k l)
  | _ => none

def namePadding (length : Nat) : Nat :=
  4 - length % 4

def contentPadding (length : Nat) : Nat :=
  (4 - length % 4) % 4

def zeros (count : Nat) : List UInt8 :=
  List.replicate count 0

/-! ### Marks -/

def magic : List UInt8 := [0x72, 0x61, 0x63, 0x01]

def entryMark : Nat := 1

def recordMark : Nat := 2

def closing : List UInt8 := [0xFF, 0xFF, 0xFF, 0xFF, 0, 0, 0, 0]

def revision : Int := 1

end ApkWorkshop.Archive
