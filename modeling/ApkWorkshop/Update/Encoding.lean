import ApkWorkshop.World.Fault

/-!
# The Encoding of an Announcement

A document that is fetched is in UTF-8, UTF-16 or UTF-32. Its first bytes show which: a mark, or the
zeros of a first character that is an ASCII one. Half a surrogate pair is replaced.
-/

namespace ApkWorkshop.Update

open Text

/-! ### Wide units -/

/-- The number that some bytes are, the first one being the highest or the lowest. -/
def unitOf (high : Bool) (bytes : List UInt8) : Nat :=
  (if high then bytes else bytes.reverse).foldl (fun n b => 256 * n + b.toNat) 0

/-- The units of two or of four bytes, and the bytes behind the last one. -/
def unitsFrom (wide high : Bool) : List UInt8 → List Nat × List UInt8
  | a :: b :: c :: d :: rest =>
    let (units, left) := unitsFrom wide high rest
    (if wide then unitOf high [a, b, c, d] :: units
      else unitOf high [a, b] :: unitOf high [c, d] :: units, left)
  | a :: b :: rest => if wide then ([], a :: b :: rest) else ([unitOf high [a, b]], rest)
  | rest => ([], rest)

/-- Two halves of a pair are one character. -/
def pairUnits : List Nat → List Char
  | n :: m :: rest =>
    if 0xD800 ≤ n ∧ n < 0xDC00 ∧ 0xDC00 ≤ m ∧ m < 0xE000 then
      Char.ofNat (0x10000 + (n - 0xD800) * 0x400 + (m - 0xDC00)) :: pairUnits rest
    else Document.unitChar n :: pairUnits (m :: rest)
  | units => units.map Document.unitChar

/-- The characters of wide units that begin behind a mark of some bytes. -/
def decodeUnits (wide high : Bool) (mark : Nat) (bytes : List UInt8) : Except Fault (List Char) :=
  let (units, left) := unitsFrom wide high (bytes.drop mark)
  let width := if wide then 4 else 2
  let fault (index width : Nat) (reason : String) : Except Fault (List Char) :=
    let start := mark + index
    .error (.badUnits (undecoded ((if wide then "utf-32-" else "utf-16-") ++
      (if high then "be" else "le")) start width ((bytes.drop start).headD 0) reason))
  match units.findIdx? (0x110000 ≤ ·), left with
  | some n, _ => fault (4 * n) 4 "code point not in range(0x110000)"
  | none, [] => .ok (if wide then units.map Document.unitChar else pairUnits units)
  | none, left => fault (width * units.length) left.length "truncated data"

/-! ### The encoding of a document -/

/-- Bytes in UTF-8 in which each half of a surrogate pair is replaced. -/
def replaceHalves : List UInt8 → List UInt8
  | 0xED :: b :: c :: rest =>
    if 0xA0 ≤ b ∧ b < 0xC0 ∧ isContinuation c then 0xEF :: 0xBF :: 0xBD :: replaceHalves rest
    else 0xED :: replaceHalves (b :: c :: rest)
  | b :: rest => b :: replaceHalves rest
  | [] => []

def decodeNarrow (bytes : List UInt8) : Except Fault (List Char) :=
  match decodeChars (replaceHalves bytes) with
  | .error fault => .error (.badText fault)
  | .ok cs => .ok cs

/-- The characters of a document. -/
def charsOf (bytes : List UInt8) : Except Fault (List Char) :=
  match bytes with
  | 0x00 :: 0x00 :: 0xFE :: 0xFF :: _ => decodeUnits true true 4 bytes
  | 0xFF :: 0xFE :: 0x00 :: 0x00 :: _ => decodeUnits true false 4 bytes
  | 0xFE :: 0xFF :: _ => decodeUnits false true 2 bytes
  | 0xFF :: 0xFE :: _ => decodeUnits false false 2 bytes
  | 0xEF :: 0xBB :: 0xBF :: rest => decodeNarrow rest
  | 0x00 :: b :: _ :: _ :: _ => decodeUnits (b = 0) true 0 bytes
  | _ :: 0x00 :: c :: d :: _ => decodeUnits (c = 0 ∧ d = 0) false 0 bytes
  | [0x00, _] => decodeUnits false true 0 bytes
  | [_, 0x00] => decodeUnits false false 0 bytes
  | _ => decodeNarrow bytes

end ApkWorkshop.Update
