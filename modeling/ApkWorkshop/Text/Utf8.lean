import ApkWorkshop.Text.Numeral

/-!
# UTF-8

Encoding of characters and decoding of bytes. The decoder never loses its place: what is not
part of a character is reported as a damaged stretch, the longest run of bytes that could still
have begun a character, and decoding goes on behind it. Reading a text strictly means taking
the first damaged stretch as the fault; reading it leniently means leaving them out.
-/

namespace ApkWorkshop.Text

/-- Why bytes are not part of a character. -/
inductive Utf8Reason
  | badStart
  | badContinuation
  | unexpectedEnd
deriving DecidableEq

/-- A damaged stretch: where it starts, how many bytes it has, and its first byte. -/
structure Utf8Fault where
  start : Nat
  width : Nat
  byte : UInt8
  reason : Utf8Reason
deriving DecidableEq

def Utf8Reason.text : Utf8Reason → String
  | .badStart => "invalid start byte"
  | .badContinuation => "invalid continuation byte"
  | .unexpectedEnd => "unexpected end of data"

/-- What is said about a damaged stretch: a single byte is shown, a longer one is located. -/
def undecoded (encoding : String) (start width : Nat) (byte : UInt8) (reason : String) : String :=
  let place :=
    if width = 1 then "byte 0x" ++ hexPadded 2 byte.toNat ++ " in position " ++ decimal start
    else "bytes in position " ++ decimal start ++ "-" ++ decimal (start + width - 1)
  "'" ++ encoding ++ "' codec can't decode " ++ place ++ ": " ++ reason

def Utf8Fault.message (f : Utf8Fault) : String :=
  undecoded "utf-8" f.start f.width f.byte f.reason.text

/-! ### Encoding -/

def encodeChar (c : Char) : List UInt8 :=
  let n := c.toNat
  if n < 0x80 then [n.toUInt8]
  else if n < 0x800 then [(0xC0 + n / 0x40).toUInt8, (0x80 + n % 0x40).toUInt8]
  else if n < 0x10000 then
    [(0xE0 + n / 0x1000).toUInt8, (0x80 + n / 0x40 % 0x40).toUInt8, (0x80 + n % 0x40).toUInt8]
  else
    [(0xF0 + n / 0x40000).toUInt8, (0x80 + n / 0x1000 % 0x40).toUInt8,
      (0x80 + n / 0x40 % 0x40).toUInt8, (0x80 + n % 0x40).toUInt8]

def encodeChars (cs : List Char) : List UInt8 :=
  cs.flatMap encodeChar

def encode (s : String) : List UInt8 :=
  encodeChars s.toList

/-! ### Decoding -/

/-- A decoded piece: a character or a damaged stretch. -/
inductive Utf8Piece
  | char (c : Char)
  | damaged (fault : Utf8Fault)
deriving DecidableEq

def isContinuation (b : UInt8) : Bool :=
  0x80 ≤ b.toNat && b.toNat < 0xC0

/-- May the second byte stand behind this first byte? Overlong forms, surrogates and code points
beyond the last are ruled out here. -/
def secondFits (first second : UInt8) : Bool :=
  if first = 0xE0 then 0xA0 ≤ second.toNat && second.toNat < 0xC0
  else if first = 0xED then 0x80 ≤ second.toNat && second.toNat < 0xA0
  else if first = 0xF0 then 0x90 ≤ second.toNat && second.toNat < 0xC0
  else if first = 0xF4 then 0x80 ≤ second.toNat && second.toNat < 0x90
  else isContinuation second

/-- The pieces of a byte string, the first byte standing at position `pos`. -/
def piecesFrom (pos : Nat) : List UInt8 → List Utf8Piece
  | [] => []
  | b :: r =>
    let n := b.toNat
    let bad (width : Nat) (reason : Utf8Reason) := Utf8Piece.damaged ⟨pos, width, b, reason⟩
    if n < 0x80 then .char (Char.ofNat n) :: piecesFrom (pos + 1) r
    else if n < 0xC2 || 0xF5 ≤ n then bad 1 .badStart :: piecesFrom (pos + 1) r
    else match r with
      | [] => [bad 1 .unexpectedEnd]
      | b₁ :: r₁ =>
        if !secondFits b b₁ then bad 1 .badContinuation :: piecesFrom (pos + 1) (b₁ :: r₁)
        else if n < 0xE0 then
          .char (Char.ofNat ((n - 0xC0) * 0x40 + (b₁.toNat - 0x80))) :: piecesFrom (pos + 2) r₁
        else match r₁ with
          | [] => [bad 2 .unexpectedEnd]
          | b₂ :: r₂ =>
            if !isContinuation b₂ then bad 2 .badContinuation :: piecesFrom (pos + 2) (b₂ :: r₂)
            else if n < 0xF0 then
              .char (Char.ofNat ((n - 0xE0) * 0x1000 + (b₁.toNat - 0x80) * 0x40
                + (b₂.toNat - 0x80))) :: piecesFrom (pos + 3) r₂
            else match r₂ with
              | [] => [bad 3 .unexpectedEnd]
              | b₃ :: r₃ =>
                if !isContinuation b₃ then
                  bad 3 .badContinuation :: piecesFrom (pos + 3) (b₃ :: r₃)
                else
                  .char (Char.ofNat ((n - 0xF0) * 0x40000 + (b₁.toNat - 0x80) * 0x1000
                    + (b₂.toNat - 0x80) * 0x40 + (b₃.toNat - 0x80))) :: piecesFrom (pos + 4) r₃

def wholePieces : List Utf8Piece → Except Utf8Fault (List Char)
  | [] => .ok []
  | .damaged f :: _ => .error f
  | .char c :: rest => (wholePieces rest).map (c :: ·)

def decodeChars (bs : List UInt8) : Except Utf8Fault (List Char) :=
  wholePieces (piecesFrom 0 bs)

def decode (bs : List UInt8) : Except Utf8Fault String :=
  (decodeChars bs).map String.ofList

def decodeLenient (bs : List UInt8) : List Char :=
  (piecesFrom 0 bs).filterMap fun
    | .char c => some c
    | .damaged _ => none

/-! ### Lines -/

def unifyNewlines : List Char → List Char
  | [] => []
  | '\r' :: '\n' :: rest => '\n' :: unifyNewlines rest
  | '\r' :: rest => '\n' :: unifyNewlines rest
  | c :: rest => c :: unifyNewlines rest

/-- The lines of a text, each with the line feed that ends it; `line` is the part of the current
line already read, last character first. -/
def linesFrom (line : List Char) : List Char → List (List Char)
  | [] => if line.isEmpty then [] else [line.reverse]
  | '\n' :: rest => ('\n' :: line).reverse :: linesFrom [] rest
  | c :: rest => linesFrom (c :: line) rest

def lines (cs : List Char) : List (List Char) :=
  linesFrom [] cs

end ApkWorkshop.Text
