import ApkWorkshop.Text.Numeral
import ApkWorkshop.Text.Printable

/-!
# Quoted text

Texts and byte strings as they are shown inside listings and messages: in single quotes, or in
double quotes when the text holds a single quote and no double quote. The quote in use and the
backslash get a backslash, three controls have a letter, and every other character that is not
printable is written by its code point.
-/

namespace ApkWorkshop.Text

def quoteFor (cs : List Char) : Char :=
  if cs.contains '\'' && !cs.contains '"' then '"' else '\''

def codeEscape (n : Nat) : List Char :=
  if n < 0x100 then '\\' :: 'x' :: (hexPadded 2 n).toList
  else if n < 0x10000 then '\\' :: 'u' :: (hexPadded 4 n).toList
  else '\\' :: 'U' :: (hexPadded 8 n).toList

def quotedChar (quote c : Char) : List Char :=
  if c = quote || c = '\\' then ['\\', c]
  else if c = '\n' then ['\\', 'n']
  else if c = '\r' then ['\\', 'r']
  else if c = '\t' then ['\\', 't']
  else if isPrintable c then [c]
  else codeEscape c.toNat

def quotedChars (cs : List Char) : List Char :=
  let quote := quoteFor cs
  quote :: cs.flatMap (quotedChar quote) ++ [quote]

def quoted (s : String) : String :=
  String.ofList (quotedChars s.toList)

/-- One byte between quotes; bytes beyond ASCII are never shown as they stand. -/
def quotedByte (quote : Char) (b : UInt8) : List Char :=
  if b.toNat < 128 then quotedChar quote (Char.ofNat b.toNat) else codeEscape b.toNat

def quotedBytes (bs : List UInt8) : String :=
  let quote := quoteFor (bs.map fun b => Char.ofNat b.toNat)
  String.ofList ('b' :: quote :: bs.flatMap (quotedByte quote) ++ [quote])

def bracketed (items : List String) : String :=
  "[" ++ joinWith ", " items ++ "]"

def parenthesized (items : List String) : String :=
  "(" ++ joinWith ", " items ++ ")"

end ApkWorkshop.Text
