import ApkWorkshop.Document.Value

/-!
# Writing documents

A document is written with one member or item a line, each level indented further, or without any
blanks. Characters beyond ASCII are written as escapes of four hexadecimal digits, two of them for
a character outside the first plane.
-/

namespace ApkWorkshop.Value

open Text

def unitEscape (n : Nat) : List Char :=
  '\\' :: 'u' :: (hexPadded 4 n).toList

def writtenChar (c : Char) : List Char :=
  if c = '"' then ['\\', '"']
  else if c = '\\' then ['\\', '\\']
  else if c = '\n' then ['\\', 'n']
  else if c = '\r' then ['\\', 'r']
  else if c = '\t' then ['\\', 't']
  else if c.toNat = 8 then ['\\', 'b']
  else if c.toNat = 12 then ['\\', 'f']
  else if 32 ≤ c.toNat ∧ c.toNat < 127 then [c]
  else if c.toNat < 0x10000 then unitEscape c.toNat
  else
    let n := c.toNat - 0x10000
    unitEscape (0xD800 + n / 0x400) ++ unitEscape (0xDC00 + n % 0x400)

def writtenText (s : String) : String :=
  String.ofList ('"' :: s.toList.flatMap writtenChar ++ ['"'])

def writtenReal (x : Double) : String :=
  match x.value with
  | .notANumber => "NaN"
  | .infinite negative => if negative then "-Infinity" else "Infinity"
  | .finite _ _ => x.text

/-- How a document is laid out: what separates items, what stands behind a name, and the line
break for a level. -/
structure Layout where
  comma : String
  colon : String
  newline : Nat → String

/-- A line for every item, each level indented by the given number of spaces. -/
def Layout.indented (width : Nat) : Layout where
  comma := ","
  colon := ": "
  newline level := "\n" ++ String.ofList (List.replicate (width * level) ' ')

def Layout.compact : Layout := ⟨",", ":", fun _ => ""⟩

mutual

def written (layout : Layout) (level : Nat) : Value → String
  | .null => "null"
  | .truth b => if b then "true" else "false"
  | .whole n => decimalInt n
  | .real x => writtenReal x
  | .text s => writtenText s
  | .list [] => "[]"
  | .list (v :: rest) =>
    "[" ++ layout.newline (level + 1) ++ v.written layout (level + 1)
      ++ writtenItems layout (level + 1) rest ++ layout.newline level ++ "]"
  | .object [] => "\x7b\x7d"
  | .object ((name, v) :: rest) =>
    "\x7b" ++ layout.newline (level + 1) ++ writtenText name ++ layout.colon
      ++ v.written layout (level + 1) ++ writtenMembers layout (level + 1) rest
      ++ layout.newline level ++ "\x7d"

def writtenItems (layout : Layout) (level : Nat) : List Value → String
  | [] => ""
  | v :: rest =>
    layout.comma ++ layout.newline level ++ v.written layout level
      ++ writtenItems layout level rest

def writtenMembers (layout : Layout) (level : Nat) : List (String × Value) → String
  | [] => ""
  | (name, v) :: rest =>
    layout.comma ++ layout.newline level ++ writtenText name ++ layout.colon
      ++ v.written layout level ++ writtenMembers layout level rest

end

def document (width : Nat) (v : Value) : String :=
  v.written (.indented width) 0

def compact (v : Value) : String :=
  v.written .compact 0

end ApkWorkshop.Value
