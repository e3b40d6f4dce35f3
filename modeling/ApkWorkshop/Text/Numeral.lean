import ApkWorkshop.Text.Blank
import ApkWorkshop.Text.Digit

/-!
# Numerals

Whole numbers as text: decimal and hexadecimal writing, padding to a column, and the reading
of a typed number. Reading accepts a sign, digits of any script and single underscores between
digits, and trims blanks. No limit is set to the number of digits: a statement for machines that
have one bounds the numbers itself.
-/

namespace ApkWorkshop.Text

/-! ### Writing -/

def decimal (n : Nat) : String :=
  String.ofList (Nat.toDigits 10 n)

def decimalInt : Int → String
  | .ofNat n => decimal n
  | .negSucc n => "-" ++ decimal (n + 1)

def hex (n : Nat) : String :=
  String.ofList (Nat.toDigits 16 n)

def hexInt : Int → String
  | .ofNat n => hex n
  | .negSucc n => "-" ++ hex (n + 1)

def padStart (width : Nat) (fill : Char) (s : String) : String :=
  String.ofList (List.replicate (width - s.length) fill) ++ s

def padEnd (width : Nat) (s : String) : String :=
  s ++ String.ofList (List.replicate (width - s.length) ' ')

def hexPadded (width n : Nat) : String :=
  padStart width '0' (hex n)

def times (count : Int) (s : String) : String :=
  String.join (List.replicate count.toNat s)

def joinWith (separator : String) : List String → String
  | [] => ""
  | [s] => s
  | s :: rest => s ++ separator ++ joinWith separator rest

/-! ### Reading -/

/-- The values of digits in which single underscores may stand between two digits. `pending` tells
whether a digit stood directly before. -/
def groupedDigits? (pending : Bool) : List Char → Option (List Nat)
  | [] => if pending then some [] else none
  | '_' :: rest => if pending then groupedDigits? false rest else none
  | c :: rest => do
    let d ← digitValue? c
    let ds ← groupedDigits? true rest
    return d :: ds

def ofDigits (ds : List Nat) : Nat :=
  ds.foldl (fun n d => 10 * n + d) 0

def readNatural? (cs : List Char) : Option Nat :=
  (groupedDigits? false cs).map ofDigits

def readInteger? (cs : List Char) : Option Int :=
  match trim cs with
  | '-' :: rest => (readNatural? rest).map fun n => -(n : Int)
  | '+' :: rest => (readNatural? rest).map fun n => (n : Int)
  | rest => (readNatural? rest).map fun n => (n : Int)

end ApkWorkshop.Text
