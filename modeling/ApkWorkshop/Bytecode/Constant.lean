import ApkWorkshop.Number.Shortest
import ApkWorkshop.Text.Quoted

/-!
# Constants

The constants of a compiled function, and the two ways a listing shows them: with quotes, so that
a text can be told from the other kinds, and plain.
-/

namespace ApkWorkshop.Bytecode

open Text

/-- A constant of a function. A text record of length zero holds no text; it is kept apart as
`absent`, and a listing shows it like `nil`. -/
inductive Constant
  | nil
  | absent
  | truth (b : Bool)
  | number (x : Double)
  | text (s : String)
deriving DecidableEq

def truthText (b : Bool) : String :=
  if b then "True" else "False"

def Constant.shown : Constant → String
  | .nil | .absent => "None"
  | .truth b => truthText b
  | .number x => x.text
  | .text s => quoted s

def Constant.plain : Constant → String
  | .text s => s
  | k => k.shown

end ApkWorkshop.Bytecode
