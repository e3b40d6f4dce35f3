import ApkWorkshop.Number.Shortest
import ApkWorkshop.Text.Quoted

/-!
# Document values

The values of a JSON document. Whole numbers have no bound, numbers with a point or an exponent
are doubles, and the members of an object keep the order in which their names first came.
-/

namespace ApkWorkshop

open Text

/-- A value of a document. -/
inductive Value
  | null
  | truth (b : Bool)
  | whole (n : Int)
  | real (x : Double)
  | text (s : String)
  | list (items : List Value)
  | object (members : List (String × Value))

/-! ### Members -/

def member? (members : List (String × Value)) (name : String) : Option Value :=
  members.lookup name

/-- Give a member a value: a member that is there keeps its place, a new one comes last. -/
def setMember (name : String) (v : Value) : List (String × Value) → List (String × Value)
  | [] => [(name, v)]
  | (other, old) :: rest =>
    if name = other then (name, v) :: rest else (other, old) :: setMember name v rest

def collectMembers (pairs : List (String × Value)) : List (String × Value) :=
  pairs.foldl (fun members (name, v) => setMember name v members) []

def dropMember (name : String) (members : List (String × Value)) : List (String × Value) :=
  members.filter fun (other, _) => other != name

namespace Value

def get? (v : Value) (name : String) : Option Value :=
  match v with
  | .object members => member? members name
  | _ => none

/-- Does a value count as given? Empty texts, lists and objects, zero and `null` do not. -/
def isGiven : Value → Bool
  | .null => false
  | .truth b => b
  | .whole n => n != 0
  | .real x => match x.value with
    | .finite _ units => units != 0
    | _ => true
  | .text s => s != ""
  | .list items => !items.isEmpty
  | .object members => !members.isEmpty

def kind : Value → String
  | .null => "NoneType"
  | .truth _ => "bool"
  | .whole _ => "int"
  | .real _ => "float"
  | .text _ => "str"
  | .list _ => "list"
  | .object _ => "dict"

mutual

def shown : Value → String
  | .null => "None"
  | .truth b => if b then "True" else "False"
  | .whole n => decimalInt n
  | .real x => x.text
  | .text s => quoted s
  | .list items => "[" ++ joinWith ", " (shownItems items) ++ "]"
  | .object members => "\x7b" ++ joinWith ", " (shownMembers members) ++ "\x7d"

def shownItems : List Value → List String
  | [] => []
  | v :: rest => v.shown :: shownItems rest

def shownMembers : List (String × Value) → List String
  | [] => []
  | (name, v) :: rest => (quoted name ++ ": " ++ v.shown) :: shownMembers rest

end

def plain : Value → String
  | .text s => s
  | v => v.shown

/-- The number a value is equal to, if it is equal to a whole number: truth values count as zero
and one. -/
def asWhole? : Value → Option Int
  | .whole n => some n
  | .truth b => some (if b then 1 else 0)
  | .real x => match x.value with
    | .finite negative units =>
      if units % Double.one = 0 then some (Double.signed negative (units / Double.one)) else none
    | _ => none
  | _ => none

end Value

end ApkWorkshop
