import ApkWorkshop.Document.Bytes
import ApkWorkshop.Update.Update

/-!
# Scenarios

A scenario is a document that says which files there are and what programs, people, the clock and
the network will answer.
-/

namespace ApkWorkshop.Scenario

def part (v : Value) (name : String) : Value :=
  (v.get? name).getD .null

def list : Value → List Value
  | .list items => items
  | _ => []

def text : Value → String
  | .text s => s
  | _ => ""

def text? : Value → Option String
  | .text s => some s
  | _ => none

def texts (v : Value) : List String :=
  (list v).map text

def textOr (v : Value) (name usual : String) : String :=
  (text? (part v name)).getD usual

def entries : Value → List (String × Value)
  | .object members => members
  | _ => []

def whole : Value → Int
  | .whole n => n
  | _ => 0

def count (v : Value) (name : String) : Nat :=
  (whole (part v name)).toNat

def isTruth (v : Value) (name : String) (b : Bool) : Bool :=
  match part v name with
  | .truth c => b == c
  | _ => false

def outcome (v : Value) : Outcome where
  code := whole (part v "rc")
  output := text (part v "out")
  errors := text (part v "err")
  made := (list (part v "make")).filterMap fun item =>
    match list item with
    | [.text path, content] => some (.path path, content.bytes?)
    | [.whole index, content] => some (.word index, content.bytes?)
    | _ => none
  refusal := match text (part v "raise") with
    | "missing" => some .missing
    | "timeout" => some .timeout
    | _ => none

def move? (v : Value) : Option DialogMove :=
  match list v with
  | [.text "type", .whole n, .text s] => some (.type n.toNat s)
  | [.text "press", .text s] => some (.press s)
  | .text "return" :: _ => some .confirm
  | _ => none

def reading : Value → Double
  | .real x => x
  | v => .ofInt (whole v)

def outside (v : Value) : Outside where
  outcomes := (list (part v "proc")).map outcome
  answers := (list (part v "ask")).map (·.isGiven)
  choices := (list (part v "choose")).map text
  colours := list (part v "colors")
  dialogs := (list (part v "dialogs")).map fun d => (list d).filterMap move?
  clock := (list (part v "clock")).map reading
  programs := (entries (part v "which")).map fun (name, path) => (name, text path)
  remote := Update.published ((entries (part v "remote")).map fun (name, content) =>
    (name, content.bytes?.getD []))
  libraries := (entries (part v "modules")).map fun (name, answer) =>
    (name, if text answer = "ok" then none else some (text answer))

/-- Put a file or, for no content, a folder somewhere; an impossible place is left alone. -/
def supplied (files : Files) (path : String) (content : Option (List UInt8)) : Files :=
  (files.supply path content).toOption.getD files

def filesIn (start : Files) (v : Value) : Files :=
  (entries v).foldl (fun files (path, content) => supplied files path content.bytes?) start

end ApkWorkshop.Scenario
