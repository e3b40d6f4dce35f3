import ApkWorkshop.World.Fault

/-!
# Taking document values apart

A settings file may hold any value where a text, a list or an object is expected. These operations
say what such a value gives and which fault it leads to.
-/

namespace ApkWorkshop.Value

open Text

def lookup (v : Value) (name : String) (usual : Value) : Except Fault Value :=
  match v with
  | .object members => .ok ((member? members name).getD usual)
  | _ => .error (.noOperation v.kind "get")

/-- The value of a member whose name is itself a value of the document. Lists and objects cannot
be names. -/
def lookupBy (v key usual : Value) : Except Fault Value :=
  match v with
  | .object members =>
    match key with
    | .text name => .ok ((member? members name).getD usual)
    | .list _ | .object _ => .error (.badKey key.kind)
    | _ => .ok usual
  | _ => .error (.noOperation v.kind "get")

def require (v key : Value) : Except Fault Value :=
  match v with
  | .object members =>
    match key with
    | .text name =>
      match member? members name with
      | some found => .ok found
      | none => .error (.noMember key)
    | .list _ | .object _ => .error (.badKey key.kind)
    | _ => .error (.noMember key)
  | _ => .error (.notKeyed v.kind key.kind)

def assign (v : Value) (name : String) (new : Value) : Except Fault Value :=
  match v with
  | .object members => .ok (.object (setMember name new members))
  | .list _ => .error (.notKeyed "list" "str")
  | _ => .error (.notAssignable v.kind)

/-- The members of an object; the name of the operation stands in the fault. -/
def members (v : Value) (operation : String) : Except Fault (List (String × Value)) :=
  match v with
  | .object members => .ok members
  | _ => .error (.noOperation v.kind operation)

/-- The items one after the other: of a list, the characters of a text, the names of an object. -/
def items? : Value → Option (List Value)
  | .list items => some items
  | .text s => some (s.toList.map fun c => .text (String.singleton c))
  | .object members => some (members.map fun (name, _) => .text name)
  | _ => none

def items (v : Value) : Except Fault (List Value) :=
  match v.items? with
  | some items => .ok items
  | none => .error (.noItems v.kind)

def length (v : Value) : Except Fault Nat :=
  match v.items? with
  | some items => .ok items.length
  | none => .error (.noLength v.kind)

def pair (v : Value) : Except Fault (Value × Value) :=
  match v.items? with
  | some [a, b] => .ok (a, b)
  | some items =>
    if items.length < 2 then .error (.tooFewItems 2 items.length) else .error (.tooManyItems 2)
  | none => .error (.notTakenApart v.kind)

def count (v : Value) : Except Fault Nat :=
  match v with
  | .whole n => .ok n.toNat
  | .truth b => .ok (if b then 1 else 0)
  | _ => .error (.notWhole v.kind)

def path (v : Value) : Except Fault String :=
  match v with
  | .text s => .ok s
  | _ => .error (.notPath v.kind)

def joinPath (first second : Value) : Except Fault String :=
  match first, second with
  | .text a, .text b => .ok (Path.join a b)
  | .text _, v => .error (.notPathPart v.kind)
  | v, _ => .error (.notPath v.kind)

/-- Does something stand at the path? A whole number stands for an open stream: the three standard
ones are always open. -/
def standsIn (v : Value) (files : Files) : Except Fault Bool :=
  match v with
  | .text s => .ok (files.exists? s)
  | .whole n => .ok (0 ≤ n && n ≤ 2)
  | .truth _ => .ok true
  | _ => .error (.notLookedUp v.kind)

def textsFrom (position : Nat) : List Value → Except Fault (List String)
  | [] => .ok []
  | .text s :: rest => (textsFrom (position + 1) rest).map (s :: ·)
  | v :: _ => .error (.notText position v.kind)

def commandWords : List Value → Except Fault (List String)
  | [] => .ok []
  | v :: rest => do
    let word ← v.path
    return word :: (← commandWords rest)

def same (a b : Value) : Bool :=
  match a.asWhole?, b.asWhole? with
  | some m, some n => m == n
  | none, none => a.shown == b.shown
  | _, _ => false

end ApkWorkshop.Value
