import ApkWorkshop.Text.Numeral

/-!
# Searching in texts

Parts of a text: whether one occurs, the first place at which something can be read, and the
replacement of every occurrence from the left.
-/

namespace ApkWorkshop.Text

def occurs (part : List Char) : List Char → Bool
  | [] => part.isEmpty
  | c :: rest => part.isPrefixOf (c :: rest) || occurs part rest

def holds (s part : String) : Bool :=
  occurs part.toList s.toList

def firstRead? {α : Type} (read? : List Char → Option α) : List Char → Option α
  | [] => read? []
  | c :: rest =>
    match read? (c :: rest) with
    | some a => some a
    | none => firstRead? read? rest

/-- Replace every occurrence of a part, from the left and without overlap. `skip` counts the
characters that still belong to the occurrence before. -/
def replaceFrom (part new : List Char) : Nat → List Char → List Char
  | _, [] => []
  | skip + 1, _ :: rest => replaceFrom part new skip rest
  | 0, c :: rest =>
    if part.isPrefixOf (c :: rest) then new ++ replaceFrom part new (part.length - 1) rest
    else c :: replaceFrom part new 0 rest

def replaceAll (s part new : String) : String :=
  String.ofList (replaceFrom part.toList new.toList 0 s.toList)

end ApkWorkshop.Text
