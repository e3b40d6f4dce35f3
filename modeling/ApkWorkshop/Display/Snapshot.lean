import ApkWorkshop.Display.Display

/-!
# Snapshots of the screen

The open windows and their widgets as a document. What was never set is left out.
-/

namespace ApkWorkshop

def describedMember (name : String) : Value → List (String × Value)
  | .null | .text "" => []
  | v => [(name, v)]

def Value.ofOption : Option String → Value
  | some s => .text s
  | none => .null

namespace Display

def describe (d : Display) (kindName : WidgetKind → String) (w : Widget) : Value :=
  .object <| [("w", .text (kindName w.kind))]
    ++ describedMember "text" w.text
    ++ describedMember "bg" w.background
    ++ describedMember "fg" w.foreground
    ++ describedMember "state" (.ofOption w.state)
    ++ describedMember "show" (.text w.mask)
    ++ (match w.choices with
      | some items => [("values", .list items)]
      | none => [])
    ++ describedMember "value" w.amount
    ++ (match w.cell with
      | some id => [("var", d.cell id)]
      | none => [])
    ++ describedMember "content" (.text w.content)

def describeWindow (d : Display) (kindName : WidgetKind → String) (id : Nat) : Value :=
  match d.widget? id with
  | none => .null
  | some w => .object [
      ("title", .text w.title),
      ("geometry", .text w.geometry),
      ("bg", w.background),
      ("widgets", .list ((d.parts id).filterMap fun i =>
        (d.widget? i).map (d.describe kindName)))]

def snapshot (d : Display) (kindName : WidgetKind → String) : Value :=
  .list (d.windows.map (d.describeWindow kindName))

def contentOf (d : Display) (id : Nat) : String :=
  ((d.widget? id).map (·.content)).getD ""

def choicesOf (d : Display) (id : Nat) : Value :=
  match (d.widget? id).bind (·.choices) with
  | some items => .list items
  | none => .null

end Display

end ApkWorkshop
