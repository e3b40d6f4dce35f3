import ApkWorkshop.Display.Action
import ApkWorkshop.Document.Value

/-!
# The display

Windows and the widgets in them. Every widget has a number and knows the widget it stands in; a
widget that is closed takes everything inside it along. Widgets that show a cell share it by
its number.
-/

namespace ApkWorkshop

open Text

/-- The kinds of widgets. -/
inductive WidgetKind
  | mainWindow
  | window
  | frame
  | group
  | themePanel
  | label
  | button
  | checkButton
  | field
  | area
  | choice
  | canvas
  | scrollbar
  | tabs
  | gauge
deriving DecidableEq

def WidgetKind.isWindow : WidgetKind → Bool
  | .mainWindow | .window => true
  | _ => false

def WidgetKind.isInput : WidgetKind → Bool
  | .field | .area | .choice => true
  | _ => false

def WidgetKind.isButton : WidgetKind → Bool
  | .button | .checkButton => true
  | _ => false

/-- A widget. Values that are `null` were never set. -/
structure Widget where
  kind : WidgetKind
  parent : Option Nat := none
  alive : Bool := true
  text : Value := .null
  background : Value := .null
  foreground : Value := .null
  state : Option String := none
  mask : String := ""
  choices : Option (List Value) := none
  amount : Value := .null
  cell : Option Nat := none
  content : String := ""
  command : Option Action := none
  onReturn : Option Action := none
  undoes : Bool := false
  title : String := ""
  geometry : String := ""
  width : Nat := 1
  height : Nat := 1

/-- A cell, and the theme panel that follows its changes. -/
structure Cell where
  value : Value
  watcher : Option Nat := none

/-- Everything on the screen. -/
structure Display where
  widgets : List Widget := []
  cells : List Cell := []
  /-- The main window that stands in for a parent that is not named. -/
  main : Option Nat := none
  pending : List Action := []

namespace Display

def screenWidth : Nat := 1920

def screenHeight : Nat := 1080

def widget? (d : Display) (id : Nat) : Option Widget :=
  d.widgets[id]?

def change (d : Display) (id : Nat) (f : Widget → Widget) : Display :=
  { d with widgets := d.widgets.modify id f }

def add (d : Display) (w : Widget) : Display × Nat :=
  ({ d with widgets := d.widgets ++ [w] }, d.widgets.length)

/-- Put up a main window. It stands in for parents that are not named if none does yet. -/
def addMain (d : Display) : Display × Nat :=
  let (d, id) := d.add { kind := .mainWindow }
  ({ d with main := d.main.orElse fun _ => some id }, id)

def children (d : Display) (id : Nat) : List Nat :=
  (List.range d.widgets.length).filter fun i =>
    match d.widgets[i]? with
    | some w => w.alive && w.parent == some id
    | none => false

/-- The widgets inside a widget down to a depth, each followed by what stands in it. -/
def insideTo (d : Display) : Nat → Nat → List Nat
  | 0, _ => []
  | depth + 1, id => (d.children id).flatMap fun child => child :: insideTo d depth child

/-- Everything inside a widget. No chain of widgets is longer than there are widgets. -/
def inside (d : Display) (id : Nat) : List Nat :=
  d.insideTo d.widgets.length id

/-- Does the widget belong to a window itself, not to a window opened from it? -/
def isPart (d : Display) (id : Nat) : Bool :=
  match d.widgets[id]? with
  | some w => !w.kind.isWindow
  | none => false

/-- The widgets of a window down to a depth, without those of other windows. -/
def partsTo (d : Display) : Nat → Nat → List Nat
  | 0, _ => []
  | depth + 1, id =>
    ((d.children id).filter d.isPart).flatMap fun child => child :: partsTo d depth child

def parts (d : Display) (id : Nat) : List Nat :=
  d.partsTo d.widgets.length id

def close (d : Display) (id : Nat) : Display :=
  let closed := id :: d.inside id
  let d := closed.foldl (fun d i => d.change i fun w => { w with alive := false }) d
  if d.main = some id then { d with main := none } else d

def isOpen (d : Display) (id : Nat) : Bool :=
  match d.widgets[id]? with
  | some w => w.alive
  | none => false

def windows (d : Display) : List Nat :=
  (List.range d.widgets.length).filter fun i =>
    match d.widgets[i]? with
    | some w => w.alive && w.kind.isWindow
    | none => false

def newest? (d : Display) (title : Option String) : Option Nat :=
  d.windows.reverse.find? fun i =>
    match title, d.widgets[i]? with
    | none, _ => true
    | some t, some w => w.title == t
    | some _, none => false

def select (d : Display) (window : Nat) (test : Widget → Bool) : List Nat :=
  (d.parts window).filter fun i =>
    match d.widgets[i]? with
    | some w => test w
    | none => false

def addCell (d : Display) (v : Value) : Display × Nat :=
  ({ d with cells := d.cells ++ [⟨v, none⟩] }, d.cells.length)

def cell (d : Display) (id : Nat) : Value :=
  match d.cells[id]? with
  | some v => v.value
  | none => .null

def setCell (d : Display) (id : Nat) (v : Value) : Display :=
  { d with cells := d.cells.modify id fun old => { old with value := v } }

def watch (d : Display) (id panel : Nat) : Display :=
  { d with cells := d.cells.modify id fun old => { old with watcher := some panel } }

def centre (width height : Nat) : String :=
  "+" ++ decimalInt (Int.fdiv ((screenWidth : Int) - width) 2)
    ++ "+" ++ decimalInt (Int.fdiv ((screenHeight : Int) - height) 2)

def schedule (d : Display) (a : Action) : Display :=
  { d with pending := d.pending ++ [a] }

end Display

def Value.fieldText : Value → String
  | .null => ""
  | v => v.plain

end ApkWorkshop
