import ApkWorkshop.World.Job

/-!
# Working on the screen

Windows are opened, widgets put up and cells filled as steps of a job.
-/

namespace ApkWorkshop.Job

open Text

def display : Job Display :=
  return (← get).display

def onDisplay (f : Display → Display) : Job Unit :=
  modify fun w => { w with display := f w.display }

def put (w : Widget) : Job Nat := do
  let (d, id) := (← display).add w
  onDisplay fun _ => d
  return id

def change (id : Nat) (f : Widget → Widget) : Job Unit :=
  onDisplay (·.change id f)

def openMain : Job Nat := do
  let (d, id) := (← display).addMain
  onDisplay fun _ => d
  return id

def mainWindow : Job Nat := do
  match (← display).main with
  | some id => return id
  | none => openMain

def openWindow (parent : Option Nat) (title : String) : Job Nat :=
  put { kind := .window, parent, title }

def openFreeWindow (title : String) : Job Nat := do
  openWindow (← display).main title

def resize (window width height : Nat) : Job Unit :=
  change window fun w => { w with
    geometry := decimal width ++ "x" ++ decimal height
    width
    height }

def moveToCentre (window : Nat) : Job Unit :=
  change window fun w => { w with geometry := Display.centre w.width w.height }

def paint (id : Nat) (background : Value) : Job Unit :=
  change id fun w => { w with background }

def close (id : Nat) : Job Unit :=
  onDisplay (·.close id)

def newCell (v : Value) : Job Nat := do
  let (d, id) := (← display).addCell (.text v.fieldText)
  onDisplay fun _ => d
  return id

def newSwitch (on : Bool) : Job Nat := do
  let (d, id) := (← display).addCell (.truth on)
  onDisplay fun _ => d
  return id

def cellText (id : Nat) : Job String :=
  return ((← display).cell id).fieldText

def cellStripped (id : Nat) : Job String :=
  return strip (← cellText id)

def cellIsOn (id : Nat) : Job Bool :=
  return ((← display).cell id).isGiven

def setCell (id : Nat) (s : String) : Job Unit :=
  onDisplay (·.setCell id (.text s))

def write (id : Nat) (s : String) : Job Unit :=
  change id fun w => if w.state = some "disabled" then w else { w with content := w.content ++ s }

def setChoices (id : Nat) (choices : List Value) : Job Unit :=
  change id fun w => { w with choices := some choices }

end ApkWorkshop.Job

namespace ApkWorkshop.Job

/-! ### Common widgets -/

def putFrame (parent : Nat) (background : Value) : Job Nat :=
  put { kind := .frame, parent := some parent, background }

def putLabel (parent : Nat) (text : String) (background foreground : Value) : Job Unit := do
  let _ ← put { kind := .label, parent := some parent, text := .text text, background, foreground }

def putButton (parent : Nat) (text : String) (background foreground : Value) (command : Action) :
    Job Unit := do
  let _ ← put { kind := .button, parent := some parent, text := .text text, background, foreground,
                command := some command }

def putField (parent cell : Nat) (background foreground : Value) : Job Nat :=
  put { kind := .field, parent := some parent, background, foreground, cell := some cell }

end ApkWorkshop.Job
