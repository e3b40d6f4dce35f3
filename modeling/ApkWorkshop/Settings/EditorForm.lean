import ApkWorkshop.Settings.Store

/-!
# The advanced editor

A form for the grid of buttons, the names of the folders and the bindings of the buttons. Numbers
are checked before bindings are saved; no two buttons may have the same number.
-/

namespace ApkWorkshop

open Text

namespace Editor

def byNumber (id : Nat) : Job Editor := do
  match (← get).editors[id]? with
  | some editor => return editor
  | none => return { settings := 0, background := .null, lighter := .null, text := .null,
                     buttonText := .null }

def update (id : Nat) (f : Editor → Editor) : Job Unit :=
  modify fun w => { w with editors := w.editors.modify id f }

def create (settings : Nat) : Job Nat := do
  let colours ← Settings.palette settings
  let id := (← get).editors.length
  modify fun w => { w with editors := w.editors ++ [{
    settings
    background := colours.background
    lighter := colours.lighter
    text := colours.text
    buttonText := colours.buttonText }] }
  return id

/-! ### Building -/

def putGroup (e : Editor) (parent : Nat) (title : String) : Job Nat :=
  Job.put { kind := .group, parent := some parent, text := .text title,
            background := e.background, foreground := e.text }

def itemText (v : Value) (place : Nat) : Except Fault String := do
  if (← v.length) ≤ place then return ""
  match v with
  | .object _ => throw (.noMember (.whole place))
  | _ =>
    match (← v.items)[place]? with
    | some item => return item.plain
    | none => return ""

def buildGrid (id parent : Nat) : Job Unit := do
  let e ← byNumber id
  let group ← e.putGroup parent "Button Grid Layout"
  let shape ← Settings.value e.settings "buttons_shape" (.list [])
  let rowText ← Job.attempt (itemText shape 0)
  let columnText ← Job.attempt (itemText shape 1)
  Job.putLabel group "Rows:" e.background e.text
  let rows ← Job.newCell (.text rowText)
  update id fun e => { e with rows := some rows }
  let _ ← Job.putField group rows e.lighter e.text
  Job.putLabel group "Columns:" e.background e.text
  let columns ← Job.newCell (.text columnText)
  update id fun e => { e with columns := some columns }
  let _ ← Job.putField group columns e.lighter e.text

def putScrolled (e : Editor) (parent : Nat) : Job Nat := do
  let canvas ← Job.put { kind := .canvas, parent := some parent, background := e.background }
  let _ ← Job.put { kind := .scrollbar, parent := some parent }
  Job.putFrame canvas e.background

def putArea (e : Editor) (parent : Nat) (v : Value) : Job Nat :=
  Job.put { kind := .area, parent := some parent, background := e.lighter, foreground := e.text,
            content := v.fieldText, undoes := true }

def buildFolders (id parent : Nat) : Job Unit := do
  let e ← byNumber id
  let group ← e.putGroup parent "Folders"
  let folders ← Settings.value e.settings "folder_structure" (.object [])
  update id fun e => { e with folders := [] }
  let folders ← Job.attempt (folders.members "keys")
  if folders.isEmpty then
    Job.putLabel group "No folders configured" e.background (.text "gray")
    return
  let frame ← e.putScrolled group
  Job.putLabel frame "Key" e.background e.text
  Job.putLabel frame "Name" e.background e.text
  folders.forM fun (key, name) => do
    Job.putLabel frame (key ++ ":") e.background e.text
    let area ← e.putArea frame name
    update id fun e => { e with folders := e.folders ++ [(key, area)] }

def buildBinding (id frame : Nat) (binding : Value) : Job Unit := do
  let e ← byNumber id
  let button ← Job.attempt (binding.lookup "button" (.text ""))
  let cell ← Job.newCell (.text button.plain)
  let _ ← Job.putField frame cell e.lighter e.text
  update id fun e => { e with bindingCells := e.bindingCells ++ [cell] }
  let tool ← Job.attempt (binding.lookup "tool" (.text ""))
  let description ← Job.attempt (binding.lookup "description" tool)
  let _ ← e.putArea frame description
  let name ← Job.attempt (binding.lookup "name" (.text ""))
  let area ← e.putArea frame name
  update id fun e => { e with bindingNames := e.bindingNames ++ [area] }

def buildBindings (id parent : Nat) : Job Unit := do
  let e ← byNumber id
  let group ← e.putGroup parent "Button Bindings"
  let bindings ← Settings.value e.settings "bindings" (.list [])
  let items ← match bindings with
    | .list items => pure items
    | .object members => pure (members.map fun (name, _) => .text name)
    | v => throw (.noOperation v.kind "copy")
  update id fun e => { e with bindings := items, bindingCells := [], bindingNames := [] }
  if items.isEmpty then
    Job.putLabel group "No button bindings configured" e.background (.text "gray")
    return
  let frame ← e.putScrolled group
  Job.putLabel frame "Button #" e.background e.text
  Job.putLabel frame "Description" e.background e.text
  Job.putLabel frame "Display Name" e.background e.text
  items.forM (buildBinding id frame)

def openWindow (id : Nat) : Job Unit := do
  let e ← byNumber id
  let window ← Job.openWindow (some (← Job.mainWindow)) "Advanced Configuration Editor"
  update id fun e => { e with window := some window }
  Job.resize window 550 700
  Job.paint window e.background
  Job.moveToCentre window
  let tabs ← Job.put { kind := .tabs, parent := some window }
  buildGrid id (← Job.putFrame tabs e.background)
  buildFolders id (← Job.putFrame tabs e.background)
  buildBindings id (← Job.putFrame tabs e.background)
  let buttons ← Job.putFrame window e.background
  Job.putButton buttons "Save All" e.lighter e.buttonText (.saveEditor id)
  Job.putButton buttons "Cancel" e.lighter e.buttonText (.close window)

/-! ### Saving -/

/-- Why bindings are not saved. -/
inductive BindingFault
  | duplicate (number : String)
  | invalid (number : String)
deriving DecidableEq

def BindingFault.message : BindingFault → String
  | .duplicate number =>
    "Duplicate button number found: " ++ number ++ "\nButton numbers must be unique."
  | .invalid number =>
    "Invalid button number: '" ++ number ++ "'\nButton number must be a valid integer."

/-- Check the numbers that were typed, given those before them. A number left blank is not
checked. -/
def checkNumbers (seen : List Int) : List String → Option BindingFault
  | [] => none
  | number :: rest =>
    if number = "" then checkNumbers seen rest
    else
      match readInteger? number.toList with
      | none => some (.invalid number)
      | some n =>
        if seen.contains n then some (.duplicate number) else checkNumbers (n :: seen) rest

/-- A binding with the number and the name that were typed. A blank number keeps the old one. -/
def rebind (binding : Value) (number name : String) : Value :=
  match binding with
  | .object members =>
    let members := match readInteger? number.toList with
      | some n => setMember "button" (.whole n) members
      | none => members
    .object (setMember "name" (.text name) members)
  | v => v

def rebindAll : List Value → List String → List String → List Value
  | binding :: bindings, number :: numbers, name :: names =>
    rebind binding number name :: rebindAll bindings numbers names
  | _, _, _ => []

def dropKey (settings : Nat) (key : String) : Job Unit :=
  Settings.update settings fun s => { s with data := match s.data with
    | .object members => .object (dropMember key members)
    | v => v }

def gridText (field : Option Nat) : Job String :=
  match field with
  | some cell => Job.cellStripped cell
  | none => throw (.noOperation "editor" "field")

def saveGrid (e : Editor) : Job Bool := do
  let rows ← gridText e.rows
  let columns ← gridText e.columns
  if rows = "" || columns = "" then
    dropKey e.settings "buttons_shape"
    return true
  match readInteger? rows.toList, readInteger? columns.toList with
  | some r, some c =>
    Settings.set e.settings "buttons_shape" (.list [.whole r, .whole c])
    return true
  | _, _ =>
    Job.showBox (.error "Error" "Rows and Columns must be numbers")
    return false

def saveBindings (e : Editor) : Job Bool := do
  if e.bindingCells.isEmpty then return true
  let numbers ← e.bindingCells.mapM Job.cellStripped
  match checkNumbers [] numbers with
  | some fault =>
    Job.showBox (.error "Error" fault.message)
    return false
  | none =>
    let display ← Job.display
    let names := e.bindingNames.map fun area =>
      strip (((display.widget? area).map (·.content)).getD "")
    match rebindAll e.bindings numbers names with
    | [] => dropKey e.settings "bindings"
    | bindings => Settings.set e.settings "bindings" (.list bindings)
    return true

/-- Save what comes after the grid and close a window. The names of folders cannot be read back. -/
def saveRest (e : Editor) (window : Option Nat) : Job Unit := do
  if !e.folders.isEmpty then throw .noReadingPlace
  if !(← e.saveBindings) then return
  Settings.save e.settings
  Settings.emit e.settings "config_updated" (.object [("type", .text "advanced")])
  match window with
  | some window => Job.close window
  | none => throw (.noOperation "NoneType" "destroy")

def save (id : Nat) (window : Option Nat) : Job Unit := do
  let e ← byNumber id
  if ← e.saveGrid then e.saveRest window

end Editor

end ApkWorkshop
