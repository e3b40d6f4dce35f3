import ApkWorkshop.Settings.Store

/-!
# The theme panel

A panel shows the themes of the settings, lets one be chosen or a custom one be coloured, and
colours its own window with the theme that is chosen at the moment.
-/

namespace ApkWorkshop

open Text

namespace ThemePanel

def byNumber (id : Nat) : Job ThemePanel := do
  match (← get).panels[id]? with
  | some panel => return panel
  | none => return { settings := 0, window := 0, panel := 0, current := .null, font := .null }

def update (id : Nat) (f : ThemePanel → ThemePanel) : Job Unit :=
  modify fun w => { w with panels := w.panels.modify id f }

def themes (panel : ThemePanel) : Job Value := do
  match panel.ownThemes with
  | some themes => return themes
  | none => return ((← Settings.byNumber panel.settings).data.get? "themes").getD (.object [])

/-! ### Colouring -/

def colourWidget (colours : ThemeColours) (w : Widget) : Widget :=
  match w.kind with
  | .frame | .group | .themePanel => { w with background := colours.background }
  | .button => { w with background := colours.lighter, foreground := colours.buttonText }
  | .label | .field => { w with background := colours.lighter, foreground := colours.text }
  | .choice | .scrollbar | .tabs | .gauge => w
  | _ => { w with background := colours.lighter }

def colourWindow (panel : ThemePanel) (window : Nat) : Job Unit := do
  let theme ← Job.attempt ((← panel.themes).require panel.current)
  let colours ← Job.attempt (Theme.paletteOf theme)
  Job.onDisplay fun d =>
    (window :: d.inside window).foldl (fun d i => d.change i (colourWidget colours)) d
  Job.paint window colours.background

def colour (id : Nat) : Job Unit := do
  let panel ← byNumber id
  panel.colourWindow panel.window

/-- Put a text into a cell. If a panel follows the cell, it colours its window anew. -/
def enter (cell : Nat) (s : String) : Job Unit := do
  Job.setCell cell s
  match ((← Job.display).cells[cell]?).bind (·.watcher) with
  | some id => colour id
  | none => pure ()

/-! ### Building -/

def build (id window panel : Nat) : Job Unit := do
  let top ← Job.putFrame panel .null
  Job.putLabel top "Select Theme" .null .null
  let choices ← Job.putFrame top .null
  let plain ← Job.putFrame choices .null
  Job.putButton plain "L" .null .null (.selectTheme id "light")
  Job.putButton plain "D" .null .null (.selectTheme id "dark")
  Job.putButton choices "CUSTOM" .null .null (.customiseTheme id)
  Job.putButton choices "Font" .null .null (.changeFont id)
  let group ← Job.put { kind := .group, parent := some panel, text := .text "Customize Colors" }
  update id fun p => { p with group }
  let bottom ← Job.putFrame panel .null
  Job.putButton bottom "Save & Close" .null .null (.saveTheme id)
  Job.putButton bottom "Cancel" .null .null (.close window)

def create (settings window : Nat) (ownThemes : Option Value) (current font : Value) :
    Job Unit := do
  let panel ← Job.put { kind := .themePanel, parent := some window }
  let id := (← get).panels.length
  modify fun w => { w with
    panels := w.panels ++ [{ settings, window, panel, ownThemes, current, font }] }
  build id window panel
  colour id

/-! ### Choosing -/

def select (id : Nat) (name : String) : Job Unit := do
  update id fun p => { p with current := .text name }
  colour id

def colourFields : List (String × String × String) := [
  ("Background", "background", "Main window background"),
  ("Button Text", "button_text", "Button text color"),
  ("Scroll Text", "scroll_text", "Log text color")]

def buildColourRow (id group : Nat) (theme : Value) (label key description : String) :
    Job Unit := do
  let row ← Job.putFrame group .null
  Job.putLabel row label .null .null
  Job.putLabel row description .null (.text "gray")
  let cell ← Job.newCell (← Job.attempt (Theme.colourOf theme key "#000000"))
  let _ ← Job.putField row cell .null .null
  Job.putButton row "🎨" .null .null (.pickColour cell key)
  update id fun p => { p with colourCells := p.colourCells.map (· ++ [(key, cell)]) }
  Job.onDisplay (·.watch cell id)

def buildColourRows (id : Nat) : Job Unit := do
  let panel ← byNumber id
  ((← Job.display).children panel.group).forM Job.close
  let theme ← Job.attempt ((← panel.themes).require (.text "custom"))
  update id fun p => { p with colourCells := some [] }
  colourFields.forM fun (label, key, description) =>
    buildColourRow id panel.group theme label key description

def customise (id : Nat) : Job Unit := do
  update id fun p => { p with current := .text "custom" }
  buildColourRows id
  colour id

def pickColour (cell : Nat) (key : String) : Job Unit := do
  match ← Job.chooseColour ("Choose " ++ key) with
  | .text s => if s ≠ "" then enter cell s
  | _ => pure ()

/-! ### The font -/

def fontFamilies : List String :=
  ["Arial", "Helvetica", "Times New Roman", "Courier New", "Verdana", "Tahoma"]

def fontSizes : List String :=
  ["8", "9", "10", "11", "12", "14", "16", "18"]

def putChoices (parent cell : Nat) (choices : List String) : Job Unit := do
  let _ ← Job.put { kind := .choice, parent := some parent, state := some "readonly",
                    cell := some cell, choices := some (choices.map .text) }

def changeFont (id : Nat) : Job Unit := do
  let panel ← byNumber id
  let window ← Job.openWindow (some panel.window) "Font Selection"
  Job.resize window 300 200
  panel.colourWindow window
  let frame ← Job.putFrame window .null
  let family ← Job.attempt (panel.font.lookup "family" (.text "Arial"))
  let size ← Job.attempt (panel.font.lookup "size" (.whole 10))
  Job.putLabel frame "Font Family:" .null .null
  let familyCell ← Job.newCell family
  putChoices frame familyCell fontFamilies
  Job.putLabel frame "Font Size:" .null .null
  let sizeCell ← Job.newCell (.text size.plain)
  putChoices frame sizeCell fontSizes
  let buttons ← Job.putFrame frame .null
  Job.putButton buttons "Apply" .null .null (.applyFont id familyCell sizeCell window)
  Job.putButton buttons "Cancel" .null .null (.close window)
  panel.colourWindow window

/-- Take the chosen font into the settings. A size that is no number is ignored. -/
def applyFont (id family size window : Nat) : Job Unit := do
  let name ← Job.cellText family
  match readInteger? (← Job.cellText size).toList with
  | none => pure ()
  | some size =>
    let font := Value.object [("family", .text name), ("size", .whole size)]
    update id fun p => { p with font }
    Settings.set (← byNumber id).settings "font" font
    Job.close window

/-! ### Saving -/

def keepColours (themes : Value) : List (String × String) → Except Fault Value
  | [] => .ok themes
  | (key, colour) :: rest => do
    let custom ← themes.require (.text "custom")
    let custom ← custom.assign key (.text colour)
    keepColours (← themes.assign "custom" custom) rest

/-- Take the custom colours over, if the custom theme is chosen and was opened. -/
def takeColours (id : Nat) : Job Unit := do
  let panel ← byNumber id
  match panel.colourCells with
  | none => pure ()
  | some cells =>
    if !panel.current.same (.text "custom") then return
    let colours ← cells.mapM fun (key, cell) => return (key, ← Job.cellText cell)
    let themes ← Job.attempt (keepColours (← panel.themes) colours)
    match panel.ownThemes with
    | some _ => update id fun p => { p with ownThemes := some themes }
    | none =>
      let data ← Job.attempt ((← Settings.byNumber panel.settings).data.assign "themes" themes)
      Settings.update panel.settings fun s => { s with data }

/-- Put the themes, the chosen one and the font into the settings, and close. -/
def save (id : Nat) : Job Unit := do
  takeColours id
  let panel ← byNumber id
  Settings.set panel.settings "themes" (← panel.themes)
  Settings.set panel.settings "current_theme" panel.current
  Settings.set panel.settings "font" panel.font
  Settings.emit panel.settings "config_updated" (.object [
    ("type", .text "theme"), ("theme", panel.current), ("font", panel.font)])
  Job.close panel.window

end ThemePanel

end ApkWorkshop
