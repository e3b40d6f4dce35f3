import ApkWorkshop.Settings.EditorForm
import ApkWorkshop.Settings.Runtime
import ApkWorkshop.Theme.Panel

/-!
# The windows of the settings

One window leads to the parts of the settings: themes, paths, a reset, the file itself and the
advanced editor. The settings can also be a program of their own.
-/

namespace ApkWorkshop.Settings

open Text

def sections : List (String × Section) := [
  ("Themes", .themes),
  ("Paths", .paths),
  ("Reset to Defaults", .reset),
  ("Open Config", .file),
  ("Advanced", .advanced)]

def openSettings (id : Nat) : Job Unit := do
  let window ← Job.openWindow (some (← Job.mainWindow)) "Configuration"
  Job.resize window 150 220
  Job.change window fun w => { w with geometry := w.geometry ++ Display.centre 150 220 }
  let colours ← palette id
  Job.paint window colours.background
  let frame ← Job.putFrame window colours.background
  sections.forM fun (name, part) =>
    Job.putButton frame name colours.lighter colours.buttonText (.openSection id window part)

/-! ### Paths -/

def putPathRow (id frame : Nat) (colours : ThemeColours) (program : Program) : Job Unit := do
  let row ← Job.putFrame frame colours.background
  Job.putLabel row program.name colours.background colours.text
  let cell ← Job.newCell (← value id program.key (.text "Not assigned"))
  let _ ← Job.putField row cell colours.lighter colours.text
  update id fun s => { s with pathCells := s.pathCells.map (· ++ [(program.key, cell)]) }
  Job.putButton row "Browse" colours.lighter colours.buttonText
    (if program.location.isNone then .browseFolder cell else .browseProgram program.key cell)

def openPaths (id : Nat) : Job Unit := do
  let window ← Job.openWindow (some (← Job.mainWindow)) "Tools paths"
  Job.resize window 500 400
  Job.moveToCentre window
  let colours ← palette id
  Job.paint window colours.background
  let frame ← Job.putFrame window colours.background
  update id fun s => { s with pathCells := some [] }
  programs.forM (putPathRow id frame colours)
  let buttons ← Job.putFrame frame colours.background
  Job.putButton buttons "Auto\nDetect" colours.lighter colours.buttonText (.repairPaths id window)
  Job.putButton buttons "Fix\nJDK" colours.lighter colours.buttonText (.repairRuntime id)
  Job.putButton buttons "Save" colours.lighter colours.buttonText (.savePaths id window)

/-- Check the paths; a window for them is closed and opened anew after a search. -/
def repairPathsFrom (id : Nat) (window : Option Nat) : Job Bool :=
  repairPaths id <|
    match window with
    | none => pure ()
    | some window => do
      Job.close window
      openPaths id

def browseFolder (cell : Nat) : Job Unit := do
  let path ← Job.chooseFolder versionsFolder.description
  if path ≠ "" then ThemePanel.enter cell path

def browseProgram (key : String) (cell : Nat) : Job Unit := do
  let description := match programs.find? (·.key == key) with
    | some program => program.description
    | none => "Select " ++ key ++ " file"
  let path ← Job.chooseFile description
  if path ≠ "" then ThemePanel.enter cell path

/-- Take the paths over and close the window. Before the window for paths was ever opened there is
nothing to take over. -/
def savePaths (id window : Nat) : Job Unit := do
  match (← byNumber id).pathCells with
  | none => throw (.noOperation "settings" "entries")
  | some cells => cells.forM fun (key, cell) => do set id key (.text (← Job.cellText cell))
  showInfo "Paths updated successfully"
  emit id "config_updated" (.object [("type", .text "paths")])
  Job.close window

/-! ### Other parts -/

def openThemes (id : Nat) : Job Unit := do
  let window ← Job.openWindow (some (← Job.mainWindow)) "Themes Configuration"
  Job.resize window 250 200
  Job.moveToCentre window
  let themes := (← byNumber id).data.get? "themes"
  let _ ← value id "themes" (.object [])
  let current ← value id "current_theme" (.text "light")
  let font ← value id "font" (.object [("family", .text "Arial"), ("size", .whole 10)])
  let own := if themes.isNone then some (.object []) else none
  ThemePanel.create id window own current font

def resetKeys : List String := [
  "versions_dir", "java", "apktool", "apksigner", "zipalign", "corona-archiver", "unluac",
  "last_version", "last_keystore", "last_keystore_password", "last_alias", "luac"]

/-- The settings after a reset: the next start is a first one, and the paths and what was chosen
last are empty. -/
def resetData (data : Value) : Except Fault Value := do
  let data ← data.assign "initial_start" (.truth true)
  resetKeys.foldlM (fun data key => data.assign key (.text "")) data

def askReset : Job Bool :=
  Job.ask "Reset Configuration"
    ("All current configuration will be lost and reset to default values.\n\n"
      ++ "This action cannot be undone!\n\n"
      ++ "Do you want to continue?")

def reset (id : Nat) : Job Bool := do
  if !(← askReset) then return false
  let data ← Job.attempt (resetData (← byNumber id).data)
  update id fun s => { s with data }
  save id
  emit id "config_updated" (.object [("type", .text "partial_reset")])
  showInfo "Selected configuration fields have been reset."
  return true

/-- Show the file of the settings in an editor, which only one operating system has. -/
def openInEditor (id : Nat) : Job Unit :=
  Job.inBackground <| shown.orElse fun fault =>
    showError ("Failed to open config: " ++ fault.message)
where
  shown : Job Unit := do
    let file := (← byNumber id).file
    if !(← Job.standsAt file) then
      showInfo "Config file not found"
      return
    if (← get).platform ≠ .windows then throw .noConsoleWindows
    let _ ← Job.start ["cmd", "/c", "start", "", "notepad", file]

def openAdvanced (id : Nat) : Job Unit := do
  Editor.openWindow (← Editor.create id)

def openSection (id : Nat) : Section → Job Value
  | .themes => do
    openThemes id
    return .null
  | .paths => do
    openPaths id
    return .null
  | .reset => return .truth (← reset id)
  | .file => do
    openInEditor id
    return .null
  | .advanced => do
    openAdvanced id
    return .null

/-! ### The settings as a program -/

def fillAlone (id window : Nat) : Job Unit := do
  let colours ← palette id
  Job.paint window colours.background
  Job.resize window 300 200
  Job.moveToCentre window
  let frame ← Job.putFrame window colours.background
  Job.putLabel frame "Configuration Manager" colours.background colours.text
  Job.putButton frame "Config" colours.lighter colours.buttonText (.openSettings id)
  Job.putButton frame "Exit" colours.lighter colours.buttonText (.close window)
  Job.putLabel frame "Standalone mode" colours.background colours.text

def runAlone (id : Nat) : Job Unit := do
  let window ← Job.mainWindow
  Job.change window fun w => { w with title := "Config Manager - Standalone" }
  fillAlone id window

def startAlone : Job Unit := do
  Job.say "Starting ConfigManager as standalone application..."
  runAlone (← openFile "config.json")

end ApkWorkshop.Settings
