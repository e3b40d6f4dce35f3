import ApkWorkshop.Desktop.Use

/-!
# Carrying out actions

Every action that a widget or a timer holds is carried out here, together with the hands of the
person at the screen: pressing, typing, and letting scheduled work run.
-/

namespace ApkWorkshop

open Text

def Job.silently (job : Job Unit) : Job Value := do
  job
  return .null

def Action.perform : Action → Job Value
  | .close window => (Job.close window).silently
  | .openSettings settings => (Settings.openSettings settings).silently
  | .openSection settings window part => do
    Job.close window
    return .list [.null, ← Settings.openSection settings part]
  | .browseFolder cell => (Settings.browseFolder cell).silently
  | .browseProgram program cell => (Settings.browseProgram program cell).silently
  | .repairPaths settings window => do
    return .truth (← Settings.repairPathsFrom settings (some window))
  | .repairRuntime settings => return .truth (← Settings.repairRuntime settings)
  | .savePaths settings window => (Settings.savePaths settings window).silently
  | .selectTheme panel name => (ThemePanel.select panel name).silently
  | .customiseTheme panel => (ThemePanel.customise panel).silently
  | .changeFont panel => (ThemePanel.changeFont panel).silently
  | .saveTheme panel => (ThemePanel.save panel).silently
  | .pickColour cell key => (ThemePanel.pickColour cell key).silently
  | .applyFont panel family size window =>
    (ThemePanel.applyFont panel family size window).silently
  | .saveEditor editor => do
    Editor.save editor (← Editor.byNumber editor).window
    return .null
  | .showKeyForm tool window adding => (Tool.KeyForms.showForm tool window adding).silently
  | .browseKeyStore cell => (Tool.KeyForms.browse cell).silently
  | .showPassword field cell => (Tool.KeyForms.showPassword field cell).silently
  | .submitKeyForm tool form adding => (Tool.KeyForms.submit tool form adding).silently
  | .confirmPassword dialog => (Tool.KeyStore.confirmPassword dialog).silently
  | .openVersionFolder tool => (Tool.Versions.openFolder tool).silently
  | .addVersion tool => (Tool.Versions.run tool).silently
  | .chooseKeyStore tool => (Tool.KeyStore.run tool).silently
  | .offerKeyForms tool => (Tool.KeyForms.run tool).silently
  | .openDesktopSettings desktop => do
    Settings.openSettings (← Desktop.byNumber desktop).settings
    return .null
  | .reloadDesktop desktop => (Desktop.reload desktop).silently
  | .rebuildDesktop desktop => (Desktop.rebuild desktop).silently
  | .runBinding desktop button => (Desktop.runBinding desktop button).silently
  | .enterCommand desktop => (Desktop.enterCommand desktop).silently

namespace Display

/-- The button with a text in the newest window, or in the newest one with a title; of several
buttons, the one at a place. -/
def findButton? (d : Display) (text : String) (place : Nat) (title : Option String) :
    Option Nat := do
  let window ← d.newest? title
  (d.select window fun w => w.kind.isButton && w.text.same (.text text))[place]?

/-- The input field at a place of the newest window, or of the newest one with a title. -/
def findInput? (d : Display) (place : Nat) (title : Option String) : Option Nat := do
  let window ← d.newest? title
  (d.select window (·.kind.isInput))[place]?

end Display

/-- Press a button. A check button switches first; a button that is switched off does nothing. -/
def pressButton (id : Nat) : Job Value := do
  match (← Job.display).widget? id with
  | none => return .null
  | some w =>
    if w.state = some "disabled" then return .null
    Tool.KeyStore.toggle w
    match w.command with
    | some action => action.perform
    | none => return .null

def typeInto (id : Nat) (text : String) : Job Unit := do
  match (← Job.display).widget? id with
  | none => pure ()
  | some w =>
    match w.cell with
    | some cell => ThemePanel.enter cell text
    | none => Job.change id fun w => { w with content := text }

/-- Press a key together with the control key in an input field. Only the key that takes back what
was typed does anything, and only where there is something to take back. -/
def pressControlKey (id : Nat) (code : Int) : Job Value := do
  match (← Job.display).widget? id with
  | none => return .null
  | some w =>
    if code = 90 && w.undoes && w.content ≠ "" then
      Job.change id fun w => { w with content := "" }
      return .text "break"
    else return .null

def runScheduled : Job Nat := do
  let pending := (← Job.display).pending
  Job.onDisplay fun d => { d with pending := [] }
  pending.forM fun action => do let _ ← action.perform
  return pending.length

end ApkWorkshop
