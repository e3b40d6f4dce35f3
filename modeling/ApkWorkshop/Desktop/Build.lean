import ApkWorkshop.Settings.Windows
import ApkWorkshop.Tool.Catalogue

/-!
# Building the desktop

The window of the desktop holds the list of versions, the list of keys, a grid of buttons that are
bound to tools, the log, and the command line.
-/

namespace ApkWorkshop.Desktop

open Text

def putThemed (theme : ThemeColours) (parent : Nat) (text : Value) (command : Option Action) :
    Job Nat :=
  Job.put { kind := .button, parent := some parent, text, background := theme.lighter,
            foreground := theme.buttonText, command }

def putList (parent : Nat) : Job ChoiceList := do
  let cell ← Job.newCell (.text "")
  let choice ← Job.put { kind := .choice, parent := some parent, state := some "readonly",
                         cell := some cell }
  return { choice, cell }

def buildWidgets (id : Nat) : Job Unit := do
  let d ← byNumber id
  let theme := d.theme
  let top ← Job.putFrame d.window theme.background
  let versionRow ← Job.putFrame top theme.background
  let versionList ← putList versionRow
  let openButton ← putThemed theme versionRow (.text "📁") none
  let addButton ← putThemed theme versionRow (.text "➕") none
  let keyRow ← Job.putFrame top theme.background
  let keyList ← putList keyRow
  let keyBrowseButton ← putThemed theme keyRow (.text "📁") none
  let keyNewButton ← putThemed theme keyRow (.text "➕") none
  let _ ← putThemed theme keyRow (.text "Config") (some (.openDesktopSettings id))
  let _ ← putThemed theme keyRow (.text "🔄") (some (.reloadDesktop id))
  let buttonFrame ← Job.putFrame d.window theme.background
  let logFrame ← Job.putFrame d.window theme.background
  Job.putLabel logFrame "Log:" theme.background theme.text
  let log ← Job.put { kind := .area, parent := some logFrame, background := theme.lighter,
                      foreground := theme.scrollText }
  let gauge ← Job.put { kind := .gauge, parent := some d.window }
  let entry ← Job.put { kind := .field, parent := some d.window, background := theme.lighter,
                        foreground := theme.scrollText, onReturn := some (.enterCommand id) }
  update id fun d => { d with
    versionList := some versionList
    keyList := some keyList
    openButton
    addButton
    keyBrowseButton
    keyNewButton
    buttonFrame
    log := some log
    gauge
    entry }

/-! ### Tool buttons -/

/-- The first binding for a button. Every binding in front of it has to have a number. -/
def bindingFor (number : Nat) : List Value → Except Fault (Option Value)
  | [] => .ok none
  | binding :: rest => do
    let button ← binding.require (.text "button")
    if button.asWhole? = some (number : Int) then return some binding else bindingFor number rest

/-- Put up one button of the grid. A button without a tool is switched off. -/
def buildButton (id row number : Nat) (bindings : Value) : Job Unit := do
  let theme := (← byNumber id).theme
  let binding ← Job.attempt (do bindingFor number (← bindings.items))
  let tool ← match binding with
    | none => pure (.text "")
    | some binding => Job.attempt (binding.lookup "tool" (.text ""))
  let name ← match binding with
    | none => pure (.text "")
    | some binding => Job.attempt (binding.lookup "name" tool)
  if tool.isGiven then
    let place := (← byNumber id).buttons.length
    let button ← putThemed theme row name (some (.runBinding id place))
    update id fun d => { d with
      buttons := d.buttons ++ [{ tool, name }]
      buttonWidgets := d.buttonWidgets ++ [button] }
  else
    let button ← putThemed theme row (.text "") none
    Job.change button fun w => { w with state := some "disabled", background := theme.darker }
    update id fun d => { d with buttonWidgets := d.buttonWidgets ++ [button] }

def buildRow (id row : Nat) (bindings : Value) (first : Nat) : Nat → Job Unit
  | 0 => pure ()
  | count + 1 => do
    buildButton id row first bindings
    buildRow id row bindings (first + 1) count

def buildRows (id : Nat) (bindings columns : Value) (first : Nat) : Nat → Job Unit
  | 0 => pure ()
  | count + 1 => do
    let d ← byNumber id
    let row ← Job.putFrame d.buttonFrame d.theme.background
    let width ← Job.attempt columns.count
    buildRow id row bindings first width
    buildRows id bindings columns (first + width) count

def buildGrid (id : Nat) : Job Unit := do
  let settings := (← byNumber id).settings
  let bindings ← Settings.value settings "bindings" (.list [])
  let shape ← Settings.value settings "buttons_shape" (.list [.whole 2, .whole 4])
  let (rows, columns) ← Job.attempt shape.pair
  buildRows id bindings columns 1 (← Job.attempt rows.count)

/-! ### Tools -/

def bind (button : Nat) (action : Action) : Job Unit :=
  Job.change button fun w => { w with command := some action }

def connect (id versions keyStore : Nat) : Job Unit := do
  let d ← byNumber id
  Tool.Versions.showIn versions d.versionList
  Tool.KeyStore.showIn keyStore d.keyList
  bind d.openButton (.openVersionFolder versions)
  bind d.addButton (.addVersion versions)
  bind d.keyBrowseButton (.chooseKeyStore keyStore)
  bind d.keyNewButton (.offerKeyForms (← Tool.KeyStore.store keyStore).generator)
  buildGrid id

def makeTools (id : Nat) (file : String) : Job Unit := do
  let versions ← Tool.Versions.create file
  update id fun d => { d with versions := some versions }
  let keyStore ← Tool.KeyStore.create file
  update id fun d => { d with keyStore := some keyStore }
  Tool.setLog versions (.desktop id)
  Tool.setLog keyStore (.desktop id)
  Tool.listen versions "versions_updated" (.desktop id)
  Tool.listen versions "versions_refreshed" (.desktop id)
  Tool.listen versions "version_changed" (.desktop id)
  connect id versions keyStore

def create (file : String) : Job Nat := do
  let settings ← Settings.openFile file
  let theme ← Settings.palette settings
  let window ← Job.openMain
  let id := (← get).desktops.length
  modify fun w => { w with desktops := w.desktops ++ [{ settings, theme, window }] }
  Settings.listen settings "config_updated" (.desktop id)
  Job.change window fun w => { w with
    title := "DEMOTOOL GUI"
    background := theme.background
    geometry := "497x540+747+270"
    width := 497
    height := 540 }
  buildWidgets id
  makeTools id file
  return id

end ApkWorkshop.Desktop
