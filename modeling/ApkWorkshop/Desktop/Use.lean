import ApkWorkshop.Desktop.Build

/-!
# Using the desktop

What the buttons, the lists and the command line of the desktop do.
-/

namespace ApkWorkshop.Desktop

open Text

/-- Start the tool that a button is bound to. A new tool is made for every start. -/
def runBinding (id button : Nat) : Job Unit := do
  match (← byNumber id).buttons[button]? with
  | none => pure ()
  | some bound =>
    (started bound).orElse fun fault =>
      write id ("❌ Error initializing " ++ bound.name.plain ++ ": " ++ fault.message)
where
  /-- The start itself. -/
  started (bound : ToolButton) : Job Unit := do
    let file := (← Settings.byNumber (← byNumber id).settings).file
    let tool ← Tool.createBound bound.tool file
    Tool.setLog tool (.desktop id)
    Tool.setProgress tool (.desktop id)
    Tool.run tool

def versionSelected (id : Nat) : Job Unit := do
  let d ← byNumber id
  match d.versionList, d.versions with
  | some list, some versions =>
    let chosen ← Job.cellText list.cell
    if chosen ≠ "" then Tool.Versions.select versions (.text chosen)
  | _, _ => pure ()

def aliasSelected (id : Nat) : Job Unit := do
  let d ← byNumber id
  match d.keyList, d.keyStore with
  | some list, some keyStore =>
    let chosen ← Job.cellText list.cell
    if chosen ≠ "" then Tool.KeyStore.selectAlias keyStore (.text chosen)
  | _, _ => pure ()

def reload (id : Nat) : Job Unit :=
  Job.onDisplay (·.schedule (.rebuildDesktop id))

def rebuild (id : Nat) : Job Unit := do
  write id "🔄 Reloading GUI..."
  let d ← byNumber id
  Job.close d.window
  let _ ← create (← Settings.byNumber d.settings).file

/-! ### The command line -/

def helpLines : List String := [
  "  'help' or '?' - show help",
  "  'clear' or 'cls' - clear log",
  "  'theme' - open theme config",
  "  'reset' - reset config",
  "  'utf8' or 'utf8 xx x' - decode UTF-8"]

def clearLog (id : Nat) : Job Unit := do
  match (← byNumber id).log with
  | some area => Job.change area fun w => { w with state := some "normal", content := "" }
  | none => pure ()

def decodeFiles (id : Nat) (arguments : String) : Job Unit := do
  let tool ← Tool.Decoder.create "config.json" .luaToUtf8
  Tool.setLog tool (.desktop id)
  Tool.Decoder.command tool arguments

def execute (id : Nat) (command arguments : String) : Job Unit := do
  match command with
  | "clear" | "cls" => clearLog id
  | "help" | "?" => helpLines.forM (write id)
  | "theme" => throw (.badCall
      "ConfigManager.open_themes_window() takes 1 positional argument but 2 were given")
  | "reset" =>
    let _ ← Settings.reset (← byNumber id).settings
    write id "✅ Configuration has been reset to default values"
  | "utf8" => decodeFiles id arguments
  | unknown =>
    write id ("Unknown command: " ++ unknown)
    write id "Enter 'help' to get list of available commands"

def enterCommand (id : Nat) : Job Unit := do
  let entry := (← byNumber id).entry
  let typed := (((← Job.display).widget? entry).map (·.content)).getD ""
  let line := lower (strip typed)
  match words line with
  | [] => pure ()
  | command :: arguments =>
    write id ("> " ++ line)
    execute id command (joinWith " " arguments)
    Job.change entry fun w => { w with content := "" }

end ApkWorkshop.Desktop
