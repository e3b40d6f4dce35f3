import ApkWorkshop.Tool.KeyForms

/-!
# The key store

One key store is in use, with its password and one of its keys. The keys are listed by the key
program of the Java runtime.
-/

namespace ApkWorkshop.Tool.KeyStore

open Text

/-- What is known about the key store in use. -/
structure Store where
  generator : Nat := 0
  path : Value := .null
  password : Value := .null
  keyName : Value := .null
  list : Option ChoiceList := none

def store (id : Nat) : Job Store := do
  match (← byNumber id).part with
  | .keyStore generator path password keyName list =>
    return ⟨generator, path, password, keyName, list⟩
  | _ => return {}

def change (id : Nat) (f : Store → Store) : Job Unit := do
  let s := f (← store id)
  setPart id (.keyStore s.generator s.path s.password s.keyName s.list)

def load (id : Nat) : Job Unit := do
  let path ← setting id "last_keystore" .null
  change id fun s => { s with path }
  let password ← setting id "last_keystore_password" .null
  change id fun s => { s with password }
  let keyName ← setting id "last_alias" .null
  change id fun s => { s with keyName }
  say id ("📋 Loaded from config - Keystore: " ++ path.plain ++ ", Alias: " ++ keyName.plain)

def create (file : String) : Job Nat := do
  let id ← Tool.create file (.keyStore 0 .null .null .null none)
  let generator ← KeyForms.create file
  change id fun s => { s with generator }
  load id
  return id

def setLog (id : Nat) (sink : Sink) : Job Unit := do
  update id fun t => { t with log := sink }
  update (← store id).generator fun t => { t with log := sink }

def keyProgram (id : Nat) : Job (Option String) := do
  let java ← setting id "java" .null
  if java.isGiven then KeyForms.keyProgram java else Job.findProgram "keytool"

def wordOf : Option String → Value
  | some path => .text path
  | none => .null

def listCommand (program : Option String) (path password : Value) : List Value :=
  [wordOf program, .text "-list", .text "-keystore", path, .text "-storepass", password]

def verify (id : Nat) (path password : Value) : Job Bool :=
  attempted.orElse fun _ => return false
where
  attempted : Job Bool := do
    match ← keyProgram id with
    | none | some "" => return false
    | program =>
      let outcome ← Job.run (listCommand program path password) (some 30)
      return outcome.code = 0

def beforeComma (s : String) : String :=
  strip (String.ofList (s.toList.takeWhile (· ≠ ',')))

def aliasOfLine? (line : String) : Option String :=
  let line := strip line
  let heading := ["Keystore", "Your keystore", "Certificate"].any (Path.startsWith line)
  if line.toList.contains ',' && !heading then
    let keyName := beforeComma line
    if keyName = "" then none else some keyName
  else none

def aliasesOf (listing : String) : List String :=
  (listing.splitOn "\n").filterMap aliasOfLine?

def aliases (id : Nat) : Job (List String) := do
  let s ← store id
  if !s.path.isGiven || !s.password.isGiven then return []
  (attempted s).orElse fun _ => return []
where
  /-- The attempt itself. -/
  attempted (s : Store) : Job (List String) := do
    let program ← keyProgram id
    let outcome ← Job.run (listCommand program s.path s.password) (some 30)
    return if outcome.code = 0 then aliasesOf outcome.output else []

def holdsText (texts : List String) : Value → Bool
  | .text s => texts.contains s
  | _ => false

def refreshList (id : Nat) : Job Unit := do
  match (← store id).list with
  | none => pure ()
  | some list =>
    let found ← aliases id
    Job.setChoices list.choice (found.map .text)
    let current ← setting id "last_alias" (.text "")
    if current.isGiven && holdsText found current then ThemePanel.enter list.cell current.fieldText
    else
      match found with
      | first :: _ =>
        ThemePanel.enter list.cell first
        setSetting id "last_alias" (.text first)
        change id fun s => { s with keyName := .text first }
      | [] => ThemePanel.enter list.cell ""

def showIn (id : Nat) (list : Option ChoiceList) : Job Unit := do
  change id fun s => { s with list }
  refreshList id

def selectAlias (id : Nat) (selected : Value) : Job Unit := do
  if !selected.isGiven then return
  match selected with
  | .text s =>
    let keyName := beforeComma s
    change id fun s => { s with keyName := .text keyName }
    setSetting id "last_alias" (.text keyName)
    say id ("🔑 Selected alias: " ++ keyName)
  | v => throw (.noOperation v.kind "split")

/-! ### The password -/

def dialog (id : Nat) : Job PasswordDialog := do
  match (← get).dialogs[id]? with
  | some dialog => return dialog
  | none => return { window := 0, password := 0, save := 0 }

/-- Take the password of a dialog, which must not be empty, and close the dialog. -/
def confirmPassword (id : Nat) : Job Unit := do
  let d ← dialog id
  let password ← Job.cellStripped d.password
  if password = "" then
    Job.showBox (.error "Error" "Password cannot be empty")
  else
    let save ← Job.cellIsOn d.save
    modify fun w => { w with
      dialogs := w.dialogs.modify id fun d => { d with result := some (password, save) } }
    Job.close d.window

def openDialog (id : Nat) (name : String) : Job Nat := do
  let theme := (← byNumber id).theme
  let window ← Job.openFreeWindow "Keystore Password"
  Job.resize window 300 150
  Job.paint window theme.background
  Job.putLabel window ("Password for " ++ name ++ ":") theme.background theme.text
  let number := (← get).dialogs.length
  let password ← Job.newCell (.text "")
  let _ ← Job.put { kind := .field, parent := some window, background := theme.lighter,
                    foreground := theme.text, cell := some password, mask := "*",
                    onReturn := some (.confirmPassword number) }
  let save ← Job.newSwitch true
  let _ ← Job.put { kind := .checkButton, parent := some window, text := .text "Save password",
                    background := theme.background, foreground := theme.text, cell := some save }
  modify fun w => { w with dialogs := w.dialogs ++ [{ window, password, save }] }
  let buttons ← Job.putFrame window theme.background
  Job.putButton buttons "OK" theme.lighter theme.buttonText (.confirmPassword number)
  Job.putButton buttons "Cancel" theme.lighter theme.buttonText (.close window)
  return number

def toggle (w : Widget) : Job Unit :=
  match w.kind, w.cell with
  | .checkButton, some cell =>
    Job.onDisplay fun d => d.setCell cell (.truth (!(d.cell cell).isGiven))
  | _, _ => pure ()

def dialogCommand : Option Action → Job Unit
  | some (.confirmPassword number) => confirmPassword number
  | some (.close window) => Job.close window
  | _ => pure ()

def makeMove (window : Nat) : DialogMove → Job Unit
  | .type field text => do
    let d ← Job.display
    match ((d.select window (·.kind.isInput))[field]?).bind d.widget? |>.bind (·.cell) with
    | some cell => Job.setCell cell text
    | none => pure ()
  | .press text => do
    let d ← Job.display
    let buttons := d.select window fun w => w.kind.isButton && w.text.same (.text text)
    match buttons.head?.bind d.widget? with
    | some w =>
      toggle w
      dialogCommand w.command
    | none => pure ()
  | .confirm => do
    let d ← Job.display
    match (d.select window (·.kind.isInput)).head?.bind d.widget? with
    | some w => dialogCommand w.onReturn
    | none => pure ()

def askPassword (id : Nat) (name : String) : Job (Option (String × Bool)) := do
  let number ← openDialog id name
  let d ← dialog number
  match (← get).outside.dialogs with
  | [] => pure ()
  | moves :: rest =>
    modify fun w => { w with outside := { w.outside with dialogs := rest } }
    moves.forM (makeMove d.window)
  return (← dialog number).result

/-! ### Choosing a key store -/

def announce (id : Nat) : Job Unit :=
  told.orElse fun fault => say id ("⚠️ Refresh notification failed: " ++ fault.message)
where
  told : Job Unit := do
    say id "🔄 Keystore updated - refreshing tools..."
    say id "KEYSTORE_UPDATED"

def accept (id : Nat) (path password : String) (save : Bool) : Job Unit := do
  change id fun s => { s with path := .text path, password := .text password }
  setSetting id "last_keystore" (.text path)
  if save then
    setSetting id "last_keystore_password" (.text password)
    say id "✅ Keystore data saved to config"
  else
    setSetting id "last_keystore_password" (.text "")
    say id "✅ Keystore loaded (password not saved)"
  match ← aliases id with
  | first :: _ =>
    setSetting id "last_alias" (.text first)
    change id fun s => { s with keyName := .text first }
    say id ("🔑 Auto-selected alias: " ++ first)
  | [] =>
    setSetting id "last_alias" (.text "")
    change id fun s => { s with keyName := .null }
    say id "⚠️ No aliases found in keystore"

def run (id : Nat) : Job Unit := do
  let path ← Job.chooseFile "Select Keystore file"
  if path = "" then
    say id "❌ Keystore selection cancelled"
    return
  let name := Path.name path
  match ← askPassword id name with
  | none => pure ()
  | some (password, save) =>
    if ← verify id (.text path) (.text password) then
      accept id path password save
      say id ("✅ Keystore verified: " ++ name)
      refreshList id
      announce id
    else
      Job.showBox (.error "Error" "Invalid keystore password")
      say id "❌ Invalid keystore password"

def message (id : Nat) : Job String := do
  let path := (← store id).path
  if path.isGiven then return "Keystore: " ++ Path.name (← Job.attempt path.path)
  return "No keystore selected"

end ApkWorkshop.Tool.KeyStore
