import ApkWorkshop.Theme.Panel
import ApkWorkshop.Tool.Base
import ApkWorkshop.Tool.DistinguishedName

/-!
# Making keys

Forms for a new key store and for a further key in an existing one. What is typed is checked and
handed to the key program of the Java runtime.
-/

namespace ApkWorkshop.Tool.KeyForms

open Text

def create (file : String) : Job Nat := do
  let id ← Tool.create file (.generator .null)
  setPart id (.generator (← setting id "java" .null))
  return id

def java (id : Nat) : Job Value := do
  match (← byNumber id).part with
  | .generator java => return java
  | _ => return .null

def keyProgramBeside? (files : Files) (java : String) : Option String :=
  (["keytool.exe", "keytool"].map (Path.join (Path.folder java))).find? files.exists?

/-- The key program beside a Java program, or the one that is found by name. -/
def keyProgram (java : Value) : Job (Option String) := do
  match keyProgramBeside? (← Job.files) (← Job.attempt java.path) with
  | some path => return some path
  | none => Job.findProgram "keytool"

/-! ### The forms -/

def putNamedField (theme : ThemeColours) (frame : Nat) (name : String) (cell : Nat)
    (mask : String) : Job Nat := do
  Job.putLabel frame name theme.background theme.text
  Job.put { kind := .field, parent := some frame, background := theme.lighter,
            foreground := theme.text, cell := some cell, mask }

def showModes (id : Nat) : Job Unit := do
  let theme := (← byNumber id).theme
  let window ← Job.openFreeWindow "Keystore Manager"
  Job.resize window 300 150
  Job.paint window theme.background
  Job.putLabel window "Select operation:" theme.background theme.text
  let buttons ← Job.putFrame window theme.background
  Job.putButton buttons "New Keystore" theme.lighter theme.buttonText (.showKeyForm id window false)
  Job.putButton buttons "Add Key" theme.lighter theme.buttonText (.showKeyForm id window true)
  Job.putButton window "Cancel" theme.lighter theme.buttonText (.close window)

def newForm (window : Nat) : Job KeyForm := do
  return {
    window
    fileName := ← Job.newCell (.text "myapp.keystore")
    storePath := ← Job.newCell (.text "")
    keyName := ← Job.newCell (.text "release-key")
    password := ← Job.newCell (.text "123456")
    commonName := ← Job.newCell (.text "My App")
    unit := ← Job.newCell (.text "Android Development")
    organisation := ← Job.newCell (.text "My Company")
    locality := ← Job.newCell (.text "City")
    state := ← Job.newCell (.text "City")
    country := ← Job.newCell (.text "EU") }

def showForm (id parent : Nat) (adding : Bool) : Job Unit := do
  Job.close parent
  let theme := (← byNumber id).theme
  let window ← Job.openFreeWindow (if adding then "Add Key to Keystore" else "Generate Keystore")
  if adding then Job.resize window 500 400 else Job.resize window 400 500
  Job.paint window theme.background
  let form ← newForm window
  let shown ← Job.newSwitch false
  let frame ← Job.putFrame window theme.background
  if adding then
    Job.putLabel frame "Keystore file:" theme.background theme.text
    let row ← Job.putFrame frame theme.background
    let _ ← Job.putField row form.storePath theme.lighter theme.text
    Job.putButton row "..." theme.lighter theme.buttonText (.browseKeyStore form.storePath)
  else
    let _ ← putNamedField theme frame "Filename*:" form.fileName ""
  let switch ← Job.put { kind := .checkButton, parent := some frame,
                         text := .text "Show password", background := theme.background,
                         foreground := theme.text, cell := some shown }
  let _ ← putNamedField theme frame "Alias*:" form.keyName ""
  let password ← putNamedField theme frame "Password*:" form.password "*"
  Job.change switch fun w => { w with command := some (.showPassword password shown) }
  let _ ← putNamedField theme frame "Common Name (CN)*:" form.commonName ""
  let _ ← putNamedField theme frame "Organization (O)*:" form.organisation ""
  let _ ← putNamedField theme frame "Organizational Unit (OU):" form.unit ""
  let _ ← putNamedField theme frame "City (L)*:" form.locality ""
  let _ ← putNamedField theme frame "State (ST)*:" form.state ""
  let _ ← putNamedField theme frame "Country Code (C)*:" form.country ""
  let buttons ← Job.putFrame frame theme.background
  Job.putButton buttons (if adding then "Add Key" else "Generate") theme.lighter theme.buttonText
    (.submitKeyForm id form adding)
  Job.putButton buttons "Cancel" theme.lighter theme.buttonText (.close window)

def browse (cell : Nat) : Job Unit := do
  let path ← Job.chooseFile "Select Keystore file"
  if path ≠ "" then ThemePanel.enter cell path

def showPassword (field cell : Nat) : Job Unit := do
  let mask := if ← Job.cellIsOn cell then "" else "*"
  Job.change field fun w => { w with mask }

def run (id : Nat) : Job Unit := do
  if !(← java id).isGiven then throw (.notConfigured "Java path not configured")
  Job.inBackground (showModes id)

/-! ### Making the key -/

/-- What was typed into a form, without the blanks around each text. -/
structure Typed where
  fileName : String
  storePath : String
  keyName : String
  password : String
  name : DistinguishedName

def read (form : KeyForm) : Job Typed := do
  return {
    fileName := ← Job.cellStripped form.fileName
    storePath := ← Job.cellStripped form.storePath
    keyName := ← Job.cellStripped form.keyName
    password := ← Job.cellStripped form.password
    name := {
      commonName := ← Job.cellStripped form.commonName
      unit := ← Job.cellStripped form.unit
      organisation := ← Job.cellStripped form.organisation
      locality := ← Job.cellStripped form.locality
      state := ← Job.cellStripped form.state
      country := ← Job.cellStripped form.country } }

def Typed.required (t : Typed) : List (String × String) := [
  ("alias", t.keyName),
  ("password", t.password),
  ("cn", t.name.commonName),
  ("o", t.name.organisation),
  ("l", t.name.locality),
  ("st", t.name.state),
  ("c", t.name.country)]

/-- Check what was typed: no field may be blank, and a key store that has to exist must be there.
A form without a field for the store cannot say where it is. -/
def validate (mustExist : Bool) (fields : List (String × String)) : Job Bool := do
  if fields.any fun (_, s) => strip s = "" then
    Job.showBox (.error "Error" "Please fill all required fields (*)")
    return false
  if !mustExist then return true
  match fields.lookup "keystore_path" with
  | none => throw (.noMember (.text "keystore_path"))
  | some path =>
    if ← Job.standsAt path then return true
    Job.showBox (.error "Error" "Keystore file not found")
    return false

def keyCommand (program : Option String) (store : String) (t : Typed) : List Value :=
  (match program with
    | some path => .text path
    | none => .null) ::
  ["-genkeypair", "-keystore", store, "-alias", t.keyName, "-keyalg", "RSA", "-keysize", "2048",
    "-validity", "10000", "-storepass", t.password, "-keypass", t.password, "-dname",
    t.name.text].map .text

def firstFilled (texts : List String) : String :=
  (texts.find? (· ≠ "")).getD ""

/-- Run the key program and say how it went. The form is closed if a key was made. -/
def execute (id : Nat) (command : List Value) (success context : String) (window : Nat) :
    Job Unit :=
  attempted.orElse fun fault => do
    match fault with
    | .processTimedOut _ _ =>
      say id ("❌ " ++ context ++ " timeout")
      Job.showBox (.error "Error" (context ++ " timeout (120 seconds)"))
    | fault =>
      say id ("❌ " ++ context ++ " error: " ++ fault.message)
      Job.showBox (.error "Error" (context ++ " error:\n" ++ fault.message))
where
  attempted : Job Unit := do
    match ← keyProgram (← java id) with
    | none | some "" => throw (.notConfigured "keytool not found")
    | some _ =>
      let words ← Job.attempt (Value.textsFrom 0 command)
      say id ("🔄 Command: " ++ joinWith " " words)
      let outcome ← Job.complete words (some 120)
      if outcome.code = 0 then
        say id ("✅ " ++ success)
        Job.showBox (.info "Success" success)
        Job.close window
      else
        let trouble := if outcome.errors ≠ "" then strip outcome.errors
          else firstFilled [strip outcome.output, "Unknown error"]
        say id ("❌ " ++ context ++ ": " ++ trouble)
        Job.showBox (.error "Error" (context ++ ":\n" ++ trouble))

/-- Put a further key into a key store. The store is looked for only if it has to exist. -/
def addKey (id : Nat) (form : KeyForm) (mustExist : Bool) : Job Unit := do
  let t ← read form
  if !(← validate mustExist (("keystore_path", t.storePath) :: t.required)) then return
  say id ("🔑 Adding key to keystore: " ++ Path.name t.storePath)
  say id ("📍  Alias: " ++ t.keyName)
  let program ← keyProgram (← java id)
  execute id (keyCommand program t.storePath t) ("Key '" ++ t.keyName ++ "' added successfully!")
    "Key addition failed" form.window

def generate (id : Nat) (form : KeyForm) (mustExist : Bool) : Job Unit := do
  let t ← read form
  if !(← validate mustExist (("filename", t.fileName) :: t.required)) then return
  let file := if endsLike ".keystore" t.fileName then t.fileName else t.fileName ++ ".keystore"
  let store := Path.join (← get).programFolder file
  if ← Job.standsAt store then
    let wanted ← Job.ask "File exists"
      ("File " ++ Path.name store ++ " already exists. Overwrite?")
    if !wanted then return
  say id ("🔑 Generating keystore: " ++ Path.name store)
  let program ← keyProgram (← java id)
  execute id (keyCommand program store t)
    ("Keystore generated successfully!\nFile: " ++ Path.name store)
    "Keystore generation failed" form.window

def submit (id : Nat) (form : KeyForm) (adding : Bool) : Job Unit :=
  if adding then addKey id form true else generate id form false

end ApkWorkshop.Tool.KeyForms
