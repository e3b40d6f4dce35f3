import ApkWorkshop.Desktop.Log
import ApkWorkshop.Document.Writer
import ApkWorkshop.Theme.Palette

/-!
# Stored settings

Settings are a document in a file. A file that is not there stands for an empty object; a file that
cannot be read does so too, after a message. Every change is written to the file at once.
-/

namespace ApkWorkshop

open Text

namespace Settings

def load (files : Files) (file : String) : Except Fault Value :=
  if files.exists? file then
    match files.read file with
    | .error fault => .error (.file fault)
    | .ok bytes =>
      match decodeChars bytes with
      | .error fault => .error (.badText fault)
      | .ok cs =>
        match Document.readChars (unifyNewlines cs) with
        | .error fault => .error (.document fault)
        | .ok v => .ok v
  else .ok (.object [])

def store (files : Files) (s : Settings) : Except FileFault Files :=
  files.write s.file (encode (s.data.document 4))

/-! ### Settings in use -/

def byNumber (id : Nat) : Job Settings := do
  match (← get).settings[id]? with
  | some s => return s
  | none => return { file := "", data := .null }

def update (id : Nat) (f : Settings → Settings) : Job Unit :=
  modify fun w => { w with settings := w.settings.modify id f }

def showError (message : String) : Job Unit := do
  let _ ← Job.mainWindow
  Job.showBox (.error "Config error" message)

def showInfo (message : String) : Job Unit := do
  let _ ← Job.mainWindow
  Job.showBox (.info "Config" message)

/-- The document in a file; a file that cannot be read stands for an empty object. -/
def read (file : String) : Job Value := do
  match load (← Job.files) file with
  | .ok data => return data
  | .error fault =>
    showError ("Failed to load config: " ++ fault.message)
    return .object []

def openFile (file : String) : Job Nat := do
  let data ← read file
  let id := (← get).settings.length
  modify fun w => { w with settings := w.settings ++ [{ file, data }] }
  return id

def save (id : Nat) : Job Unit := do
  match store (← Job.files) (← byNumber id) with
  | .ok files => modify fun w => { w with files }
  | .error fault => showError ("Failed to save config: " ++ fault.message)

def value (id : Nat) (key : String) (usual : Value) : Job Value := do
  Job.attempt ((← byNumber id).data.lookup key usual)

def set (id : Nat) (key : String) (v : Value) : Job Unit := do
  let data ← Job.attempt ((← byNumber id).data.assign key v)
  update id fun s => { s with data }
  save id

def palette (id : Nat) : Job ThemeColours := do
  Job.attempt (Theme.palette (← byNumber id).data)

def say (line : String) : Job Unit :=
  Job.say ("[ConfigManager] " ++ line)

/-! ### Events -/

def listen (id : Nat) (event : String) (handler : Handler) : Job Unit :=
  update id fun s => { s with handlers := s.handlers ++ [(event, handler)] }

def tell (data : Value) : Handler → Job Unit
  | .recorder name failure => recordEvent name failure data
  | .desktop desktop => Desktop.settingsChanged desktop data

/-- Tell all handlers about an event. One that fails does not keep the others from hearing it. -/
def emit (id : Nat) (event : String) (data : Value) : Job Unit := do
  let handlers := (← byNumber id).handlers.filter fun (name, _) => name == event
  handlers.forM fun (_, handler) =>
    (tell data handler).orElse fun fault =>
      Job.say ("Error in event listener: " ++ fault.message)

end Settings

end ApkWorkshop
