import ApkWorkshop.Settings.Store
import ApkWorkshop.Update.Encoding

/-!
# Updates

The newest version and its files are announced under an address. If the version differs from the
one in the settings, the files can be fetched; each is moved to its place when it has arrived, and
the new version is entered into the settings.
-/

namespace ApkWorkshop.Update

open Text

def address : String := "https://raw.githubusercontent.com/Swokster/drAPK/master/"

/-- A network in which some files are published below the address. -/
def published (files : List (String × List UInt8)) (url : String) :
    Except String (List UInt8) :=
  match files.find? fun file => address ++ file.1 == url with
  | some (_, bytes) => .ok bytes
  | none => .error "<urlopen error not found>"

/-- The path of the folder for files that arrive. -/
def temporaryFolder (room : List String) : String := Path.joinAll "/" room

def noVersion : Value := .text "0.0.0"

def versionIn (files : Files) (file : String) : Value :=
  match Settings.load files file with
  | .ok data => (data.lookup "version" noVersion).toOption.getD noVersion
  | .error _ => noVersion

abbrev usualSettings : String := "config.json"

def currentVersion (file : String := usualSettings) : Job Value :=
  return versionIn (← Job.files) file

def fetch (name : String) : Job (List UInt8) := do
  Job.note fun j => { j with addresses := j.addresses ++ [address ++ name] }
  match (← get).outside.remote (address ++ name) with
  | .ok bytes => return bytes
  | .error message => throw (.unreachable message)

def documentOf (bytes : List UInt8) : Except Fault Value := do
  match Document.readChars (← charsOf bytes) with
  | .error fault => throw (.document fault)
  | .ok v => return v

def latest : Job Value :=
  fetched.orElse fun fault => do
    Job.say ("⚠️ Unable to check updates: " ++ fault.message)
    return .null
where
  fetched : Job Value := do
    Job.attempt (documentOf (← fetch "latest.json"))

def usualFolder : Value := .text "."

def download (name : Value) (folder : Value := usualFolder) : Job Bool := do
  let path ← Job.attempt (folder.joinPath name)
  (fetched path).orElse fun fault => do
    Job.say ("❌ Failed to download " ++ name.plain ++ ": " ++ fault.message)
    return false
where
  /-- The file itself. -/
  fetched (path : String) : Job Bool := do
    Job.makeFolders (Path.folder path)
    let bytes ← fetch name.plain
    Job.onFiles (·.write path bytes)
    return true

def ask (current newest : Value) : Job Bool := do
  let window ← Job.openMain
  let wanted ← Job.ask "Update Available"
    ("New version available: " ++ newest.plain ++ "\nCurrent version: " ++ current.plain
      ++ "\n\nUpdate now?")
  Job.close window
  return wanted

def updateFile (folder : String) (name : Value) : Job Unit := do
  if ← download name (.text folder) then
    let target ← Job.attempt name.path
    Job.onFiles (·.move (Path.join folder target) target)
    Job.say ("✔ " ++ target ++ " updated")

def enterVersion (version : Value) : Job Unit :=
  entered.orElse fun fault =>
    Job.say ("⚠️ Failed to update version in config.json: " ++ fault.message)
where
  entered : Job Unit := do
    let data ← Job.attempt (Settings.load (← Job.files) "config.json")
    let data ← Job.attempt (data.assign "version" version)
    Job.writeText "config.json" (data.document 2)
    Job.say ("✅ Config updated: version = " ++ version.plain)

/-- Fetch all files and enter the new version. The folder for files that arrive is removed in the
end, whatever happens. -/
def install (files : List Value) (version : Value) : Job Unit := do
  let folder := temporaryFolder (← get).outside.temporary
  Job.makeFolders folder
  try
    files.forM (updateFile folder)
    enterVersion version
    Job.say ("✅ Update completed to version " ++ version.plain ++ ".")
  finally
    modify fun w => { w with files := (w.files.removeTree folder).toOption.getD w.files }

def run : Job Unit := do
  let current ← currentVersion
  let info ← latest
  if !info.isGiven then return
  let newest ← Job.attempt (info.lookup "version" current)
  if newest.same current then
    Job.say ("✅ Current version " ++ current.plain ++ " is up to date.")
    return
  if !(← ask current newest) then
    Job.say "Update cancelled by user."
    return
  let files ← Job.attempt (info.lookup "updated_files" (.list []))
  Job.say ("Updating " ++ decimal (← Job.attempt files.length) ++ " files...")
  install (← Job.attempt files.items) newest

end ApkWorkshop.Update
